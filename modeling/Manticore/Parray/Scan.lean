/-
  Manticore.Parray.Scan — `Rope.scan` (`basis/parray/rope.pml`; `int-rope.pml` is the same but for the order of
  `splitAt` and `join`) under the three chunking policies, and the sequential and the eager ones.

  `scanSequential` passes the accumulator over a leaf through its last element, so it fails on an empty leaf; the
  others label the rope in an upsweep (`label`) and scan its leaves in a downsweep. What they are to return is
  `prefixes`.
-/

import Manticore.Parray.Map
import Manticore.Parray.McRope

namespace Manticore.Parray

open Fuel (Returns ok_bind of_bind_ok)

variable {α : Type} (M : Int)

/-- The local function of `scanSequential`. -/
def scanSequential' (f : α → α → α) : Rope α → α → Except Exn (Rope α × α)
  | .leaf s, acc => do
    let s' := Seq.scan f acc s
    return (.leaf s', f (← seqLast s) (← seqLast s'))
  | .cat len d rp1 rp2, acc => do
    let (rp1', acc) ← scanSequential' f rp1 acc
    let (rp2', acc) ← scanSequential' f rp2 acc
    return (.cat len d rp1' rp2', acc)

def scanSequential (f : α → α → α) (b : α) (rp : Rope α) : Except Exn (Rope α) := do
  let (srp, _) ← scanSequential' f rp b
  return srp

def upsweepSequential (f : α → α → α) (b : α) : Rope α → Except Exn (MCRope α)
  | .leaf s => mcleaf M f b s
  | .cat _ _ rp1 rp2 => do return mcnccat2 f (← upsweepSequential f b rp1) (← upsweepSequential f b rp2)

def downsweepSequential (f : α → α → α) : MCRope α → α → Except Exn (Rope α)
  | .leaf _ s, acc => leaf M (Seq.scan f acc s)
  | .cat _ _ _ mcrp1 mcrp2, acc => do
    return nccat2 (← downsweepSequential f mcrp1 acc) (← downsweepSequential f mcrp2 (f acc (mcval mcrp1)))

def upsweepETS (SST : Int) (f : α → α → α) (b : α) : Nat → Rope α → Except Exn (MCRope α)
  | 0, _ => .error .fuel
  | n + 1, rp =>
    if rp.length ≤ SST then upsweepSequential M f b rp
    else do
      let (rp1, rp2) ← split2 M rp
      return mcnccat2 f (← upsweepETS SST f b n rp1) (← upsweepETS SST f b n rp2)

def downsweepETS (SST : Int) (f : α → α → α) (b : α) : Nat → MCRope α → α → Except Exn (Rope α)
  | 0, _, _ => .error .fuel
  | n + 1, mcrp, acc =>
    if mclength mcrp ≤ SST then downsweepSequential M f mcrp acc
    else do
      let (mcrp1, mcrp2) ← mcsplit2 M f b mcrp
      return nccat2 (← downsweepETS SST f b n mcrp1 acc) (← downsweepETS SST f b n mcrp2 (f (mcval mcrp1) acc))

def scanETS (SST : Int) (f : α → α → α) (b : α) (n : Nat) (rp : Rope α) : Except Exn (Rope α) := do
  downsweepETS M SST f b n (← upsweepETS M SST f b n rp) b

/-! ## The lazy upsweep -/

def numUnprocessedUpsweep (rp : Rope α) (c : GenCtx (Rope α) (MCRope α)) : Int := numUnprocessed mclength Rope.length rp c

def nextUpsweep (f : α → α → α) (mcrp : MCRope α) (c : GenCtx (Rope α) (MCRope α)) :
    Progress (List α × GenCtx (Rope α) (MCRope α)) (MCRope α) :=
  next leftmostLeaf (mcnccat2 f) mcrp c

def finishUpsweep (f : α → α → α) (cur : MCRope α × GenCtx (MCRope α) (MCRope α)) : MCRope α :=
  finish (mcnccat2 f) cur.1 cur.2

/-- A leaf of `upsweepUntil`. -/
def upsweepLeaf (f : α → α → α) (b : α) (σ : Answers) (_ : Unit) (s : List α) (c : GenCtx (Rope α) (MCRope α)) :
    Except Exn (Progress (Rope α × GenCtx (Rope α) (MCRope α)) (Unit × MCRope α) × Answers) :=
  match Seq.reduceUntil σ f b s with
  | (.more (p, us), σ) => do
    let ps ← mcleaf' M p (Seq.take s (s.length - us.length))
    if numUnprocessedUpsweep (← leaf M us) c < 2 then return (.done ((), ← mcccat2 M f ps (← mcleaf M f b us)), σ)
    else return (← more mclength (leaf M) (fun s => .ok s) us ps c, σ)
  | (.done p, σ) => do return (.done ((), ← mcleaf' M p s), σ)

def upsweepUntil (f : α → α → α) (b : α) (n : Nat) (σ : Answers) (cur : Rope α × GenCtx (Rope α) (MCRope α)) :
    Except Exn (Progress (Rope α × GenCtx (Rope α) (MCRope α)) (MCRope α)) :=
  let (s, c) := leftmostLeaf cur.1 cur.2
  sweepUntil (upsweepLeaf M f b) (nextUpsweep f) n σ () s c

def upsweepLTS (lib : Lib) (_PPT : Int) (f : α → α → α) (b : α) (n : Nat) (σ : Schedule) (rp : Rope α) :
    Except Exn (MCRope α) :=
  lazySplit (upsweepUntil M f b) (fun _ => splitRopes lib M mclength) (joinRopes lib decodeMCRope (finishUpsweep f)) n σ
    (rp, .top)

/-! ## The lazy downsweep -/

/-- The accumulator, and the cursor. -/
abbrev DownCur (α : Type) := α × MCRope α × GenCtx (MCRope α) (Rope α)

def numUnprocessedDownsweep (mcrp : MCRope α) (c : GenCtx (MCRope α) (Rope α)) : Int :=
  numUnprocessed Rope.length mclength mcrp c

def finishDownsweep (cur : Rope α × GenCtx (Rope α) (Rope α)) : Rope α := finish nccat2 cur.1 cur.2

def nextDownsweep (rp : Rope α) (c : GenCtx (MCRope α) (Rope α)) :
    Progress (α × List α × GenCtx (MCRope α) (Rope α)) (Rope α) :=
  next leftmostMCLeaf nccat2 rp c

/-- A leaf of `downsweepUntil`. -/
def downsweepLeaf (f : α → α → α) (b : α) (σ : Answers) (acc : α) (s : List α) (c : GenCtx (MCRope α) (Rope α)) :
    Except Exn (Progress (DownCur α) (α × Rope α) × Answers) :=
  match Seq.scanUntil σ f acc s with
  | ((acc, .more (us, ps)), σ) => do
    if numUnprocessedDownsweep (← mcleaf' M b us) c < 2 then
      match Seq.scanUntil (fun _ => false) f acc us with
      | ((acc', .done us'), _) => return (.done (acc', ← leaf M (ps ++ us')), σ)
      | ((_, .more _), _) => .error (.fail "downsweepUntil: expected Done")
    else do
      let c' ← if ps.length = 0 then .ok c else (GenCtx.right · c) <$> leaf M ps
      return (.more (acc, ← mcleaf M f b us, c'), σ)
  | ((acc, .done ps), σ) => do return (.done (acc, ← leaf M ps), σ)

def downsweepUntil (f : α → α → α) (b : α) (n : Nat) (σ : Answers) (cur : DownCur α) :
    Except Exn (Progress (DownCur α) (Rope α)) :=
  let (acc, mcrp, c) := cur
  let (_, s, c) := leftmostMCLeaf mcrp c
  sweepUntil (downsweepLeaf M f b) (fun rp c =>
    match nextDownsweep rp c with
    | .done rp => .done rp
    | .more (_, s', c') => .more (s', c')) n σ acc s c

/-- The second part starts with the combination of the first. -/
def splitDownsweep (lib : Lib) (f : α → α → α) (b : α) (cur : DownCur α) :
    Except Exn (DownCur α × DownCur α × Rebuilder (Rope α)) := do
  let (acc, mcrp, c) := cur
  let mid := numUnprocessedDownsweep mcrp c / 2
  let (mcrp1, mcrp2, reb) ← splitAt lib mclength (encodeMCRope f) (cursorAtIxMC M f b) unzipCursor (mcrp, c) mid
  return ((acc, ← startMC M mcrp1), (f acc (mcval mcrp1), ← startMC M mcrp2), reb)

def downsweepLTS (lib : Lib) (_PPT : Int) (f : α → α → α) (b : α) (n : Nat) (σ : Schedule) (mcrp : MCRope α) :
    Except Exn (Rope α) :=
  lazySplit (downsweepUntil M f b) (fun _ => splitDownsweep M lib f b) (joinRopes lib decodeRope finishDownsweep) n σ
    (b, mcrp, .top)

/-- Every sweep has its own schedule. -/
def scanLTS (lib : Lib) (PPT : Int) (f : α → α → α) (b : α) (n : Nat) (σ σ' : Schedule) (rp : Rope α) :
    Except Exn (Rope α) := do
  downsweepLTS M lib PPT f b n σ' (← upsweepLTS M lib PPT f b n σ rp)

def scan (lib : Lib) (policy : ChunkingPolicy) (f : α → α → α) (b : α) (n : Nat) (σ σ' : Schedule) (rp : Rope α) :
    Except Exn (Rope α) :=
  match policy with
  | .sequential => scanSequential f b rp
  | .ets SST => scanETS M SST f b n rp
  | .lts PPT => scanLTS M lib PPT f b n σ σ' rp

/-! ## The prefixes -/

/-- What `scan` is to return: at each element, the combination of those before it. -/
def prefixes (f : α → α → α) : α → List α → List α
  | _, [] => []
  | a, x :: xs => a :: prefixes f (f a x) xs

variable {M}

section
variable {f : α → α → α} {b : α}

theorem length_prefixes (a : α) (xs : List α) : (prefixes f a xs).length = xs.length := by
  induction xs generalizing a with
  | nil => rfl
  | cons x xs ih => exact congrArg (· + 1) (ih (f a x))

theorem prefixes_append (a : α) (xs ys : List α) :
    prefixes f a (xs ++ ys) = prefixes f a xs ++ prefixes f (xs.foldl f a) ys := by
  induction xs generalizing a with
  | nil => rfl
  | cons x xs ih => exact congrArg (a :: ·) (ih (f a x))

theorem foldl_scan (hcomm : ∀ x y, f x y = f y x) (s : List α) (a : α) (xs : List α) :
    s.foldl (fun (acc, ss) x => (f x acc, acc :: ss)) (a, xs) = (s.foldl f a, (prefixes f a s).reverse ++ xs) := by
  induction s generalizing a xs with
  | nil => rfl
  | cons x s ih =>
    rw [List.foldl_cons, List.foldl_cons, ih, hcomm x a, prefixes, List.reverse_cons, List.append_assoc]
    rfl

theorem seq_scan_eq (hcomm : ∀ x y, f x y = f y x) (a : α) (s : List α) : Seq.scan f a s = prefixes f a s := by
  rw [Seq.scan, foldl_scan hcomm, List.append_nil, List.reverse_reverse]

theorem scanUntil_cases (hcomm : ∀ x y, f x y = f y x) (σ : Answers) (a : α) (s : List α) :
    (∃ σ', Seq.scanUntil σ f a s = ((s.foldl f a, .done (prefixes f a s)), σ')) ∨
    ∃ ps us σ', s = ps ++ us ∧ us ≠ [] ∧ Seq.scanUntil σ f a s = ((ps.foldl f a, .more (us, prefixes f a ps)), σ') := by
  unfold Seq.scanUntil
  rcases Seq.loopUntil_cases (fun (acc, xs) x => (f x acc, acc :: xs)) s (a, []) σ with
    ⟨σ', hdone⟩ | ⟨ps, us, σ', hs, hne, hmore⟩
  · simp [hdone, foldl_scan, hcomm]
  · refine .inr ⟨ps, us, σ', hs, hne, ?_⟩
    rw [hmore, foldl_scan hcomm, List.append_nil]
    dsimp only
    rw [List.reverse_reverse]

theorem scanUntil_never (hcomm : ∀ x y, f x y = f y x) (a : α) (s : List α) :
    Seq.scanUntil (fun _ => false) f a s = ((s.foldl f a, .done (prefixes f a s)), fun _ => false) := by
  unfold Seq.scanUntil
  rw [Seq.loopUntil_never, foldl_scan hcomm, List.append_nil]
  dsimp only
  rw [List.reverse_reverse]

/-- The prefixes of a rope, in a well-formed rope. -/
def Scanned (M : Int) (f : α → α → α) (a : α) (rp rp' : Rope α) : Prop := rp'.WF M ∧ rp'.toList = prefixes f a rp.toList

variable {rp : Rope α} {SST : Int}

theorem Scanned.length_eq {a : α} {rp' : Rope α} (h : rp.WF M) (h' : Scanned M f a rp rp') :
    rp'.length = rp.length := by
  rw [h'.1.length_eq, h'.2, length_prefixes, h.length_eq]

theorem scanned_leaf (hcomm : ∀ x y, f x y = f y x) (a : α) {s : List α} (h : (Rope.leaf s).WF M) :
    leaf M (Seq.scan f a s) = .ok (.leaf (prefixes f a s)) ∧ Scanned M f a (.leaf s) (.leaf (prefixes f a s)) := by
  have hlen : ((prefixes f a s).length : Int) ≤ M := by
    rw [length_prefixes]
    exact h
  rw [seq_scan_eq hcomm]
  exact ⟨leaf_ok hlen, hlen, rfl⟩

/-! ## Sequential -/

/-- The last element and its prefix give the combination of all. -/
theorem seqLast_prefixes (hcomm : ∀ x y, f x y = f y x) (a : α) {s : List α} (hne : s ≠ []) :
    ∃ x y, seqLast s = .ok x ∧ seqLast (prefixes f a s) = .ok y ∧ f x y = s.foldl f a := by
  rcases List.eq_nil_or_concat s with rfl | ⟨ps, x, rfl⟩
  · exact absurd rfl hne
  · rw [List.concat_eq_append]
    refine ⟨x, ps.foldl f a, seqLast_concat ps x, ?_, ?_⟩
    · rw [prefixes_append]
      exact seqLast_concat _ _
    · rw [List.foldl_append, hcomm]
      rfl

theorem scanSequential'_ok (hcomm : ∀ x y, f x y = f y x) (h : rp.WF M) (hne : ∀ s ∈ rp.leaves, s ≠ []) (a : α) :
    ∃ rp', scanSequential' f rp a = .ok (rp', rp.toList.foldl f a) ∧ Scanned M f a rp rp' ∧ rp'.depth = rp.depth :=
      by
  induction rp generalizing a with
  | leaf s =>
    obtain ⟨x, y, hx, hy, hacc⟩ := seqLast_prefixes hcomm a (hne s List.mem_cons_self)
    refine ⟨.leaf (prefixes f a s), ?_, (scanned_leaf hcomm a h).2, rfl⟩
    simp only [scanSequential', seq_scan_eq hcomm, hx, hy, ok_bind, hacc]
    rfl
  | cat len d l r ihl ihr =>
    obtain ⟨hlen, hd, hl, hr⟩ := h
    obtain ⟨l', hretl, hsl, hdl⟩ := ihl hl (fun s hs => hne s (List.mem_append_left _ hs)) a
    obtain ⟨r', hretr, hsr, hdr⟩ := ihr hr (fun s hs => hne s (List.mem_append_right _ hs)) (l.toList.foldl f a)
    refine ⟨.cat len d l' r', ?_, ⟨⟨?_, ?_, hsl.1, hsr.1⟩, ?_⟩, rfl⟩
    · simp only [scanSequential', hretl, hretr, ok_bind, Rope.toList, List.foldl_append]
      rfl
    · rw [hlen, hsl.length_eq hl, hsr.length_eq hr]
    · rw [hd, hdl, hdr]
    · rw [Rope.toList, hsl.2, hsr.2, Rope.toList, prefixes_append]

/-- An empty leaf has no last element. -/
theorem scanSequential'_fails (h : [] ∈ rp.leaves) (a : α) (res : Rope α × α) :
    scanSequential' f rp a ≠ .ok res := by
  induction rp generalizing a res with
  | leaf s =>
    obtain rfl : [] = s := List.mem_singleton.mp h
    exact nofun
  | cat len d l r ihl ihr =>
    intro hok
    obtain ⟨⟨l', acc⟩, hl, hok⟩ := of_bind_ok hok
    obtain ⟨⟨r', acc'⟩, hr, -⟩ := of_bind_ok hok
    rcases List.mem_append.mp h with hmem | hmem
    · exact ihl hmem a (l', acc) hl
    · exact ihr hmem acc (r', acc') hr

/-! ## Sweeps -/

theorem upsweepSequential_ok (hcomm : ∀ x y, f x y = f y x) (h : rp.WF M) :
    upsweepSequential M f b rp = .ok (label f b rp) := by
  induction rp with
  | leaf s => exact mcleaf_ok hcomm h
  | cat len d l r ihl ihr =>
    rw [h.eq_nccat2, ← mcnccat2_label]
    obtain ⟨-, -, hl, hr⟩ := h
    show (do return mcnccat2 f (← upsweepSequential M f b l) (← upsweepSequential M f b r)) = _
    rw [ihl hl, ihr hr]
    rfl

theorem mcsplit2_label (hcomm : ∀ x y, f x y = f y x) {l r : Rope α} (h : split2 M rp = .ok (l, r)) :
    mcsplit2 M f b (label f b rp) = .ok (label f b l, label f b r) := by
  cases rp with
  | leaf s =>
    obtain ⟨l', hl, h⟩ := of_bind_ok h
    obtain ⟨r', hr, h⟩ := of_bind_ok h
    obtain ⟨rfl, hl'⟩ := leaf_inv hl
    obtain ⟨rfl, hr'⟩ := leaf_inv hr
    cases h
    simp only [label, mcsplit2, Seq.split2, mcleaf_ok hcomm hl', mcleaf_ok hcomm hr', ok_bind]
    rfl
  | cat len d l r =>
    cases h
    rfl

theorem upsweepETS_small (hcomm : ∀ x y, f x y = f y x) (h : rp.WF M) (hle : rp.length ≤ SST) :
    Returns (fun n => upsweepETS M SST f b n rp) (label f b rp) := by
  refine .succ ?_
  simp only [upsweepETS, if_pos hle, upsweepSequential_ok hcomm h]
  exact .pure _

theorem upsweepETS_returns (hcomm : ∀ x y, f x y = f y x) (h : rp.WF M) (hSST : 1 ≤ SST ∨ rp.length ≤ SST) :
    ∃ rp', Returns (fun n => upsweepETS M SST f b n rp) (label f b rp') ∧ rp'.WF M ∧ rp'.toList = rp.toList := by
  rcases hSST with hSST | hle
  · refine split2_induction (P := fun rp => ∃ rp', Returns (fun n => upsweepETS M SST f b n rp) (label f b rp') ∧ rp'.WF M ∧
      rp'.toList = rp.toList) hSST (fun rp h hle => ⟨rp, upsweepETS_small hcomm h hle, h, rfl⟩) ?_ h
    intro rp l r hgt hsplit hl hr happ hPl hPr
    obtain ⟨l', hretl, hl', htol⟩ := hPl
    obtain ⟨r', hretr, hr', htor⟩ := hPr
    refine ⟨nccat2 l' r', .succ ?_, wf_nccat2 hl' hr', ?_⟩
    · simp only [upsweepETS, if_neg hgt, hsplit, ok_bind, ← mcnccat2_label]
      exact hretl.bind (hretr.bind (.pure _))
    · rw [toList_nccat2, htol, htor, happ]
  · exact ⟨rp, upsweepETS_small hcomm h hle, h, rfl⟩

/-- A threshold that is not positive leads to the split of a leaf for ever. -/
theorem upsweepETS_fails (hSST : SST ≤ 0) (n : Nat) (h : rp.WF M) (hgt : SST < rp.length) (mcrp : MCRope α) :
    upsweepETS M SST f b n rp ≠ .ok mcrp := by
  induction n generalizing rp mcrp with
  | zero => exact nofun
  | succ n ih =>
    intro hok
    simp only [upsweepETS, if_neg (Int.not_le.mpr hgt)] at hok
    obtain ⟨⟨l, r⟩, hsplit, hok⟩ := of_bind_ok hok
    obtain ⟨mcrp1, hret1, hok⟩ := of_bind_ok hok
    obtain ⟨mcrp2, hret2, -⟩ := of_bind_ok hok
    cases rp with
    | leaf s =>
      obtain ⟨hsplit', hl, hr⟩ := split2_leaf h
      cases hsplit.symm.trans hsplit'
      have hlen : (Rope.leaf s).length = s.length := rfl
      have hlen' : (Rope.leaf (s.drop (s.length / 2))).length = (s.length - s.length / 2 : Nat) :=
        congrArg Nat.cast List.length_drop
      exact ih hr (by omega) mcrp2 hret2
    | cat len d l' r' =>
      cases hsplit
      obtain ⟨rfl, -, hl, hr⟩ := h
      have hlen : (Rope.cat (l.length + r.length) d l r).length = l.length + r.length := rfl
      have hl0 := hl.length_nonneg
      have hr0 := hr.length_nonneg
      by_cases hleft : SST < l.length
      · exact ih hl hleft mcrp1 hret1
      · exact ih hr (by omega) mcrp2 hret2

section
variable (hassoc : ∀ x y z, f (f x y) z = f x (f y z)) (hcomm : ∀ x y, f x y = f y x) (hleft : ∀ x, f b x = x)
include hassoc hcomm hleft

/-- Past a labelled rope. -/
theorem advance_label (rp : Rope α) (a : α) : f a (mcval (label f b rp)) = rp.toList.foldl f a := by
  have hright : ∀ x, f x b = x := fun x => (hcomm x b).trans (hleft x)
  rw [mcval_label hassoc hleft hright, ← foldl_from hassoc hleft hright]

variable {rp : Rope α} {SST : Int}

theorem downsweepSequential_ok (h : rp.WF M) (a : α) :
    ∃ rp', downsweepSequential M f (label f b rp) a = .ok rp' ∧ Scanned M f a rp rp' := by
  induction rp generalizing a with
  | leaf s =>
    obtain ⟨hleaf, hscan⟩ := scanned_leaf hcomm a h
    exact ⟨_, hleaf, hscan⟩
  | cat len d l r ihl ihr =>
    obtain ⟨-, -, hl, hr⟩ := h
    obtain ⟨l', hretl, hsl⟩ := ihl hl a
    obtain ⟨r', hretr, hsr⟩ := ihr hr (l.toList.foldl f a)
    refine ⟨nccat2 l' r', ?_, wf_nccat2 hsl.1 hsr.1, ?_⟩
    · simp only [label_cat, downsweepSequential, hretl, advance_label hassoc hcomm hleft, hretr, ok_bind]
      rfl
    · rw [toList_nccat2, hsl.2, hsr.2, Rope.toList, prefixes_append]

theorem downsweepETS_small (h : rp.WF M) (hle : rp.length ≤ SST) (a : α) :
    ∃ rp', Returns (fun n => downsweepETS M SST f b n (label f b rp) a) rp' ∧ Scanned M f a rp rp' := by
  obtain ⟨rp', hret, hscan⟩ := downsweepSequential_ok hassoc hcomm hleft h a
  refine ⟨rp', .succ ?_, hscan⟩
  simp only [downsweepETS, mclength_label, if_pos hle, hret]
  exact .pure _

theorem downsweepETS_returns (h : rp.WF M) (hSST : 1 ≤ SST ∨ rp.length ≤ SST) (a : α) :
    ∃ rp', Returns (fun n => downsweepETS M SST f b n (label f b rp) a) rp' ∧ Scanned M f a rp rp' := by
  rcases hSST with hSST | hle
  · refine split2_induction (P := fun rp => ∀ a, ∃ rp', Returns (fun n => downsweepETS M SST f b n (label f b rp) a) rp' ∧
      Scanned M f a rp rp') hSST (fun rp h hle a => downsweepETS_small hassoc hcomm hleft h hle a) ?_ h a
    intro rp l r hgt hsplit hl hr happ hPl hPr a
    obtain ⟨l', hretl, hsl⟩ := hPl a
    obtain ⟨r', hretr, hsr⟩ := hPr (l.toList.foldl f a)
    refine ⟨nccat2 l' r', .succ ?_, wf_nccat2 hsl.1 hsr.1, ?_⟩
    · simp only [downsweepETS, mclength_label, if_neg hgt, mcsplit2_label hcomm hsplit, ok_bind, hcomm (mcval _) a,
        advance_label hassoc hcomm hleft]
      exact hretl.bind (hretr.bind (.pure _))
    · rw [toList_nccat2, hsl.2, hsr.2, ← happ, prefixes_append]
  · exact downsweepETS_small hassoc hcomm hleft h hle a

theorem scanETS_returns (h : rp.WF M) (hSST : 1 ≤ SST ∨ rp.length ≤ SST) :
    ∃ rp', Returns (fun n => scanETS M SST f b n rp) rp' ∧ Scanned M f b rp rp' := by
  obtain ⟨rp1, hret1, hwf1, hto1⟩ := upsweepETS_returns (b := b) hcomm h hSST
  have hlen : rp1.length = rp.length := by
    rw [hwf1.length_eq, hto1, h.length_eq]
  obtain ⟨rp', hret2, hwf, hto⟩ := downsweepETS_returns hassoc hcomm hleft hwf1 (hlen ▸ hSST) b
  exact ⟨rp', hret1.bind hret2, hwf, hto1 ▸ hto⟩

end

end

end Manticore.Parray
