/-
  Manticore.Parray.Tabulate — `Rope.tabulate` (`basis/parray/rope.pml`) under the three chunking policies. An interval
  is its first index and the index after its last. The ints of the source have 32 bits; the sum of two indices up to
  `Int.maxInt`, which is 2^30 - 1, does not overflow.

  `tabulate_returns`: under every policy and schedule, the values at the indices in order, in a well-formed rope.
-/

import Manticore.Parray.RopeCursor

namespace Manticore.Parray

open Fuel (Returns)
open Pieces
open List (range map_map forall_mem_cons map_cons sum_cons)

variable {α : Type} (M : Int)

abbrev Interval := Int × Int

def intervalLength (intv : Interval) : Int := intv.2 - intv.1

def tabulateSequence (f : Int → α) (intv : Interval) : List α := Seq.tabulate (intervalLength intv) fun i => f (intv.1 + i)

def splitInterval2 (intv : Interval) : Interval × Interval :=
  let m := (intv.1 + intv.2).tdiv 2
  ((intv.1, m), (m, intv.2))

def tabulateSequential (f : Int → α) : Nat → Interval → Except Exn (Rope α)
  | 0, _ => .error .fuel
  | n + 1, intv =>
    if intervalLength intv ≤ M ∨ intervalLength intv < 2 then leaf M (tabulateSequence f intv)
    else do
      let (int1, int2) := splitInterval2 intv
      return nccat2 (← tabulateSequential f n int1) (← tabulateSequential f n int2)

def tabulateETS (SST : Int) (f : Int → α) : Nat → Interval → Except Exn (Rope α)
  | 0, _ => .error .fuel
  | n + 1, intv =>
    if intervalLength intv ≤ SST ∨ intervalLength intv < 2 then tabulateSequential M f n intv
    else do
      let (intv1, intv2) := splitInterval2 intv
      return nccat2 (← tabulateETS SST f n intv1) (← tabulateETS SST f n intv2)

abbrev TabCtx (α : Type) := GenCtx Interval (Rope α)

def numUnprocessedTab (intv : Interval) (c : TabCtx α) : Int := numUnprocessed Rope.length intervalLength intv c

/-- The recursion is on the length, which every step halves; for a maximum leaf size below 0 the source does not end. -/
def leftmostTabFrom : Nat → Interval → TabCtx α → Interval × TabCtx α
  | 0, intv, c => (intv, c)
  | k + 1, intv, c =>
    if intervalLength intv ≤ M then (intv, c)
    else
      let (intv1, intv2) := splitInterval2 intv
      leftmostTabFrom k intv1 (.left c intv2)

def leftmostTab (intv : Interval) (c : TabCtx α) : Interval × TabCtx α := leftmostTabFrom M (intervalLength intv).toNat intv c

def nextTab (f : Rope α) (c : TabCtx α) : Progress (Interval × TabCtx α) (Rope α) := next (leftmostTab M) nccat2 f c

/-- On the length again, of an interval with the index in it. -/
def moveToIxFrom : Nat → Interval → UnzippedCtx Interval Interval → Int → Except Exn (Interval × UnzippedCtx Interval Interval)
  | 0, _, _, _ => .error .fuel
  | k + 1, intv, (ls, rs, ds), i =>
    if intervalLength intv = 1 then .ok (intv, (ls, rs, ds))
    else
      let (intv1, intv2) := splitInterval2 intv
      if i < intervalLength intv1 then moveToIxFrom k intv1 (ls, intv2 :: rs, .left :: ds) i
      else moveToIxFrom k intv2 (intv1 :: ls, rs, .right :: ds) (i - intervalLength intv1)

def cursorAtIxIntv (intv : Interval) (i : Int) : Except Exn (Interval × UnzippedCtx Interval Interval) :=
  if 0 ≤ i ∧ i < intervalLength intv then moveToIxFrom (intervalLength intv).toNat intv ([], [], []) i
  else .error (.fail "subscript")

def encodeCurFrom : List Interval → Except Exn (Interval × TabCtx α)
  | [] => .error (.fail "encodeCur")
  | [intv] => .ok (intv, .top)
  | intv :: intvs => do
    let (intv', c) ← encodeCurFrom intvs
    return (intv, .left c intv')

def encodeCur (intvs : List Interval) : Except Exn ((Interval × TabCtx α) × Nat) := do
  return (← encodeCurFrom intvs, intvs.length)

/-- The last piece first. -/
def decodeRopeTabRev : Rope α → Nat → Except Exn (List (Rope α))
  | rp, n =>
    if n = 1 then .ok [rp]
    else
      match rp with
      | .cat _ _ rp1 rp2 => do return rp2 :: (← decodeRopeTabRev rp1 (n - 1))
      | .leaf _ => .error (.fail "decodeRope")

def decodeRopeTab (rp : Rope α) (n : Nat) : Except Exn (List (Rope α)) := do return (← decodeRopeTabRev rp n).reverse

def rootUFrom (rp : Rope α) : List (Rope α) → List (Rope α) → List Dir → Except Exn (Rope α)
  | [], [], [] => .ok rp
  | ls, r :: rs, .left :: ds => rootUFrom (nccat2 rp r) ls rs ds
  | l :: ls, rs, .right :: ds => rootUFrom (nccat2 l rp) ls rs ds
  | _ :: _, [], [] => .error (.fail "l::ls, nil, nil")
  | _, _, _ => .error (.fail "rootU")

def rootU (rp : Rope α) (uc : UnzippedCtx (Rope α) (Rope α)) : Except Exn (Rope α) :=
  let (ls, rs, ds) := uc
  rootUFrom rp ls rs ds

/-- A leaf of `tabulateUntil`. -/
def tabLeaf (f : Int → α) (σ : Answers) (_ : Unit) (intv : Interval) (c : TabCtx α) :
    Except Exn (Progress (Interval × TabCtx α) (Unit × Rope α) × Answers) :=
  match Seq.tabulateUntil σ intv f with
  | (.more ps, σ) => do
    let us := (intv.1 + ps.length, intv.2)
    if numUnprocessedTab us c < 2 then
      match Seq.tabulateUntil (fun _ => false) us f with
      | (.done us', _) => return (.done ((), ← leaf M (ps ++ us')), σ)
      | (.more _, _) => .error (.fail "expected Done")
    else return (← more (fun ps : List α => (ps.length : Int)) .ok (leaf M) us ps c, σ)
  | (.done ps, σ) => do return (.done ((), ← leaf M ps), σ)

def tabulateUntil (f : Int → α) (n : Nat) (σ : Answers) (cur : Interval × TabCtx α) :
    Except Exn (Progress (Interval × TabCtx α) (Rope α)) :=
  let (intv, c) := leftmostTab M cur.1 cur.2
  sweepUntil (tabLeaf M f) (nextTab M) n σ () intv c

def splitTab (cur : Interval × TabCtx α) :
    Except Exn ((Interval × TabCtx α) × (Interval × TabCtx α) × Rebuilder (Rope α)) :=
  splitAt .rope intervalLength encodeCur cursorAtIxIntv id (unzipCursor cur) (numUnprocessedTab cur.1 cur.2 / 2)

def tabulateLTS (f : Int → α) (n : Nat) (σ : Schedule) (intv : Interval) : Except Exn (Rope α) :=
  lazySplit (tabulateUntil M f) (fun _ => splitTab) (join .rope decodeRopeTab id rootU) n σ (intv, .top)

/-- `fuel` is for the recursions, and `n` the number of elements. -/
def tabulate (policy : ChunkingPolicy) (f : Int → α) (n : Int) (fuel : Nat) (σ : Schedule) : Except Exn (Rope α) :=
  if n < 0 then .error (.fail "Size")
  else
    match policy with
    | .sequential => tabulateSequential M f fuel (0, n)
    | .ets SST => tabulateETS M SST f fuel (0, n)
    | .lts _ => tabulateLTS M f fuel σ (0, n)

variable {M}

/-! ## Intervals -/

/-- `div`, which rounds to zero, is that quotient or the next one. -/
theorem tdiv_two (a : Int) :
    (0 ≤ a ∨ a % 2 = 0) ∧ a.tdiv 2 = a / 2 ∨ a < 0 ∧ a % 2 = 1 ∧ a.tdiv 2 = a / 2 + 1 := by
  rw [Int.tdiv_eq_ediv]
  split
  · exact .inl ⟨by omega, Int.add_zero _⟩
  · exact .inr ⟨by omega, by omega, rfl⟩

theorem splitInterval2_spec (intv : Interval) (h : 2 ≤ intervalLength intv) :
    ∃ m, splitInterval2 intv = ((intv.1, m), (m, intv.2)) ∧ intv.1 < m ∧ m < intv.2 := by
  unfold intervalLength at h
  have hdiv := tdiv_two (intv.1 + intv.2)
  exact ⟨(intv.1 + intv.2).tdiv 2, rfl, by omega, by omega⟩

/-- The values at the indices of neighbouring intervals. -/
theorem tabulateSequence_append (f : Int → α) {lo m hi : Int} (h1 : lo ≤ m) (h2 : m ≤ hi) :
    tabulateSequence f (lo, m) ++ tabulateSequence f (m, hi) = tabulateSequence f (lo, hi) := by
  have hlen : (hi - lo).toNat = (m - lo).toNat + (hi - m).toNat := by omega
  show (range (m - lo).toNat).map _ ++ (range (hi - m).toNat).map _ = (range (hi - lo).toNat).map _
  rw [hlen, List.range_add, List.map_append, map_map]
  congr 1
  grind [List.map_congr_left]

theorem length_tabulateSequence (f : Int → α) (intv : Interval) :
    (tabulateSequence f intv).length = (intervalLength intv).toNat := Seq.length_tabulate _ _

/-- The loop over an interval ends, or stops before one of its indices. -/
theorem tabulateUntil_cases (σ : Answers) (f : Int → α) (intv : Interval) :
    (∃ σ', Seq.tabulateUntil σ intv f = (.done (tabulateSequence f intv), σ')) ∨
    ∃ m σ', intv.1 ≤ m ∧ m < intv.2 ∧ Seq.tabulateUntil σ intv f = (.more (tabulateSequence f (intv.1, m)), σ') := by
  unfold Seq.tabulateUntil
  have hvalues : ∀ k : Nat, ((range k).map fun i : Nat => intv.1 + (i : Int)).map f =
      (range k).map fun i : Nat => f (intv.1 + i) := fun k => map_map
  rcases Seq.loopUntil_cases (fun xs i => f i :: xs) (Seq.tabulate (intv.2 - intv.1) (intv.1 + ·)) [] σ with
    ⟨σ', hdone⟩ | ⟨ps, us, σ', hs, hne, hmore⟩
  · refine .inl ⟨σ', ?_⟩
    rw [hdone]
    refine congrArg (fun xs => (Progress.done xs, σ')) ?_
    rw [Seq.foldl_map_reverse]
    exact hvalues _
  · have hlen : ps.length + us.length = (intv.2 - intv.1).toNat := by
      rw [← List.length_append, ← hs, Seq.length_tabulate]
    have hpos : 0 < us.length := List.length_pos_iff.mpr hne
    have hps : ps = (range ps.length).map fun i : Nat => intv.1 + (i : Int) := by
      have htake := congrArg (List.take ps.length) hs
      rw [List.take_left, Seq.tabulate, ← List.map_take, List.take_range, Nat.min_eq_left (by omega)] at htake
      exact htake.symm
    refine .inr ⟨intv.1 + ps.length, σ', by omega, by omega, ?_⟩
    rw [hmore]
    refine congrArg (fun xs => (Progress.more xs, σ')) ?_
    have hk : (intv.1 + ps.length - intv.1).toNat = ps.length := by omega
    rw [Seq.foldl_map_reverse, tabulateSequence, intervalLength, Seq.tabulate, hk]
    conv => lhs; rw [hps]
    exact hvalues _

theorem tabulateUntil_never (f : Int → α) (intv : Interval) :
    ∃ σ', Seq.tabulateUntil (fun _ => false) intv f = (.done (tabulateSequence f intv), σ') := by
  unfold Seq.tabulateUntil
  refine ⟨fun _ => false, ?_⟩
  rw [Seq.loopUntil_never]
  refine congrArg (fun xs => (Progress.done xs, fun _ => false)) ?_
  rw [Seq.foldl_map_reverse]
  exact map_map

/-! ## Sequential and eager -/

/-- A rope with the values at the indices of an interval. -/
def Tabulated (M : Int) (f : Int → α) (intv : Interval) (rp : Rope α) : Prop :=
  rp.WF M ∧ rp.toList = tabulateSequence f intv

theorem Tabulated.nccat2 {f : Int → α} {lo m hi : Int} {rp1 rp2 : Rope α} (h1 : Tabulated M f (lo, m) rp1)
    (h2 : Tabulated M f (m, hi) rp2) (hlo : lo ≤ m) (hhi : m ≤ hi) : Tabulated M f (lo, hi) (nccat2 rp1 rp2) :=
  ⟨wf_nccat2 h1.1 h2.1, by rw [toList_nccat2, h1.2, h2.2, tabulateSequence_append f hlo hhi]⟩

theorem leaf_tabulated (f : Int → α) (intv : Interval) (h0 : 0 ≤ M) (h : intervalLength intv ≤ M) :
    leaf M (tabulateSequence f intv) = .ok (.leaf (tabulateSequence f intv)) ∧
      Tabulated M f intv (.leaf (tabulateSequence f intv)) := by
  have hle : ((tabulateSequence f intv).length : Int) ≤ M := by
    rw [length_tabulateSequence]
    omega
  exact ⟨leaf_ok hle, hle, rfl⟩

/-- Halving down to intervals that another function tabulates. -/
theorem tabulates_of_step {t g : Nat → Interval → Except Exn (Rope α)} {f : Int → α} {SST : Int}
    (hstep : ∀ n intv, t (n + 1) intv = if intervalLength intv ≤ SST ∨ intervalLength intv < 2 then g n intv
      else do
        let (intv1, intv2) := splitInterval2 intv
        return nccat2 (← t n intv1) (← t n intv2))
    (hg : ∀ intv, intervalLength intv ≤ SST ∨ intervalLength intv < 2 →
      ∃ rp, Returns (fun n => g n intv) rp ∧ Tabulated M f intv rp) (intv : Interval) :
    ∃ rp, Returns (fun n => t n intv) rp ∧ Tabulated M f intv rp := by
  induction hk : (intervalLength intv).toNat using Nat.strong_induction_on generalizing intv with
  | _ k ih =>
    by_cases hsmall : intervalLength intv ≤ SST ∨ intervalLength intv < 2
    · obtain ⟨rp, hret, htab⟩ := hg intv hsmall
      refine ⟨rp, .succ ?_, htab⟩
      simp only [hstep, if_pos hsmall]
      exact hret
    · obtain ⟨m, hsplit, hlo, hhi⟩ := splitInterval2_spec intv (by omega)
      have hlen : intervalLength intv = intv.2 - intv.1 := rfl
      obtain ⟨rp1, hret1, h1⟩ := ih _ (show (m - intv.1).toNat < k by omega) (intv.1, m) rfl
      obtain ⟨rp2, hret2, h2⟩ := ih _ (show (intv.2 - m).toNat < k by omega) (m, intv.2) rfl
      refine ⟨nccat2 rp1 rp2, .succ ?_, h1.nccat2 h2 (Int.le_of_lt hlo) (Int.le_of_lt hhi)⟩
      simp only [hstep, if_neg hsmall, hsplit]
      exact hret1.bind (hret2.bind (.pure _))

theorem tabulateSequential_returns (f : Int → α) (hM : 1 ≤ M) (intv : Interval) :
    ∃ rp, Returns (fun n => tabulateSequential M f n intv) rp ∧ Tabulated M f intv rp := by
  refine tabulates_of_step (g := fun _ intv => leaf M (tabulateSequence f intv)) (fun _ _ => rfl) (fun intv h => ?_) intv
  obtain ⟨hleaf, htab⟩ := leaf_tabulated (M := M) f intv (by omega) (by omega)
  exact ⟨_, ⟨0, fun _ _ => hleaf⟩, htab⟩

theorem tabulateETS_returns (SST : Int) (f : Int → α) (hM : 1 ≤ M) (intv : Interval) :
    ∃ rp, Returns (fun n => tabulateETS M SST f n intv) rp ∧ Tabulated M f intv rp :=
  tabulates_of_step (fun _ _ => rfl) (fun intv _ => tabulateSequential_returns f hM intv) intv

/-! ## Lazy -/

def tabWork (M : Int) (f : Int → α) : Work Unit Interval (Rope α) := ⟨fun _ => Tabulated M f, fun s _ => s, nccat2⟩

theorem tabWork_put (f : Int → α) {lo m hi : Int} (hlo : lo ≤ m) (hhi : m ≤ hi) (s : Unit) (bl br : Rope α)
    (hl : (tabWork M f).done s (lo, m) bl) (hr : (tabWork M f).done ((tabWork M f).adv s (lo, m)) (m, hi) br) :
    (tabWork M f).done s (lo, hi) ((tabWork M f).put bl br) := Tabulated.nccat2 hl hr hlo hhi

/-- Intervals that are not empty. -/
def Inhabited (intv : Interval) : Prop := 1 ≤ intervalLength intv

section
variable {f : Int → α} {Q : Rope α → Prop}

def tabLeft (c : TabCtx α) : Int := (c.rights.map intervalLength).sum

variable {xs : List Interval} {c : TabCtx α} {k : Nat} {intv : Interval}

theorem sum_nonneg_of_inhabited (h : ∀ x ∈ xs, Inhabited x) : 0 ≤ (xs.map intervalLength).sum := by
  induction xs with
  | nil => exact Int.le_refl 0
  | cons x xs ih =>
    obtain ⟨hx, hxs⟩ := forall_mem_cons.mp h
    have hx' : 1 ≤ intervalLength x := hx
    have hsum := ih hxs
    rw [map_cons, sum_cons]
    omega

theorem tabLeft_nonneg (h : ∀ x ∈ c.rights, Inhabited x) : 0 ≤ tabLeft c := sum_nonneg_of_inhabited h

/-- A cursor that makes up a whole with `Q`; the interval it is at may be empty. -/
def TabOpen (M : Int) (f : Int → α) (Q : Rope α → Prop) (cur : Interval × TabCtx α) : Prop :=
  Good (tabWork M f) Q () cur.1 cur.2 ∧ 0 ≤ intervalLength cur.1 ∧ ∀ x ∈ cur.2.rights, Inhabited x

theorem leftmostTabFrom_good (hM : 1 ≤ M) (h : Good (tabWork M f) Q () intv c) (hc : ∀ x ∈ c.rights, Inhabited x)
    (h0 : 0 ≤ intervalLength intv) (hk : intervalLength intv ≤ k) :
    ∃ x c', leftmostTabFrom M k intv c = (x, c') ∧ TabOpen M f Q (x, c') ∧ intervalLength x ≤ M ∧
      (1 ≤ intervalLength intv → 1 ≤ intervalLength x) ∧ intervalLength x + tabLeft c' = intervalLength intv +
      tabLeft c := by
  induction k generalizing intv c with
  | zero => exact ⟨intv, c, rfl, ⟨h, h0, hc⟩, by omega, id, rfl⟩
  | succ k ih =>
    unfold leftmostTabFrom
    by_cases hle : intervalLength intv ≤ M
    · rw [if_pos hle]
      exact ⟨intv, c, rfl, ⟨h, h0, hc⟩, hle, id, rfl⟩
    · rw [if_neg hle]
      obtain ⟨m, hsplit, hlo, hhi⟩ := splitInterval2_spec intv (by omega)
      have hlen : intervalLength intv = intv.2 - intv.1 := rfl
      have hlen1 : intervalLength (intv.1, m) = m - intv.1 := rfl
      have hlen2 : intervalLength (m, intv.2) = intv.2 - m := rfl
      have hgood : Good (tabWork M f) Q () (intv.1, m) (.left c (m, intv.2)) :=
        h.left (tabWork_put f (Int.le_of_lt hlo) (Int.le_of_lt hhi) ()) rfl
      have hrights : ∀ x ∈ (GenCtx.left c (m, intv.2)).rights, Inhabited x := by
        intro x hx
        rcases List.mem_cons.mp hx with rfl | hx
        · show 1 ≤ intv.2 - m
          omega
        · exact hc x hx
      obtain ⟨x, c', hleft, hopen, hxM, hx1, hsum⟩ := ih hgood hrights (by omega) (by omega)
      refine ⟨x, c', ?_, hopen, hxM, fun _ => hx1 (by omega), ?_⟩
      · rw [hsplit]
        exact hleft
      · rw [hsum, tabLeft, GenCtx.rights, map_cons, sum_cons]
        unfold tabLeft
        omega

theorem leftmostTab_good (hM : 1 ≤ M) (h : TabOpen M f Q (intv, c)) :
    ∃ x c', leftmostTab M intv c = (x, c') ∧ TabOpen M f Q (x, c') ∧ intervalLength x ≤ M ∧
      (1 ≤ intervalLength intv → 1 ≤ intervalLength x) ∧ intervalLength x + tabLeft c' = intervalLength intv +
      tabLeft c :=
  leftmostTabFrom_good hM h.1 h.2.2 h.2.1 (by have h0 := h.2.1; omega)

theorem numUnprocessedTab_eq (intv : Interval) (c : TabCtx α) :
    numUnprocessedTab intv c = intervalLength intv + tabLeft c := by
  rw [numUnprocessedTab, numUnprocessed_eq, map_cons, sum_cons]
  rfl

/-- A leaf is finished, or interrupted with two elements left or more. -/
theorem tabLeaf_ok (η : Answers) (h : TabOpen M f Q (intv, c)) (hle : intervalLength intv ≤ M) :
    ∃ res η', tabLeaf M f η () intv c = .ok (res, η') ∧ Swept (fun tb => Tabulated M f intv tb.2)
      (fun cur => TabOpen M f Q cur ∧ Inhabited cur.1 ∧ 2 ≤ intervalLength cur.1 + tabLeft cur.2 ∧ intervalLength cur.1 + tabLeft cur.2 ≤ intervalLength intv + tabLeft c)
      res := by
  have h0 : 0 ≤ intervalLength intv := h.2.1
  unfold tabLeaf
  rcases tabulateUntil_cases η f intv with ⟨η', hdone⟩ | ⟨m, η', hlo, hhi, hmore⟩
  · rw [hdone]
    obtain ⟨hleaf, htab⟩ := leaf_tabulated f intv (by omega) hle
    exact ⟨.done ((), .leaf (tabulateSequence f intv)), η', by simp only [hleaf]; rfl, htab⟩
  · rw [hmore]
    have hlen : intervalLength intv = intv.2 - intv.1 := rfl
    have hps : intervalLength (intv.1, m) = m - intv.1 := rfl
    have hus : intervalLength (m, intv.2) = intv.2 - m := rfl
    have hcount : intv.1 + ((tabulateSequence f (intv.1, m)).length : Int) = m := by
      rw [length_tabulateSequence]
      omega
    dsimp only
    rw [hcount, numUnprocessedTab_eq]
    by_cases hlast : intervalLength (m, intv.2) + tabLeft c < 2
    · obtain ⟨σ', hnever⟩ := tabulateUntil_never f (m, intv.2)
      obtain ⟨hleaf, htab⟩ := leaf_tabulated f intv (by omega) hle
      refine ⟨.done ((), .leaf (tabulateSequence f intv)), η', ?_, htab⟩
      rw [if_pos hlast, hnever]
      dsimp only
      rw [tabulateSequence_append f hlo (Int.le_of_lt hhi), show leaf M (tabulateSequence f (intv.1, intv.2)) = _ from hleaf]
      rfl
    · obtain ⟨hleaf, htab⟩ := leaf_tabulated (M := M) f (intv.1, m) (by omega) (by omega)
      have hzero : ((tabulateSequence f (intv.1, m)).length : Int) = 0 ↔ intv.1 = m := by
        rw [length_tabulateSequence]
        omega
      have hin : Inhabited (m, intv.2) := by
        show 1 ≤ intv.2 - m
        omega
      rw [if_neg hlast]
      by_cases hnil : intv.1 = m
      · refine ⟨.more ((m, intv.2), c), η', ?_, ⟨?_, Int.le_trans (by decide) hin, h.2.2⟩, hin, Int.not_lt.mp hlast, ?_⟩
        · simp only [more, if_pos (hzero.mpr hnil)]
          rfl
        · have hgood := h.1
          rwa [show intv = (m, intv.2) from Prod.ext hnil rfl] at hgood
        · show intervalLength (m, intv.2) + tabLeft c ≤ _
          omega
      · refine ⟨.more ((m, intv.2), .right (.leaf (tabulateSequence f (intv.1, m))) c), η', ?_,
          ⟨h.1.right (tabWork_put f hlo (Int.le_of_lt hhi) () _ · htab) rfl, Int.le_trans (by decide) hin, h.2.2⟩, hin,
          Int.not_lt.mp hlast, ?_⟩
        · simp only [more, if_neg fun h0 => hnil (hzero.mp h0), hleaf]
          rfl
        · show intervalLength (m, intv.2) + tabLeft c ≤ _
          omega

theorem tabulateUntil_returns (hM : 1 ≤ M) {cur : Interval × TabCtx α} (h : TabOpen M f Q cur) (η : Answers) :
    ∃ res, Returns (fun n => tabulateUntil M f n η cur) res ∧
      Swept Q (fun cur' => (TabOpen M f Q cur' ∧ Inhabited cur'.1 ∧ 2 ≤ intervalLength cur'.1 + tabLeft cur'.2) ∧
        intervalLength cur'.1 + tabLeft cur'.2 ≤ intervalLength cur.1 + tabLeft cur.2) res := by
  obtain ⟨x, c, hleft, hopen, hxM, -, hsum⟩ := leftmostTab_good hM h
  unfold tabulateUntil
  rw [hleft]
  refine sweepUntil_returns
    (fun _ x c => TabOpen M f Q (x, c) ∧ intervalLength x ≤ M ∧
      intervalLength x + tabLeft c ≤ intervalLength cur.1 + tabLeft cur.2)
    (fun _ b c => Ready (tabWork M f) Q c () b ∧ (∀ x ∈ c.rights, Inhabited x) ∧
      tabLeft c ≤ intervalLength cur.1 + tabLeft cur.2) (fun c => (tabLeft c).toNat) ?_ ?_ ⟨hopen, hxM, Int.le_of_eq hsum⟩ η
  · intro η t x c hOK
    obtain ⟨hopen, hxM, hle⟩ := hOK
    obtain ⟨res, η', hleaf, hres⟩ := tabLeaf_ok η hopen hxM
    refine ⟨res, η', hleaf, ?_⟩
    cases res with
    | done tb =>
      have hx0 : 0 ≤ intervalLength x := hopen.2.1
      exact ⟨hopen.1 _ hres, hopen.2.2, by omega⟩
    | more cur' =>
      obtain ⟨hopen', hin, h2, hle'⟩ := hres
      exact ⟨⟨hopen', hin, h2⟩, Int.le_trans hle' hle⟩
  · intro _ b c hclosed
    obtain ⟨hready, hin, hle⟩ := hclosed
    rcases next_good (leftmostTab M) hready with hdone | ⟨r, c', hmore, hgood, hrights⟩
    · exact .inl hdone
    · have hall : ∀ y ∈ r :: c'.rights, Inhabited y := hrights ▸ hin
      have hr : 1 ≤ intervalLength r := hall r List.mem_cons_self
      have hr0 : 0 ≤ intervalLength r := by omega
      obtain ⟨y, c'', hleft', hopen', hyM, hy1, hsum'⟩ :=
        leftmostTab_good (Q := Q) hM ⟨hgood, hr0, fun z hz => hall z (List.mem_cons_of_mem _ hz)⟩
      have hc : tabLeft c = intervalLength r + tabLeft c' := by
        rw [tabLeft, hrights, map_cons, sum_cons]
        rfl
      have hy := hy1 hr
      have hnonneg : 0 ≤ tabLeft c'' := tabLeft_nonneg hopen'.2.2
      refine .inr ⟨y, c'', ?_, ⟨hopen', hyM, by omega⟩, ?_⟩
      · show next (leftmostTab M) (tabWork M f).put b c = _
        rw [hmore, hleft']
      · show (tabLeft c'').toNat < (tabLeft c).toNat
        omega

/-! ## The split of an interrupted cursor -/

theorem moveToIxFrom_ok {m : Interval} {ls rs : List Interval} {ds : List Dir} {i : Int}
    (hcov : Covers (tabWork M f) m intv (ls, rs, ds)) (hls : ∀ x ∈ ls, Inhabited x) (hrs : ∀ x ∈ rs, Inhabited x)
    (h0 : 0 ≤ i) (hi : i < intervalLength intv) (hk : intervalLength intv ≤ k) :
    ∃ mn mls mrs mds, moveToIxFrom k intv (ls, rs, ds) i = .ok (mn, mls, mrs, mds) ∧ Covers (tabWork M f) m mn
      (mls, mrs, mds) ∧ (∀ x ∈ mls, Inhabited x) ∧ Inhabited mn ∧ (∀ x ∈ mrs, Inhabited x) ∧
      (mls.map intervalLength).sum + intervalLength mn = (ls.map intervalLength).sum + (i + 1) ∧
      (mrs.map intervalLength).sum = intervalLength intv - (i + 1) + (rs.map intervalLength).sum := by
  induction k generalizing intv ls rs ds i with
  | zero => omega
  | succ k ih =>
    unfold moveToIxFrom
    by_cases hone : intervalLength intv = 1
    · rw [if_pos hone]
      exact ⟨intv, ls, rs, ds, rfl, hcov, hls, Int.le_of_eq hone.symm, hrs, by omega, by omega⟩
    · rw [if_neg hone]
      obtain ⟨j, hsplit, hlo, hhi⟩ := splitInterval2_spec intv (by omega)
      have hlen : intervalLength intv = intv.2 - intv.1 := rfl
      have hlen1 : intervalLength (intv.1, j) = j - intv.1 := rfl
      have hlen2 : intervalLength (j, intv.2) = intv.2 - j := rfl
      have hin1 : Inhabited (intv.1, j) := by
        show 1 ≤ j - intv.1
        omega
      have hin2 : Inhabited (j, intv.2) := by
        show 1 ≤ intv.2 - j
        omega
      have hput := fun s => tabWork_put (M := M) f (Int.le_of_lt hlo) (Int.le_of_lt hhi) s
      rw [hsplit]
      dsimp only
      by_cases hleft : i < intervalLength (intv.1, j)
      · rw [if_pos hleft]
        obtain ⟨mn, mls, mrs, mds, hmove, hcov', h1, h2, h3, hsum1, hsum2⟩ :=
          ih (hcov.left hput fun _ => rfl) hls (forall_mem_cons.mpr ⟨hin2, hrs⟩) h0 hleft (by omega)
        refine ⟨mn, mls, mrs, mds, hmove, hcov', h1, h2, h3, hsum1, ?_⟩
        rw [map_cons, sum_cons] at hsum2
        omega
      · rw [if_neg hleft]
        obtain ⟨mn, mls, mrs, mds, hmove, hcov', h1, h2, h3, hsum1, hsum2⟩ :=
          ih (i := i - intervalLength (intv.1, j)) (hcov.right hput fun _ => rfl)
            (forall_mem_cons.mpr ⟨hin1, hls⟩) hrs (by omega) (by omega) (by omega)
        refine ⟨mn, mls, mrs, mds, hmove, hcov', h1, h2, h3, ?_, by omega⟩
        rw [map_cons, sum_cons] at hsum1
        omega

theorem cursorAtIxIntv_navigates : Navigates (tabWork M f) intervalLength Inhabited cursorAtIxIntv := by
  intro m i _ h0 hi
  rw [cursorAtIxIntv, if_pos ⟨h0, hi⟩]
  obtain ⟨mn, mls, mrs, mds, hmove, hcov, h1, h2, h3, hsum1, hsum2⟩ :=
    moveToIxFrom_ok (k := (intervalLength m).toNat) (covers_self m) nofun nofun h0 hi (by omega)
  refine ⟨mn, mls, mrs, mds, hmove, hcov, h1, h2, h3, ?_, ?_⟩
  · rw [hsum1]
    exact Int.zero_add _
  · rw [hsum2]
    exact Int.add_zero _

theorem rootU_zips : Zips (tabWork M f) rootU id := by
  intro b ls rs ds c hzip
  refine ⟨_, ?_, rfl⟩
  show rootUFrom b ls rs ds = _
  induction ds generalizing b ls rs c with
  | nil =>
    cases ls <;> cases rs <;> first | (cases hzip; rfl) | cases hzip
  | cons d ds ih =>
    cases d with
    | left =>
      cases rs with
      | nil => cases ls <;> cases hzip
      | cons r rs =>
        rw [zipCtx_left] at hzip
        cases hc : zipCtx ls rs ds with
        | error e =>
          rw [hc] at hzip
          cases hzip
        | ok c' =>
          rw [hc] at hzip
          cases hzip
          have hstep : rootUFrom b ls (r :: rs) (.left :: ds) = rootUFrom (nccat2 b r) ls rs ds := by
            cases ls <;> rfl
          rw [hstep]
          exact ih (nccat2 b r) ls rs c' hc
    | right =>
      cases ls with
      | nil => cases rs <;> cases hzip
      | cons l ls =>
        rw [zipCtx_right] at hzip
        cases hc : zipCtx ls rs ds with
        | error e =>
          rw [hc] at hzip
          cases hzip
        | ok c' =>
          rw [hc] at hzip
          cases hzip
          have hstep : rootUFrom b (l :: ls) rs (.right :: ds) = rootUFrom (nccat2 l b) ls rs ds := by
            cases rs <;> rfl
          rw [hstep]
          exact ih (nccat2 l b) ls rs c' hc

theorem encodeCurFrom_ne_nil (x : Interval) (xs : List Interval) :
    ∃ c : TabCtx α, encodeCurFrom (x :: xs) = .ok (x, c) ∧ c.rights = xs := by
  induction xs generalizing x with
  | nil => exact ⟨.top, rfl, rfl⟩
  | cons y ys ih =>
    obtain ⟨c, hc, hrights⟩ := ih y
    refine ⟨.left c y, ?_, congrArg (y :: ·) hrights⟩
    have hunfold : encodeCurFrom (α := α) (x :: y :: ys) = (do
        let (intv', c) ← encodeCurFrom (y :: ys)
        return (x, .left c intv')) := rfl
    rw [hunfold, hc]
    rfl

theorem decodeRopeTabRev_one (b : Rope α) : decodeRopeTabRev b 1 = .ok [b] := by
  cases b <;> rfl

/-- The encoded cursor is left-nested: with the pieces `pre` of `b` done, the others follow. -/
theorem encodeCurFrom_ready {x : Interval} (hc : encodeCurFrom (x :: xs) = .ok (x, c)) {b : Rope α}
    {pre : List (Rope α)} (hb : decodeRopeTabRev b (k + 1) = .ok pre) :
    Ready (tabWork M f)
      (fun b => ∃ bs, decodeRopeTabRev b (k + 1 + xs.length) = .ok (bs.reverse ++ pre) ∧ (tabWork M f).DoneAll () xs bs)
      c () b := by
  induction xs generalizing x c k b pre with
  | nil =>
    cases hc
    exact ⟨[], hb, trivial⟩
  | cons y ys ih =>
    obtain ⟨c', hc', -⟩ := encodeCurFrom_ne_nil (α := α) y ys
    have hunfold : encodeCurFrom (α := α) (x :: y :: ys) = (do
        let (intv', c) ← encodeCurFrom (y :: ys)
        return (x, .left c intv')) := rfl
    rw [hunfold, hc'] at hc
    cases hc
    intro y' hy'
    have hb' : decodeRopeTabRev (nccat2 b y') (k + 1 + 1) = .ok (y' :: pre) := by
      show (do return y' :: (← decodeRopeTabRev b (k + 1))) = _
      rw [hb]
      rfl
    have hready := ih hc' hb'
    refine Ready.imp ?_ hready
    rintro b ⟨bs, hdec, hbs⟩
    refine ⟨y' :: bs, ?_, hy', hbs⟩
    rw [List.length_cons, List.reverse_cons, List.append_assoc]
    rw [show k + 1 + (ys.length + 1) = k + 1 + 1 + ys.length by omega]
    exact hdec

theorem encodeCur_ok (hne : xs ≠ []) : ∃ e : Interval × TabCtx α, encodeCur xs = .ok (e, xs.length) := by
  cases xs with
  | nil => exact absurd rfl hne
  | cons x xs =>
    obtain ⟨c, hc, -⟩ := encodeCurFrom_ne_nil (α := α) x xs
    exact ⟨(x, c), by rw [encodeCur, hc]; rfl⟩

theorem encodeCur_inv {x : Interval} {e : Interval × TabCtx α} {n : Nat} (h : encodeCur (x :: xs) = .ok (e, n)) :
    ∃ c, e = (x, c) ∧ encodeCurFrom (x :: xs) = .ok (x, c) ∧ c.rights = xs ∧ n = xs.length + 1 := by
  obtain ⟨c, hc, hrights⟩ := encodeCurFrom_ne_nil (α := α) x xs
  rw [encodeCur, hc] at h
  cases h
  exact ⟨c, rfl, hc, hrights, rfl⟩

/-- What the result of an encoded list of intervals is decoded to. -/
def TabDecoded (M : Int) (f : Int → α) (xs : List Interval) (n : Nat) (b : Rope α) : Prop :=
  ∃ bs, decodeRopeTab b n = .ok bs ∧ (tabWork M f).DoneAll () xs bs

theorem encodeCur_open {e : Interval × TabCtx α} {n : Nat} (h : encodeCur xs = .ok (e, n))
    (hxs : ∀ x ∈ xs, Inhabited x) :
    TabOpen M f (TabDecoded M f xs n) e ∧ intervalLength e.1 + tabLeft e.2 = (xs.map intervalLength).sum := by
  cases xs with
  | nil => cases h
  | cons x xs =>
    obtain ⟨c, rfl, hc, hrights, rfl⟩ := encodeCur_inv h
    obtain ⟨hx, hxs'⟩ := forall_mem_cons.mp hxs
    have hx' : 1 ≤ intervalLength x := hx
    refine ⟨⟨fun b hb => ?_, Int.le_trans (by decide) hx, hrights ▸ hxs'⟩, ?_⟩
    · refine Ready.imp ?_ (encodeCurFrom_ready hc (k := 0) (decodeRopeTabRev_one b))
      rintro b' ⟨bs, hdec, hbs⟩
      refine ⟨b :: bs, ?_, hb, hbs⟩
      rw [Nat.zero_add, Nat.add_comm] at hdec
      rw [decodeRopeTab, hdec]
      simp
    · rw [tabLeft, hrights, map_cons, sum_cons]

theorem splitTab_ok (lib : Lib) {cur : Interval × TabCtx α} (h : TabOpen M f Q cur) (hin : Inhabited cur.1)
    (h2 : 2 ≤ intervalLength cur.1 + tabLeft cur.2) :
    ∃ cur1 cur2 reb Q1 Q2, splitAt lib intervalLength encodeCur cursorAtIxIntv id (unzipCursor cur)
      (numUnprocessedTab cur.1 cur.2 / 2) = .ok (cur1, cur2, reb) ∧ TabOpen M f Q1 cur1 ∧ TabOpen M f Q2 cur2 ∧
      intervalLength cur1.1 + tabLeft cur1.2 < intervalLength cur.1 + tabLeft cur.2 ∧
      intervalLength cur2.1 + tabLeft cur2.2 < intervalLength cur.1 + tabLeft cur.2 ∧
      ∀ b1 b2, Q1 b1 → Q2 b2 → ∃ b, join lib decodeRopeTab id rootU b1 b2 reb = .ok b ∧ Q b := by
  obtain ⟨intv, c⟩ := cur
  obtain ⟨hgood, h0, hrights⟩ := h
  dsimp only at hgood h0 hrights hin h2 ⊢
  have htotal : ((intv :: c.rights).map intervalLength).sum = intervalLength intv + tabLeft c := by
    rw [map_cons, sum_cons]
    rfl
  obtain ⟨xs1, xs2, e1, e2, reb, hsplit, he1, he2, hxs1, hxs2, -, -, hsum1, hsum2, -, hjoin⟩ :=
    splitAt_join lib decodeRopeTab id cursorAtIxIntv_navigates (fun xs hne => encodeCur_ok (α := α) hne) rootU_zips
      (unzipCursor (intv, c)) (f := intv) (c := c) rfl hgood (forall_mem_cons.mpr ⟨hin, hrights⟩)
      (n := (intervalLength intv + tabLeft c) / 2) (by omega) (by omega) (.inr (exchanges_of_still fun _ _ => rfl))
  obtain ⟨hopen1, hlen1⟩ := encodeCur_open he1 hxs1
  obtain ⟨hopen2, hlen2⟩ := encodeCur_open he2 hxs2
  refine ⟨e1, e2, reb, _, _, ?_, hopen1, hopen2, by omega, by omega, ?_⟩
  · rw [numUnprocessedTab_eq]
    exact hsplit
  · rintro b1 b2 ⟨bs1, hdec1, hall1⟩ ⟨bs2, hdec2, hall2⟩
    exact hjoin b1 b2 bs1 bs2 hdec1 hdec2 hall1 hall2

/-- Lazy splitting, in either structure. -/
theorem lazyTab_returns (lib : Lib) (hM : 1 ≤ M) (h : 0 ≤ intervalLength intv) (σ : Schedule) :
    ∃ rp, Returns (fun n => lazySplit (tabulateUntil M f) (fun _ cur => splitAt lib intervalLength encodeCur cursorAtIxIntv id
      (unzipCursor cur) (numUnprocessedTab cur.1 cur.2 / 2)) (join lib decodeRopeTab id rootU) n σ (intv, .top)) rp ∧
      Tabulated M f intv rp := by
  have hopen : TabOpen M f (Tabulated M f intv) (intv, .top) := ⟨good_top fun b hb => hb, h, nofun⟩
  refine lazySplit_returns (fun _ => True) (TabOpen M f)
    (fun Q cur => TabOpen M f Q cur ∧ Inhabited cur.1 ∧ 2 ≤ intervalLength cur.1 + tabLeft cur.2)
    (fun cur => (intervalLength cur.1 + tabLeft cur.2).toNat) ?_ ?_ hopen σ fun _ _ => trivial
  · intro Q cur η hcur
    obtain ⟨res, hret, hres⟩ := tabulateUntil_returns hM hcur η
    refine ⟨res, hret, ?_⟩
    grind
  · intro Q cur hJ _
    obtain ⟨hcur, hin, h2⟩ := hJ
    obtain ⟨cur1, cur2, reb, Q1, Q2, hsplit, h1, h2', hlt1, hlt2, hjoin⟩ := splitTab_ok lib hcur hin h2
    exact ⟨cur1, cur2, reb, Q1, Q2, ⟨0, fun _ _ => hsplit⟩, h1, h2', by omega, by omega, hjoin⟩

end

/-! ## Every policy -/

theorem tabulate_tabulated (policy : ChunkingPolicy) (f : Int → α) (σ : Schedule) (hM : 1 ≤ M) {intv : Interval}
    (h : 0 ≤ intervalLength intv) :
    ∃ rp, Returns (fun fuel => match policy with
      | .sequential => tabulateSequential M f fuel intv
      | .ets SST => tabulateETS M SST f fuel intv
      | .lts _ => tabulateLTS M f fuel σ intv) rp ∧ Tabulated M f intv rp := by
  cases policy with
  | sequential => exact tabulateSequential_returns f hM intv
  | ets SST => exact tabulateETS_returns SST f hM intv
  | lts PPT => exact lazyTab_returns .rope hM h σ

/-- The values at 0 to `n - 1`, with right lengths and depths and leaves of at most the maximum size. -/
theorem tabulate_returns (policy : ChunkingPolicy) (f : Int → α) (n : Int) (σ : Schedule) (hM : 1 ≤ M) (hn : 0 ≤ n) :
    ∃ rp, Returns (fun fuel => tabulate M policy f n fuel σ) rp ∧ rp.toList = (range n.toNat).map (fun i : Nat => f i) ∧
      rp.ropeOK = true ∧ ∀ s ∈ rp.leaves, (s.length : Int) ≤ M := by
  obtain ⟨rp, hret, hwf, hto⟩ := tabulate_tabulated policy f σ hM (show 0 ≤ intervalLength (0, n) from Int.sub_nonneg_of_le hn)
  obtain ⟨hok, hleaves⟩ := (Rope.wf_iff_ropeOK rp).mp hwf
  refine ⟨rp, ?_, ?_, hok, hleaves⟩
  · simp only [tabulate, if_neg (Int.not_lt.mpr hn)]
    exact hret
  · rw [hto, tabulateSequence, intervalLength, Seq.tabulate, Int.sub_zero]
    exact List.map_congr_left fun i _ => congrArg f (Int.zero_add _)

/-- Five indices, in leaves of two, interrupted at the second test. -/
theorem tabulate_returns_five :
    ∃ rp, Returns (fun fuel => tabulate 2 (.lts 1) (· * 10) 5 fuel fun _ n => n = 1) rp ∧ rp.toList = [0, 10, 20, 30, 40] ∧
      rp.ropeOK = true ∧ ∀ s ∈ rp.leaves, (s.length : Int) ≤ 2 :=
  tabulate_returns (.lts 1) (· * 10) 5 (fun _ n => n = 1) (by decide) (by decide)

end Manticore.Parray
