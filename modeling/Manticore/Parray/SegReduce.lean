/-
  Manticore.Parray.SegReduce — segmented reduction of a nested array (`basis/parray/segreduce.pml`, and the same over
  int ropes in `int-farray.pml`).

  The elements are 32-bit ints. A leaf of the data holds parts of segments; each part is reduced, and `writePairs`
  merges the parts into a sequence of the results. The update of `IntSeq` is in place, that of `Seq` makes a copy.

  - `lp_returns`: the leaves cut the segments into parts, in order, and only the first part in a leaf goes on with a
    segment that an earlier leaf has begun.
  - `segreduce_right`: `SegReduce` returns the folds only where they are `init`, since it drops the copies; `IntFArray`
    adds the parts up, so it is right on every array for addition, and for no other operation.
-/

import Manticore.Parray.FArray

namespace Manticore.Parray

open Fuel (Returns ok_bind)
open List (mem_cons_self mem_cons_of_mem drop_drop pairwise_cons mem_map_of_mem mem_singleton mem_cons append_assoc
  mem_map append_nil map_append flatten_cons map_cons map_map length_set length_cons replicate length_replicate)

variable {res : List Word}

namespace SegReduce

variable {α : Type}

def fail (a b : String) : Except Exn α := .error (.fail ("seg-sum" ++ a ++ b))

/-- The loop of `split`. -/
def splitLp : List (Int × Int) → Int → List (Int × Int) → Except Exn (List (Int × Int) × List (Int × Int))
  | ps, n, acc =>
    if n = 0 then .ok (acc.reverse, ps)
    else match ps with
      | [] => fail "split" "nil"
      | (i, m) :: t =>
        -- the next round would end the loop
        if n < m then .ok (((i, n) :: acc).reverse, (i, m - n) :: t)
        else splitLp t (n - m) ((i, m) :: acc)

def split (n : Int) (ps : List (Int × Int)) : Except Exn (List (Int × Int) × List (Int × Int)) :=
  if n < 0 then fail "split" "n<0" else splitLp ps n []

def segdesLp : Int → List Shape → Except Exn (List (Int × Int))
  | _, [] => .ok []
  | i, .lf lo hi :: ls => do return (i, hi - lo) :: (← segdesLp (i + 1) ls)
  | _, .nd _ :: _ => fail "segdesFromShape" "Nd"

def segdesFromShape : Shape → Except Exn (List (Int × Int))
  | .nd ls => segdesLp 0 ls
  | .lf _ _ => fail "segdesFromShape" "Lf"

/-- The loop of `partReduce`, with the number of elements to come. -/
def partReduceLp (f : α → α → α) (data : List α) : Nat → Int → α → Except Exn α
  | 0, _, acc => .ok acc
  | k + 1, i, acc => do partReduceLp f data k (i + 1) (f acc (← Seq.sub data i))

def partReduce (f : α → α → α) (init : α) (data : List α) (lo len : Int) : Except Exn α :=
  partReduceLp f data (lo + len - lo).toNat lo init

def segReduceLp (f : α → α → α) (init : α) (v : List α) : Int → List (Int × Int) → Except Exn (List (Int × α))
  | _, [] => .ok []
  | i, (j, n) :: t => do
    let s ← partReduce f init v i n
    return (j, s) :: (← segReduceLp f init v (i + n) t)

def segReducev (f : α → α → α) (init : α) (v : List α) (ps : List (Int × Int)) : Except Exn (List (Int × α)) :=
  segReduceLp f init v 0 ps

/-- The results of the leaves in order. -/
def lp (f : α → α → α) (init : α) : Rope α → List (Int × Int) → Except Exn (List (List (Int × α)))
  | .leaf v, ps => do return [← segReducev f init v ps]
  | .cat _ _ rL rR, ps => do
    let (psL, psR) ← split rL.length ps
    return (← lp f init rL psL) ++ (← lp f init rR psR)

def lp2 (f : α → α → α) (init : α) : Rope α → List (Int × Int) → Except Exn (List (List (List (Int × α))))
  | .leaf v, ps => do return [[← segReducev f init v ps]]
  | .cat _ _ rL rR, ps => do
    let (psL, psR) ← split rL.length ps
    return (← lp2 f init rL psL) ++ (← lp2 f init rR psR)

def reassemble {β : Type} : List (List β) → List β
  | pss :: t => pss ++ reassemble t
  | [] => []

/-- An int. -/
abbrev Word := BitVec 32

section
variable (upd : List Word → Int → Word → Except Exn (List Word))

/-- The other parts of a leaf are written. -/
def lp1 : List Word → List (Int × Word) → Except Exn (List Word)
  | res, [] => .ok res
  | res, (i, n) :: t => do lp1 (← upd res i n) t

/-- The first part of a leaf is added. -/
def lp0 : List Word → List (Int × Word) → Except Exn (List Word)
  | res, [] => .ok res
  | res, (i, n) :: t => do lp1 upd (← upd res i (n + (← Seq.sub res i))) t

/-- `writePairs`, with what an update leaves in the sequence. -/
def writePairsWith (res : List Word) (pss : List (List (Int × Word))) : Except Exn (List Word) := pss.foldlM (lp0 upd) res

end

/-- `Seq.update`: a new sequence. -/
def seqUpdate (s : List α) (i : Int) (x : α) : List α := s.mapIdx fun j y => if i = j then x else y

/-- The new sequence is dropped. -/
def writePairs : List Word → List (List (Int × Word)) → Except Exn (List Word) :=
  writePairsWith fun s i x => let _ := seqUpdate s i x; .ok s

def segreduce (M : Int) (f : Word → Word → Word) (init : Word) (n : Nat) (nss : FArray Word) : Except Exn (FArray Word) := do
  let segdes ← segdesFromShape nss.shape
  let pss := reassemble (← lp2 f init nss.data segdes)
  let reductions ← writePairs (Seq.tabulate segdes.length fun _ => init) pss
  let data' ← fromSeq M n reductions
  return ⟨data', .lf 0 data'.length⟩

end SegReduce

namespace IntFArray

open SegReduce (Word)

/-- `IntSeq.update`: in place. -/
def intSeqUpdate (s : List Word) (i : Int) (x : Word) : Except Exn (List Word) :=
  if 0 ≤ i ∧ i < s.length then .ok (s.set i.toNat x) else .error .bounds

def writePairs : List Word → List (List (Int × Word)) → Except Exn (List Word) := SegReduce.writePairsWith intSeqUpdate

def segreduce (M : Int) (f : Word → Word → Word) (init : Word) (n : Nat) (nss : FArray Word) : Except Exn (FArray Word) := do
  let segdes ← SegReduce.segdesFromShape nss.shape
  let pss ← SegReduce.lp f init nss.data segdes
  let reductions ← writePairs (Seq.tabulate segdes.length fun _ => init) pss
  let data' ← IntRope.fromSeq M n reductions
  return ⟨data', .lf 0 data'.length⟩

end IntFArray

namespace SegReduce

/-! ## Parts of segments -/

variable {α : Type} {M : Int}

/-- The segments of a list, by their lengths. -/
def slices : List (Int × Int) → List α → List (Int × List α)
  | [], _ => []
  | (j, n) :: t, xs => (j, xs.take n.toNat) :: slices t (xs.drop n.toNat)

def total (ps : List (Int × Int)) : Int := (ps.map Prod.snd).sum

/-- Segments of no negative length, in order. -/
structure Segs (ps : List (Int × Int)) : Prop where
  nonneg : ∀ p ∈ ps, 0 ≤ p.2
  order : (ps.map Prod.fst).Pairwise (· < ·)

/-- The elements of the segment `j` that the parts hold. -/
def collect (j : Int) (parts : List (Int × List α)) : List α := (parts.filter (·.1 = j)).flatMap Prod.snd

theorem collect_append (j : Int) (ps qs : List (Int × List α)) : collect j (ps ++ qs) = collect j ps ++ collect j qs := by
  rw [collect, List.filter_append, List.flatMap_append]
  rfl

theorem collect_cons (j i : Int) (xs : List α) (ps : List (Int × List α)) :
    collect j ((i, xs) :: ps) = (if i = j then xs else []) ++ collect j ps := by
  unfold collect
  rw [List.filter_cons]
  by_cases hij : i = j
  · rw [if_pos (by simpa using hij), if_pos hij, List.flatMap_cons]
  · rw [if_neg (by simpa using hij), if_neg hij, List.nil_append]

theorem partReduceLp_eq (f : α → α → α) (data : List α) (k lo : Nat) (acc : α) (h : lo + k ≤ data.length) :
    partReduceLp f data k lo acc = .ok (((data.drop lo).take k).foldl f acc) := by
  induction k generalizing lo acc with
  | zero => rfl
  | succ k ih =>
    have hlt : lo < data.length := by omega
    rw [partReduceLp, seq_sub_eq data hlt, List.drop_eq_getElem_cons hlt]
    exact ih (lo + 1) _ (by omega)

theorem partReduce_eq (f : α → α → α) (init : α) (data : List α) {lo len : Nat} (h : lo + len ≤ data.length) :
    partReduce f init data lo len = .ok (((data.drop lo).take len).foldl f init) := by
  simp [partReduce, partReduceLp_eq, h]

theorem total_cons (j n : Int) (t : List (Int × Int)) : total ((j, n) :: t) = n + total t := rfl

variable {ps : List (Int × Int)} {i : Int} {n : Nat}

theorem total_nonneg (h : ∀ p ∈ ps, 0 ≤ p.2) : 0 ≤ total ps := by
  induction ps with
  | nil => exact Int.le_refl 0
  | cons p t ih =>
    have hp := h p mem_cons_self
    have ht := ih fun q hq => h q (mem_cons_of_mem _ hq)
    rw [total_cons]
    omega

theorem segReduceLp_eq (f : α → α → α) (init : α) (v : List α) (ps : List (Int × Int)) (h : ∀ p ∈ ps, 0 ≤ p.2) (i : Nat)
    (hle : i + total ps ≤ v.length) :
    segReduceLp f init v i ps = .ok ((slices ps (v.drop i)).map fun p => (p.1, p.2.foldl f init)) := by
  induction ps generalizing i with
  | nil => rfl
  | cons p t ih =>
    obtain ⟨j, n⟩ := p
    have hn : 0 ≤ n := h _ mem_cons_self
    have ht : ∀ q ∈ t, 0 ≤ q.2 := fun q hq => h q (mem_cons_of_mem _ hq)
    have htot := total_nonneg ht
    rw [total_cons] at hle
    obtain ⟨m, rfl⟩ : ∃ m : Nat, n = m := ⟨n.toNat, by omega⟩
    rw [segReduceLp, partReduce_eq f init v (by omega), ok_bind, ← Int.natCast_add, ih ht (i + m) (by omega), ← drop_drop]
    rfl

/-- What `split` gives: the segments of the first `n` elements and those of the rest, one of them in both perhaps. -/
structure Cut (n : Nat) (ps psL psR : List (Int × Int)) : Prop where
  left : Segs psL
  right : Segs psR
  totalL : total psL = n
  totalR : n + total psR = total ps
  memL : ∀ p ∈ psL, p.1 ∈ ps.map Prod.fst
  memR : ∀ p ∈ psR, p.1 ∈ ps.map Prod.fst
  le : ∀ p ∈ psL, ∀ q ∈ psR, p.1 ≤ q.1
  collect : ∀ {α : Type} (xs : List α) (j : Int),
    collect j (slices psL (xs.take n)) ++ collect j (slices psR (xs.drop n)) = collect j (slices ps xs)

theorem Segs.tail {p : Int × Int} {t : List (Int × Int)} (h : Segs (p :: t)) : Segs t :=
  ⟨fun q hq => h.nonneg q (mem_cons_of_mem _ hq), (pairwise_cons.mp h.order).2⟩

theorem Segs.head_lt {p : Int × Int} {t : List (Int × Int)} (h : Segs (p :: t)) (hi : i ∈ t.map Prod.fst) :
    p.1 < i :=
  (pairwise_cons.mp h.order).1 i hi

theorem Segs.nil : Segs [] := ⟨List.forall_mem_nil _, List.Pairwise.nil⟩

/-- The cut is before the first segment. -/
theorem Cut.zero  (h : Segs ps) : Cut 0 ps [] ps where
  left := .nil
  right := h
  totalL := rfl
  totalR := Int.zero_add _
  memL := List.forall_mem_nil _
  memR := fun _ hp => mem_map_of_mem hp
  le := List.forall_mem_nil _
  collect := fun _ _ => rfl

/-- It is in the first segment. -/
theorem Cut.inside {m : Int} {t : List (Int × Int)} (h : Segs ((i, m) :: t)) (hn : (n : Int) < m) :
    Cut n ((i, m) :: t) [(i, n)] ((i, m - n) :: t) where
  left := ⟨fun p hp => by rw [mem_singleton.mp hp]; exact Int.natCast_nonneg n, List.pairwise_singleton _ _⟩
  right := by
    refine ⟨fun p hp => ?_, h.order⟩
    rcases mem_cons.mp hp with rfl | hp
    · show 0 ≤ m - n
      omega
    · exact h.tail.nonneg p hp
  totalL := Int.add_zero _
  totalR := by
    rw [total_cons, total_cons]
    omega
  memL := fun p hp => by
    rw [mem_singleton.mp hp]
    exact mem_cons_self
  memR := fun _ hp => by
    grind
  le := fun p hp q hq => by
    rw [mem_singleton.mp hp]
    rcases mem_cons.mp hq with rfl | hq
    · exact Int.le_refl i
    · exact Int.le_of_lt (h.head_lt (mem_map_of_mem hq))
  collect := fun xs j => by
    have htake : (xs.take n).take n ++ (xs.drop n).take (m - n).toNat = xs.take m.toNat := by
      have hm : m.toNat = n + (m - n).toNat := by omega
      rw [hm, List.take_add, List.take_take, Nat.min_self]
    have hdrop : (xs.drop n).drop (m - n).toNat = xs.drop m.toNat := by
      rw [drop_drop]
      congr 1
      omega
    simp only [slices, collect_cons, Int.toNat_natCast]
    rw [hdrop, ← append_assoc]
    congr 1
    by_cases hij : i = j
    · simp only [if_pos hij]
      rw [← htake]
      simp [SegReduce.collect]
    · simp [if_neg hij, SegReduce.collect]

/-- It is after the first segment. -/
theorem Cut.cons {i : Int} {m n : Nat} {t psL psR : List (Int × Int)} (h : Segs ((i, (m : Int)) :: t)) (hm : m ≤ n)
    (hc : Cut (n - m) t psL psR) : Cut n ((i, (m : Int)) :: t) ((i, (m : Int)) :: psL) psR where
  left := by
    refine ⟨fun p hp => ?_, pairwise_cons.mpr ⟨fun k hk => ?_, hc.left.order⟩⟩
    · rcases mem_cons.mp hp with rfl | hp
      · exact Int.natCast_nonneg m
      · exact hc.left.nonneg p hp
    · obtain ⟨p, hp, rfl⟩ := mem_map.mp hk
      exact h.head_lt (hc.memL p hp)
  right := hc.right
  totalL := by
    rw [total_cons, hc.totalL]
    omega
  totalR := by
    have ht := hc.totalR
    rw [total_cons]
    omega
  memL := fun p hp => by
    rcases mem_cons.mp hp with rfl | hp
    · exact mem_cons_self
    · exact mem_cons_of_mem _ (hc.memL p hp)
  memR := fun p hp => mem_cons_of_mem _ (hc.memR p hp)
  le := fun p hp q hq => by
    rcases mem_cons.mp hp with rfl | hp
    · exact Int.le_of_lt (h.head_lt (hc.memR q hq))
    · exact hc.le p hp q hq
  collect := fun xs j => by
    have htake : (xs.take n).take m = xs.take m := by rw [List.take_take, Nat.min_eq_left hm]
    have hdrop : (xs.take n).drop m = (xs.drop m).take (n - m) := List.drop_take
    have hrest : xs.drop n = (xs.drop m).drop (n - m) := by
      rw [drop_drop]
      congr 1
      omega
    have hcoll := hc.collect (xs.drop m) j
    simp only [slices, collect_cons, Int.toNat_natCast]
    rw [htake, hdrop, hrest, append_assoc, hcoll]

theorem splitLp_cut (h : Segs ps) (hn : n ≤ total ps) (acc : List (Int × Int)) :
    ∃ psL psR, splitLp ps n acc = .ok (acc.reverse ++ psL, psR) ∧ Cut n ps psL psR := by
  induction ps generalizing n acc with
  | nil =>
    have h0 : n = 0 := by
      have hle : (n : Int) ≤ 0 := hn
      omega
    subst h0
    exact ⟨[], [], by rw [splitLp, if_pos Int.natCast_zero, append_nil], .zero h⟩
  | cons p t ih =>
    obtain ⟨i, m⟩ := p
    rw [splitLp]
    by_cases h0 : (n : Int) = 0
    · obtain rfl : n = 0 := by omega
      exact ⟨[], (i, m) :: t, by rw [if_pos Int.natCast_zero, append_nil], .zero h⟩
    · rw [if_neg h0]
      by_cases hlt : (n : Int) < m
      · exact ⟨[(i, n)], (i, m - n) :: t, by rw [if_pos hlt, List.reverse_cons], .inside h hlt⟩
      · have hm : 0 ≤ m := h.nonneg _ mem_cons_self
        obtain ⟨k, rfl⟩ : ∃ k : Nat, m = k := ⟨m.toNat, by omega⟩
        have hsub : (n : Int) - k = (n - k : Nat) := by omega
        rw [total_cons] at hn
        obtain ⟨psL, psR, hsplit, hc⟩ := ih h.tail (n := n - k) (by omega) ((i, (k : Int)) :: acc)
        refine ⟨(i, k) :: psL, psR, ?_, hc.cons h (by omega)⟩
        rw [if_neg hlt, hsub, hsplit, List.reverse_cons, append_assoc]
        rfl

theorem split_cut (h : Segs ps) (hn : n ≤ total ps) :
    ∃ psL psR, split n ps = .ok (psL, psR) ∧ Cut n ps psL psR := by
  rw [split, if_neg (by omega)]
  exact splitLp_cut h hn []

/-! ## Parts of leaves -/

/-- The parts of the leaves, each leaf's in order and after those before it. -/
structure Parts {β : Type} (pss : List (List (Int × β))) : Prop where
  leaf : ∀ l ∈ pss, (l.map Prod.fst).Pairwise (· < ·)
  order : (pss.map (·.map Prod.fst)).Pairwise fun a b => ∀ x ∈ a, ∀ y ∈ b, x ≤ y

def reduced (f : α → α → α) (init : α) (pss : List (List (Int × List α))) : List (List (Int × α)) :=
  pss.map (·.map fun p => (p.1, p.2.foldl f init))

theorem reduced_append (f : α → α → α) (init : α) (pss qss : List (List (Int × List α))) :
    reduced f init (pss ++ qss) = reduced f init pss ++ reduced f init qss := map_append

theorem reassemble_eq {β : Type} (pss : List (List β)) : reassemble pss = pss.flatten := by
  induction pss with
  | nil => rfl
  | cons ps t ih => rw [reassemble, ih, flatten_cons]

theorem mem_leaf {β : Type} {pss : List (List (Int × β))} {a : List Int} (ha : a ∈ pss.map (·.map Prod.fst)) {x : Int} (hx : x ∈ a) :
    ∃ p ∈ pss.flatten, p.1 = x := by
  obtain ⟨l, hl, rfl⟩ := mem_map.mp ha
  obtain ⟨p, hp, rfl⟩ := mem_map.mp hx
  exact ⟨p, List.mem_flatten_of_mem hl hp, rfl⟩

theorem Parts.append {β : Type} {pss qss : List (List (Int × β))} (hp : Parts pss) (hq : Parts qss)
    (h : ∀ p ∈ pss.flatten, ∀ q ∈ qss.flatten, p.1 ≤ q.1) : Parts (pss ++ qss) where
  leaf := fun l hl => (List.mem_append.mp hl).elim (hp.leaf l) (hq.leaf l)
  order := by
    rw [map_append, List.pairwise_append]
    refine ⟨hp.order, hq.order, fun a ha b hb x hx y hy => ?_⟩
    grind [mem_leaf]

theorem slices_fst (ps : List (Int × Int)) (xs : List α) : (slices ps xs).map Prod.fst = ps.map Prod.fst := by
  induction ps generalizing xs with
  | nil => rfl
  | cons p t ih =>
    rw [slices, map_cons, ih]
    rfl

/-- The leaves hold the segments in parts; these do not depend on the operation. -/
theorem lp_returns {r : Rope α} (hr : r.WF M) (h : Segs ps) (htot : total ps = r.length) :
    ∃ pss : List (List (Int × List α)), (∀ f init, lp f init r ps = .ok (reduced f init pss)) ∧
      (∀ f init, ∃ qss, lp2 f init r ps = .ok qss ∧ reassemble qss = reduced f init pss) ∧ Parts pss ∧
      (∀ j, collect j pss.flatten = collect j (slices ps r.toList)) ∧ ∀ p ∈ pss.flatten, p.1 ∈ ps.map Prod.fst := by
  induction r generalizing ps with
  | leaf v =>
    have hreduce : ∀ f init, segReducev f init v ps = .ok ((slices ps v).map fun p => (p.1, p.2.foldl f init)) := by
      intro f init
      have hle : ((0 : Nat) : Int) + total ps ≤ v.length := by
        rw [htot]
        exact Int.le_of_eq (Int.zero_add _)
      exact segReduceLp_eq f init v ps h.nonneg 0 hle
    refine ⟨[slices ps v], fun f init => ?_, fun f init => ⟨[reduced f init [slices ps v]], ?_, ?_⟩,
      ⟨fun l hl => ?_, List.pairwise_singleton _ _⟩, ?_, ?_⟩
    · rw [lp, hreduce]
      rfl
    · rw [lp2, hreduce]
      rfl
    · rw [reassemble_eq, List.flatten_singleton]
    · rw [mem_singleton.mp hl, slices_fst]
      exact h.order
    · intro j
      rw [List.flatten_singleton]
      rfl
    · intro p hp
      rw [List.flatten_singleton] at hp
      rw [← slices_fst ps v]
      exact mem_map_of_mem hp
  | cat len d rL rR ihl ihr =>
    obtain ⟨hlen, -, hwl, hwr⟩ := hr
    have hL := hwl.length_eq
    have hR := hwr.length_nonneg
    have htot' : total ps = rL.length + rR.length := htot.trans hlen
    obtain ⟨psL, psR, hsplit, hc⟩ := split_cut h (n := rL.toList.length) (by omega)
    rw [← hL] at hsplit
    obtain ⟨lss, hl, hl2, hlp, hlc, hlm⟩ := ihl hwl hc.left (by rw [hc.totalL, hL])
    obtain ⟨rss, hr, hr2, hrp, hrc, hrm⟩ := ihr hwr hc.right (by have ht := hc.totalR; omega)
    refine ⟨lss ++ rss, fun f init => ?_, fun f init => ?_, ?_, fun j => ?_, fun p hp => ?_⟩
    · rw [lp, hsplit, ok_bind]
      show (do return (← lp f init rL psL) ++ (← lp f init rR psR)) = _
      rw [hl, hr, reduced_append]
      rfl
    · obtain ⟨ql, hql, hrl⟩ := hl2 f init
      obtain ⟨qr, hqr, hrr⟩ := hr2 f init
      refine ⟨ql ++ qr, ?_, ?_⟩
      · rw [lp2, hsplit, ok_bind]
        show (do return (← lp2 f init rL psL) ++ (← lp2 f init rR psR)) = _
        rw [hql, hqr]
        rfl
      · rw [reassemble_eq, List.flatten_append, ← reassemble_eq, ← reassemble_eq, hrl, hrr, reduced_append]
    · refine hlp.append hrp fun p hp q hq => ?_
      obtain ⟨p', hp', he⟩ := mem_map.mp (hlm p hp)
      obtain ⟨q', hq', he'⟩ := mem_map.mp (hrm q hq)
      rw [← he, ← he']
      exact hc.le p' hp' q' hq'
    · have hcoll := hc.collect (rL.toList ++ rR.toList) j
      rw [List.take_left, List.drop_left] at hcoll
      rw [List.flatten_append, collect_append, hlc, hrc, hcoll]
      rfl
    · rw [List.flatten_append] at hp
      rcases List.mem_append.mp hp with hp | hp
      · obtain ⟨q, hq, he⟩ := mem_map.mp (hlm p hp)
        rw [← he]
        exact hc.memL q hq
      · obtain ⟨q, hq, he⟩ := mem_map.mp (hrm p hp)
        rw [← he]
        exact hc.memR q hq

/-! ## Writing the parts -/

theorem reduced_fst (f : α → α → α) (init : α) (pss : List (List (Int × List α))) :
    (reduced f init pss).map (·.map Prod.fst) = pss.map (·.map Prod.fst) := by
  rw [reduced, map_map]
  simp

theorem Parts.reduced {pss : List (List (Int × List α))} (h : Parts pss) (f : α → α → α) (init : α) :
    Parts (reduced f init pss) := by
  refine ⟨fun l hl => ?_, by rw [reduced_fst]; exact h.order⟩
  obtain ⟨k, hk, rfl⟩ := mem_map.mp hl
  have hleaf := h.leaf k hk
  rw [map_map]
  exact hleaf

/-- The result at an index. -/
def val (res : List Word) (j : Int) : Word := res.getD j.toNat 0

/-- What the parts of the segment `j` add up to. -/
def deposit (j : Int) (ps : List (Int × Word)) : Word := ((ps.filter (·.1 = j)).map Prod.snd).sum

def InRange (m : Nat) (ps : List (Int × Word)) : Prop := ∀ p ∈ ps, 0 ≤ p.1 ∧ p.1 < m

theorem deposit_cons (j i : Int) (n : Word) (t : List (Int × Word)) :
    deposit j ((i, n) :: t) = (if i = j then n else 0) + deposit j t := by
  unfold deposit
  rw [List.filter_cons]
  by_cases hij : i = j
  · rw [if_pos (by simpa using hij), if_pos hij]
    rfl
  · rw [if_neg (by simpa using hij), if_neg hij, zero_add]

theorem deposit_append (j : Int) (ps qs : List (Int × Word)) : deposit j (ps ++ qs) = deposit j ps + deposit j qs := by
  rw [deposit, List.filter_append, map_append, List.sum_append]
  rfl

theorem deposit_of_not_mem {j : Int} {ps : List (Int × Word)} (h : j ∉ ps.map Prod.fst) : deposit j ps = 0 := by
  induction ps with
  | nil => rfl
  | cons p t ih =>
    obtain ⟨i, n⟩ := p
    rw [map_cons, mem_cons, not_or] at h
    rw [deposit_cons, if_neg (Ne.symm h.1), ih h.2, add_zero]

theorem val_set (h0 : 0 ≤ i) (hi : i < res.length) (x : Word) {j : Int} (hj : 0 ≤ j) :
    val (res.set i.toNat x) j = if i = j then x else val res j := by
  unfold val
  grind

theorem sub_val (h0 : 0 ≤ i) (hi : i < res.length) : Seq.sub res i = .ok (val res i) := by
  have hlt : i.toNat < res.length := by omega
  unfold Seq.sub val
  rw [if_pos h0, List.getD_eq_getElem?_getD, List.getElem?_eq_getElem hlt]
  rfl

open IntFArray (intSeqUpdate)

theorem intSeqUpdate_eq {i : Int} (h0 : 0 ≤ i) (hi : i < res.length) (x : Word) :
    intSeqUpdate res i x = .ok (res.set i.toNat x) := if_pos ⟨h0, hi⟩

/-- What is left after some parts are written: the sums of what was there and the parts. -/
structure Added (res res' : List Word) (ps : List (Int × Word)) : Prop where
  length : res'.length = res.length
  val : ∀ j, 0 ≤ j → val res' j = val res j + deposit j ps

theorem Added.refl (res : List Word) : Added res res [] := ⟨rfl, fun _ _ => (add_zero _).symm⟩

/-- The other parts of a leaf, where nothing was written yet. -/
theorem lp1_added (res : List Word) {ps : List (Int × Word)} (hr : InRange res.length ps)
    (hs : (ps.map Prod.fst).Pairwise (· < ·)) (h0 : ∀ p ∈ ps, val res p.1 = 0) :
    ∃ res', lp1 intSeqUpdate res ps = .ok res' ∧ Added res res' ps := by
  induction ps generalizing res with
  | nil => exact ⟨res, rfl, .refl res⟩
  | cons p t ih =>
    obtain ⟨i, n⟩ := p
    obtain ⟨hi0, hi⟩ := hr _ mem_cons_self
    obtain ⟨hlt, hs⟩ := pairwise_cons.mp hs
    obtain ⟨res', hres, hlen, hval⟩ := ih (res.set i.toNat n)
      (fun q hq => by rw [length_set]; exact hr q (mem_cons_of_mem _ hq)) hs fun q hq => by
        have hne : i ≠ q.1 := Int.ne_of_lt (hlt q.1 (mem_map_of_mem hq))
        rw [val_set hi0 hi n (hr q (mem_cons_of_mem _ hq)).1, if_neg hne]
        exact h0 q (mem_cons_of_mem _ hq)
    refine ⟨res', by rw [lp1, intSeqUpdate_eq hi0 hi]; exact hres, by rw [hlen, length_set], fun j hj => ?_⟩
    rw [hval j hj, val_set hi0 hi n hj, deposit_cons, ← add_assoc]
    by_cases hij : i = j
    · subst hij
      rw [if_pos rfl, if_pos rfl, h0 _ mem_cons_self, zero_add]
    · rw [if_neg hij, if_neg hij, add_zero]

/-- The parts of one leaf. -/
theorem lp0_added {ps : List (Int × Word)} (hr : InRange res.length ps)
    (hs : (ps.map Prod.fst).Pairwise (· < ·)) (h0 : ∀ p ∈ ps.tail, val res p.1 = 0) :
    ∃ res', lp0 intSeqUpdate res ps = .ok res' ∧ Added res res' ps := by
  cases ps with
  | nil => exact ⟨res, rfl, .refl res⟩
  | cons p t =>
    obtain ⟨i, n⟩ := p
    obtain ⟨hi0, hi⟩ := hr _ mem_cons_self
    obtain ⟨hlt, hs⟩ := pairwise_cons.mp hs
    obtain ⟨res', hres, hlen, hval⟩ := lp1_added (res.set i.toNat (n + val res i))
      (fun q hq => by rw [length_set]; exact hr q (mem_cons_of_mem _ hq)) hs fun q hq => by
        have hne : i ≠ q.1 := Int.ne_of_lt (hlt q.1 (mem_map_of_mem hq))
        rw [val_set hi0 hi _ (hr q (mem_cons_of_mem _ hq)).1, if_neg hne]
        exact h0 q hq
    refine ⟨res', ?_, by rw [hlen, length_set], fun j hj => ?_⟩
    · rw [lp0, sub_val hi0 hi, ok_bind, intSeqUpdate_eq hi0 hi]
      exact hres
    · rw [hval j hj, val_set hi0 hi _ hj, deposit_cons]
      by_cases hij : i = j
      · subst hij
        rw [if_pos rfl, if_pos rfl, add_comm n, add_assoc]
      · rw [if_neg hij, if_neg hij, zero_add]

/-- The parts of all leaves: where a leaf begins a segment nothing was written for it. -/
theorem writePairs_added (res : List Word) {pss : List (List (Int × Word))} (hp : Parts pss)
    (hr : InRange res.length pss.flatten) (h0 : ∀ l ∈ pss, ∀ p ∈ l.tail, val res p.1 = 0) :
    ∃ res', IntFArray.writePairs res pss = .ok res' ∧ Added res res' pss.flatten := by
  induction pss generalizing res with
  | nil => exact ⟨res, rfl, .refl res⟩
  | cons l t ih =>
    rw [flatten_cons] at hr ⊢
    obtain ⟨hle, horder⟩ := pairwise_cons.mp hp.order
    obtain ⟨res₁, hres₁, hlen₁, hval₁⟩ := lp0_added (fun p hpl => hr p (List.mem_append_left _ hpl))
      (hp.leaf l mem_cons_self) (h0 l mem_cons_self)
    obtain ⟨res', hres, hlen, hval⟩ := ih res₁
      ⟨fun k hk => hp.leaf k (mem_cons_of_mem _ hk), horder⟩
      (by rw [hlen₁]; exact fun p hpt => hr p (List.mem_append_right _ hpt))
      fun k hk q hq => by
        -- the part comes after the first one of its leaf, so after all those of this leaf
        have hqk : q ∈ k := List.mem_of_mem_tail hq
        have hnot : q.1 ∉ l.map Prod.fst := by
          intro hmem
          obtain ⟨a, as, rfl⟩ : ∃ a as, k = a :: as := by
            cases k with
            | nil => cases hqk
            | cons a as => exact ⟨a, as, rfl⟩
          have hfirst := (pairwise_cons.mp (hp.leaf _ (mem_cons_of_mem _ hk))).1 q.1 (mem_map_of_mem hq)
          have hbefore := hle _ (mem_map_of_mem hk) q.1 hmem a.1 mem_cons_self
          omega
        have hq0 := (hr q (List.mem_append_right _ (List.mem_flatten_of_mem hk hqk))).1
        rw [hval₁ q.1 hq0, h0 k (mem_cons_of_mem _ hk) q hq, deposit_of_not_mem hnot, add_zero]
    refine ⟨res', ?_, hlen.trans hlen₁, fun j hj => ?_⟩
    · show (lp0 intSeqUpdate res l >>= fun res => t.foldlM (lp0 intSeqUpdate) res) = _
      rw [hres₁]
      exact hres
    · rw [hval j hj, hval₁ j hj, deposit_append, add_assoc]

/-! ## Nested arrays -/

/-- The intervals of segments that follow each other from `lo` on. -/
def tiles : Int → List (List α) → List Shape
  | _, [] => []
  | lo, xs :: t => .lf lo (lo + xs.length) :: tiles (lo + xs.length) t

/-- The nested array of the segments, over the rope `r` of their elements. -/
def nested (r : Rope α) (segs : List (List α)) : FArray α := ⟨r, .nd (tiles 0 segs)⟩

/-- The segments with their numbers from `i` on, and their lengths. -/
def descs : Int → List (List α) → List (Int × Int)
  | _, [] => []
  | i, xs :: t => (i, (xs.length : Int)) :: descs (i + 1) t

theorem segdesLp_tiles (i lo : Int) (segs : List (List α)) : segdesLp i (tiles lo segs) = .ok (descs i segs) := by
  induction segs generalizing i lo with
  | nil => rfl
  | cons xs t ih =>
    have hlen : lo + (xs.length : Int) - lo = xs.length := by omega
    rw [tiles, segdesLp, ih, hlen]
    rfl

theorem length_descs (i : Int) (segs : List (List α)) : (descs i segs).length = segs.length := by
  induction segs generalizing i with
  | nil => rfl
  | cons xs t ih => rw [descs, length_cons, ih, length_cons]

theorem descs_bound {i : Int} {segs : List (List α)} {p : Int × Int} (hp : p ∈ descs i segs) :
    i ≤ p.1 ∧ p.1 < i + segs.length ∧ 0 ≤ p.2 := by
  induction segs generalizing i with
  | nil => cases hp
  | cons xs t ih =>
    rw [length_cons]
    rcases mem_cons.mp hp with rfl | hp
    · omega
    · obtain ⟨h1, h2, h3⟩ := ih hp
      exact ⟨by omega, by omega, h3⟩

theorem segs_descs (i : Int) (segs : List (List α)) : Segs (descs i segs) := by
  refine ⟨fun p hp => (descs_bound hp).2.2, ?_⟩
  induction segs generalizing i with
  | nil => exact List.Pairwise.nil
  | cons xs t ih =>
    refine pairwise_cons.mpr ⟨fun k hk => ?_, ih (i + 1)⟩
    obtain ⟨p, hp, rfl⟩ := mem_map.mp hk
    have hb := (descs_bound hp).1
    show i < p.1
    omega

theorem total_descs (i : Int) (segs : List (List α)) : total (descs i segs) = segs.flatten.length := by
  induction segs generalizing i with
  | nil => rfl
  | cons xs t ih => rw [descs, total_cons, ih, flatten_cons, List.length_append, Int.natCast_add]

/-- The elements with the number of a segment are those of the segment. -/
theorem collect_descs (i : Int) (segs : List (List α)) (j : Int) :
    collect j (slices (descs i segs) segs.flatten) = if i ≤ j then segs.getD (j - i).toNat [] else [] := by
  induction segs generalizing i with
  | nil => simp [descs, slices, collect]
  | cons xs t ih =>
    rw [descs, slices, collect_cons, flatten_cons, Int.toNat_natCast, List.take_left, List.drop_left, ih]
    by_cases hij : i = j
    · subst hij
      rw [if_pos rfl, if_neg (by omega), if_pos (Int.le_refl i), append_nil, Int.sub_self]
      rfl
    · rw [if_neg hij, List.nil_append]
      by_cases hle : i ≤ j
      · have hsucc : (j - i).toNat = (j - (i + 1)).toNat + 1 := by omega
        rw [if_pos (show i + 1 ≤ j by omega), if_pos hle, hsucc]
        rfl
      · rw [if_neg (by omega), if_neg hle]

/-- A run returns one value for each segment, the fold of `f` over its elements. -/
def Right (M : Int) (f : Word → Word → Word) (init : Word) (segs : List (List Word)) (run : Nat → Except Exn (FArray Word)) : Prop :=
  ∃ out, Returns run out ∧ out.data.WF M ∧ out.data.toList = segs.map (·.foldl f init) ∧ out.shape = .lf 0 segs.length

/-- An array whose segments tile the data. -/
structure Tiled (M : Int) (r : Rope Word) (segs : List (List Word)) : Prop where
  pos : 1 ≤ M
  wf : r.WF M
  data : r.toList = segs.flatten

variable {r : Rope Word} {segs : List (List Word)} {f : Word → Word → Word} {init : Word}

theorem tabulate_init (segs : List (List α)) (init : Word) :
    Seq.tabulate ((descs 0 segs).length : Int) (fun _ => init) = replicate segs.length init := by
  rw [Seq.tabulate, length_descs, Int.toNat_natCast, List.map_const', List.length_range]

/-- The parts of the leaves of a tiled array. -/
theorem Tiled.parts (h : Tiled M r segs) : ∃ pss : List (List (Int × List Word)),
    (∀ f init, lp f init r (descs 0 segs) = .ok (reduced f init pss)) ∧
    (∀ f init, ∃ qss, lp2 f init r (descs 0 segs) = .ok qss ∧ reassemble qss = reduced f init pss) ∧ Parts pss ∧
    (∀ j : Nat, collect j pss.flatten = segs.getD j []) ∧ ∀ p ∈ pss.flatten, 0 ≤ p.1 ∧ p.1 < segs.length := by
  have htot : total (descs 0 segs) = r.length := by rw [total_descs, h.wf.length_eq, h.data]
  obtain ⟨pss, hlp, hlp2, hparts, hcollect, hmem⟩ := lp_returns h.wf (segs_descs 0 segs) htot
  refine ⟨pss, hlp, hlp2, hparts, fun j => ?_, fun p hp => ?_⟩
  · rw [hcollect, h.data, collect_descs, if_pos (Int.natCast_nonneg j), Int.sub_zero, Int.toNat_natCast]
  · obtain ⟨q, hq, he⟩ := mem_map.mp (hmem p hp)
    obtain ⟨h1, h2, -⟩ := descs_bound hq
    rw [← he]
    exact ⟨h1, by omega⟩

/-! ## The copies that are dropped -/

theorem lp1_drop (res : List Word) (ps : List (Int × Word)) :
    lp1 (fun s i x => let _ := seqUpdate s i x; .ok s) res ps = .ok res := by
  induction ps with
  | nil => rfl
  | cons p t ih => exact ih

theorem writePairs_drop {pss : List (List (Int × Word))} (hr : InRange res.length pss.flatten) :
    writePairs res pss = .ok res := by
  unfold writePairs writePairsWith
  induction pss with
  | nil => rfl
  | cons l t ih =>
    rw [flatten_cons] at hr
    have hl : lp0 (fun s i x => let _ := seqUpdate s i x; .ok s) res l = .ok res := by
      cases l with
      | nil => rfl
      | cons p ps =>
        obtain ⟨hi0, hi⟩ := hr p (List.mem_append_left _ mem_cons_self)
        rw [lp0, sub_val hi0 hi]
        exact lp1_drop res ps
    rw [List.foldlM_cons, hl]
    exact ih fun p hp => hr p (List.mem_append_right _ hp)

theorem inRange_reduced {pss : List (List (Int × List Word))} {m : Nat} (h : ∀ p ∈ pss.flatten, 0 ≤ p.1 ∧ p.1 < m) :
    InRange m (reduced f init pss).flatten := by
  intro p hp
  obtain ⟨l, hl, hpl⟩ := List.mem_flatten.mp hp
  obtain ⟨k, hk, rfl⟩ := mem_map.mp hl
  obtain ⟨q, hq, rfl⟩ := mem_map.mp hpl
  exact h q (List.mem_flatten_of_mem hk hq)

/-- Every result is `init`. -/
theorem segreduce_init (h : Tiled M r segs) (f : Word → Word → Word) (init : Word) :
    ∃ out, Returns (fun n => segreduce M f init n (nested r segs)) out ∧
    out.data.WF M ∧ out.data.toList = replicate segs.length init ∧ out.shape = .lf 0 segs.length := by
  obtain ⟨pss, -, hlp2, -, -, hmem⟩ := h.parts
  obtain ⟨qss, hq, hre⟩ := hlp2 f init
  have hwrite : writePairs (replicate segs.length init) (reduced f init pss) = .ok (replicate segs.length init) :=
    writePairs_drop (inRange_reduced (by rw [length_replicate]; exact hmem))
  obtain ⟨data', hret, hwf, hlist⟩ := fromSeq_returns h.pos (replicate segs.length init)
  refine ⟨⟨data', .lf 0 data'.length⟩, ?_, hwf, hlist, ?_⟩
  · refine Returns.congr (hret.bind (g := fun _ data' => .ok ⟨data', .lf 0 data'.length⟩) (.pure _)) fun n => ?_
    show (do
      let segdes ← segdesLp 0 (tiles 0 segs)
      let qss ← lp2 f init r segdes
      let reductions ← writePairs (Seq.tabulate segdes.length fun _ => init) (reassemble qss)
      let data' ← fromSeq M n reductions
      return (⟨data', .lf 0 data'.length⟩ : FArray Word)) = _
    rw [segdesLp_tiles, ok_bind, hq, ok_bind, hre, tabulate_init, hwrite]
    rfl
  · rw [hwf.length_eq, hlist, length_replicate]

/-! ## The parts that are added -/

theorem foldl_add (xs : List Word) (a : Word) : xs.foldl (· + ·) a = a + xs.sum := by
  induction xs generalizing a with
  | nil => exact (add_zero a).symm
  | cons x xs ih => rw [List.foldl_cons, ih, List.sum_cons, add_assoc]

theorem deposit_reduced (pss : List (List (Int × List Word))) (j : Int) :
    deposit j (reduced (· + ·) 0 pss).flatten = (collect j pss.flatten).sum := by
  have hflat : (reduced (· + ·) 0 pss).flatten = pss.flatten.map fun p => (p.1, p.2.foldl (· + ·) 0) :=
    (List.map_flatten).symm
  rw [hflat]
  induction pss.flatten with
  | nil => rfl
  | cons p t ih =>
    obtain ⟨i, xs⟩ := p
    rw [map_cons, deposit_cons, ih, collect_cons, List.sum_append, foldl_add, zero_add]
    by_cases hij : i = j
    · rw [if_pos hij, if_pos hij]
    · rw [if_neg hij, if_neg hij]
      rfl

theorem val_replicate (m : Nat) (j : Int) : val (replicate m (0 : Word)) j = 0 := by
  unfold val
  rw [List.getD_eq_getElem?_getD, List.getElem?_replicate]
  split <;> rfl

theorem eq_of_val {res' : List Word} (hlen : res.length = res'.length) (h : ∀ j : Nat, val res j = val res' j) : res = res' := by
  grind [List.ext_getElem, val, Int.toNat_natCast]

/-- What is left of a run of `IntFArray.segreduce` once the results are written. -/
theorem intSegreduce_returns (h : Tiled M r segs) (f : Word → Word → Word) (init : Word) (res : List Word)
    (pss : List (List (Int × Word)))
    (hlp : lp f init r (descs 0 segs) = .ok pss)
    (hwrite : IntFArray.writePairs (replicate segs.length init) pss = .ok res) :
    ∃ out, Returns (fun n => IntFArray.segreduce M f init n (nested r segs)) out ∧ out.data.WF M ∧ out.data.toList = res ∧
      out.shape = .lf 0 res.length := by
  obtain ⟨data', hret, hwf, hlist⟩ := IntRope.fromSeq_returns h.pos res
  refine ⟨⟨data', .lf 0 data'.length⟩, ?_, hwf, hlist, by rw [hwf.length_eq, hlist]⟩
  refine Returns.congr (hret.bind (g := fun _ data' => .ok ⟨data', .lf 0 data'.length⟩) (.pure _)) fun n => ?_
  show (do
    let segdes ← segdesLp 0 (tiles 0 segs)
    let pss ← lp f init r segdes
    let reductions ← IntFArray.writePairs (Seq.tabulate segdes.length fun _ => init) pss
    let data' ← IntRope.fromSeq M n reductions
    return (⟨data', .lf 0 data'.length⟩ : FArray Word)) = _
  rw [segdesLp_tiles, ok_bind, hlp, ok_bind, tabulate_init, hwrite]
  rfl

/-- Sums of segments are right. -/
theorem intSegreduce_add (h : Tiled M r segs) :
    Right M (· + ·) 0 segs fun n => IntFArray.segreduce M (· + ·) 0 n (nested r segs) := by
  obtain ⟨pss, hlp, -, hparts, hcollect, hmem⟩ := h.parts
  obtain ⟨res, hwrite, hlen, hval⟩ := writePairs_added (replicate segs.length 0)
    (hparts.reduced (· + ·) 0) (by rw [length_replicate]; exact inRange_reduced hmem)
    fun _ _ p _ => val_replicate segs.length p.1
  obtain ⟨out, hret, hwf, hlist, hshape⟩ := intSegreduce_returns h _ _ _ _ (hlp (· + ·) 0) hwrite
  rw [length_replicate] at hlen
  refine ⟨out, hret, hwf, ?_, by rw [hshape, hlen]⟩
  rw [hlist]
  refine eq_of_val (by rw [hlen, List.length_map]) fun j => ?_
  rw [hval j (Int.natCast_nonneg j), val_replicate, zero_add, deposit_reduced, hcollect]
  unfold val
  rw [Int.toNat_natCast, List.getD_eq_getElem?_getD, List.getD_eq_getElem?_getD, List.getElem?_map]
  cases segs[j]? with
  | none => rfl
  | some xs =>
    show xs.sum = xs.foldl (· + ·) 0
    rw [foldl_add, zero_add]

/-- One element alone, and two in leaves of their own. -/
theorem add_of_right (hl : ∀ x, f init x = x)
    (h : ∀ M r segs, Tiled M r segs → Right M f init segs fun n => IntFArray.segreduce M f init n (nested r segs)) :
    f = (· + ·) := by
  have hzero : init = 0 := by
    have ht : Tiled 1 (.leaf [init]) [[init]] := ⟨Int.le_refl 1, Int.le_refl 1, rfl⟩
    obtain ⟨out, hret, -, hlist, -⟩ := h _ _ _ ht
    obtain ⟨out', hret', -, hlist', -⟩ := intSegreduce_returns ht f init [f init init + init]
      [[(0, f init init)]] rfl rfl
    rw [hret.unique hret', hlist'] at hlist
    have he : f init init + init = f init init := (List.cons.inj hlist).1
    exact add_eq_left.mp he
  funext x y
  have ht : Tiled 1 (.cat 2 1 (.leaf [x]) (.leaf [y])) [[x, y]] :=
    ⟨Int.le_refl 1, ⟨rfl, rfl, Int.le_refl 1, Int.le_refl 1⟩, rfl⟩
  obtain ⟨out, hret, -, hlist, -⟩ := h _ _ _ ht
  obtain ⟨out', hret', -, hlist', -⟩ := intSegreduce_returns ht f init [f init y + (f init x + init)]
    [[(0, f init x)], [(0, f init y)]] rfl rfl
  rw [hret.unique hret', hlist'] at hlist
  have he : f init y + (f init x + init) = f (f init x) y := (List.cons.inj hlist).1
  rw [hl, hl, hzero, add_zero, add_comm] at he
  exact he.symm

end SegReduce

end Manticore.Parray
