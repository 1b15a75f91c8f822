/-
  Manticore.Parray.FromSeq — ropes from lists and sequences, and the elements of a rope by their indices: `fromList`,
  `fromSeq`, `sub` and `partialSeq` (`basis/parray/rope.pml`, and `chopSeq`, `catPairs` and `fromSeq` of `int-rope.pml`).

  - `fromList_returns`, `IntRope.fromSeq_balanced`: a well-formed rope of the given elements; the latter has full leaves
    but the last, and is balanced.
  - `sub_eq`: the element at an index in the bounds of the rope, and nothing outside.
-/

import Manticore.Parray.Rope

namespace Manticore.Parray

open Fuel (Returns ok_bind)

variable {α : Type} (M : Int)

def fromList : Nat → List α → Except Exn (Rope α)
  | 0, _ => .error .fuel
  | n + 1, xs =>
    if xs.length < M ∨ xs.length = 1 then leaf M xs
    else do
      let l ← fromList n (xs.take (xs.length / 2))
      let r ← fromList n (xs.drop (xs.length / 2))
      return nccat2 l r

def fromSeq (n : Nat) (s : List α) : Except Exn (Rope α) := fromList M n s

def subInBounds : Rope α → Int → Except Exn α
  | .leaf s, i => Seq.sub s i
  | .cat _ _ r1 r2, i => if i < r1.length then subInBounds r1 i else subInBounds r2 (i - r1.length)

def sub (rp : Rope α) (i : Int) : Except Exn α :=
  if rp.inBounds i then subInBounds rp i else .error (.fail "subscript")

/-- The elements from `lo` inclusive to `hi` exclusive; a leaf wants `lo` to be the index of an element. -/
def partialSeq : Rope α → Int → Int → Except Exn (List α)
  | .leaf s, lo, hi =>
    if lo ≥ s.length ∨ hi > s.length then .error (.fail "err") else .ok (Seq.take (Seq.drop s lo) (hi - lo))
  | .cat _ _ rL rR, lo, hi =>
    if hi ≤ rL.length then partialSeq rL lo hi
    else if lo ≥ rL.length then partialSeq rR (lo - rL.length) (hi - rL.length)
    else do
      let sL ← partialSeq rL lo rL.length
      let sR ← partialSeq rR 0 (hi - rL.length)
      return sL ++ sR

namespace IntRope

/-- Every pair of ropes in a list is concatenated. -/
def catPairs : List (Rope α) → List (Rope α)
  | [] => []
  | [r] => [r]
  | r0 :: r1 :: rs => ccat2 M r0 r1 :: catPairs rs

def subseq (s : List α) (loIncl hiExcl : Int) : Except Exn (List α) :=
  if hiExcl - loIncl > s.length then .error (.fail "subseq: too few elements")
  else (Seq.tabulate (hiExcl - loIncl) id).mapM fun i => Seq.sub s (loIncl + i)

def chopSeq (s : List α) (sz : Int) : Nat → Int → List (List α) → Except Exn (List (List α))
  | 0, _, _ => .error .fuel
  | n + 1, lo, acc =>
    if lo ≥ s.length then .ok acc.reverse
    else if lo + sz ≥ s.length then do
      return ((← subseq s lo s.length) :: acc).reverse
    else do
      let x ← subseq s lo (lo + sz)
      chopSeq s sz n (lo + sz) (x :: acc)

def build : Nat → List (Rope α) → Except Exn (Rope α)
  | 0, _ => .error .fuel
  | _ + 1, [] => .ok .empty
  | _ + 1, [l] => .ok l
  | n + 1, ls => build n (catPairs M ls)

def fromSeq (n : Nat) (s : List α) : Except Exn (Rope α) := do
  let lfData ← chopSeq s M n 0 []
  build M n (← lfData.mapM (leaf M))

end IntRope

/-! ## From lists -/

variable {M}

theorem fromList_returns (hM : 1 ≤ M) (xs : List α) : ∃ rp, Returns (fun n => fromList M n xs) rp ∧ rp.WF M ∧ rp.toList = xs := by
  induction hk : xs.length using Nat.strong_induction_on generalizing xs with
  | _ k ih =>
    by_cases hsmall : (xs.length : Int) < M ∨ xs.length = 1
    · have hle : (xs.length : Int) ≤ M := by omega
      refine ⟨.leaf xs, .succ ?_, hle, rfl⟩
      simp only [fromList, if_pos hsmall, leaf_ok hle]
      exact .pure _
    · obtain ⟨l, hl, hlwf, hlist⟩ := ih (xs.take (xs.length / 2)).length (by rw [List.length_take]; omega) _ rfl
      obtain ⟨r, hr, hrwf, hrist⟩ := ih (xs.drop (xs.length / 2)).length (by rw [List.length_drop]; omega) _ rfl
      refine ⟨nccat2 l r, .succ ?_, wf_nccat2 hlwf hrwf, ?_⟩
      · simp only [fromList, if_neg hsmall]
        exact hl.bind (hr.bind (.pure _))
      · rw [toList_nccat2, hlist, hrist, List.take_append_drop]

theorem fromSeq_returns (hM : 1 ≤ M) (s : List α) : ∃ rp, Returns (fun n => fromSeq M n s) rp ∧ rp.WF M ∧ rp.toList = s :=
  fromList_returns hM s

/-! ## Subscripts -/

theorem seq_sub_eq (s : List α) {i : Nat} (hi : i < s.length) : Seq.sub s i = .ok (s.get ⟨i, hi⟩) := by
  rw [Seq.sub, if_pos (Int.natCast_nonneg i), Int.toNat_natCast, List.getElem?_eq_getElem hi]
  rfl

theorem subInBounds_eq {rp : Rope α} (h : rp.WF M) {i : Nat} (hi : i < rp.toList.length) :
    subInBounds rp i = .ok (rp.toList.get ⟨i, hi⟩) := by
  induction rp generalizing i with
  | leaf s => exact seq_sub_eq s hi
  | cat len d l r ihl ihr =>
    obtain ⟨-, -, hl, hr⟩ := h
    have hlen := hl.length_eq
    unfold subInBounds
    have hsum : i < l.toList.length + r.toList.length := by
      rw [← List.length_append]
      exact hi
    by_cases hlt : i < l.toList.length
    · rw [if_pos (by omega), ihl hl hlt]
      simp only [List.get_eq_getElem, Rope.toList]
      rw [List.getElem_append_left hlt]
    · have hcast : (i : Int) - l.length = (i - l.toList.length : Nat) := by omega
      rw [if_neg (by omega), hcast, ihr hr (by omega)]
      simp only [List.get_eq_getElem, Rope.toList]
      rw [List.getElem_append_right (by omega)]

/-- The subscript of a well-formed rope. -/
theorem sub_eq {rp : Rope α} (h : rp.WF M) (i : Int) :
    sub rp i = if 0 ≤ i then (match rp.toList[i.toNat]? with
      | some x => .ok x
      | none => .error (.fail "subscript")) else .error (.fail "subscript") := by
  have hlen := h.length_eq
  unfold sub
  by_cases h0 : 0 ≤ i
  · rw [if_pos h0]
    by_cases hi : i.toNat < rp.toList.length
    · have hin : rp.inBounds i = true := by
        rw [Rope.inBounds, Bool.and_eq_true, decide_eq_true_eq, decide_eq_true_eq]
        omega
      have hcast : i = (i.toNat : Int) := by omega
      rw [if_pos hin, hcast, subInBounds_eq h hi, Int.toNat_natCast, List.getElem?_eq_getElem hi]
      rfl
    · have hout : ¬ rp.inBounds i = true := by
        rw [Rope.inBounds, Bool.and_eq_true, decide_eq_true_eq, decide_eq_true_eq]
        omega
      rw [if_neg hout, List.getElem?_eq_none (by omega)]
  simp [Rope.inBounds, h0]

/-! ## Int ropes from sequences -/

namespace IntRope

theorem mapM_sub (s : List α) (lo k : Nat) (h : lo + k ≤ s.length) :
    ((List.range k).map fun i : Nat => (i : Int)).mapM (fun i => Seq.sub s (lo + i)) = .ok ((s.drop lo).take k) := by
  induction k with
  | zero => rfl
  | succ k ih =>
    have hlt : lo + k < s.length := by omega
    have hget : (s.drop lo)[k]? = some (s.get ⟨lo + k, hlt⟩) := by
      rw [List.getElem?_drop, List.getElem?_eq_getElem hlt]
      rfl
    rw [List.range_succ, List.map_append, List.mapM_append, ih (by omega), List.take_add_one, hget]
    show (do
      let y ← [(k : Int)].mapM fun i => Seq.sub s (lo + i)
      pure ((s.drop lo).take k ++ y)) = _
    rw [List.mapM_cons, List.mapM_nil, ← Int.natCast_add, seq_sub_eq s hlt]
    rfl

theorem subseq_eq (s : List α) (lo hi : Nat) (h : lo ≤ hi) (hhi : hi ≤ s.length) :
    subseq s lo hi = .ok ((s.drop lo).take (hi - lo)) := by
  have hcast : ((hi : Int) - lo).toNat = hi - lo := by omega
  unfold subseq
  rw [if_neg (by omega), Seq.tabulate, hcast]
  exact mapM_sub s lo (hi - lo) (by omega)

/-- The pieces of the sequence from `lo` on: all but the last are full. -/
theorem chopSeq_returns (s : List α) {sz : Nat} (hsz : 1 ≤ sz) (lo : Nat) (acc : List (List α)) :
    ∃ ps, Returns (fun n => chopSeq s sz n lo acc) (acc.reverse ++ ps) ∧ ps.flatten = s.drop lo ∧
      (∀ p ∈ ps, 1 ≤ p.length ∧ p.length ≤ sz) ∧ ps.IsChain fun p _ => sz ≤ p.length := by
  induction hk : s.length - lo using Nat.strong_induction_on generalizing lo acc with
  | _ k ih =>
    by_cases hend : (lo : Int) ≥ s.length
    · refine ⟨[], .succ ?_, ?_, List.forall_mem_nil _, .nil⟩
      · simp only [chopSeq, if_pos hend, List.append_nil]
        exact .pure _
      · rw [List.drop_of_length_le (by omega), List.flatten_nil]
    · by_cases hlast : (lo : Int) + sz ≥ s.length
      · refine ⟨[s.drop lo], .succ ?_, List.flatten_singleton, fun p hp => ?_, .singleton _⟩
        · have hsub := subseq_eq s lo s.length (by omega) (Nat.le_refl _)
          rw [List.take_of_length_le (by rw [List.length_drop])] at hsub
          simp only [chopSeq, if_neg hend, if_pos hlast, hsub, ok_bind, List.reverse_cons]
          exact .pure _
        · rw [List.mem_singleton.mp hp, List.length_drop]
          omega
      · have hsub := subseq_eq s lo (lo + sz) (by omega) (by omega)
        obtain ⟨ps, hret, hflat, hall, hchain⟩ :=
          ih (s.length - (lo + sz)) (by omega) (lo + sz) ((s.drop lo).take sz :: acc) rfl
        have hlen : ((s.drop lo).take sz).length = sz := by
          rw [List.length_take, List.length_drop]
          omega
        refine ⟨(s.drop lo).take sz :: ps, .succ ?_, ?_, by grind, by simp [List.isChain_cons, hchain, hlen]⟩
        · simp only [chopSeq, if_neg hend, if_neg hlast]
          rw [Nat.add_sub_cancel_left] at hsub
          rw [show (lo : Int) + sz = (lo + sz : Nat) from rfl, hsub]
          simp only [ok_bind]
          rwa [List.reverse_cons, List.append_assoc] at hret
        · rw [List.flatten_cons, hflat, ← List.drop_drop, List.take_append_drop]

/-- Ropes of elements, all but the last of at least `M`, so that no two are put into one leaf. -/
def Chunks (M k : Int) (ls : List (Rope α)) : Prop :=
  (ls.IsChain fun r _ => M ≤ r.length) ∧ ∀ r ∈ ls, r.WF M ∧ r.depth ≤ k ∧ 1 ≤ r.length

/-- One level: half as many ropes of the same leaves. -/
theorem Chunks.catPairs {k : Int} {ls : List (Rope α)} (h : Chunks M k ls) : Chunks M (k + 1) (catPairs M ls) ∧
    (catPairs M ls).flatMap Rope.leaves = ls.flatMap Rope.leaves ∧ (catPairs M ls).length = (ls.length + 1) / 2 := by
  induction ls using catPairs.induct with
  | case1 => exact ⟨⟨.nil, List.forall_mem_nil _⟩, rfl, by simp [IntRope.catPairs]⟩
  | case2 r =>
    refine ⟨⟨.singleton _, fun r' hr => ?_⟩, rfl, by simp [IntRope.catPairs]⟩
    obtain ⟨hwf, hd, hlen⟩ := h.2 r' hr
    exact ⟨hwf, by omega, hlen⟩
  | case3 r0 r1 rs ih =>
    obtain ⟨hchain, hall⟩ := h
    simp only [List.isChain_cons_cons, List.forall_mem_cons] at hchain hall
    obtain ⟨hfull, hchain⟩ := hchain
    obtain ⟨⟨hwf0, hd0, -⟩, ⟨hwf1, hd1, hlen1⟩, hall⟩ := hall
    obtain ⟨⟨ihchain, ihall⟩, ihleaves, ihlen⟩ := ih ⟨hchain.tail, hall⟩
    have hcat : ccat2 M r0 r1 = nccat2 r0 r1 := if_neg (by omega)
    have hdepth : (nccat2 r0 r1).depth = max r0.depth r1.depth + 1 := rfl
    rw [IntRope.catPairs, hcat]
    refine ⟨⟨List.isChain_cons.mpr ⟨fun r _ => ?_, ihchain⟩, List.forall_mem_cons.mpr ⟨⟨wf_nccat2 hwf0 hwf1, ?_, ?_⟩, ihall⟩⟩,
      ?_, ?_⟩
    · rw [length_nccat2]
      omega
    · omega
    · have := hwf0.length_nonneg
      rw [length_nccat2]
      omega
    · rw [List.flatMap_cons, ihleaves, List.flatMap_cons, List.flatMap_cons, ← List.append_assoc]
      rfl
    · simp only [List.length_cons, ihlen]
      omega

/-- As many levels as the logarithm of the number of ropes. -/
theorem build_returns {k : Int} {ls : List (Rope α)} (hne : ls ≠ []) (h : Chunks M k ls) :
    ∃ rp, Returns (fun n => build M n ls) rp ∧ rp.WF M ∧ rp.leaves = ls.flatMap Rope.leaves ∧
      rp.depth ≤ k + Nat.clog 2 ls.length := by
  induction hk : ls.length using Nat.strong_induction_on generalizing ls k with
  | _ m ih =>
    match ls, hne, h, hk with
    | [l], _, h, _ =>
      obtain ⟨hwf, hd, -⟩ := h.2 l List.mem_cons_self
      exact ⟨l, .succ (.pure _), hwf, by simp, by omega⟩
    | r0 :: r1 :: rs, _, h, hk =>
      obtain ⟨hpairs, hleaves, hlen⟩ := h.catPairs
      simp only [List.length_cons] at hlen hk
      obtain ⟨rp, hret, hrp, hrpleaves, hd⟩ := ih _ (by omega) (List.ne_nil_of_length_pos (by omega)) hpairs rfl
      have hlog : Nat.clog 2 m = Nat.clog 2 ((m + 1) / 2) + 1 := Nat.clog_of_two_le (by decide) (by omega)
      refine ⟨rp, .succ hret, hrp, hrpleaves.trans hleaves, ?_⟩
      rw [hlen, hk] at hd
      omega

theorem mapM_leaf {ps : List (List α)} (h : ∀ p ∈ ps, (p.length : Int) ≤ M) : ps.mapM (leaf M) = .ok (ps.map Rope.leaf) := by
  induction ps with
  | nil => rfl
  | cons p ps ih =>
    rw [List.mapM_cons, leaf_ok (h p List.mem_cons_self), ih fun q hq => h q (List.mem_cons_of_mem _ hq)]
    rfl

/-- The leaves of elements, under a rope no deeper than the logarithm of their number. -/
theorem fromSeq_leaves (hM : 1 ≤ M) (s : List α) :
    ∃ rp, Returns (fun n => fromSeq M n s) rp ∧ rp.WF M ∧ rp.toList = s ∧ rp.depth ≤ Nat.clog 2 rp.leaves.length ∧
      (s = [] ∧ rp = .empty ∨ s ≠ [] ∧ ∀ l ∈ rp.leaves, l ≠ []) := by
  obtain ⟨sz, rfl⟩ : ∃ sz : Nat, M = sz := ⟨M.toNat, by omega⟩
  obtain ⟨ps, hchop, hflat, hall, hchain⟩ := chopSeq_returns s (show 1 ≤ sz by omega) 0 []
  rw [List.drop_zero] at hflat
  simp only [List.reverse_nil, List.nil_append] at hchop
  have hmap := mapM_leaf (M := sz) fun p hp => Int.ofNat_le.mpr (hall p hp).2
  by_cases hps : ps = []
  · subst hps
    have hs : s = [] := hflat.symm
    refine ⟨.empty, hchop.bind ?_, Int.natCast_nonneg sz, hs.symm, Int.natCast_nonneg _, .inl ⟨hs, rfl⟩⟩
    rw [hmap]
    exact .succ (.pure _)
  · have hchunks : Chunks (sz : Int) 0 (ps.map Rope.leaf) := by
      refine ⟨(List.isChain_map _).mpr (hchain.imp fun p _ hp => Int.ofNat_le.mpr hp), fun r hr => ?_⟩
      obtain ⟨p, hp, rfl⟩ := List.mem_map.mp hr
      exact ⟨Int.ofNat_le.mpr (hall p hp).2, Int.le_refl 0, Int.ofNat_le.mpr (hall p hp).1⟩
    obtain ⟨rp, hret, hwf, hleaves, hd⟩ := build_returns (by simpa using hps) hchunks
    have hrp : rp.leaves = ps := by rw [hleaves, List.flatMap_map]; exact List.flatMap_singleton' ps
    refine ⟨rp, hchop.bind ?_, hwf, ?_, ?_, .inr ⟨?_, fun l hl => List.ne_nil_of_length_pos (hall l (hrp ▸ hl)).1⟩⟩
    · rw [hmap]
      exact hret
    · rw [← Rope.toSeq_eq, Rope.toSeq, hrp, hflat]
    · rw [hrp]
      simpa using hd
    · obtain ⟨p, hp⟩ := List.exists_mem_of_ne_nil ps hps
      rw [← hflat]
      grind [List.flatten_eq_nil_iff]

theorem fromSeq_returns (hM : 1 ≤ M) (s : List α) : ∃ rp, Returns (fun n => fromSeq M n s) rp ∧ rp.WF M ∧ rp.toList = s := by
  obtain ⟨rp, hret, hwf, hlist, -⟩ := fromSeq_leaves hM s
  exact ⟨rp, hret, hwf, hlist⟩

theorem length_le_flatten {ls : List (List α)} (h : ∀ l ∈ ls, l ≠ []) : ls.length ≤ ls.flatten.length := by
  induction ls with
  | nil => exact Nat.le_refl 0
  | cons l ls ih =>
    rw [List.forall_mem_cons] at h
    have hl := List.length_pos_iff.mpr h.1
    have := ih h.2
    rw [List.length_cons, List.flatten_cons, List.length_append]
    omega

/-- There are at most as many leaves as elements. -/
theorem fromSeq_balanced (hM : 1 ≤ M) (s : List α) :
    ∃ rp, Returns (fun n => fromSeq M n s) rp ∧ rp.WF M ∧ rp.toList = s ∧
      (s ≠ [] → ∀ l ∈ rp.leaves, l ≠ [] ∧ (l.length : Int) ≤ M) ∧ rp.depth ≤ Nat.clog 2 rp.leaves.length ∧
      isBalanced rp = true := by
  obtain ⟨rp, hret, hwf, hlist, hd, hleaves⟩ := fromSeq_leaves hM s
  have hle := ((Rope.wf_iff_ropeOK rp).mp hwf).2
  refine ⟨rp, hret, hwf, hlist, fun hs l hl => ⟨?_, hle l hl⟩, hd, ?_⟩
  · obtain ⟨hnil, -⟩ | ⟨-, hne⟩ := hleaves
    · exact absurd hnil hs
    · exact hne l hl
  · cases rp with
    | leaf l => rfl
    | cat len d l r =>
      obtain ⟨-, hempty⟩ | ⟨hs, hne⟩ := hleaves
      · cases hempty
      · have hone : 1 ≤ s.length := List.length_pos_iff.mpr hs
        have hnodes := length_le_flatten hne
        rw [← Rope.toSeq, Rope.toSeq_eq, hlist] at hnodes
        have hmono := Nat.clog_mono_right 2 hnodes
        show decide ((Rope.cat len d l r).depth ≤ 2 * ceilingLg (Rope.cat len d l r).length) = true
        rw [decide_eq_true_eq, hwf.length_eq, hlist, ceilingLg_eq hone]
        omega

theorem fromSeq_balanced_five :
    ∃ rp, Returns (fun n => fromSeq 2 n [1, 2, 3, 4, 5]) rp ∧ rp.WF 2 ∧ rp.toList = [1, 2, 3, 4, 5] ∧
      ([1, 2, 3, 4, 5] ≠ [] → ∀ l ∈ rp.leaves, l ≠ [] ∧ (l.length : Int) ≤ 2) ∧ rp.depth ≤ Nat.clog 2 rp.leaves.length ∧
      isBalanced rp = true := fromSeq_balanced (by decide) [1, 2, 3, 4, 5]

end IntRope

end Manticore.Parray
