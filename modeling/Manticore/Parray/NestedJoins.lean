/-
  Manticore.Parray.NestedJoins — flattened arrays that are made by the operations of the library (see
  `Manticore.Parray.NestedOps`).

  Arrays are joined at the last index of a shape, not at the length of its data: `Joinable`, the condition under which
  no array is misplaced. `Built` are the arrays of all runs whose constructions meet their conditions.

  - `concatLp_right`, `fromListLp_right`: the loops carry an array that holds the nested list so far.
  - `farray_sound`: every array that is built does what its nested list does, but for the subscripts and the intervals
    of `SubChecked` and `Cleanable`, and what meets the conditions is built (`farray_wrong` has what does not).
-/

import Manticore.Parray.NestedOps

namespace Manticore.Parray

open Fuel (Returns ok_bind)
open Shape (InOrder)
open FArray (Holds Cleaned Cleanable SubRight SubChecked NestedSubRight)
open List (mem_cons_self cons_ne_nil Forall₂ append_nil forall₂_iff_zip)
open Except (ok)

variable {α : Type} {M : Int}

/-! ## From lists and segments -/

theorem FArray.Holds.all {data : Rope α} (hwf : data.WF M) : Holds M ⟨data, .lf 0 data.length⟩ (.flat data.toList) := by
  have hall := FArray.Holds.flat hwf (Int.le_refl 0) hwf.length_nonneg (Int.le_refl data.length)
  rw [hwf.length_eq, FArray.segment_all] at hall
  rw [hwf.length_eq]
  exact hall

theorem fromList_right_iff (hM : 1 ≤ M) (xs : List α) :
    (∃ a, Returns (fun n => FArray.fromList M n xs) a ∧ Holds M a (.flat xs)) ↔ xs ≠ [] := by
  cases xs with
  | nil =>
    refine ⟨fun hret => ?_, fun hne => absurd rfl hne⟩
    obtain ⟨a, ⟨N, hN⟩, hholds⟩ := hret
    cases hN N (Nat.le_refl N)
    obtain ⟨-, -, hover⟩ := hholds.inOrder.within (0, 1) mem_cons_self
    have hover : (1 : Int) ≤ 0 := hover
    omega
  | cons x xs =>
    refine ⟨fun _ => cons_ne_nil x xs, fun _ => ?_⟩
    obtain ⟨rp, hrp, hwf, hlist⟩ := fromList_returns hM (x :: xs)
    have hret := hrp.bind (g := fun _ rp => ok (FArray.mk rp (.lf 0 rp.length))) (.pure _)
    exact ⟨_, hret, hlist ▸ Holds.all hwf⟩

theorem intFromList_right (hM : 1 ≤ M) (xs : List α) :
    ∃ a, Returns (fun n => IntFArray.fromList M n xs) a ∧ Holds M a (.flat xs) := by
  obtain ⟨rp, hrp, hwf, hlist⟩ := fromList_returns hM xs
  have hret := hrp.bind (g := fun _ rp => ok (FArray.mk rp (.lf 0 rp.length))) (.pure _)
  exact ⟨_, hret, hlist ▸ Holds.all hwf⟩

variable {a : FArray α} {v : Nested α} {f : FArray α} {fs : List (FArray α)} {vs : List (Nested α)}

theorem clean_right_iff (hM : 1 ≤ M) (h : Holds M a v) :
    (∃ a', Returns (fun n => FArray.clean M n a) a' ∧ Cleaned M a' v) ↔ Cleanable a :=
  FArray.cleanWith_right_iff h (fromSeq_returns hM)

theorem intClean_right_iff (hM : 1 ≤ M) (h : Holds M a v) :
    (∃ a', Returns (fun n => IntFArray.clean M n a) a' ∧ Cleaned M a' v) ↔ Cleanable a :=
  FArray.cleanWith_right_iff h (IntRope.fromSeq_returns hM)

/-! ## Joining arrays -/

/-- Every array has a last leaf, which ends where its data do, but for the last array's. -/
structure Joinable (fs : List (FArray α)) : Prop where
  last : ∀ f ∈ fs, ∃ m, f.shape.maxIdx = .ok m
  covers : ∀ f ∈ fs.dropLast, f.shape.maxIdx = .ok f.data.length

theorem Joinable.tail (h : Joinable (f :: fs)) : Joinable fs := by
  refine ⟨fun g hg => h.last g (List.mem_cons_of_mem f hg), fun g hg => h.covers g ?_⟩
  cases fs with
  | nil => cases hg
  | cons f' fs => exact List.mem_cons_of_mem f hg

/-- Where the array after the first is put. -/
theorem Joinable.next (h : Joinable (f :: fs)) (i : Int) :
    ∃ i', (f.shape.incrBy i).maxIdx = .ok i' ∧ (i' = f.data.length + i ∨ fs = []) := by
  obtain ⟨m, hm⟩ := h.last f mem_cons_self
  refine ⟨m + i, Shape.maxIdx_incrBy i hm, ?_⟩
  cases fs with
  | nil => exact .inr rfl
  | cons f' fs =>
    have hcov := h.covers f mem_cons_self
    rw [hm] at hcov
    cases hcov
    exact .inl rfl

theorem length_ccat2 {d d' : Rope α} (h : d.WF M) (h' : d'.WF M) : (ccat2 M d d').length = d'.length + d.length := by
  rw [(wf_ccat2 h h').length_eq, toList_ccat2, List.length_append, h.length_eq, h'.length_eq, Int.natCast_add]
  exact Int.add_comm _ _

theorem concatLp_right {fs : Rope (FArray α)} (hfs : fs.WF M) {rest : List (FArray α)} {ws : List (Nested α)}
    (hrest : Forall₂ (Holds M) rest ws) {curr : Nat} (hdrop : fs.toList.drop curr = rest)
    (hjoin : Joinable rest) {data : Rope α} {ts : List Shape} (hacc : Holds M ⟨data, .nd ts.reverse⟩ (.nest vs))
    {i : Int} (hi : i = data.length ∨ rest = []) :
    ∃ a, FArray.concatLp M fs rest.length curr i data ts = .ok a ∧ Holds M a (.nest (vs ++ ws)) := by
  induction hrest generalizing curr data ts vs i with
  | nil => exact ⟨_, rfl, by rw [append_nil]; exact hacc⟩
  | @cons f w rest ws hf hrest ih =>
    obtain rfl : i = data.length := hi.resolve_right (cons_ne_nil _ _)
    have hget : fs.toList[curr]? = some f := by
      rw [← List.head?_drop, hdrop]
      rfl
    have hdrop' : fs.toList.drop (curr + 1) = rest := by
      rw [← List.tail_drop, hdrop]
      rfl
    have hsub : sub fs curr = .ok f := by
      rw [sub_eq hfs, if_pos (Int.natCast_nonneg curr), Int.toNat_natCast, hget]
    obtain ⟨i', hmax, hi'⟩ := hjoin.next data.length
    have hsnoc := hacc.snoc hf
    rw [← List.reverse_cons] at hsnoc
    have hnext : i' = (ccat2 M data f.data).length ∨ rest = [] := by
      rw [length_ccat2 hacc.wf hf.wf]
      exact hi'
    obtain ⟨a, ha, hholds⟩ := ih hdrop' hjoin.tail hsnoc hnext
    grind [FArray.concatLp, ok_bind]

theorem FArray.Holds.none (hM : 0 ≤ M) : Holds M (⟨.empty, .nd []⟩ : FArray α) (.nest []) :=
  ⟨hM, ⟨List.forall_mem_nil _, .nil⟩, rfl⟩

theorem concatRope_right (hM : 0 ≤ M) {fs : Rope (FArray α)} (hfs : fs.WF M)
    (hall : Forall₂ (Holds M) fs.toList vs) (hjoin : Joinable fs.toList) :
    ∃ a, FArray.concatRope M fs = .ok a ∧ Holds M a (.nest vs) := by
  have hlen : fs.length.toNat = fs.toList.length := by rw [hfs.length_eq, Int.toNat_natCast]
  have hnone : Holds M (⟨.empty, .nd [].reverse⟩ : FArray α) (.nest []) := Holds.none hM
  rw [FArray.concatRope, hlen]
  exact concatLp_right hfs hall List.drop_zero hjoin hnone (.inl rfl)

/-- The elements of an array that covers its data. -/
theorem flat_elements {xs : List α} (h : Holds M f (.flat xs)) (hcov : f.shape = .lf 0 f.data.length) :
    f.data.toList = xs := by
  obtain ⟨hwf, -, hvalue⟩ := h
  rw [hcov, hwf.length_eq] at hvalue
  have hseg : segment f.data.toList 0 f.data.toList.length = xs := Nested.flat.inj hvalue
  rwa [FArray.segment_all] at hseg

theorem flatten_right (hM : 0 ≤ M) {f : FArray (FArray α)} (hf : Holds M f (.flat fs))
    (hcov : f.shape = .lf 0 f.data.length) (hall : Forall₂ (Holds M) fs vs) (hjoin : Joinable fs) :
    ∃ a, FArray.flatten M f = .ok a ∧ Holds M a (.nest vs) := by
  obtain rfl := flat_elements hf hcov
  exact concatRope_right hM hf.wf hall hjoin

/-! ## Joining arrays of ints -/

/-- What a join of lists is to `FArrayUtil`: the empty array has no segments. -/
def Nested.joined : List (Nested α) → Nested α
  | [] => .flat []
  | v :: vs => .nest (v :: vs)

theorem elements_eq {rp : Rope α} (h : rp.WF M) {k : Nat} (hk : k ≤ rp.toList.length) (acc : List α) :
    FArrayUtil.elements rp k acc = .ok (rp.toList.take k ++ acc) := by
  induction k generalizing acc with
  | zero => rfl
  | succ k ih =>
    have hget := List.getElem?_eq_getElem (show k < rp.toList.length from hk)
    have hsub : sub rp k = .ok rp.toList[k] := by
      rw [sub_eq h, if_pos (Int.natCast_nonneg k), Int.toNat_natCast, hget]
    rw [FArrayUtil.elements, hsub, ok_bind, ih (Nat.le_of_succ_le hk), List.take_add_one, hget, List.append_assoc]
    rfl

theorem fromListLp_right (policy : ChunkingPolicy) {rest : List (FArray α)} {ws : List (Nested α)}
    (hrest : Forall₂ (Holds M) rest ws) (hjoin : Joinable rest) {rope : Rope α} {ts : List Shape}
    (hacc : Holds M ⟨rope, .nd ts.reverse⟩ (.nest vs)) {i : Int} (hi : i = rope.length ∨ rest = []) :
    ∃ a, Returns (fun n => FArrayUtil.fromListLp M policy n rest rope ts i) a ∧ Holds M a (.nest (vs ++ ws)) := by
  induction hrest generalizing rope ts vs i with
  | nil =>
    obtain ⟨hwf, hin, hvalue⟩ := hacc
    obtain ⟨rp, hrp, hbal, hlist⟩ := balance_returns policy (show rope.WF M from hwf)
    have hret := hrp.bind (g := fun _ r => ok (FArray.mk r (.nd ts.reverse))) (.pure _)
    have hlen : rp.length = rope.length := by rw [hbal.length_eq, hlist, Rope.WF.length_eq hwf]
    refine ⟨⟨rp, .nd ts.reverse⟩, hret, hbal, hlen ▸ hin, ?_⟩
    rw [append_nil, ← hvalue]
    show (Shape.nd ts.reverse).value rp.toList = _
    rw [hlist]
  | @cons f w rest ws hf hrest ih =>
    obtain rfl : i = rope.length := hi.resolve_right (cons_ne_nil _ _)
    obtain ⟨i', hmax, hi'⟩ := hjoin.next rope.length
    have hsnoc := hacc.snoc hf
    rw [← List.reverse_cons] at hsnoc
    have hnext : i' = (ccat2 M rope f.data).length ∨ rest = [] := by
      rw [length_ccat2 hacc.wf hf.wf]
      exact hi'
    obtain ⟨a, ha, hholds⟩ := ih hjoin.tail hsnoc hnext
    refine ⟨a, ha.congr fun n => ?_, by rwa [List.append_assoc] at hholds⟩
    show ((f.shape.incrBy rope.length).maxIdx >>= _) = _
    rw [hmax, ok_bind]

theorem joinFromList_right (hM : 0 ≤ M) (policy : ChunkingPolicy) (hall : Forall₂ (Holds M) fs vs)
    (hjoin : Joinable fs) :
    ∃ a, Returns (fun n => FArrayUtil.fromList M policy n fs) a ∧ Holds M a (Nested.joined vs) := by
  cases hall with
  | nil => exact ⟨IntFArray.empty, .pure _, FArray.Holds.all (show (Rope.empty : Rope α).WF M from hM)⟩
  | @cons f v fs vs hf hall =>
    -- the first array stays where it is
    have hfirst : Holds M ⟨f.data, .nd [f.shape].reverse⟩ (.nest [v]) := by
      obtain ⟨hwf, hin, hvalue⟩ := hf
      refine ⟨hwf, ?_, ?_⟩
      · show InOrder f.data.length (f.shape.leaves ++ [])
        rwa [append_nil]
      · show Nested.nest [f.shape.value f.data.toList] = _
        rw [hvalue]
    obtain ⟨i', hmax, hi'⟩ := hjoin.next 0
    rw [Shape.incrBy_zero] at hmax
    rw [Int.add_zero] at hi'
    obtain ⟨a, ha, hholds⟩ := fromListLp_right policy hall hjoin.tail hfirst hi'
    refine ⟨a, ha.congr fun n => ?_, hholds⟩
    show (f.shape.maxIdx >>= _) = _
    rw [hmax, ok_bind]

theorem flatten_IF_F_right (hM : 1 ≤ M) (policy : ChunkingPolicy) {f : FArray (FArray α)}
    (hf : Holds M f (.flat fs)) (hclean : Cleanable f) (hall : Forall₂ (Holds M) fs vs) (hjoin : Joinable fs) :
    ∃ a, Returns (fun n => FArrayUtil.flatten_IF_F M policy n f) a ∧ Holds M a (Nested.joined vs) := by
  obtain ⟨f', hret, hf', hspan⟩ := (clean_right_iff hM hf).mpr hclean
  obtain ⟨a, ha, hholds⟩ := joinFromList_right (by omega) policy hall hjoin
  refine ⟨a, hret.bind ?_, hholds⟩
  obtain ⟨data, shape⟩ := f'
  cases shape with
  | nd ts => cases hf'.value
  | lf lo hi =>
    have hspan : ok (lo, hi) = (ok (0, data.length) : Except Exn (Int × Int)) := hspan
    cases hspan
    have hlist := flat_elements hf' rfl
    have hwf : data.WF M := hf'.wf
    have helems : FArrayUtil.elements data data.length.toNat [] = .ok fs := by
      rw [hwf.length_eq, Int.toNat_natCast, elements_eq hwf (Nat.le_refl _), List.take_length, append_nil]
      exact congrArg ok hlist
    grind [ok_bind]

/-! ## Runs -/

/-- The arrays that runs make when every step meets its condition, with the nested lists for which they stand. -/
inductive Built (M : Int) : {α : Type} → FArray α → Nested α → Prop where
  | fromList {α : Type} {xs : List α} {a : FArray α} (hne : xs ≠ [])
      (h : Returns (fun n => FArray.fromList M n xs) a) : Built M a (.flat xs)
  | intFromList {α : Type} {xs : List α} {a : FArray α} (h : Returns (fun n => IntFArray.fromList M n xs) a) :
      Built M a (.flat xs)
  | concatRope {α : Type} {fs : Rope (FArray α)} {vs : List (Nested α)} {a : FArray α} (hwf : fs.WF M)
      (hlen : fs.toList.length = vs.length) (hfs : ∀ p ∈ fs.toList.zip vs, Built M p.1 p.2)
      (hjoin : Joinable fs.toList) (h : FArray.concatRope M fs = .ok a) : Built M a (.nest vs)
  | flatten {α : Type} {f : FArray (FArray α)} {fs : List (FArray α)} {vs : List (Nested α)} {a : FArray α}
      (hf : Built M f (.flat fs)) (hcov : f.shape = .lf 0 f.data.length) (hlen : fs.length = vs.length)
      (hfs : ∀ p ∈ fs.zip vs, Built M p.1 p.2) (hjoin : Joinable fs) (h : FArray.flatten M f = .ok a) :
      Built M a (.nest vs)
  | flatten_IF_F {α : Type} {policy : ChunkingPolicy} {f : FArray (FArray α)} {fs : List (FArray α)}
      {vs : List (Nested α)} {a : FArray α} (hf : Built M f (.flat fs)) (hclean : Cleanable f)
      (hlen : fs.length = vs.length) (hfs : ∀ p ∈ fs.zip vs, Built M p.1 p.2) (hjoin : Joinable fs)
      (h : Returns (fun n => FArrayUtil.flatten_IF_F M policy n f) a) : Built M a (Nested.joined vs)
  | nestedSub {α : Type} {a : FArray α} {v : Nested α} {i : Int} {a' : FArray α} {v' : Nested α} (ha : Built M a v)
      (hv : v.nestedSub i = some v') (h : a.nestedSub i = .ok a') : Built M a' v'
  | clean {α : Type} {a : FArray α} {v : Nested α} {a' : FArray α} (ha : Built M a v) (hclean : Cleanable a)
      (h : Returns (fun n => FArray.clean M n a) a') : Built M a' v
  | intClean {α : Type} {a : FArray α} {v : Nested α} {a' : FArray α} (ha : Built M a v) (hclean : Cleanable a)
      (h : Returns (fun n => IntFArray.clean M n a) a') : Built M a' v

/-- An array whose step returned what a right step returns. -/
theorem holds_of_returns {f : Nat → Except Exn (FArray α)} (ha : Returns f a)
    (hright : ∃ a', Returns f a' ∧ Holds M a' v) : Holds M a v := by
  obtain ⟨a', ha', hholds⟩ := hright
  rw [ha.unique ha']
  exact hholds

theorem Built.holds (hM : 1 ≤ M) (h : Built M a v) : Holds M a v := by
  have hM0 : 0 ≤ M := by omega
  induction h with
  | fromList hne h => exact holds_of_returns h ((fromList_right_iff hM _).mpr hne)
  | intFromList h => exact holds_of_returns h (intFromList_right hM _)
  | concatRope hwf hlen _ hjoin h ih =>
    obtain ⟨a', ha', hholds⟩ := concatRope_right hM0 hwf (forall₂_iff_zip.mpr ⟨hlen, fun hp => ih _ hp⟩) hjoin
    cases h.symm.trans ha'
    exact hholds
  | flatten _ hcov hlen _ hjoin h ihf ih =>
    obtain ⟨a', ha', hholds⟩ := flatten_right hM0 ihf hcov (forall₂_iff_zip.mpr ⟨hlen, fun hp => ih _ hp⟩) hjoin
    cases h.symm.trans ha'
    exact hholds
  | flatten_IF_F _ hclean hlen _ hjoin h ihf ih =>
    exact holds_of_returns h
      (flatten_IF_F_right hM _ ihf hclean (forall₂_iff_zip.mpr ⟨hlen, fun hp => ih _ hp⟩) hjoin)
  | nestedSub _ hv h ih =>
    rename_i i _ _ _
    have hright := FArray.nestedSub_right ih i
    rw [NestedSubRight, hv] at hright
    obtain ⟨a', ha', hholds⟩ := hright
    cases h.symm.trans ha'
    exact hholds
  | clean _ hclean h ih =>
    obtain ⟨a', ha', hcleaned⟩ := (clean_right_iff hM ih).mpr hclean
    exact holds_of_returns h ⟨a', ha', hcleaned.toHolds⟩
  | intClean _ hclean h ih =>
    obtain ⟨a', ha', hcleaned⟩ := (intClean_right_iff hM ih).mpr hclean
    exact holds_of_returns h ⟨a', ha', hcleaned.toHolds⟩

/-- What an array does as its nested list does. -/
structure Sound (M : Int) (a : FArray α) (v : Nested α) : Prop where
  /-- The intervals lie in the data in order, and read the nested list. -/
  holds : Holds M a v
  length : a.length = v.length
  flatSub : ∀ i, SubRight a v i ↔ SubChecked a i
  nestedSub : ∀ i, NestedSubRight M a v i
  clean : (∃ a', Returns (fun n => FArray.clean M n a) a' ∧ Cleaned M a' v) ↔ Cleanable a
  intClean : (∃ a', Returns (fun n => IntFArray.clean M n a) a' ∧ Cleaned M a' v) ↔ Cleanable a

/-- What meets its condition is made. -/
structure Makes (M : Int) : Prop where
  fromList : ∀ {α : Type} (xs : List α),
    (∃ a, Returns (fun n => FArray.fromList M n xs) a ∧ Holds M a (.flat xs)) ↔ xs ≠ []
  intFromList : ∀ {α : Type} (xs : List α), ∃ a, Returns (fun n => IntFArray.fromList M n xs) a ∧ Built M a (.flat xs)
  concatRope : ∀ {α : Type} {fs : Rope (FArray α)} {vs : List (Nested α)}, fs.WF M → fs.toList.length = vs.length →
    (∀ p ∈ fs.toList.zip vs, Built M p.1 p.2) → Joinable fs.toList →
      ∃ a, FArray.concatRope M fs = .ok a ∧ Built M a (.nest vs)
  flatten : ∀ {α : Type} {f : FArray (FArray α)} {fs : List (FArray α)} {vs : List (Nested α)}, Built M f (.flat fs) →
    f.shape = .lf 0 f.data.length → fs.length = vs.length → (∀ p ∈ fs.zip vs, Built M p.1 p.2) → Joinable fs →
      ∃ a, FArray.flatten M f = .ok a ∧ Built M a (.nest vs)
  flatten_IF_F : ∀ {α : Type} (policy : ChunkingPolicy) {f : FArray (FArray α)} {fs : List (FArray α)}
    {vs : List (Nested α)}, Built M f (.flat fs) → Cleanable f → fs.length = vs.length →
      (∀ p ∈ fs.zip vs, Built M p.1 p.2) → Joinable fs →
        ∃ a, Returns (fun n => FArrayUtil.flatten_IF_F M policy n f) a ∧ Built M a (Nested.joined vs)

theorem built_all (hM : 1 ≤ M) (hlen : fs.length = vs.length) (hfs : ∀ p ∈ fs.zip vs, Built M p.1 p.2) :
    Forall₂ (Holds M) fs vs :=
  forall₂_iff_zip.mpr ⟨hlen, fun hp => (hfs _ hp).holds hM⟩

theorem makes (hM : 1 ≤ M) : Makes M := by
  have hM0 : 0 ≤ M := by omega
  refine ⟨fromList_right_iff hM, fun xs => ?_, fun hwf hlen hfs hjoin => ?_, fun hf hcov hlen hfs hjoin => ?_,
    fun policy _ _ _ hf hclean hlen hfs hjoin => ?_⟩
  · obtain ⟨a, ha, -⟩ := intFromList_right hM xs
    exact ⟨a, ha, .intFromList ha⟩
  · obtain ⟨a, ha, -⟩ := concatRope_right hM0 hwf (built_all hM hlen hfs) hjoin
    exact ⟨a, ha, .concatRope hwf hlen hfs hjoin ha⟩
  · obtain ⟨a, ha, -⟩ := flatten_right hM0 (hf.holds hM) hcov (built_all hM hlen hfs) hjoin
    exact ⟨a, ha, .flatten hf hcov hlen hfs hjoin ha⟩
  · obtain ⟨a, ha, -⟩ := flatten_IF_F_right hM policy (hf.holds hM) hclean (built_all hM hlen hfs) hjoin
    exact ⟨a, ha, .flatten_IF_F hf hclean hlen hfs hjoin ha⟩

/-- Every array that is built does what its nested list does, and what meets its condition is built. -/
theorem farray_sound (hM : 1 ≤ M) :
    (∀ {α : Type} {a : FArray α} {v : Nested α}, Built M a v → Sound M a v) ∧ Makes M := by
  refine ⟨fun h => ?_, makes hM⟩
  have hholds := h.holds hM
  exact ⟨hholds, FArray.length_eq hholds, FArray.flatSub_right_iff hholds, FArray.nestedSub_right hholds,
    clean_right_iff hM hholds, intClean_right_iff hM hholds⟩

/-- Two arrays joined. -/
theorem farray_sound_joined :
    Sound 3 (⟨.leaf [1, 2, 3], .nd [.lf 0 1, .lf 1 3]⟩ : FArray Nat) (.nest [.flat [1], .flat [2, 3]]) := by
  have h1 : Built 3 (⟨.leaf [1], .lf 0 1⟩ : FArray Nat) (.flat [1]) :=
    .fromList (cons_ne_nil _ _) (.succ ⟨0, fun _ _ => rfl⟩)
  have h2 : Built 3 (⟨.leaf [2, 3], .lf 0 2⟩ : FArray Nat) (.flat [2, 3]) := .intFromList (.succ ⟨0, fun _ _ => rfl⟩)
  have hfs : ∀ p ∈ [(⟨.leaf [1], .lf 0 1⟩ : FArray Nat), ⟨.leaf [2, 3], .lf 0 2⟩].zip [.flat [1], .flat [2, 3]],
      Built 3 p.1 p.2 := by
    simp [h1, h2]
  have hjoin : Joinable [(⟨.leaf [1], .lf 0 1⟩ : FArray Nat), ⟨.leaf [2, 3], .lf 0 2⟩] := by
    refine ⟨fun f hf => ?_, fun f hf => ?_⟩
    · rcases List.mem_cons.mp hf with rfl | hf
      · exact ⟨1, rfl⟩
      · rw [List.mem_singleton.mp hf]
        exact ⟨2, rfl⟩
    · rw [List.mem_singleton.mp hf]
      rfl
  have hwf : (Rope.leaf [(⟨.leaf [1], .lf 0 1⟩ : FArray Nat), ⟨.leaf [2, 3], .lf 0 2⟩]).WF 3 := by
    show (2 : Int) ≤ 3
    decide
  exact (farray_sound (by decide)).1 (.concatRope hwf rfl hfs hjoin rfl)

/-- The empty array has an element, a subscript of a segment reads the next one, an array after a segment of other data
    is misplaced, the empty array of arrays is not joined, `flatten` of a segment joins all the data, and the empty
    segment at the end of a leaf is not cleaned. -/
theorem farray_wrong :
    (do return (← FArray.fromList 3 1 ([] : List Nat)).length) = ok 1 ∧
    (do
      let a ← FArray.concatRope 3 (.leaf [← FArray.fromList 3 1 [1], ← FArray.fromList 3 1 [2]])
      (← a.nestedSub 0).flatSub 1) = .ok 2 ∧
    (do
      let a ← FArray.concatRope 3 (.leaf [← FArray.fromList 3 1 [1], ← FArray.fromList 3 1 [2]])
      let b ← FArray.concatRope 3 (.leaf [← a.nestedSub 0, ← FArray.fromList 3 1 [4]])
      (← b.nestedSub 1).flatSub 0) = .ok 2 ∧
    (do
      let a ← FArray.concatRope 3 (.leaf ([] : List (FArray Nat)))
      return (← FArray.concatRope 3 (.leaf [a])).length) = .error (.fail "maxIdx - empty Nd") ∧
    (do
      let fs ← FArray.fromList 3 1 [← FArray.fromList 3 1 [1]]
      let gs ← FArray.fromList 3 1 [← FArray.fromList 3 1 [2]]
      let fs ← FArray.concatRope 3 (.leaf [fs, gs])
      return (← FArray.flatten 3 (← fs.nestedSub 0)).length) = .ok 2 ∧
    (do
      let a ← FArray.concatRope 3 (.leaf [← IntFArray.fromList 3 1 [1], ← IntFArray.fromList 3 1 []])
      return (← FArray.clean 3 1 (← a.nestedSub 1)).length) = .error (.fail "err") :=
  ⟨rfl, rfl, rfl, rfl, rfl, rfl⟩

end Manticore.Parray
