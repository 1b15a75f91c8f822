/-
  Manticore.Parray.Filter — `Rope.filter` (`basis/parray/rope.pml`) under the three chunking policies.

  `filter_returns`: the elements that satisfy the predicate, in a well-formed rope, unless an eager threshold is not
  positive and shorter than the rope; then `filterETS` halves a rope of one element at index -1.
-/

import Manticore.Parray.Summary

namespace Manticore.Parray

open Fuel (Returns ok_bind)

variable {α : Type} (M : Int)

def filterSequential (f : α → Bool) : Rope α → Except Exn (Rope α)
  | .leaf s => leaf M (s.filter f)
  | .cat _ _ l r => do return ccat2 M (← filterSequential f l) (← filterSequential f r)

def filterETS (SST : Int) (f : α → Bool) : Nat → Rope α → Except Exn (Rope α)
  | 0, _ => .error .fuel
  | n + 1, rp =>
    if rp.length ≤ SST then filterSequential M f rp
    else do
      let (l, r) ← splitAtIx2 M rp (rp.length / 2 - 1)
      return ccat2 M (← filterETS SST f n l) (← filterETS SST f n r)

def nextFilt (f : Rope α) (c : GenCtx (Rope α) (Rope α)) : Progress (List α × GenCtx (Rope α) (Rope α)) (Rope α) :=
  next leftmostLeaf (ccat2 M) f c

def numUnprocessedFilt (f : Rope α) (c : GenCtx (Rope α) (Rope α)) : Int := numUnprocessed Rope.length Rope.length f c

/-- A leaf of `filterUntil`. -/
def filterLeaf (f : α → Bool) (σ : Answers) (_ : Unit) (s : List α) (c : GenCtx (Rope α) (Rope α)) :
    Except Exn (Progress (Rope α × GenCtx (Rope α) (Rope α)) (Unit × Rope α) × Answers) :=
  match Seq.filterUntil σ f s with
  | (.more (us, ps), σ) => do
    if numUnprocessedFilt (← leaf M us) c < 2 then return (.done ((), ← leaf M (ps ++ us.filter f)), σ)
    else return (← more (fun ps : List α => (ps.length : Int)) (leaf M) (leaf M) us ps c, σ)
  | (.done ps, σ) => .ok (.done ((), .leaf ps), σ)

def filterUntil (f : α → Bool) (n : Nat) (σ : Answers) (cur : Rope α × GenCtx (Rope α) (Rope α)) :
    Except Exn (Progress (Rope α × GenCtx (Rope α) (Rope α)) (Rope α)) :=
  let (s, c) := leftmostLeaf cur.1 cur.2
  sweepUntil (filterLeaf M f) (nextFilt M) n σ () s c

def splitFilt (cur : Rope α × GenCtx (Rope α) (Rope α)) :
    Except Exn ((Rope α × GenCtx (Rope α) (Rope α)) × (Rope α × GenCtx (Rope α) (Rope α)) × Rope α) := do
  let (p, u) ← splitCursor (ccat2 M) .empty (fun r u => .ok (ccat2 M r u)) .empty cur.1 cur.2
  let mid := u.length / 2
  let (u1, u2) ← splitAtIx2 M u (mid - 1)
  return ((u1, .top), (u2, .top), p)

def filterLTS (f : α → Bool) (n : Nat) (σ : Schedule) (rp : Rope α) : Except Exn (Rope α) :=
  lazySplit (filterUntil M f) (fun _ => splitFilt M) (fun rp1 rp2 p => .ok (ccat2 M p (ccat2 M rp1 rp2))) n σ (rp, .top)

def filter' (policy : ChunkingPolicy) (f : α → Bool) (n : Nat) (σ : Schedule) (rp : Rope α) : Except Exn (Rope α) :=
  match policy with
  | .sequential => filterSequential M f rp
  | .ets SST => filterETS M SST f n rp
  | .lts _ => filterLTS M f n σ rp

def filter (policy : ChunkingPolicy) (f : α → Bool) (n : Nat) (σ : Schedule) (rp : Rope α) : Except Exn (Rope α) := do
  balance M policy n (← filter' M policy f n σ rp)

variable {M}

/-! ## Sequential and eager -/

def Filtered (M : Int) (f : α → Bool) (rp rp' : Rope α) : Prop := rp'.WF M ∧ rp'.toList = rp.toList.filter f

theorem leaf_filter (f : α → Bool) {s : List α} (h : (s.length : Int) ≤ M) : ((s.filter f).length : Int) ≤ M :=
  Int.le_trans (Int.ofNat_le.mpr (List.length_filter_le f s)) h

theorem Filtered.ccat2 {f : α → Bool} {rp l r l' r' : Rope α} (hl : Filtered M f l l') (hr : Filtered M f r r')
    (happ : l.toList ++ r.toList = rp.toList) : Filtered M f rp (ccat2 M l' r') :=
  ⟨wf_ccat2 hl.1 hr.1, by rw [toList_ccat2, hl.2, hr.2, ← List.filter_append, happ]⟩

theorem filterSequential_ok (f : α → Bool) {rp : Rope α} (h : rp.WF M) :
    ∃ rp', filterSequential M f rp = .ok rp' ∧ Filtered M f rp rp' := by
  induction rp with
  | leaf s =>
    have hs := leaf_filter f (s := s) h
    exact ⟨.leaf (s.filter f), leaf_ok hs, hs, rfl⟩
  | cat len d l r ihl ihr =>
    obtain ⟨-, -, hl, hr⟩ := h
    obtain ⟨l', hretl, hfl⟩ := ihl hl
    obtain ⟨r', hretr, hfr⟩ := ihr hr
    exact ⟨ccat2 M l' r', by rw [filterSequential, hretl, hretr]; rfl, hfl.ccat2 hfr rfl⟩

theorem filterETS_returns (f : α → Bool) {SST : Int} {rp : Rope α} (h : rp.WF M) (hSST : 1 ≤ SST ∨ rp.length ≤ SST) :
    ∃ rp', Returns (fun n => filterETS M SST f n rp) rp' ∧ Filtered M f rp rp' := by
  induction hk : rp.length.toNat using Nat.strong_induction_on generalizing rp with
  | _ k ih =>
    by_cases hle : rp.length ≤ SST
    · obtain ⟨rp', hret, hf⟩ := filterSequential_ok f h
      refine ⟨rp', .succ ?_, hf⟩
      simp only [filterETS, if_pos hle, hret]
      exact .pure _
    · have hpos : 1 ≤ SST := by omega
      obtain ⟨l, r, hsplit, hl, hr, happ, hlen1, hlen2⟩ := splitAtIx2_half h (by omega)
      obtain ⟨l', hretl, hfl⟩ := ih l.length.toNat (by omega) hl (.inl hpos) rfl
      obtain ⟨r', hretr, hfr⟩ := ih r.length.toNat (by omega) hr (.inl hpos) rfl
      refine ⟨ccat2 M l' r', .succ ?_, hfl.ccat2 hfr happ⟩
      simp only [filterETS, if_neg hle, hsplit, ok_bind]
      exact hretl.bind (hretr.bind (.pure _))

/-- A threshold that is not positive leads to the split of a rope of at most one element. -/
theorem filterETS_fails (f : α → Bool) {SST : Int} (hSST : SST ≤ 0) (n : Nat) {rp : Rope α} (h : rp.WF M)
    (hgt : SST < rp.length) (rp' : Rope α) : filterETS M SST f n rp ≠ .ok rp' := by
  induction n generalizing rp rp' with
  | zero => exact nofun
  | succ n ih =>
    intro hok
    simp only [filterETS, if_neg (Int.not_le.mpr hgt)] at hok
    by_cases h2 : 2 ≤ rp.length
    · obtain ⟨l, r, hsplit, hl, -, -, hlen, -⟩ := splitAtIx2_half h h2
      rw [hsplit, ok_bind] at hok
      cases hleft : filterETS M SST f n l with
      | error e =>
        simp only [hleft] at hok
        cases hok
      | ok l' => exact ih hl (by omega) l' hleft
    · rw [splitAtIx2_neg rp (by omega)] at hok
      cases hok

/-! ## Lazy -/

/-- Of a finished piece only the elements count. -/
def filterSummary (M : Int) (f : α → Bool) : Summary α (Rope α) (List α) where
  mul := (· ++ ·)
  one := []
  val := List.filter f
  abs := Rope.toList
  ok := Rope.WF M
  put := ccat2 M
  mul_assoc := List.append_assoc
  one_mul := List.nil_append
  mul_one := List.append_nil
  val_nil := rfl
  val_append := List.filter_append
  ok_put := wf_ccat2
  abs_put _ _ := toList_ccat2 _ _

theorem filterLeaf_sum (f : α → Bool) : SumLeaf (filterSummary M f) M (filterLeaf M f) := by
  intro t n η xs c hopen
  have hxs : (xs.length : Int) ≤ M := hopen.1.1.focus
  unfold filterLeaf
  rcases Seq.filterUntil_cases η f xs with ⟨η', hdone⟩ | ⟨ps, us, η', rfl, hne, hmore⟩
  · rw [hdone]
    exact ⟨.done ((), .leaf (xs.filter f)), η', rfl, leaf_filter f hxs, rfl⟩
  · rw [hmore]
    have happ := hxs
    rw [List.length_append] at happ
    have hus : (us.length : Int) ≤ M := by omega
    have hps := leaf_filter f (s := ps) (M := M) (by omega)
    have hnu : numUnprocessedFilt (.leaf us) c = remaining (.leaf us) c := numUnprocessed_remaining _
    by_cases hlast : remaining (.leaf us) c < 2
    · have hall : ((ps.filter f ++ us.filter f).length : Int) ≤ M := by
        rw [← List.filter_append]
        exact leaf_filter f hxs
      refine ⟨.done ((), .leaf (ps.filter f ++ us.filter f)), η', ?_, hall, (List.filter_append ps us).symm⟩
      simp only [leaf_ok hus, ok_bind, hnu, if_pos hlast, leaf_ok hall]
      rfl
    · by_cases hnil : ((ps.filter f).length : Int) = 0
      · have hval : (filterSummary M f).val ps = (filterSummary M f).one :=
          List.eq_nil_of_length_eq_zero (Int.natCast_eq_zero.mp hnil)
        refine ⟨.more (.leaf us, c), η', ?_, hopen.skip hval, Int.not_lt.mp hlast⟩
        simp only [leaf_ok hus, ok_bind, hnu, if_neg hlast, more, if_pos hnil]
        rfl
      · refine ⟨.more (.leaf us, .right (.leaf (ps.filter f)) c), η', ?_, hopen.right hps rfl, Int.not_lt.mp hlast⟩
        simp only [leaf_ok hus, ok_bind, hnu, if_neg hlast, more, if_neg hnil, leaf_ok hps]
        rfl

/-! ## Every policy -/

theorem splitFilt_ok (f : α → Bool) : SumSplit (filterSummary M f) M fun _ => splitFilt M := by
  intro rp c hwf hokc h2
  have hcur := splitCursor_returns (S := filterSummary M f) (fun _ r u => .ok (ccat2 M r u)) .empty
    ⟨hwf.focus.nonneg, rfl⟩ hwf.focus.nonneg
    (fun hr hu => ⟨_, .pure _, wf_ccat2 hr hu, toList_ccat2 _ _⟩) hwf hokc
  obtain ⟨p, u, hret, hp, habs, hu, hto⟩ := hcur
  have hlen : u.length = remaining rp c := by
    rw [hu.length_eq, hto, length_elements hwf]
  obtain ⟨u1, u2, hsplit, h1, h2', happ, hlen1, hlen2⟩ := splitAtIx2_half hu (by omega)
  refine ⟨u1, u2, p, ⟨0, fun _ _ => ?_⟩, hp, habs, h1, h2', by rw [happ, hto], by omega, by omega⟩
  have hcursor : splitCursor (ccat2 M) .empty (fun r u => .ok (ccat2 M r u)) .empty rp c = .ok (p, u) := hret.of_const
  simp only [splitFilt, hcursor, ok_bind, hsplit]
  rfl

theorem filter'_returns (policy : ChunkingPolicy) (f : α → Bool) {rp : Rope α} (h : rp.WF M) (σ : Schedule)
    (hets : ∀ SST, policy = .ets SST → 1 ≤ SST ∨ rp.length ≤ SST) :
    ∃ rp', Returns (fun n => filter' M policy f n σ rp) rp' ∧ Filtered M f rp rp' := by
  cases policy with
  | sequential =>
    obtain ⟨rp', hret, hf⟩ := filterSequential_ok f h
    exact ⟨rp', ⟨0, fun _ _ => hret⟩, hf⟩
  | ets SST => exact filterETS_returns f h (hets SST rfl)
  | lts PPT => exact lazySplit_sum (filterLeaf_sum f) (splitFilt_ok f) h σ

/-- The elements that satisfy the predicate, in a rope with right lengths and depths and leaves of at most the maximum
    size, if and only if an eager threshold is positive or not less than the length. -/
theorem filter_returns (policy : ChunkingPolicy) (f : α → Bool) (rp : Rope α) (σ : Schedule) (h : rp.WF M) :
    (∃ rp', Returns (fun n => filter M policy f n σ rp) rp' ∧ rp'.toList = rp.toList.filter f ∧ rp'.ropeOK = true ∧
      ∀ s ∈ rp'.leaves, (s.length : Int) ≤ M) ↔
    ∀ SST, policy = .ets SST → 1 ≤ SST ∨ rp.length ≤ SST := by
  constructor
  · rintro ⟨rp', ⟨N, hN⟩, -⟩ SST rfl
    by_contra hno
    have hok := hN N (Nat.le_refl N)
    cases hfilt : filterETS M SST f N rp with
    | error e =>
      simp only [filter, filter', hfilt] at hok
      cases hok
    | ok rp'' => exact filterETS_fails f (by omega) N h (by omega) rp'' hfilt
  · intro hets
    obtain ⟨rp1, hret1, hf⟩ := filter'_returns policy f h σ hets
    obtain ⟨rp2, hret2, hbal⟩ := balance_returns policy hf.1
    obtain ⟨hok, hleaves⟩ := (Rope.wf_iff_ropeOK rp2).mp hbal.1
    exact ⟨rp2, hret1.bind hret2, by rw [hbal.2, hf.2], hok, hleaves⟩

/-- The smallest threshold that works, on leaves of lengths 0 to 2. -/
theorem filter_returns_one :
    (∃ rp', Returns (fun n => filter 2 (.ets 1) (· % 2 == 1) n (fun _ _ => false)
        (.cat 3 2 (.cat 2 1 (.leaf []) (.leaf [4, 5])) (.leaf [6]))) rp' ∧ rp'.toList = [5] ∧ rp'.ropeOK = true ∧
      ∀ s ∈ rp'.leaves, (s.length : Int) ≤ 2) ↔ ∀ SST, ChunkingPolicy.ets 1 = .ets SST → 1 ≤ SST ∨ (3 : Int) ≤ SST :=
  filter_returns (.ets 1) (· % 2 == 1) (.cat 3 2 (.cat 2 1 (.leaf []) (.leaf [4, 5])) (.leaf [6])) (fun _ _ => false)
    ⟨rfl, rfl, ⟨rfl, rfl, by show ((0 : Nat) : Int) ≤ 2; decide, by show ((2 : Nat) : Int) ≤ 2; decide⟩,
      by show ((1 : Nat) : Int) ≤ 2; decide⟩

/-- With a threshold of 0, one element is split at index -1. -/
theorem filter_zero (n : Nat) : filter 512 (.ets 0) (· == 7) (n + 2) (fun _ _ => false) (.leaf [7]) = .error (.fail "subscript") := rfl

theorem filter_zero_fails : ¬ ∃ rp', Returns (fun n => filter 512 (.ets 0) (· == 7) n (fun _ _ => false) (.leaf [7])) rp' ∧
    rp'.toList = [7] := by
  rintro ⟨rp', ⟨N, hN⟩, -⟩
  cases (filter_zero N).symm.trans (hN (N + 2) (Nat.le_add_right _ _))

end Manticore.Parray
