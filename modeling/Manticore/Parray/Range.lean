/-
  Manticore.Parray.Range — ropes of an arithmetic progression (`basis/parray/range.pml`, and `tabFromTo`,
  `tabFromToStep`, `nEltsInRange` and `range` of `rope.pml` and `int-rope.pml`). `div` rounds to zero, and an int is not
  bounded here.

  `Counts`: how many members of the progression there are up to the bound, which is 0 if it starts past the bound.

  - `ranges_iff`: `Rope` is right for every progression, and `Range.nElts` and what `IntRope` builds with a step for those
    that do not start past the bound. `IntRope.tabFromTo` does not end on negative ints with leaves of one element.
  - `nElts_past`: an element too many.
-/

import Manticore.Parray.Tabulate

namespace Manticore.Parray

open Fuel (Returns ok_bind)

variable {β : Type} (M : Int) {build : Nat → Except Exn (Rope β)}

namespace Range

def nElts (start to_ step : Int) : Except Exn Int :=
  if step = 0 then .error (.fail "Fail in Range.nElts: cannot have step 0 in a range")
  else .ok (1 + max 0 ((to_ - start).tdiv step))

/-- Both bounds are inclusive. -/
def mkRange (singleton : Int → Rope Int) (tabulate : Int → (Int → Int) → Except Exn (Rope Int)) (start to_ step : Int) :
    Except Exn (Rope Int) :=
  if start = to_ then .ok (singleton start)
  else do
    let sz ← nElts start to_ step
    tabulate sz fun n => start + step * n

end Range

namespace Rope

/-- `Int.abs`. -/
def abs (n : Int) : Int := if n < 0 then -n else n

def nEltsInRange (start to_ step : Int) : Except Exn Int :=
  if step = 0 then .error (.fail "cannot have step 0 in a range")
  else if start = to_ then .ok 1
  else if start > to_ ∧ step > 0 then .ok 0
  else if start < to_ ∧ step < 0 then .ok 0
  else .ok ((abs (start - to_)).tdiv (abs step) + 1)

def range (policy : ChunkingPolicy) (σ : Schedule) (start to_ step : Int) (fuel : Nat) : Except Exn (Rope Int) :=
  if start = to_ then .ok (.leaf [start])
  else do
    let sz ← nEltsInRange start to_ step
    tabulate M policy (fun n => step * n + start) sz fuel σ

def tabFromTo (policy : ChunkingPolicy) (σ : Schedule) (lo hi : Int) (f : Int → β) (fuel : Nat) : Except Exn (Rope β) :=
  if lo > hi then .ok .empty
  else
    match policy with
    | .sequential => tabulateSequential M f fuel (lo, hi + 1)
    | .ets SST => tabulateETS M SST f fuel (lo, hi + 1)
    | .lts _ => tabulateLTS M f fuel σ (lo, hi + 1)

def tabFromToStep (policy : ChunkingPolicy) (σ : Schedule) (start to_ step : Int) (f : Int → β) (fuel : Nat) :
    Except Exn (Rope β) :=
  if step = 0 then .error (.fail "0 step")
  else if step < 0 then
    if to_ > start then .ok .empty
    else tabFromTo M policy σ 0 ((start - to_).tdiv (-step)) (fun i => f (start + step * i)) fuel
  else
    if start > to_ then .ok .empty
    else tabFromTo M policy σ 0 ((to_ - start).tdiv step) (fun i => f (start + step * i)) fuel

end Rope

namespace IntRope

def tabulate (policy : ChunkingPolicy) (σ : Schedule) (n : Int) (f : Int → β) (fuel : Nat) : Except Exn (Rope β) :=
  if n < 0 then .error (.fail "Size")
  else
    match policy with
    | .sequential => tabulateSequential M f fuel (0, n)
    | .ets SST => tabulateETS M SST f fuel (0, n)
    | .lts _ => lazySplit (tabulateUntil M f) (fun _ cur => splitAt .intRope intervalLength encodeCur cursorAtIxIntv id
        (unzipCursor cur) (numUnprocessedTab cur.1 cur.2 / 2)) (join .intRope decodeRopeTab id rootU) fuel σ ((0, n), .top)

def range (policy : ChunkingPolicy) (σ : Schedule) (start to_ step : Int) (fuel : Nat) : Except Exn (Rope Int) :=
  Range.mkRange (fun x => .leaf [x]) (fun n f => tabulate M policy σ n f fuel) start to_ step

def tabFromTo (f : Int → β) : Nat → Int → Int → Except Exn (Rope β)
  | 0, _, _ => .error .fuel
  | fuel + 1, lo, hi =>
    if lo > hi then .ok .empty
    else if hi - lo + 1 ≤ M then leaf M (Seq.tabulate (hi - lo + 1) fun i => f (lo + i))
    else do
      let m := (hi + lo).tdiv 2
      return nccat2 (← tabFromTo f fuel lo m) (← tabFromTo f fuel (m + 1) hi)

def tabFromToStep (start to_ step : Int) (f : Int → β) (fuel : Nat) : Except Exn (Rope β) :=
  let tab t := tabFromTo M (fun i => f (start + step * i)) fuel 0 t
  if step = 0 then .error (.fail "0 step")
  else if step < 0 then
    if to_ > start then tab 0
    else tab ((start - to_).tdiv (-step))
  else
    if start > to_ then tab 0
    else tab ((to_ - start).tdiv step)

end IntRope

/-! ## Counting -/

/-- The member with the number is not past the bound. -/
def Within (start to_ step : Int) (k : Nat) : Prop :=
  0 < step ∧ start + k * step ≤ to_ ∨ step < 0 ∧ to_ ≤ start + k * step

def Counts (start to_ step n : Int) : Prop := 0 ≤ n ∧ ∀ k : Nat, (k : Int) < n ↔ Within start to_ step k

variable {M} {start to_ step : Int}

theorem within_zero : Within start to_ step 0 ↔ 0 < step ∧ start ≤ to_ ∨ step < 0 ∧ to_ ≤ start := by
  simp [Within]

theorem Counts.unique {n n' : Int} (h : Counts start to_ step n) (h' : Counts start to_ step n') : n = n' := by
  obtain ⟨k, rfl⟩ := Int.eq_ofNat_of_zero_le h.1
  obtain ⟨k', rfl⟩ := Int.eq_ofNat_of_zero_le h'.1
  have hk := (h.2 k).trans (h'.2 k).symm
  have hk' := (h.2 k').trans (h'.2 k').symm
  omega

/-- Going down is going up from the bound. -/
theorem tdiv_sub_neg : (start - to_).tdiv (-step) = (to_ - start).tdiv step := by
  rw [← Int.neg_sub, Int.neg_tdiv, Int.tdiv_neg, Int.neg_neg]

theorem counts_within (h : Within start to_ step 0) :
    0 ≤ (to_ - start).tdiv step ∧ Counts start to_ step ((to_ - start).tdiv step + 1) := by
  -- a distance of `d` in steps of `s`
  have hlt : ∀ d s : Int, 0 ≤ d → 0 < s → 0 ≤ d.tdiv s ∧ ∀ k : Nat, (k : Int) < d.tdiv s + 1 ↔ k * s ≤ d := by
    intro d s hd hs
    refine ⟨Int.tdiv_nonneg hd (Int.le_of_lt hs), fun k => ?_⟩
    rw [Int.tdiv_eq_ediv_of_nonneg hd, Int.lt_add_one_iff, Int.le_ediv_iff_mul_le hs]
  rw [within_zero] at h
  rcases h with ⟨hs, hle⟩ | ⟨hs, hle⟩
  · obtain ⟨h0, hk⟩ := hlt _ _ (Int.sub_nonneg_of_le hle) hs
    refine ⟨h0, by omega, fun k => ?_⟩
    rw [hk, Within]
    omega
  · obtain ⟨h0, hk⟩ := hlt _ (-step) (Int.sub_nonneg_of_le hle) (by omega)
    rw [tdiv_sub_neg] at h0 hk
    refine ⟨h0, by omega, fun k => ?_⟩
    rw [hk, Within, Int.mul_neg]
    omega

/-- Nothing, if the progression starts past the bound. -/
theorem counts_zero (h : ¬ Within start to_ step 0) : Counts start to_ step 0 := by
  refine ⟨Int.le_refl 0, fun k => ⟨fun hk => by omega, fun hk => ?_⟩⟩
  unfold Within at h hk
  rcases hk with ⟨hs, hk⟩ | ⟨hs, hk⟩
  · have := Int.mul_nonneg (Int.natCast_nonneg k) (Int.le_of_lt hs)
    omega
  · have := Int.mul_nonneg (Int.natCast_nonneg k) (show 0 ≤ -step by omega)
    rw [Int.mul_neg] at this
    omega

/-- The rope of the progression, under a function. -/
def Builds (build : Nat → Except Exn (Rope β)) (start to_ step : Int) (f : Int → β) : Prop :=
  ∃ n rp, Counts start to_ step n ∧ Returns build rp ∧ rp.length = n ∧
    rp.toList = (List.range n.toNat).map fun k : Nat => f (start + k * step)

theorem builds_empty {f : Int → β} (h : ¬ Within start to_ step 0)
    (hbuild : ∀ fuel, build fuel = .ok .empty) : Builds build start to_ step f :=
  ⟨0, .empty, counts_zero h, ⟨0, fun _ _ => hbuild _⟩, rfl, rfl⟩

theorem builds_tabulated {f g : Int → β} {n lo hi : Int}
    (hn : Counts start to_ step n) (hhi : hi = lo + n) (hg : ∀ k : Int, g (lo + k) = f (start + k * step))
    (h : ∃ rp, Returns build rp ∧ Tabulated M g (lo, hi) rp) : Builds build start to_ step f := by
  obtain ⟨rp, hret, hwf, hlist⟩ := h
  have hlen : intervalLength (lo, hi) = n := by
    show hi - lo = n
    omega
  refine ⟨n, rp, hn, hret, ?_, ?_⟩
  · have := hn.1
    rw [hwf.length_eq, hlist, length_tabulateSequence, hlen]
    omega
  · rw [hlist, tabulateSequence, hlen, Seq.tabulate]
    exact List.map_congr_left fun k _ => hg k

theorem builds_singleton {build : Nat → Except Exn (Rope Int)} (hstep : step ≠ 0)
    (hbuild : ∀ fuel, build fuel = .ok (.leaf [start])) : Builds build start start step id := by
  refine ⟨1, .leaf [start], ⟨by decide, fun k => ?_⟩, ⟨0, fun _ _ => hbuild _⟩, rfl, by simp [Rope.toList]⟩
  constructor
  · intro hk
    obtain rfl : k = 0 := by omega
    rw [Within]
    omega
  · intro hw
    by_contra hk
    have hk1 : (1 : Int) ≤ k := by omega
    rcases hw with ⟨hs, hw⟩ | ⟨hs, hw⟩
    · have := Int.mul_pos (show (0 : Int) < k by omega) hs
      omega
    · have := Int.mul_neg_of_pos_of_neg (show (0 : Int) < k by omega) hs
      omega

/-- An element where there is none. -/
theorem not_builds {f : Int → β} (h : ¬ Within start to_ step 0) {rp : Rope β}
    (hret : Returns build rp) (hlen : rp.length = 1) : ¬ Builds build start to_ step f := by
  rintro ⟨n, rp', hn, hret', hlen', -⟩
  have h0 := hn.unique (counts_zero h)
  rw [hret.unique hret', hlen', h0] at hlen
  cases hlen

/-! ## Each function -/

theorem nElts_eq (start to_ : Int) (hstep : step ≠ 0) :
    ∃ n, Range.nElts start to_ step = .ok n ∧ (Within start to_ step 0 → Counts start to_ step n) ∧
      (¬ Within start to_ step 0 → n = 1) := by
  refine ⟨_, if_neg hstep, fun h => ?_, fun h => ?_⟩
  · obtain ⟨h0, hcounts⟩ := counts_within h
    rwa [max_eq_right h0, Int.add_comm]
  · rw [within_zero] at h
    have hq : (to_ - start).tdiv step ≤ 0 := by
      rcases Int.lt_or_gt_of_ne hstep with hs | hs
      · exact Int.tdiv_nonpos_of_nonneg_of_nonpos (by omega) (Int.le_of_lt hs)
      · have hneg := Int.tdiv_nonneg (show 0 ≤ start - to_ by omega) (Int.le_of_lt hs)
        rw [← Int.neg_sub, Int.neg_tdiv]
        omega
    rw [max_eq_left hq]
    rfl

theorem nEltsInRange_counts (start to_ : Int) (hstep : step ≠ 0) :
    ∃ n, Rope.nEltsInRange start to_ step = .ok n ∧ Counts start to_ step n := by
  unfold Rope.nEltsInRange
  rw [if_neg hstep]
  by_cases h : Within start to_ step 0
  · refine ⟨_, ?_, (counts_within h).2⟩
    rw [within_zero] at h
    have habs : (Rope.abs (start - to_)).tdiv (Rope.abs step) = (to_ - start).tdiv step := by
      rcases h with ⟨hs, hle⟩ | ⟨hs, hle⟩
      · congr 1 <;> grind [Rope.abs]
      · rw [← tdiv_sub_neg]
        congr 1 <;> grind [Rope.abs]
    by_cases heq : start = to_
    · rw [if_pos heq, heq, Int.sub_self, Int.zero_tdiv]
      rfl
    · rw [if_neg heq, if_neg (by omega), if_neg (by omega), habs]
  · refine ⟨0, ?_, counts_zero h⟩
    rw [within_zero] at h
    by_cases hs : 0 < step
    · rw [if_neg (by omega), if_pos (by omega)]
    · rw [if_neg (by omega), if_neg (by omega), if_pos (by omega)]

section
variable (policy : ChunkingPolicy) (σ : Schedule) (f : Int → β) (hM : 1 ≤ M)
include hM

/-- The values of `f` at the integers from `lo` to `hi`. -/
theorem rope_tabFromTo {lo hi : Int} (h : lo ≤ hi) :
    ∃ rp, Returns (Rope.tabFromTo M policy σ lo hi f) rp ∧ Tabulated M f (lo, hi + 1) rp := by
  have hlen : 0 ≤ intervalLength (lo, hi + 1) := by
    show 0 ≤ hi + 1 - lo
    omega
  obtain ⟨rp, hret, htab⟩ := tabulate_tabulated policy f σ hM hlen
  refine ⟨rp, ?_, htab⟩
  unfold Rope.tabFromTo
  simp only [if_neg (Int.not_lt.mpr h)]
  exact hret

theorem intRope_tabulate {n : Int} (hn : 0 ≤ n) :
    ∃ rp, Returns (IntRope.tabulate M policy σ n f) rp ∧ Tabulated M f (0, n) rp := by
  have hlen : 0 ≤ intervalLength (0, n) := Int.sub_nonneg_of_le hn
  unfold IntRope.tabulate
  simp only [if_neg (Int.not_lt.mpr hn)]
  cases policy with
  | sequential => exact tabulateSequential_returns f hM (0, n)
  | ets SST => exact tabulateETS_returns SST f hM (0, n)
  | lts _ => exact lazyTab_returns .intRope hM hlen σ

/-- Halving ends but for a negative int with the next one and leaves of one element. -/
theorem intRope_tabFromTo {lo hi : Int} (h : lo ≤ hi) (hends : 2 ≤ M ∨ 0 ≤ lo ∨ hi ≤ lo) :
    ∃ rp, Returns (fun fuel => IntRope.tabFromTo M f fuel lo hi) rp ∧ Tabulated M f (lo, hi + 1) rp := by
  induction hk : (hi - lo).toNat using Nat.strong_induction_on generalizing lo hi with
  | _ k ih =>
    by_cases hsmall : hi - lo + 1 ≤ M
    · have hlen : intervalLength (lo, hi + 1) = hi - lo + 1 := by show hi + 1 - lo = _; omega
      obtain ⟨hleaf, htab⟩ := leaf_tabulated f (lo, hi + 1) (by omega) (hlen.trans_le hsmall)
      refine ⟨_, .succ ⟨0, fun _ _ => ?_⟩, htab⟩
      rw [tabulateSequence, hlen] at hleaf
      simp only [IntRope.tabFromTo, if_neg (Int.not_lt.mpr h), if_pos hsmall]
      rw [hleaf, tabulateSequence, hlen]
    · have hdiv := tdiv_two (hi + lo)
      obtain ⟨rp1, hret1, h1⟩ := ih _ (show ((hi + lo).tdiv 2 - lo).toNat < k by omega) (by omega) (by omega) rfl
      obtain ⟨rp2, hret2, h2⟩ := ih _ (show (hi - ((hi + lo).tdiv 2 + 1)).toNat < k by omega) (by omega) (by omega) rfl
      refine ⟨nccat2 rp1 rp2, .succ ?_, h1.nccat2 h2 (by omega) (by omega)⟩
      simp only [IntRope.tabFromTo, if_neg (Int.not_lt.mpr h), if_neg hsmall]
      exact hret1.bind (hret2.bind (.pure _))

theorem tabFromToStep_builds (hstep : step ≠ 0) :
    Builds (Rope.tabFromToStep M policy σ start to_ step f) start to_ step f := by
  by_cases h : Within start to_ step 0
  · obtain ⟨h0, hcounts⟩ := counts_within h
    obtain ⟨rp, hret, htab⟩ := rope_tabFromTo policy σ (fun i => f (start + step * i)) hM h0
    refine builds_tabulated hcounts (Int.zero_add _).symm (fun k => ?_) ⟨rp, hret.congr fun fuel => ?_, htab⟩
    · rw [Int.zero_add, Int.mul_comm]
    · rw [within_zero] at h
      grind [Rope.tabFromToStep, tdiv_sub_neg]
  · refine builds_empty h fun fuel => ?_
    rw [within_zero] at h
    grind [Rope.tabFromToStep]

theorem intRope_tabFromToStep_iff (hstep : step ≠ 0) :
    Builds (IntRope.tabFromToStep M start to_ step f) start to_ step f ↔ Within start to_ step 0 := by
  have htab : ∀ t : Int, 0 ≤ t →
      ∃ rp, Returns (fun fuel => IntRope.tabFromTo M (fun i => f (start + step * i)) fuel 0 t) rp ∧
        Tabulated M (fun i => f (start + step * i)) (0, t + 1) rp :=
    fun t ht => intRope_tabFromTo _ hM ht (.inr (.inl le_rfl))
  by_cases h : Within start to_ step 0
  · obtain ⟨h0, hcounts⟩ := counts_within h
    obtain ⟨rp, hret, htab⟩ := htab _ h0
    refine iff_of_true (builds_tabulated hcounts (Int.zero_add _).symm (fun k => ?_)
      ⟨rp, hret.congr fun fuel => ?_, htab⟩) h
    · rw [Int.zero_add, Int.mul_comm]
    · rw [within_zero] at h
      grind [IntRope.tabFromToStep, tdiv_sub_neg]
  · obtain ⟨rp, hret, hwf, hlist⟩ := htab 0 le_rfl
    refine iff_of_false (not_builds h (hret.congr fun fuel => ?_) ?_) h
    · rw [within_zero] at h
      grind [IntRope.tabFromToStep]
    · rw [hwf.length_eq, hlist]
      rfl

theorem rope_range_builds (hstep : step ≠ 0) : Builds (Rope.range M policy σ start to_ step) start to_ step id := by
  unfold Rope.range
  by_cases heq : start = to_
  · subst heq
    exact builds_singleton hstep fun fuel => if_pos rfl
  · obtain ⟨n, hn, hcounts⟩ := nEltsInRange_counts start to_ hstep
    simp only [if_neg heq, hn, ok_bind]
    have hlen : 0 ≤ intervalLength (0, n) := Int.sub_nonneg_of_le hcounts.1
    obtain ⟨rp, hret, htab⟩ := tabulate_tabulated policy (fun k => step * k + start) σ hM hlen
    refine builds_tabulated hcounts (Int.zero_add n).symm (fun k => ?_) ⟨rp, ?_, htab⟩
    · rw [Int.zero_add, Int.add_comm, Int.mul_comm]
      rfl
    · simp only [tabulate, if_neg (Int.not_lt.mpr hcounts.1)]
      exact hret

theorem intRope_range_iff (hstep : step ≠ 0) :
    Builds (IntRope.range M policy σ start to_ step) start to_ step id ↔ Within start to_ step 0 := by
  unfold IntRope.range Range.mkRange
  by_cases heq : start = to_
  · subst heq
    exact iff_of_true (builds_singleton hstep fun fuel => if_pos rfl) (by rw [within_zero]; omega)
  · obtain ⟨n, hn, hcounts, hone⟩ := nElts_eq start to_ hstep
    simp only [if_neg heq, hn, ok_bind]
    by_cases hw : Within start to_ step 0
    · refine iff_of_true (builds_tabulated (hcounts hw) (Int.zero_add n).symm (fun k => ?_)
        (intRope_tabulate policy σ _ hM (hcounts hw).1)) hw
      rw [Int.zero_add, Int.mul_comm]
      rfl
    · obtain rfl := hone hw
      obtain ⟨rp, hret, hwf, hlist⟩ := intRope_tabulate policy σ (fun k => start + step * k) hM (n := 1) (by decide)
      refine iff_of_false (not_builds hw hret ?_) hw
      rw [hwf.length_eq, hlist]
      rfl

omit hM in
theorem intRope_tabFromTo_never {lo hi : Int} (hlo : lo < 0) (h : lo < hi) (fuel : Nat) :
    IntRope.tabFromTo 1 f fuel lo hi = .error .fuel := by
  induction fuel generalizing hi with
  | zero => rfl
  | succ fuel ih =>
    have hdiv := tdiv_two (hi + lo)
    simp only [IntRope.tabFromTo, if_neg (show ¬ lo > hi by omega), if_neg (show ¬ hi - lo + 1 ≤ 1 by omega),
      ih (show lo < (hi + lo).tdiv 2 by omega)]
    rfl

omit hM in
/-- From one int to the next. -/
theorem tabFromTo_builds
    (h : start ≤ to_ → ∃ rp, Returns build rp ∧ Tabulated M f (start, to_ + 1) rp)
    (hempty : to_ < start → ∀ fuel, build (fuel + 1) = .ok .empty) : Builds build start to_ 1 f := by
  by_cases hle : start ≤ to_
  · obtain ⟨-, hcounts⟩ := counts_within (within_zero.mpr (.inl ⟨Int.one_pos, hle⟩))
    rw [Int.tdiv_one] at hcounts
    exact builds_tabulated hcounts (by omega) (fun k => by rw [Int.mul_one]) (h hle)
  · refine ⟨0, .empty, counts_zero (by rw [within_zero]; omega), .succ ⟨0, fun _ _ => ?_⟩, rfl, rfl⟩
    exact hempty (by omega) _

theorem intRope_tabFromTo_iff :
    Builds (fun fuel => IntRope.tabFromTo M f fuel start to_) start to_ 1 f ↔ 2 ≤ M ∨ 0 ≤ start ∨ to_ ≤ start := by
  constructor
  · rintro ⟨n, rp, -, ⟨N, hret⟩, -⟩
    by_contra hno
    obtain rfl : M = 1 := by omega
    have hok : IntRope.tabFromTo 1 f N start to_ = .ok rp := hret N (Nat.le_refl N)
    rw [intRope_tabFromTo_never f (by omega) (by omega)] at hok
    cases hok
  · intro hends
    exact tabFromTo_builds f (fun hle => intRope_tabFromTo f hM hle hends) fun hlt fuel => if_pos hlt

end

end Manticore.Parray
