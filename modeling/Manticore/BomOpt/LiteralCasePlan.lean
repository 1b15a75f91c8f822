/-
  Manticore.BomOpt.LiteralCasePlan — which action the binary search on integer labels takes, and for which labels it
  is the right one.

  The search compares machine words, while the labels are sorted as integers. A `Plan` is a search on sorted arcs with
  the action it takes on each argument, whatever arcs it splits at.
  - `Plan.picks`: when the labels increase as signed words, the action is that of the arc with the argument's word.
  - `Plan.increasing`: a search that finds every label has labels that increase as signed words.
-/

import Manticore.BomOpt.LiteralCase

namespace Manticore.Bom.LiteralCase

open List (pairwise_append mem_append_left mem_cons_self pairwise_cons mem_append_right mem_cons_of_mem map_cons)
open BitVec (ofInt two_mul_toInt_lt le_two_mul_toInt toInt_ofInt)

/-- The signed word of an integer. -/
def sval (w : Nat) (a : Int) : Int := (ofInt w a).toInt

theorem sval_eq_iff {w : Nat} {a b : Int} : sval w a = sval w b ↔ ofInt w a = ofInt w b :=
  BitVec.toInt_inj

/-- The next integer has the next word, or the first one. -/
theorem sval_succ (w : Nat) (a : Int) : sval w (a + 1) = sval w a + 1 ∨ sval w (a + 1) = sval w a + 1 - 2 ^ w := by
  have hpos : (0 : Int) < 2 ^ w := Int.pow_pos (by decide)
  have h1 := two_mul_toInt_lt (x := ofInt w a)
  have h2 := le_two_mul_toInt (x := ofInt w a)
  have h3 := two_mul_toInt_lt (x := ofInt w (a + 1))
  have h4 := le_two_mul_toInt (x := ofInt w (a + 1))
  have hd : (2 ^ w : Int) ∣ sval w (a + 1) - (sval w a + 1) := by
    unfold sval
    rw [toInt_ofInt, toInt_ofInt]
    have hb := Int.dvd_bmod_sub_self (x := a + 1) (m := 2 ^ w)
    have ha := Int.dvd_bmod_sub_self (x := a) (m := 2 ^ w)
    have hsub := Int.dvd_sub hb ha
    grind
  obtain ⟨c, hc⟩ := hd
  unfold sval at *
  generalize (ofInt w (a + 1)).toInt = y at *
  generalize (ofInt w a).toInt = x at *
  generalize (2 : Int) ^ w = m at *
  have hc0 : c = 0 ∨ c = -1 := by
    have hlt : c < 1 := by
      by_contra hge
      have := Int.mul_le_mul_of_nonneg_left (show 1 ≤ c by omega) (Int.le_of_lt hpos)
      omega
    have hgt : -2 < c := by
      by_contra hle
      have := Int.mul_le_mul_of_nonneg_left (show c ≤ -2 by omega) (Int.le_of_lt hpos)
      omega
    omega
  rcases hc0 with rfl | rfl
  · left
    omega
  · right
    omega

/-- An integer below the next one, as words, is just below it. -/
theorem sval_succ_of_lt {w : Nat} {a : Int} (h : sval w a < sval w (a + 1)) : sval w (a + 1) = sval w a + 1 := by
  have hpos : (0 : Int) < 2 ^ w := Int.pow_pos (by decide)
  have hle := two_mul_toInt_lt (x := ofInt w (a + 1))
  have hge := le_two_mul_toInt (x := ofInt w a)
  rcases sval_succ w a with hs | hs
  · exact hs
  · unfold sval at *
    omega

theorem sval_succ_of_lt' {w : Nat} {a : Int} (h : sval w (a - 1) < sval w a) : sval w a = sval w (a - 1) + 1 := by
  have hs := sval_succ_of_lt (w := w) (a := a - 1) (by rwa [Int.sub_add_cancel])
  rwa [Int.sub_add_cancel] at hs

/-! ## Plans -/

/-- A search on the arcs within a range, with the action it takes on an argument. -/
inductive Plan (w : Nat) (C : CaseDomain Int) (dflt : Exp) : Range Int → List (Int × Exp) → (Int → Exp) → Prop
  | nil (rng : Range Int) : Plan w C dflt rng [] fun _ => dflt
  | sole {rng : Range Int} {key : Int} {act : Exp} : covered C [(key, act)] rng = some true →
      Plan w C dflt rng [(key, act)] fun _ => act
  | one {rng : Range Int} {key : Int} {act : Exp} :
      Plan w C dflt rng [(key, act)] fun a => if sval w a = sval w key then act else dflt
  | two {rng : Range Int} {key₁ key₂ : Int} {act₁ act₂ : Exp} :
      covered C [(key₁, act₁), (key₂, act₂)] rng = some true →
      Plan w C dflt rng [(key₁, act₁), (key₂, act₂)] fun a => if sval w a = sval w key₁ then act₁ else act₂
  | node {rng : Range Int} {key : Int} {act : Exp} {lhs rhs : List (Int × Exp)} {f g : Int → Exp} :
      Plan w C dflt ⟨rng.min, some (key - 1)⟩ lhs f → Plan w C dflt ⟨some (key + 1), rng.max⟩ rhs g →
      Plan w C dflt rng (lhs ++ (key, act) :: rhs) fun a =>
        if sval w a < sval w key then f a else if sval w a = sval w key then act else g a

variable {w : Nat} {ty : Ty} {lt eq : CondOp} {dflt : Exp} {rng : Range Int} {arcs : List (Int × Exp)} {f : Int → Exp}

theorem cmp_cons {key m M : Int} {act : Exp} {arcs : List (Int × Exp)} :
    cmp (intTst ty lt eq) M ((key, act) :: arcs) m = if key = m then cmp (intTst ty lt eq) M arcs (m + 1) else some false := by
  rw [cmp]
  simp only [intTst, beq_iff_eq, Option.bind_eq_bind, Option.bind_some]

theorem covered_one {key : Int} {act : Exp} (h : covered (intTst ty lt eq) [(key, act)] rng = some true) :
    rng.min = some key ∧ ∃ M, rng.max = some M ∧ M ≤ key := by
  unfold covered at h
  split at h
  · rename_i m M hm hM
    rw [cmp_cons] at h
    split_ifs at h with hkey
    · simp only [cmp, intTst, Option.some.injEq, decide_eq_true_eq] at h
      exact ⟨by rw [hm, hkey], M, hM, by omega⟩
    · cases h
  · cases h

theorem covered_two {key₁ key₂ : Int} {act₁ act₂ : Exp}
    (h : covered (intTst ty lt eq) [(key₁, act₁), (key₂, act₂)] rng = some true) :
    rng.min = some key₁ ∧ key₂ = key₁ + 1 ∧ ∃ M, rng.max = some M ∧ M ≤ key₂ := by
  unfold covered at h
  split at h
  · rename_i m M hm hM
    rw [cmp_cons, cmp_cons] at h
    split_ifs at h with hkey₁ hkey₂
    · simp only [cmp, intTst, Option.some.injEq, decide_eq_true_eq] at h
      exact ⟨by rw [hm, hkey₁], by omega, M, hM, by omega⟩
    · cases h
    · cases h
  · cases h

/-- The labels below the range and above it, as words. -/
structure Within (w : Nat) (rng : Range Int) (a : Int) : Prop where
  min : ∀ m, rng.min = some m → sval w (m - 1) < sval w a
  max : ∀ M, rng.max = some M → sval w a < sval w (M + 1)

/-- The labels are within the range as integers. -/
structure Sorted (rng : Range Int) (arcs : List (Int × Exp)) : Prop where
  pairwise : arcs.Pairwise fun p q => p.1 < q.1
  min : ∀ m, rng.min = some m → ∀ p ∈ arcs, m ≤ p.1
  max : ∀ M, rng.max = some M → ∀ p ∈ arcs, p.1 ≤ M

theorem Sorted.lhs {key : Int} {act : Exp} {lhs rhs : List (Int × Exp)} (h : Sorted rng (lhs ++ (key, act) :: rhs)) :
    Sorted ⟨rng.min, some (key - 1)⟩ lhs := by
  obtain ⟨hl, -, hlt⟩ := pairwise_append.mp h.pairwise
  refine ⟨hl, fun m hm p hp => h.min m hm p (mem_append_left _ hp), fun M hM p hp => ?_⟩
  cases hM
  have := hlt p hp (key, act) mem_cons_self
  simp only at this
  omega

theorem Sorted.rhs {key : Int} {act : Exp} {lhs rhs : List (Int × Exp)} (h : Sorted rng (lhs ++ (key, act) :: rhs)) :
    Sorted ⟨some (key + 1), rng.max⟩ rhs := by
  obtain ⟨-, hr, -⟩ := pairwise_append.mp h.pairwise
  obtain ⟨hkey, hr⟩ := pairwise_cons.mp hr
  refine ⟨hr, fun m hm p hp => ?_, fun M hM p hp => h.max M hM p (mem_append_right _ (mem_cons_of_mem _ hp))⟩
  cases hm
  have := hkey p hp
  simp only at this
  omega

/-- The action is that of the arc with the argument's word, or the default when there is none. -/
def Picks (w : Nat) (dflt : Exp) (arcs : List (Int × Exp)) (a : Int) (act : Exp) : Prop :=
  (∃ p ∈ arcs, sval w p.1 = sval w a ∧ act = p.2) ∨ (∀ p ∈ arcs, sval w p.1 ≠ sval w a) ∧ act = dflt

theorem Plan.picks (h : Plan w (intTst ty lt eq) dflt rng arcs f) {a : Int} (hs : Sorted rng arcs)
    (hw : arcs.Pairwise fun p q => sval w p.1 < sval w q.1) (hin : ∀ p ∈ arcs, Within w rng p.1)
    (ha : Within w rng a) : Picks w dflt arcs a (f a) := by
  induction h with
  | nil => exact .inr ⟨List.forall_mem_nil _, rfl⟩
  | @sole rng key act hc =>
    obtain ⟨hmin, M, hmax, hM⟩ := covered_one hc
    have hle := hs.max M hmax (key, act) mem_cons_self
    obtain rfl : M = key := by
      simp only at hle
      omega
    obtain ⟨hkmin, hkmax⟩ := hin _ mem_cons_self
    have h1 := sval_succ_of_lt' (hkmin _ hmin)
    have h2 := sval_succ_of_lt (hkmax _ hmax)
    have h3 := ha.min _ hmin
    have h4 := ha.max _ hmax
    simp only at h1 h2
    exact .inl ⟨_, mem_cons_self, by simp only; omega, rfl⟩
  | @one rng key act =>
    by_cases heq : sval w a = sval w key
    · exact .inl ⟨_, mem_cons_self, heq.symm, if_pos heq⟩
    · refine .inr ⟨fun p hp => ?_, if_neg heq⟩
      rw [List.mem_singleton.mp hp]
      exact fun h => heq h.symm
  | @two rng key₁ key₂ act₁ act₂ hc =>
    obtain ⟨hmin, rfl, M, hmax, hM⟩ := covered_two hc
    by_cases heq : sval w a = sval w key₁
    · exact .inl ⟨_, mem_cons_self, heq.symm, if_pos heq⟩
    · have hle := hs.max M hmax (key₁ + 1, act₂) (mem_cons_of_mem _ mem_cons_self)
      obtain rfl : M = key₁ + 1 := by
        simp only at hle
        omega
      have h1 := sval_succ_of_lt' ((hin _ mem_cons_self).min _ hmin)
      have h2 := sval_succ_of_lt ((pairwise_cons.mp hw).1 _ mem_cons_self)
      have h3 := sval_succ_of_lt ((hin _ (mem_cons_of_mem _ mem_cons_self)).max _ hmax)
      have h4 := ha.min _ hmin
      have h5 := ha.max _ hmax
      simp only at h1 h2 h3
      exact .inl ⟨_, mem_cons_of_mem _ mem_cons_self, by simp only; omega, if_neg heq⟩
  | @node rng key act lhs rhs f g hl hr ihl ihr =>
    obtain ⟨hwl, hwr, hwlr⟩ := pairwise_append.mp hw
    obtain ⟨hkey, hwr⟩ := pairwise_cons.mp hwr
    have hlkey : ∀ p ∈ lhs, sval w p.1 < sval w key := fun p hp => hwlr p hp _ mem_cons_self
    beta_reduce
    rcases Int.lt_trichotomy (sval w a) (sval w key) with hlt | heq | hgt
    · have hf : (if sval w a < sval w key then f a else if sval w a = sval w key then act else g a) = f a := if_pos hlt
      rw [hf]
      rcases ihl hs.lhs hwl (fun p hp => ⟨(hin p (mem_append_left _ hp)).min, fun M hM => by
          cases hM
          rw [Int.sub_add_cancel]
          exact hlkey p hp⟩)
        ⟨ha.min, fun M hM => by
          cases hM
          rwa [Int.sub_add_cancel]⟩ with ⟨p, hp, hpa, hact⟩ | ⟨hnone, hact⟩
      · exact .inl ⟨p, mem_append_left _ hp, hpa, hact⟩
      · refine .inr ⟨fun p hp => ?_, hact⟩
        grind
    · refine .inl ⟨(key, act), mem_append_right _ mem_cons_self, heq.symm, ?_⟩
      rw [if_neg (by omega), if_pos heq]
    · have hf : (if sval w a < sval w key then f a else if sval w a = sval w key then act else g a) = g a := by
        rw [if_neg (by omega), if_neg (by omega)]
      rw [hf]
      rcases ihr hs.rhs hwr (fun p hp => ⟨fun m hm => by
          cases hm
          rw [Int.add_sub_cancel]
          exact hkey p hp, (hin p (mem_append_right _ (mem_cons_of_mem _ hp))).max⟩)
        ⟨fun m hm => by
          cases hm
          rwa [Int.add_sub_cancel], ha.max⟩ with ⟨p, hp, hpa, hact⟩ | ⟨hnone, hact⟩
      · exact .inl ⟨p, mem_append_right _ (mem_cons_of_mem _ hp), hpa, hact⟩
      · refine .inr ⟨fun p hp => ?_, hact⟩
        grind

/-! ## A search that finds its labels -/

theorem Plan.mem (h : Plan w (intTst ty lt eq) dflt rng arcs f) (a : Int) : f a = dflt ∨ f a ∈ arcs.map Prod.snd := by
  induction h with
  | nil => exact .inl rfl
  | sole => exact .inr mem_cons_self
  | one =>
    beta_reduce
    split
    · exact .inr mem_cons_self
    · exact .inl rfl
  | two =>
    grind
  | node _ _ ihl ihr =>
    rw [List.map_append, map_cons]
    grind

theorem Plan.increasing (h : Plan w (intTst ty lt eq) dflt rng arcs f) (hw2 : 2 ≤ w)
    (hd : arcs.Pairwise fun p q => sval w p.1 ≠ sval w q.1) (hacts : (arcs.map Prod.snd).Nodup)
    (hdflt : dflt ∉ arcs.map Prod.snd) (hf : ∀ p ∈ arcs, f p.1 = p.2)
    (hmin : ∀ m, rng.min = some m → ∀ p ∈ arcs, sval w (m - 1) < sval w p.1) :
    arcs.Pairwise fun p q => sval w p.1 < sval w q.1 := by
  induction h with
  | nil => exact .nil
  | sole | one => exact List.pairwise_singleton _ _
  | @two rng key₁ key₂ act₁ act₂ hc =>
    obtain ⟨hkey, rfl, -⟩ := covered_two hc
    have h1 := hmin _ hkey _ mem_cons_self
    have h2 := hmin _ hkey _ (mem_cons_of_mem _ mem_cons_self)
    have h3 := sval_succ_of_lt' h1
    have hpow : (4 : Int) ≤ 2 ^ w := by
      have := Nat.pow_le_pow_right (n := 2) (by decide) hw2
      exact_mod_cast this
    grind
  | @node rng key act lhs rhs f g hl hr ihl ihr =>
    rw [List.map_append, map_cons] at hacts hdflt
    obtain ⟨hal, har, halr⟩ := List.nodup_append.mp hacts
    obtain ⟨-, har'⟩ := List.nodup_cons.mp har
    obtain ⟨hdl, hdr, hdlr⟩ := pairwise_append.mp hd
    obtain ⟨hdkey, hdr⟩ := pairwise_cons.mp hdr
    have hdfl : dflt ∉ lhs.map Prod.snd := fun hm => hdflt (mem_append_left _ hm)
    have hdfr : dflt ∉ rhs.map Prod.snd := fun hm => hdflt (mem_append_right _ (mem_cons_of_mem _ hm))
    have hleft : ∀ p ∈ lhs, sval w p.1 < sval w key := by
      intro p hp
      have hmem : p.2 ∈ lhs.map Prod.snd := List.mem_map_of_mem hp
      have hfp := hf p (mem_append_left _ hp)
      simp only at hfp
      split_ifs at hfp with hlt heq
      · exact hlt
      · exact absurd heq (hdlr p hp _ mem_cons_self)
      · rcases hr.mem p.1 with hg | hg
        · exact absurd (hg.symm.trans hfp ▸ hmem) hdfl
        · rw [hfp] at hg
          exact absurd rfl (halr _ hmem _ (mem_cons_of_mem _ hg))
    have hright : ∀ p ∈ rhs, sval w key < sval w p.1 := by
      intro p hp
      have hmem : p.2 ∈ rhs.map Prod.snd := List.mem_map_of_mem hp
      have hfp := hf p (mem_append_right _ (mem_cons_of_mem _ hp))
      have hne := hdkey p hp
      simp only at hfp hne
      split_ifs at hfp with hlt heq
      · rcases hl.mem p.1 with hg | hg
        · exact absurd (hg.symm.trans hfp ▸ hmem) hdfr
        · rw [hfp] at hg
          exact absurd rfl (halr _ hg _ (mem_cons_of_mem _ hmem))
      · exact absurd heq.symm hne
      · omega
    have hil := ihl hdl hal hdfl (fun p hp => by
      have hfp := hf p (mem_append_left _ hp)
      simp only at hfp
      rwa [if_pos (hleft p hp)] at hfp) fun m hm p hp => hmin m hm p (mem_append_left _ hp)
    have hir := ihr hdr har' hdfr (fun p hp => by
      have hfp := hf p (mem_append_right _ (mem_cons_of_mem _ hp))
      have hgt := hright p hp
      simp only at hfp
      rwa [if_neg (by omega), if_neg (by omega)] at hfp) fun m hm p hp => by
        cases hm
        rw [Int.add_sub_cancel]
        exact hright p hp
    refine pairwise_append.mpr ⟨hil, pairwise_cons.mpr ⟨hright, hir⟩, fun p hp q hq => ?_⟩
    rcases List.mem_cons.mp hq with rfl | hq
    · exact hleft p hp
    · exact Int.lt_trans (hleft p hp) (hright q hq)

end Manticore.Bom.LiteralCase
