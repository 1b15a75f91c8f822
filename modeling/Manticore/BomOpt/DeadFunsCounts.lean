/-
  Manticore.BomOpt.DeadFunsCounts — the counters of the dead-function walk, solved.

  On a well-scoped expression whose binders are distinct, the walk is a function of the use
  counts it starts from (`prune`): the counter of a function whose body is being walked is the
  number of uses counted there, and its use count is what it was less the uses deleted.
-/

import Manticore.BomOpt.DeadFuns
import Manticore.Bom.Scope

namespace Manticore.Bom.DeadFuns

open List (foldl_cons count_append count_cons count_pos_iff nodup_append)
open Exp (occs binders not_mem_occs)

mutual

/-- The uses the walk counts: not those in tests, as the subject of a case, or thrown to. -/
def countedExp : Exp → List Var
  | .let_ _ e₁ e₂ => countedExp e₁ ++ countedExp e₂
  | .stmt _ rhs e => rhs.vars ++ countedExp e
  | .fun_ fbs e => countedFBs fbs ++ countedExp e
  | .cont fb e => countedFB fb ++ countedExp e
  | .if_ _ e₁ e₂ => countedExp e₁ ++ countedExp e₂
  | .case_ _ cases dflt => countedCases cases ++ countedDflt dflt
  | .apply f xs ys => f :: (xs ++ ys)
  | .throw _ xs => xs
  | .ret xs => xs
  | .hlop _ xs ys => xs ++ ys

def countedFB : Lambda → List Var
  | .fb _ _ _ body => countedExp body

def countedFBs : List Lambda → List Var
  | [] => []
  | fb :: fbs => countedFB fb ++ countedFBs fbs

def countedCases : List (Pat × Exp) → List Var
  | [] => []
  | (_, e) :: cases => countedExp e ++ countedCases cases

def countedDflt : Option Exp → List Var
  | none => []
  | some e => countedExp e

end

/-- The members of a group are dead: `u` is the use count before the pass, `dels` the uses deleted
    so far, `counted` the uses counted in the bodies. -/
def deadGroup (u : Var → Int) (dels counted : List Var) (fbs : List Lambda) : Bool :=
  fbs.all fun fb => (counted.count fb.f : Int) == u fb.f - dels.count fb.f

mutual

/-- What the pass makes of an expression and the uses it deletes on the way, from the use
    counts alone. -/
def prune (u : Var → Int) : Exp → Exp × List Var
  | .let_ xs e₁ e₂ => (.let_ xs (prune u e₁).1 (prune u e₂).1, (prune u e₁).2 ++ (prune u e₂).2)
  | .stmt xs rhs e => (.stmt xs rhs (prune u e).1, (prune u e).2)
  | .fun_ fbs e =>
    if deadGroup u ((prune u e).2 ++ (pruneFBs u fbs).2) (countedFBs fbs) fbs then
      ((prune u e).1, (prune u e).2 ++ ((pruneFBs u fbs).2 ++ occsFBs (pruneFBs u fbs).1))
    else (.fun_ (pruneFBs u fbs).1 (prune u e).1, (prune u e).2 ++ (pruneFBs u fbs).2)
  | .cont fb e =>
    if deadGroup u (pruneFB u fb).2 (countedFB fb) [fb] then
      ((prune u e).1, (pruneFB u fb).2 ++ (prune u e).2)
    else (.cont (pruneFB u fb).1 (prune u e).1, (pruneFB u fb).2 ++ (prune u e).2)
  | .if_ c e₁ e₂ => (.if_ c (prune u e₁).1 (prune u e₂).1, (prune u e₁).2 ++ (prune u e₂).2)
  | .case_ x cases dflt =>
    (.case_ x (pruneCases u cases).1 (pruneDflt u dflt).1, (pruneDflt u dflt).2 ++ (pruneCases u cases).2)
  | .apply f xs ys => (.apply f xs ys, [])
  | .throw k xs => (.throw k xs, [])
  | .ret xs => (.ret xs, [])
  | .hlop op xs ys => (.hlop op xs ys, [])

def pruneFB (u : Var → Int) : Lambda → Lambda × List Var
  | .fb f params exh body => (.fb f params exh (prune u body).1, (prune u body).2)

def pruneFBs (u : Var → Int) : List Lambda → List Lambda × List Var
  | [] => ([], [])
  | fb :: fbs => ((pruneFB u fb).1 :: (pruneFBs u fbs).1, (pruneFB u fb).2 ++ (pruneFBs u fbs).2)

def pruneCases (u : Var → Int) : List (Pat × Exp) → List (Pat × Exp) × List Var
  | [] => ([], [])
  | (p, e) :: cases => ((p, (prune u e).1) :: (pruneCases u cases).1, (prune u e).2 ++ (pruneCases u cases).2)

def pruneDflt (u : Var → Int) : Option Exp → Option Exp × List Var
  | none => (none, [])
  | some e => (some (prune u e).1, (prune u e).2)

end

/-! ## The counters -/

@[simp] theorem use_useCnt (env : List Var) (c : Counts) (f : Var) : (use env c f).useCnt = c.useCnt := by
  unfold use; split <;> rfl

@[simp] theorem uses_useCnt (env : List Var) (c : Counts) (xs : List Var) : (uses env c xs).useCnt = c.useCnt := by
  induction xs generalizing c with
  | nil => rfl
  | cons x xs ih => rw [uses, foldl_cons]; exact (ih _).trans (use_useCnt env c x)

theorem uses_cnt {env : List Var} {x : Var} (hx : x ∈ env) (c : Counts) (xs : List Var) :
    (uses env c xs).cnt x = c.cnt x + xs.count x := by
  induction xs generalizing c with
  | nil => simp [uses]
  | cons y xs ih =>
    rw [uses, foldl_cons]
    refine (ih _).trans ?_
    by_cases hxy : y = x
    · subst hxy
      simp [use, hx]; omega
    · have : (use env c y).cnt x = c.cnt x := by
        unfold use; split <;> simp [Ne.symm hxy]
      rw [this, List.count_cons_of_ne (by simpa using hxy)]

theorem uses_append (env : List Var) (c : Counts) (xs ys : List Var) :
    uses env (uses env c xs) ys = uses env c (xs ++ ys) := by
  simp [uses, List.foldl_append]

@[simp] theorem extend_useCnt (c : Counts) (fb : Lambda) : (extend c fb).useCnt = c.useCnt := rfl

@[simp] theorem foldl_extend_useCnt (c : Counts) (fbs : List Lambda) : (fbs.foldl extend c).useCnt = c.useCnt := by
  induction fbs generalizing c with
  | nil => rfl
  | cons fb fbs ih => exact ih (extend c fb)

theorem foldl_extend_cnt (c : Counts) (fbs : List Lambda) (x : Var) :
    (fbs.foldl extend c).cnt x = if x ∈ fbs.map Lambda.f then 0 else c.cnt x := by
  induction fbs generalizing c with
  | nil => simp
  | cons fb fbs ih =>
    rw [foldl_cons, ih]
    by_cases h : x = fb.f <;> simp [extend, h]

theorem delete_useCnt (c : Counts) (e : Exp) (x : Var) : (delete c e).useCnt x = c.useCnt x - e.occs.count x := by
  unfold delete
  generalize e.occs = xs
  induction xs generalizing c with
  | nil => simp
  | cons y xs ih =>
    rw [foldl_cons, ih]
    by_cases h : y = x
    · subst h; simp; omega
    · simp [Ne.symm h, h]

@[simp] theorem delete_cnt (c : Counts) (e : Exp) : (delete c e).cnt = c.cnt := by
  unfold delete
  generalize e.occs = xs
  induction xs generalizing c with
  | nil => rfl
  | cons y xs ih => rw [foldl_cons, ih]

theorem foldl_delete_useCnt (c : Counts) (fbs : List Lambda) (x : Var) :
    (fbs.foldl (fun c fb => delete c fb.body) c).useCnt x = c.useCnt x - (occsFBs fbs).count x := by
  induction fbs generalizing c with
  | nil => simp [occsFBs]
  | cons fb fbs ih =>
    cases fb
    rw [foldl_cons, ih, delete_useCnt]
    simp [occsFBs, Lambda.occs, count_append]; omega

@[simp] theorem foldl_delete_cnt (c : Counts) (fbs : List Lambda) :
    (fbs.foldl (fun c fb => delete c fb.body) c).cnt = c.cnt := by
  induction fbs generalizing c with
  | nil => rfl
  | cons fb fbs ih => rw [foldl_cons, ih, delete_cnt]


/-! ## What the pure pass keeps -/

@[simp] theorem pruneFB_f (u : Var → Int) (fb : Lambda) : (pruneFB u fb).1.f = fb.f := by
  cases fb; rfl

@[simp] theorem pruneFBs_names (u : Var → Int) :
    ∀ fbs : List Lambda, (pruneFBs u fbs).1.map Lambda.f = fbs.map Lambda.f
  | [] => rfl
  | fb :: fbs => by simp [pruneFBs, pruneFBs_names u fbs]

mutual

/-- The uses that go with a dead continuation and are not deleted. -/
def lost (u : Var → Int) : Exp → List Var
  | .let_ _ e₁ e₂ => lost u e₁ ++ lost u e₂
  | .stmt _ _ e => lost u e
  | .fun_ fbs e => lostFBs u fbs ++ lost u e
  | .cont fb e =>
    if deadGroup u (pruneFB u fb).2 (countedFB fb) [fb] then (pruneFB u fb).1.occs ++ (lostFB u fb ++ lost u e)
    else lostFB u fb ++ lost u e
  | .if_ _ e₁ e₂ => lost u e₁ ++ lost u e₂
  | .case_ _ cases dflt => lostCases u cases ++ lostDflt u dflt
  | .apply _ _ _ | .throw _ _ | .ret _ | .hlop _ _ _ => []

def lostFB (u : Var → Int) : Lambda → List Var
  | .fb _ _ _ body => lost u body

def lostFBs (u : Var → Int) : List Lambda → List Var
  | [] => []
  | fb :: fbs => lostFB u fb ++ lostFBs u fbs

def lostCases (u : Var → Int) : List (Pat × Exp) → List Var
  | [] => []
  | (_, e) :: cases => lost u e ++ lostCases u cases

def lostDflt (u : Var → Int) : Option Exp → List Var
  | none => []
  | some e => lost u e

end

mutual

/-- A use is kept, deleted, or lost with a continuation. -/
theorem count_prune (u : Var → Int) (x : Var) :
    ∀ e : Exp, e.occs.count x = (prune u e).1.occs.count x + ((prune u e).2.count x + (lost u e).count x)
  | .let_ xs e₁ e₂ => by
    have i₁ := count_prune u x e₁
    have i₂ := count_prune u x e₂
    simp only [prune, lost, occs, count_append]
    omega
  | .stmt xs rhs e => by
    have i := count_prune u x e
    simp only [prune, lost, occs, count_append]
    omega
  | .fun_ fbs e => by
    have i₁ := count_pruneFBs u x fbs
    have i₂ := count_prune u x e
    rw [prune, lost]
    split <;> simp only [occs, count_append] <;> omega
  | .cont fb e => by
    have i₁ := count_pruneFB u x fb
    have i₂ := count_prune u x e
    rw [prune, lost]
    split <;> simp only [occs, count_append] <;> omega
  | .if_ c e₁ e₂ => by
    have i₁ := count_prune u x e₁
    have i₂ := count_prune u x e₂
    simp only [prune, lost, occs, count_append]
    omega
  | .case_ y cases dflt => by
    have i₁ := count_pruneCases u x cases
    have i₂ := count_pruneDflt u x dflt
    simp only [prune, lost, occs, count_append, count_cons]
    omega
  | .apply f xs ys => by simp [prune, lost]
  | .throw k xs => by simp [prune, lost]
  | .ret xs => by simp [prune, lost]
  | .hlop op xs ys => by simp [prune, lost]

theorem count_pruneFB (u : Var → Int) (x : Var) :
    ∀ fb : Lambda, fb.occs.count x =
      (pruneFB u fb).1.occs.count x + ((pruneFB u fb).2.count x + (lostFB u fb).count x)
  | .fb _ _ _ body => count_prune u x body

theorem count_pruneFBs (u : Var → Int) (x : Var) :
    ∀ fbs : List Lambda, (occsFBs fbs).count x =
      (occsFBs (pruneFBs u fbs).1).count x + ((pruneFBs u fbs).2.count x + (lostFBs u fbs).count x)
  | [] => by simp [pruneFBs, occsFBs, lostFBs]
  | fb :: fbs => by
    have i₁ := count_pruneFB u x fb
    have i₂ := count_pruneFBs u x fbs
    simp only [pruneFBs, lostFBs, occsFBs, count_append]
    omega

theorem count_pruneCases (u : Var → Int) (x : Var) :
    ∀ cases : List (Pat × Exp), (occsCases cases).count x =
      (occsCases (pruneCases u cases).1).count x + ((pruneCases u cases).2.count x + (lostCases u cases).count x)
  | [] => by simp [pruneCases, occsCases, lostCases]
  | (p, e) :: cases => by
    have i₁ := count_prune u x e
    have i₂ := count_pruneCases u x cases
    simp only [pruneCases, lostCases, occsCases, count_append]
    omega

theorem count_pruneDflt (u : Var → Int) (x : Var) :
    ∀ dflt : Option Exp, (occsDflt dflt).count x =
      (occsDflt (pruneDflt u dflt).1).count x + ((pruneDflt u dflt).2.count x + (lostDflt u dflt).count x)
  | none => by simp [pruneDflt, occsDflt, lostDflt]
  | some e => count_prune u x e

end

mutual

theorem counted_le (x : Var) : ∀ e : Exp, (countedExp e).count x ≤ e.occs.count x
  | .let_ xs e₁ e₂ => by
    have i₁ := counted_le x e₁
    have i₂ := counted_le x e₂
    simp only [countedExp, occs, count_append]
    omega
  | .stmt xs rhs e => by
    have i := counted_le x e
    simp only [countedExp, occs, count_append]
    omega
  | .fun_ fbs e => by
    have i₁ := countedFBs_le x fbs
    have i₂ := counted_le x e
    simp only [countedExp, occs, count_append]
    omega
  | .cont fb e => by
    have i₁ := countedFB_le x fb
    have i₂ := counted_le x e
    simp only [countedExp, occs, count_append]
    omega
  | .if_ c e₁ e₂ => by
    have i₁ := counted_le x e₁
    have i₂ := counted_le x e₂
    simp only [countedExp, occs, count_append]
    omega
  | .case_ y cases dflt => by
    have i₁ := countedCases_le x cases
    have i₂ := countedDflt_le x dflt
    simp only [countedExp, occs, count_append, count_cons]
    omega
  | .apply f xs ys => Nat.le_refl _
  | .throw k xs => by
    simp only [countedExp, occs, count_cons]
    omega
  | .ret xs => Nat.le_refl _
  | .hlop op xs ys => Nat.le_refl _

theorem countedFB_le (x : Var) : ∀ fb : Lambda, (countedFB fb).count x ≤ fb.occs.count x
  | .fb _ _ _ body => counted_le x body

theorem countedFBs_le (x : Var) : ∀ fbs : List Lambda, (countedFBs fbs).count x ≤ (occsFBs fbs).count x
  | [] => Nat.le_refl _
  | fb :: fbs => by
    have i₁ := countedFB_le x fb
    have i₂ := countedFBs_le x fbs
    simp only [countedFBs, occsFBs, count_append]
    omega

theorem countedCases_le (x : Var) : ∀ cases : List (Pat × Exp), (countedCases cases).count x ≤ (occsCases cases).count x
  | [] => Nat.le_refl _
  | (p, e) :: cases => by
    have i₁ := counted_le x e
    have i₂ := countedCases_le x cases
    simp only [countedCases, occsCases, count_append]
    omega

theorem countedDflt_le (x : Var) : ∀ dflt : Option Exp, (countedDflt dflt).count x ≤ (occsDflt dflt).count x
  | none => Nat.le_refl _
  | some e => counted_le x e

end

/-! ## The walk computes the pure pass -/

/-- The counters before and after a walk that deletes `dels` and counts `counted`. -/
structure Walked (env : List Var) (c c' : Counts) (dels counted : List Var) : Prop where
  use : ∀ x, c'.useCnt x = c.useCnt x - dels.count x
  cnt : ∀ x ∈ env, c'.cnt x = c.cnt x + counted.count x

theorem Walked.refl (env : List Var) (c : Counts) : Walked env c c [] [] := ⟨by simp, by simp⟩

theorem Walked.trans {env : List Var} {c c' c'' : Counts} {ds ds' cs cs' : List Var}
    (h : Walked env c c' ds cs) (g : Walked env c' c'' ds' cs') : Walked env c c'' (ds ++ ds') (cs ++ cs') where
  use x := by rw [g.use, h.use, count_append]; omega
  cnt x hx := by rw [g.cnt x hx, h.cnt x hx, count_append]; omega

theorem walked_uses (env : List Var) (c : Counts) (xs : List Var) : Walked env c (uses env c xs) [] xs :=
  ⟨by simp, fun x hx => uses_cnt hx c xs⟩

/-- The walk leaves the counts of what is bound elsewhere alone. -/
theorem Walked.useCnt_eq {env : List Var} {c c' : Counts} {ds cs : List Var} (h : Walked env c c' ds cs) {x : Var}
    (hx : x ∉ ds) : c'.useCnt x = c.useCnt x := by
  rw [h.use, List.count_eq_zero_of_not_mem hx]; omega

theorem prune_dels_subset (u : Var → Int) (e : Exp) : (prune u e).2 ⊆ e.occs := by
  intro x hx
  have := count_prune u x e
  have := count_pos_iff.mpr hx
  exact count_pos_iff.mp (by omega)

theorem pruneFB_dels_subset (u : Var → Int) (fb : Lambda) : (pruneFB u fb).2 ⊆ fb.occs := by
  intro x hx
  have := count_pruneFB u x fb
  have := count_pos_iff.mpr hx
  exact count_pos_iff.mp (by omega)

theorem pruneDflt_dels_subset (u : Var → Int) (d : Option Exp) : (pruneDflt u d).2 ⊆ occsDflt d := by
  intro x hx
  have := count_pruneDflt u x d
  have := count_pos_iff.mpr hx
  exact count_pos_iff.mp (by omega)


/-- The test the walk makes on a group is the one the pure pass makes. -/
theorem all_isDead {u : Var → Int} {c : Counts} {dels counted : List Var} {fbs fbs' : List Lambda}
    (hf : fbs'.map Lambda.f = fbs.map Lambda.f) (hu : ∀ f ∈ fbs.map Lambda.f, c.useCnt f = u f - dels.count f)
    (hc : ∀ f ∈ fbs.map Lambda.f, c.cnt f = counted.count f) : fbs'.all (isDead c) = deadGroup u dels counted fbs := by
  have lift : ∀ (p : Var → Bool) (gs : List Lambda), gs.all (fun fb => p fb.f) = (gs.map Lambda.f).all p := by
    intro p gs
    simp [List.all_map, Function.comp_def]
  calc fbs'.all (isDead c)
      = (fbs'.map Lambda.f).all fun f => c.cnt f == c.useCnt f := lift (fun f => c.cnt f == c.useCnt f) fbs'
    _ = (fbs.map Lambda.f).all fun f => (counted.count f : Int) == u f - dels.count f := by
        rw [hf, Bool.eq_iff_iff, List.all_eq_true, List.all_eq_true]
        exact forall₂_congr fun f hfm => by rw [hu f hfm, hc f hfm]
    _ = deadGroup u dels counted fbs := (lift (fun f => (counted.count f : Int) == u f - dels.count f) fbs).symm

mutual

theorem doExp_prune {u : Var → Int} : ∀ {e : Exp} {Γ : List Var} (env : List Var) (c : Counts), e.Scoped Γ → e.binders.Nodup →
    (∀ x ∈ e.binders, x ∉ Γ) → env ⊆ Γ → (∀ x ∈ e.binders, c.useCnt x = u x) →
    (doExp env c e).1 = (prune u e).1 ∧ Walked env c (doExp env c e).2 (prune u e).2 (countedExp e)
  | .let_ xs e₁ e₂, Γ, env, c, ⟨s₁, s₂⟩, hn, hd, henv, hu => by
    simp only [binders, nodup_append] at hn hd hu
    obtain ⟨r₁, w₁⟩ := doExp_prune (u := u) env c s₁ (by grind) (by grind) henv (by grind)
    have hkeep : ∀ x ∈ e₂.binders, x ∉ (prune u e₁).2 := fun x hx hx' =>
      not_mem_occs s₁ (hd x (by grind)) (by grind) (prune_dels_subset u e₁ hx')
    obtain ⟨r₂, w₂⟩ := doExp_prune (u := u) env ((doExp env c e₁).2) s₂ (by grind) (by grind) (by grind)
      (fun x hx => by rw [w₁.useCnt_eq (hkeep x hx)]; grind)
    exact ⟨by simp only [doExp, prune, r₁, r₂], w₁.trans w₂⟩
  | .stmt xs rhs e, Γ, env, c, ⟨s₁, s₂⟩, hn, hd, henv, hu => by
    simp only [binders, nodup_append] at hn hd hu
    obtain ⟨r, w⟩ := doExp_prune (u := u) env (uses env c rhs.vars) s₂ (by grind) (by grind) (by grind)
      (by simp; grind)
    exact ⟨by simp only [doExp, prune, r], (walked_uses env c rhs.vars).trans w⟩
  | .fun_ fbs e, Γ, env, c, ⟨s₁, s₂⟩, hn, hd, henv, hu => by
    simp only [binders, nodup_append, nodup_bindersFBs, mem_bindersFBs, List.mem_append] at hn hd hu
    obtain ⟨r₂, w₂⟩ := doExp_prune (u := u) env c s₂ (by grind) (by grind) (by grind) (by grind)
    set c₁ := (doExp env c e).2
    have hkeep : ∀ x ∈ innerFBs fbs, x ∉ (prune u e).2 := fun x hx hx' =>
      not_mem_occs s₂ (by grind) (by grind) (prune_dels_subset u e hx')
    obtain ⟨r₁, w₁⟩ := doFBs_prune (u := u) (fbs.map Lambda.f ++ env) (fbs.foldl extend c₁) s₁
      (by grind) (by grind) (by grind) (fun x hx => by rw [foldl_extend_useCnt, w₂.useCnt_eq (hkeep x hx)]; grind)
    set s := doFBs (fbs.map Lambda.f ++ env) (fbs.foldl extend c₁) fbs with hs
    have huse : ∀ x, s.2.useCnt x = c.useCnt x - ((prune u e).2 ++ (pruneFBs u fbs).2).count x := by
      intro x
      rw [w₁.use, foldl_extend_useCnt, w₂.use, count_append]
      omega
    have hcnt : ∀ x ∈ env, s.2.cnt x = c.cnt x + (countedFBs fbs ++ countedExp e).count x := by
      intro x hx
      have hxf : x ∉ fbs.map Lambda.f := fun h => hd x (by grind) (henv hx)
      rw [w₁.cnt x (by simp [hx]), foldl_extend_cnt, if_neg hxf, w₂.cnt x hx, count_append]
      omega
    have hdead : s.1.all (isDead s.2) = deadGroup u ((prune u e).2 ++ (pruneFBs u fbs).2) (countedFBs fbs) fbs := by
      refine all_isDead (by rw [r₁, pruneFBs_names]) (fun f hf => ?_) (fun f hf => ?_)
      · rw [huse, hu f (by grind)]
      · rw [w₁.cnt f (List.mem_append_left _ hf), foldl_extend_cnt, if_pos hf]
        omega
    rw [doExp, prune, countedExp]
    rw [hdead]
    split
    · refine ⟨r₂, fun x => ?_, fun x hx => ?_⟩
      · rw [foldl_delete_useCnt, huse, r₁]
        simp only [count_append]
        omega
      · rw [foldl_delete_cnt, hcnt x hx]
    · exact ⟨by rw [r₁, r₂], huse, hcnt⟩
  | .cont fb e, Γ, env, c, ⟨s₁, s₂⟩, hn, hd, henv, hu => by
    simp only [binders, Lambda.binders_eq, nodup_append, List.mem_append, List.nodup_cons,
      List.mem_cons] at hn hd hu
    obtain ⟨r₁, w₁⟩ := doFB_prune (u := u) (fb.f :: env) (extend c fb) s₁
      (by grind) (by grind) (by grind) (fun x hx => by rw [extend]; grind)
    set s := doFB (fb.f :: env) (extend c fb) fb with hs
    have hkeep : ∀ x ∈ e.binders, x ∉ (pruneFB u fb).2 := fun x hx hx' => by
      have := Lambda.mem_of_occs s₁ (pruneFB_dels_subset u fb hx')
      rw [Lambda.binders_eq] at this
      grind
    obtain ⟨r₂, w₂⟩ := doExp_prune (u := u) (fb.f :: env) s.2 s₂
      (by grind) (by grind) (by grind) (fun x hx => by rw [w₁.useCnt_eq (hkeep x hx), extend]; grind)
    have hdead : isDead s.2 s.1 = deadGroup u (pruneFB u fb).2 (countedFB fb) [fb] := by
      have : [s.1].all (isDead s.2) = deadGroup u (pruneFB u fb).2 (countedFB fb) [fb] :=
        all_isDead (by simp [r₁]) (by simp [w₁.use, extend, hu fb.f (by grind)])
          (by simp [w₁.cnt fb.f (by simp), extend])
      simpa using this
    have huse : ∀ x, (doExp (fb.f :: env) s.2 e).2.useCnt x =
        c.useCnt x - ((pruneFB u fb).2 ++ (prune u e).2).count x := by
      intro x
      rw [w₂.use, w₁.use, count_append, extend_useCnt]
      omega
    have hcnt : ∀ x ∈ env, (doExp (fb.f :: env) s.2 e).2.cnt x =
        c.cnt x + (countedFB fb ++ countedExp e).count x := by
      intro x hx
      have hxf : x ≠ fb.f := fun h => hd x (by grind) (henv hx)
      rw [w₂.cnt x (by simp [hx]), w₁.cnt x (by simp [hx]), count_append, extend]
      simp only [if_neg hxf]
      omega
    rw [doExp, prune, countedExp]
    simp only [← hs, hdead]
    split
    · exact ⟨r₂, huse, hcnt⟩
    · exact ⟨by rw [r₁, r₂], huse, hcnt⟩
  | .if_ t e₁ e₂, Γ, env, c, ⟨_, s₁, s₂⟩, hn, hd, henv, hu => by
    simp only [binders, nodup_append] at hn hd hu
    obtain ⟨r₁, w₁⟩ := doExp_prune (u := u) env c s₁ (by grind) (by grind) henv (by grind)
    have hkeep : ∀ x ∈ e₂.binders, x ∉ (prune u e₁).2 := fun x hx hx' =>
      not_mem_occs s₁ (hd x (by grind)) (by grind) (prune_dels_subset u e₁ hx')
    obtain ⟨r₂, w₂⟩ := doExp_prune (u := u) env ((doExp env c e₁).2) s₂ (by grind) (by grind) (by grind)
      (fun x hx => by rw [w₁.useCnt_eq (hkeep x hx)]; grind)
    exact ⟨by simp only [doExp, prune, r₁, r₂], w₁.trans w₂⟩
  | .case_ y cases dflt, Γ, env, c, ⟨_, s₁, s₂⟩, hn, hd, henv, hu => by
    simp only [binders, nodup_append] at hn hd hu
    obtain ⟨r₂, w₂⟩ := doDflt_prune (u := u) env c s₂ (by grind) (by grind) henv (by grind)
    have hkeep : ∀ x ∈ bindersCases cases, x ∉ (pruneDflt u dflt).2 := fun x hx hx' => by
      have := mem_of_occsDflt s₂ (pruneDflt_dels_subset u dflt hx')
      grind
    obtain ⟨r₁, w₁⟩ := doCases_prune (u := u) env ((doDflt env c dflt).2) s₁ (by grind) (by grind)
      henv (fun x hx => by rw [w₂.useCnt_eq (hkeep x hx)]; grind)
    have w := w₂.trans w₁
    exact ⟨by simp only [doExp, prune, r₁, r₂], w.use, fun x hx => by
      rw [countedExp, doExp, w.cnt x hx, count_append, count_append]; omega⟩
  | .apply f xs ys, Γ, env, c, _, _, _, _, _ => by
    simp [doExp, prune, countedExp, uses_append, walked_uses]
  | .throw k xs, Γ, env, c, _, _, _, _, _ => ⟨rfl, walked_uses env c xs⟩
  | .ret xs, Γ, env, c, _, _, _, _, _ => ⟨rfl, walked_uses env c xs⟩
  | .hlop op xs ys, Γ, env, c, _, _, _, _, _ => by
    refine ⟨rfl, ?_⟩
    simpa [doExp, prune, countedExp, uses_append] using walked_uses env c (xs ++ ys)

theorem doFB_prune {u : Var → Int} : ∀ {fb : Lambda} {Γ : List Var} (env : List Var) (c : Counts), fb.Scoped Γ →
    (innerFB fb).Nodup → (∀ x ∈ innerFB fb, x ∉ Γ) → env ⊆ Γ → (∀ x ∈ innerFB fb, c.useCnt x = u x) →
    (doFB env c fb).1 = (pruneFB u fb).1 ∧ Walked env c (doFB env c fb).2 (pruneFB u fb).2 (countedFB fb)
  | .fb f params exh body, Γ, env, c, s, hn, hd, henv, hu => by
    simp only [innerFB, nodup_append] at hn hd hu
    obtain ⟨r, w⟩ := doExp_prune (u := u) env c s (by grind) (by grind) (by grind) (by grind)
    exact ⟨by simp only [doFB, pruneFB, r], w⟩

theorem doFBs_prune {u : Var → Int} : ∀ {fbs : List Lambda} {Γ : List Var} (env : List Var) (c : Counts), ScopedFBs Γ fbs →
    (innerFBs fbs).Nodup → (∀ x ∈ innerFBs fbs, x ∉ Γ) → env ⊆ Γ → (∀ x ∈ innerFBs fbs, c.useCnt x = u x) →
    (doFBs env c fbs).1 = (pruneFBs u fbs).1 ∧ Walked env c (doFBs env c fbs).2 (pruneFBs u fbs).2 (countedFBs fbs)
  | [], Γ, env, c, _, _, _, _, _ => ⟨rfl, .refl env c⟩
  | fb :: fbs, Γ, env, c, ⟨s₁, s₂⟩, hn, hd, henv, hu => by
    simp only [innerFBs, nodup_append] at hn hd hu
    obtain ⟨r₁, w₁⟩ := doFB_prune (u := u) env c s₁ (by grind) (by grind) henv (by grind)
    have hkeep : ∀ x ∈ innerFBs fbs, x ∉ (pruneFB u fb).2 := fun x hx hx' =>
      not_mem_occs_inner s₁ (hd x (by grind)) (by grind) (pruneFB_dels_subset u fb hx')
    obtain ⟨r₂, w₂⟩ := doFBs_prune (u := u) env ((doFB env c fb).2) s₂ (by grind) (by grind) henv
      (fun x hx => by rw [w₁.useCnt_eq (hkeep x hx)]; grind)
    exact ⟨by simp only [doFBs, pruneFBs, r₁, r₂], w₁.trans w₂⟩

theorem doCases_prune {u : Var → Int} : ∀ {cases : List (Pat × Exp)} {Γ : List Var} (env : List Var) (c : Counts),
    ScopedCases Γ cases → (bindersCases cases).Nodup → (∀ x ∈ bindersCases cases, x ∉ Γ) → env ⊆ Γ →
    (∀ x ∈ bindersCases cases, c.useCnt x = u x) →
    (doCases env c cases).1 = (pruneCases u cases).1 ∧
      Walked env c (doCases env c cases).2 (pruneCases u cases).2 (countedCases cases)
  | [], Γ, env, c, _, _, _, _, _ => ⟨rfl, .refl env c⟩
  | (p, e) :: cases, Γ, env, c, ⟨s₁, s₂⟩, hn, hd, henv, hu => by
    simp only [bindersCases, nodup_append] at hn hd hu
    obtain ⟨r₁, w₁⟩ := doExp_prune (u := u) env c s₁ (by grind) (by grind) (by grind) (by grind)
    have hkeep : ∀ x ∈ bindersCases cases, x ∉ (prune u e).2 := fun x hx hx' =>
      not_mem_occs s₁ (by grind) (by grind) (prune_dels_subset u e hx')
    obtain ⟨r₂, w₂⟩ := doCases_prune (u := u) env ((doExp env c e).2) s₂ (by grind) (by grind) henv
      (fun x hx => by rw [w₁.useCnt_eq (hkeep x hx)]; grind)
    exact ⟨by simp only [doCases, pruneCases, r₁, r₂], w₁.trans w₂⟩

theorem doDflt_prune {u : Var → Int} : ∀ {dflt : Option Exp} {Γ : List Var} (env : List Var) (c : Counts),
    ScopedDflt Γ dflt → (bindersDflt dflt).Nodup → (∀ x ∈ bindersDflt dflt, x ∉ Γ) → env ⊆ Γ →
    (∀ x ∈ bindersDflt dflt, c.useCnt x = u x) →
    (doDflt env c dflt).1 = (pruneDflt u dflt).1 ∧
      Walked env c (doDflt env c dflt).2 (pruneDflt u dflt).2 (countedDflt dflt)
  | none, Γ, env, c, _, _, _, _, _ => ⟨rfl, .refl env c⟩
  | some e, Γ, env, c, s, hn, hd, henv, hu => by
    obtain ⟨r, w⟩ := doExp_prune (u := u) (e := e) env c s hn hd henv hu
    exact ⟨by simp only [doDflt, pruneDflt, r], w⟩

end

end Manticore.Bom.DeadFuns
