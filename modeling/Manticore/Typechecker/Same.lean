/-
  Manticore.Typechecker.Same — equality of types up to instantiated meta variables
  (`TypeUtil.same`, type-util.sml).

  `same` prunes both types and compares them constructor by constructor. What it answers is
  said of the resolved types, every instantiated variable replaced by its instance:
  - an error type counts as the same as every type, so `same` is not transitive;
  - function types are compared by the domain of the second against its own range, so
    nothing is said where two function types meet (`FunsMeet`).

  Proved: `same` returns from every acyclic store and only compresses paths, and where no
  function types meet it answers whether the resolved types are alike (`same_returns`);
  on the types with no function and no error in them this is equality (`alike_iff_eq`).
-/

import Manticore.Typechecker.UnifyProofs

namespace Manticore.Typechecker

open Fuel
open Ty (parts subst)

def same : Nat → Store → Ty → Ty → Except Failure (Store × Bool)
  | 0, _, _, _ => .error .fuel
  | n + 1, s, ty1, ty2 => do
    let (s, ty1) ← prune n s ty1
    let (s, ty2) ← prune n s ty2
    match ty1, ty2 with
    | .errorTy, _ => .ok (s, true)
    | _, .errorTy => .ok (s, true)
    | .metaTy mv1, .metaTy mv2 => .ok (s, decide (mv1 = mv2))
    | .varTy tv1, .varTy tv2 => .ok (s, decide (tv1 = tv2))
    | .conTy args1 tyc1, .conTy args2 tyc2 =>
      if tyc1 = tyc2 then allEq (same n) s args1 args2 else .ok (s, false)
    | .funTy ty11 _, .funTy ty21 ty22 => do
      let (s, b) ← same n s ty11 ty21
      -- the range of the first type is not looked at
      if b then same n s ty21 ty22 else .ok (s, false)
    | .tupleTy tys1, .tupleTy tys2 => allEq (same n) s tys1 tys2
    | _, _ => .ok (s, false)

/-! ## Types that are alike -/

mutual

/-- The same constructor with alike components; an error type is like every type. -/
def Alike : Ty → Ty → Prop
  | .errorTy, _ => True
  | _, .errorTy => True
  | .metaTy m, .metaTy m' => m = m'
  | .varTy v, .varTy v' => v = v'
  | .conTy args tyc, .conTy args' tyc' => tyc = tyc' ∧ AlikeL args args'
  | .funTy t1 t2, .funTy u1 u2 => Alike t1 u1 ∧ Alike t2 u2
  | .tupleTy ts, .tupleTy us => AlikeL ts us
  | _, _ => False

def AlikeL : List Ty → List Ty → Prop
  | [], [] => True
  | t :: ts, u :: us => Alike t u ∧ AlikeL ts us
  | _, _ => False

end

variable {ts us : List Ty} {t u : Ty} {s : Store} {f : Meta → Ty}

attribute [local simp] same

@[simp] theorem alikeL_iff : AlikeL ts us ↔ List.Forall₂ Alike ts us := by
  induction ts generalizing us with
  | nil => cases us <;> simp [AlikeL]
  | cons t ts ih => cases us <;> simp [AlikeL, ih]

/-- Two function types in the same place. -/
inductive FunsMeet : Ty → Ty → Prop
  | here {t1 t2 u1 u2 : Ty} : FunsMeet (.funTy t1 t2) (.funTy u1 u2)
  | conTy {ts us : List Ty} {tyc tyc' : TyCon} {p : Ty × Ty} :
      p ∈ ts.zip us → FunsMeet p.1 p.2 → FunsMeet (.conTy ts tyc) (.conTy us tyc')
  | tupleTy {ts us : List Ty} {p : Ty × Ty} : p ∈ ts.zip us → FunsMeet p.1 p.2 → FunsMeet (.tupleTy ts) (.tupleTy us)

/-- Some type inside this one is as `P` says. -/
inductive Ty.Has (P : Ty → Prop) : Ty → Prop
  | here {t : Ty} : P t → Has P t
  | part {t u : Ty} : u ∈ t.parts → Has P u → Has P t

def Ty.IsFun (t : Ty) : Prop := ∃ t1 t2, t = .funTy t1 t2

/-- No function type and no error type inside. -/
def Ty.Plain (t : Ty) : Prop := ¬ t.Has Ty.IsFun ∧ ¬ t.Has (· = .errorTy)

theorem FunsMeet.has_left (h : FunsMeet t u) : t.Has Ty.IsFun := by
  induction h with
  | here => exact .here ⟨_, _, rfl⟩
  | conTy hp _ ih | tupleTy hp _ ih => exact .part (List.of_mem_zip hp).1 ih

theorem FunsMeet.symm (h : FunsMeet t u) : FunsMeet u t := by
  have hswap : ∀ {ts us : List Ty} {p : Ty × Ty}, p ∈ ts.zip us → p.swap ∈ us.zip ts := by
    intro ts us p hp
    rw [← List.zip_swap]
    exact List.mem_map_of_mem hp
  induction h with
  | here => exact .here
  | conTy hp _ ih => exact .conTy (hswap hp) ih
  | tupleTy hp _ ih => exact .tupleTy (hswap hp) ih

theorem Alike.refl (t : Ty) : Alike t t := by
  induction t using Ty.ind with
  | conTy _ _ ih | tupleTy _ ih => simpa [Alike, List.forall₂_same] using ih
  | funTy t1 t2 ih1 ih2 => exact ⟨ih1, ih2⟩
  | _ => simp [Alike]

theorem forall₂_symm {R : Ty → Ty → Prop} (hR : ∀ t ∈ ts, ∀ u, R t u → R u t) (h : List.Forall₂ R ts us) :
    List.Forall₂ R us ts := by
  induction h with
  | nil => exact .nil
  | cons h _ ih => exact .cons (hR _ List.mem_cons_self _ h) (ih fun t ht => hR t (List.mem_cons_of_mem _ ht))

theorem Alike.symm (h : Alike t u) : Alike u t := by
  induction t using Ty.ind generalizing u with
  | errorTy => cases u <;> simp [Alike]
  | metaTy | varTy => cases u <;> simp_all [Alike]
  | conTy args tyc ih =>
    cases u with
    | errorTy => trivial
    | conTy args' tyc' =>
      simp only [Alike, alikeL_iff] at h ⊢
      exact ⟨h.1.symm, forall₂_symm (fun t ht _ => ih t ht) h.2⟩
    | _ => exact h.elim
  | funTy t1 t2 ih1 ih2 =>
    cases u with
    | errorTy => trivial
    | funTy u1 u2 => exact ⟨ih1 h.1, ih2 h.2⟩
    | _ => exact h.elim
  | tupleTy tys ih =>
    cases u with
    | errorTy => trivial
    | tupleTy tys' =>
      grind [Alike, alikeL_iff, forall₂_symm]
    | _ => exact h.elim

theorem forall₂_eq {R : Ty → Ty → Prop} (hR : ∀ t ∈ ts, ∀ u ∈ us, R t u → t = u) (h : List.Forall₂ R ts us) :
    ts = us := by
  induction h with
  | nil => rfl
  | cons h _ ih =>
    rw [hR _ List.mem_cons_self _ List.mem_cons_self h,
      ih fun t ht u hu => hR t (List.mem_cons_of_mem _ ht) u (List.mem_cons_of_mem _ hu)]

/-- Without error types, alike is equal. -/
theorem alike_iff_eq (ht : ¬ t.Has (· = .errorTy)) (hu : ¬ u.Has (· = .errorTy)) : Alike t u ↔ t = u := by
  refine ⟨fun h => ?_, fun h => h ▸ Alike.refl t⟩
  have hpart : ∀ {t v : Ty}, ¬ t.Has (· = .errorTy) → v ∈ t.parts → ¬ v.Has (· = .errorTy) :=
    fun ht hv hn => ht (.part hv hn)
  induction t using Ty.ind generalizing u with
  | errorTy => exact absurd (.here rfl) ht
  | metaTy | varTy => cases u <;> simp_all [Alike, Ty.Has.here]
  | conTy args tyc ih =>
    cases u with
    | errorTy => exact absurd (.here rfl) hu
    | conTy args' tyc' =>
      simp only [Alike, alikeL_iff] at h
      obtain ⟨rfl, h⟩ := h
      have he : args = args' := forall₂_eq (fun v hv w hw => ih v hv (hpart ht hv) (hpart hu hw)) h
      rw [he]
    | _ => exact h.elim
  | funTy t1 t2 ih1 ih2 =>
    cases u with
    | errorTy => exact absurd (.here rfl) hu
    | funTy u1 u2 =>
      obtain ⟨h1, h2⟩ := h
      rw [ih1 (hpart ht (by simp [parts])) (hpart hu (by simp [parts])) h1,
        ih2 (hpart ht (by simp [parts])) (hpart hu (by simp [parts])) h2]
    | _ => exact h.elim
  | tupleTy tys ih =>
    cases u with
    | errorTy => exact absurd (.here rfl) hu
    | tupleTy tys' =>
      simp only [Alike, alikeL_iff] at h
      have he : tys = tys' := forall₂_eq (fun v hv w hw => ih v hv (hpart ht hv) (hpart hu hw)) h
      rw [he]
    | _ => exact h.elim

/-! ## What `same` answers -/

/-- Path compression keeps the resolved types. -/
theorem Resolved.compress {s' : Store} (h : Resolved s f) (hc : Compress s s') : Resolved s' f := by
  intro m
  have hs : Solves s' ⟨f, s.classes⟩ := (hc.solves _).2 h.solves
  have hm := h m
  have hk := hc.kind m
  cases hi : s'.info m with
  | inst t => exact hs.inst hi
  | univ | cls => cases hi' : s.info m <;> simp_all [MetaInfo.kind]

/-- Pruning keeps the resolved type. -/
theorem Prunes.resolved {s' : Store} {t' : Ty} (h : Prunes s t s' t') (hf : Resolved s f) :
    t.subst f = t'.subst f :=
  h.value (hf.compress h.compress).solves

theorem Resolved.free (h : Resolved s f) {m : Meta} (hm : ∀ u, s.info m ≠ .inst u) : f m = .metaTy m := by
  have hf := h m
  cases hi : s.info m with
  | inst t => exact absurd hi (hm t)
  | _ => rw [hf, hi]

/-- Comparing the lists of components. -/
theorem allEq_same {s2 : Store} {C : Prop} (hc : Compress s s2)
    (h : ∀ t, ∀ u ∈ us, ∀ s1, Compress s s1 → ∃ s' b, Returns (fun n => same n s1 t u) (s', b) ∧ Compress s s' ∧ (¬ FunsMeet (t.subst f) (u.subst f) → (b = true ↔ Alike (t.subst f) (u.subst f))))
    (hC : C → ∀ p ∈ (ts.map (subst f)).zip (us.map (subst f)), ¬ FunsMeet p.1 p.2) :
    ∃ s' b, Returns (fun n => allEq (same n) s2 ts us) (s', b) ∧ Compress s s' ∧
      (C → (b = true ↔ List.Forall₂ Alike (ts.map (subst f)) (us.map (subst f)))) := by
  simp only [List.forall₂_map_left_iff, List.forall₂_map_right_iff]
  refine allEq_returns (fun p hp s1 hs1 => ?_) hc
  obtain ⟨s', b, hret, hc', hb⟩ := h p.1 p.2 (List.of_mem_zip hp).2 s1 hs1
  refine ⟨s', b, hret, hc', fun hc => hb (hC hc (p.1.subst f, p.2.subst f) ?_)⟩
  rw [List.zip_map]
  exact List.mem_map.2 ⟨p, hp, rfl⟩

theorem same_returns {r : Meta → Nat} (hr : Ranked s r) (hf : Resolved s f) (t1 t2 : Ty) :
    ∃ s' b, Returns (fun n => same n s t1 t2) (s', b) ∧ Compress s s' ∧
      (¬ FunsMeet (t1.subst f) (t2.subst f) → (b = true ↔ Alike (t1.subst f) (t2.subst f))) := by
  -- every call compares with a component of the second type
  induction t2 using Smaller.ind (r := r) generalizing s t1 with
  | h t2 ih =>
    obtain ⟨s1, t1', hret1, hp1⟩ := prune_returns hr t1
    have hr1 := hp1.compress.ranked r hr
    obtain ⟨s2, t2', hret2, hp2⟩ := prune_returns hr1 t2
    have hc : Compress s s2 := hp1.compress.trans hp2.compress
    have hf2 := hf.compress hc
    have hfree1 : ∀ m, t1' = .metaTy m → f m = .metaTy m := fun m hm =>
      hf2.free (hp2.compress.not_inst.2 (hp1.head m hm))
    have hfree2 : ∀ m, t2' = .metaTy m → f m = .metaTy m := fun m hm => hf2.free (hp2.head m hm)
    have hpart : ∀ t, ∀ u ∈ t2'.parts, ∀ s3, Compress s s3 →
        ∃ s' b, Returns (fun n => same n s3 t u) (s', b) ∧ Compress s s' ∧
          (¬ FunsMeet (t.subst f) (u.subst f) → (b = true ↔ Alike (t.subst f) (u.subst f))) := by
      intro t u hu s3 hs3
      obtain ⟨s', b, hret, hc', hb⟩ := ih u (hp2.smaller hr1 hu) (hs3.ranked r hr) (hf.compress hs3) t
      exact ⟨s', b, hret, hs3.trans hc', hb⟩
    rw [hp1.resolved hf, hp2.resolved (hf.compress hp1.compress)]
    -- the outcome of the comparison is the outcome of the call
    suffices hsuff : ∃ s' b, Returns (fun n => match t1', t2' with
        | .errorTy, _ => .ok (s2, true)
        | _, .errorTy => .ok (s2, true)
        | .metaTy mv1, .metaTy mv2 => .ok (s2, decide (mv1 = mv2))
        | .varTy tv1, .varTy tv2 => .ok (s2, decide (tv1 = tv2))
        | .conTy args1 tyc1, .conTy args2 tyc2 =>
          if tyc1 = tyc2 then allEq (same n) s2 args1 args2 else .ok (s2, false)
        | .funTy ty11 _, .funTy ty21 ty22 => do
          let (s, b) ← same n s2 ty11 ty21
          if b then same n s ty21 ty22 else .ok (s, false)
        | .tupleTy tys1, .tupleTy tys2 => allEq (same n) s2 tys1 tys2
        | _, _ => .ok (s2, false)) (s', b) ∧ Compress s s' ∧
        (¬ FunsMeet (t1'.subst f) (t2'.subst f) → (b = true ↔ Alike (t1'.subst f) (t2'.subst f))) by
      obtain ⟨s', b, hret, h⟩ := hsuff
      refine ⟨s', b, .succ ?_, h⟩
      simp only [same]
      exact hret1.bind (hret2.bind hret)
    cases t1' with
    | errorTy => exact ⟨s2, true, .pure _, hc, by simp [Alike, subst]⟩
    | metaTy m1 =>
      cases t2' with
      | metaTy m2 => exact ⟨s2, decide (m1 = m2), .pure _, hc, by simp [Alike, subst, hfree1, hfree2]⟩
      | errorTy => exact ⟨s2, true, .pure _, hc, by simp [Alike, subst, hfree1]⟩
      | _ => exact ⟨s2, false, .pure _, hc, by simp [Alike, subst, hfree1]⟩
    | varTy v1 =>
      cases t2' with
      | metaTy m2 => exact ⟨s2, false, .pure _, hc, by simp [Alike, subst, hfree2]⟩
      | varTy v2 => exact ⟨s2, decide (v1 = v2), .pure _, hc, by simp [Alike, subst]⟩
      | errorTy => exact ⟨s2, true, .pure _, hc, by simp [Alike, subst]⟩
      | _ => exact ⟨s2, false, .pure _, hc, by simp [Alike, subst]⟩
    | conTy args1 tyc1 =>
      cases t2' with
      | metaTy m2 => exact ⟨s2, false, .pure _, hc, by simp [Alike, subst, hfree2]⟩
      | errorTy => exact ⟨s2, true, .pure _, hc, by simp [Alike, subst]⟩
      | conTy args2 tyc2 =>
        simp only [subst, Ty.substL_eq, Alike, alikeL_iff]
        by_cases htyc : tyc1 = tyc2
        · simp only [htyc, if_true, true_and]
          exact allEq_same hc hpart fun hno p hp hm => hno (.conTy hp hm)
        · simp only [htyc, if_false, false_and]
          exact ⟨s2, false, .pure _, hc, by simp⟩
      | _ => exact ⟨s2, false, .pure _, hc, by simp [Alike, subst]⟩
    | funTy t11 t12 =>
      cases t2' with
      | metaTy m2 => exact ⟨s2, false, .pure _, hc, by simp [Alike, subst, hfree2]⟩
      | errorTy => exact ⟨s2, true, .pure _, hc, by simp [Alike, subst]⟩
      | funTy t21 t22 =>
        obtain ⟨s3, b, hret3, hc3, -⟩ := hpart t11 t21 (by simp [parts]) s2 hc
        cases b with
        | false => exact ⟨s3, false, hret3.bind (.pure _), hc3, fun hno => absurd .here hno⟩
        | true =>
          obtain ⟨s4, b4, hret4, hc4, -⟩ := hpart t21 t22 (by simp [parts]) s3 hc3
          exact ⟨s4, b4, hret3.bind hret4, hc4, fun hno => absurd .here hno⟩
      | _ => exact ⟨s2, false, .pure _, hc, by simp [Alike, subst]⟩
    | tupleTy tys1 =>
      cases t2' with
      | metaTy m2 => exact ⟨s2, false, .pure _, hc, by simp [Alike, subst, hfree2]⟩
      | errorTy => exact ⟨s2, true, .pure _, hc, by simp [Alike, subst]⟩
      | tupleTy tys2 =>
        simp only [subst, Ty.substL_eq, Alike, alikeL_iff]
        exact allEq_same hc hpart fun hno p hp hm => hno (.tupleTy hp hm)
      | _ => exact ⟨s2, false, .pure _, hc, by simp [Alike, subst]⟩

/-! ## Equality of types -/

/-- `same` answers true. -/
def Same (s : Store) (t1 t2 : Ty) : Prop := ∃ s', Returns (fun n => same n s t1 t2) (s', true)

theorem same_iff_alike (hs : Acyclic s) (hf : Resolved s f) {t1 t2 : Ty} (h : ¬ FunsMeet (t1.subst f) (t2.subst f))
    : Same s t1 t2 ↔ Alike (t1.subst f) (t2.subst f) := by
  obtain ⟨r, hr⟩ := hs
  obtain ⟨s', b, hret, -, hb⟩ := same_returns hr hf t1 t2
  rw [← hb h]
  constructor
  · intro hsame
    obtain ⟨s'', hret'⟩ := hsame
    exact congrArg Prod.snd (hret.unique hret')
  · intro hb
    exact ⟨s', hb ▸ hret⟩

theorem same_iff_eq (hs : Acyclic s) (hf : Resolved s f) {t1 t2 : Ty} (h1 : (t1.subst f).Plain)
    (h2 : (t2.subst f).Plain) : Same s t1 t2 ↔ t1.subst f = t2.subst f := by
  rw [same_iff_alike hs hf fun h => h1.1 h.has_left, alike_iff_eq h1.2 h2.2]

/-- From every acyclic store `same` returns, compressing paths only, and where no two
    function types meet it answers whether the resolved types have the same constructors
    with alike components. It is then symmetric, reflexive on types without functions, and
    on types with neither functions nor errors it is equality of the resolved types, an
    equivalence. -/
theorem same_structural {s : Store} (hs : Acyclic s) :
    ∃ f, Resolved s f ∧
      (∀ t1 t2, ∃ s' b, Returns (fun n => same n s t1 t2) (s', b) ∧ Compress s s' ∧ Resolved s' f ∧
        (¬ FunsMeet (t1.subst f) (t2.subst f) → (b = true ↔ Alike (t1.subst f) (t2.subst f)))) ∧
      (∀ t1 t2, ¬ FunsMeet (t1.subst f) (t2.subst f) → Same s t1 t2 → Same s t2 t1) ∧
      (∀ t, ¬ (t.subst f).Has Ty.IsFun → Same s t t) ∧
      (∀ t1 t2, (t1.subst f).Plain → (t2.subst f).Plain → (Same s t1 t2 ↔ t1.subst f = t2.subst f)) ∧
      Equivalence fun t1 t2 : { t : Ty // (t.subst f).Plain } => Same s t1 t2 := by
  obtain ⟨f, hf⟩ := exists_resolved hs
  refine ⟨f, hf, fun t1 t2 => ?_, fun t1 t2 h hsame => ?_, fun t ht => ?_, fun t1 t2 => same_iff_eq hs hf, ?_⟩
  · obtain ⟨r, hr⟩ := hs
    obtain ⟨s', b, hret, hc, hb⟩ := same_returns hr hf t1 t2
    exact ⟨s', b, hret, hc, hf.compress hc, hb⟩
  · rw [same_iff_alike hs hf h] at hsame
    exact (same_iff_alike hs hf fun h' => h h'.symm).2 hsame.symm
  · exact (same_iff_alike hs hf fun h => ht h.has_left).2 (.refl _)
  · constructor
    · intro t
      exact (same_iff_eq hs hf t.2 t.2).2 rfl
    · intro t u h
      exact (same_iff_eq hs hf u.2 t.2).2 ((same_iff_eq hs hf t.2 u.2).1 h).symm
    · intro t u v h h'
      exact (same_iff_eq hs hf t.2 v.2).2 (((same_iff_eq hs hf t.2 u.2).1 h).trans ((same_iff_eq hs hf u.2 v.2).1 h'))

/-- No variable is instantiated. -/
def freshStore : Store := ⟨fun _ => .univ 0, fun _ => true, fun _ _ => rfl⟩

theorem freshStore_acyclic : Acyclic freshStore := ⟨fun _ => 0, fun _ _ h => nomatch h⟩

theorem same_structural_freshStore :
    ∃ f, Resolved freshStore f ∧
      (∀ t1 t2, ∃ s' b, Returns (fun n => same n freshStore t1 t2) (s', b) ∧ Compress freshStore s' ∧ Resolved s' f ∧
        (¬ FunsMeet (t1.subst f) (t2.subst f) → (b = true ↔ Alike (t1.subst f) (t2.subst f)))) ∧
      (∀ t1 t2, ¬ FunsMeet (t1.subst f) (t2.subst f) → Same freshStore t1 t2 → Same freshStore t2 t1) ∧
      (∀ t, ¬ (t.subst f).Has Ty.IsFun → Same freshStore t t) ∧
      (∀ t1 t2, (t1.subst f).Plain → (t2.subst f).Plain → (Same freshStore t1 t2 ↔ t1.subst f = t2.subst f)) ∧
      Equivalence fun t1 t2 : { t : Ty // (t.subst f).Plain } => Same freshStore t1 t2 :=
  same_structural freshStore_acyclic

/-- An error type is the same as `int` and as `float`, which are not the same. -/
theorem same_not_transitive :
    Acyclic freshStore ∧ Same freshStore (.conTy [] intTyc) .errorTy ∧ Same freshStore .errorTy (.conTy [] floatTyc) ∧
      ¬ Same freshStore (.conTy [] intTyc) (.conTy [] floatTyc) := by
  have hrun : ∀ t1 t2 b, (∀ n, same (n + 2) freshStore t1 t2 = .ok (freshStore, b)) →
      Returns (fun n => same n freshStore t1 t2) (freshStore, b) := by
    intro t1 t2 b h
    exact .succ (.succ ⟨0, fun n _ => h n⟩)
  refine ⟨freshStore_acyclic, ⟨freshStore, hrun _ _ _ fun _ => rfl⟩, ⟨freshStore, hrun _ _ _ fun _ => rfl⟩, ?_⟩
  intro h
  obtain ⟨s', h⟩ := h
  have hrun' := hrun (.conTy [] intTyc) (.conTy [] floatTyc) false fun _ => rfl
  exact Bool.noConfusion (congrArg Prod.snd (hrun'.unique h))

end Manticore.Typechecker
