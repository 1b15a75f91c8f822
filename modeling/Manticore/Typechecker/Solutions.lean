/-
  Manticore.Typechecker.Solutions — what the state of the meta variables means.

  A valuation gives each meta variable a type and each variable left in these types its
  class. `Solves s V`: it gives an instantiated variable the value of its instance and a
  class variable a member of the class. `Ranked s r`: instances only mention variables of
  lower rank, so chasing ends; `Acyclic` says that there is such a ranking. `Compress`
  collects what path compression and depth adjustment leave alone, the solutions first of
  all; `prune_returns`, `occursIn_returns`, `adjustDepth_returns` and
  `isEqualityType_returns` say that each function returns and what it answers.
-/

import Manticore.Typechecker.Unify

namespace Manticore.Typechecker

open Fuel
open Store (assign_of_ne assign_self)

/-! ## Types -/

theorem Ty.ind {P : Ty → Prop} (errorTy : P .errorTy) (metaTy : ∀ m, P (.metaTy m)) (varTy : ∀ v, P (.varTy v))
    (conTy : ∀ args tyc, (∀ t ∈ args, P t) → P (.conTy args tyc))
    (funTy : ∀ t1 t2, P t1 → P t2 → P (.funTy t1 t2)) (tupleTy : ∀ tys, (∀ t ∈ tys, P t) → P (.tupleTy tys)) :
    ∀ t, P t
  | .errorTy => errorTy
  | .metaTy m => metaTy m
  | .varTy v => varTy v
  | .conTy args tyc => conTy args tyc fun t _ => Ty.ind errorTy metaTy varTy conTy funTy tupleTy t
  | .funTy t1 t2 =>
    funTy t1 t2 (Ty.ind errorTy metaTy varTy conTy funTy tupleTy t1) (Ty.ind errorTy metaTy varTy conTy funTy tupleTy t2)
  | .tupleTy tys => tupleTy tys fun t _ => Ty.ind errorTy metaTy varTy conTy funTy tupleTy t

/-- The immediate components of a type. -/
def Ty.parts : Ty → List Ty
  | .conTy args _ => args
  | .funTy t1 t2 => [t1, t2]
  | .tupleTy tys => tys
  | _ => []

theorem Ty.sizeOf_parts {u t : Ty} (h : u ∈ t.parts) : sizeOf u < sizeOf t := by
  cases t with
  | conTy args _ =>
    have := List.sizeOf_lt_of_mem (show u ∈ args from h)
    simp only [Ty.conTy.sizeOf_spec]
    omega
  | funTy t1 t2 =>
    rcases List.mem_pair.1 h with rfl | rfl <;> simp only [Ty.funTy.sizeOf_spec] <;> omega
  | tupleTy tys =>
    have := List.sizeOf_lt_of_mem (show u ∈ tys from h)
    simp only [Ty.tupleTy.sizeOf_spec]
    omega
  | _ => cases h

mutual

def Ty.metas : Ty → List Meta
  | .metaTy m => [m]
  | .conTy args _ => Ty.metasL args
  | .funTy t1 t2 => t1.metas ++ t2.metas
  | .tupleTy tys => Ty.metasL tys
  | _ => []

def Ty.metasL : List Ty → List Meta
  | [] => []
  | t :: ts => t.metas ++ Ty.metasL ts

end

@[simp] theorem Ty.mem_metasL {m : Meta} {ts : List Ty} : m ∈ Ty.metasL ts ↔ ∃ t ∈ ts, m ∈ t.metas := by
  induction ts with
  | nil => simp [Ty.metasL]
  | cons t ts ih => simp [Ty.metasL, ih]

theorem Ty.metas_parts {m : Meta} {u t : Ty} (h : u ∈ t.parts) (hm : m ∈ u.metas) : m ∈ t.metas := by
  cases t with
  | conTy | tupleTy => simpa [Ty.metas] using ⟨u, h, hm⟩
  | funTy t1 t2 => rcases List.mem_pair.1 h with rfl | rfl <;> simp [Ty.metas, hm]
  | _ => cases h

mutual

/-- Replace every meta variable by its value. -/
def Ty.subst (f : Meta → Ty) : Ty → Ty
  | .metaTy m => f m
  | .conTy args tyc => .conTy (Ty.substL f args) tyc
  | .funTy t1 t2 => .funTy (t1.subst f) (t2.subst f)
  | .tupleTy tys => .tupleTy (Ty.substL f tys)
  | .errorTy => .errorTy
  | .varTy v => .varTy v

def Ty.substL (f : Meta → Ty) : List Ty → List Ty
  | [] => []
  | t :: ts => t.subst f :: Ty.substL f ts

end

@[simp] theorem Ty.substL_eq (f : Meta → Ty) (ts : List Ty) : Ty.substL f ts = ts.map (Ty.subst f) := by
  induction ts with
  | nil => rfl
  | cons t ts ih => simp [Ty.substL, ih]

/-! ## Valuations -/

/-- `c ≤ c'`: every member of `c` is one of `c'`. -/
def TyClass.le : TyClass → TyClass → Bool
  | _, .eq => true
  | .eq, _ => false
  | _, .order => true
  | .order, _ => false
  | _, .num => true
  | .num, _ => false
  | c, c' => c == c'

/-- The constructors of the types in a class other than `Eq`. -/
def TyClass.members : TyClass → List TyCon
  | .int => intClass
  | .float => floatClass
  | .num => numClass
  | .order | .eq => orderClass

structure Valuation where
  ty : Meta → Ty
  cls : Meta → Option TyClass

section
variable (q : TyCon → Bool) (V : Valuation)

mutual

/-- An equality type, when the variables left in it have the classes of `V`. -/
def IsEq : Ty → Prop
  | .errorTy => True
  | .metaTy m => (V.cls m).isSome = true
  | .conTy _ tyc => q tyc = true
  | .tupleTy tys => AreEq tys
  | _ => False

def AreEq : List Ty → Prop
  | [] => True
  | t :: ts => IsEq t ∧ AreEq ts

end

/-- A member of the class: one of its constructors, or a variable of a smaller class. -/
def InClass : TyClass → Ty → Prop
  | .eq, t => IsEq q V t
  | c, .conTy _ tyc => tyc ∈ c.members
  | c, .metaTy m => ∃ c', V.cls m = some c' ∧ c'.le c = true
  | _, _ => False

end

@[simp] theorem areEq_iff {q : TyCon → Bool} {V : Valuation} {ts : List Ty} :
    AreEq q V ts ↔ ∀ t ∈ ts, IsEq q V t := by
  induction ts with
  | nil => simp [AreEq]
  | cons t ts ih => simp [AreEq, ih]

/-- What a valuation owes to one variable. -/
def Sat (s : Store) (V : Valuation) (m : Meta) : Prop :=
  match s.info m with
  | .univ _ => True
  | .cls c => InClass s.isEqTyc V c (V.ty m)
  | .inst t => V.ty m = t.subst V.ty

/-- A valuation that the state allows. -/
def Solves (s : Store) (V : Valuation) : Prop := ∀ m, Sat s V m

theorem Solves.inst {s : Store} {V : Valuation} (h : Solves s V) {m : Meta} {t : Ty} (hm : s.info m = .inst t) :
    V.ty m = t.subst V.ty := by
  have := h m
  rwa [Sat, hm] at this

/-! ## Rankings -/

def Ranked (s : Store) (r : Meta → Nat) : Prop := ∀ m t, s.info m = .inst t → ∀ m' ∈ t.metas, r m' < r m

/-- No variable is instantiated, directly or through others, to a type that mentions it. -/
def Acyclic (s : Store) : Prop := ∃ r, Ranked s r

/-- A set of variables that contains those of their instances. -/
def Closed (s : Store) (S : Set Meta) : Prop := ∀ m ∈ S, ∀ t, s.info m = .inst t → ∀ m' ∈ t.metas, m' ∈ S

/-- The type's variables are in `S`. -/
def Ty.Within (S : Set Meta) (t : Ty) : Prop := ∀ m ∈ t.metas, m ∈ S

variable {s : Store} {m : Meta} {t u : Ty} {r : Meta → Nat} {i : MetaInfo}

theorem Ty.Within.parts {S : Set Meta} (h : t.Within S) (hu : u ∈ t.parts) : u.Within S :=
  fun _ hm => h _ (Ty.metas_parts hu hm)

/-- A bound on the ranks of the type's variables. -/
def Ty.height (r : Meta → Nat) (t : Ty) : Nat := (t.metas.map (r · + 1)).foldr max 0

theorem Ty.height_le_iff {k : Nat} : t.height r ≤ k ↔ ∀ m ∈ t.metas, r m < k := by
  unfold Ty.height
  induction t.metas with
  | nil => simp
  | cons m ms ih =>
    grind

theorem Ty.height_parts (h : u ∈ t.parts) : u.height r ≤ t.height r :=
  Ty.height_le_iff.2 fun _ hm => Ty.height_le_iff.1 (Nat.le_refl _) _ (Ty.metas_parts h hm)

/-- `u` is met after `t` when variables are chased and types taken apart. -/
def Smaller (r : Meta → Nat) (u t : Ty) : Prop :=
  u.height r < t.height r ∨ u.height r ≤ t.height r ∧ sizeOf u < sizeOf t

theorem Smaller.ind {P : Ty → Prop} (h : ∀ t, (∀ u, Smaller r u t → P u) → P t) : ∀ t, P t := by
  have hwf : WellFounded (Smaller r) := by
    refine Subrelation.wf (r := InvImage (Prod.Lex (· < ·) (· < ·)) fun t : Ty => (t.height r, sizeOf t)) ?_
      (InvImage.wf _ (WellFoundedRelation.wf))
    intro u t hut
    rcases hut with h | ⟨h, h'⟩
    · exact Prod.Lex.left _ _ h
    grind [InvImage]
  exact fun t => hwf.induction t h

theorem Smaller.parts (h : u ∈ t.parts) : Smaller r u t :=
  .inr ⟨Ty.height_parts h, Ty.sizeOf_parts h⟩

theorem Smaller.inst {s : Store} {r : Meta → Nat} (hr : Ranked s r) {m : Meta} {t : Ty} (h : s.info m = .inst t) :
    Smaller r t (.metaTy m) := by
  left
  have h1 : t.height r ≤ r m := Ty.height_le_iff.2 (hr m t h)
  have h2 : r m < (Ty.metaTy m).height r := Ty.height_le_iff.1 (Nat.le_refl _) m (by simp [Ty.metas])
  omega

theorem Smaller.trans {v : Ty} (h : Smaller r t u) (h' : Smaller r u v) : Smaller r t v := by
  unfold Smaller at *
  omega

/-! ## Occurrence -/

/-- An uninstantiated variable of the expanded type. -/
inductive Occurs (s : Store) (m : Meta) : Ty → Prop
  | here : (∀ t, s.info m ≠ .inst t) → Occurs s m (.metaTy m)
  | inst {m' : Meta} {t : Ty} : s.info m' = .inst t → Occurs s m t → Occurs s m (.metaTy m')
  | part {t u : Ty} : u ∈ t.parts → Occurs s m u → Occurs s m t

theorem occurs_meta_inst {m' : Meta} (h : s.info m' = .inst t) : Occurs s m (.metaTy m') ↔ Occurs s m t := by
  refine ⟨fun ho => ?_, .inst h⟩
  cases ho with
  | here hm => exact absurd h (hm t)
  | inst h' ho =>
    rw [h] at h'
    cases h'
    exact ho
  | part hu _ => cases hu

theorem occurs_meta {m' : Meta} (h : ∀ t, s.info m' ≠ .inst t) : Occurs s m (.metaTy m') ↔ m = m' := by
  refine ⟨fun ho => ?_, fun he => by rw [he]; exact .here h⟩
  cases ho with
  | here => rfl
  | inst h' _ => exact absurd h' (h _)
  | part hu _ => cases hu

theorem occurs_parts (ht : ∀ m', t ≠ .metaTy m') : Occurs s m t ↔ ∃ u ∈ t.parts, Occurs s m u := by
  refine ⟨fun ho => ?_, fun ⟨_, hu, ho⟩ => .part hu ho⟩
  cases ho with
  | here | inst => exact absurd rfl (ht _)
  | part hu ho => exact ⟨_, hu, ho⟩

/-- What a cell holds: an instance (`none`), or a variable with or without a class. -/
def MetaInfo.kind : MetaInfo → Option (Option TyClass)
  | .univ _ => some none
  | .cls c => some (some c)
  | .inst _ => none

theorem MetaInfo.kind_eq_none : i.kind = none ↔ ∃ t, i = .inst t := by
  cases i <;> simp [MetaInfo.kind]

theorem not_inst_iff : (∀ t, i ≠ .inst t) ↔ i.kind ≠ none := by
  rw [Ne, MetaInfo.kind_eq_none, not_exists]

/-! ## Path compression -/

/-- `s'` is `s` with paths compressed and depths adjusted. -/
structure Compress (s s' : Store) : Prop where
  isEqTyc : s'.isEqTyc = s.isEqTyc
  kind : ∀ m, (s'.info m).kind = (s.info m).kind
  ranked : ∀ r, Ranked s r → Ranked s' r
  closed : ∀ S, Closed s S → Closed s' S
  occurs : ∀ m t, Occurs s' m t ↔ Occurs s m t
  solves : ∀ V, Solves s' V ↔ Solves s V

theorem Compress.refl (s : Store) : Compress s s :=
  ⟨rfl, fun _ => rfl, fun _ h => h, fun _ h => h, fun _ _ => .rfl, fun _ => .rfl⟩

theorem Compress.trans {t u : Store} (h : Compress s t) (h' : Compress t u) : Compress s u where
  isEqTyc := h'.isEqTyc.trans h.isEqTyc
  kind m := (h'.kind m).trans (h.kind m)
  ranked r hr := h'.ranked r (h.ranked r hr)
  closed S hS := h'.closed S (h.closed S hS)
  occurs m t := (h'.occurs m t).trans (h.occurs m t)
  solves V := (h'.solves V).trans (h.solves V)

theorem Compress.not_inst {s' : Store} (h : Compress s s') :
    (∀ t, s'.info m ≠ .inst t) ↔ ∀ t, s.info m ≠ .inst t := by
  rw [not_inst_iff, not_inst_iff, h.kind m]

/-- Skipping one variable of a chain. -/
theorem compress_skip (hr : Ranked s r) {m1 : Meta} (hm : s.info m = .inst (.metaTy m1)) (hm1 : s.info m1 = .inst t)
    : Compress s (s.assign m (.inst t)) := by
  have hne : m1 ≠ m := by
    rintro rfl
    exact absurd (hr m1 _ hm m1 (by simp [Ty.metas])) (Nat.lt_irrefl _)
  have h1 : (s.assign m (.inst t)).info m1 = .inst t := by rw [assign_of_ne _ hne, hm1]
  refine ⟨rfl, fun m' => ?_, fun r hr m' t' h x hx => ?_, fun S hS m' hm' t' h x hx => ?_, fun x u => ?_, fun V => ?_⟩
  · by_cases he : m' = m
    · subst he
      simp [hm, MetaInfo.kind]
    · rw [assign_of_ne _ he]
  · by_cases he : m' = m
    · subst he
      rw [assign_self] at h
      cases h
      exact Nat.lt_trans (hr m1 t hm1 x hx) (hr m' _ hm m1 (by simp [Ty.metas]))
    · rw [assign_of_ne _ he] at h
      exact hr m' t' h x hx
  · by_cases he : m' = m
    · subst he
      rw [assign_self] at h
      cases h
      exact hS m1 (hS m' hm' _ hm m1 (by simp [Ty.metas])) t hm1 x hx
    · rw [assign_of_ne _ he] at h
      exact hS m' hm' t' h x hx
  · constructor
    · intro ho
      induction ho with
      | here hx =>
        refine .here fun t' h' => ?_
        by_cases he : x = m
        · subst he
          exact hx t (assign_self _ _ _)
        · exact hx t' (by rw [assign_of_ne _ he, h'])
      | @inst m' t' h _ ih =>
        by_cases he : m' = m
        · subst he
          rw [assign_self] at h
          cases h
          exact .inst hm (.inst hm1 ih)
        · rw [assign_of_ne _ he] at h
          exact .inst h ih
      | part hu _ ih => exact .part hu ih
    · intro ho
      induction ho with
      | here hx =>
        have he : x ≠ m := fun he => hx _ (he ▸ hm)
        exact .here fun t' => by rw [assign_of_ne _ he]; exact hx t'
      | @inst m' t' h _ ih =>
        by_cases he : m' = m
        · subst he
          rw [hm] at h
          cases h
          exact .inst (assign_self _ _ _) ((occurs_meta_inst h1).1 ih)
        · exact .inst (by rw [assign_of_ne _ he, h]) ih
      | part hu _ ih => exact .part hu ih
  · constructor
    · intro h m'
      by_cases he : m' = m
      · subst he
        have h2 := h.inst (assign_self s m' _)
        have h3 := h.inst h1
        simp only [Sat, hm, Ty.subst]
        rw [h2, h3]
      · have := h m'
        rwa [Sat, assign_of_ne _ he] at this
    · intro h m'
      by_cases he : m' = m
      · subst he
        simp only [Sat, assign_self]
        rw [h.inst hm, Ty.subst, h.inst hm1]
      · have := h m'
        rwa [Sat, assign_of_ne _ he]

theorem assign_inst_self (h : s.info m = i) : s.assign m i = s :=
  Store.ext (fun m' => by
    by_cases he : m' = m
    · rw [he, assign_self, h]
    · rw [assign_of_ne _ he]) rfl

/-- What pruning `t` answers: the type itself, or the end of the chain, which the
    variable then leads to directly. -/
structure Prunes (s : Store) (t : Ty) (s' : Store) (t' : Ty) : Prop where
  compress : Compress s s'
  source : t' = t ∨ ∃ m, t = .metaTy m ∧ s'.info m = .inst t'
  head : ∀ m, t' = .metaTy m → ∀ u, s'.info m ≠ .inst u

theorem prune_returns_below (hr : Ranked s r) (t : Ty) :
    ∃ s' t', Returns (fun n => prune n s t) (s', t') ∧ Prunes s t s' t' ∧ ∀ m, t.height r ≤ r m → s'.info m = s.info
      m := by
  induction t using Smaller.ind (r := r) with
  | h t ih =>
    by_cases hm : ∃ m ty, t = .metaTy m ∧ s.info m = .inst ty
    · obtain ⟨m, ty, rfl, hm⟩ := hm
      obtain ⟨s1, t', hret, hp, hbelow⟩ := ih ty (.inst hr hm)
      have hm1 : s1.info m = .inst ty := by
        rw [hbelow m (Ty.height_le_iff.2 (hr m ty hm)), hm]
      refine ⟨s1.assign m (.inst t'), t', ?_, ⟨?_, .inr ⟨m, rfl, assign_self _ _ _⟩, ?_⟩, ?_⟩
      · refine Returns.succ ?_
        simp only [prune, hm]
        exact hret.bind (.pure _)
      · rcases hp.source with rfl | ⟨m1, rfl, h1⟩
        · rw [assign_inst_self hm1]
          exact hp.compress
        · exact hp.compress.trans (compress_skip (hp.compress.ranked r hr) hm1 h1)
      · rintro x rfl u hx
        have hne : x ≠ m := fun he => hp.head x rfl _ (he ▸ hm1)
        rw [assign_of_ne _ hne] at hx
        exact hp.head x rfl u hx
      · intro x hx
        have h1 : r m < (Ty.metaTy m).height r := Ty.height_le_iff.1 (Nat.le_refl _) m (by simp [Ty.metas])
        have h2 : ty.height r ≤ r m := Ty.height_le_iff.2 (hr m ty hm)
        grind [assign_of_ne]
    · refine ⟨s, t, ⟨1, fun n hn => ?_⟩, ⟨.refl s, .inl rfl, ?_⟩, fun _ _ => rfl⟩
      · obtain ⟨n, rfl⟩ : ∃ k, n = k + 1 := ⟨n - 1, by omega⟩
        cases t with
        | metaTy m =>
          grind [prune]
        | _ => rfl
      · rintro m rfl u hu
        exact hm ⟨m, u, rfl, hu⟩

theorem prune_returns (hr : Ranked s r) (t : Ty) :
    ∃ s' t', Returns (fun n => prune n s t) (s', t') ∧ Prunes s t s' t' := by
  obtain ⟨s', t', hret, hp, -⟩ := prune_returns_below hr t
  exact ⟨s', t', hret, hp⟩

namespace Prunes

variable {s s' : Store} {t t' : Ty} (h : Prunes s t s' t')
include h

theorem value {V : Valuation} (hV : Solves s' V) : t.subst V.ty = t'.subst V.ty := by
  rcases h.source with rfl | ⟨m, rfl, hm⟩
  · rfl
  · exact hV.inst hm

theorem occurs {m : Meta} : Occurs s' m t' ↔ Occurs s m t := by
  rw [← h.compress.occurs]
  rcases h.source with rfl | ⟨m, rfl, hm⟩
  · rfl
  · exact (occurs_meta_inst hm).symm

theorem within {S : Set Meta} (hS : Closed s S) (ht : t.Within S) : t'.Within S := by
  rcases h.source with rfl | ⟨m, rfl, hm⟩
  · exact ht
  · exact h.compress.closed S hS m (ht m (by simp [Ty.metas])) t' hm

theorem smaller {r : Meta → Nat} (hr : Ranked s r) {u : Ty} (hu : u ∈ t'.parts) : Smaller r u t := by
  rcases h.source with rfl | ⟨m, rfl, hm⟩
  · exact .parts hu
  · exact (Smaller.parts hu).trans (.inst (h.compress.ranked r hr) hm)

end Prunes

/-! ## The occurs check -/

variable {s : Store} {r : Meta → Nat}

theorem occursIn_returns (hr : Ranked s r) {m : Meta} (t : Ty) :
    ∃ s' b, Returns (fun n => occursIn m n s t) (s', b) ∧ Compress s s' ∧ (b = true ↔ Occurs s m t) := by
  induction t using Smaller.ind (r := r) generalizing s with
  | h t ih =>
    obtain ⟨s1, t', hret, hp⟩ := prune_returns hr t
    have hr1 := hp.compress.ranked r hr
    -- the components, in any state that the traversal reaches
    have hparts : ∀ u ∈ t'.parts, ∀ s2, Compress s s2 →
        ∃ s3 b, Returns (fun n => occursIn m n s2 u) (s3, b) ∧ Compress s s3 ∧ (b = true ↔ Occurs s m u) := by
      intro u hu s2 hs2
      obtain ⟨s3, b, hret, hc, hb⟩ := ih u (hp.smaller hr hu) (hs2.ranked r hr)
      exact ⟨s3, b, hret, hs2.trans hc, hb.trans (hs2.occurs m u)⟩
    rw [← show Occurs s1 m t' ↔ Occurs s m t from hp.occurs, hp.compress.occurs]
    cases t' with
    | errorTy | varTy =>
      refine ⟨s1, false, .succ ?_, hp.compress, by simp [occurs_parts, Ty.parts]⟩
      simp only [occursIn]
      exact hret.bind (.pure _)
    | metaTy m' =>
      refine ⟨s1, decide (m = m'), .succ ?_, hp.compress, ?_⟩
      · simp only [occursIn]
        exact hret.bind (.pure _)
      · rw [← hp.compress.occurs, occurs_meta (hp.head m' rfl), decide_eq_true_iff]
    | conTy | tupleTy =>
      rw [occurs_parts (by simp)]
      obtain ⟨s', b, h, hc, hb⟩ := anyM_returns hparts hp.compress
      refine ⟨s', b, .succ ?_, hc, hb⟩
      simp only [occursIn]
      exact hret.bind h
    | funTy t1 t2 =>
      rw [occurs_parts (by simp)]
      obtain ⟨s2, b, hret1, hc1, hb1⟩ := hparts t1 (by simp [Ty.parts]) s1 hp.compress
      cases b with
      | true =>
        refine ⟨s2, true, .succ ?_, hc1, by simp [Ty.parts, hb1.1 rfl]⟩
        simp only [occursIn]
        exact hret.bind (hret1.bind (.pure _))
      | false =>
        obtain ⟨s3, b3, hret2, hc2, hb2⟩ := hparts t2 (by simp [Ty.parts]) s2 hc1
        have hno : ¬ Occurs s m t1 := fun ho => Bool.noConfusion (hb1.2 ho)
        refine ⟨s3, b3, .succ ?_, hc2, by simp [Ty.parts, hb2, hno]⟩
        simp only [occursIn]
        exact hret.bind (hret1.bind hret2)

/-! ## Depths -/

/-- A depth is no constraint. -/
theorem compress_univ {m : Meta} {d d' : Int} (hm : s.info m = .univ d) : Compress s (s.assign m (.univ d')) := by
  have hinst : ∀ m' t, (s.assign m (.univ d')).info m' = .inst t ↔ s.info m' = .inst t := by
    intro m' t
    by_cases he : m' = m
    · subst he
      simp [hm]
    · rw [assign_of_ne _ he]
  refine ⟨rfl, fun m' => ?_, fun r hr m' t h => hr m' t ((hinst m' t).1 h),
    fun S hS m' hm' t h => hS m' hm' t ((hinst m' t).1 h), fun x u => ⟨fun ho => ?_, fun ho => ?_⟩, fun V => ?_⟩
  · by_cases he : m' = m
    · subst he
      simp [hm, MetaInfo.kind]
    · rw [assign_of_ne _ he]
  · induction ho with
    | here hx => exact .here fun t h => hx t ((hinst _ t).2 h)
    | inst h _ ih => exact .inst ((hinst _ _).1 h) ih
    | part hu _ ih => exact .part hu ih
  · induction ho with
    | here hx => exact .here fun t h => hx t ((hinst _ t).1 h)
    | inst h _ ih => exact .inst ((hinst _ _).2 h) ih
    | part hu _ ih => exact .part hu ih
  · refine forall_congr' fun m' => ?_
    by_cases he : m' = m
    · subst he
      simp [Sat, hm]
    · rw [Sat, Sat, assign_of_ne _ he]
      rfl

theorem adjustDepth_returns {rc : Bool} {d : Int} {s : St} {r : Meta → Nat} (hr : Ranked s.store r) (t : Ty) :
    ∃ s', Returns (fun n => adjustDepth rc d n s t) s' ∧ Compress s.store s'.store := by
  induction t using Smaller.ind (r := r) generalizing s with
  | h t ih =>
    have hparts : ∀ u ∈ t.parts, ∀ s2 : St, Compress s.store s2.store →
        ∃ s3, Returns (fun n => adjustDepth rc d n s2 u) s3 ∧ Compress s.store s3.store := by
      intro u hu s2 hs2
      obtain ⟨s3, hret, hc⟩ := ih u (.parts hu) (hs2.ranked r hr)
      exact ⟨s3, hret, hs2.trans hc⟩
    cases t with
    | errorTy | varTy => exact ⟨s, .succ (.pure _), .refl _⟩
    | metaTy m =>
      cases hi : s.store.info m with
      | univ d' =>
        refine ⟨if d < d' then assignMV rc s m (.univ d) else s, .succ ?_, ?_⟩
        · simp only [adjustDepth, hi]
          exact .pure _
        · split
          · exact compress_univ hi
          · exact .refl _
      | inst ty =>
        obtain ⟨s', hret, hc⟩ := ih ty (.inst hr hi) hr
        refine ⟨s', .succ ?_, hc⟩
        simpa only [adjustDepth, hi] using hret
      | cls c =>
        refine ⟨s, .succ ?_, .refl _⟩
        simp only [adjustDepth, hi]
        exact .pure _
    | conTy | tupleTy =>
      obtain ⟨s', hret, hc⟩ := appM_returns (I := fun s' : St => Compress s.store s'.store) hparts (.refl _)
      exact ⟨s', .succ hret, hc⟩
    | funTy t1 t2 =>
      obtain ⟨s1, hret1, hc1⟩ := hparts t1 (by simp [Ty.parts]) s (.refl _)
      obtain ⟨s2, hret2, hc2⟩ := hparts t2 (by simp [Ty.parts]) s1 hc1
      exact ⟨s2, .succ (hret1.bind hret2), hc2⟩

/-! ## Equality types -/

/-- What `isEqualityType` answers: the variables that are left must have a class. -/
inductive EqTy (s : Store) : Ty → Prop
  | error : EqTy s .errorTy
  | inst {m : Meta} {t : Ty} : s.info m = .inst t → EqTy s t → EqTy s (.metaTy m)
  | cls {m : Meta} {c : TyClass} : s.info m = .cls c → EqTy s (.metaTy m)
  | con {args : List Ty} {tyc : TyCon} : s.isEqTyc tyc = true → EqTy s (.conTy args tyc)
  | tuple {tys : List Ty} : (∀ t ∈ tys, EqTy s t) → EqTy s (.tupleTy tys)

/-- The variables blackholed on the way are not met again. -/
theorem isEqualityType_returns_of_agree (hr : Ranked s r) (t : Ty) {s' : Store} (hq : s'.isEqTyc = s.isEqTyc)
    (h : ∀ m, r m < t.height r → s'.info m = s.info m) :
    ∃ b, Returns (fun n => isEqualityType n s' t) (s', b) ∧ (b = true ↔ EqTy s t) := by
  induction t using Smaller.ind (r := r) generalizing s' with
  | h t ih =>
    cases t with
    | errorTy => exact ⟨true, .succ (.pure _), by simp [EqTy.error]⟩
    | varTy | funTy => exact ⟨false, .succ (.pure _), by simpa using fun h => nomatch h⟩
    | conTy args tyc =>
      refine ⟨s'.isEqTyc tyc, .succ (.pure _), ?_⟩
      rw [hq]
      exact ⟨.con, fun h => by cases h; assumption⟩
    | tupleTy tys =>
      have hparts : ∀ t ∈ tys, ∀ s2, s2 = s' →
          ∃ s3 b, Returns (fun n => isEqualityType n s2 t) (s3, b) ∧ s3 = s' ∧ (b = true ↔ EqTy s t) := by
        rintro t ht s2 rfl
        have hle := Ty.height_parts (r := r) (show t ∈ (Ty.tupleTy tys).parts from ht)
        obtain ⟨b, hret, hb⟩ := ih t (.parts ht) hq fun m hm => h m (by omega)
        exact ⟨s2, b, hret, rfl, hb⟩
      obtain ⟨s3, b, hret, rfl, hb⟩ := allM_returns hparts rfl
      exact ⟨b, .succ hret, hb.trans ⟨.tuple, fun h => by cases h; assumption⟩⟩
    | metaTy m =>
      have hlt : r m < (Ty.metaTy m).height r := Ty.height_le_iff.1 (Nat.le_refl _) m (by simp [Ty.metas])
      have hm := h m hlt
      cases hi : s.info m with
      | univ d =>
        refine ⟨false, .succ ?_, by simpa using fun h => by cases h <;> simp_all⟩
        simp only [isEqualityType, hm, hi]
        exact .pure _
      | cls c =>
        refine ⟨true, .succ ?_, by simp [EqTy.cls hi]⟩
        simp only [isEqualityType, hm, hi]
        exact .pure _
      | inst ty =>
        have hty : ty.height r ≤ r m := Ty.height_le_iff.2 (hr m ty hi)
        obtain ⟨b, hret, hb⟩ := @ih ty (.inst hr hi) (s'.assign m (.univ 0)) hq fun m' hm' => by
          grind [assign_of_ne]
        refine ⟨b, .succ ?_, hb.trans ⟨.inst hi, fun h => ?_⟩⟩
        · simp only [isEqualityType, hm, hi]
          refine hret.bind ?_
          have hback : (s'.assign m (.univ 0)).assign m (.inst ty) = s' := Store.ext (fun m' => by
            by_cases he : m' = m
            · rw [he, assign_self, hm, hi]
            · rw [assign_of_ne _ he, assign_of_ne _ he]) rfl
          simp only [hback]
          exact .pure _
        · cases h with
          | inst h' ht =>
            rw [hi] at h'
            cases h'
            exact ht
          | cls h' =>
            rw [hi] at h'
            cases h'

theorem isEqualityType_returns (hr : Ranked s r) (t : Ty) :
    ∃ b, Returns (fun n => isEqualityType n s t) (s, b) ∧ (b = true ↔ EqTy s t) :=
  isEqualityType_returns_of_agree hr t rfl fun _ _ => rfl

end Manticore.Typechecker
