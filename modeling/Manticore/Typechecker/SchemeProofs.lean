/-
  Manticore.Typechecker.SchemeProofs — closing a type and instantiating the scheme.

  All results are about resolved types, every instantiated variable replaced by its
  instance (`Resolved`).
  - `applySubst_returns`: the substitution is made in the resolved type.
  - `genVars_returns`: the variables deeper than the depth, and no others, are replaced by
    the type variables that the map gives them (`GenState.Grows`, `GenState.Ok`).
  - `newMetas_fresh`: one fresh meta variable for each bound variable.
  - `closeTy_instantiate`: both together.
-/

import Manticore.Typechecker.Same
import Manticore.Typechecker.Scheme

namespace Manticore.Typechecker

open Fuel
open List (map_congr_left map_id map_cons map_map mem_append mem_cons nodup_cons mem_map mem_singleton)
open Ty (substL_eq parts metas)
open Function (update update_self update_of_ne)

/-! ## Pruning -/

/-- Nothing but paths was compressed: depths stay, and every instance was one before. -/
structure Pruned (s s' : Store) : Prop where
  compress : Compress s s'
  free : ∀ m, (∀ u, s.info m ≠ .inst u) → s'.info m = s.info m
  inst : ∀ m u, s'.info m = .inst u → ∃ m', s.info m' = .inst u

theorem Pruned.refl (s : Store) : Pruned s s := ⟨.refl s, fun _ _ => rfl, fun m _ h => ⟨m, h⟩⟩

theorem Pruned.trans {s t u : Store} (h : Pruned s t) (h' : Pruned t u) : Pruned s u where
  compress := h.compress.trans h'.compress
  free m hm := by rw [h'.free m (h.compress.not_inst.2 hm), h.free m hm]
  inst m v hv := by
    obtain ⟨m', hm'⟩ := h'.inst m v hv
    exact h.inst m' v hm'

theorem prune_keeps {n : Nat} {s s' : Store} {t t' : Ty} (h : prune n s t = .ok (s', t')) :
    (∀ m, (∀ u, s.info m ≠ .inst u) → s'.info m = s.info m) ∧
      (∀ m u, s'.info m = .inst u → ∃ m', s.info m' = .inst u) ∧ (t' = t ∨ ∃ m, s.info m = .inst t') := by
  induction n generalizing s s' t t' with
  | zero => cases h
  | succ n ih =>
    by_cases hm : ∃ mv ty, t = .metaTy mv ∧ s.info mv = .inst ty
    · obtain ⟨mv, ty, rfl, hm⟩ := hm
      simp only [prune, hm] at h
      obtain ⟨⟨s1, t1⟩, h1, h2⟩ := of_bind_ok h
      grind [Store.assign_of_ne, Store.assign_self]
    · have hr : prune (n + 1) s t = .ok (s, t) := by
        cases t with
        | metaTy mv =>
          grind [prune]
        | _ => rfl
      rw [hr] at h
      cases h
      exact ⟨fun _ _ => rfl, fun m u hu => ⟨m, hu⟩, .inl rfl⟩

theorem prune_pruned {s : Store} {r : Meta → Nat} (hr : Ranked s r) (t : Ty) :
    ∃ s' t', Returns (fun n => prune n s t) (s', t') ∧ Prunes s t s' t' ∧ Pruned s s' := by
  obtain ⟨s', t', hret, hp⟩ := prune_returns hr t
  obtain ⟨N, hN⟩ := id hret
  obtain ⟨hfree, hinst, -⟩ := prune_keeps (hN N (Nat.le_refl N))
  exact ⟨s', t', hret, hp, hp.compress, hfree, hinst⟩

/-! ## Substitution of type variables -/

mutual

/-- Replace the type variables that `subst` has. -/
def Ty.substVars (subst : TVMap) : Ty → Ty
  | .varTy v => (subst v).getD (.varTy v)
  | .conTy args tyc => .conTy (Ty.substVarsL subst args) tyc
  | .funTy t1 t2 => .funTy (t1.substVars subst) (t2.substVars subst)
  | .tupleTy tys => .tupleTy (Ty.substVarsL subst tys)
  | .errorTy => .errorTy
  | .metaTy m => .metaTy m

def Ty.substVarsL (subst : TVMap) : List Ty → List Ty
  | [] => []
  | t :: ts => t.substVars subst :: Ty.substVarsL subst ts

end

@[simp] theorem Ty.substVarsL_eq (subst : TVMap) (ts : List Ty) : Ty.substVarsL subst ts = ts.map (Ty.substVars subst) := by
  induction ts with
  | nil => rfl
  | cons t ts ih => simp [Ty.substVarsL, ih]

theorem Ty.substVars_none (t : Ty) : t.substVars (fun _ => none) = t := by
  induction t using Ty.ind with
  | conTy _ _ ih | tupleTy _ ih => simpa [Ty.substVars] using (map_congr_left ih).trans (map_id _)
  | funTy t1 t2 ih1 ih2 => rw [Ty.substVars, ih1, ih2]
  | _ => rfl

theorem map_eq_of_forall₂ {α β γ : Type} {g : α → γ} {h : β → γ} {xs : List α} {ys : List β}
    (hxy : List.Forall₂ (fun x y => h y = g x) xs ys) : ys.map h = xs.map g := by
  induction hxy with
  | nil => rfl
  | cons hh _ ih => rw [map_cons, map_cons, hh, ih]

theorem applySubst_returns {subst : TVMap} {s : Store} {r : Meta → Nat} {f : Meta → Ty} (hr : Ranked s r)
    (hf : Resolved s f) (t : Ty) :
    ∃ s' t', Returns (fun n => applySubst subst n s t) (s', t') ∧ Pruned s s' ∧
      t'.subst f = (t.subst f).substVars fun v => (subst v).map (Ty.subst f) := by
  induction t using Smaller.ind (r := r) generalizing s with
  | h t ih =>
    obtain ⟨s1, t', hret, hp, hs1⟩ := prune_pruned hr t
    have hval := hp.resolved hf
    -- the components, in any state that the traversal reaches
    have hparts : ∀ u ∈ t'.parts, ∀ s2, Pruned s s2 → ∃ s3 u', Returns (fun n => applySubst subst n s2 u) (s3, u') ∧
        Pruned s s3 ∧ u'.subst f = (u.subst f).substVars fun v => (subst v).map (Ty.subst f) := by
      intro u hu s2 hs2
      obtain ⟨s3, u', hret, hs3, hu'⟩ := ih u (hp.smaller hr hu) (hs2.compress.ranked r hr) (hf.compress hs2.compress)
      exact ⟨s3, u', hret, hs2.trans hs3, hu'⟩
    cases t' with
    | errorTy =>
      refine ⟨s1, t, .succ ?_, hs1, by rw [hval]; rfl⟩
      simp only [applySubst]
      exact hret.bind (.pure _)
    | metaTy m =>
      have hm : f m = .metaTy m := (hf.compress hs1.compress).free (hp.head m rfl)
      refine ⟨s1, .metaTy m, .succ ?_, hs1, by rw [hval, Ty.subst, hm]; rfl⟩
      simp only [applySubst]
      exact hret.bind (.pure _)
    | varTy v =>
      cases hv : subst v with
      | none =>
        refine ⟨s1, .varTy v, .succ ?_, hs1, by rw [hval]; simp [Ty.subst, Ty.substVars, hv]⟩
        simp only [applySubst]
        refine hret.bind ?_
        simp only [hv]
        exact .pure _
      | some u =>
        refine ⟨s1, u, .succ ?_, hs1, by rw [hval]; simp [Ty.subst, Ty.substVars, hv]⟩
        simp only [applySubst]
        refine hret.bind ?_
        simp only [hv]
        exact .pure _
    | conTy args tyc =>
      obtain ⟨s2, args', hret2, hs2, hargs⟩ := mapM_returns hparts hs1
      refine ⟨s2, .conTy args' tyc, .succ ?_, hs2, ?_⟩
      · simp only [applySubst]
        exact hret.bind (hret2.bind (.pure _))
      · rw [hval]
        simp only [Ty.subst, Ty.substVars, substL_eq, Ty.substVarsL_eq, map_map, Ty.conTy.injEq, and_true]
        exact map_eq_of_forall₂ hargs
    | funTy t1 t2 =>
      obtain ⟨s2, t1', hret1, hs2, h1⟩ := hparts t1 (by simp [parts]) s1 hs1
      obtain ⟨s3, t2', hret2, hs3, h2⟩ := hparts t2 (by simp [parts]) s2 hs2
      refine ⟨s3, .funTy t1' t2', .succ ?_, hs3, ?_⟩
      · simp only [applySubst]
        exact hret.bind (hret1.bind (hret2.bind (.pure _)))
      · rw [hval]
        simp only [Ty.subst, Ty.substVars, h1, h2]
    | tupleTy tys =>
      obtain ⟨s2, tys', hret2, hs2, htys⟩ := mapM_returns hparts hs1
      refine ⟨s2, .tupleTy tys', .succ ?_, hs2, ?_⟩
      · simp only [applySubst]
        exact hret.bind (hret2.bind (.pure _))
      · rw [hval]
        simp only [Ty.subst, Ty.substVars, substL_eq, Ty.substVarsL_eq, map_map, Ty.tupleTy.injEq]
        exact map_eq_of_forall₂ htys

/-! ## The variables that are generalised -/

/-- An uninstantiated variable bound deeper than `depth`. -/
def Store.generic (s : Store) (depth : Int) (m : Meta) : Bool :=
  match s.info m with
  | .univ d => decide (depth < d)
  | _ => false

theorem Store.generic_free {s : Store} {depth : Int} {m : Meta} (h : s.generic depth m = true) (u : Ty) :
    s.info m ≠ .inst u := by
  intro hu
  simp [Store.generic, hu] at h

theorem Pruned.generic {s s' : Store} (h : Pruned s s') (depth : Int) (m : Meta) :
    s'.generic depth m = s.generic depth m := by
  by_cases hm : ∃ u, s.info m = .inst u
  · obtain ⟨u, hu⟩ := hm
    have hk := h.compress.kind m
    rw [hu] at hk
    obtain ⟨u', hu'⟩ := MetaInfo.kind_eq_none.1 hk
    simp [Store.generic, hu, hu']
  · rw [Store.generic, Store.generic, h.free m fun u hu => hm ⟨u, hu⟩]

namespace MVMap

variable {env : MVMap} {m : Meta}

theorem find_none : env.find m = none ↔ ∀ p ∈ env, p.1 ≠ m := by
  simp [MVMap.find]

theorem mem_of_find {tv : TVar} (h : env.find m = some tv) : (m, tv) ∈ env := by
  grind [MVMap.find, Option.map_eq_some_iff]

theorem find_of_mem (hnd : (env.map (·.1)).Nodup) {tv : TVar} (h : (m, tv) ∈ env) : env.find m = some tv := by
  cases hf : env.find m with
  | none => exact absurd rfl (find_none.1 hf _ h)
  | some tv' =>
    have he := List.inj_on_of_nodup_map hnd (mem_of_find hf) h rfl
    cases he
    rfl

theorem insert_perm (h : ∀ p ∈ env, p.1 ≠ m) (tv : TVar) : (env.insert m tv).Perm ((m, tv) :: env) := by
  induction env with
  | nil => exact .refl _
  | cons p env ih =>
    rw [MVMap.insert]
    grind

/-- The type variables in place of the generalised variables. -/
def subst (env : MVMap) (m : Meta) : Ty :=
  match env.find m with
  | some tv => .varTy tv.var
  | none => .metaTy m

end MVMap

/-- Every entry is a generalised variable with a fresh type variable of its own. -/
structure GenState.Ok (base : Nat) (depth : Int) (g : GenState) : Prop where
  generic : ∀ p ∈ g.env, g.store.generic depth p.1 = true
  fresh : ∀ p ∈ g.env, base ≤ p.2.var.stamp ∧ p.2.var.stamp < g.stamp ∧ p.2.class_ = none
  keys : (g.env.map (·.1)).Nodup
  vars : (g.env.map (·.2.var)).Nodup
  base_le : base ≤ g.stamp

/-- The map has grown by the generalised variables among `ms`. -/
structure GenState.Grows (depth : Int) (ms : List Meta) (g g' : GenState) : Prop where
  pruned : Pruned g.store g'.store
  mono : ∀ p ∈ g.env, p ∈ g'.env
  keys : ∀ m, (∃ p ∈ g'.env, p.1 = m) ↔ (∃ p ∈ g.env, p.1 = m) ∨ m ∈ ms ∧ g.store.generic depth m = true

namespace GenState

variable {base : Nat} {depth : Int} {g : GenState} {ms ms' : List Meta}

theorem Ok.prune (h : g.Ok base depth) {s : Store} (hs : Pruned g.store s) :
    GenState.Ok base depth { g with store := s } :=
  ⟨fun p hp => by rw [hs.generic]; exact h.generic p hp, h.fresh, h.keys, h.vars, h.base_le⟩

theorem Grows.nil {s : Store} (hs : Pruned g.store s) : Grows depth [] g { g with store := s } :=
  ⟨hs, fun _ h => h, by simp⟩

theorem Grows.trans   {g1 g2 : GenState} (h : Grows depth ms g g1)
    (h' : Grows depth ms' g1 g2) : Grows depth (ms ++ ms') g g2 where
  pruned := h.pruned.trans h'.pruned
  mono p hp := h'.mono p (h.mono p hp)
  keys m := by
    rw [h'.keys, h.keys, h.pruned.generic, mem_append, or_and_right, or_assoc]

theorem Grows.congr {g' : GenState} (h : Grows depth ms g g') (hms : ∀ m, m ∈ ms' ↔ m ∈ ms) :
    Grows depth ms' g g' :=
  ⟨h.pruned, h.mono, fun m => by rw [h.keys, hms]⟩

theorem Grows.generic_find {g' : GenState} (h : Grows depth ms g g') {m : Meta} (hm : m ∈ ms)
    (hg : g.store.generic depth m = true) : ∃ tv, g'.env.find m = some tv := by
  obtain ⟨p, hp, rfl⟩ := (h.keys m).2 (.inr ⟨hm, hg⟩)
  cases hf : g'.env.find p.1 with
  | none => exact absurd rfl (MVMap.find_none.1 hf p hp)
  | some tv => exact ⟨tv, rfl⟩

theorem Ok.find_none (h : g.Ok base depth) {m : Meta} (hm : g.store.generic depth m = false) :
    g.env.find m = none := by
  refine MVMap.find_none.2 fun p hp he => ?_
  have := h.generic p hp
  rw [he, hm] at this
  cases this

/-- Once its generalised variables are in the map, a type is replaced in the same way by
    every later one. -/
theorem Grows.subst_eq {g1 g2 : GenState} (h : Grows depth ms g g1) (h' : Grows depth ms' g1 g2)
    (h2 : g2.Ok base depth) {t : Ty} (ht : t.metas = ms) : t.subst g1.env.subst = t.subst g2.env.subst := by
  refine Ty.subst_congr fun m hm => ?_
  unfold MVMap.subst
  cases hg : g.store.generic depth m with
  | true =>
    obtain ⟨tv, hf⟩ := h.generic_find (ht ▸ hm) hg
    rw [hf, MVMap.find_of_mem h2.keys (h'.mono _ (MVMap.mem_of_find hf))]
  | false =>
    have hg2 : g2.store.generic depth m = false := by rw [h'.pruned.generic, h.pruned.generic, hg]
    have hf2 := h2.find_none hg2
    have hf1 : g1.env.find m = none :=
      MVMap.find_none.2 fun p hp => MVMap.find_none.1 hf2 p (h'.mono p hp)
    rw [hf1, hf2]

end GenState

/-! ## `genVars` -/

variable {base : Nat} {depth : Int}

/-- A type variable for one more variable. -/
theorem newVar_grows   {g : GenState} (hg : g.Ok base depth) {m : Meta}
    (hm : g.store.generic depth m = true) (hno : g.env.find m = none) :
    let g' : GenState := { g.newVar.1 with env := g.newVar.1.env.insert m g.newVar.2 }
    g'.Ok base depth ∧ GenState.Grows depth [m] g g' ∧ (m, g.newVar.2) ∈ g'.env := by
  intro g'
  have hne := MVMap.find_none.1 hno
  have hperm : g'.env.Perm ((m, ⟨⟨g.stamp⟩, none⟩) :: g.env) := MVMap.insert_perm hne _
  have hmem : ∀ p, p ∈ g'.env ↔ p = (m, ⟨⟨g.stamp⟩, none⟩) ∨ p ∈ g.env := fun p => by
    rw [hperm.mem_iff, mem_cons]
  have hstamp : g'.stamp = g.stamp + 1 := rfl
  refine ⟨⟨fun p hp => ?_, fun p hp => ?_, ?_, ?_, ?_⟩, ⟨.refl _, fun p hp => (hmem p).2 (.inr hp), fun m' => ?_⟩,
    (hmem _).2 (.inl rfl)⟩
  · rcases (hmem p).1 hp with rfl | hp
    · exact hm
    · exact hg.generic p hp
  · rcases (hmem p).1 hp with rfl | hp
    · exact ⟨hg.base_le, by rw [hstamp]; exact Nat.lt_succ_self _, rfl⟩
    · obtain ⟨h1, h2, h3⟩ := hg.fresh p hp
      exact ⟨h1, by omega, h3⟩
  · rw [(hperm.map _).nodup_iff, map_cons, nodup_cons]
    exact ⟨by simpa using fun tv htv => absurd rfl (hne (m, tv) htv), hg.keys⟩
  · rw [(hperm.map _).nodup_iff, map_cons, nodup_cons]
    refine ⟨fun hin => ?_, hg.vars⟩
    obtain ⟨p, hp, he⟩ := mem_map.1 hin
    have h2 := (hg.fresh p hp).2.1
    rw [he] at h2
    exact absurd h2 (Nat.lt_irrefl _)
  · have := hg.base_le
    omega
  · simp only [hmem, mem_singleton, or_and_right, exists_or, exists_eq_left]
    grind

/-- What `gen` does to a type from a state of the traversal that began with `s`. -/
def Closes (base : Nat) (depth : Int) (f : Meta → Ty) (gen : Nat → GenState → Ty → Except Failure (GenState × Ty)) (s : Store)
    (t : Ty) : Prop :=
  ∀ g : GenState, Pruned s g.store → g.Ok base depth → ∃ g' t', Returns (fun n => gen n g t) (g', t') ∧
    g'.Ok base depth ∧ GenState.Grows depth (t.subst f).metas g g' ∧ t'.subst f = (t.subst f).subst g'.env.subst

/-- The components from the right, each with the map that the ones behind it leave. -/
theorem mapRightM_closes {f : Meta → Ty} {gen : Nat → GenState → Ty → Except Failure (GenState × Ty)} {s : Store}
    {ts : List Ty} (h : ∀ t ∈ ts, Closes base depth f gen s t) {g : GenState} (hs : Pruned s g.store)
    (hg : g.Ok base depth) :
    ∃ g' ts', Returns (fun n => mapRightM (gen n) g ts) (g', ts') ∧ g'.Ok base depth ∧ GenState.Grows depth
      (Ty.metasL (ts.map (Ty.subst f))) g g' ∧ ts'.map (Ty.subst f) = (ts.map (Ty.subst f)).map
      (Ty.subst g'.env.subst) := by
  induction ts with
  | nil => exact ⟨g, [], .pure _, hg, .nil (.refl _), rfl⟩
  | cons t ts ih =>
    obtain ⟨g1, ts', hret1, hg1, hgr1, h1⟩ := ih fun u hu => h u (List.mem_cons_of_mem _ hu)
    obtain ⟨g2, t', hret2, hg2, hgr2, h2⟩ := h t List.mem_cons_self g1 (hs.trans hgr1.pruned) hg1
    refine ⟨g2, t' :: ts', hret1.bind (hret2.bind (.pure _)), hg2, (hgr1.trans hgr2).congr fun m => ?_, ?_⟩
    · simp only [map_cons, Ty.metasL, mem_append]
      exact or_comm
    · rw [map_cons, map_cons, map_cons, h1, h2]
      congr 1
      refine map_congr_left fun u hu => ?_
      have htup : (Ty.tupleTy (ts.map (Ty.subst f))).subst g1.env.subst = _ := hgr1.subst_eq hgr2 hg2 rfl
      simp only [Ty.subst, substL_eq, Ty.tupleTy.injEq] at htup
      exact List.map_inj_left.1 htup u hu

theorem genVars_returns {s : Store} {r : Meta → Nat} {f : Meta → Ty} (hr : Ranked s r) (hf : Resolved s f) (t : Ty)
    : Closes base depth f (genVars depth) s t := by
  induction t using Smaller.ind (r := r) generalizing s with
  | h t ih =>
    intro g hs hg
    have hrg := hs.compress.ranked r hr
    have hfg := hf.compress hs.compress
    obtain ⟨s1, t', hret, hp, hs1⟩ := prune_pruned hrg t
    have hval := hp.resolved hfg
    have hg1 := hg.prune hs1
    have hgr1 : GenState.Grows depth [] g { g with store := s1 } := .nil hs1
    have hparts : ∀ u ∈ t'.parts, Closes base depth f (genVars depth) s1 u := fun u hu =>
      ih u (hp.smaller hrg hu) (hs1.compress.ranked r hrg) (hfg.compress hs1.compress)
    -- what the cases have to show, the first pruning apart
    suffices hsuff : ∃ g' u, Returns (fun n => genVars depth n g t) (g', u) ∧ g'.Ok base depth ∧
        GenState.Grows depth (t'.subst f).metas { g with store := s1 } g' ∧
        u.subst f = (t'.subst f).subst g'.env.subst by
      obtain ⟨g', u, hret', hg', hgr, hu⟩ := hsuff
      refine ⟨g', u, hret', hg', ?_, by rw [hval, hu]⟩
      rw [hval]
      exact hgr1.trans hgr
    have hsame : GenState.Grows depth [] { g with store := s1 } { g with store := s1 } := .nil (.refl _)
    cases t' with
    | errorTy => exact ⟨_, .errorTy, .succ (by simp only [genVars]; exact hret.bind (.pure _)), hg1, hsame, rfl⟩
    | varTy v => exact ⟨_, t, .succ (by simp only [genVars]; exact hret.bind (.pure _)), hg1, hsame, by rw [hval]; rfl⟩
    | metaTy m =>
      have hfree := hp.head m rfl
      have hm : f m = .metaTy m := (hfg.compress hs1.compress).free hfree
      have hmetas : (f m).metas = [m] := by rw [hm]; rfl
      simp only [Ty.subst, hm]
      -- a variable that stays
      have hstay : s1.generic depth m = false → GenState.Grows depth [m] { g with store := s1 } { g with store := s1 } ∧
          g.env.subst m = .metaTy m := by
        intro hng
        refine ⟨⟨.refl _, fun _ h => h, fun m' => ⟨.inl, fun h => ?_⟩⟩, by rw [MVMap.subst, hg1.find_none hng]⟩
        grind
      cases hi : s1.info m with
      | inst u => exact absurd hi (hfree u)
      | cls c =>
        obtain ⟨h1, h2⟩ := hstay (by simp [Store.generic, hi])
        refine ⟨_, .metaTy m, .succ ?_, hg1, h1, by simp [Ty.subst, hm, h2]⟩
        simp only [genVars]
        exact hret.bind (by simp only [hi]; exact .pure _)
      | univ d =>
        by_cases hd : depth < d
        · have hgen : s1.generic depth m = true := by simp [Store.generic, hi, hd]
          cases hfind : g.env.find m with
          | some tv =>
            refine ⟨_, .varTy tv.var, .succ ?_, hg1, ⟨.refl _, fun _ h => h, fun m' => ⟨.inl, fun h => ?_⟩⟩, ?_⟩
            · simp only [genVars]
              exact hret.bind (by simp only [hi, if_pos hd, hfind]; exact .pure _)
            · rcases h with h | ⟨hm', -⟩
              · exact h
              · exact ⟨(m, tv), MVMap.mem_of_find hfind, (mem_singleton.1 hm').symm⟩
            · simp [Ty.subst, MVMap.subst, hfind]
          | none =>
            obtain ⟨hg2, hgr2, hmem⟩ := newVar_grows hg1 hgen hfind
            refine ⟨_, .varTy (GenState.newVar { g with store := s1 }).2.var, .succ ?_, hg2, hgr2, ?_⟩
            · simp only [genVars]
              exact hret.bind (by simp only [hi, if_pos hd, hfind]; exact .pure _)
            · simp only [Ty.subst, MVMap.subst, MVMap.find_of_mem hg2.keys hmem]
        · have hng : s1.generic depth m = false := by simp [Store.generic, hi, hd]
          obtain ⟨h1, h2⟩ := hstay hng
          refine ⟨_, .metaTy m, .succ ?_, hg1, h1, by simp [Ty.subst, hm, h2]⟩
          simp only [genVars]
          exact hret.bind (by simp only [hi, if_neg hd]; exact .pure _)
    | conTy args tyc =>
      have hall : ∀ u ∈ args, Closes base depth f (genVars depth) s1 u := hparts
      obtain ⟨g2, args', hret2, hg2, hgr2, h2⟩ := mapRightM_closes hall (.refl _) hg1
      refine ⟨g2, .conTy args' tyc, .succ ?_, hg2, ?_, ?_⟩
      · simp only [genVars]
        exact hret.bind (hret2.bind (.pure _))
      · simpa only [Ty.subst, substL_eq, metas] using hgr2
      · simp only [Ty.subst, substL_eq, h2]
    | funTy t1 t2 =>
      obtain ⟨g2, t1', hret1, hg2, hgr2, h1⟩ := hparts t1 (by simp [parts]) _ (.refl _) hg1
      obtain ⟨g3, t2', hret2, hg3, hgr3, h2⟩ := hparts t2 (by simp [parts]) _ hgr2.pruned hg2
      refine ⟨g3, .funTy t1' t2', .succ ?_, hg3, hgr2.trans hgr3, ?_⟩
      · simp only [genVars]
        exact hret.bind (hret1.bind (hret2.bind (.pure _)))
      simp only [Ty.subst, h1, h2, hgr2.subst_eq hgr3 hg3 rfl]
    | tupleTy tys =>
      have hall : ∀ u ∈ tys, Closes base depth f (genVars depth) s1 u := hparts
      obtain ⟨g2, tys', hret2, hg2, hgr2, h2⟩ := mapRightM_closes hall (.refl _) hg1
      refine ⟨g2, .tupleTy tys', .succ ?_, hg2, ?_, ?_⟩
      · simp only [genVars]
        exact hret.bind (hret2.bind (.pure _))
      · simpa only [Ty.subst, substL_eq, metas] using hgr2
      · simp only [Ty.subst, substL_eq, h2]

/-! ## Stamps in use -/

mutual

def Ty.vars : Ty → List TyVar
  | .varTy v => [v]
  | .conTy args _ => Ty.varsL args
  | .funTy t1 t2 => t1.vars ++ t2.vars
  | .tupleTy tys => Ty.varsL tys
  | _ => []

def Ty.varsL : List Ty → List TyVar
  | [] => []
  | t :: ts => t.vars ++ Ty.varsL ts

end

@[simp] theorem Ty.mem_varsL {v : TyVar} {ts : List Ty} : v ∈ Ty.varsL ts ↔ ∃ t ∈ ts, v ∈ t.vars := by
  induction ts with
  | nil => simp [Ty.varsL]
  | cons t ts ih => simp [Ty.varsL, ih]

variable {f : Meta → Ty} {t : Ty} {c : Cells}

theorem Ty.mem_metas_subst {m : Meta} : m ∈ (t.subst f).metas ↔ ∃ m' ∈ t.metas, m ∈ (f m').metas := by
  induction t using Ty.ind with
  | metaTy m' => simp [Ty.subst, metas]
  | conTy | tupleTy =>
    simp only [Ty.subst, substL_eq, metas, Ty.mem_metasL, mem_map, exists_exists_and_eq_and]
    grind
  | funTy t1 t2 ih1 ih2 =>
    simp only [Ty.subst, metas, mem_append, ih1, ih2, or_and_right, exists_or]
  | _ => simp [Ty.subst, metas]

theorem Ty.mem_vars_subst {v : TyVar} (h : v ∈ (t.subst f).vars) : v ∈ t.vars ∨ ∃ m ∈ t.metas, v ∈ (f m).vars := by
  induction t using Ty.ind with
  | metaTy m => exact .inr ⟨m, by simp [metas], h⟩
  | conTy _ _ ih | tupleTy _ ih =>
    simp only [Ty.subst, substL_eq, Ty.vars, Ty.mem_varsL, mem_map, exists_exists_and_eq_and] at h
    obtain ⟨t, ht, h⟩ := h
    refine (ih t ht h).imp (fun h => ?_) fun h => ?_
    · exact Ty.mem_varsL.2 ⟨t, ht, h⟩
    · obtain ⟨m, hm, h⟩ := h
      exact ⟨m, Ty.mem_metasL.2 ⟨t, ht, hm⟩, h⟩
  | funTy t1 t2 ih1 ih2 =>
    grind [Ty.subst, Ty.vars, metas]
  | _ => exact .inl h

/-- Every variable of the type has a stamp below `k`. -/
def Ty.Below (k : Nat) (t : Ty) : Prop := (∀ m ∈ t.metas, m.stamp < k) ∧ ∀ v ∈ t.vars, v.stamp < k

theorem Ty.Below.mono {k k' : Nat} (h : t.Below k) (hk : k ≤ k') : t.Below k' :=
  ⟨fun m hm => Nat.lt_of_lt_of_le (h.1 m hm) hk, fun v hv => Nat.lt_of_lt_of_le (h.2 v hv) hk⟩

theorem Ty.Below.subst {k : Nat} (h : t.Below k) (hf : ∀ m ∈ t.metas, (f m).Below k) : (t.subst f).Below k := by
  constructor
  · intro m hm
    obtain ⟨m', hm', h'⟩ := Ty.mem_metas_subst.1 hm
    exact (hf m' hm').1 m h'
  · intro v hv
    rcases Ty.mem_vars_subst hv with hv | ⟨m, hm, hv⟩
    · exact h.2 v hv
    · exact (hf m hm).2 v hv

/-- No cell in use leads to itself or mentions a stamp that has not been given out. -/
structure Cells.Ok (c : Cells) : Prop where
  acyclic : Acyclic c.store
  issued : ∀ m t, c.store.info m = .inst t → m.stamp < c.stamp ∧ t.Below c.stamp

theorem Cells.Ok.free (h : c.Ok) {m : Meta} (hm : c.stamp ≤ m.stamp) (u : Ty) : c.store.info m ≠ .inst u := by
  intro hu
  have := (h.issued m u hu).1
  omega

theorem Cells.Ok.below (h : c.Ok) (hf : Resolved c.store f) (ht : t.Below c.stamp) : (t.subst f).Below c.stamp := by
  obtain ⟨r, hr⟩ := h.acyclic
  -- a variable resolves to variables of lower rank
  have hrank : ∀ k m, r m < k → m.stamp < c.stamp → (f m).Below c.stamp := by
    intro k
    induction k with
    | zero =>
      intro m hk
      omega
    | succ k ih =>
      intro m hk hm
      by_cases hi : ∃ u, c.store.info m = .inst u
      · obtain ⟨u, hi⟩ := hi
        have hfm := hf m
        rw [hi] at hfm
        rw [hfm]
        have hu := (h.issued m u hi).2
        refine hu.subst fun m' hm' => ih m' ?_ (hu.1 m' hm')
        have := hr m u hi m' hm'
        omega
      · rw [hf.free fun u hu => hi ⟨u, hu⟩]
        exact ⟨fun m' hm' => by rw [mem_singleton.1 hm']; exact hm, fun v hv => by cases hv⟩
  exact ht.subst fun m hm => hrank _ m (Nat.lt_succ_self _) (ht.1 m hm)

/-! ## Fresh meta variables -/

/-- The variables `ρ` are made for `tvs` on the way from `c` to `c'`. -/
structure NewMetas (depth : Int) (c : Cells) (tvs : List TVar) (ρ : TVar → Meta) (c' : Cells) : Prop where
  fresh : ∀ tv ∈ tvs, c.stamp ≤ (ρ tv).stamp ∧ (ρ tv).stamp < c'.stamp
  info : ∀ tv ∈ tvs, c'.store.info (ρ tv) = tv.info depth
  distinct : ∀ tv ∈ tvs, ∀ tv' ∈ tvs, ρ tv = ρ tv' → tv = tv'
  stamp : c.stamp ≤ c'.stamp
  old : ∀ m, (∀ tv ∈ tvs, ρ tv ≠ m) → c'.store.info m = c.store.info m

theorem newMetas_fresh (depth : Int) (c : Cells) {tvs : List TVar} (hnd : (tvs.map (·.var)).Nodup) :
    ∃ ρ c' subst, newMetas depth c tvs = (c', subst, tvs.map fun tv => .metaTy (ρ tv)) ∧ NewMetas depth c tvs ρ c' ∧
      (∀ tv ∈ tvs, subst tv.var = some (.metaTy (ρ tv))) ∧ ∀ v, v ∉ tvs.map (·.var) → subst v = none := by
  induction tvs with
  | nil =>
    refine ⟨fun _ => ⟨0⟩, c, .empty, rfl, ⟨by simp, by simp, by simp, Nat.le_refl _, fun _ _ => rfl⟩, by simp, fun _ _ => rfl⟩
  | cons tv tvs ih =>
    rw [map_cons, nodup_cons] at hnd
    obtain ⟨ρ, c', subst, hnew, hn, hsome, hnone⟩ := ih hnd.2
    have hne : ∀ tv' ∈ tvs, tv' ≠ tv := fun tv' h he => hnd.1 (he ▸ List.mem_map_of_mem h)
    have hself : update ρ tv ⟨c'.stamp⟩ tv = ⟨c'.stamp⟩ := update_self _ _ _
    have hother : ∀ tv' ∈ tvs, update ρ tv ⟨c'.stamp⟩ tv' = ρ tv' :=
      fun tv' h => update_of_ne (hne tv' h) _ _
    have hold : ∀ tv' ∈ tvs, ρ tv' ≠ (⟨c'.stamp⟩ : Meta) := by
      intro tv' h he
      have := (hn.fresh tv' h).2
      rw [he] at this
      exact Nat.lt_irrefl _ this
    refine ⟨update ρ tv ⟨c'.stamp⟩, ⟨c'.store.assign ⟨c'.stamp⟩ (tv.info depth), c'.stamp + 1⟩,
      subst.insert tv.var (.metaTy ⟨c'.stamp⟩), ?_, ⟨?_, ?_, ?_, ?_, ?_⟩, ?_, ?_⟩
    · unfold newMetas at hnew ⊢
      rw [List.foldr_cons, hnew, map_cons, hself]
      simp only [Cells.newMeta, Prod.mk.injEq, List.cons.injEq, true_and]
      exact map_congr_left fun tv' h => by rw [hother tv' h]
    · intro tv' h
      rcases mem_cons.1 h with rfl | h
      · rw [hself]
        exact ⟨hn.stamp, Nat.lt_succ_self _⟩
      · rw [hother tv' h]
        have := hn.fresh tv' h
        exact ⟨this.1, Nat.lt_succ_of_lt this.2⟩
    · intro tv' h
      rcases mem_cons.1 h with rfl | h
      · rw [hself, Store.assign_self]
      · rw [hother tv' h, Store.assign_of_ne _ (hold tv' h), hn.info tv' h]
    · intro tv1 h1 tv2 h2 he
      rcases mem_cons.1 h1 with rfl | hm1 <;> rcases mem_cons.1 h2 with rfl | hm2
      · rfl
      · rw [hself, hother tv2 hm2] at he
        exact absurd he.symm (hold tv2 hm2)
      · rw [hself, hother tv1 hm1] at he
        exact absurd he (hold tv1 hm1)
      · rw [hother tv1 hm1, hother tv2 hm2] at he
        exact hn.distinct tv1 hm1 tv2 hm2 he
    · exact Nat.le_succ_of_le hn.stamp
    · intro m hm
      have h1 := hm tv List.mem_cons_self
      rw [hself] at h1
      rw [Store.assign_of_ne _ h1.symm]
      refine hn.old m fun tv' h => ?_
      rw [← hother tv' h]
      exact hm tv' (List.mem_cons_of_mem _ h)
    · intro tv' h
      rcases mem_cons.1 h with rfl | h
      · rw [hself]
        exact update_self _ _ _
      · have hv : tv'.var ≠ tv.var := fun he => hnd.1 (he ▸ List.mem_map_of_mem h)
        rw [hother tv' h, TVMap.insert, update_of_ne hv, hsome tv' h]
    · intro v hv
      rw [map_cons, mem_cons, not_or] at hv
      rw [TVMap.insert, update_of_ne hv.1, hnone v hv.2]

/-! ## Closing a type -/

theorem Ty.subst_subst (f g : Meta → Ty) (t : Ty) : (t.subst f).subst g = t.subst fun m => (f m).subst g := by
  induction t using Ty.ind with
  | conTy args tyc ih =>
    simp only [Ty.subst, substL_eq, map_map, Ty.conTy.injEq, and_true]
    exact map_congr_left ih
  | tupleTy tys ih =>
    simp only [Ty.subst, substL_eq, map_map, Ty.tupleTy.injEq]
    exact map_congr_left ih
  | funTy t1 t2 ih1 ih2 => simp only [Ty.subst, ih1, ih2]
  | _ => rfl

theorem Ty.subst_substVars {subst : TVMap} (h : ∀ v ∈ t.vars, subst v = none) :
    (t.subst f).substVars subst = t.subst fun m => (f m).substVars subst := by
  induction t using Ty.ind with
  | varTy v => simp [Ty.subst, Ty.substVars, h v (by simp [Ty.vars])]
  | conTy args tyc ih =>
    simp only [Ty.subst, Ty.substVars, substL_eq, Ty.substVarsL_eq, map_map, Ty.conTy.injEq, and_true]
    exact map_congr_left fun u hu => ih u hu fun v hv => h v (Ty.mem_varsL.2 ⟨u, hu, hv⟩)
  | tupleTy tys ih =>
    simp only [Ty.subst, Ty.substVars, substL_eq, Ty.substVarsL_eq, map_map, Ty.tupleTy.injEq]
    exact map_congr_left fun u hu => ih u hu fun v hv => h v (Ty.mem_varsL.2 ⟨u, hu, hv⟩)
  | funTy t1 t2 ih1 ih2 =>
    simp only [Ty.subst, Ty.substVars, ih1 fun v hv => h v (List.mem_append_left _ hv),
      ih2 fun v hv => h v (List.mem_append_right _ hv)]
  | _ => rfl

theorem bindAll_info {env : MVMap} (hnd : (env.map (·.1)).Nodup) (s : Store) (m : Meta) :
    (bindAll env s).info m = match env.find m with | some tv => .inst (.varTy tv.var) | none => s.info m := by
  induction env generalizing s with
  | nil => rfl
  | cons p env ih =>
    rw [map_cons, nodup_cons] at hnd
    show (bindAll env (s.assign p.1 (.inst (.varTy p.2.var)))).info m = _
    rw [ih hnd.2]
    by_cases hp : p.1 = m
    · grind [MVMap.find, MVMap.find_none, Store.assign_self]
    simp [MVMap.find, hp, Ne.symm]

/-- `sigma` is `t` with its variables deeper than `depth`, and no others, replaced by new
    type variables `gen`, one for each, which it binds with the classes of the variables. -/
structure Generalises (c : Cells) (depth : Int) (f : Meta → Ty) (t : Ty) (gen : Meta → TVar) (sigma : TyScheme) : Prop where
  ty : sigma.ty.subst f = t.subst fun m => if c.store.generic depth m then .varTy (gen m).var else .metaTy m
  bound : ∀ tv, tv ∈ sigma.tvs ↔ ∃ m ∈ t.metas, c.store.generic depth m = true ∧ gen m = tv
  once : (sigma.tvs.map (·.var)).Nodup
  distinct : ∀ m ∈ t.metas, ∀ m' ∈ t.metas, c.store.generic depth m = true → c.store.generic depth m' = true →
    (gen m).var = (gen m').var → m = m'
  new : ∀ tv ∈ sigma.tvs, c.stamp ≤ tv.var.stamp
  class_ : ∀ m ∈ t.metas, c.store.generic depth m = true → (gen m).class_ = c.store.classes m

theorem closeTy_generalises (hc : c.Ok) (hf : Resolved c.store f) {ty : Ty} (hty : ty.Below c.stamp) (depth : Int) :
    ∃ c' sigma gen, Returns (fun n => closeTy depth n c ty) (c', sigma) ∧ Generalises c depth f (ty.subst f) gen
      sigma ∧ c'.Ok ∧ c.stamp ≤ c'.stamp ∧
      (∀ m ∈ (ty.subst f).metas, c.store.generic depth m = true → c'.store.info m = .inst (.varTy (gen m).var)) ∧
      (∀ m, (∀ u, c.store.info m ≠ .inst u) → ¬ (m ∈ (ty.subst f).metas ∧ c.store.generic depth m = true) → c'.store.info m = c.store.info m)
      ∧ ∃ f', Resolved c'.store f' ∧ sigma.ty.subst f' = sigma.ty.subst f := by
  obtain ⟨r, hr⟩ := id hc.acyclic
  have hg0 : GenState.Ok c.stamp depth { c with env := [] } :=
    ⟨by simp, by simp, by simp, by simp, Nat.le_refl _⟩
  obtain ⟨g, t', hret, hg, hgr, ht'⟩ := genVars_returns hr hf ty { c with env := [] } (.refl _) hg0
  have hstamp : c.stamp ≤ g.stamp := hg.base_le
  have hkeys : ∀ m, (∃ p ∈ g.env, p.1 = m) ↔ m ∈ (ty.subst f).metas ∧ c.store.generic depth m = true := by
    intro m
    rw [hgr.keys]
    simp
  have hfind : ∀ m ∈ (ty.subst f).metas, c.store.generic depth m = true → ∃ tv, g.env.find m = some tv :=
    fun m hm hgen => hgr.generic_find hm hgen
  have hngen : ∀ m, c.store.generic depth m = false → g.env.find m = none := by
    intro m hm
    refine hg.find_none ?_
    rw [hgr.pruned.generic]
    exact hm
  have hinfo := bindAll_info hg.keys g.store
  have hbelow := hc.below hf hty
  have hgf : Resolved g.store f := hf.compress hgr.pruned.compress
  obtain ⟨gen, hgen⟩ : ∃ gen : Meta → TVar, ∀ m tv, g.env.find m = some tv → gen m = tv :=
    ⟨fun m => (g.env.find m).getD ⟨⟨0⟩, none⟩, fun m tv h => by simp [h]⟩
  -- the map on the variables of the type
  have hsubst : ∀ m ∈ (ty.subst f).metas,
      g.env.subst m = if c.store.generic depth m then .varTy (gen m).var else .metaTy m := by
    grind [MVMap.subst]
  refine ⟨{ g.toCells with store := bindAll g.env g.store }, ⟨g.env.map (·.2), t'⟩, gen, hret.bind (.pure _),
    ⟨?_, ?_, ?_, ?_, ?_, ?_⟩, ⟨⟨r, ?_⟩, ?_⟩, hstamp, ?_, ?_, ?_⟩
  · rw [ht']
    exact Ty.subst_congr hsubst
  · intro tv
    rw [mem_map]
    constructor
    · intro h
      obtain ⟨⟨m, tv'⟩, hp, rfl⟩ := h
      obtain ⟨hm, hgm⟩ := (hkeys m).1 ⟨_, hp, rfl⟩
      exact ⟨m, hm, hgm, hgen m tv' (MVMap.find_of_mem hg.keys hp)⟩
    · intro h
      obtain ⟨m, hm, hgm, rfl⟩ := h
      obtain ⟨tv, htv⟩ := hfind m hm hgm
      exact ⟨(m, tv), MVMap.mem_of_find htv, (hgen m tv htv).symm⟩
  · rw [map_map]
    exact hg.vars
  · intro m hm m' hm' hgm hgm' he
    obtain ⟨tv, htv⟩ := hfind m hm hgm
    obtain ⟨tv', htv'⟩ := hfind m' hm' hgm'
    rw [hgen m tv htv, hgen m' tv' htv'] at he
    have := List.inj_on_of_nodup_map hg.vars (MVMap.mem_of_find htv) (MVMap.mem_of_find htv') he
    exact congrArg Prod.fst this
  · intro tv htv
    obtain ⟨p, hp, rfl⟩ := mem_map.1 htv
    exact (hg.fresh p hp).1
  · intro m hm hgm
    obtain ⟨tv, htv⟩ := hfind m hm hgm
    rw [hgen m tv htv, (hg.fresh _ (MVMap.mem_of_find htv)).2.2]
    unfold Store.generic at hgm
    unfold Store.classes
    split at hgm <;> simp_all
  · intro m t hm
    rw [hinfo] at hm
    split at hm
    · cases hm
      exact fun m' hm' => by cases hm'
    · exact hgr.pruned.compress.ranked r hr m t hm
  · intro m t hm
    rw [hinfo] at hm
    split at hm
    · next tv htv =>
      cases hm
      have hp := MVMap.mem_of_find htv
      have hlt : m.stamp < c.stamp := hbelow.1 m ((hkeys m).1 ⟨_, hp, rfl⟩).1
      refine ⟨Nat.lt_of_lt_of_le hlt hstamp, fun m' hm' => (by cases hm'), fun v hv => ?_⟩
      rw [mem_singleton.1 hv]
      exact (hg.fresh _ hp).2.1
    · obtain ⟨m', hm'⟩ := hgr.pruned.inst m t hm
      have hk := hgr.pruned.compress.kind m
      rw [MetaInfo.kind_eq_none.2 ⟨t, hm⟩] at hk
      obtain ⟨u, hu⟩ := MetaInfo.kind_eq_none.1 hk.symm
      exact ⟨Nat.lt_of_lt_of_le (hc.issued m u hu).1 hstamp, (hc.issued m' t hm').2.mono hstamp⟩
  · grind
  · intro m hfree hno
    have hnone : g.env.find m = none := MVMap.find_none.2 fun p hp he => hno ((hkeys m).1 ⟨p, hp, he⟩)
    rw [hinfo, hnone]
    exact hgr.pruned.free m hfree
  · refine ⟨fun m => (f m).subst g.env.subst, fun m => ?_, ?_⟩
    · rw [hinfo]
      cases htv : g.env.find m with
      | some tv =>
        have hfree := Store.generic_free (hg.generic _ (MVMap.mem_of_find htv))
        simp [hgf.free hfree, Ty.subst, MVMap.subst, htv]
      | none =>
        have hm := hgf m
        cases hi : g.store.info m with
        | inst u =>
          rw [hi] at hm
          simp only [hm, Ty.subst_subst]
        | _ => simp [hgf.free (m := m) (by simp [hi]), Ty.subst, MVMap.subst, htv]
    · -- the generalised variables are gone, so replacing them again changes nothing
      show t'.subst (fun m => (f m).subst g.env.subst) = t'.subst f
      rw [← Ty.subst_subst, ht', Ty.subst_subst]
      grind [Ty.subst_congr, Ty.subst]

/-! ## Instantiating the scheme -/

/-- The variables `ρ` are made for `tvs` on the way from `c` to `c'`; the variables of `c`
    keep their values `g`, those not instantiated also their depths and classes. -/
structure Instantiates (depth : Int) (c : Cells) (g : Meta → Ty) (tvs : List TVar) (ρ : TVar → Meta) (c' : Cells) : Prop where
  fresh : ∀ tv ∈ tvs, c.stamp ≤ (ρ tv).stamp ∧ (ρ tv).stamp < c'.stamp
  info : ∀ tv ∈ tvs, c'.store.info (ρ tv) = tv.info depth
  distinct : ∀ tv ∈ tvs, ∀ tv' ∈ tvs, ρ tv = ρ tv' → tv = tv'
  old : ∀ m, m.stamp < c.stamp → (∀ u, c.store.info m ≠ .inst u) → c'.store.info m = c.store.info m
  resolved : Resolved c'.store g

theorem TVar.info_free (depth : Int) (tv : TVar) (u : Ty) : tv.info depth ≠ .inst u := by
  unfold TVar.info
  split <;> simp

theorem NewMetas.resolved {depth : Int} {c' : Cells} {tvs : List TVar} {ρ : TVar → Meta} {g : Meta → Ty}
    (h : NewMetas depth c tvs ρ c') (hc : c.Ok) (hg : Resolved c.store g) :
    (∀ tv ∈ tvs, g (ρ tv) = .metaTy (ρ tv)) ∧ Resolved c'.store g ∧ Acyclic c'.store := by
  have hnew : ∀ tv ∈ tvs, g (ρ tv) = .metaTy (ρ tv) := fun tv htv => hg.free (hc.free (h.fresh tv htv).1)
  have hinst : ∀ m u, c'.store.info m = .inst u → c.store.info m = .inst u := by
    intro m u hu
    by_cases hm : ∃ tv ∈ tvs, ρ tv = m
    · obtain ⟨tv, htv, rfl⟩ := hm
      rw [h.info tv htv] at hu
      exact absurd hu (tv.info_free depth u)
    · rw [← h.old m fun tv htv he => hm ⟨tv, htv, he⟩, hu]
  refine ⟨hnew, fun m => ?_, ?_⟩
  · by_cases hm : ∃ tv ∈ tvs, ρ tv = m
    · obtain ⟨tv, htv, rfl⟩ := hm
      rw [hnew tv htv, h.info tv htv]
      cases hi : tv.info depth with
      | inst u => exact absurd hi (tv.info_free depth u)
      | _ => rfl
    · rw [h.old m fun tv htv he => hm ⟨tv, htv, he⟩]
      exact hg m
  · obtain ⟨r, hr⟩ := hc.acyclic
    exact ⟨r, fun m u hu => hr m u (hinst m u hu)⟩

/-- Instantiating substitutes fresh variables for the bound ones. -/
theorem instantiate_returns (hc : c.Ok) {g : Meta → Ty} (hg : Resolved c.store g) (depth : Int) {sigma : TyScheme}
    (hnd : (sigma.tvs.map (·.var)).Nodup) :
    ∃ c' t' ρ, Returns (fun n => instantiate depth n c sigma) (c', sigma.tvs.map fun tv => .metaTy (ρ tv), t') ∧
      Instantiates depth c g sigma.tvs ρ c' ∧ ∃ subst : TVMap,
      (∀ tv ∈ sigma.tvs, subst tv.var = some (.metaTy (ρ tv))) ∧ (∀ v, v ∉ sigma.tvs.map (·.var) → subst v = none) ∧
      t'.subst g = (sigma.ty.subst g).substVars subst := by
  obtain ⟨tvs, ty⟩ := sigma
  cases tvs with
  | nil =>
    refine ⟨c, ty, fun _ => ⟨0⟩, .pure _, ⟨by simp, by simp, by simp, fun _ _ _ => rfl, hg⟩, fun _ => none, by simp,
      by simp, ?_⟩
    rw [Ty.substVars_none]
  | cons tv tvs =>
    obtain ⟨ρ, c1, subst, hnew, hn, hsome, hnone⟩ := newMetas_fresh depth c hnd
    obtain ⟨hmeta, hg1, r, hr⟩ := hn.resolved hc hg
    obtain ⟨s', t', hret, hs', ht'⟩ := @applySubst_returns subst _ _ _ hr hg1 ty
    have hfree : ∀ tv' ∈ tv :: tvs, s'.info (ρ tv') = tv'.info depth := by
      intro tv' htv'
      rw [hs'.free _ fun u => by rw [hn.info tv' htv']; exact tv'.info_free depth u, hn.info tv' htv']
    refine ⟨{ c1 with store := s' }, t', ρ, ?_, ⟨hn.fresh, hfree, hn.distinct, fun m hm hu => ?_, hg1.compress hs'.compress⟩,
      subst, hsome, hnone, ?_⟩
    · simp only [instantiate, hnew]
      exact hret.bind (.pure _)
    · have hne : ∀ tv' ∈ tv :: tvs, ρ tv' ≠ m := by
        intro tv' htv' he
        have := (hn.fresh tv' htv').1
        rw [he] at this
        omega
      rw [hs'.free m fun u => by rw [hn.old m hne]; exact hu u, hn.old m hne]
    · have hsub : (fun v => (subst v).map (Ty.subst g)) = subst := by
        funext v
        by_cases hv : v ∈ (tv :: tvs).map (·.var)
        · grind [Ty.subst]
        · simp [hnone v hv]
      rw [ht', hsub]

/-- Closing a type generalises exactly its uninstantiated variables bound deeper than the
    depth, with a bound variable for each, and in every later state in which the scheme's
    type still means the same, instantiating the scheme at any depth gives the type back
    with fresh variables of that depth for the generalised ones and all others shared. -/
theorem closeTy_instantiate {c : Cells} (hc : c.Ok) {ty : Ty} (hty : ty.Below c.stamp) (depth : Int) :
    ∃ f c' sigma gen, Resolved c.store f ∧ Returns (fun n => closeTy depth n c ty) (c', sigma) ∧
      Generalises c depth f (ty.subst f) gen sigma ∧ c'.Ok ∧ c.stamp ≤ c'.stamp ∧
      (∀ m ∈ (ty.subst f).metas, c.store.generic depth m = true → c'.store.info m = .inst (.varTy (gen m).var)) ∧
      (∀ m, (∀ u, c.store.info m ≠ .inst u) → ¬ (m ∈ (ty.subst f).metas ∧ c.store.generic depth m = true) →
        c'.store.info m = c.store.info m) ∧
      (∃ f', Resolved c'.store f' ∧ sigma.ty.subst f' = sigma.ty.subst f) ∧
      ∀ st g, st.Ok → Resolved st.store g → sigma.ty.subst g = sigma.ty.subst f →
        ∀ depth', ∃ st' t' ρ,
          Returns (fun n => instantiate depth' n st sigma) (st', sigma.tvs.map fun tv => .metaTy (ρ tv), t') ∧
          Instantiates depth' st g sigma.tvs ρ st' ∧
          (∀ m ∈ (ty.subst f).metas, c.store.generic depth m = true →
            st'.store.info (ρ (gen m)) = .univ depth' ∧ st'.store.classes (ρ (gen m)) = c.store.classes m) ∧
          t'.subst g = (ty.subst f).subst
            fun m => if c.store.generic depth m then .metaTy (ρ (gen m)) else .metaTy m := by
  obtain ⟨f, hf⟩ := exists_resolved hc.acyclic
  obtain ⟨c', sigma, gen, hret, hsig, hc', hle, hbind, hold, hf'⟩ := closeTy_generalises hc hf hty depth
  refine ⟨f, c', sigma, gen, hf, hret, hsig, hc', hle, hbind, hold, hf', fun st g hst hg hsame depth' => ?_⟩
  obtain ⟨st', t', ρ, hret', hinst, subst, hsome, hnone, ht'⟩ := instantiate_returns hst hg depth' hsig.once
  refine ⟨st', t', ρ, hret', hinst, fun m hm hgm => ?_, ?_⟩
  · have hinfo := hinst.info _ ((hsig.bound _).2 ⟨m, hm, hgm, rfl⟩)
    have hcls := hsig.class_ m hm hgm
    grind [Store.generic, Store.classes, TVar.info]
  have hvars : ∀ v ∈ (ty.subst f).vars, subst v = none := by
    intro v hv
    refine hnone v fun hin => ?_
    obtain ⟨tv, htv, rfl⟩ := mem_map.1 hin
    have h1 := hsig.new tv htv
    have h2 := (hc.below hf hty).2 _ hv
    omega
  rw [ht', hsame, hsig.ty, Ty.subst_substVars hvars]
  refine Ty.subst_congr fun m hm => ?_
  cases hgm : c.store.generic depth m with
  | true => simp [Ty.substVars, hsome _ ((hsig.bound _).2 ⟨m, hm, hgm, rfl⟩)]
  | false => simp [Ty.substVars]

/-- The first variable is bound deeper than the others. -/
def deepCells : Cells := ⟨⟨fun m => .univ (if m = ⟨0⟩ then 1 else 0), fun _ => true, fun _ _ => rfl⟩, 2⟩

theorem deepCells_ok : deepCells.Ok := ⟨⟨fun _ => 0, fun _ _ h => nomatch h⟩, fun _ _ h => nomatch h⟩

theorem closeTy_instantiate_deepCells :
    ∃ c' sigma, Returns (fun n => closeTy 0 n deepCells (.funTy (.metaTy ⟨0⟩) (.metaTy ⟨1⟩))) (c', sigma) ∧ c'.Ok := by
  have hty : (Ty.funTy (.metaTy ⟨0⟩) (.metaTy ⟨1⟩)).Below deepCells.stamp := by
    refine ⟨fun m hm => ?_, fun v hv => nomatch hv⟩
    rcases List.mem_pair.1 hm with rfl | rfl <;> decide
  obtain ⟨_, c', sigma, _, _, hret, _, hc', _⟩ := closeTy_instantiate deepCells_ok hty 0
  exact ⟨c', sigma, hret, hc'⟩

end Manticore.Typechecker
