/-
  Manticore.Match.Trees — decision trees run as their automaton (match-compile.sml).

  `Tested` is what the analysis records: a path that a test state looks at or a bind state
  binds a variable at, below and before it is bound anew. `GuardsBound` is what the
  translation needs of the cond states, which the analysis does not look at: the paths of
  their variables have AST variables. With it `toTree` answers a tree that runs as the state
  does (`toTree_spec`); without it the translation raises `Fail` (`guardsBound_of_toTree`).
-/

import Manticore.Match.Shape
import Manticore.Match.MatchCompile

namespace Manticore.Match

open Function (update update_self update_of_ne)

variable {E : Type} {rules : List (Rule E)}

/-! ## Used paths -/

inductive Tested (p : Path) : State E → Prop
  | here {id : Nat} {arcs : List (SimplePat × State E)} : Tested p (.test id p arcs)
  | arc {id : Nat} {arg : Path} {arcs : List (SimplePat × State E)} {arc : SimplePat × State E} : arc ∈ arcs →
      p ∉ arc.1.pathsOf → Tested p arc.2 → Tested p (.test id arg arcs)
  | bind {id : Nat} {vmap : VarMap} {q : State E} : p ∈ vmap.map Prod.snd → Tested p (.bind id vmap q)
  | cond {id : Nat} {vmap : VarMap} {e : E} {t f : State E} : Tested p f → Tested p (.cond id vmap e t f)

/-- The variables of every cond state are at paths of `S`, or at paths that an arc above
    brings into scope and that are tested below it. -/
inductive GuardsBound : (Path → Prop) → State E → Prop
  | test {S : Path → Prop} {id : Nat} {arg : Path} {arcs : List (SimplePat × State E)} :
      (∀ arc ∈ arcs, GuardsBound (fun p => S p ∨ (p ∈ arc.1.pathsOf ∧ Tested p arc.2)) arc.2) →
      GuardsBound S (.test id arg arcs)
  | bind {S : Path → Prop} {id : Nat} {vmap : VarMap} {q : State E} : GuardsBound S (.bind id vmap q)
  | cond {S : Path → Prop} {id : Nat} {vmap : VarMap} {e : E} {t f : State E} : (∀ b ∈ vmap, S b.2) →
      GuardsBound S f → GuardsBound S (.cond id vmap e t f)
  | error {S : Path → Prop} {id : Nat} : GuardsBound S (.error id)

theorem mem_pvs_cases {p : Path} {info : Info} {cases : List (SimplePat × State E)} :
    p ∈ (infoOfCases info cases).pvs ↔
      p ∈ info.pvs ∨ ∃ arc ∈ cases, p ∉ arc.1.pathsOf ∧ p ∈ (infoOf arc.2).pvs := by
  induction cases generalizing info with
  | nil => simp [infoOfCases]
  | cons arc cases ih =>
    obtain ⟨pat, arc⟩ := arc
    rw [infoOfCases, ih]
    simp only [List.mem_union_iff, List.mem_filter, List.exists_mem_cons_iff]
    grind

theorem FromRule.infoOf {vmap : VarMap} {c : Option E} {q : State E} (h : FromRule rules vmap c q) :
    (infoOf q).pvs = [] ∧ (infoOf q).fvs = vmap.map Prod.fst := by
  obtain ⟨i, rule, -, rfl, hv, -⟩ := h
  exact ⟨rfl, hv.symm⟩

/-- The analysis records exactly the paths that are tested. -/
theorem mem_pvs_iff {S : List Path} {q : State E} (h : Shape rules S q) {p : Path} :
    p ∈ (infoOf q).pvs ↔ Tested p q := by
  induction h with
  | @test S id arg arcs harg hpaths hshape ih =>
    rw [infoOf, mem_pvs_cases]
    constructor
    · rintro (h | ⟨arc, harc, hno, hp⟩)
      · cases List.mem_singleton.1 h
        exact .here
      · exact .arc harc hno ((ih arc harc).1 hp)
    · intro h
      cases h with
      | here => exact .inl (List.mem_singleton.2 rfl)
      | arc harc hno hp => exact .inr ⟨_, harc, hno, (ih _ harc).2 hp⟩
  | bind hscope hrule =>
    rw [infoOf]
    simp only [hrule.infoOf.1, List.mem_union_iff, List.not_mem_nil, false_or]
    exact ⟨.bind, fun h => by cases h with | bind h => exact h⟩
  | cond hscope hrule hshape ih =>
    rw [infoOf]
    simp only [hrule.infoOf.1, List.mem_union_iff, List.not_mem_nil, false_or, ih]
    exact ⟨.cond, fun h => by cases h with | cond h => exact h⟩
  | error => exact ⟨fun h => (by cases h), fun h => (by cases h)⟩

/-- What is tested is in scope. -/
theorem Tested.scope {S : List Path} {q : State E} (h : Shape rules S q) {p : Path} (ht : Tested p q) : p ∈ S := by
  induction h with
  | test harg hpaths hshape ih =>
    cases ht with
    | here => exact harg
    | arc harc hno hp => exact (List.mem_append.1 (ih _ harc hp)).resolve_left hno
  | bind hscope hrule =>
    cases ht with
    | bind h =>
      obtain ⟨b, hb, rfl⟩ := List.mem_map.1 h
      exact hscope b hb
  | cond hscope hrule hshape ih =>
    cases ht with
    | cond h => exact ih h
  | error => cases ht

/-! ## Stores -/

theorem Store.set_cons (σ : Store) (x : Var) (w : Value) (ρ : Env) : σ.set ((x, w) :: ρ) = (σ.set ρ).set [(x, w)] := by
  funext y
  grind [Store.set]

theorem Store.set_self (σ : Store) (x : Var) (w : Value) : σ.set [(x, w)] x = some w := by
  simp [Store.set]

theorem Store.set_ne (σ : Store) {x y : Var} (w : Value) (h : y ≠ x) : σ.set [(x, w)] y = σ y := by
  simp [Store.set, List.lookup_cons, beq_false_of_ne h]

theorem Store.set_eq {σ : Store} {x : Var} {w : Value} (h : σ x = some w) : σ.set [(x, w)] = σ := by
  funext y
  by_cases hy : y = x
  · rw [hy, σ.set_self, h]
  · rw [σ.set_ne w hy]

theorem lookup_none {ρ : Env} {y : Var} (h : y ∉ ρ.map Prod.fst) : ρ.lookup y = none := by
  grind

theorem lookup_mem {ρ : Env} (hnd : (ρ.map Prod.fst).Nodup) {b : Var × Value} (hb : b ∈ ρ) : ρ.lookup b.1 = some b.2 := by
  induction ρ with
  | nil => cases hb
  | cons b' ρ ih =>
    obtain ⟨x, w⟩ := b'
    obtain ⟨hx, hnd⟩ := List.nodup_cons.1 hnd
    rw [List.lookup_cons]
    grind

/-! ## Bindings -/

theorem bindings_spec {v : Value} {vmap : VarMap} (h : ∀ b ∈ vmap, ∃ w, valueAt v b.2 = some w) :
    ∃ ρ, bindings v vmap = some ρ ∧ ρ.map Prod.fst = vmap.map Prod.fst ∧
      List.Forall₂ (fun b r => valueAt v b.2 = some r.2 ∧ r.1 = b.1) vmap ρ := by
  induction vmap with
  | nil => exact ⟨[], rfl, rfl, .nil⟩
  | cons b vmap ih =>
    obtain ⟨x, p⟩ := b
    obtain ⟨w, hw⟩ := h (x, p) List.mem_cons_self
    obtain ⟨ρ, hρ, hfst, hall⟩ := ih fun b hb => h b (List.mem_cons_of_mem _ hb)
    refine ⟨(x, w) :: ρ, ?_, by simp [hfst], .cons ⟨hw, rfl⟩ hall⟩
    rw [bindings, List.mapM_cons]
    rw [bindings] at hρ
    simp [hw, hρ]

theorem extendEnv_spec {env : MatchCompEnv} {pmap : PMap} {vmap : VarMap} (hnd : (vmap.map Prod.fst).Nodup)
    (h : ∀ b ∈ vmap, pmap b.2 ≠ none) (hne : ∀ b ∈ vmap, ∀ x', pmap b.2 = some x' → b.1 ≠ x') :
    ∃ env', extendEnv env pmap vmap = .ok env' ∧ (∀ b ∈ vmap, pmap b.2 = some (env' b.1)) ∧
      ∀ y, y ∉ vmap.map Prod.fst → env' y = env y := by
  induction vmap generalizing env with
  | nil => exact ⟨env, rfl, by simp, fun _ _ => rfl⟩
  | cons b vmap ih =>
    obtain ⟨x, p⟩ := b
    obtain ⟨hx, hnd⟩ := List.nodup_cons.1 hnd
    obtain ⟨x', hx'⟩ := Option.ne_none_iff_exists'.1 (h (x, p) List.mem_cons_self)
    have hxx : x ≠ x' := hne (x, p) List.mem_cons_self x' hx'
    obtain ⟨env', heq, hall, hother⟩ := @ih (update env x x') hnd
      (fun b hb => h b (List.mem_cons_of_mem _ hb)) fun b hb => hne b (List.mem_cons_of_mem _ hb)
    refine ⟨env', ?_, List.forall_mem_cons.2 ⟨?_, hall⟩, fun y hy => ?_⟩
    · simp only [extendEnv, hx', hxx, ne_eq, not_false_eq_true, if_true, heq]
    · rw [hx', hother x hx, update_self]
    grind

/-- The environment is extended only when every path has a variable. -/
theorem bound_of_extendEnv {env env' : MatchCompEnv} {pmap : PMap} {vmap : VarMap}
    (h : extendEnv env pmap vmap = .ok env') : ∀ b ∈ vmap, pmap b.2 ≠ none := by
  induction vmap generalizing env with
  | nil => simp
  | cons b vmap ih =>
    obtain ⟨x, p⟩ := b
    cases hp : pmap p with
    | none => simp [extendEnv, hp] at h
    | some x' =>
      simp only [extendEnv, hp] at h
      exact List.forall_mem_cons.2 ⟨by simp [hp], ih h⟩

/-! ## Path variables -/

/-- Variables of the surroundings: no rule binds them and they are older than `c`. -/
def Outer (rules : List (Rule E)) (env0 : MatchCompEnv) (c : Nat) (y : Var) : Prop :=
  (∀ rule ∈ rules, y ∉ rule.pat.vars) ∧ (env0 y).stamp < c

/-- Unique binding: the expressions of a rule use its variables and those of the
    surroundings, and the argument is a variable of its own. -/
structure Scoped (fv : E → List Var) (rules : List (Rule E)) (arg : Var) (raiseExn : E) (env0 : MatchCompEnv)
    (c : Nat) : Prop where
  vars : ∀ rule ∈ rules, ∀ x ∈ rule.pat.vars, x.stamp < c ∧ x ≠ arg
  rule : ∀ rule ∈ rules, ∀ e, e = rule.act ∨ rule.cond = some e → ∀ y ∈ fv e, y ∈ rule.pat.vars ∨ Outer rules env0 c y
  raise : ∀ y ∈ fv raiseExn, Outer rules env0 c y
  arg : arg.stamp < c
  nodup : ∀ rule ∈ rules, rule.pat.vars.Nodup

/-- The renaming and the path variables at a state. -/
structure Ready (rules : List (Rule E)) (env0 : MatchCompEnv) (c0 : Nat) (env : MatchCompEnv) (pmap : PMap) (c : Nat) :
    Prop where
  le : c0 ≤ c
  lt : ∀ p x, pmap p = some x → x.stamp < c
  notPat : ∀ p x, pmap p = some x → ∀ rule ∈ rules, x ∉ rule.pat.vars
  outer : ∀ y, Outer rules env0 c0 y → env y = env0 y

/-- The path variables have the values of the argument at the paths. -/
structure Models (rules : List (Rule E)) (env0 : MatchCompEnv) (c0 : Nat) (η : Store) (v : Value) (pmap : PMap)
    (σ : Store) : Prop where
  path : ∀ p x, pmap p = some x → ∃ w, σ x = some w ∧ valueAt v p = some w
  outer : ∀ y, Outer rules env0 c0 y → σ (env0 y) = η y

section

variable {fv : E → List Var} {arg : Var} {raiseExn : E} {env0 env : MatchCompEnv} {c0 c : Nat} {pmap : PMap}

theorem Ready.later {c' : Nat} (h : Ready rules env0 c0 env pmap c) (hc : c ≤ c') : Ready rules env0 c0 env pmap c' :=
  ⟨Nat.le_trans h.le hc, fun p x hp => Nat.lt_of_lt_of_le (h.lt p x hp) hc, h.notPat, h.outer⟩

variable {vmap : VarMap} {cond : Option E} {q : State E}

theorem FromRule.nodup (hs : Scoped fv rules arg raiseExn env0 c0) (h : FromRule rules vmap cond q) :
    (vmap.map Prod.fst).Nodup := by
  obtain ⟨i, rule, hi, -, hvars, -⟩ := h
  exact hvars ▸ hs.nodup rule (List.mem_of_getElem? hi)

/-- The variables of a rule are no path variables. -/
theorem FromRule.ne (hr : Ready rules env0 c0 env pmap c) (h : FromRule rules vmap cond q) :
    ∀ b ∈ vmap, ∀ x', pmap b.2 = some x' → b.1 ≠ x' := by
  obtain ⟨i, rule, hi, -, hvars, -⟩ := h
  rintro b hb x' hx' rfl
  exact hr.notPat _ _ hx' rule (List.mem_of_getElem? hi) (hvars ▸ List.mem_map_of_mem hb)

theorem FromRule.not_outer (h : FromRule rules vmap cond q) {y : Var} (hy : Outer rules env0 c0 y) :
    y ∉ vmap.map Prod.fst := by
  obtain ⟨i, rule, hi, -, hvars, -⟩ := h
  exact hvars ▸ hy.1 rule (List.mem_of_getElem? hi)

theorem FromRule.cond_scope (hs : Scoped fv rules arg raiseExn env0 c0) {e : E} (h : FromRule rules vmap (some e) q)
    : ∀ y ∈ fv e, y ∈ vmap.map Prod.fst ∨ Outer rules env0 c0 y := by
  obtain ⟨i, rule, hi, -, hvars, hcond⟩ := h
  exact hvars ▸ hs.rule rule (List.mem_of_getElem? hi) e (.inr hcond.symm)

/-- A fresh variable for a path. -/
theorem Ready.insert (hs : Scoped fv rules arg raiseExn env0 c0) (h : Ready rules env0 c0 env pmap c) (p : Path) :
    Ready rules env0 c0 env (update pmap p (some ⟨c⟩)) (c + 1) := by
  refine ⟨Nat.le_succ_of_le h.le, fun p' x hx => ?_, fun p' x hx => ?_, h.outer⟩
  · by_cases hp : p' = p
    · grind
    · rw [update_of_ne hp] at hx
      exact Nat.lt_succ_of_lt (h.lt p' x hx)
  · by_cases hp : p' = p
    · subst hp
      rw [update_self] at hx
      cases hx
      intro rule hrule hmem
      exact absurd (hs.vars rule hrule _ hmem).1 (Nat.not_lt_of_le h.le)
    · rw [update_of_ne hp] at hx
      exact h.notPat p' x hx

theorem Models.insert {η : Store} {v w : Value} {σ : Store} (hm : Models rules env0 c0 η v pmap σ)
    (h : Ready rules env0 c0 env pmap c) {p : Path} (hw : valueAt v p = some w) :
    Models rules env0 c0 η v (update pmap p (some ⟨c⟩)) (σ.set [(⟨c⟩, w)]) := by
  refine ⟨fun p' x hx => ?_, fun y hy => ?_⟩
  · by_cases hp : p' = p
    · subst hp
      rw [update_self] at hx
      cases hx
      exact ⟨w, σ.set_self _ w, hw⟩
    · rw [update_of_ne hp] at hx
      have hne : x ≠ ⟨c⟩ := by
        rintro rfl
        exact Nat.lt_irrefl _ (h.lt p' _ hx)
      rw [σ.set_ne w hne]
      exact hm.path p' x hx
  · have hne : env0 y ≠ ⟨c⟩ := by
      intro heq
      have hlt := hy.2
      rw [heq] at hlt
      exact absurd hlt (Nat.not_lt_of_le h.le)
    rw [σ.set_ne w hne]
    exact hm.outer y hy

/-- The variables of a rule, and those of the surroundings, have their values. -/
theorem Models.vars {η : Store} {v : Value} {σ : Store} (hm : Models rules env0 c0 η v pmap σ)
    (hnd : (vmap.map Prod.fst).Nodup) {env' : MatchCompEnv} (henv : ∀ b ∈ vmap, pmap b.2 = some (env' b.1))
    (houter : ∀ y, Outer rules env0 c0 y → env' y = env0 y) :
    ∃ ρ, bindings v vmap = some ρ ∧ ρ.map Prod.fst = vmap.map Prod.fst ∧ ∀ y, y ∈ vmap.map Prod.fst ∨ Outer rules
      env0 c0 y → σ (env' y) = η.set ρ y := by
  obtain ⟨ρ, hρ, hfst, hall⟩ := @bindings_spec v vmap fun b hb => by
    obtain ⟨w, -, hw⟩ := hm.path b.2 _ (henv b hb)
    exact ⟨w, hw⟩
  refine ⟨ρ, hρ, hfst, fun y hy => ?_⟩
  by_cases hmem : y ∈ vmap.map Prod.fst
  · obtain ⟨b, hb, rfl⟩ := List.mem_map.1 hmem
    obtain ⟨i, hi, rfl⟩ := List.mem_iff_getElem.1 hb
    have hlen := hall.length_eq
    have hi' : i < ρ.length := hlen ▸ hi
    obtain ⟨hval, hname⟩ := (List.forall₂_iff_get.1 hall).2 i hi hi'
    simp only [List.get_eq_getElem] at hval hname
    obtain ⟨w, hσ, hw⟩ := hm.path _ _ (henv _ hb)
    rw [hw] at hval
    have hl := lookup_mem (hfst ▸ hnd) (List.getElem_mem hi')
    rw [hname] at hl
    rw [hσ, hval, Store.set, hl]
    rfl
  · have ho := hy.resolve_left hmem
    rw [houter y ho, hm.outer y ho, Store.set, lookup_none (hfst ▸ hmem)]
    rfl

end

end Manticore.Match
