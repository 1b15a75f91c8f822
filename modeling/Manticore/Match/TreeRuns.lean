/-
  Manticore.Match.TreeRuns — what `toTree` answers (match-compile.sml, `dfaToTrees`).

  The induction is over `Shape`. `Converted` is what an arc's pattern becomes: it matches
  the values that take the arc and gives the paths that are used below their values.
  `Calls` is what is assumed of the functions of the shared states, which are final states
  and the error state.
-/

import Manticore.Match.Trees

namespace Manticore.Match

open Fuel
open TreePat (toPat)

variable {E : Type} {rules : List (Rule E)} {fv : E → List Var} {arg : Var} {raiseExn : E} {env0 env : MatchCompEnv}
  {c0 c : Nat} {pmap : PMap}

/-! ## Patterns -/

structure Converted (rules : List (Rule E)) (env0 : MatchCompEnv) (c0 : Nat) (env : MatchCompEnv) (pmap : PMap)
    (c : Nat) (at_ : Path) (pvs : List Path) (pat : SimplePat) (tp : TreePat) (pmap' : PMap) (c' : Nat) : Prop where
  le : c ≤ c'
  ready : Ready rules env0 c0 env pmap' c'
  hit : ∀ η v σ w, Models rules env0 c0 η v pmap σ → valueAt v at_ = some w → pat.accepts w = true →
    ∃ ρ, patMatch tp.toPat w = some ρ ∧ Models rules env0 c0 η v pmap' (σ.set ρ)
  miss : ∀ w, pat.accepts w = false → patMatch tp.toPat w = none

/-- The arguments of a pattern. -/
structure ConvertedArgs (rules : List (Rule E)) (env0 : MatchCompEnv) (c0 : Nat) (env : MatchCompEnv) (pmap : PMap)
    (c : Nat) (pvs paths : List Path) (r : Nat × PMap × List PatArg) : Prop where
  le : c ≤ r.1
  ready : Ready rules env0 c0 env r.2.1 r.1
  length : r.2.2.length = paths.length
  hit : ∀ η v σ ws, Models rules env0 c0 η v pmap σ → List.Forall₂ (fun p w => valueAt v p = some w) paths ws →
    ∃ ρ, patMatches (r.2.2.map PatArg.toPat) ws = some ρ ∧ Models rules env0 c0 η v r.2.1 (σ.set ρ)

theorem cvtArgs_dom (pvs paths : List Path) (pmap : PMap) (c : Nat) (p : Path) :
    (paths.foldr (cvtArg pvs) (c, pmap, [])).2.1 p ≠ none ↔ pmap p ≠ none ∨ (p ∈ paths ∧ p ∈ pvs) := by
  induction paths with
  | nil => simp
  | cons p' paths ih =>
    rw [List.foldr_cons]
    generalize paths.foldr (cvtArg pvs) (c, pmap, []) = r at ih ⊢
    obtain ⟨c1, pmap1, args1⟩ := r
    by_cases hp : p' ∈ pvs
    · simp only [cvtArg, hp, if_true]
      by_cases h : p = p'
      · subst h
        simp [hp]
      · simp only [Function.update_of_ne h, ih, List.mem_cons, h, false_or]
    · simp only [cvtArg, hp, if_false, ih, List.mem_cons]
      grind

variable {π : Path} {K : Forest E} {q : State E} {m : Nat} {dfa : Dfa E}

/-- An arc gives variables to the paths that are used below it. -/
theorem cvtPat_dom {pvs : List Path} {pat : SimplePat} {tp : TreePat} {pmap' : PMap} {c' : Nat}
    (h : cvtPat pmap π pvs c pat = .ok (tp, pmap', c')) (p : Path) :
    pmap' p ≠ none ↔ pmap p ≠ none ∨ (p ∈ pat.pathsOf ∧ p ∈ pvs) := by
  cases pat with
  | any =>
    cases hx : pmap π with
    | none | some x =>
      simp only [cvtPat, hx] at h
      cases h
      simp [SimplePat.pathsOf]
  | lit l =>
    cases h
    simp [SimplePat.pathsOf]
  | tpl paths =>
    cases h
    exact cvtArgs_dom pvs paths pmap c p
  | con dc tys paths =>
    rcases paths with _ | ⟨path, _ | _⟩ <;> cases h
    · simp [SimplePat.pathsOf]
    · exact cvtArgs_dom pvs [path] pmap c p

theorem cvtArgs_spec (hs : Scoped fv rules arg raiseExn env0 c0) (hr : Ready rules env0 c0 env pmap c)
    (pvs paths : List Path) :
    ConvertedArgs rules env0 c0 env pmap c pvs paths (paths.foldr (cvtArg pvs) (c, pmap, [])) := by
  induction paths with
  | nil =>
    refine ⟨Nat.le_refl _, hr, rfl, fun η v σ ws hm hall => ?_⟩
    cases hall
    exact ⟨[], rfl, hm⟩
  | cons p paths ih =>
    rw [List.foldr_cons]
    generalize paths.foldr (cvtArg pvs) (c, pmap, []) = r at ih ⊢
    obtain ⟨c1, pmap1, args1⟩ := r
    obtain ⟨hle, hready, hlen, hhit⟩ := ih
    simp only at hle hready hlen hhit
    by_cases hp : p ∈ pvs
    · simp only [cvtArg, hp, if_true]
      refine ⟨Nat.le_succ_of_le hle, hready.insert hs p, congrArg (· + 1) hlen, fun η v σ ws hm hall => ?_⟩
      cases hall with
      | @cons _ w _ ws hw hall =>
        obtain ⟨ρ, hρ, hm1⟩ := hhit η v σ ws hm hall
        refine ⟨(⟨c1⟩, w) :: ρ, ?_, ?_⟩
        · simp only [List.map_cons, PatArg.toPat, patMatches, patMatch, hρ]
          rfl
        · rw [Store.set_cons]
          exact hm1.insert hready hw
    · simp only [cvtArg, hp, if_false]
      refine ⟨hle, hready, congrArg (· + 1) hlen, fun η v σ ws hm hall => ?_⟩
      cases hall with
      | cons hw hall =>
        grind [PatArg.toPat, patMatches, patMatch]

theorem patMatches_length {ps : List Pat} {vs : List Value} (h : ps.length ≠ vs.length) : patMatches ps vs = none := by
  induction ps generalizing vs with
  | nil =>
    cases vs with
    | nil => exact absurd rfl h
    | cons => simp [patMatches]
  | cons p ps ih =>
    cases vs with
    | nil => simp [patMatches]
    | cons v vs =>
      have hlen : ps.length ≠ vs.length := fun he => h (congrArg (· + 1) he)
      rw [patMatches, ih hlen]
      cases patMatch p v <;> rfl

theorem cvtPat_spec (hs : Scoped fv rules arg raiseExn env0 c0) (hr : Ready rules env0 c0 env pmap c)
    (pvs : List Path) {pat : SimplePat} (hp : ArcPaths π pat) :
    ∃ tp pmap' c', cvtPat pmap π pvs c pat = .ok (tp, pmap', c') ∧ Converted rules env0 c0 env pmap c π pvs pat tp
      pmap' c' := by
  cases pat with
  | any =>
    cases hx : pmap π with
    | none =>
      refine ⟨.wild, pmap, c, by simp only [cvtPat, hx], Nat.le_refl _, hr,
        fun η v σ w hm _ _ => ⟨[], by rw [toPat, patMatch], hm⟩, fun w h => by cases h⟩
    | some x =>
      refine ⟨.var x, pmap, c, by simp only [cvtPat, hx], Nat.le_refl _, hr,
        fun η v σ w hm hw _ => ⟨[(x, w)], by rw [toPat, patMatch], ?_⟩, fun w h => by cases h⟩
      obtain ⟨w', hσ, hw'⟩ := hm.path π x hx
      rw [hw] at hw'
      cases hw'
      rw [Store.set_eq hσ]
      exact hm
  | lit l =>
    refine ⟨.lit l, pmap, c, rfl, Nat.le_refl _, hr, fun η v σ w hm _ ha => ⟨[], ?_, hm⟩,
      fun w ha => ?_⟩
    · cases w with
      | lit l' =>
        rw [toPat, patMatch]
        exact if_pos (eq_of_beq ha)
      | _ => cases ha
    · cases w with
      | lit l' =>
        rw [toPat, patMatch]
        exact if_neg (ne_of_beq_false ha)
      | con | conApp | tuple | other => simp [toPat, patMatch]
  | tpl paths =>
    obtain ⟨n, rfl⟩ := hp
    have hargs := cvtArgs_spec hs hr pvs ((List.range n).map π.extend)
    refine ⟨_, _, _, rfl, hargs.le, hargs.ready, fun η v σ w hm hw ha => ?_, fun w ha => ?_⟩
    · cases w with
      | tuple vs =>
        have hlen : n = vs.length := by simpa [SimplePat.accepts] using ha
        have hall : List.Forall₂ (fun p w => valueAt v p = some w) ((List.range n).map π.extend) vs := by
          simp [List.forall₂_iff_get, hlen, valueAt_extend, hw]
        obtain ⟨ρ, hρ, hm'⟩ := hargs.hit η v σ vs hm hall
        exact ⟨ρ, by rw [toPat, patMatch, hρ], hm'⟩
      | _ => cases ha
    · cases w with
      | tuple vs =>
        rw [toPat, patMatch]
        refine patMatches_length ?_
        rw [List.length_map, hargs.length]
        exact ne_of_beq_false ha
      | con | conApp | lit | other => simp [toPat, patMatch]
  | con dc tys paths =>
    obtain rfl | rfl := hp
    · refine ⟨.con dc tys [], pmap, c, rfl, Nat.le_refl _, hr,
        fun η v σ w hm _ ha => ⟨[], ?_, hm⟩, fun w ha => ?_⟩
      · cases w with
        | con c' =>
          rw [toPat, patMatch]
          exact if_pos ha
        | _ => cases ha
      · cases w with
        | con c' =>
          rw [toPat, patMatch]
          exact if_neg (Bool.eq_false_iff.1 ha)
        | conApp | tuple | lit | other => simp [toPat, patMatch]
    · have hargs := cvtArgs_spec hs hr pvs [π.extend 0]
      have hfold : [π.extend 0].foldr (cvtArg pvs) (c, pmap, []) = cvtArg pvs (π.extend 0) (c, pmap, []) := rfl
      rw [hfold] at hargs
      obtain ⟨a, ha⟩ : ∃ a, (cvtArg pvs (π.extend 0) (c, pmap, [])).2.2 = [a] := List.length_eq_one_iff.1 hargs.length
      refine ⟨.con dc tys [a], _, _, by simp only [cvtPat, ← ha], hargs.le, hargs.ready,
        fun η v σ w hm hw hacc => ?_, fun w hacc => ?_⟩
      · cases w with
        | conApp c' u =>
          obtain ⟨ρ, hρ, hm'⟩ := hargs.hit η v σ [u] hm (.cons (valueAt_extend hw 0) .nil)
          refine ⟨ρ, ?_, hm'⟩
          rw [toPat, patMatch, if_pos (show dc.same c' = true from hacc)]
          simp only [ha, List.map_cons, List.map_nil, patMatches] at hρ
          simp_all
        | _ => cases hacc
      · cases w with
        | conApp c' u =>
          rw [toPat, patMatch]
          exact if_neg (Bool.eq_false_iff.1 hacc)
        | con | tuple | lit | other => simp [toPat, patMatch]

/-! ## Shared states -/

/-- The value of a tuple expression. -/
def pack : List Value → Value
  | [w] => w
  | ws => .tuple ws

/-- The end of a run, with the values of the action's free variables; `η` is the values of
    the surroundings. -/
def Outcome.result (fv : E → List Var) (raiseExn : E) (η : Store) : Outcome E → Result E
  | .final _ e ρ => .action e ((fv e).map (η.set ρ))
  | .error => .action raiseExn ((fv raiseExn).map η)
  | .stuck => .stuck

/-- The functions of the shared states are their actions. -/
structure Calls (fv : E → List Var) (rules : List (Rule E)) (K : Forest E) (call : Var → Value → Result E) (η : Store) :
    Prop where
  rule : ∀ i rule f, rules[i]? = some rule → K.stateFuns (i + 1) = some f → ∀ vals : List Value,
    vals.length = rule.pat.vars.length →
      call f (pack vals) = .action rule.act ((fv rule.act).map (η.set (rule.pat.vars.zip vals)))
  error : ∀ f, K.stateFuns 0 = some f → call f (.tuple []) = .action K.raiseExn ((fv K.raiseExn).map η)

/-- A state below another. -/
inductive Sub (s : State E) : State E → Prop
  | refl : Sub s s
  | arc {id : Nat} {arg : Path} {arcs : List (SimplePat × State E)} {arc : SimplePat × State E} : arc ∈ arcs →
      Sub s arc.2 → Sub s (.test id arg arcs)
  | bind {id : Nat} {vmap : VarMap} {q : State E} : Sub s q → Sub s (.bind id vmap q)
  | condT {id : Nat} {vmap : VarMap} {e : E} {t f : State E} : Sub s t → Sub s (.cond id vmap e t f)
  | condF {id : Nat} {vmap : VarMap} {e : E} {t f : State E} : Sub s f → Sub s (.cond id vmap e t f)

/-- The shared states below a state have functions. -/
def Defined (K : Forest E) (q : State E) : Prop := ∀ s, Sub s q → 1 < K.rc s.id → ∃ f, K.stateFuns s.id = some f

/-- The tree runs as the state does, guards seeing the variables in scope. -/
def Simulates (fv : E → List Var) (rules : List (Rule E)) (env0 : MatchCompEnv) (c0 : Nat) (K : Forest E) (pmap : PMap)
    (q : State E) (t : DecisionTree E) : Prop :=
  ∀ truth call η v σ, Calls fv rules K call η → Models rules env0 c0 η v pmap σ →
    (treeToAST t).eval fv truth call σ =
      (q.run (fun e ρ => truth e ((fv e).map (η.set ρ))) v).result fv K.raiseExn η

theorem eval_mkTupleExp {σ : Store} {xs : List Var} {ws : List Value} (h : List.Forall₂ (fun x w => σ x = some w) xs ws) :
    (mkTupleExp xs).eval σ = some (pack ws) := by
  have hmap : xs.mapM σ = some ws := by
    induction h with
    | nil => rfl
    | cons hx _ ih =>
      rw [List.mapM_cons, hx, ih]
      rfl
  match xs, ws, h with
  | [], [], _ => rfl
  | [x], [w], .cons hx .nil => exact hx
  | x :: y :: xs, w :: u :: ws, _ =>
    rw [mkTupleExp, VarTuple.eval, hmap, pack]
    · rfl
    · simp
    · simp

theorem lookupPaths_nil (pmap : PMap) : lookupPaths pmap [] = .ok [] := rfl

/-- A bind or cond state goes on to the final state of its rule. -/
theorem nextTree_final (hs : Scoped fv rules arg raiseExn env0 c0) {vmap : VarMap} {cond : Option E}
    (h : FromRule rules vmap cond q) (hdef : 1 < K.rc q.id → ∃ f, K.stateFuns q.id = some f) {env' : MatchCompEnv}
    (henv : ∀ b ∈ vmap, pmap b.2 = some (env' b.1)) (houter : ∀ y, Outer rules env0 c0 y → env' y = env0 y) :
    ∃ t, nextTree K env' pmap c q (toTree K env' pmap c q) = .ok (t, c) ∧ ∀ truth call η v σ, Calls fv rules K call
      η → Models rules env0 c0 η v pmap σ → ∃ ρ, bindings v vmap = some ρ ∧
      (∀ y, y ∈ vmap.map Prod.fst ∨ Outer rules env0 c0 y → σ (env' y) = η.set ρ y) ∧ (treeToAST t).eval fv truth
      call σ = (finish q ρ).result fv K.raiseExn η := by
  have hfvs := h.infoOf
  obtain ⟨i, rule, hi, rfl, hvars, -⟩ := h
  have hrule := List.mem_of_getElem? hi
  have hnd : (vmap.map Prod.fst).Nodup := hvars ▸ hs.nodup rule hrule
  have hvals : ∀ {η : Store} {ρ : Env} {σ : Store}, (∀ y, y ∈ vmap.map Prod.fst ∨ Outer rules env0 c0 y → σ (env' y) = η.set ρ y) →
      (fv rule.act).map (fun x => σ (env' x)) = (fv rule.act).map (η.set ρ) := by
    intro η ρ σ hy
    refine List.map_congr_left fun y hmem => hy y ?_
    rw [hvars]
    exact hs.rule rule hrule _ (.inl rfl) y hmem
  by_cases hrc : 1 < K.rc (i + 1)
  · obtain ⟨f, hf⟩ := hdef hrc
    refine ⟨.call f ((vmap.map Prod.fst).map env' ++ []), ?_, fun truth call η v σ hcall hm => ?_⟩
    · simp only [nextTree, State.id, gt_iff_lt, hrc, if_true]
      simp only [State.id] at hf
      simp only [hf, hfvs.1, hfvs.2, lookupPaths_nil, ok_bind]
    · obtain ⟨ρ, hρ, hfst, hy⟩ := hm.vars hnd henv houter
      refine ⟨ρ, hρ, hy, ?_⟩
      have hargs : List.Forall₂ (fun x w => σ x = some w) ((vmap.map Prod.fst).map env') (ρ.map Prod.snd) := by
        rw [← hfst, List.map_map]
        refine List.forall₂_map_left_iff.2 (List.forall₂_map_right_iff.2 (List.forall₂_same.2 fun b hb => ?_))
        have hmem : b.1 ∈ vmap.map Prod.fst := hfst ▸ List.mem_map_of_mem hb
        simp only [Function.comp_apply]
        rw [hy b.1 (.inl hmem), Store.set, lookup_mem (hfst ▸ hnd) hb]
        rfl
      have hzip : rule.pat.vars.zip (ρ.map Prod.snd) = ρ := by
        rw [← hvars, ← hfst]
        simpa only [List.unzip_eq_map] using List.zip_unzip ρ
      rw [List.append_nil, treeToAST, Exp.eval, eval_mkTupleExp hargs]
      simp only
      rw [hcall.rule i rule f hi hf _ (by rw [← hvars, ← hfst, List.length_map, List.length_map]), hzip]
      rfl
  · refine ⟨.action env' rule.act, ?_, fun truth call η v σ hcall hm => ?_⟩
    · simp only [nextTree, State.id, gt_iff_lt, hrc, if_false, toTree]
    · obtain ⟨ρ, hρ, hfst, hy⟩ := hm.vars hnd henv houter
      refine ⟨ρ, hρ, hy, ?_⟩
      rw [treeToAST, Exp.eval, hvals hy]
      rfl

/-- The other states are not shared, the error state apart. -/
theorem nextTree_inner (hrc : K.rc = dfa.refCnt) (hin : Inner m dfa q) (hdef : Defined K q) {t : DecisionTree E}
    {c' : Nat} (hle : c ≤ c') (h : toTree K env pmap c q = .ok (t, c')) (ht : Simulates fv rules env0 c0 K pmap q t)
    :
    ∃ t c', nextTree K env pmap c q (toTree K env pmap c q) = .ok (t, c') ∧ c ≤ c' ∧ Simulates fv rules env0 c0 K
      pmap q t := by
  have hone : K.rc q.id ≤ 1 → ∃ t c', nextTree K env pmap c q (toTree K env pmap c q) = .ok (t, c') ∧ c ≤ c' ∧
      Simulates fv rules env0 c0 K pmap q t := by
    intro h1
    refine ⟨t, c', ?_, hle, ht⟩
    rw [nextTree, if_neg (Nat.not_lt_of_le h1), h]
  cases hin with
  | test _ _ h1 | bind _ _ h1 | cond _ _ h1 => exact hone (hrc ▸ h1)
  | error =>
    by_cases h1 : 1 < K.rc 0
    · obtain ⟨f, hf⟩ := hdef _ .refl h1
      refine ⟨.call f [], c, ?_, Nat.le_refl c, fun truth call η v σ hcall _ => ?_⟩
      · simp only [State.id] at hf
        simp only [nextTree, State.id, gt_iff_lt, h1, if_true, hf]
        rfl
      · rw [treeToAST, Exp.eval]
        exact hcall.error f hf
    · exact hone (Nat.le_of_not_lt h1)

/-! ## Trees -/

/-- The arcs of a test state. -/
theorem toCases_spec (hs : Scoped fv rules arg raiseExn env0 c0) (hr : Ready rules env0 c0 env pmap c)
    {arcs : List (SimplePat × State E)} (hpaths : ∀ arc ∈ arcs, ArcPaths π arc.1)
    (h : ∀ arc ∈ arcs, ∀ pmap' c', Ready rules env0 c0 env pmap' c' → (∀ p, pmap' p ≠ none ↔ pmap p ≠ none ∨ (p ∈ arc.1.pathsOf ∧ p ∈ (infoOf arc.2).pvs)) → ∃ t c'', nextTree K env pmap' c' arc.2 (toTree K env pmap' c' arc.2) = .ok (t, c'') ∧ c' ≤ c'' ∧ Simulates fv rules env0 c0 K pmap' arc.2 t)
    :
    ∃ cases c', toCases K env pmap c π arcs = .ok (cases, c') ∧ c ≤ c' ∧ ∀ truth call η v σ w, Calls fv rules K call
      η → Models rules env0 c0 η v pmap σ → valueAt v π = some w → evalMatches fv truth call σ w (casesToAST cases)
      = (runArcs (fun e ρ => truth e ((fv e).map (η.set ρ))) v w arcs).result fv K.raiseExn η := by
  induction arcs generalizing c with
  | nil => exact ⟨[], c, rfl, Nat.le_refl c, fun truth call η v σ w _ _ _ => rfl⟩
  | cons arc arcs ih =>
    obtain ⟨tp, pmap1, c1, heq1, hcv⟩ := cvtPat_spec hs hr (infoOf arc.2).pvs (hpaths arc List.mem_cons_self)
    obtain ⟨t, c2, heq2, hle2, ht⟩ := h arc List.mem_cons_self pmap1 c1 hcv.ready (cvtPat_dom heq1)
    obtain ⟨cases, c3, heq3, hle3, hcases⟩ := ih (hr.later (Nat.le_trans hcv.le hle2))
      (fun a ha => hpaths a (List.mem_cons_of_mem _ ha)) fun a ha => h a (List.mem_cons_of_mem _ ha)
    obtain ⟨pat, q⟩ := arc
    refine ⟨(tp, t) :: cases, c3, ?_, Nat.le_trans hcv.le (Nat.le_trans hle2 hle3),
      fun truth call η v σ w hcall hm hw => ?_⟩
    · simp only [toCases, heq1, heq2, heq3, ok_bind]
    · rw [casesToAST, evalMatches, runArcs]
      cases ha : pat.accepts w with
      | true =>
        obtain ⟨ρ, hρ, hm'⟩ := hcv.hit η v σ w hm hw ha
        rw [hρ, if_pos rfl]
        exact ht truth call η v _ hcall hm'
      | false =>
        rw [hcv.miss w ha, if_neg Bool.false_ne_true]
        exact hcases truth call η v σ w hcall hm hw

theorem toTree_spec (hs : Scoped fv rules arg raiseExn env0 c0) (hrc : K.rc = dfa.refCnt)
    (hraise : K.raiseExn = raiseExn) {S : List Path} (hq : Shape rules S q) (hin : Inner m dfa q)
    (hdef : Defined K q) (hr : Ready rules env0 c0 env pmap c) (htested : ∀ p, Tested p q → pmap p ≠ none)
    (hg : GuardsBound (fun p => pmap p ≠ none) q) :
    ∃ t c', toTree K env pmap c q = .ok (t, c') ∧ c ≤ c' ∧ Simulates fv rules env0 c0 K pmap q t := by
  induction hq generalizing env pmap c with
  | @test S id π arcs hπ hpaths hshape ih =>
    cases hg with
    | test hg =>
    cases hin with
    | test _ _ _ hin =>
    obtain ⟨x, hx⟩ := Option.ne_none_iff_exists'.1 (htested π .here)
    obtain ⟨cases, c', heq, hle, hcases⟩ := toCases_spec hs (K := K) hr hpaths fun arc harc pmap' c1 hr1 hdom => by
      have hmem := @mem_pvs_iff E rules _ _ (hshape arc harc)
      have hS : (fun p => pmap' p ≠ none) = fun p => pmap p ≠ none ∨ (p ∈ arc.1.pathsOf ∧ Tested p arc.2) :=
        funext fun p => propext ((hdom p).trans (or_congr_right (and_congr_right fun _ => hmem)))
      have hdef1 : Defined K arc.2 := fun s hsub => hdef s (.arc harc hsub)
      obtain ⟨t, c2, heq, hle, ht⟩ := ih arc harc (hin arc harc) hdef1 hr1 (fun p hp => by
        rw [hdom]
        by_cases hpat : p ∈ arc.1.pathsOf
        · exact .inr ⟨hpat, hmem.2 hp⟩
        · exact .inl (htested p (.arc harc hpat hp))) (hS ▸ hg arc harc)
      exact nextTree_inner hrc (hin arc harc) hdef1 hle heq ht
    refine ⟨.case_ x cases, c', ?_, hle, fun truth call η v σ hcall hm => ?_⟩
    · simp only [toTree, hx, heq, ok_bind]
    · obtain ⟨w, hσ, hw⟩ := hm.path π x hx
      rw [treeToAST, Exp.eval, hσ, State.run, hw]
      exact hcases truth call η v σ w hcall hm hw
  | @bind S id vmap q hscope hrule =>
    obtain ⟨env', heq, henv, hother⟩ := @extendEnv_spec env pmap vmap (hrule.nodup hs)
      (fun b hb => htested _ (.bind (List.mem_map_of_mem hb))) (hrule.ne hr)
    have houter : ∀ y, Outer rules env0 c0 y → env' y = env0 y := fun y hy =>
      (hother y (hrule.not_outer hy)).trans (hr.outer y hy)
    obtain ⟨t, hnext, ht⟩ := nextTree_final hs (c := c) hrule (hdef _ (.bind .refl)) henv houter
    refine ⟨t, c, ?_, Nat.le_refl c, fun truth call η v σ hcall hm => ?_⟩
    · simp only [toTree, heq, hnext, ok_bind]
    · obtain ⟨ρ, hρ, -, heval⟩ := ht truth call η v σ hcall hm
      rw [heval, State.run, hρ]
  | @cond S id vmap e t f hscope hrule hshape ih =>
    cases hg with
    | cond hbound hg =>
    cases hin with
    | cond _ _ _ hin =>
    obtain ⟨env', heq, henv, hother⟩ := @extendEnv_spec env pmap vmap (hrule.nodup hs) hbound (hrule.ne hr)
    have houter : ∀ y, Outer rules env0 c0 y → env' y = env0 y := fun y hy =>
      (hother y (hrule.not_outer hy)).trans (hr.outer y hy)
    have hr' : Ready rules env0 c0 env' pmap c := ⟨hr.le, hr.lt, hr.notPat, houter⟩
    obtain ⟨tt, hnext, ht⟩ := nextTree_final hs (c := c) hrule (hdef _ (.condT .refl)) henv houter
    have hdef' : Defined K f := fun s hsub => hdef s (.condF hsub)
    obtain ⟨tf0, c0', heqf0, hlef0, hf0⟩ := ih hin hdef' hr' (fun p hp => htested p (.cond hp)) hg
    obtain ⟨tf, c', heqf, hlef, hf⟩ := nextTree_inner hrc hin hdef' hlef0 heqf0 hf0
    refine ⟨.if_ env' e tt tf, c', ?_, hlef, fun truth call η v σ hcall hm => ?_⟩
    · simp only [toTree, heq, hnext, heqf, ok_bind]
    · obtain ⟨ρ, hρ, hy, heval⟩ := ht truth call η v σ hcall hm
      have hvals : (fv e).map (fun x => σ (env' x)) = (fv e).map (η.set ρ) :=
        List.map_congr_left fun y hmem => hy y (hrule.cond_scope hs y hmem)
      rw [treeToAST, Exp.eval, hvals, heval, hf truth call η v σ hcall hm, State.run, hρ]
      simp only
      split <;> rfl
  | error =>
    refine ⟨.action env K.raiseExn, c, rfl, Nat.le_refl c, fun truth call η v σ _ hm => ?_⟩
    rw [treeToAST, Exp.eval]
    refine congrArg (Result.action K.raiseExn) (List.map_congr_left fun y hy => ?_)
    have ho := hs.raise y (hraise ▸ hy)
    rw [hr.outer y ho, hm.outer y ho]

/-! ## Failures -/

theorem toTree_of_nextTree (hrc : K.rc = dfa.refCnt) (hin : Inner m dfa q) {r : DecisionTree E × Nat}
    (h : nextTree K env pmap c q (toTree K env pmap c q) = .ok r) :
    q = .error 0 ∨ toTree K env pmap c q = .ok r := by
  have hone : K.rc q.id ≤ 1 → toTree K env pmap c q = .ok r := by
    intro h1
    rwa [nextTree, if_neg (Nat.not_lt_of_le h1)] at h
  cases hin with
  | test _ _ h1 | bind _ _ h1 | cond _ _ h1 => exact .inr (hone (hrc ▸ h1))
  | error => exact .inl rfl

/-- What the translation of an arc came from. -/
theorem toCases_inv {arcs : List (SimplePat × State E)} {r : List (TreePat × DecisionTree E) × Nat}
    (h : toCases K env pmap c π arcs = .ok r) :
    ∀ arc ∈ arcs, ∃ tp pmap' c' c1 r', cvtPat pmap π (infoOf arc.2).pvs c1 arc.1 = .ok (tp, pmap', c') ∧ nextTree K
      env pmap' c' arc.2 (toTree K env pmap' c' arc.2) = .ok r' := by
  induction arcs generalizing c r with
  | nil => simp
  | cons arc arcs ih =>
    obtain ⟨pat, q⟩ := arc
    rw [toCases] at h
    cases hcv : cvtPat pmap π (infoOf q).pvs c pat with
    | error err => simp [hcv, bind, Except.bind] at h
    | ok a =>
      obtain ⟨tp, pmap', c'⟩ := a
      simp only [hcv, ok_bind] at h
      cases hn : nextTree K env pmap' c' q (toTree K env pmap' c' q) with
      | error err => simp [hn, bind, Except.bind] at h
      | ok b =>
        obtain ⟨t, c2⟩ := b
        simp only [hn, ok_bind] at h
        cases hc : toCases K env pmap c2 π arcs with
        | error err => simp [hc, bind, Except.bind] at h
        | ok d => exact List.forall_mem_cons.2 ⟨⟨tp, pmap', c', c, (t, c2), hcv, hn⟩, ih hc⟩

/-- A translation that answers had a variable for every guard. -/
theorem guardsBound_of_toTree (hrc : K.rc = dfa.refCnt) {S : List Path} (hq : Shape rules S q) (hin : Inner m dfa q)
    {r : DecisionTree E × Nat} (h : toTree K env pmap c q = .ok r) : GuardsBound (fun p => pmap p ≠ none) q := by
  induction hq generalizing env pmap c r with
  | @test S id π arcs hπ hpaths hshape ih =>
    cases hin with
    | test _ _ _ hin =>
    cases hx : pmap π with
    | none => simp [toTree, hx] at h
    | some x =>
      simp only [toTree, hx] at h
      cases hc : toCases K env pmap c π arcs with
      | error err => simp [hc, bind, Except.bind] at h
      | ok a =>
        refine .test fun arc harc => ?_
        obtain ⟨tp, pmap', c', c1, r', hcv, hn⟩ := toCases_inv hc arc harc
        have hmem := @mem_pvs_iff E rules _ _ (hshape arc harc)
        have hS : (fun p => pmap' p ≠ none) = fun p => pmap p ≠ none ∨ (p ∈ arc.1.pathsOf ∧ Tested p arc.2) :=
          funext fun p => propext ((cvtPat_dom hcv p).trans (or_congr_right (and_congr_right fun _ => hmem)))
        obtain herr | ht := toTree_of_nextTree hrc (hin arc harc) hn
        · rw [herr]
          exact .error
        · exact hS ▸ ih arc harc (hin arc harc) ht
  | bind => exact .bind
  | @cond S id vmap e t f hscope hrule hshape ih =>
    cases hin with
    | cond _ _ _ hin =>
    rw [toTree] at h
    cases henv : extendEnv env pmap vmap with
    | error err => simp [henv, bind, Except.bind] at h
    | ok env' =>
      simp only [henv, ok_bind] at h
      cases hn : nextTree K env' pmap c t (toTree K env' pmap c t) with
      | error err => simp [hn, bind, Except.bind] at h
      | ok a =>
        simp only [hn, ok_bind] at h
        cases hf : nextTree K env' pmap a.2 f (toTree K env' pmap a.2 f) with
        | error err => simp [hf, bind, Except.bind] at h
        | ok b =>
          refine .cond (bound_of_extendEnv henv) ?_
          obtain herr | ht := toTree_of_nextTree hrc hin hf
          · rw [herr]
            exact .error
          · exact ih hin ht
  | error => exact .error

end Manticore.Match
