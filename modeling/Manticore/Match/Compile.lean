/-
  Manticore.Match.Compile — the simplified match of a rule list runs as its automaton
  (match-compile.sml, `dfaToAST`).

  Only final states and the error state are shared, so the functions of the shared states
  are the actions of rules; `callFun_calls` says what a call of one does.
  `dfaToAST_iff` is the condition under which the translation answers: `GuardsBound`.
-/

import Manticore.Match.Rules
import Manticore.Match.TreeRuns

namespace Manticore.Match

open Fuel
open Typechecker (Ty intTyc)
open Function (update update_of_ne)
open List (mem_cons_of_mem mem_cons_self nodup_cons map_cons append_nil forall_mem_cons mem_map Forall₂)

variable {E : Type} {rules : List (Rule E)} {rc : Nat → Nat}

/-! ## The shared states -/

/-- The states of `P` that are referenced more than once are added. -/
structure Collects (rc : Nat → Nat) (acc : List (State E)) (P : State E → Prop) (shared : List (State E)) : Prop where
  sound : ∀ s ∈ shared, s ∈ acc ∨ (P s ∧ 1 < rc s.id)
  mono : ∀ s ∈ acc, s ∈ shared
  complete : ∀ s, P s → 1 < rc s.id → ∃ s' ∈ shared, s'.id = s.id

namespace Collects

variable {acc acc' acc'' : List (State E)} {P Q : State E → Prop}

theorem nil (acc : List (State E)) : Collects rc acc (fun _ => False) acc := ⟨fun _ h => .inl h, fun _ h => h, by simp⟩

theorem trans (h : Collects rc acc P acc') (h' : Collects rc acc' Q acc'') : Collects rc acc (fun s => P s ∨ Q s) acc'' where
  sound s hs := by
    obtain hs | hs := h'.sound s hs
    · exact (h.sound s hs).imp id fun h => ⟨.inl h.1, h.2⟩
    · exact .inr ⟨.inr hs.1, hs.2⟩
  mono s hs := h'.mono s (h.mono s hs)
  complete s hs h1 := by
    obtain hs | hs := hs
    · obtain ⟨s', hs', hid⟩ := h.complete s hs h1
      exact ⟨s', h'.mono s' hs', hid⟩
    · exact h'.complete s hs h1

theorem congr (h : Collects rc acc P acc') (hPQ : ∀ s, P s ↔ Q s) : Collects rc acc Q acc' := by
  obtain rfl : P = Q := funext fun s => propext (hPQ s)
  exact h

theorem add (q : State E) (acc : List (State E)) : Collects rc acc (· = q) (addShared rc q acc) := by
  unfold addShared
  split
  next h =>
    refine ⟨fun s hs => ?_, fun s hs => mem_cons_of_mem _ hs, ?_⟩
    · grind
    · rintro s rfl -
      exact ⟨_, mem_cons_self, rfl⟩
  next h =>
    refine ⟨fun s hs => .inl hs, fun s hs => hs, ?_⟩
    simp_all

end Collects

theorem sharedOf_final {vmap : VarMap} {cond : Option E} {q : State E} (h : FromRule rules vmap cond q)
    (acc : List (State E)) : Collects rc acc (Sub · q) (sharedOf rc acc q) := by
  obtain ⟨i, rule, -, rfl, -⟩ := h
  refine (Collects.add _ acc).congr fun s => ⟨?_, fun h => ?_⟩
  · rintro rfl
    exact .refl
  · cases h
    rfl

theorem sharedOf_spec {S : List Path} {q : State E} (hq : Shape rules S q) (acc : List (State E)) :
    Collects rc acc (Sub · q) (sharedOf rc acc q) := by
  induction hq generalizing acc with
  | @test S id π arcs hπ hpaths hshape ih =>
    have harcs : Collects rc acc (fun s => ∃ arc ∈ arcs, Sub s arc.2) (sharedOfCases rc acc arcs) := by
      clear hpaths hshape
      induction arcs generalizing acc with
      | nil => exact (Collects.nil acc).congr (by simp)
      | cons arc arcs iha =>
        obtain ⟨pat, q⟩ := arc
        refine ((ih (pat, q) mem_cons_self acc).trans
          (iha (fun arc harc => ih arc (mem_cons_of_mem _ harc)) _)).congr fun s => ?_
        simp only [List.exists_mem_cons_iff]
    refine (harcs.trans (.add _ _)).congr fun s => ⟨?_, fun h => ?_⟩
    · rintro (⟨arc, harc, h⟩ | rfl)
      · exact .arc harc h
      · exact .refl
    · cases h with
      | refl => exact .inr rfl
      | arc harc h => exact .inl ⟨_, harc, h⟩
  | bind hscope hrule =>
    refine ((sharedOf_final hrule acc).trans (.add _ _)).congr fun s => ⟨?_, fun h => ?_⟩
    · rintro (h | rfl)
      · exact .bind h
      · exact .refl
    · cases h with
      | refl => exact .inr rfl
      | bind h => exact .inl h
  | cond hscope hrule hshape ih =>
    refine (((sharedOf_final hrule acc).trans (ih _)).trans (.add _ _)).congr fun s => ⟨?_, fun h => ?_⟩
    · rintro ((h | h) | rfl)
      · exact .condT h
      · exact .condF h
      · exact .refl
    · cases h with
      | refl => exact .inr rfl
      | condT h => exact .inl (.inl h)
      | condF h => exact .inl (.inr h)
  | error =>
    refine (Collects.add _ acc).congr fun s => ⟨?_, fun h => ?_⟩
    · rintro rfl
      exact .refl
    · cases h
      rfl

/-- A final state or the error state, with its variables and its action. -/
def LeafOf (rules : List (Rule E)) (raiseExn : E) (s : State E) (vars : List Var) (e : E) : Prop :=
  (∃ i rule, rules[i]? = some rule ∧ s = .final (i + 1) rule.pat.vars rule.act ∧ vars = rule.pat.vars ∧ e = rule.act) ∨
    (s = .error 0 ∧ vars = [] ∧ e = raiseExn)

theorem FromRule.leaf {vmap : VarMap} {cond : Option E} {q : State E} (h : FromRule rules vmap cond q) (raiseExn : E)
    {s : State E} (hs : Sub s q) : ∃ vars e, LeafOf rules raiseExn s vars e := by
  obtain ⟨i, rule, hi, rfl, -⟩ := h
  cases hs
  exact ⟨_, _, .inl ⟨i, rule, hi, rfl, rfl, rfl⟩⟩

theorem leaf_of_sub {m : Nat} {dfa : Dfa E} {S : List Path} {q : State E} (hq : Shape rules S q) (hin : Inner m dfa q)
    (raiseExn : E) {s : State E} (hs : Sub s q) (h : 1 < dfa.refCnt s.id) : ∃ vars e, LeafOf rules raiseExn s vars e := by
  induction hq with
  | test hπ hpaths hshape ih =>
    cases hin with
    | test _ _ h1 hin =>
      cases hs with
      | refl => exact absurd h (Nat.not_lt_of_le h1)
      | arc harc hs => exact ih _ harc (hin _ harc) hs
  | bind hscope hrule =>
    cases hin with
    | bind _ _ h1 =>
      cases hs with
      | refl => exact absurd h (Nat.not_lt_of_le h1)
      | bind hs => exact hrule.leaf raiseExn hs
  | cond hscope hrule hshape ih =>
    cases hin with
    | cond _ _ h1 hin =>
      cases hs with
      | refl => exact absurd h (Nat.not_lt_of_le h1)
      | condT hs => exact hrule.leaf raiseExn hs
      | condF hs => exact ih hin hs
  | error =>
    cases hs
    exact ⟨[], raiseExn, .inr ⟨rfl, rfl, rfl⟩⟩

/-! ## Their functions -/

section

variable {fv : E → List Var} {arg : Var} {raiseExn : E} {env0 env : MatchCompEnv} {c0 c : Nat}

structure Renamed (env : MatchCompEnv) (c : Nat) (xs : List Var) (r : List Var × MatchCompEnv × Nat) : Prop where
  le : c ≤ r.2.2
  map : xs.map r.2.1 = r.1
  fresh : ∀ x' ∈ r.1, c ≤ x'.stamp ∧ x'.stamp < r.2.2
  nodup : r.1.Nodup
  other : ∀ y, y ∉ xs → r.2.1 y = env y

variable {xs : List Var} {s : State E} {vars : List Var} {e : E} {K : Forest E} {fns : List (TreeFun E)}

theorem renameList_spec (env : MatchCompEnv) (c : Nat) (hnd : xs.Nodup) :
    Renamed env c xs (renameList env c xs) := by
  induction xs with
  | nil => exact ⟨Nat.le_refl c, rfl, by simp [renameList], .nil, fun _ _ => rfl⟩
  | cons x xs ih =>
    obtain ⟨hx, hnd⟩ := nodup_cons.1 hnd
    specialize ih hnd
    rw [renameList]
    generalize renameList env c xs = r at ih ⊢
    obtain ⟨xs', env', c'⟩ := r
    obtain ⟨hle, hmap, hfresh, hnd', hother⟩ := ih
    simp only at hle hmap hfresh hnd' hother
    show Renamed env c (x :: xs) (⟨c'⟩ :: xs', update env' x ⟨c'⟩, c' + 1)
    refine ⟨Nat.le_succ_of_le hle, ?_, ?_, ?_, fun y hy => ?_⟩
    · simp only
      rw [map_cons, Function.update_self, ← hmap]
      refine congrArg _ (List.map_congr_left fun y hy => update_of_ne ?_ _ _)
      rintro rfl
      exact hx hy
    · grind
    · exact nodup_cons.2 ⟨fun h => Nat.lt_irrefl _ (hfresh _ h).2, hnd'⟩
    simp_all

/-- The function of a shared state renames the variables of the rule to its parameters. -/
structure LeafFun (rules : List (Rule E)) (raiseExn : E) (env0 : MatchCompEnv) (c0 : Nat) (s : State E) (vars : List Var)
    (e : E) (env : MatchCompEnv) (fn : TreeFun E) : Prop where
  leaf : LeafOf rules raiseExn s vars e
  body : fn.body = .action env e
  params : vars.map env = fn.params
  nodup : fn.params.Nodup
  fresh : ∀ x ∈ fn.params, c0 ≤ x.stamp
  other : ∀ y, y ∉ vars → env y = env0 y

theorem LeafOf.nodup (hs : Scoped fv rules arg raiseExn env0 c0) (h : LeafOf rules raiseExn s vars e) :
    vars.Nodup := by
  obtain ⟨i, rule, hi, -, rfl, -⟩ | ⟨-, rfl, -⟩ := h
  · exact hs.nodup rule (List.mem_of_getElem? hi)
  · exact .nil

theorem defShared_spec (hs : Scoped fv rules arg raiseExn env0 c0) (hraise : K.raiseExn = raiseExn) (hc : c0 ≤ c)
    (h : LeafOf rules raiseExn s vars e) :
    ∃ fn c' env, defShared K env0 c s = .ok (fn, c') ∧ c ≤ fn.f.stamp ∧ fn.f.stamp < c' ∧ LeafFun rules raiseExn
      env0 c0 s vars e env fn := by
  have hnd := h.nodup hs
  have hr := renameList_spec env0 c hnd
  have hinfo : infoOf s = ⟨[], vars⟩ := by
    obtain ⟨i, rule, -, rfl, rfl, -⟩ | ⟨rfl, rfl, -⟩ := h <;> rfl
  have htree : ∀ env pmap c, toTree K env pmap c s = .ok (.action env e, c) := by
    obtain ⟨i, rule, -, rfl, -, rfl⟩ | ⟨rfl, -, rfl⟩ := h
    · exact fun _ _ _ => rfl
    · exact fun _ _ _ => by rw [toTree, hraise]
  generalize hren : renameList env0 c vars = r at hr
  obtain ⟨vars', env, c'⟩ := r
  refine ⟨⟨⟨c'⟩, vars' ++ [], .action env e⟩, c' + 1, env, ?_, hr.le, Nat.lt_succ_self c', h, rfl, ?_, ?_, ?_, hr.other⟩
  · simp only [defShared, hinfo, freshPaths, hren, htree, ok_bind]
  · rw [append_nil]
    exact hr.map
  · rw [append_nil]
    exact hr.nodup
  · rw [append_nil]
    exact fun x hx => Nat.le_trans hc (hr.fresh x hx).1

/-- The functions of a list of shared states. -/
structure Defines (rules : List (Rule E)) (raiseExn : E) (env0 : MatchCompEnv) (c0 c : Nat) (K : Forest E)
    (qs : List (State E)) (fns : List (TreeFun E)) (K' : Forest E) (c' : Nat) : Prop where
  le : c ≤ c'
  rc : K'.rc = K.rc
  raise : K'.raiseExn = K.raiseExn
  fresh : ∀ fn ∈ fns, c ≤ fn.f.stamp
  nodup : (fns.map TreeFun.f).Nodup
  keep : ∀ id, K.stateFuns id ≠ none → K'.stateFuns id ≠ none
  all : ∀ q ∈ qs, K'.stateFuns q.id ≠ none
  only : ∀ id f, K'.stateFuns id = some f → K.stateFuns id = some f ∨
    ∃ s vars e env fn, fn ∈ fns ∧ s.id = id ∧ fn.f = f ∧ LeafFun rules raiseExn env0 c0 s vars e env fn

theorem defAll_spec (hs : Scoped fv rules arg raiseExn env0 c0) {K : Forest E} (hraise : K.raiseExn = raiseExn)
    (hc : c0 ≤ c) {qs : List (State E)} (hq : ∀ q ∈ qs, ∃ vars e, LeafOf rules raiseExn q vars e) :
    ∃ fns K' c', defAll K env0 c qs = .ok (fns, K', c') ∧ Defines rules raiseExn env0 c0 c K qs fns K' c' := by
  induction qs generalizing K c with
  | nil => exact ⟨[], K, c, rfl, Nat.le_refl c, rfl, rfl, by simp, .nil, fun _ h => h, by simp, fun _ _ h => .inl h⟩
  | cons q qs ih =>
    obtain ⟨vars, e, hleaf⟩ := hq q mem_cons_self
    obtain ⟨fn, c1, env, heq, hle, hlt, hfun⟩ := defShared_spec hs hraise hc hleaf
    obtain ⟨fns, K', c', heq', hd⟩ := @ih c1 { K with stateFuns := update K.stateFuns q.id (some fn.f) }
      hraise (by omega) fun q' hq' => hq q' (mem_cons_of_mem _ hq')
    refine ⟨fn :: fns, K', c', by simp only [defAll, heq, heq', ok_bind], ?_⟩
    have hself : K'.stateFuns q.id ≠ none := hd.keep _ (by simp)
    constructor
    case le => exact Nat.le_trans (by omega) hd.le
    case rc => exact hd.rc
    case raise => exact hd.raise
    case fresh => exact forall_mem_cons.2 ⟨hle, fun fn' h => Nat.le_trans (by omega) (hd.fresh fn' h)⟩
    case nodup =>
      refine nodup_cons.2 ⟨fun h => ?_, hd.nodup⟩
      obtain ⟨fn', hfn', hf⟩ := mem_map.1 h
      have := hd.fresh fn' hfn'
      rw [hf] at this
      omega
    case keep =>
      intro id h
      refine hd.keep id ?_
      by_cases hid : id = q.id
      · subst hid
        simp
      grind
    case all => exact forall_mem_cons.2 ⟨hself, hd.all⟩
    case only =>
      intro id f hf
      obtain h | ⟨s, vars', e', env', fn', hmem, h⟩ := hd.only id f hf
      · by_cases hid : id = q.id
        · grind
        · simp only [update_of_ne hid] at h
          exact .inl h
      · exact .inr ⟨s, vars', e', env', fn', mem_cons_of_mem _ hmem, h⟩

theorem defAll_rc {qs : List (State E)} {K' : Forest E} {c' : Nat} (h : defAll K env0 c qs = .ok (fns, K', c')) :
    K'.rc = K.rc := by
  induction qs generalizing K c fns with
  | nil =>
    cases h
    rfl
  | cons q qs ih =>
    rw [defAll] at h
    cases hq : defShared K env0 c q with
    | error err => simp [hq, bind, Except.bind] at h
    | ok a =>
      simp only [hq, ok_bind] at h
      cases hqs : defAll { K with stateFuns := update K.stateFuns q.id (some a.1.f) } env0 a.2 qs with
      | error err => simp [hqs, bind, Except.bind] at h
      | ok b =>
        grind [ok_bind]

/-! ## Calls -/

theorem patMatches_vars {ws : List Value} (h : xs.length = ws.length) :
    patMatches (xs.map .varPat) ws = some (xs.zip ws) := by
  induction xs generalizing ws with
  | nil =>
    cases ws with
    | nil => rfl
    | cons => cases h
  | cons x xs ih =>
    cases ws with
    | nil => cases h
    | cons w ws =>
      rw [map_cons, patMatches, ih (Nat.succ.inj h), patMatch]
      rfl

theorem set_zip {σ : Store} {xs : List Var} {ws : List Value} (h : xs.length = ws.length) (hnd : xs.Nodup) :
    Forall₂ (fun x w => σ.set (xs.zip ws) x = some w) xs ws := by
  have hfst : (xs.zip ws).map Prod.fst = xs := List.map_fst_zip (Nat.le_of_eq h)
  refine List.forall₂_iff_zip.2 ⟨h, fun {x w} hmem => ?_⟩
  have hl := @lookup_mem (xs.zip ws) (hfst.symm ▸ hnd) (x, w) hmem
  rw [Store.set, hl]
  rfl

theorem set_zip_other {σ : Store} (ws : List Value) {y : Var} (h : y ∉ xs) : σ.set (xs.zip ws) y = σ y := by
  have hno : y ∉ (xs.zip ws).map Prod.fst := fun hmem => by
    obtain ⟨b, hb, rfl⟩ := mem_map.1 hmem
    exact h (List.of_mem_zip hb).1
  rw [Store.set, lookup_none hno]
  rfl

/-- A call binds the parameters, whatever the shape of the parameter list. -/
theorem mkFun_eval (truth : E → List (Option Value) → Bool) {f : Var} {params : List Var} (hnd : params.Nodup)
    (hfresh : ∀ x ∈ params, c0 ≤ x.stamp) (hc : c0 ≤ c) (env : MatchCompEnv) (e : E) (call : Var → Value → Result E)
    (σ : Store) {vals : List Value} (hlen : params.length = vals.length) :
    ∃ σ' : Store, (mkFunWithParams c f params (.rewrite env e)).1.body.eval fv truth call
        (σ.set [((mkFunWithParams c f params (.rewrite env e)).1.param, pack vals)]) =
        .action e ((fv e).map fun y => σ' (env y)) ∧
      Forall₂ (fun x w => σ' x = some w) params vals ∧ ∀ y, y.stamp < c0 → σ' y = σ y := by
  have hparam : ∀ w y, y.stamp < c0 → σ.set [(⟨c⟩, w)] y = σ y := fun w y hy =>
    σ.set_ne w fun h => by subst h; exact absurd hy (Nat.not_lt_of_le hc)
  match params, vals, hlen with
  | [], [], _ => exact ⟨_, rfl, .nil, hparam _⟩
  | [x], [w], _ =>
    refine ⟨_, rfl, .cons (σ.set_self x w) .nil, fun y hy => σ.set_ne w fun h => ?_⟩
    subst h
    exact absurd hy (Nat.not_lt_of_le (hfresh _ mem_cons_self))
  | x :: x' :: xs, w :: w' :: ws, hlen =>
    refine ⟨(σ.set [(⟨c⟩, .tuple (w :: w' :: ws))]).set ((x :: x' :: xs).zip (w :: w' :: ws)), ?_, set_zip hlen hnd,
      fun y hy => ?_⟩
    · simp only [mkFunWithParams, Exp.eval, Store.set_self, pack, evalMatches]
      rw [patMatch, patMatches_vars hlen]
    grind [set_zip_other]

/-- The function group has the functions of the shared states. -/
theorem find_treeToFBs {fns : List (TreeFun E)} (hnd : (fns.map TreeFun.f).Nodup) {fn : TreeFun E} (hfn : fn ∈ fns) :
    ∃ c1, c ≤ c1 ∧ (treeToFBs c fns).1.find? (fun fb => fb.f = fn.f) =
      some (mkFunWithParams c1 fn.f fn.params (treeToAST fn.body)).1 := by
  have hname : ∀ c f params (e : Exp E), (mkFunWithParams c f params e).1.f = f ∧ c ≤ (mkFunWithParams c f params e).2 := by
    intro c f params e
    match params with
    | [] => exact ⟨rfl, Nat.le_succ c⟩
    | [x] => exact ⟨rfl, Nat.le_refl c⟩
    | _ :: _ :: _ => exact ⟨rfl, Nat.le_succ c⟩
  induction fns generalizing c with
  | nil => cases hfn
  | cons fn' fns ih =>
    obtain ⟨hno, hnd⟩ := nodup_cons.1 hnd
    obtain ⟨hf, hle⟩ := hname c fn'.f fn'.params (treeToAST fn'.body)
    rw [treeToFBs]
    obtain rfl | hfn := List.mem_cons.1 hfn
    · exact ⟨c, Nat.le_refl c, List.find?_cons_of_pos (by simp [hf])⟩
    · obtain ⟨c1, hc1, hfind⟩ := @ih (mkFunWithParams c fn'.f fn'.params (treeToAST fn'.body)).2 hnd hfn
      refine ⟨c1, Nat.le_trans hle hc1, (List.find?_cons_of_neg ?_).trans hfind⟩
      grind

/-- A call of a shared state's function is the action of the state. -/
theorem callFun_leaf (hs : Scoped fv rules arg raiseExn env0 c0) (truth : E → List (Option Value) → Bool)
    (hnd : (fns.map TreeFun.f).Nodup) (hc : c0 ≤ c) {env : MatchCompEnv} {fn : TreeFun E} (hfn : fn ∈ fns)
    (h : LeafFun rules raiseExn env0 c0 s vars e env fn) (σ : Store) (n : Nat) {vals : List Value}
    (hlen : vals.length = vars.length) :
    callFun fv truth (treeToFBs c fns).1 σ (n + 1) fn.f (pack vals) = .action e
      ((fv e).map (Store.set (fun y => σ (env0 y)) (vars.zip vals))) := by
  obtain ⟨c1, hc1, hfind⟩ := @find_treeToFBs E c fns hnd fn hfn
  have hplen : fn.params.length = vals.length := by rw [← h.params, List.length_map, hlen]
  obtain ⟨σ', heval, hvals, hother⟩ := @mkFun_eval E fv c0 c1 truth fn.f fn.params h.nodup h.fresh
    (Nat.le_trans hc hc1) env e (callFun fv truth (treeToFBs c fns).1 σ n) σ vals hplen
  rw [callFun, hfind]
  simp only [h.body, treeToAST] at heval ⊢
  rw [heval]
  refine congrArg (Result.action e) (List.map_congr_left fun y hy => ?_)
  by_cases hmem : y ∈ vars
  · obtain ⟨j, hj, rfl⟩ := List.mem_iff_getElem.1 hmem
    have hj' : j < vals.length := hlen ▸ hj
    have hσ := (List.forall₂_iff_get.1 hvals).2 j (hplen ▸ hj') hj'
    have hz := (List.forall₂_iff_get.1 (@set_zip (fun y => σ (env0 y)) vars vals hlen.symm (h.leaf.nodup hs))).2 j hj hj'
    simp only [List.get_eq_getElem] at hσ hz
    rw [hz, ← hσ]
    simp [← h.params]
  · have ho : Outer rules env0 c0 y := by
      obtain ⟨i, rule, hi, -, rfl, rfl⟩ | ⟨-, rfl, rfl⟩ := h.leaf
      · exact (hs.rule rule (List.mem_of_getElem? hi) _ (.inl rfl) y hy).resolve_left hmem
      · exact hs.raise y hy
    rw [set_zip_other _ hmem, h.other y hmem, hother _ ho.2]

/-- The functions of the shared states are their actions. -/
theorem callFun_calls (hs : Scoped fv rules arg raiseExn env0 c0) (truth : E → List (Option Value) → Bool)
    (hnone : ∀ id, K.stateFuns id = none) (hraise : K.raiseExn = raiseExn) {qs : List (State E)} {K' : Forest E}
    {c1 c' : Nat} (hd : Defines rules raiseExn env0 c0 c1 K qs fns K' c') (hc : c0 ≤ c) (σ : Store) (n : Nat) :
    Calls fv rules K' (callFun fv truth (treeToFBs c fns).1 σ (n + 1)) (fun y => σ (env0 y)) := by
  constructor
  case rule =>
    intro i rule f hi hf vals hlen
    obtain h | ⟨s, vars, e, env, fn, hfn, hid, rfl, h⟩ := hd.only _ f hf
    · rw [hnone] at h
      cases h
    · obtain ⟨j, rule', hj, rfl, rfl, rfl⟩ | ⟨rfl, -⟩ := id h.leaf
      · cases Nat.succ.inj hid
        rw [hi] at hj
        cases hj
        exact callFun_leaf hs truth hd.nodup hc hfn h σ n hlen
      · cases hid
  case error =>
    intro f hf
    obtain h | ⟨s, vars, e, env, fn, hfn, hid, rfl, h⟩ := hd.only _ f hf
    · rw [hnone] at h
      cases h
    · obtain ⟨j, rule', -, rfl, -⟩ | ⟨rfl, rfl, rfl⟩ := id h.leaf
      · cases hid
      · rw [hd.raise, hraise, show Value.tuple [] = pack [] from rfl]
        exact callFun_leaf hs truth hd.nodup hc hfn h σ n rfl

/-! ## The match -/

/-- The simplified match runs as the automaton does, on every argument. -/
def RunsAs (fv : E → List Var) (raiseExn : E) (env0 : MatchCompEnv) (dfa : Dfa E) (m : SimpleMatch E) : Prop :=
  ∀ truth (σ : Store) v n, m.eval fv truth (n + 1) dfa.arg σ v =
    (dfa.root.run (fun e ρ => truth e ((fv e).map (Store.set (fun y => σ.set [(dfa.arg, v)] (env0 y)) ρ))) v).result
      fv raiseExn fun y => σ.set [(dfa.arg, v)] (env0 y)

theorem singleton_eq_some {p p' : Path} {x x' : Var} : PMap.singleton p x p' = some x' ↔ p' = p ∧ x' = x := by
  by_cases h : p' = p
  · subst h
    simp [PMap.singleton, eq_comm]
  · simp [PMap.singleton, h]

theorem singleton_dom (p : Path) (x : Var) : (fun p' => PMap.singleton p x p' ≠ none) = (· = p) := by
  funext p'
  by_cases h : p' = p
  · subst h
    simp [PMap.singleton]
  · simp [PMap.singleton, h]

theorem dfaToAST_spec {dfa : Dfa E} (hs : Scoped fv rules dfa.arg raiseExn env0 c0) (hq : Shape rules [.root dfa.arg] dfa.root)
    {m : Nat} (hin : Inner m dfa dfa.root) (hg : GuardsBound (· = .root dfa.arg) dfa.root) :
    ∃ r c', dfaToAST env0 dfa raiseExn c0 = .ok (r, c') ∧ RunsAs fv raiseExn env0 dfa r := by
  have hsh := @sharedOf_spec E rules dfa.refCnt _ _ hq []
  obtain ⟨fns, K, c1, hdef, hd⟩ := @defAll_spec E rules fv dfa.arg raiseExn env0 c0 c0 hs
    ⟨dfa.refCnt, fun _ => none, raiseExn⟩ rfl (Nat.le_refl c0) (sharedOf dfa.refCnt [] dfa.root) fun q hmem => by
      obtain h | ⟨hsub, h1⟩ := hsh.sound q hmem
      · cases h
      · exact leaf_of_sub hq hin raiseExn hsub h1
  have hrc : K.rc = dfa.refCnt := hd.rc
  have hdefined : Defined K dfa.root := fun s hsub h1 => by
    obtain ⟨s', hs', hid⟩ := hsh.complete s hsub (hrc ▸ h1)
    exact Option.ne_none_iff_exists'.1 (hid ▸ hd.all s' hs')
  have hr : Ready rules env0 c0 env0 (PMap.singleton (.root dfa.arg) dfa.arg) c1 := by
    refine ⟨hd.le, fun p x hx => ?_, fun p x hx rule hrule hmem => ?_, fun _ _ => rfl⟩
    · rw [(singleton_eq_some.1 hx).2]
      exact Nat.lt_of_lt_of_le hs.arg hd.le
    · exact (hs.vars rule hrule x hmem).2 (singleton_eq_some.1 hx).2
  have htested : ∀ p, Tested p dfa.root → PMap.singleton (.root dfa.arg) dfa.arg p ≠ none := by
    intro p hp
    rw [List.mem_singleton.1 (hp.scope hq)]
    simp [PMap.singleton]
  obtain ⟨t0, c2, htree, hle, ht0⟩ := toTree_spec hs hrc hd.raise hq hin hdefined hr htested
    ((singleton_dom (.root dfa.arg) dfa.arg).symm ▸ hg)
  obtain ⟨t, c3, hnext, hle3, ht⟩ := nextTree_inner hrc hin hdefined hle htree ht0
  refine ⟨⟨(treeToFBs c3 fns).1, treeToAST t⟩, (treeToFBs c3 fns).2, ?_, fun truth σ v n => ?_⟩
  · simp only [dfaToAST, dfaToTrees, hdef, hnext, ok_bind]
  · have hcalls := callFun_calls hs truth (fun _ => rfl) rfl hd (Nat.le_trans hd.le hle3) (σ.set [(dfa.arg, v)]) n
    have hm : Models rules env0 c0 (fun y => σ.set [(dfa.arg, v)] (env0 y)) v (PMap.singleton (.root dfa.arg) dfa.arg)
        (σ.set [(dfa.arg, v)]) := by
      refine ⟨fun p x hx => ?_, fun _ _ => rfl⟩
      obtain ⟨rfl, rfl⟩ := singleton_eq_some.1 hx
      exact ⟨v, σ.set_self _ v, rfl⟩
    rw [SimpleMatch.eval, ht truth _ _ v _ hcalls hm, hd.raise]

/-- A translation that answers had a variable for every guard. -/
theorem guardsBound_of_dfaToAST {dfa : Dfa E} (hq : Shape rules [.root dfa.arg] dfa.root) {m : Nat}
    (hin : Inner m dfa dfa.root) {r : SimpleMatch E × Nat} (h : dfaToAST env0 dfa raiseExn c0 = .ok r) :
    GuardsBound (· = .root dfa.arg) dfa.root := by
  rw [dfaToAST, dfaToTrees] at h
  cases hdef : defAll ⟨dfa.refCnt, fun _ => none, raiseExn⟩ env0 c0 (sharedOf dfa.refCnt [] dfa.root) with
  | error err => simp [hdef, bind, Except.bind] at h
  | ok a =>
    obtain ⟨fns, K, c1⟩ := a
    simp only [hdef, ok_bind] at h
    cases hn : nextTree K env0 (.singleton (.root dfa.arg) dfa.arg) c1 dfa.root
        (toTree K env0 (.singleton (.root dfa.arg) dfa.arg) c1 dfa.root) with
    | error err => simp [hn, bind, Except.bind] at h
    | ok b =>
      obtain herr | ht := toTree_of_nextTree (defAll_rc hdef) hin hn
      · rw [herr]
        exact .error
      · exact singleton_dom (.root dfa.arg) dfa.arg ▸ guardsBound_of_toTree (defAll_rc hdef) hq hin ht

end

/-- The translation of the automaton of a rule list answers, and its match runs as the
    automaton, exactly when every guard has variables for its paths. -/
theorem dfaToAST_iff (D : Data) (arg : Var) (t : Ty) (rules : List (Rule E)) (hne : rules ≠ [])
    (hr : ∀ rule ∈ rules, PatTy D rule.pat t ∧ rule.pat.vars.Nodup) (fv : E → List Var) (raiseExn : E)
    (env : MatchCompEnv) (c : Nat) (hs : Scoped fv rules arg raiseExn env c) :
    ∃ dfa, Returns (fun n => rulesToDFA D n arg rules) dfa ∧
      ((∃ m c', dfaToAST env dfa raiseExn c = .ok (m, c') ∧ RunsAs fv raiseExn env dfa m) ↔
        GuardsBound (· = .root arg) dfa.root) := by
  obtain ⟨dfa, hret, hb⟩ := @rulesToDFA_built E D arg t rules hne hr
  obtain rfl := hb.arg
  exact ⟨dfa, hret, fun ⟨m, c', h, _⟩ => guardsBound_of_dfaToAST hb.shape hb.inner h,
    fun hg => dfaToAST_spec hs hb.shape hb.inner hg⟩

/-- The variables of the guard and the actions of `optionRules`. -/
def optionVars : Nat → List Var
  | 0 => [⟨1⟩]
  | 1 => [⟨1⟩]
  | 3 => [⟨2⟩]
  | _ => []

theorem dfaToAST_iff_option :
    ∃ dfa, Returns (fun n => rulesToDFA optionData n ⟨0⟩ optionRules) dfa ∧
      ((∃ m c', dfaToAST id dfa 9 10 = .ok (m, c') ∧ RunsAs optionVars 9 id dfa m) ↔
        GuardsBound (· = .root ⟨0⟩) dfa.root) := by
  have hcons : optionData.cons optionTyc = some [noneCon, someCon] := rfl
  have hsome : ∀ x, PatTy optionData (.conPat someCon [.conTy [] intTyc] (.varPat x))
      (.conTy [.conTy [] intTyc] optionTyc) := fun x => .conPat hcons (by simp) rfl (.varPat x _)
  refine dfaToAST_iff optionData ⟨0⟩
    (.tupleTy [.conTy [.conTy [] intTyc] optionTyc, .conTy [] intTyc]) optionRules
    (by simp [optionRules]) ?_ optionVars 9 id 10 ?_
  · simp only [optionRules, forall_mem_cons, Rule.pat, Pat.vars, Pat.varsL]
    refine ⟨⟨.tuplePat rfl ?_, by simp⟩, ⟨.tuplePat rfl ?_, by simp⟩, ⟨.tuplePat rfl ?_, by simp⟩, by simp⟩
    · exact forall_mem_cons.2 ⟨hsome _, forall_mem_cons.2 ⟨.lConst rfl, by simp⟩⟩
    · exact forall_mem_cons.2 ⟨.dConst hcons (by simp) rfl, forall_mem_cons.2 ⟨.wildPat _ _, by simp⟩⟩
    · exact forall_mem_cons.2 ⟨hsome _, forall_mem_cons.2 ⟨.wildPat _ _, by simp⟩⟩
  · constructor <;> simp [optionRules, optionVars, Rule.pat, Rule.act, Rule.cond, Pat.vars, Pat.varsL]

/-! ## A guard on a component -/

/-- `of SOME x where c => a | _ => b`: nothing but the guard and the action looks at the
    component. -/
def guardRules : List (Rule Nat) :=
  [.condMatch (.conPat someCon [.conTy [] intTyc] (.varPat ⟨1⟩)) 0 1, .patMatch (.wildPat .errorTy) 2]

def guardDfa : Dfa Nat where
  arg := ⟨0⟩
  root := .test 6 (.root ⟨0⟩)
    [(.con someCon [.conTy [] intTyc] [.path (.root ⟨0⟩) 0],
        .cond 5 [(⟨1⟩, .path (.root ⟨0⟩) 0)] 0 (.final 1 [⟨1⟩] 1) (.bind 4 [] (.final 2 [] 2))),
      (.any, .bind 3 [] (.final 2 [] 2))]
  err := .error 0
  final := [.final 2 [] 2, .final 1 [⟨1⟩] 1]
  idCnt := 7
  refCnt := update (update (update (update (update (update
    (fun _ => 0) 2 2) 1 1) 4 1) 5 1) 3 1) 6 1

theorem guardDfa_returns : Returns (fun n => rulesToDFA optionData n ⟨0⟩ guardRules) guardDfa := by
  refine ⟨3, fun n hn => ?_⟩
  obtain ⟨m, rfl⟩ : ∃ m, n = m + 3 := ⟨n - 3, by omega⟩
  have hstep : step1 optionData (mkDFA ⟨0⟩) guardRules = .ok
      (⟨[⟨[(⟨1⟩, .path (.root ⟨0⟩) 0)], [.conApp someCon [.conTy [] intTyc] (.path (.root ⟨0⟩) 0) .wild],
          some ([⟨1⟩], 0), .final 1 [⟨1⟩] 1⟩, ⟨[], [.wild], none, .final 2 [] 2⟩], [.root ⟨0⟩]⟩,
        ⟨⟨0⟩, .error 0, .error 0, [.final 2 [] 2, .final 1 [⟨1⟩] 1], 3, fun _ => 0⟩) := by
    simp [step1, doRules, doRule, guardRules, doPat, mkDFA, mkFinal, mkState, Rule.pat, Rule.act, Rule.cond, ok_bind,
      Data.argTypeOf, someCon, Path.extend, Pat.vars]
  simp only [rulesToDFA, hstep, ok_bind]
  simp [step2, guardDfa, ok_bind, genDFA, chooseCol, List.range_succ, Matrix.col, maxRow, count, conSet, splitAtCol,
    mkConMap, findCon, populate, expandVars, expandCols, replaceAt, mkNilMat, addVarRow, addRow, addTo, isCon, DCon.same,
    SimplePat.pathsOf, coverage, chkSet, coverDataty, optionData, mkArcs, findTuple, mkCond, mkBind, mkTest, mkState,
    inc, State.id, setInitialState, someCon]

/-- The guard's variable has no path variable. -/
theorem dfaToAST_raises :
    (∀ rule ∈ guardRules, PatTy optionData rule.pat (.conTy [.conTy [] intTyc] optionTyc)) ∧
      Returns (fun n => rulesToDFA optionData n ⟨0⟩ guardRules) guardDfa ∧
      dfaToAST id guardDfa 9 10 = .error (.fail "no binding for path") := by
  refine ⟨?_, guardDfa_returns, ?_⟩
  · simp only [guardRules, forall_mem_cons, Rule.pat]
    have hcons : optionData.cons optionTyc = some [noneCon, someCon] := rfl
    exact ⟨.conPat hcons (by simp) rfl (.varPat _ _), .wildPat _ _, by simp⟩
  · rfl

end Manticore.Match
