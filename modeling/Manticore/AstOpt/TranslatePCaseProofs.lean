/-
  Manticore.AstOpt.TranslatePCaseProofs — the state machine of a parallel case keeps to the meaning of
  the rules, but for the order of rules that overlap.

  In every run, whatever the order of completion, the machine commits to a rule only if the
  positions that the rule inspects have completed and match, with the rule's variables
  bound to the results, and to the `otherwise` rule only if all have completed and no other
  rule matches (`tr_run`). Among several rules that match it commits to the last one, so it
  commits to the first one just where no two rules match the results
  (`commits_first_iff`). There is no machine without an `otherwise` rule.
-/

import Manticore.AstOpt.TranslatePCaseRun

namespace Manticore.AstOpt.TranslatePCase

open Ast
open List (range foldl_cons mem_cons_self not_mem_nil mem_cons map_cons mem_range map_map lookup_append mem_singleton
  mem_map lookup_cons lookup countP_pos_iff mem_reverse mem_of_getElem?)
open CB (allOnes fromPPats)

variable {E : Type} {res : Nat → Result E} {order : Order} {pms : List (PMatch E)}

/-! ## Polling -/

/-- Poll the futures in turn. -/
def pollAll (order : Order) (s : Store E) (is : List Nat) : Store E := is.foldl (Store.poll order) s

/-- What has been observed of `n` computations. -/
def observe (res : Nat → Result E) (n : Nat) (s : Store E) : List (Option (Result E)) :=
  (range n).map fun i => if s.seen i then some (res i) else none

@[simp] theorem length_observe (n : Nat) (s : Store E) : (observe res n s).length = n := by simp [observe]

/-- Only completed computations have been seen to be so. -/
def SeenDone (order : Order) (s : Store E) : Prop := ∀ i, s.seen i = true → order.done s.clock i = true

theorem done_mono {t t' i : Nat} (h : t ≤ t') (hd : order.done t i = true) : order.done t' i = true := by
  induction h with
  | refl => exact hd
  | step _ ih => exact order.mono ih

theorem SeenDone.poll {s : Store E} (hs : SeenDone order s) (i : Nat) : SeenDone order (s.poll order i) := by
  intro j hj
  refine order.mono ?_
  by_cases hji : j = i
  · subst hji
    simpa [Store.poll] using hj
  · refine hs j ?_
    simpa [Store.poll, Function.update_of_ne hji] using hj

theorem SeenDone.pollAll {s : Store E} (hs : SeenDone order s) (is : List Nat) : SeenDone order (pollAll order s is) := by
  induction is generalizing s with
  | nil => exact hs
  | cons i is ih => exact ih (hs.poll i)

theorem clock_pollAll (is : List Nat) : ∀ s : Store E, (pollAll order s is).clock = s.clock + is.length := by
  induction is with
  | nil => exact fun _ => rfl
  | cons i is ih =>
    intro s
    rw [pollAll, foldl_cons, ← pollAll, ih, List.length_cons]
    show s.clock + 1 + is.length = _
    omega

theorem seen_pollAll_of_not_mem {i : Nat} {is : List Nat} (h : i ∉ is) :
    ∀ s : Store E, (pollAll order s is).seen i = s.seen i := by
  induction is with
  | nil => exact fun _ => rfl
  | cons j is ih =>
    intro s
    have hij : i ≠ j := fun h' => h (h' ▸ mem_cons_self)
    rw [pollAll, foldl_cons, ← pollAll, ih fun h' => h (List.mem_cons_of_mem _ h')]
    exact Function.update_of_ne hij _ _

/-- A future that has completed when polling starts is seen to have. -/
theorem seen_pollAll_of_done {i : Nat} {is : List Nat} (h : i ∈ is) :
    ∀ s : Store E, order.done s.clock i = true → (pollAll order s is).seen i = true := by
  induction is with
  | nil => exact absurd h not_mem_nil
  | cons j is ih =>
    intro s hd
    rw [pollAll, foldl_cons, ← pollAll]
    by_cases hi : i ∈ is
    · exact ih hi _ (order.mono hd)
    · have hij : i = j := (mem_cons.1 h).resolve_right hi
      rw [seen_pollAll_of_not_mem hi]
      subst hij
      simpa [Store.poll] using hd

theorem evalTuple_polls {ρ : Env E} (m : Nat) : ∀ (is : List Nat) (vs : List (Value E)) (s : Store E),
    is.Nodup → (∀ i ∈ is, ρ.lookup (.fut (i + 1)) = some (.future i)) →
    evalTuple (eval res order (m + 2) ρ) vs (is.map fun i => mkPoll (.fut (i + 1))) s =
      some (.value (.tuple (vs.reverse ++ is.map fun i =>
        pollValue (if (pollAll order s is).seen i then some (res i) else none))), pollAll order s is)
  | [], vs, s, _, _ => by simp [evalTuple, pollAll]
  | i :: is, vs, s, hn, hρ => by
    obtain ⟨hi, hn'⟩ := List.nodup_cons.1 hn
    have hpoll : eval res order (m + 2) ρ (mkPoll (.fut (i + 1))) s =
        some (.value (pollValue (if order.done s.clock i then some (res i) else none)), s.poll order i) := by
      unfold mkPoll
      rw [eval, eval, hρ i mem_cons_self]
      rfl
    have hseen : (pollAll order (s.poll order i) is).seen i = order.done s.clock i := by
      rw [seen_pollAll_of_not_mem hi]
      simp [Store.poll]
    rw [map_cons, evalTuple, hpoll, andThen_value, evalTuple_polls m is _ _ hn' fun j hj =>
      hρ j (List.mem_cons_of_mem _ hj)]
    show some (_, pollAll order (s.poll order i) is) = some (_, pollAll order (s.poll order i) is)
    rw [map_cons, List.reverse_cons, List.append_assoc, List.singleton_append]
    show _ = some (Outcome.value (.tuple (vs.reverse ++ pollValue (if (pollAll order (s.poll order i) is).seen i
      then some (res i) else none) :: _)), _)
    rw [hseen]
    rfl

theorem evals_polls {ρ : Env E} {n : Nat} (s : Store E)
    (hρ : ∀ i < n, ρ.lookup (.fut (i + 1)) = some (.future i)) :
    Evals res order ρ (.tupleExp ((futureVars n).map mkPoll)) s
      (.value (.tuple ((observe res n (pollAll order s (range n))).map pollValue)),
        pollAll order s (range n)) := by
  refine ⟨3, ?_⟩
  have h := @evalTuple_polls _ res order _ 0 (range n) [] s List.nodup_range
    fun i hi => hρ i (mem_range.1 hi)
  rw [eval]
  unfold futureVars observe
  rw [map_map, map_map]
  exact h

/-! ## Environments -/

theorem lookup_append_of_ne {η ρ : Env E} {x : Ast.Var} (h : ∀ p ∈ η, p.1 ≠ x) :
    (η ++ ρ).lookup x = ρ.lookup x := by
  rw [lookup_append, List.lookup_eq_none_iff.2 fun p hp => by simpa using (h p hp).symm]
  rfl

/-- Only variables of the source program are bound. -/
def SrcEnv (η : Env E) : Prop := ∀ p ∈ η, ∃ x, p.1 = .src x

theorem SrcEnv.append {η η' : Env E} (h : SrcEnv η) (h' : SrcEnv η') : SrcEnv (η ++ η') := by
  intro p hp
  rcases List.mem_append.1 hp with hp | hp
  · exact h p hp
  · exact h' p hp

theorem SrcEnv.nil : SrcEnv ([] : Env E) := fun _ h => absurd h not_mem_nil

mutual

theorem srcEnv_of_patMatch : ∀ {p : Pat} {v : Value E} {η : Env E}, p.isSrc = true → patMatch p v = some η → SrcEnv η
  | .conPat dc p, .con dc' v, η, hp, h => by
    rw [patMatch] at h
    split at h
    · exact srcEnv_of_patMatch (show p.isSrc = true from hp) h
    · cases h
  | .tuplePat ps, .tuple vs, η, hp, h => srcEnv_of_patMatches hp h
  | .varPat (.src x), v, η, _, h => by
    cases h
    intro p hp
    exact ⟨x, by rw [mem_singleton.1 hp]⟩
  | .wildPat, v, η, _, h => by
    cases h
    exact SrcEnv.nil
  | .constPat k, .const k', η, _, h => by
    rw [patMatch] at h
    split at h
    · cases h
      exact SrcEnv.nil
    · cases h

theorem srcEnv_of_patMatches : ∀ {ps : List Pat} {vs : List (Value E)} {η : Env E}, Pat.allSrc ps = true →
    patMatches ps vs = some η → SrcEnv η
  | [], [], η, _, h => by
    cases h
    exact SrcEnv.nil
  | p :: ps, v :: vs, η, hp, h => by
    obtain ⟨hp₁, hp₂⟩ := Bool.and_eq_true_iff.1 hp
    rw [patMatches] at h
    cases h₁ : patMatch p v with
    | none => simp [h₁] at h
    | some η₁ =>
      cases h₂ : patMatches ps vs with
      | none => simp [h₁, h₂] at h
      | some η₂ =>
        simp only [h₁, h₂, Option.some.injEq] at h
        rw [← h]
        exact (srcEnv_of_patMatch hp₁ h₁).append (srcEnv_of_patMatches hp₂ h₂)

end

theorem srcEnv_of_matchPPats : ∀ {ps : List PPat} {obs : List (Option (Result E))} {η : Env E},
    matchPPats ps obs = some η → SrcEnv η
  | [], [], η, h => by
    cases h
    exact SrcEnv.nil
  | pp :: ps, o :: obs, η, h => by
    rw [matchPPats] at h
    cases h₁ : matchPPat pp o with
    | none => simp [h₁] at h
    | some η₁ =>
      cases h₂ : matchPPats ps obs with
      | none => simp [h₁, h₂] at h
      | some η₂ =>
        simp only [h₁, h₂, Option.some.injEq] at h
        rw [← h]
        refine SrcEnv.append ?_ (srcEnv_of_matchPPats h₂)
        cases pp with
        | ndWildPat =>
          cases h₁
          exact SrcEnv.nil
        | pat p | handlePat p =>
          rcases o with _ | v | v <;> first | exact srcEnv_of_patMatch p.property h₁ | cases h₁

/-- An environment in the scope of the machine's functions: the futures are at hand, and so are the
    variables of the source program as they are in `ρ₀`. -/
structure Around (n : Nat) (pms : List (PMatch E)) (ks : List CB) (ρf ρ₀ ρ : Env E) : Prop where
  go : ρ.lookup .go = some (.closure (machine n pms ks) .go ρf)
  state : ∀ cb ∈ ks, ρ.lookup (.state cb) = some (.closure (machine n pms ks) (.state cb) ρf)
  fut : ∀ i < n, ρ.lookup (.fut (i + 1)) = some (.future i)
  src : ∀ x, ρ.lookup (.src x) = ρ₀.lookup (.src x)

/-- The variable of a result, or the parameter of a function. -/
def isLocal : Ast.Var → Bool
  | .tmp _ | .arg | .unit => true
  | _ => false

section Rounds

variable {n : Nat} {pms : List (PMatch E)} {ks : List CB} {ρf ρ₀ ρ : Env E}

theorem Around.append {η : Env E} (h : Around n pms ks ρf ρ₀ ρ) (hη : ∀ p ∈ η, isLocal p.1 = true) :
    Around n pms ks ρf ρ₀ (η ++ ρ) := by
  have hne : ∀ {x : Ast.Var}, isLocal x = false → ∀ p ∈ η, p.1 ≠ x := by
    intro x hx p hp hpx
    have := hη p hp
    rw [hpx, hx] at this
    cases this
  refine ⟨?_, fun cb hcb => ?_, fun i hi => ?_, fun x => ?_⟩
  · rw [lookup_append_of_ne (hne rfl), h.go]
  · rw [lookup_append_of_ne (hne rfl), h.state cb hcb]
  · rw [lookup_append_of_ne (hne rfl), h.fut i hi]
  · rw [lookup_append_of_ne (hne rfl), h.src]

/-- The scope of the functions themselves. -/
theorem around_bindFuns (hfut : ∀ i < n, ρf.lookup (.fut (i + 1)) = some (.future i))
    (hsrc : ∀ x, ρf.lookup (.src x) = ρ₀.lookup (.src x)) :
    Around n pms ks ρf ρ₀ (bindFuns (machine n pms ks) ρf) := by
  have hother : ∀ {x : Ast.Var}, (∀ l ∈ machine n pms ks, l.1 ≠ x) →
      (bindFuns (machine n pms ks) ρf).lookup x = ρf.lookup x := by
    intro x hx
    refine lookup_append_of_ne fun p hp => ?_
    obtain ⟨l, hl, rfl⟩ := mem_map.1 hp
    exact hx l hl
  have hnames : ∀ l ∈ machine n pms ks, l.1 = .go ∨ ∃ cb, l.1 = .state cb := by
    intro l hl
    rcases mem_cons.1 hl with h | h
    · rw [h]
      exact Or.inl rfl
    · obtain ⟨cb, _, rfl⟩ := mem_map.1 h
      exact Or.inr ⟨cb, rfl⟩
  refine ⟨rfl, fun cb hcb => ?_, fun i hi => ?_, fun x => ?_⟩
  · have hstates : ∀ {ks' : List CB}, cb ∈ ks' →
        ((ks'.map (stateLam n pms)).map fun l => (l.1, Value.closure (machine n pms ks) l.1 ρf)).lookup (.state cb) =
          some (.closure (machine n pms ks) (.state cb) ρf) := by
      intro ks'
      induction ks' with
      | nil => exact fun h => absurd h not_mem_nil
      | cons c ks' ih =>
        intro h
        by_cases hc : cb = c
        · subst hc
          simp [stateLam]
        · have hb : (Ast.Var.state cb == (stateLam n pms c).1) = false := by simpa [stateLam] using hc
          rw [map_cons, map_cons, lookup_cons, hb]
          exact ih ((mem_cons.1 h).resolve_left hc)
    show lookup _ ((Ast.Var.go, _) :: (_ ++ ρf)) = _
    rw [lookup_cons, show (Ast.Var.state cb == Ast.Var.go) = false from rfl]
    show lookup _ (_ ++ ρf) = _
    rw [lookup_append, hstates hcb]
    rfl
  · rw [hother, hfut i hi]
    intro l hl h
    rcases hnames l hl with h' | ⟨cb, h'⟩ <;> rw [h] at h' <;> cases h'
  · rw [hother, hsrc]
    intro l hl h
    rcases hnames l hl with h' | ⟨cb, h'⟩ <;> rw [h] at h' <;> cases h'

/-! ## One round -/

/-- What `go` comes to when it has observed `obs`: the bindings of a rule and its code, or `go` again. -/
def next (n : Nat) (pms : List (PMatch E)) (ks : List CB) (obs : List (Option (Result E))) : Env E × Exp E :=
  if bitsOf obs ∈ ks then (pick n obs pms).getD ([], applyGo) else ([], applyGo)

theorem isLocal_of_mem_tmps : ∀ {cb : CB} {i : Nat} {x : Ast.Var}, x ∈ tmps i cb → isLocal x = true
  | .zero :: _, _, _, h => isLocal_of_mem_tmps (by simpa [tmps] using h)
  | .one :: _, _, _, h => by
    rcases mem_cons.1 h with h | h
    · rw [h]
      rfl
    · exact isLocal_of_mem_tmps h

theorem lt_of_mem_tmps : ∀ {cb : CB} {i j : Nat}, .tmp j ∈ tmps i cb → i ≤ j
  | .zero :: _, _, _, h => lt_of_mem_tmps (by simpa [tmps] using h)
  | .one :: _, i, j, h => by
    rcases mem_cons.1 h with h | h
    · cases h
      exact Nat.le_refl i
    · have := lt_of_mem_tmps h
      omega

theorem lookup_tmps : ∀ {obs : List (Option (Result E))} {i : Nat} {ρ : Env E},
    (tmps i (bitsOf obs)).map (fun x => ((tmps i (bitsOf obs)).zip (resultsOf obs) ++ ρ).lookup x) =
      (resultsOf obs).map some
  | [], _, _ => rfl
  | none :: obs, i, ρ => @lookup_tmps obs i ρ
  | some r :: obs, i, ρ => by
    have hrest : (tmps (i + 1) (bitsOf obs)).map
        (fun x => ((tmps i (bitsOf (some r :: obs))).zip (resultsOf (some r :: obs)) ++ ρ).lookup x) =
        (resultsOf obs).map some := by
      rw [← @lookup_tmps obs (i + 1) ρ]
      refine List.map_congr_left fun x hx => ?_
      have hne : (x == Ast.Var.tmp i) = false := by
        rw [beq_eq_false_iff_ne]
        intro h
        rw [h] at hx
        have := lt_of_mem_tmps hx
        omega
      show lookup x ((Ast.Var.tmp i, r.toValue) :: _) = _
      rw [lookup_cons, hne]
      rfl
    show lookup _ ((Ast.Var.tmp i, r.toValue) :: _) :: List.map _ (tmps (i + 1) (bitsOf obs)) =
      some r.toValue :: (resultsOf obs).map some
    rw [List.lookup_cons_self, hrest]

theorem evals_vars {s : Store E} : ∀ {xs : List Ast.Var} {vs : List (Value E)},
    xs.map (fun x => ρ.lookup x) = vs.map some →
    Evals res order ρ (.tupleExp (xs.map .varExp)) s (.value (.tuple vs), s) := by
  have hacc : ∀ {xs : List Ast.Var} {vs acc : List (Value E)}, xs.map (fun x => ρ.lookup x) = vs.map some →
      evalTuple (eval res order 1 ρ) acc (xs.map .varExp) s = some (.value (.tuple (acc.reverse ++ vs)), s) := by
    intro xs
    induction xs with
    | nil =>
      intro vs acc h
      have hvs : vs = [] := by simpa using h.symm
      simp [evalTuple, hvs]
    | cons x xs ih =>
      intro vs acc h
      cases vs with
      | nil => cases h
      | cons v vs =>
        obtain ⟨hx, hxs⟩ := List.cons.inj h
        have hx : ρ.lookup x = some v := hx
        rw [map_cons, evalTuple, eval, hx, Option.map_some, andThen_value, ih hxs]
        simp
  intro xs vs h
  exact ⟨2, hacc h⟩

/-- The evaluations of `e` from `s` are those of `e'` from `s'`, which take less fuel. -/
def LeadsTo (res : Nat → Result E) (order : Order) (ρ : Env E) (e : Exp E) (s : Store E) (ρ' : Env E) (e' : Exp E)
    (s' : Store E) : Prop :=
  (∀ r, Evals res order ρ' e' s' r → Evals res order ρ e s r) ∧
    ∀ k r, eval res order k ρ e s = some r → ∃ k' < k, eval res order k' ρ' e' s' = some r

theorem LeadsTo.trans {ρ₁ ρ₂ ρ₃ : Env E} {e₁ e₂ e₃ : Exp E} {s₁ s₂ s₃ : Store E}
    (h : LeadsTo res order ρ₁ e₁ s₁ ρ₂ e₂ s₂) (h' : LeadsTo res order ρ₂ e₂ s₂ ρ₃ e₃ s₃) :
    LeadsTo res order ρ₁ e₁ s₁ ρ₃ e₃ s₃ := by
  refine ⟨fun r hr => h.1 r (h'.1 r hr), fun k r hk => ?_⟩
  obtain ⟨k₁, hk₁, h₁⟩ := h.2 k r hk
  obtain ⟨k₂, hk₂, h₂⟩ := h'.2 k₁ r h₁
  exact ⟨k₂, Nat.lt_trans hk₂ hk₁, h₂⟩

theorem leadsTo_caseExp {e e' : Exp E} {s s' : Store E} {v : Value E} {ms : List (Match E)} {η : Env E}
    (hv : Evals res order ρ e s (.value v, s')) (hm : firstMatch ms v = some (η, e')) :
    LeadsTo res order ρ (.caseExp e ms) s (η ++ ρ) e' s' :=
  ⟨fun _ hr => hv.caseExp hm hr, fun _ _ hk => eval_caseExp_inv hv hm hk⟩

theorem leadsTo_applyExp {e body : Exp E} {s s' : Store E} {v : Value E} {f g param : Ast.Var}
    {lams : List (Lambda E)} {ρ' : Env E} (hv : Evals res order ρ e s (.value v, s'))
    (hf : ρ.lookup f = some (.closure lams g ρ')) (hl : findLam lams g = some (param, body)) :
    LeadsTo res order ρ (.applyExp f e) s ((param, v) :: bindFuns lams ρ') body s' :=
  ⟨fun _ hr => hv.applyExp hf hl hr, fun _ _ hk => eval_applyExp_inv hv hf hl hk⟩

theorem evals_unit {s : Store E} : Evals res order ρ (.tupleExp []) s (.value (.tuple []), s) := ⟨1, rfl⟩

/-- The function of a key that the observation has. -/
theorem leadsTo_state {obs : List (Option (Result E))} {s : Store E} (hobs : obs.length = n)
    (hpms : ∀ pm ∈ pms, (cbOf n pm).length = n) (hother : pms.countP belongsLast ≠ 0)
    (hks : bitsOf obs ∈ ks) (hρ : Around n pms ks ρf ρ₀ ρ)
    (hin : Around n pms ks ρf ρ₀ (bindFuns (machine n pms ks) ρf)) :
    ∃ ρ₁, Around n pms ks ρf ρ₀ ρ₁ ∧
      LeadsTo res order ((tmps 1 (bitsOf obs)).zip (resultsOf obs) ++ ρ) (goArm (bitsOf obs)).2 s
        ((next n pms ks obs).1 ++ ρ₁) (next n pms ks obs).2 s := by
  have hargs : Evals res order ((tmps 1 (bitsOf obs)).zip (resultsOf obs) ++ ρ)
      (.tupleExp ((tmps 1 (bitsOf obs)).map .varExp)) s (.value (.tuple (resultsOf obs)), s) := evals_vars lookup_tmps
  have hcall : Around n pms ks ρf ρ₀ ((tmps 1 (bitsOf obs)).zip (resultsOf obs) ++ ρ) :=
    hρ.append fun p hp => isLocal_of_mem_tmps (List.of_mem_zip hp).1
  have hbody : Around n pms ks ρf ρ₀ ((.arg, .tuple (resultsOf obs)) :: bindFuns (machine n pms ks) ρf) :=
    @Around.append _ _ _ _ _ _ _ [(.arg, .tuple (resultsOf obs))] hin fun p hp => by
      rw [mem_singleton.1 hp]
      rfl
  have hfirst : firstMatch ((rulesAt n (bitsOf obs) pms).map (narrowed n (bitsOf obs)) ++
      if bitsOf obs = allOnes n then [] else [defaultMatch]) (.tuple (resultsOf obs)) =
      some (next n pms ks obs) := by
    have hrules := firstMatch_stateArms hobs hpms
    unfold firstMatch at hrules ⊢
    rw [List.findSome?_append, hrules]
    unfold next
    rw [if_pos hks]
    cases hp : pick n obs pms with
    | some a => rfl
    | none =>
      rw [if_neg]
      · rfl
      -- the `otherwise` rule would match
      intro hall
      obtain ⟨pm, hpm, hlast⟩ := countP_pos_iff.1 (Nat.pos_of_ne_zero hother)
      have hnone := (Option.or_eq_none_iff.1 hp).2
      rw [List.findSome?_eq_none_iff] at hnone
      have := hnone pm hpm
      rw [if_pos hlast] at this
      cases pm with
      | pmatch ps e => cases hlast
      | otherwise e =>
        rw [ruleArm, if_pos hall] at this
        cases this
  refine ⟨_, hbody, (leadsTo_applyExp hargs (hcall.state _ hks) (findLam_state hks)).trans ?_⟩
  exact leadsTo_caseExp ⟨1, rfl⟩ hfirst

/-- `go` polls all futures, and goes on by what it has observed. -/
theorem leadsTo_go {s : Store E} (hpms : ∀ pm ∈ pms, (cbOf n pm).length = n)
    (hother : pms.countP belongsLast ≠ 0) (hks : ∀ c ∈ ks, c.length = n) (hρ : Around n pms ks ρf ρ₀ ρ)
    (hin : Around n pms ks ρf ρ₀ (bindFuns (machine n pms ks) ρf)) :
    ∃ ρ₁, Around n pms ks ρf ρ₀ ρ₁ ∧
      LeadsTo res order ρ applyGo s
        ((next n pms ks (observe res n (pollAll order s (range n)))).1 ++ ρ₁)
        (next n pms ks (observe res n (pollAll order s (range n)))).2 (pollAll order s (range n)) := by
  have hbody : Around n pms ks ρf ρ₀ ((.unit, .tuple []) :: bindFuns (machine n pms ks) ρf) :=
    @Around.append _ _ _ _ _ _ _ [(.unit, .tuple [])] hin fun p hp => by
      rw [mem_singleton.1 hp]
      rfl
  have hunit : Evals res order ρ (.tupleExp []) s (.value (.tuple []), s) := evals_unit
  have hcall := leadsTo_applyExp hunit hρ.go (findLam_go n pms ks)
  have hpoll := @evals_polls _ res order _ n s hbody.fut
  have hfirst := @firstMatch_goArms _ (observe res n (pollAll order s (range n))) ks
    fun c hc => by rw [hks c hc, length_observe]
  by_cases hin' : bitsOf (observe res n (pollAll order s (range n))) ∈ ks
  · rw [if_pos hin'] at hfirst
    obtain ⟨ρ₁, hρ₁, hlead⟩ := @leadsTo_state _ res order _ _ _ _ _ _
      _ (pollAll order s (range n)) (length_observe n _) hpms hother hin' hbody hin
    exact ⟨ρ₁, hρ₁, hcall.trans ((leadsTo_caseExp hpoll hfirst).trans hlead)⟩
  · rw [if_neg hin'] at hfirst
    refine ⟨_, hbody, hcall.trans ?_⟩
    have hnext : next n pms ks (observe res n (pollAll order s (range n))) = ([], applyGo) := if_neg hin'
    rw [hnext]
    exact leadsTo_caseExp hpoll hfirst

/-! ## The rule that is chosen -/

/-- The rule `k`, with the body `e`, is the last one that is enabled by what has been observed, or it is the
    `otherwise` rule and no other rule is enabled. -/
inductive Chosen (n : Nat) (obs : List (Option (Result E))) (pms : List (PMatch E)) (k : Nat) (e : E) :
    Env E → Prop
  | rule {ps : List PPat} {η : Env E} (hk : pms[k]? = some (PMatch.pmatch ps e)) (hm : matchPPats ps obs = some η)
      (hlater : ∀ (j : Nat), k < j → ∀ qs e', pms[j]? = some (PMatch.pmatch qs e') → matchPPats qs obs = none) :
      Chosen n obs pms k e η
  | other (hk : pms[k]? = some (PMatch.otherwise e)) (hall : bitsOf obs = allOnes n)
      (hnone : ∀ (j : Nat) qs e', pms[j]? = some (PMatch.pmatch qs e') → matchPPats qs obs = none) :
      Chosen n obs pms k e []

theorem matchPPats_of_ruleArm_none {obs : List (Option (Result E))} {ps : List PPat} {e : E}
    (h : ruleArm n obs (.pmatch ps e) = none) : matchPPats ps obs = none := by
  rwa [ruleArm, Option.map_eq_none_iff] at h

theorem mem_of_mem_wilds {ps : List Pat} {fs : List Ast.Var} {f : Ast.Var} (h : f ∈ wilds ps fs) : f ∈ fs := by
  obtain ⟨p, hp, rfl⟩ := mem_map.1 h
  exact (List.of_mem_zip (List.mem_filter.1 hp).1).2

theorem pick_chosen {obs : List (Option (Result E))} {η : Env E} {c : Exp E} (h : pick n obs pms = some (η, c)) :
    ∃ (k : Nat) (e : E) (fs : List Ast.Var), Chosen n obs pms k e η ∧ SrcEnv η ∧
      c = seqPrepend (fs.map mkCancel) (.src e) ∧ ∀ f ∈ fs, f ∈ futureVars n := by
  rcases Option.or_eq_some_iff.1 h with h | ⟨hnone, h⟩
  · obtain ⟨l₁, pm, l₂, hl, hpm, hbefore⟩ := List.findSome?_eq_some_iff.1 h
    have hpms : pms = l₂.reverse ++ pm :: l₁.reverse := by
      rw [← List.reverse_reverse pms, hl]
      simp
    cases pm with
    | otherwise e => cases hpm
    | pmatch ps e =>
      obtain ⟨η', hm, heq⟩ := Option.map_eq_some_iff.1 (show (matchPPats ps obs).map _ = some (η, c) from hpm)
      cases heq
      refine ⟨l₂.length, e, _, .rule (by rw [hpms]; simp) hm fun j hj qs e' hq => ?_, srcEnv_of_matchPPats hm, rfl,
        fun f hf => mem_of_mem_wilds hf⟩
      have hmem : PMatch.pmatch qs e' ∈ l₁ := by
        rw [hpms, List.getElem?_append_right (by simp; omega)] at hq
        have hq' : l₁.reverse[j - l₂.length - 1]? = some (.pmatch qs e') := by
          rw [List.length_reverse, show j - l₂.length = (j - l₂.length - 1) + 1 by omega, List.getElem?_cons_succ] at hq
          exact hq
        exact mem_reverse.1 (mem_of_getElem? hq')
      exact matchPPats_of_ruleArm_none (hbefore _ hmem)
  · obtain ⟨l₁, pm, l₂, hl, hpm, _⟩ := List.findSome?_eq_some_iff.1 h
    cases pm with
    | pmatch ps e => cases hpm
    | otherwise e =>
      have harm : (if bitsOf obs = allOnes n then some (([] : Env E), Exp.src e) else none) = some (η, c) := hpm
      split at harm
      · rename_i hall
        cases harm
        refine ⟨l₁.length, e, [], .other (by rw [hl]; simp) hall fun j qs e' hq => ?_, SrcEnv.nil, rfl,
          fun f hf => absurd hf not_mem_nil⟩
        have hq' := List.findSome?_eq_none_iff.1 hnone _ (mem_reverse.2 (mem_of_getElem? hq))
        exact matchPPats_of_ruleArm_none hq'
      · cases harm

theorem evals_seqPrepend {e : E} : ∀ {fs : List Ast.Var} {s : Store E},
    (∀ f ∈ fs, ∃ i, ρ.lookup f = some (.future i)) →
    ∃ s', s'.clock = s.clock ∧ s'.seen = s.seen ∧
      Evals res order ρ (seqPrepend (fs.map mkCancel) (.src e)) s (.commit e ρ, s')
  | [], s, _ => ⟨s, rfl, rfl, 1, rfl⟩
  | f :: fs, s, h => by
    obtain ⟨i, hi⟩ := h f mem_cons_self
    have hcancel : Evals res order ρ (mkCancel f) s
        (.value (.tuple []), { s with cancelled := s.cancelled ++ [i] }) := by
      refine ⟨2, ?_⟩
      unfold mkCancel
      rw [eval, eval, hi]
      rfl
    obtain ⟨s', hc, hs, hev⟩ := @evals_seqPrepend e fs { s with cancelled := s.cancelled ++ [i] }
      fun g hg => h g (List.mem_cons_of_mem _ hg)
    exact ⟨s', hc, hs, hcancel.seqExp hev⟩

/-- All computations that had completed before the first poll have been seen. -/
def SeenAll (order : Order) (n : Nat) (s : Store E) : Prop := ∀ i < n, order.done 0 i = true → s.seen i = true

theorem seenAll_pollAll (s : Store E) : SeenAll order n (pollAll order s (range n)) := fun i hi hd =>
  seen_pollAll_of_done (mem_range.2 hi) s (done_mono (Nat.zero_le _) hd)

/-- The machine has committed to a rule. -/
def Committed (res : Nat → Result E) (order : Order) (n : Nat) (pms : List (PMatch E)) (ρ₀ : Env E)
    (r : Outcome E × Store E) : Prop :=
  ∃ k e ρ s η, r = (.commit e ρ, s) ∧ SeenDone order s ∧ SeenAll order n s ∧
    Chosen n (observe res n s) pms k e η ∧ ∀ x, ρ.lookup (.src x) = (η ++ ρ₀).lookup (.src x)

theorem evals_picked {s : Store E} {η : Env E} {c : Exp E} (hs : SeenDone order s) (hall : SeenAll order n s)
    (hρ : Around n pms ks ρf ρ₀ ρ) (h : pick n (observe res n s) pms = some (η, c)) :
    ∃ r, Evals res order (η ++ ρ) c s r ∧ Committed res order n pms ρ₀ r := by
  obtain ⟨k, e, fs, hch, hη, rfl, hfs⟩ := pick_chosen h
  have hlook : ∀ f ∈ fs, ∃ i, (η ++ ρ).lookup f = some (.future i) := by
    intro f hf
    obtain ⟨i, hi, rfl⟩ := mem_map.1 (hfs f hf)
    refine ⟨i, ?_⟩
    rw [lookup_append_of_ne, hρ.fut i (mem_range.1 hi)]
    intro p hp hpf
    obtain ⟨x, hx⟩ := hη p hp
    rw [hx] at hpf
    cases hpf
  obtain ⟨s', hclock, hseen, hev⟩ := evals_seqPrepend (s := s) (e := e) hlook
  refine ⟨_, hev, k, e, _, s', η, rfl, ?_, ?_, ?_, fun x => ?_⟩
  · intro i hi
    rw [hclock]
    exact hs i (hseen ▸ hi)
  · intro i hi hd
    rw [hseen]
    exact hall i hi hd
  · have hobs : observe res n s' = observe res n s := by
      unfold observe
      rw [hseen]
    rw [hobs]
    exact hch
  · rw [lookup_append, lookup_append, hρ.src]

/-! ## Runs -/

/-- Whatever a run of `go` comes to, it is a commitment. -/
theorem go_sound (hpms : ∀ pm ∈ pms, (cbOf n pm).length = n) (hother : pms.countP belongsLast ≠ 0)
    (hks : ∀ c ∈ ks, c.length = n) (hin : Around n pms ks ρf ρ₀ (bindFuns (machine n pms ks) ρf)) (k : Nat) :
    ∀ {ρ : Env E} {s : Store E} {r : Outcome E × Store E}, Around n pms ks ρf ρ₀ ρ → SeenDone order s →
      eval res order k ρ applyGo s = some r → Committed res order n pms ρ₀ r := by
  induction k using Nat.strongRecOn with
  | ind k ih =>
    intro ρ s r hρ hs h
    obtain ⟨ρ₁, hρ₁, hlead⟩ := @leadsTo_go _ res order _ _ _ _ _ _ s hpms hother hks hρ hin
    obtain ⟨k', hk', h'⟩ := hlead.2 k r h
    have hs' := hs.pollAll (range n)
    unfold next at h'
    split at h'
    · cases hp : pick n (observe res n (pollAll order s (range n))) pms with
      | none =>
        rw [hp] at h'
        exact ih k' hk' hρ₁ hs' h'
      | some a =>
        rw [hp] at h'
        obtain ⟨r', hr', hc⟩ := evals_picked hs' (seenAll_pollAll s) hρ₁ hp
        rw [hr'.of_eval h']
        exact hc
    · exact ih k' hk' hρ₁ hs' h'

/-- Once all computations have completed, the next round is the last one. -/
theorem go_last (hpms : ∀ pm ∈ pms, (cbOf n pm).length = n) (hother : pms.countP belongsLast ≠ 0)
    (hks : ∀ c ∈ ks, c.length = n) (hall : allOnes n ∈ ks)
    (hin : Around n pms ks ρf ρ₀ (bindFuns (machine n pms ks) ρf)) {s : Store E} (hρ : Around n pms ks ρf ρ₀ ρ)
    (hs : SeenDone order s) (hd : ∀ i < n, order.done s.clock i = true) : ∃ r, Evals res order ρ applyGo s r := by
  obtain ⟨ρ₁, hρ₁, hlead⟩ := @leadsTo_go _ res order _ _ _ _ _ _ s hpms hother hks hρ hin
  have hbits : bitsOf (observe res n (pollAll order s (range n))) = allOnes n := by
    unfold bitsOf observe allOnes
    rw [map_map, List.eq_replicate_iff]
    refine ⟨by simp, fun b hb => ?_⟩
    obtain ⟨i, hi, rfl⟩ := mem_map.1 hb
    have hseen := seen_pollAll_of_done hi s (hd i (mem_range.1 hi))
    simp [hseen]
  obtain ⟨a, ha⟩ : ∃ a, pick n (observe res n (pollAll order s (range n))) pms = some a := by
    obtain ⟨pm, hpm, hlast⟩ := countP_pos_iff.1 (Nat.pos_of_ne_zero hother)
    rw [← Option.isSome_iff_exists, pick, Option.isSome_or, Bool.or_eq_true]
    right
    rw [List.isSome_findSome?, List.any_eq_true]
    refine ⟨pm, hpm, ?_⟩
    cases pm with
    | pmatch ps e => cases hlast
    | otherwise e => rw [if_pos hlast, ruleArm, if_pos hbits]; rfl
  obtain ⟨r, hr, _⟩ := evals_picked (hs.pollAll (range n)) (seenAll_pollAll s) hρ₁ ha
  refine ⟨r, hlead.1 r ?_⟩
  unfold next
  rw [hbits, if_pos hall, ha]
  exact hr

theorem go_complete (hpms : ∀ pm ∈ pms, (cbOf n pm).length = n) (hother : pms.countP belongsLast ≠ 0)
    (hks : ∀ c ∈ ks, c.length = n) (hall : allOnes n ∈ ks)
    (hin : Around n pms ks ρf ρ₀ (bindFuns (machine n pms ks) ρf)) {t : Nat}
    (hd : ∀ i < n, order.done t i = true) (d : Nat) : ∀ {ρ : Env E} {s : Store E}, Around n pms ks ρf ρ₀ ρ →
      SeenDone order s → t ≤ s.clock + d → ∃ r, Evals res order ρ applyGo s r := by
  induction d with
  | zero =>
    intro ρ s hρ hs ht
    exact go_last hpms hother hks hall hin hρ hs fun i hi => done_mono ht (hd i hi)
  | succ d ih =>
    intro ρ s hρ hs ht
    by_cases hn : n = 0
    · exact go_last hpms hother hks hall hin hρ hs fun i hi => absurd hi (by omega)
    · obtain ⟨ρ₁, hρ₁, hlead⟩ := @leadsTo_go _ res order _ _ _ _ _ _ s hpms hother hks hρ hin
      have hs' := hs.pollAll (range n)
      have ht' : t ≤ (pollAll order s (range n)).clock + d := by
        rw [clock_pollAll, List.length_range]
        omega
      have hagain : ∃ r, Evals res order ρ₁ applyGo (pollAll order s (range n)) r := ih hρ₁ hs' ht'
      unfold next at hlead
      split at hlead
      · cases hp : pick n (observe res n (pollAll order s (range n))) pms with
        | none =>
          rw [hp] at hlead
          exact hagain.imp hlead.1
        | some a =>
          rw [hp] at hlead
          obtain ⟨r, hr, _⟩ := evals_picked hs' (seenAll_pollAll s) hρ₁ hp
          exact ⟨r, hlead.1 r hr⟩
      · exact hagain.imp hlead.1

end Rounds

/-! ## The whole machine -/

theorem LeadsTo.evals_iff {ρ ρ' : Env E} {e e' : Exp E} {s s' : Store E} (h : LeadsTo res order ρ e s ρ' e' s')
    (r : Outcome E × Store E) : Evals res order ρ e s r ↔ Evals res order ρ' e' s' r := by
  constructor
  · intro hr
    obtain ⟨k, hk⟩ := hr
    obtain ⟨k', _, hk'⟩ := h.2 k r hk
    exact ⟨k', hk'⟩
  · exact h.1 r

/-- The futures are made in order, from the variable `f_i` on. -/
theorem evals_bindFutures {e : Exp E} : ∀ {es : List E} {i : Nat} {ρ : Env E} {s : Store E},
    i = s.spawned.length + 1 →
    ∃ ρ' s', (∀ r, Evals res order ρ (bindFutures i es e) s r ↔ Evals res order ρ' e s' r) ∧
      s'.clock = s.clock ∧ s'.seen = s.seen ∧
      (∀ j, i ≤ j + 1 → j + 1 < i + es.length → ρ'.lookup (.fut (j + 1)) = some (.future j)) ∧
      ∀ x, (∀ j, i ≤ j → x ≠ .fut j) → ρ'.lookup x = ρ.lookup x
  | [], i, ρ, s, _ => ⟨ρ, s, fun _ => Iff.rfl, rfl, rfl, fun j h₁ h₂ => absurd h₂ (by simp; omega), fun _ _ => rfl⟩
  | a :: es, i, ρ, s, hi => by
    have hfut : Evals res order ρ (.future a) s
        (.value (.future s.spawned.length), { s with spawned := s.spawned ++ [a] }) := ⟨1, rfl⟩
    have hlead : LeadsTo res order ρ (bindFutures i (a :: es) e) s ((.fut i, .future s.spawned.length) :: ρ)
        (bindFutures (i + 1) es e) { s with spawned := s.spawned ++ [a] } :=
      ⟨fun _ hr => hfut.letVal hr, fun _ _ hk => eval_letVal_inv hfut hk⟩
    obtain ⟨ρ', s', hev, hclock, hseen, hnew, hold⟩ := @evals_bindFutures e es (i + 1)
      ((.fut i, .future s.spawned.length) :: ρ) { s with spawned := s.spawned ++ [a] } (by simp [hi])
    refine ⟨ρ', s', fun r => (hlead.evals_iff r).trans (hev r), hclock, hseen, fun j h₁ h₂ => ?_, fun x hx => ?_⟩
    · by_cases hj : i = j + 1
      · rw [hold]
        · rw [← hj, List.lookup_cons_self]
          have : s.spawned.length = j := by omega
          rw [this]
        · intro k hk h
          cases h
          omega
      · exact hnew j (by omega) (by rw [List.length_cons] at h₂; omega)
    · rw [hold x fun j hj => hx j (by omega), lookup_cons]
      rw [beq_eq_false_iff_ne.2 (hx i (Nat.le_refl i))]

/-- The rules have one pattern for each of `n` computations. -/
def Fits (n : Nat) (pms : List (PMatch E)) : Prop := ∀ ps e, PMatch.pmatch ps e ∈ pms → ps.length = n

theorem length_cbOf {n : Nat} (h : Fits n pms) : ∀ pm ∈ pms, (cbOf n pm).length = n := by
  intro pm hpm
  cases pm with
  | otherwise e => exact List.length_replicate
  | pmatch ps e => simpa [cbOf, fromPPats] using h ps e hpm

/-- Every run of the machine comes to a commitment, and there is one once all computations complete. -/
theorem tr_run {es : List E} (hone : pms.countP belongsLast = 1)
    (hfits : Fits es.length pms) : ∃ m, tr es pms = .ok m ∧ ∀ (res : Nat → Result E) order ρ₀,
      (∀ r, Evals res order ρ₀ m .init r → Committed res order es.length pms ρ₀ r) ∧
      ((∃ t, ∀ i < es.length, order.done t i = true) → ∃ r, Evals res order ρ₀ m .init r) := by
  have hpms := length_cbOf hfits
  obtain ⟨m, hm, hasm⟩ := buildMap_ok hpms
  obtain ⟨ks, hks⟩ : ∃ ks, ks = (CBM.keys m).reverse := ⟨_, rfl⟩
  have hfuns : mkFuns es.length m [] [] = .ok (machine es.length pms ks) := by
    have h := @mkFuns_ok E es.length pms hpms m [] hasm.uniform hasm.arms
    rwa [List.append_nil, ← hks] at h
  refine ⟨bindFutures 1 es (.letFun (machine es.length pms ks) applyGo), ?_, fun res order ρ₀ => ?_⟩
  · have hoth : otherwise pms = .ok pms := by simp [otherwise, hone]
    unfold tr mkStateMachine
    simp only [bind, Except.bind, hoth, hm, hfuns]
    rfl
  · have hlen : ∀ c ∈ ks, c.length = es.length := by
      intro c hc
      rw [hks] at hc
      exact hasm.uniform c (mem_reverse.1 hc)
    have hother : pms.countP belongsLast ≠ 0 := by omega
    have hall : allOnes es.length ∈ ks := by
      obtain ⟨pm, hpm, hlast⟩ := countP_pos_iff.1 (Nat.pos_of_ne_zero hother)
      rw [hks, mem_reverse, hasm.mem]
      cases pm with
      | pmatch ps e => cases hlast
      | otherwise e => exact mem_map.2 ⟨_, hpm, rfl⟩
    obtain ⟨ρf, s, hev, hclock, hseen, hfut, hsrc⟩ := @evals_bindFutures E res order
      (.letFun (machine es.length pms ks) applyGo) es 1 ρ₀ .init rfl
    have hin : Around es.length pms ks ρf ρ₀ (bindFuns (machine es.length pms ks) ρf) :=
      around_bindFuns (fun i hi => hfut i (by omega) (by omega)) fun x => hsrc _ fun j _ h => by cases h
    have hs : SeenDone order s := by
      intro i hi
      rw [hseen] at hi
      cases hi
    have hletFun : ∀ r, Evals res order ρf (.letFun (machine es.length pms ks) applyGo) s r ↔
        Evals res order (bindFuns (machine es.length pms ks) ρf) applyGo s r := by
      intro r
      constructor
      · intro hr
        obtain ⟨k, hk⟩ := hr
        cases k with
        | zero => cases hk
        | succ k => exact ⟨k, hk⟩
      · intro hr
        obtain ⟨k, hk⟩ := hr
        exact ⟨k + 1, hk⟩
    refine ⟨fun r hr => ?_, fun ht => ?_⟩
    · obtain ⟨k, hk⟩ := (hletFun r).1 ((hev r).1 hr)
      exact go_sound hpms hother hlen hin k hin hs hk
    · obtain ⟨t, ht⟩ := ht
      obtain ⟨r, hr⟩ := go_complete hpms hother hlen hall hin ht t hin hs (by omega)
      exact ⟨r, (hev r).2 ((hletFun r).2 hr)⟩

/-- There is a machine only for rules that fit, one of them an `otherwise` rule. -/
theorem fits_of_tr {es : List E} {m : Exp E} (h : tr es pms = .ok m) :
    pms.countP belongsLast = 1 ∧ Fits es.length pms := by
  unfold tr at h
  have hone : pms.countP belongsLast = 1 := by
    by_contra hne
    unfold otherwise at h
    by_cases hgt : pms.countP belongsLast > 1
    · simp [hgt, bind, Except.bind] at h
    · have hzero : pms.countP belongsLast = 0 := by omega
      simp [hzero, bind, Except.bind] at h
  refine ⟨hone, fun ps e hps => ?_⟩
  obtain ⟨q, hq, hlast⟩ := countP_pos_iff.1 (show 0 < pms.countP belongsLast by omega)
  have hoth : otherwise pms = .ok pms := by simp [otherwise, hone]
  cases hb : buildMap es.length pms with
  | error e => simp [hoth, hb, bind, Except.bind] at h
  | ok m' =>
    have hlen := length_of_buildMap hb hps hq
    cases q with
    | pmatch qs e => cases hlast
    | otherwise e => simpa [cbOf, fromPPats, allOnes] using hlen

/-! ## The meaning of the rules -/

/-- The results of `n` computations that have all completed. -/
def allResults (res : Nat → Result E) (n : Nat) : List (Option (Result E)) :=
  (range n).map fun i => some (res i)

/-- The rule inspects the computation `i`. -/
def Inspects (ps : List PPat) (i : Nat) : Prop := (fromPPats ps)[i]? = some .one

/-- The machine has committed to the rule `k` as it should: what the rule inspects has completed and matches,
    and its variables have the results; the `otherwise` rule is taken only if all computations have completed
    and no other rule matches; and no rule before `k` is enabled by what the machine has seen. -/
structure CommitsTo (res : Nat → Result E) (order : Order) (n : Nat) (pms : List (PMatch E)) (ρ₀ : Env E) (k : Nat)
    (ρ : Env E) (s : Store E) : Prop where
  rule : ∀ ps e, pms[k]? = some (PMatch.pmatch ps e) →
    (∀ i, Inspects ps i → order.done s.clock i = true) ∧
      ∃ η, matchPPats ps (allResults res n) = some η ∧ ∀ x, ρ.lookup (.src x) = (η ++ ρ₀).lookup (.src x)
  other : ∀ e, pms[k]? = some (PMatch.otherwise e) →
    (∀ i < n, order.done s.clock i = true) ∧
      (∀ (j : Nat) ps e', pms[j]? = some (PMatch.pmatch ps e') → matchPPats ps (allResults res n) = none) ∧
      ∀ x, ρ.lookup (.src x) = ρ₀.lookup (.src x)
  first : ∀ j < k, ∀ ps e, pms[j]? = some (PMatch.pmatch ps e) → matchPPats ps (observe res n s) = none

/-! ### What has been observed, and what the results are -/

theorem matchPPats_of_seen {seen : Nat → Bool} : ∀ {ps : List PPat} {is : List Nat} {η : Env E},
    matchPPats ps (is.map fun i => if seen i then some (res i) else none) = some η →
    matchPPats ps (is.map fun i => some (res i)) = some η
  | [], [], _, h => h
  | pp :: ps, i :: is, η, h => by
    rw [map_cons, matchPPats] at h ⊢
    cases h₁ : matchPPat pp (if seen i then some (res i) else none) with
    | none => simp [h₁] at h
    | some η₁ =>
      cases h₂ : matchPPats ps (is.map fun i => if seen i then some (res i) else none) with
      | none => simp [h₁, h₂] at h
      | some η₂ =>
        simp only [h₁, h₂] at h
        have h₁' : matchPPat pp (some (res i)) = some η₁ := by
          by_cases hs : seen i = true
          · rwa [if_pos hs] at h₁
          · rw [if_neg hs] at h₁
            cases pp with
            | ndWildPat => exact h₁
            | pat | handlePat => cases h₁
        rw [h₁', matchPPats_of_seen h₂]
        exact h

theorem matchPPats_of_observe {n : Nat} {ps : List PPat} {s : Store E} {η : Env E}
    (h : matchPPats ps (observe res n s) = some η) : matchPPats ps (allResults res n) = some η :=
  matchPPats_of_seen h

theorem one_of_le {c₁ c₂ : CB} {i : Nat} (h : CB.le c₁ c₂ = true) (h₁ : c₁[i]? = some .one) (hi : i < c₂.length) :
    c₂[i]? = some .one := by
  obtain ⟨hi₁, hb₁⟩ := List.getElem?_eq_some_iff.1 h₁
  have hz : (c₁.zip c₂)[i]? = some (c₁[i], c₂[i]) := by
    rw [List.getElem?_eq_getElem (by simp; omega), List.getElem_zip]
  have := List.all_eq_true.1 h _ (mem_of_getElem? hz)
  rw [hb₁] at this
  rw [List.getElem?_eq_getElem hi]
  simpa using this

theorem seen_of_bits {n i : Nat} {s : Store E} (h : (bitsOf (observe res n s))[i]? = some .one) : s.seen i = true := by
  unfold bitsOf observe at h
  rw [map_map, List.getElem?_map] at h
  obtain ⟨j, hj, hb⟩ := Option.map_eq_some_iff.1 h
  have hji : j = i := by
    obtain ⟨_, hj'⟩ := List.getElem?_eq_some_iff.1 hj
    rw [← hj', List.getElem_range]
  subst hji
  by_cases hs : s.seen j = true
  · exact hs
  · simp [hs] at hb

/-- A rule that matches what has been observed inspects only computations that have completed. -/
theorem done_of_matchPPats {n i : Nat} {ps : List PPat} {s : Store E} {η : Env E} (hs : SeenDone order s)
    (hlen : ps.length = n) (h : matchPPats ps (observe res n s) = some η) (hi : Inspects ps i) :
    order.done s.clock i = true := by
  refine hs i (seen_of_bits (one_of_le (le_of_matchPPats h) hi ?_))
  obtain ⟨hi', _⟩ := List.getElem?_eq_some_iff.1 hi
  simpa [bitsOf, fromPPats, hlen] using hi'

theorem observe_of_seen {n : Nat} {s : Store E} (h : ∀ i < n, s.seen i = true) :
    observe res n s = allResults res n := by
  unfold observe allResults
  refine List.map_congr_left fun i hi => ?_
  rw [if_pos (h i (mem_range.1 hi))]

theorem seen_of_allOnes {n : Nat} {s : Store E} (h : bitsOf (observe res n s) = allOnes n) :
    ∀ i < n, s.seen i = true := by
  intro i hi
  refine @seen_of_bits _ res n i s ?_
  rw [h, allOnes, List.getElem?_replicate, if_pos hi]

/-- No two rules match the results. -/
def NoOverlap (res : Nat → Result E) (n : Nat) (pms : List (PMatch E)) : Prop :=
  ∀ (j k : Nat) ps qs d e, pms[j]? = some (PMatch.pmatch ps d) → pms[k]? = some (PMatch.pmatch qs e) →
    (matchPPats ps (allResults res n)).isSome = true → (matchPPats qs (allResults res n)).isSome = true → j = k

theorem commitsTo_of_chosen {n k : Nat} {e : E} {η ρ₀ ρ : Env E} {s : Store E}
    (hfits : Fits n pms) (hs : SeenDone order s) (hch : Chosen n (observe res n s) pms k e η)
    (hρ : ∀ x, ρ.lookup (.src x) = (η ++ ρ₀).lookup (.src x)) (hover : NoOverlap res n pms) :
    CommitsTo res order n pms ρ₀ k ρ s := by
  cases hch with
  | @rule ps η hk hm hlater =>
    refine ⟨fun qs e' hq => ?_, fun e' hq => ?_, fun j hj qs e' hq => ?_⟩
    · rw [hk] at hq
      cases hq
      exact ⟨fun i hi => done_of_matchPPats hs (hfits ps e (mem_of_getElem? hk)) hm hi, η,
        matchPPats_of_observe hm, hρ⟩
    · rw [hk] at hq
      cases hq
    · cases hm' : matchPPats qs (observe res n s) with
      | none => rfl
      | some η' =>
        have hjk := hover j k qs ps e' e hq hk (by rw [matchPPats_of_observe hm']; rfl)
          (by rw [matchPPats_of_observe hm]; rfl)
        omega
  | other hk hall hnone =>
    have hseen := seen_of_allOnes hall
    refine ⟨fun qs e' hq => ?_, fun e' hq => ?_, fun j hj qs e' hq => hnone j qs e' hq⟩
    · rw [hk] at hq
      cases hq
    · refine ⟨fun i hi => hs i (hseen i hi), fun j qs e'' hq' => ?_, hρ⟩
      rw [← observe_of_seen hseen]
      exact hnone j qs e'' hq'

/-! ## The order of the rules -/

/-- The expression of a rule. -/
def bodyOf : PMatch E → E
  | .pmatch _ e => e
  | .otherwise e => e

/-- The rule, with its place among the rules as part of its expression. -/
def numberRule (k : Nat) : PMatch E → PMatch (Nat × E)
  | .pmatch ps e => .pmatch ps (k, e)
  | .otherwise e => .otherwise (k, e)

/-- The rules with their places. -/
def number (pms : List (PMatch E)) : List (PMatch (Nat × E)) := pms.mapIdx numberRule

theorem getElem?_number (pms : List (PMatch E)) (k : Nat) : (number pms)[k]? = (pms[k]?).map (numberRule k) :=
  List.getElem?_mapIdx

theorem getElem?_number_pmatch {k : Nat} {ps : List PPat} {e : Nat × E} :
    (number pms)[k]? = some (.pmatch ps e) ↔ e.1 = k ∧ pms[k]? = some (.pmatch ps e.2) := by
  rw [getElem?_number]
  cases hk : pms[k]? with
  | none => simp
  | some pm =>
    obtain ⟨l, e⟩ := e
    cases pm with
    | pmatch qs d =>
      simp only [Option.map_some, numberRule, Option.some.injEq, PMatch.pmatch.injEq, Prod.mk.injEq]
      constructor
      · intro h
        exact ⟨h.2.1.symm, h.1, h.2.2⟩
      · intro h
        exact ⟨h.2.1, h.1.symm, h.2.2⟩
    | otherwise d => simp [numberRule]

theorem getElem?_number_otherwise {k : Nat} {e : Nat × E} :
    (number pms)[k]? = some (.otherwise e) → e.1 = k ∧ pms[k]? = some (.otherwise e.2) := by
  rw [getElem?_number]
  intro h
  obtain ⟨pm, hpm, heq⟩ := Option.map_eq_some_iff.1 h
  cases pm with
  | pmatch ps d => cases heq
  | otherwise d =>
    cases heq
    exact ⟨rfl, hpm⟩

theorem countP_number (pms : List (PMatch E)) : (number pms).countP belongsLast = pms.countP belongsLast := by
  induction pms using List.reverseRecOn with
  | nil => rfl
  | append_singleton pms pm ih =>
    unfold number at ih ⊢
    rw [List.mapIdx_append, List.countP_append, List.countP_append, ih]
    cases pm <;> rfl

theorem fits_number {n : Nat} : Fits n (number pms) ↔ Fits n pms := by
  constructor
  · intro h ps e hps
    obtain ⟨k, hk⟩ := List.mem_iff_getElem?.1 hps
    exact h ps (k, e) (mem_of_getElem? (getElem?_number_pmatch.2 ⟨rfl, hk⟩))
  · intro h ps e hps
    obtain ⟨k, hk⟩ := List.mem_iff_getElem?.1 hps
    exact h ps e.2 (mem_of_getElem? (getElem?_number_pmatch.1 hk).2)

/-- The chosen rule has the place that its expression says. -/
theorem Chosen.place {n k : Nat} {obs : List (Option (Result (Nat × E)))} {e : Nat × E}
    {η : Env (Nat × E)} (h : Chosen n obs (number pms) k e η) :
    ∃ pm, pms[k]? = some pm ∧ e = (k, bodyOf pm) := by
  cases h with
  | rule hk _ _ =>
    obtain ⟨h₁, h₂⟩ := getElem?_number_pmatch.1 hk
    exact ⟨_, h₂, by rw [← h₁]; rfl⟩
  | other hk _ _ =>
    obtain ⟨h₁, h₂⟩ := getElem?_number_otherwise hk
    exact ⟨_, h₂, by rw [← h₁]; rfl⟩

/-- The translation makes a machine that commits, in every order of completion, to the rule that it should for
    these results, and that does commit once all computations have completed. -/
def Faithful (es : List (Nat × E)) (pms : List (PMatch E)) (res : Nat → Result (Nat × E)) : Prop :=
  ∃ m, tr es (number pms) = .ok m ∧ ∀ order ρ₀,
    ((∃ t, ∀ i < es.length, order.done t i = true) → ∃ r, Evals res order ρ₀ m .init r) ∧
    ∀ r, Evals res order ρ₀ m .init r → ∃ k pm ρ s, pms[k]? = some pm ∧ r = (.commit (k, bodyOf pm) ρ, s) ∧
      CommitsTo res order es.length (number pms) ρ₀ k ρ s

/-- All computations have completed from the start. -/
def Order.always : Order := ⟨fun _ _ => true, fun h => h⟩

/-- The machine commits as it should just where there is one `otherwise` rule, every rule has a pattern for each
    computation, and no two rules match the results. -/
theorem commits_first_iff (es : List (Nat × E)) (pms : List (PMatch E)) (res : Nat → Result (Nat × E)) :
    Faithful es pms res ↔
      pms.countP belongsLast = 1 ∧ Fits es.length pms ∧ NoOverlap res es.length (number pms) := by
  constructor
  · intro h
    obtain ⟨m, hm, hruns⟩ := h
    obtain ⟨hone, hfits⟩ := fits_of_tr hm
    refine ⟨by rwa [countP_number] at hone, fits_number.1 hfits, ?_⟩
    -- the run where everything has completed sees all results
    obtain ⟨m', hm', hrun⟩ := tr_run hone hfits
    rw [hm] at hm'
    cases hm'
    obtain ⟨r, hr⟩ := (hruns Order.always []).1 ⟨0, fun _ _ => rfl⟩
    obtain ⟨k, pm, ρ, s, hk, rfl, hto⟩ := (hruns Order.always []).2 r hr
    obtain ⟨k', e, ρ', s', η, heq, _, hseen, hch, _⟩ := (hrun res Order.always []).1 _ hr
    cases heq
    obtain ⟨pm', _, hkk⟩ := hch.place
    obtain rfl := (Prod.mk.inj hkk).1
    have hobs : observe res es.length s = allResults res es.length := observe_of_seen fun i hi => hseen i hi rfl
    rw [hobs] at hch
    have hfirst := hto.first
    rw [hobs] at hfirst
    intro i j ps qs d e hi hj hps hqs
    cases hch with
    | other hk hall hnone =>
      rw [hnone i ps d hi] at hps
      cases hps
    | rule hk hm hlater =>
      have hplace : ∀ {i : Nat} {ps : List PPat} {d : Nat × E}, (number pms)[i]? = some (.pmatch ps d) →
          (matchPPats ps (allResults res es.length)).isSome = true → i = k := by
        intro i ps d hi hps
        rcases Nat.lt_trichotomy i k with hlt | heq | hgt
        · rw [hfirst i hlt ps d hi] at hps
          cases hps
        · exact heq
        · rw [hlater i hgt ps d hi] at hps
          cases hps
      rw [hplace hi hps, hplace hj hqs]
  · intro h
    obtain ⟨hone, hfits, hover⟩ := h
    have hfits' := fits_number.2 hfits
    obtain ⟨m, hm, hrun⟩ := tr_run (by rwa [countP_number]) hfits'
    refine ⟨m, hm, fun order ρ₀ => ⟨(hrun res order ρ₀).2, fun r hr => ?_⟩⟩
    obtain ⟨k, e, ρ, s, η, rfl, hs, _, hch, hρ⟩ := (hrun res order ρ₀).1 r hr
    obtain ⟨pm, hpm, rfl⟩ := hch.place
    exact ⟨k, pm, ρ, s, hpm, rfl, commitsTo_of_chosen hfits' hs hch hρ hover⟩

/-- Two rules that match every value: the machine takes the second one. -/
theorem overlapping_rules_not_faithful :
    ¬ Faithful [(0, ())] [.pmatch [.pat ⟨.varPat (.src 0), rfl⟩] (), .pmatch [.pat ⟨.varPat (.src 1), rfl⟩] (),
      .otherwise ()] fun _ => .res (.other 5) := by
  intro h
  obtain ⟨m, hm, hruns⟩ := h
  cases hm
  obtain ⟨k, pm, ρ, s, _, heq, hto⟩ := (hruns Order.always []).2 _ ⟨12, rfl⟩
  cases heq
  have hfirst := hto.first 0 (by decide) _ _ rfl
  cases hfirst

end Manticore.AstOpt.TranslatePCase
