/-
  Manticore.AstOpt.TranslatePCaseRun — what the functions of the state machine compute.

  `go` polls all futures; where the completed ones are just those of a key it calls the
  function of that key, else it starts again (`firstMatch_goArms`). The function of a key
  tries the rules of the key: of those that match, the one that was written last, and the
  `otherwise` rule after them (`firstMatch_stateArms`).
-/

import Manticore.Ast.Semantics
import Manticore.AstOpt.TranslatePCaseMap

namespace Manticore.AstOpt.TranslatePCase

open Ast
open List (reverseRecOn mem_cons length_cons map_cons mem_cons_self zip_cons_cons all_cons)
open CB (fromPPats allOnes)

variable {E : Type}

/-! ## What a rule asks for -/

/-- A pattern against what has been observed of a computation. -/
def matchPPat : PPat → Option (Result E) → Option (Env E)
  | .ndWildPat, _ => some []
  | .pat p, some (.res v) => patMatch p.val v
  | .handlePat p, some (.exn v) => patMatch p.val v
  | _, _ => none

/-- The bindings of a rule whose patterns match what has been observed. -/
def matchPPats : List PPat → List (Option (Result E)) → Option (Env E)
  | [], [] => some []
  | pp :: pps, o :: os =>
    match matchPPat pp o, matchPPats pps os with
    | some η, some η' => some (η ++ η')
    | _, _ => none
  | _, _ => none

/-- The completed computations. -/
def bitsOf (obs : List (Option (Result E))) : CB := obs.map fun o => if o.isSome then .one else .zero

@[simp] theorem bitsOf_none (obs : List (Option (Result E))) : bitsOf (none :: obs) = .zero :: bitsOf obs := rfl

@[simp] theorem bitsOf_some (r : Result E) (obs : List (Option (Result E))) :
    bitsOf (some r :: obs) = .one :: bitsOf obs := rfl

/-- The results that have been observed. -/
def resultsOf (obs : List (Option (Result E))) : List (Value E) := (obs.filterMap id).map Result.toValue

/-! ## Narrowing -/

/-- The elements at the ones of a bit string. -/
def keep {α : Type} (cb : CB) (xs : List α) : List α := ((cb.zip xs).filter fun p => p.1 = .one).map (·.2)

theorem applyCB_ok {α : Type} : ∀ {cb : CB} {xs : List α}, cb.length = xs.length → applyCB cb xs = .ok (keep cb xs)
  | [], [], _ => rfl
  | .zero :: cb, x :: xs, h => by
    rw [applyCB, applyCB_ok (by simpa using h)]
    rfl
  | .one :: cb, x :: xs, h => by
    rw [applyCB, applyCB_ok (by simpa using h)]
    rfl

def isWild : Pat → Bool
  | .wildPat => true
  | _ => false

/-- The futures at the wildcards. -/
def wilds (ps : List Pat) (fs : List Ast.Var) : List Ast.Var := ((ps.zip fs).filter fun p => isWild p.1).map (·.2)

theorem cancelThese_ok : ∀ {ps : List Pat} {fs : List Ast.Var}, ps.length = fs.length →
    cancelThese ps fs = .ok (wilds ps fs)
  | [], [], _ => rfl
  | p :: ps, f :: fs, h => by
    have ih : cancelThese ps fs = .ok (wilds ps fs) := cancelThese_ok (by simpa using h)
    cases p <;> simp [cancelThese, ih, wilds, isWild, bind, Except.bind, pure, Except.pure]

/-- A rule's code after its cancellations. -/
def armBody (n : Nat) (ps : List PPat) (e : E) : Exp E :=
  seqPrepend ((wilds (ps.map xform) (futureVars n)).map mkCancel) (.src e)

/-- A rule's match in the function of the key `cb`. -/
def narrowed (n : Nat) (cb : CB) : PMatch E → Match E
  | .otherwise e => (.wildPat, .src e)
  | .pmatch ps e => (.tuplePat (keep cb (ps.map xform)), armBody n ps e)

@[simp] theorem length_futureVars (n : Nat) : (futureVars n).length = n := by simp [futureVars]

variable {n : Nat} {cb : CB} {pm : PMatch E} {pms : List (PMatch E)} {obs : List (Option (Result E))}

theorem narrowMatch_ok (hcb : cb.length = n) (hpm : (cbOf n pm).length = n) :
    narrowMatch cb (futureVars n) (matchOf pm) = .ok (narrowed n cb pm) := by
  cases pm with
  | otherwise e => rfl
  | pmatch ps e =>
    have hps : ps.length = n := by simpa [cbOf, fromPPats] using hpm
    show narrowMatch cb (futureVars n) (.tuplePat (ps.map xform), .src e) = _
    rw [narrowMatch, applyCB_ok (by simp [hcb, hps]), cancelThese_ok (by simp [hps])]
    rfl

/-! ## The functions -/

/-- The rules at a key, in the order of their matches. -/
def rulesAt (n : Nat) (cb : CB) (pms : List (PMatch E)) : List (PMatch E) :=
  pms.foldl (fun rs pm =>
    if CB.le (cbOf n pm) cb then (if belongsLast pm then rs ++ [pm] else pm :: rs) else rs) []

theorem rulesAt_concat (n : Nat) (cb : CB) (pms : List (PMatch E)) (pm : PMatch E) :
    rulesAt n cb (pms ++ [pm]) =
      if CB.le (cbOf n pm) cb then (if belongsLast pm then rulesAt n cb pms ++ [pm] else pm :: rulesAt n cb pms)
      else rulesAt n cb pms := by
  unfold rulesAt
  rw [List.foldl_append]
  rfl

theorem armsAt_eq (n : Nat) (cb : CB) (pms : List (PMatch E)) :
    armsAt n cb pms = (rulesAt n cb pms).map matchOf := by
  induction pms using reverseRecOn with
  | nil => rfl
  | append_singleton pms pm ih =>
    rw [armsAt_concat, rulesAt_concat, ih]
    grind [addRule]

theorem mem_of_mem_rulesAt (h : pm ∈ rulesAt n cb pms) : pm ∈ pms := by
  induction pms using reverseRecOn with
  | nil => exact h
  | append_singleton pms q ih =>
    rw [rulesAt_concat] at h
    rw [List.mem_append, List.mem_singleton]
    by_cases hle : CB.le (cbOf n q) cb = true
    · by_cases hl : belongsLast q = true
      · rw [if_pos hle, if_pos hl, List.mem_append, List.mem_singleton] at h
        exact h.imp_left ih
      · rw [if_pos hle, if_neg hl, mem_cons] at h
        exact (h.imp_right ih).symm
    · rw [if_neg hle] at h
      exact Or.inl (ih h)

/-- The function of the key `cb`. -/
def stateLam (n : Nat) (pms : List (PMatch E)) (cb : CB) : Lambda E :=
  (.state cb, .arg, .caseExp (.varExp .arg)
    ((rulesAt n cb pms).map (narrowed n cb) ++ if cb = allOnes n then [] else [defaultMatch]))

/-- The patterns of `go` for a key, from the result `t_i` on. -/
def optPats (i : Nat) : CB → List Pat
  | [] => []
  | .zero :: bs => .constPat (.dconst .optNONE) :: optPats i bs
  | .one :: bs => .conPat .optSOME (.varPat (.tmp i)) :: optPats (i + 1) bs

/-- The variables of these patterns. -/
def tmps (i : Nat) : CB → List Ast.Var
  | [] => []
  | .zero :: bs => tmps i bs
  | .one :: bs => .tmp i :: tmps (i + 1) bs

/-- The match of `go` for a key. -/
def goArm (cb : CB) : Match E :=
  (.tuplePat (optPats 1 cb), .applyExp (.state cb) (.tupleExp ((tmps 1 cb).map .varExp)))

theorem mkMatch_ok (fV : Ast.Var) : ∀ (cb : CB) (i : Nat) (ps : List Pat) (vs : List Ast.Var),
    mkMatch (E := E) fV cb cb.length i ps vs =
      .ok ((.tuplePat (ps.reverse ++ optPats i cb),
        .applyExp fV (.tupleExp ((vs.reverse ++ tmps i cb).map .varExp))), vs.reverse ++ tmps i cb)
  | [], i, ps, vs => by simp [mkMatch, optPats, tmps]
  | .zero :: bs, i, ps, vs => by
    rw [length_cons, mkMatch, mkMatch_ok fV bs]
    simp [optPats, tmps]
  | .one :: bs, i, ps, vs => by
    rw [length_cons, mkMatch, mkMatch_ok fV bs]
    simp [optPats, tmps]

theorem narrowMatches_append (cb : CB) (fs : List Ast.Var) {ms ms' ns ns' : List (Match E)}
    (h : narrowMatches cb fs ms = .ok ns) (h' : narrowMatches cb fs ms' = .ok ns') :
    narrowMatches cb fs (ms ++ ms') = .ok (ns ++ ns') := by
  induction ms generalizing ns with
  | nil =>
    cases h
    exact h'
  | cons m ms ih =>
    rw [narrowMatches] at h
    rw [List.cons_append, narrowMatches]
    cases hm : narrowMatch cb fs m with
    | error e => simp [hm, bind, Except.bind] at h
    | ok n =>
      cases hms : narrowMatches cb fs ms with
      | error e => simp [hm, hms, bind, Except.bind] at h
      | ok ns₁ =>
        simp only [hm, hms, bind, Except.bind, pure, Except.pure, Except.ok.injEq] at h
        rw [ih hms, ← h]
        rfl

theorem narrowMatches_rules   (hcb : cb.length = n) : ∀ {rs : List (PMatch E)},
    (∀ pm ∈ rs, (cbOf n pm).length = n) →
    narrowMatches cb (futureVars n) (rs.map matchOf) = .ok (rs.map (narrowed n cb))
  | [], _ => rfl
  | pm :: rs, h => by
    rw [map_cons, narrowMatches, narrowMatch_ok hcb (h pm mem_cons_self),
      narrowMatches_rules hcb fun q hq => h q (List.mem_cons_of_mem _ hq)]
    rfl

theorem mkLam_ok (hcb : cb.length = n) (hpms : ∀ pm ∈ pms, (cbOf n pm).length = n) :
    mkLam (.state cb) cb (if cb = allOnes n then armsAt n cb pms else armsAt n cb pms ++ [defaultMatch])
      (futureVars n) = .ok (stateLam n pms cb) := by
  have hrules : narrowMatches cb (futureVars n) (armsAt n cb pms) = .ok ((rulesAt n cb pms).map (narrowed n cb)) := by
    rw [armsAt_eq]
    exact narrowMatches_rules hcb fun pm hpm => hpms pm (mem_of_mem_rulesAt hpm)
  unfold mkLam stateLam
  by_cases hall : cb = allOnes n
  · rw [if_pos hall, if_pos hall, hrules, List.append_nil]
    rfl
  · have hdflt : narrowMatches (E := E) cb (futureVars n) [defaultMatch] = .ok [defaultMatch] := rfl
    rw [if_neg hall, if_neg hall, narrowMatches_append cb _ hrules hdflt]
    rfl

/-- The functions of the machine with the keys `ks`. -/
def machine (n : Nat) (pms : List (PMatch E)) (ks : List CB) : List (Lambda E) :=
  mkGo (futureVars n) (ks.map goArm) :: ks.map (stateLam n pms)

theorem mkFuns_ok {n : Nat} {pms : List (PMatch E)} (hpms : ∀ pm ∈ pms, (cbOf n pm).length = n) :
    ∀ {m : MatchMap E} {ks : List CB}, CBM.Uniform n m → (∀ p ∈ m, p.2 = armsAt n p.1 pms) →
    mkFuns n m (ks.map goArm) (ks.map (stateLam n pms)) = .ok (machine n pms ((CBM.keys m).reverse ++ ks))
  | [], ks, _, _ => rfl
  | (cb, ms) :: m, ks, hu, ha => by
    have hcb : cb.length = n := hu.head
    have hms : ms = armsAt n cb pms := ha (cb, ms) mem_cons_self
    have ih := @mkFuns_ok n pms hpms m (cb :: ks) hu.tail fun p hp => ha p (List.mem_cons_of_mem _ hp)
    have hmatch := mkMatch_ok (E := E) (.state cb) cb 1 [] []
    rw [hcb] at hmatch
    have hones : isAllOnes cb = .ok (decide (cb = allOnes n)) := by
      unfold isAllOnes
      rw [CB.eq_ok (by simp [allOnes]), hcb]
    have hlam := mkLam_ok hcb hpms
    rw [← hms] at hlam
    unfold mkFuns
    simp only [bind, Except.bind, hmatch, hones, decide_eq_true_eq, hlam, CBM.keys_cons, List.reverse_cons, List.append_assoc,
      List.singleton_append]
    exact ih

theorem findLam_go (n : Nat) (pms : List (PMatch E)) (ks : List CB) :
    findLam (machine n pms ks) .go =
      some (.unit, .caseExp (.tupleExp ((futureVars n).map mkPoll)) (ks.map goArm ++ [defaultMatch])) := by
  simp [findLam, machine, mkGo]

theorem findLam_state {ks : List CB} (h : cb ∈ ks) :
    findLam (machine n pms ks) (.state cb) = some (stateLam n pms cb).2 := by
  have hfind : ∀ {ks : List CB}, cb ∈ ks →
      (ks.map (stateLam n pms)).find? (fun l => l.1 = .state cb) = some (stateLam n pms cb) := by
    intro ks
    induction ks with
    | nil => exact fun h => absurd h List.not_mem_nil
    | cons c ks ih =>
      intro h
      by_cases hc : c = cb
      · simp [stateLam, hc]
      · have hne : ¬ (stateLam n pms c).1 = Ast.Var.state cb := fun h => hc (by simpa [stateLam] using h)
        rw [map_cons, List.find?_cons_of_neg (by simpa using hne)]
        exact ih ((mem_cons.1 h).resolve_left (Ne.symm hc))
  unfold findLam machine
  rw [List.find?_cons_of_neg (by simp [mkGo]), hfind h]
  rfl

/-! ## The matches of `go` -/

theorem patMatches_optPats : ∀ {cb : CB} {obs : List (Option (Result E))} (i : Nat), cb.length = obs.length →
    patMatches (optPats i cb) (obs.map pollValue) =
      if bitsOf obs = cb then some ((tmps i cb).zip (resultsOf obs)) else none
  | [], [], _, _ => rfl
  | .zero :: cb, none :: obs, i, h => by
    have ih := @patMatches_optPats cb obs i (by simpa using h)
    rw [optPats, map_cons, patMatches, ih, bitsOf_none]
    by_cases hb : bitsOf obs = cb
    · rw [if_pos hb, if_pos (by rw [← hb])]
      rfl
    · rw [if_neg hb, if_neg fun h => hb (List.cons.inj h).2]
      rfl
  | .zero :: cb, some r :: obs, i, h => by
    rw [if_neg fun h => by cases (List.cons.inj h).1]
    rfl
  | .one :: cb, none :: obs, i, h => by
    rw [if_neg fun h => by cases (List.cons.inj h).1]
    rfl
  | .one :: cb, some r :: obs, i, h => by
    have ih := @patMatches_optPats cb obs (i + 1) (by simpa using h)
    rw [optPats, map_cons, patMatches, ih, bitsOf_some]
    by_cases hb : bitsOf obs = cb
    · rw [if_pos hb, if_pos (by rw [← hb])]
      rfl
    · rw [if_neg hb, if_neg fun h => hb (List.cons.inj h).2]
      rfl

theorem firstMatch_goArms {obs : List (Option (Result E))} : ∀ {ks : List CB}, (∀ c ∈ ks, c.length = obs.length) →
    firstMatch (ks.map goArm ++ [defaultMatch]) (.tuple (obs.map pollValue)) =
      if bitsOf obs ∈ ks then
        some ((tmps 1 (bitsOf obs)).zip (resultsOf obs), (goArm (bitsOf obs)).2)
      else some ([], applyGo)
  | [], _ => rfl
  | c :: ks, h => by
    have ih := @firstMatch_goArms obs ks fun d hd => h d (List.mem_cons_of_mem _ hd)
    have hc : patMatch (goArm (E := E) c).1 (.tuple (obs.map pollValue)) = _ :=
      @patMatches_optPats E c obs 1 (h c mem_cons_self)
    unfold firstMatch at ih ⊢
    rw [map_cons, List.cons_append, List.findSome?_cons, hc]
    by_cases hb : bitsOf obs = c
    · rw [if_pos hb, if_pos (by simp [hb]), hb]
      rfl
    simp_all

/-! ## The matches of a state -/

theorem patMatch_xform (pp : PPat) (r : Result E) : patMatch (xform pp) r.toValue = matchPPat pp (some r) := by
  cases pp with
  | ndWildPat => rfl
  | handlePat p => cases r <;> rfl
  | pat p => cases r <;> rfl

/-- The patterns that are left match the results that are there as the rule asks. -/
theorem patMatches_keep : ∀ {ps : List PPat} {obs : List (Option (Result E))}, ps.length = obs.length →
    CB.le (fromPPats ps) (bitsOf obs) = true →
    patMatches (keep (bitsOf obs) (ps.map xform)) (resultsOf obs) = matchPPats ps obs
  | [], [], _, _ => rfl
  | pp :: ps, none :: obs, h, hle => by
    have hpp : pp = .ndWildPat := by
      grind [CB.le, fromPPats, bitsOf]
    have ih := @patMatches_keep ps obs (by simpa using h) (by
      simp only [CB.le, fromPPats, bitsOf, map_cons, zip_cons_cons, all_cons,
        Bool.and_eq_true] at hle ⊢
      exact hle.2)
    show patMatches (keep (bitsOf obs) (ps.map xform)) (resultsOf obs) = _
    rw [ih, hpp, matchPPats]
    cases matchPPats ps obs <;> rfl
  | pp :: ps, some r :: obs, h, hle => by
    have ih := @patMatches_keep ps obs (by simpa using h) (by
      simp only [CB.le, fromPPats, bitsOf, map_cons, zip_cons_cons, all_cons,
        Bool.and_eq_true] at hle ⊢
      exact hle.2)
    show patMatches (xform pp :: keep (bitsOf obs) (ps.map xform)) (r.toValue :: resultsOf obs) = _
    rw [patMatches, ih, patMatch_xform]
    rfl

/-- A rule matches only if what it inspects has completed. -/
theorem le_of_matchPPats : ∀ {ps : List PPat} {obs : List (Option (Result E))} {η : Env E},
    matchPPats ps obs = some η → CB.le (fromPPats ps) (bitsOf obs) = true
  | [], [], _, _ => rfl
  | pp :: ps, o :: obs, η, h => by
    rw [matchPPats] at h
    cases hp : matchPPat pp o with
    | none => simp [hp] at h
    | some η₁ =>
      cases hps : matchPPats ps obs with
      | none => simp [hp, hps] at h
      | some η₂ =>
        have ih := le_of_matchPPats hps
        simp only [CB.le, fromPPats, bitsOf, map_cons, zip_cons_cons, all_cons,
          Bool.and_eq_true] at ih ⊢
        refine ⟨?_, ih⟩
        cases pp with
        | ndWildPat => rfl
        | handlePat | pat =>
          cases o with
          | none => cases hp
          | some r => rfl

/-- The bindings and the code of a rule that is enabled by what has been observed; the `otherwise` rule is
    so when all computations have completed. -/
def ruleArm (n : Nat) (obs : List (Option (Result E))) : PMatch E → Option (Env E × Exp E)
  | .pmatch ps e => (matchPPats ps obs).map fun η => (η, armBody n ps e)
  | .otherwise e => if bitsOf obs = allOnes n then some ([], .src e) else none

/-- The rule that the machine takes: the last one that is enabled, and else the `otherwise` rule. -/
def pick (n : Nat) (obs : List (Option (Result E))) (pms : List (PMatch E)) : Option (Env E × Exp E) :=
  (pms.reverse.findSome? fun pm => if belongsLast pm then none else ruleArm n obs pm).or
    (pms.findSome? fun pm => if belongsLast pm then ruleArm n obs pm else none)

theorem allOnes_le (hcb : cb.length = n) (h : CB.le (allOnes n) cb = true) : cb = allOnes n := by
  subst hcb
  induction cb with
  | nil => rfl
  | cons b cb ih =>
    simp only [CB.le, allOnes, length_cons, List.replicate_succ, zip_cons_cons, all_cons,
      Bool.and_eq_true] at h ih ⊢
    have hb : b = .one := by simpa using h.1
    rw [hb, ← ih h.2]

theorem ruleArm_eq (hobs : obs.length = n) (hpm : (cbOf n pm).length = n)
    (hle : CB.le (cbOf n pm) (bitsOf obs) = true) :
    (patMatch (narrowed n (bitsOf obs) pm).1 (.tuple (resultsOf obs))).map
      (fun η => (η, (narrowed n (bitsOf obs) pm).2)) = ruleArm n obs pm := by
  cases pm with
  | otherwise e =>
    have hall : bitsOf obs = allOnes n := allOnes_le (by simp [bitsOf, hobs]) hle
    rw [ruleArm, if_pos hall]
    rfl
  | pmatch ps e =>
    have hps : ps.length = obs.length := by simpa [cbOf, fromPPats, hobs] using hpm
    show (patMatches (keep (bitsOf obs) (ps.map xform)) (resultsOf obs)).map _ = _
    rw [patMatches_keep hps hle]
    rfl

theorem ruleArm_of_not_le (hle : CB.le (cbOf n pm) (bitsOf obs) ≠ true) : ruleArm n obs pm = none := by
  cases pm with
  | otherwise e =>
    rw [ruleArm, if_neg]
    intro h
    refine hle ?_
    rw [h]
    simp [cbOf, CB.le, allOnes]
  | pmatch ps e =>
    rw [ruleArm]
    cases hm : matchPPats ps obs with
    | none => rfl
    | some η => exact absurd (le_of_matchPPats hm) hle

theorem firstMatch_stateArms (hobs : obs.length = n) (hpms : ∀ pm ∈ pms, (cbOf n pm).length = n) :
    firstMatch ((rulesAt n (bitsOf obs) pms).map (narrowed n (bitsOf obs))) (.tuple (resultsOf obs)) = pick n obs
      pms := by
  unfold firstMatch pick
  rw [List.findSome?_map]
  induction pms using reverseRecOn with
  | nil => rfl
  | append_singleton pms pm ih =>
    specialize ih fun q hq => hpms q (List.mem_append_left _ hq)
    rw [rulesAt_concat, List.reverse_append, List.reverse_singleton, List.singleton_append, List.findSome?_cons,
      List.findSome?_append, List.findSome?_singleton]
    by_cases hle : CB.le (cbOf n pm) (bitsOf obs) = true
    · have harm := ruleArm_eq hobs (hpms pm (by simp)) hle
      by_cases hl : belongsLast pm = true
      · rw [if_pos hle, if_pos hl, List.findSome?_append, ih, List.findSome?_singleton]
        simp only [hl, if_true, Function.comp, harm, Option.or_assoc]
      grind
    · rw [if_neg hle, ih, ruleArm_of_not_le hle]
      simp

end Manticore.AstOpt.TranslatePCase
