/-
  Manticore.Ast.Semantics — evaluation of the AST of `Manticore.Ast.Syntax` while other
  workers complete its futures.

  A future is numbered by when it was made. What the computation of a future comes to is
  given by `res`; when it does so is up to an `Order`, which says what has completed by
  each tick of the clock. The clock ticks at each poll, so any number of futures may
  complete between two polls. Evaluation ends at a source expression: `commit`.
-/

import Manticore.Ast.Syntax

namespace Manticore.Ast

variable {E : Type}

inductive Value (E : Type) where
  | const (k : Const)
  | con (dc : DCon) (v : Value E)
  | tuple (vs : List (Value E))
  | future (i : Nat)
  /-- The function `f` of the group `lams`. -/
  | closure (lams : List (Lambda E)) (f : Var) (ρ : List (Var × Value E))
  /-- Any other value of the source program. -/
  | other (n : Nat)

abbrev Env (E : Type) := List (Var × Value E)

/-- What a parallel computation comes to: a value or an exception. -/
inductive Result (E : Type) where
  | res (v : Value E)
  | exn (v : Value E)

def Result.toValue : Result E → Value E
  | .res v => .con .resultRES v
  | .exn v => .con .resultEXN v

/-- The value of `poll`. -/
def pollValue : Option (Result E) → Value E
  | some r => .con .optSOME r.toValue
  | none => .const (.dconst .optNONE)

/-- An order in which the computations complete. -/
structure Order where
  done : Nat → Nat → Bool
  mono : ∀ {t i}, done t i = true → done (t + 1) i = true

structure Store (E : Type) where
  clock : Nat
  spawned : List E
  /-- The futures that had completed when they were last polled. -/
  seen : Nat → Bool
  cancelled : List Nat

def Store.init : Store E := ⟨0, [], fun _ => false, []⟩

/-- Poll the future `i`. -/
def Store.poll (order : Order) (s : Store E) (i : Nat) : Store E :=
  { s with clock := s.clock + 1, seen := Function.update s.seen i (order.done s.clock i) }

mutual

/-- The bindings of a match of the value against the pattern. -/
def patMatch : Pat → Value E → Option (Env E)
  | .conPat dc p, .con dc' v => if dc = dc' then patMatch p v else none
  | .conPat _ _, _ => none
  | .tuplePat ps, .tuple vs => patMatches ps vs
  | .tuplePat _, _ => none
  | .varPat x, v => some [(x, v)]
  | .wildPat, _ => some []
  | .constPat k, .const k' => if k = k' then some [] else none
  | .constPat _, _ => none

def patMatches : List Pat → List (Value E) → Option (Env E)
  | [], [] => some []
  | p :: ps, v :: vs =>
    match patMatch p v, patMatches ps vs with
    | some η, some η' => some (η ++ η')
    | _, _ => none
  | _, _ => none

end

/-- The first of the matches that the value matches. -/
def firstMatch (ms : List (Match E)) (v : Value E) : Option (Env E × Exp E) :=
  ms.findSome? fun m => (patMatch m.1 v).map fun η => (η, m.2)

inductive Outcome (E : Type) where
  | value (v : Value E)
  /-- The source expression that is evaluated next, and in which environment. -/
  | commit (e : E) (ρ : Env E)

abbrev Answer (E : Type) := Option (Outcome E × Store E)

/-- Go on with the value; a source expression is the end. -/
def Answer.andThen (a : Answer E) (k : Value E → Store E → Answer E) : Answer E :=
  match a with
  | some (.value v, s) => k v s
  | some (.commit e ρ, s) => some (.commit e ρ, s)
  | none => none

/-- The components of a tuple from left to right; `vs` are the values so far, in reverse. -/
def evalTuple (ev : Exp E → Store E → Answer E) (vs : List (Value E)) : List (Exp E) → Store E → Answer E
  | [], s => some (.value (.tuple vs.reverse), s)
  | e :: es, s => (ev e s).andThen fun v s => evalTuple ev (v :: vs) es s

/-- The functions of a group, closed over `ρ`. -/
def bindFuns (lams : List (Lambda E)) (ρ : Env E) : Env E :=
  lams.map (fun l => (l.1, Value.closure lams l.1 ρ)) ++ ρ

/-- The function's parameter and body. -/
def findLam (lams : List (Lambda E)) (f : Var) : Option (Var × Exp E) :=
  (lams.find? fun l => l.1 = f).map (·.2)

/-- Evaluation with so much fuel; `none` when it runs out, or where there is no value. -/
def eval (res : Nat → Result E) (order : Order) : Nat → Env E → Exp E → Store E → Answer E
  | 0, _, _, _ => none
  | _ + 1, ρ, .src e, s => some (.commit e ρ, s)
  | _ + 1, ρ, .varExp x, s => (ρ.lookup x).map fun v => (.value v, s)
  | _ + 1, _, .future e, s => some (.value (.future s.spawned.length), { s with spawned := s.spawned ++ [e] })
  | n + 1, ρ, .tupleExp es, s => evalTuple (eval res order n ρ) [] es s
  | n + 1, ρ, .letVal x e body, s =>
    (eval res order n ρ e s).andThen fun v s => eval res order n ((x, v) :: ρ) body s
  | n + 1, ρ, .letFun lams body, s => eval res order n (bindFuns lams ρ) body s
  | n + 1, ρ, .seqExp e₁ e₂, s => (eval res order n ρ e₁ s).andThen fun _ s => eval res order n ρ e₂ s
  | n + 1, ρ, .caseExp e ms, s =>
    (eval res order n ρ e s).andThen fun v s =>
      match firstMatch ms v with
      | some (η, e) => eval res order n (η ++ ρ) e s
      | none => none
  | n + 1, ρ, .applyExp f e, s =>
    (eval res order n ρ e s).andThen fun v s =>
      match ρ.lookup f with
      | some (.closure lams g ρ') =>
        match findLam lams g with
        | some (x, body) => eval res order n ((x, v) :: bindFuns lams ρ') body s
        | none => none
      | _ => none
  | n + 1, ρ, .poll e, s =>
    (eval res order n ρ e s).andThen fun v s =>
      match v with
      | .future i =>
        some (.value (pollValue (if order.done s.clock i then some (res i) else none)), s.poll order i)
      | _ => none
  | n + 1, ρ, .cancel e, s =>
    (eval res order n ρ e s).andThen fun v s =>
      match v with
      | .future i => some (.value (.tuple []), { s with cancelled := s.cancelled ++ [i] })
      | _ => none

/-! ## Fuel -/

attribute [local simp] eval

@[simp] theorem andThen_value (v : Value E) (s : Store E) (k : Value E → Store E → Answer E) :
    Answer.andThen (some (.value v, s)) k = k v s := rfl

theorem andThen_mono {a a' : Answer E} {k k' : Value E → Store E → Answer E} {r : Outcome E × Store E}
    (ha : ∀ r, a = some r → a' = some r) (hk : ∀ v s r, k v s = some r → k' v s = some r)
    (h : a.andThen k = some r) : a'.andThen k' = some r := by
  match a, ha with
  | none, _ => cases h
  | some (.value v, s), ha =>
    rw [ha _ rfl]
    exact hk v s r h
  | some (.commit e ρ, s), ha =>
    rw [ha _ rfl]
    exact h

theorem evalTuple_mono {ev ev' : Exp E → Store E → Answer E} (hev : ∀ e s r, ev e s = some r → ev' e s = some r) :
    ∀ {es : List (Exp E)} {vs : List (Value E)} {s : Store E} {r : Outcome E × Store E},
      evalTuple ev vs es s = some r → evalTuple ev' vs es s = some r
  | [], _, _, _, h => h
  | _ :: _, _, _, _, h => andThen_mono (hev _ _) (fun _ _ _ hk => evalTuple_mono hev hk) h

variable {res : Nat → Result E} {order : Order}

theorem eval_succ : ∀ {n : Nat} {ρ : Env E} {e : Exp E} {s : Store E} {r : Outcome E × Store E},
    eval res order n ρ e s = some r → eval res order (n + 1) ρ e s = some r
  | n + 1, ρ, e, s, r, h => by
    have ih : ∀ ρ e s r, eval res order n ρ e s = some r → eval res order (n + 1) ρ e s = some r :=
      fun _ _ _ _ => eval_succ
    cases e with
    | src | varExp | future => exact h
    | tupleExp es => exact evalTuple_mono (ih ρ) h
    | letVal _ e _ | seqExp e _ => exact andThen_mono (ih ρ e s) (fun _ _ => ih _ _ _) h
    | letFun lams body => exact ih _ _ _ _ h
    | caseExp e ms =>
      refine andThen_mono (ih ρ e s) (fun v s r hk => ?_) h
      grind
    | applyExp f e =>
      refine andThen_mono (ih ρ e s) (fun v s r hk => ?_) h
      split at hk
      · split at hk
        · exact ih _ _ _ _ hk
        · cases hk
      · cases hk
    | poll e | cancel e => exact andThen_mono (ih ρ e s) (fun _ _ _ hk => hk) h

theorem eval_mono {n m : Nat} {ρ : Env E} {e : Exp E} {s : Store E} {r : Outcome E × Store E} (hnm : n ≤ m)
    (h : eval res order n ρ e s = some r) : eval res order m ρ e s = some r := by
  induction hnm with
  | refl => exact h
  | step _ ih => exact eval_succ ih

/-- Some fuel is enough to come to the outcome. -/
def Evals (res : Nat → Result E) (order : Order) (ρ : Env E) (e : Exp E) (s : Store E) (r : Outcome E × Store E) :
    Prop :=
  ∃ n, eval res order n ρ e s = some r

theorem Evals.of_eval {n : Nat} {ρ : Env E} {e : Exp E} {s : Store E} {r : Outcome E × Store E}
    (hr : Evals res order ρ e s r) {r' : Outcome E × Store E} (h : eval res order n ρ e s = some r') : r' = r := by
  obtain ⟨m, hm⟩ := hr
  have h₁ := eval_mono (Nat.le_max_left n m) h
  have h₂ := eval_mono (Nat.le_max_right n m) hm
  exact Option.some.inj (h₁.symm.trans h₂)

section Rules

variable {ρ : Env E} {e : Exp E} {s s' : Store E} {v : Value E} {r : Outcome E × Store E}

variable {n : Nat} {ρ' : Env E} {e' body : Exp E}

/-- Where the first part comes to a value, the answer is that of the rest. -/
theorem Evals.andThen_inv {k : Value E → Store E → Answer E} (hv : Evals res order ρ e s (.value v, s'))
    (h : (eval res order n ρ e s).andThen k = some r) : k v s' = some r := by
  cases ha : eval res order n ρ e s with
  | none => rw [ha] at h; cases h
  | some a =>
    rw [ha, hv.of_eval ha] at h
    exact h

/-- Two parts under one amount of fuel. -/
theorem Evals.both (hv : Evals res order ρ e s (.value v, s')) (hr : Evals res order ρ' e' s' r) :
    ∃ n, eval res order n ρ e s = some (.value v, s') ∧ eval res order n ρ' e' s' = some r := by
  obtain ⟨n, hn⟩ := hv
  obtain ⟨m, hm⟩ := hr
  exact ⟨max n m, eval_mono (Nat.le_max_left n m) hn, eval_mono (Nat.le_max_right n m) hm⟩

theorem Evals.caseExp {ms : List (Match E)} {η : Env E} (hv : Evals res order ρ e s (.value v, s'))
    (hm : firstMatch ms v = some (η, e')) (hr : Evals res order (η ++ ρ) e' s' r) :
    Evals res order ρ (.caseExp e ms) s r := by
  obtain ⟨n, h₁, h₂⟩ := hv.both hr
  refine ⟨n + 1, ?_⟩
  rw [eval, h₁, andThen_value, hm]
  exact h₂

theorem eval_caseExp_inv {ms : List (Match E)} {η : Env E} (hv : Evals res order ρ e s (.value v, s'))
    (hm : firstMatch ms v = some (η, e')) (h : eval res order n ρ (.caseExp e ms) s = some r) :
    ∃ k < n, eval res order k (η ++ ρ) e' s' = some r := by
  cases n with
  | zero => cases h
  | succ k =>
    have hk := hv.andThen_inv h
    rw [hm] at hk
    exact ⟨k, Nat.lt_succ_self k, hk⟩

theorem Evals.applyExp {f g param : Var} {lams : List (Lambda E)} (hv : Evals res order ρ e s (.value v, s'))
    (hf : ρ.lookup f = some (.closure lams g ρ')) (hl : findLam lams g = some (param, body))
    (hr : Evals res order ((param, v) :: bindFuns lams ρ') body s' r) : Evals res order ρ (.applyExp f e) s r := by
  obtain ⟨n, h₁, h₂⟩ := hv.both hr
  refine ⟨n + 1, ?_⟩
  rw [eval, h₁, andThen_value, hf]
  simp only [hl]
  exact h₂

theorem eval_applyExp_inv {f g param : Var} {lams : List (Lambda E)} (hv : Evals res order ρ e s (.value v, s'))
    (hf : ρ.lookup f = some (.closure lams g ρ')) (hl : findLam lams g = some (param, body))
    (h : eval res order n ρ (.applyExp f e) s = some r) :
    ∃ k < n, eval res order k ((param, v) :: bindFuns lams ρ') body s' = some r := by
  cases n with
  | zero => cases h
  | succ k =>
    have hk := hv.andThen_inv h
    rw [hf] at hk
    simp only [hl] at hk
    exact ⟨k, Nat.lt_succ_self k, hk⟩

theorem Evals.letVal {x : Var} (hv : Evals res order ρ e s (.value v, s'))
    (hr : Evals res order ((x, v) :: ρ) body s' r) : Evals res order ρ (.letVal x e body) s r := by
  obtain ⟨n, h₁, h₂⟩ := hv.both hr
  refine ⟨n + 1, ?_⟩
  rw [eval, h₁, andThen_value]
  exact h₂

theorem eval_letVal_inv {x : Var} (hv : Evals res order ρ e s (.value v, s'))
    (h : eval res order n ρ (.letVal x e body) s = some r) :
    ∃ k < n, eval res order k ((x, v) :: ρ) body s' = some r := by
  cases n with
  | zero => cases h
  | succ k => exact ⟨k, Nat.lt_succ_self k, hv.andThen_inv h⟩

theorem Evals.seqExp {e₂ : Exp E} (hv : Evals res order ρ e s (.value v, s')) (hr : Evals res order ρ e₂ s' r) :
    Evals res order ρ (.seqExp e e₂) s r := by
  obtain ⟨n, h₁, h₂⟩ := hv.both hr
  refine ⟨n + 1, ?_⟩
  rw [eval, h₁, andThen_value]
  exact h₂

end Rules

end Manticore.Ast
