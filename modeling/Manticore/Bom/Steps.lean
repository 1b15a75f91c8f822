/-
  Manticore.Bom.Steps — one lemma for each kind of step that generated code takes.
-/

import Manticore.Bom.Semantics

namespace Manticore.Bom

open Transition

variable {M : Machine} {ρ ρ' : Env} {stk : List Frame} {code : Handle → Option Clo} {made : Var → Nat} {w w' : M.W}

@[simp] theorem Env.set_same (ρ : Env) (x : Var) (v : Val) : ρ.set x v x = some v := if_pos rfl

variable {x : Var} {vs : List Val} {xs : List Var}

theorem Env.set_of_ne (ρ : Env) {y : Var} (v : Val) (h : y ≠ x) : ρ.set x v y = ρ y := if_neg h

@[simp] theorem Env.bind_nil (ρ : Env) : ρ.bind [] [] = some ρ := rfl

theorem step_let (lhs : List Var) (rhs e : Exp) : step M ⟨.eval (.let_ lhs rhs e) ρ, stk, code, made, w⟩ =
    .next ⟨.eval rhs ρ, ⟨lhs, e, ρ⟩ :: stk, code, made, w⟩ none := rfl

theorem step_stmt {lhs : List Var} {rhs : Rhs Var} {r : Rhs Val} {ev : Option M.E} (e : Exp)
    (hr : rhs.mapM ρ = some r) (hv : evalRhs M r w = some (vs, w', ev)) (hb : ρ.bind lhs vs = some ρ') :
    step M ⟨.eval (.stmt lhs rhs e) ρ, stk, code, made, w⟩ = .next ⟨.eval e ρ', stk, code, made, w'⟩ ev := by
  simp [step, stepEval, hr, hv, hb, ofOption]

/-- Selecting a component of an immutable tuple. -/
theorem step_select {i : Nat} {y : Var} {v : Val} (e : Exp) (hx : ρ x = some (.tuple vs)) (hv : vs[i]? = some v) :
    step M ⟨.eval (.stmt [y] (.select i x) e) ρ, stk, code, made, w⟩ = .next
      ⟨.eval e (ρ.set y v), stk, code, made, w⟩ none :=
  step_stmt (r := .select i (.tuple vs)) e (by simp [Rhs.mapM, hx]) (by rw [evalRhs, hv]; rfl) rfl

theorem step_dcon {dc : DCon} (e : Exp) (hxs : ρ.get xs = some vs) :
    step M ⟨.eval (.stmt [x] (.dcon dc xs) e) ρ, stk, code, made, w⟩ = .next
      ⟨.eval e (ρ.set x (.con dc.stamp vs)), stk, code, made, w⟩ none :=
  step_stmt (r := .dcon dc vs) e (by rw [Env.get] at hxs; simp [Rhs.mapM, hxs]) rfl rfl

theorem step_if {c : Cond Var} {b : Bool} (e₁ e₂ : Exp) (hxs : ρ.get c.args = some vs)
    (hc : M.evalCond c.op vs w = some (b, w, none)) :
    step M ⟨.eval (.if_ c e₁ e₂) ρ, stk, code, made, w⟩ = .next ⟨.eval (if b then e₁ else e₂) ρ, stk, code, made, w⟩
      none := by
  simp [step, stepEval, hxs, hc, ofOption]

theorem step_case {v : Val} {cases : List (Pat × Exp)} {dflt : Option Exp} {e : Exp} (hx : ρ x = some v)
    (hs : selectArm v cases dflt = some (xs, vs, e)) (hb : ρ.bind xs vs = some ρ') :
    step M ⟨.eval (.case_ x cases dflt) ρ, stk, code, made, w⟩ = .next ⟨.eval e ρ', stk, code, made, w⟩ none := by
  simp [step, stepEval, hx, hs, hb, ofOption]

theorem step_ret (hxs : ρ.get xs = some vs) :
    step M ⟨.eval (.ret xs) ρ, stk, code, made, w⟩ = .next ⟨.deliver vs, stk, code, made, w⟩ none := by
  simp [step, stepEval, hxs, ofOption]

theorem step_deliver {lhs : List Var} {e : Exp} (hb : ρ.bind lhs vs = some ρ') :
    step M ⟨.deliver vs, ⟨lhs, e, ρ⟩ :: stk, code, made, w⟩ = .next ⟨.eval e ρ', stk, code, made, w⟩ none := by
  simp [step, hb, ofOption]

theorem step_throw {k : Var} {xs : List Var} {v : Val} {vs : List Val} (hk : ρ k = some v) (hxs : ρ.get xs = some vs) :
    step M ⟨.eval (.throw k xs) ρ, stk, code, made, w⟩ = .next ⟨.raise v vs, stk, code, made, w⟩ none := by
  simp [step, stepEval, hk, hxs, ofOption]

theorem step_raise {h : Handle} {fb : Lambda} {stk' : List Frame} {vs : List Val} (hc : code h = some (.cont fb ρ stk'))
    (hb : ρ.bind fb.params vs = some ρ') :
    step M ⟨.raise (.code h) vs, stk, code, made, w⟩ = .next ⟨.eval fb.body ρ', stk', code, made, w⟩ none := by
  simp [step, hc, hb, ofOption]

end Manticore.Bom
