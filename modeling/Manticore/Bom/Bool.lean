/-
  Manticore.Bom.Bool — the boolean datatype of the representation (`bom/bom-ty-util.sml`) and the
  case on it (`BOMUtil.mkBoolCase`).
-/

import Manticore.Bom.Steps

namespace Manticore.Bom

/-- The stamps of the predefined types and constructors. -/
def boolTyc : Tyc := .data 0

def boolTy : Ty := .tyCon boolTyc

def falseDC : DCon := ⟨"false", 0, .enum 0, [], boolTyc⟩

def trueDC : DCon := ⟨"true", 1, .enum 1, [], boolTyc⟩

def mkBoolCase (x : Var) (trueE falseE : Exp) : Exp :=
  .case_ x [(.dcon trueDC [], trueE), (.dcon falseDC [], falseE)] none

def boolVal (b : Bool) : Val := .con (if b then trueDC.stamp else falseDC.stamp) []

theorem selectArm_bool (b : Bool) (trueE falseE : Exp) :
    selectArm (boolVal b) [(.dcon trueDC [], trueE), (.dcon falseDC [], falseE)] none =
      some ([], [], if b then trueE else falseE) := by
  cases b <;> rfl

theorem boolVal_inj {b b' : Bool} (h : boolVal b = boolVal b') : b = b' := by
  cases b <;> cases b' <;> simp [boolVal, trueDC, falseDC] at h ⊢

variable {M : Machine} {ρ : Env} {stk : List Frame} {code : Handle → Option Clo} {made : Var → Nat} {w : M.W}

theorem step_boolCase {x : Var} {b : Bool} (trueE falseE : Exp) (hx : ρ x = some (boolVal b)) :
    step M ⟨.eval (mkBoolCase x trueE falseE) ρ, stk, code, made, w⟩ =
      .next ⟨.eval (if b then trueE else falseE) ρ, stk, code, made, w⟩ none :=
  step_case hx (selectArm_bool b trueE falseE) rfl

end Manticore.Bom
