/-
  Manticore.BomOpt.CaseSimplify — the generation of code with typed variables in `bom-opt/case-simplify.sml`.
-/

import Manticore.Bom.Syntax

namespace Manticore.Bom.CaseSimplify

/-! ## Variables and types -/

/-- The supply of variables and the types of those in use. -/
structure TVars where
  next : Nat
  typeOf : Var → Ty

/-- A computation that makes typed variables and may raise. -/
abbrev TGen := StateT TVars Option

namespace TGen

/-- `BV.new`. -/
def new (ty : Ty) : TGen Var :=
  fun st => some (⟨st.next⟩, ⟨st.next + 1, fun y => if y = ⟨st.next⟩ then ty else st.typeOf y⟩)

/-- `BV.typeOf`. -/
def typeOf (x : Var) : TGen Ty := fun st => some (st.typeOf x, st)

def fail {α : Type} : TGen α := fun _ => none

def ofOption {α : Type} : Option α → TGen α
  | some a => pure a
  | none => fail

end TGen

end Manticore.Bom.CaseSimplify
