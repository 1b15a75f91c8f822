/-
  Manticore.Fresh — code generators that draw fresh variables (`VarRep.V.new`) and may raise.

  A generator passes on the next unused stamp; `none` is an exception. What it makes binds
  only stamps from the one it started with on, so older variables keep their values.
-/

import Manticore.Machine

namespace Manticore

/-- A computation that draws fresh variables and may raise. -/
abbrev Gen := StateT Nat Option

/-- `Var.new`. -/
def newVar : Gen Var := fun c => some (⟨c⟩, c + 1)

def raise {α : Type} : Gen α := fun _ => none

@[simp] theorem gen_pure {α : Type} (a : α) (c : Nat) : (pure a : Gen α) c = some (a, c) := rfl

@[simp] theorem gen_bind {α β : Type} (m : Gen α) (f : α → Gen β) (c : Nat) :
    (m >>= f) c = (m c).bind fun r => f r.1 r.2 := rfl

end Manticore
