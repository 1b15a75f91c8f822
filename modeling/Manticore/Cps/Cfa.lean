/-
  Manticore.Cps.Cfa — the results of the control-flow analysis that other passes read
  (`cps/cfa-cps.sml`).
-/

import Manticore.Cps.Syntax

namespace Manticore.Cps

/-- `CFACPS.value`; the set of `LAMBDAS` is the list of its items. -/
inductive Value where
  | top
  | tuple (vs : List Value)
  | lambdas (fs : List Var)
  | bool (b : Bool)
  | bot

/-- `CFACPS.callers`. -/
inductive Callers where
  | unknown
  | known (fs : List Var)

/-- What the analysis records for the variables of a module. -/
structure Cfa where
  valueOf : Var → Value
  callersOf : Var → Callers

end Manticore.Cps
