/-
  Manticore.Ast.Syntax — the part of the typed AST (`ast/ast.sml`) that translations of
  parallel expressions produce: patterns, and code that makes, polls and cancels futures.

  Types are left out. `E` is the type of the source expressions that a translation
  carries over as they are. A translation's own variables come from `Var.new`, so none of
  them is a variable of the source program; they are told apart by their names.
-/

import Manticore.Machine

namespace Manticore.Ast

/-- `CompletionBitstring.bit`. -/
inductive Bit where
  | zero | one
  deriving DecidableEq, Repr

/-- `AST.var`: a variable of the source program, or one of a translation's own. -/
inductive Var where
  | src (stamp : Nat)
  /-- `f1`, `f2`, and so on: the futures. -/
  | fut (n : Nat)
  | go
  /-- `state` with a bit string. -/
  | state (cb : List Bit)
  /-- `t1`, `t2`, and so on: results. -/
  | tmp (n : Nat)
  /-- `x`. -/
  | arg
  /-- `u`. -/
  | unit
  deriving DecidableEq, Repr

/-- `AST.dcon`: the constructors of `option` and `result`, or another one by its stamp. -/
inductive DCon where
  | optNONE | optSOME | resultRES | resultEXN
  | src (stamp : Nat)
  deriving DecidableEq, Repr

/-- `AST.const`. -/
inductive Const where
  | dconst (dc : DCon)
  | lconst (l : Literal)
  deriving DecidableEq, Repr

/-- `AST.pat`. -/
inductive Pat where
  | conPat (dc : DCon) (p : Pat)
  | tuplePat (ps : List Pat)
  | varPat (x : Var)
  | wildPat
  | constPat (k : Const)

/-- `AST.exp`. -/
inductive Exp (E : Type) where
  /-- An expression of the source program. -/
  | src (e : E)
  | letVal (x : Var) (e body : Exp E)
  | letFun (lams : List (Var × Var × Exp E)) (body : Exp E)
  | caseExp (e : Exp E) (ms : List (Pat × Exp E))
  | applyExp (f : Var) (e : Exp E)
  | tupleExp (es : List (Exp E))
  | varExp (x : Var)
  | seqExp (e₁ e₂ : Exp E)
  /-- `Future1.mkFuture`. -/
  | future (e : E)
  | poll (e : Exp E)
  | cancel (e : Exp E)

/-- `AST.lambda`: the function's name, its parameter and its body. -/
abbrev Lambda (E : Type) := Var × Var × Exp E

/-- `AST.match`; the conditional form is not used. -/
abbrev Match (E : Type) := Pat × Exp E

mutual

/-- The pattern binds variables of the source program only. -/
def Pat.isSrc : Pat → Bool
  | .conPat _ p => p.isSrc
  | .tuplePat ps => Pat.allSrc ps
  | .varPat (.src _) => true
  | .varPat _ => false
  | .wildPat => true
  | .constPat _ => true

def Pat.allSrc : List Pat → Bool
  | [] => true
  | p :: ps => p.isSrc && Pat.allSrc ps

end

/-- A pattern of the source program. -/
abbrev SrcPat := { p : Pat // p.isSrc = true }

/-- `AST.ppat`. -/
inductive PPat where
  | ndWildPat
  | handlePat (p : SrcPat)
  | pat (p : SrcPat)

/-- `AST.pmatch`. -/
inductive PMatch (E : Type) where
  | pmatch (ps : List PPat) (e : E)
  | otherwise (e : E)

end Manticore.Ast
