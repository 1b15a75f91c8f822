/-
  Manticore.Translate.Types — how the arguments of a constructor are represented (`translate/flatten-rep.sml`).
-/

import Manticore.Bom.Syntax

namespace Manticore.Translate

open Bom

/-- `FlattenRep.rep_tree`. -/
inductive RepTree where
  | atom (ty : Ty)
  | tuple (tys : List Ty) (reps : List RepTree)

mutual

def repOf : Ty → RepTree
  | .tuple false tys => .tuple tys (repsOf tys)
  | ty => .atom ty

def repsOf : List Ty → List RepTree
  | [] => []
  | ty :: tys => repOf ty :: repsOf tys

end

/-- A wrapped raw type keeps its wrapper as the one argument of the source. -/
def flattenRep : Ty → RepTree
  | .tuple false [ty] => .tuple [.tuple false [ty]] [repOf (.tuple false [ty])]
  | ty => repOf ty

mutual

def dstTys : RepTree → List Ty
  | .atom ty => [ty]
  | .tuple _ reps => dstTysOf reps

def dstTysOf : List RepTree → List Ty
  | [] => []
  | rep :: reps => dstTys rep ++ dstTysOf reps

end

end Manticore.Translate
