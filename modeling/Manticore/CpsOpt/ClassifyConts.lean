/-
  Manticore.CpsOpt.ClassifyConts — which continuations are join points (`cps-opt/classify-conts.sml`).

  The properties of the variables are a state that is passed along. The outer contexts are a
  list with the latest first; the context of a continuation is in the table before the
  continuation is, so `checkUse` goes on in the rest of the list.
-/

import Manticore.Cps.Uses

namespace Manticore.CpsOpt.ClassifyConts

open Cps
open Function (update)

/-- `cont_kind`. -/
inductive ContKind where
  | joinCont
  | returnCont
  | paramCont
  | otherCont
  deriving DecidableEq, Repr

/-- The properties of the variables. -/
structure Props where
  /-- `getOuter`. -/
  outer : List (Var × Var)
  /-- The use sites of a possible join point. -/
  uses : Var → Option (List Var)
  kind : Var → Option ContKind

def Props.init : Props := ⟨[], fun _ => none, fun _ => none⟩

/-- `setOuter`. -/
def setOuter (k outer : Var) (s : Props) : Props := { s with outer := (k, outer) :: s.outer }

/-- `addUse`. -/
def addUse (outer k : Var) (s : Props) : Props :=
  match s.uses k with
  | none => s
  | some r => { s with uses := update s.uses k (some (outer :: r)) }

/-- `clrUses`. -/
def clrUses (k : Var) (s : Props) : Props := { s with uses := update s.uses k none }

/-- `usesOf`. -/
def usesOf (s : Props) (k : Var) : List Var := (s.uses k).getD []

/-- `kindOf`. -/
def kindOf (s : Props) (k : Var) : ContKind := (s.kind k).getD .otherCont

/-- `markAsJoin`. -/
def markAsJoin (k : Var) (s : Props) : Props :=
  { s with kind := update s.kind k (some .joinCont), uses := update s.uses k (some []) }

/-- `markAsReturn`. -/
def markAsReturn (k : Var) (s : Props) : Props :=
  { s with kind := update s.kind k (some .returnCont) }

/-- `markAsOther`. -/
def markAsOther (k : Var) (s : Props) : Props :=
  match s.kind k with
  | some .otherCont => s
  | _ => clrUses k { s with kind := update s.kind k (some .otherCont) }

@[simp] theorem clrUses_kind (k : Var) (s : Props) : (clrUses k s).kind = s.kind := rfl

@[simp] theorem markAsJoin_kind (k : Var) (s : Props) :
    (markAsJoin k s).kind = update s.kind k (some .joinCont) := rfl

@[simp] theorem markAsReturn_kind (k : Var) (s : Props) :
    (markAsReturn k s).kind = update s.kind k (some .returnCont) := rfl

@[simp] theorem markAsOther_kind (k : Var) (s : Props) :
    (markAsOther k s).kind = update s.kind k (some .otherCont) := by
  unfold markAsOther
  split
  · rename_i h
    rw [← h, Function.update_eq_self]
  · rfl

/-- `checkUse`. -/
def checkUse (kind : Var → ContKind) (outer : Var) : List (Var × Var) → Var → Bool
  | [], k => decide (outer = k)
  | (k', o) :: rest, k =>
    if outer = k then true
    else if k' = k then kind k == .joinCont && checkUse kind outer rest o
    else checkUse kind outer rest k

section

variable (isCont : Var → Bool) (cnt : Counts)

/-- `doArg`. -/
def doArg (s : Props) (x : Var) : Props := if isCont x then markAsOther x s else s

/-- The last part of `analExp` at a continuation: its uses are checked. -/
def checkJoin (outer f : Var) (s : Props) : Props :=
  match kindOf s f with
  | .joinCont =>
    clrUses f (if (usesOf s f).all (checkUse (kindOf s) outer s.outer) then s else markAsOther f s)
  | _ => s

/-- The first part: the continuation gets its properties. -/
def initCont (outer f : Var) (s : Props) : Props :=
  let s := setOuter f outer s
  if cnt.use f = cnt.app f then markAsJoin f s else markAsReturn f s

/-- The middle part: recursive join points are not supported. -/
def checkRec (f : Var) (s : Props) : Props := if (usesOf s f).isEmpty then s else markAsOther f s

mutual

/-- `analExp`. -/
def analExp (outer : Var) : Exp → Props → Props
  | .let_ _ _ rhs e, s => analExp outer e (rhs.vars.foldl (doArg isCont) s)
  | .fun_ _ fbs e, s => analExp outer e (analFBs fbs s)
  | .cont _ fb e, s =>
    checkJoin outer fb.f (analExp outer e (checkRec fb.f (analFB fb (initCont cnt outer fb.f s))))
  | .if_ _ _ e₁ e₂, s => analExp outer e₂ (analExp outer e₁ s)
  | .switch _ _ cases dflt, s => analDflt outer dflt (analCases outer cases s)
  | .apply _ _ args _, s => args.foldl (doArg isCont) s
  | .throw _ k args, s => args.foldl (doArg isCont) (addUse outer k s)

def analFB : Lambda → Props → Props
  | .fb f _ _ body, s => analExp f body s

def analFBs : List Lambda → Props → Props
  | [], s => s
  | fb :: fbs, s => analFBs fbs (analFB fb s)

def analCases (outer : Var) : List (Nat × Exp) → Props → Props
  | [], s => s
  | (_, e) :: cases, s => analCases outer cases (analExp outer e s)

def analDflt (outer : Var) : Option Exp → Props → Props
  | none, s => s
  | some e, s => analExp outer e s

end

end

/-- `analyze`, when the flag `enableFlg` is set. -/
def analyze (cnt : Counts) (m : Module) : Props :=
  analFB (fun x => m.contNames.contains x) cnt m.body Props.init

/-- `kindOfCont`, for the variables of a module. -/
def kindOfCont (m : Module) (s : Props) (k : Var) : ContKind :=
  if m.contNames.contains k then kindOf s k
  else if m.paramNames.contains k then .paramCont
  else .otherCont

/-- `isJoinCont`. -/
def isJoinCont (enableFlg : Bool) (cnt : Counts) (m : Module) (k : Var) : Bool :=
  enableFlg && kindOfCont m (analyze cnt m) k == .joinCont

end Manticore.CpsOpt.ClassifyConts
