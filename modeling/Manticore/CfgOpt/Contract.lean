/-
  Manticore.CfgOpt.Contract — contraction of a CFG (`cfg-opt/contract.sml`): renaming, unused
  variables, unused blocks, and chains of jumps through empty blocks, repeated until a round
  counts nothing.

  The kind of a label (`C.Label.kindOf`) holds the block that it was made with; the pass rebuilds
  blocks without making it anew, so the kinds are a table that does not change. The four counters
  are read as their sum only, which `sum` keeps. Following a chain and the rounds take fuel; with
  no fuel left they fail with `timeout`, which is no exception of the source.
-/

import Manticore.BomOpt.PrimContract
import Manticore.Cfg.Syntax
import Manticore.Library.Fuel

namespace Manticore.CfgOpt.Contract

open Manticore.Cfg

/-- `CFG.label_kind`, with what is read of it. -/
inductive LabelKind where
  | none
  | externLabel
  | func
  | block (b : Block)

/-- The use counts of variables and labels, and the counters. -/
structure St where
  useCount : Var → Int
  labCount : Label → Int
  sum : Nat

inductive Failure where
  | timeout
  /-- "lookupBlock(..)". -/
  | lookupBlock (lab : Label)
  /-- "rename': arity mismatch". -/
  | rename
  /-- `ListPair.UnequalLengths`. -/
  | unequalLengths
  /-- `Match`. -/
  | noMatch
  deriving DecidableEq

abbrev Pass := StateT St (Except Failure)

def fail {α : Type} (f : Failure) : Pass α := fun _ => .error f

/-! ## Counts -/

def addToCount (x : Var) (k : Int) : Pass Unit := fun st =>
  .ok ((), { st with useCount := Function.update st.useCount x (st.useCount x + k) })

/-- `Census.dec`. -/
def dec (x : Var) : Pass Unit := addToCount x (-1)

/-- `List.app`. -/
def app {α : Type} (f : α → Pass Unit) : List α → Pass Unit
  | [] => return
  | x :: xs => do
    f x
    app f xs

/-- `Census.dec'`. -/
def dec' (xs : List Var) : Pass Unit := app dec xs

def addToLab (l : Label) (k : Int) : Pass Unit := fun st =>
  .ok ((), { st with labCount := Function.update st.labCount l (st.labCount l + k) })

/-- `Census.incLab`. -/
def incLab (l : Label) : Pass Unit := addToLab l 1

/-- `Census.decLab`. -/
def decLab (l : Label) : Pass Unit := addToLab l (-1)

/-- `ST.tick`, of any of the counters. -/
def tick : Pass Unit := fun st => .ok ((), { st with sum := st.sum + 1 })

/-- `ticks`. -/
def ticks : Pass Nat := fun st => .ok (st.sum, st)

def useCountOf (x : Var) : Pass Int := fun st => .ok (st.useCount x, st)

def labCountOf (l : Label) : Pass Int := fun st => .ok (st.labCount l, st)

def unused (x : Var) : Pass Bool := do return (← useCountOf x) == 0

/-- `mergeUseCounts`. -/
def mergeUseCounts (x y : Var) : Pass Unit := do addToCount y ((← useCountOf x) - 1)

/-- `ListPair.appEq mergeUseCounts`. -/
def mergeAll : List Var → List Var → Pass Unit
  | x :: xs, y :: ys => do
    mergeUseCounts x y
    mergeAll xs ys
  | [], [] => return
  | _, _ => fail .unequalLengths

/-! ## Renaming -/

/-- `VMap`. -/
abbrev Env := Var → Option Var

def emptyEnv : Env := fun _ => none

/-- `rename'`. -/
def rename' (env : Env) : List Var → List Var → Pass Env
  | [], [] => return env
  | x :: xs, y :: ys => rename' (Function.update env x (some y)) xs ys
  | _, _ => fail .rename

def applySubst (env : Env) (x : Var) : Var := (env x).getD x

def applySubst' (env : Env) (xs : List Var) : List Var := xs.map (applySubst env)

section

variable (kindOf : Label → LabelKind)

/-- `lookupBlock`. -/
def lookupBlock (lab : Label) : Pass Block :=
  match kindOf lab with
  | .block b => return b
  | _ => fail (.lookupBlock lab)

/-- `isLocalLabel`. -/
def isLocalLabel (lab : Label) : Bool :=
  match kindOf lab with
  | .block _ => true
  | _ => false

/-! ## Exits -/

/-- `ListPair.foldlEq (fn (p, a, s) => VMap.insert (s, p, a))`. -/
def bindParams (s : Env) : List Var → List Var → Pass Env
  | p :: ps, a :: as => bindParams (Function.update s p (some a)) ps as
  | [], [] => return s
  | _, _ => fail .unequalLengths

/-- `chainElim`. -/
def chainElim : Nat → Jump → Pass Jump
  | 0, _ => fail .timeout
  | n + 1, (lab, args) => do
    match ← lookupBlock kindOf lab with
    | ⟨_, params, [], .goto (labOut, argsOut)⟩ =>
      let s ← bindParams emptyEnv params args
      tick
      decLab lab
      incLab labOut
      chainElim n (labOut, applySubst' s argsOut)
    | _ => return (lab, args)

/-- `contractJump`. -/
def contractJump (n : Nat) (env : Env) (jmp : Jump) : Pass Jump :=
  chainElim kindOf n (jmp.1, applySubst' env jmp.2)

def contractCases (n : Nat) (env : Env) : List (Nat × Jump) → Pass (List (Nat × Jump))
  | [] => return []
  | (tag, jmp) :: cases => do
    let jmp ← contractJump kindOf n env jmp
    let cases ← contractCases n env cases
    return (tag, jmp) :: cases

def contractDflt (n : Nat) (env : Env) : Option Jump → Pass (Option Jump)
  | none => return none
  | some jmp => do return some (← contractJump kindOf n env jmp)

/-- `contractExit`; it has no clause for `HeapCheckN`. -/
def contractExit (n : Nat) (env : Env) : Transfer → Pass Transfer
  | .stdApply f clos args ret exh =>
    return .stdApply (applySubst env f) (applySubst env clos) (applySubst' env args) (applySubst env ret)
      (applySubst env exh)
  | .stdThrow k clos args => return .stdThrow (applySubst env k) (applySubst env clos) (applySubst' env args)
  | .apply f clos args => return .apply (applySubst env f) (applySubst env clos) (applySubst' env args)
  | .goto jmp => do return .goto (← contractJump kindOf n env jmp)
  | .if_ c jmp₁ jmp₂ => do
    let jmp₁ ← contractJump kindOf n env jmp₁
    let jmp₂ ← contractJump kindOf n env jmp₂
    return .if_ (c.map (applySubst env)) jmp₁ jmp₂
  | .switch x cases dflt => do
    let cases ← contractCases kindOf n env cases
    let dflt ← contractDflt kindOf n env dflt
    return .switch (applySubst env x) cases dflt
  | .heapCheck hck szb nogc => do return .heapCheck hck szb (← contractJump kindOf n env nogc)
  | .heapCheckN _ _ _ _ => fail .noMatch
  | .allocCCall lhs f args ret => do
    return .allocCCall lhs (applySubst env f) (applySubst' env args) (← contractJump kindOf n env ret)

/-! ## Expressions -/

/-- Drop the expression, if it is known to be useless, and lower the counts. -/
def removeIf (useless : Bool) (lower : Pass Unit) (e : Exp) (r : List Exp × Transfer) :
    Pass (List Exp × Transfer) := do
  if useless then
    tick
    lower
    return r
  else return (e :: r.1, r.2)

/-- What `contractExps` makes of an expression in front of the contracted rest. -/
def contractExp (env : Env) (e : Exp) (r : List Exp × Transfer) : Pass (List Exp × Transfer) :=
  match e with
  | .var _ _ => return r
  | .const x _ _ => do removeIf (← unused x) (return) e r
  | .cast x ty y => do removeIf (← unused x) (dec (applySubst env y)) (.cast x ty (applySubst env y)) r
  | .label x lab => do removeIf (← unused x) (decLab lab) e r
  | .select x i y => do removeIf (← unused x) (dec (applySubst env y)) (.select x i (applySubst env y)) r
  | .update i x y => return (.update i (applySubst env x) (applySubst env y) :: r.1, r.2)
  | .addrOf x i y => do removeIf (← unused x) (dec (applySubst env y)) (.addrOf x i (applySubst env y)) r
  | .alloc x ty ys => do removeIf (← unused x) (dec' (applySubst' env ys)) (.alloc x ty (applySubst' env ys)) r
  | .galloc x ty ys => do removeIf (← unused x) (dec' (applySubst' env ys)) (.galloc x ty (applySubst' env ys)) r
  | .promote x y => do removeIf (← unused x) (dec (applySubst env y)) (.promote x (applySubst env y)) r
  -- the arguments of a primitive without results are not renamed
  | .prim0 _ _ => return (e :: r.1, r.2)
  | .prim x p ys => do
    removeIf ((← unused x) && BomOpt.PrimContract.isPure p) (dec' (applySubst' env ys))
      (.prim x p (applySubst' env ys)) r
  | .ccall xs f ys => return (.ccall xs (applySubst env f) (applySubst' env ys) :: r.1, r.2)
  | .hostVProc x => do removeIf (← unused x) (return) e r
  | .vpLoad x off y => do removeIf (← unused x) (dec (applySubst env y)) (.vpLoad x off (applySubst env y)) r
  | .vpStore off x y => return (.vpStore off (applySubst env x) (applySubst env y) :: r.1, r.2)
  | .vpAddr x off y => do removeIf (← unused x) (dec (applySubst env y)) (.vpAddr x off (applySubst env y)) r

/-- `contractExps`. -/
def contractExps (n : Nat) (env : Env) : List Exp → Transfer → Pass (List Exp × Transfer)
  | [], exit => do return ([], ← contractExit kindOf n env exit)
  | .var lhs rhs :: es, exit => do
    tick
    mergeAll lhs rhs
    let env ← rename' env lhs rhs
    contractExps n env es exit
  | e :: es, exit => do
    let r ← contractExps n env es exit
    contractExp env e r

/-! ## Blocks and functions -/

/-- `deleteExp`. -/
def deleteExp : Exp → Pass Unit
  | .label _ lab => decLab lab
  | _ => return

/-- `deleteJump`. -/
def deleteJump (jmp : Jump) : Pass Unit := decLab jmp.1

/-- `deleteExit`; it has no clause for `HeapCheckN`. -/
def deleteExit : Transfer → Pass Unit
  | .stdApply _ _ _ _ _ | .stdThrow _ _ _ | .apply _ _ _ => return
  | .goto jmp => deleteJump jmp
  | .if_ _ jmp₁ jmp₂ => do
    deleteJump jmp₁
    deleteJump jmp₂
  | .switch _ cases dflt => do
    app (fun c => deleteJump c.2) cases
    app deleteJump dflt.toList
  | .heapCheck _ _ nogc => deleteJump nogc
  | .heapCheckN _ _ _ _ => fail .noMatch
  | .allocCCall _ _ _ ret => deleteJump ret

/-- `deleteBlock`. -/
def deleteBlock (b : Block) : Pass Unit := do
  tick
  app deleteExp b.body
  deleteExit b.exit

/-- `deleteFunc`. -/
def deleteFunc (f : Func) : Pass Unit := do
  deleteBlock f.start
  app deleteBlock f.body

/-- `contractBlock`. -/
def contractBlock (n : Nat) (b : Block) : Pass Block := do
  let (body, exit) ← contractExps kindOf n emptyEnv b.body b.exit
  return ⟨b.lab, b.args, body, exit⟩

/-- `contractBodyBlock`. -/
def contractBodyBlock (n : Nat) (b : Block) : Pass (Option Block) := do
  if (← labCountOf b.lab) == 0 then
    deleteBlock b
    return none
  else return some (← contractBlock kindOf n b)

/-- `List.mapPartial`. -/
def mapPartial {α β : Type} (f : α → Pass (Option β)) : List α → Pass (List β)
  | [] => return []
  | x :: xs => do
    let y ← f x
    let ys ← mapPartial f xs
    return y.toList ++ ys

/-- `contractFunc`. -/
def contractFunc (n : Nat) (f : Func) : Pass (Option Func) := do
  if isLocalLabel kindOf f.lab && (← labCountOf f.lab) == 0 then
    deleteFunc f
    return none
  else
    let start ← contractBlock kindOf n f.start
    let body ← mapPartial (contractBodyBlock kindOf n) f.body
    return some ⟨f.lab, f.entry, start, body⟩

/-- A round of the loop. -/
def round (n : Nat) (code : List Func) : Pass (List Func) := mapPartial (contractFunc kindOf n) code

/-- `loop`. -/
def loop (n : Nat) : Nat → List Func → Nat → Pass (List Func)
  | 0, _, _ => fail .timeout
  | k + 1, body, prevSum => do
    let body ← round kindOf n body
    let sum ← ticks
    if prevSum ≠ sum then loop n k body sum else return body

/-- `transform`. -/
def transform (n : Nat) (m : Module) : Pass Module := do
  let code ← loop kindOf n n m.code (← ticks)
  return { m with code := code }

end

/-! ## Well-formed modules -/

/-- The blocks in the order of the pass. -/
def blocksOf (code : List Func) : List Block := code.flatMap fun f => f.start :: f.body

/-- The jumps of an exit. -/
def jumps : Transfer → List Jump
  | .stdApply _ _ _ _ _ | .stdThrow _ _ _ | .apply _ _ _ => []
  | .goto jmp | .heapCheck _ _ jmp | .heapCheckN _ _ _ jmp | .allocCCall _ _ _ jmp => [jmp]
  | .if_ _ jmp₁ jmp₂ => [jmp₁, jmp₂]
  | .switch _ cases dflt => cases.map (·.2) ++ dflt.toList

/-- The label that an expression takes the address of. -/
def labelIn : Exp → List Label
  | .label _ lab => [lab]
  | _ => []

/-- The labels that a block mentions, once for each use (`Census.doFun`). -/
def labelsIn (b : Block) : List Label := b.body.flatMap labelIn ++ (jumps b.exit).map (·.1)

/-- A module as `CheckCFG` and `Census` leave it, with the kinds that `mkBlock` and `mkFunc` set. A census
    does not clear the counts of blocks, so these can be too high. An `AllocCCall` passes its results to the
    block it jumps to; the one with results is made after the last contraction only. -/
structure WF (kindOf : Label → LabelKind) (st : St) (m : Module) : Prop where
  blocks : ∀ b ∈ blocksOf m.code, kindOf b.lab = .block b
  funcs : ∀ f ∈ m.code, kindOf f.lab = .func
  jumps : ∀ b ∈ blocksOf m.code, ∀ jmp ∈ jumps b.exit,
    ∃ b' ∈ blocksOf m.code, b'.lab = jmp.1 ∧ b'.args.length = jmp.2.length
  vars : ∀ b ∈ blocksOf m.code, ∀ xs ys, .var xs ys ∈ b.body → xs.length = ys.length
  counts : ∀ l, (((blocksOf m.code).flatMap labelsIn).count l : Int) ≤ st.labCount l

/-! ## What the pass should do -/

/-- With enough fuel the pass returns, and one more round on what it returns changes neither the code nor the
    counts nor the counters. -/
def Settles (kindOf : Label → LabelKind) (st : St) (m : Module) : Prop :=
  ∃ m' st', Fuel.Returns (fun n => transform kindOf n m st) (m', st') ∧
    Fuel.Returns (fun n => round kindOf n m'.code st') (m'.code, st')

/-- The block with the first label is empty and jumps to the second. -/
def JumpsTo (code : List Func) (l l' : Label) : Prop :=
  ∃ b ∈ blocksOf code, b.lab = l ∧ b.body = [] ∧ ∃ args, b.exit = .goto (l', args)

/-- Empty blocks form no cycle, and no exit is a `HeapCheckN`. -/
structure Contractible (m : Module) : Prop where
  acyclic : ∀ l, ¬ Relation.TransGen (JumpsTo m.code) l l
  exits : ∀ b ∈ blocksOf m.code, ∀ hck x szb nogc, b.exit ≠ .heapCheckN hck x szb nogc

end Manticore.CfgOpt.Contract
