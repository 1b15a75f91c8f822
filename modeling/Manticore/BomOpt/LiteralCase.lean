/-
  Manticore.BomOpt.LiteralCase — cases on raw literals as comparisons (`bom-opt/literal-case-fn.sml`, and the case
  domains of `bom-opt/case-simplify.sml`).

  A case domain generates its tests; raising is `fail`. Fewer than three arcs become a linear search, more become a
  binary search whose default is a continuation.
-/

import Manticore.BomOpt.CaseSimplify

namespace Manticore

/-- The loop over the digits in `FloatLit.compare`. -/
def FloatLit.cmpDigits : List Nat → List Nat → Ordering
  | [], [] => .eq
  | [], _ :: _ => .lt
  | _ :: _, [] => .gt
  | d₁ :: r₁, d₂ :: r₂ => match compare d₁ d₂ with
    | .eq => cmpDigits r₁ r₂
    | order => order

/-- `FloatLit.compare`, which is not the ordering of the reals. -/
def FloatLit.compare : FloatLit → FloatLit → Ordering
  | .negInf, .negInf => .eq
  | .negInf, _ => .lt
  | _, .negInf => .gt
  | .posInf, .posInf => .eq
  | .posInf, _ => .lt
  | _, .posInf => .gt
  | .qNaN, .qNaN => .eq
  | .qNaN, _ => .lt
  | _, .qNaN => .gt
  | .flt isNeg₁ digits₁ exp₁, .flt isNeg₂ digits₂ exp₂ => match isNeg₁, isNeg₂ with
    | false, true => .gt
    | true, false => .lt
    | _, _ => match Ord.compare exp₁ exp₂ with
      | .eq => cmpDigits digits₁ digits₂
      | order => order

namespace Bom.LiteralCase

open CaseSimplify TGen

/-- `CASE_DOMAIN`. -/
structure CaseDomain (L : Type) where
  equal : L → L → Bool
  greater : L → L → Bool
  succ : L → Option L
  pred : L → Option L
  genCmpTest : (arg : Var) → (key : L) → (ltAct eqAct gtAct : Exp) → TGen Exp
  genEqTest : (arg : Var) → (key : L) → (eqAct neqAct : Exp) → TGen Exp

def minBinSearchNum : Nat := 3
def useBinarySearch : Bool := true

structure Range (L : Type) where
  min : Option L
  max : Option L

/-- The first `i` arcs, the next one, and the rest; the loop `split` of `genSplit`. -/
def split {α : Type} : Nat → List α → List α → Option (List α × α × List α)
  | 0, arc :: rhs, lhs => some (lhs.reverse, arc, rhs)
  | i + 1, arc :: rhs, lhs => split i rhs (arc :: lhs)
  | _, [], _ => none

theorem split_eq {α : Type} : ∀ {i : Nat} {arcs lhs l r : List α} {arc : α}, split i arcs lhs = some (l, arc, r) →
    l ++ arc :: r = lhs.reverse ++ arcs ∧ l.length = lhs.length + i
  | 0, arc :: rhs, lhs, l, r, arc', h => by
    cases h
    exact ⟨rfl, List.length_reverse⟩
  | i + 1, arc :: rhs, lhs, l, r, arc', h => by
    obtain ⟨happ, hlen⟩ := @split_eq α i rhs (arc :: lhs) l r arc' h
    rw [List.reverse_cons, List.append_assoc] at happ
    rw [List.length_cons] at hlen
    exact ⟨happ, by omega⟩

theorem split_length {α : Type} {i : Nat} {arcs l r : List α} {arc : α} (h : split i arcs [] = some (l, arc, r)) :
    l.length + r.length + 1 = arcs.length := by
  obtain ⟨happ, -⟩ := split_eq h
  have hlen := congrArg List.length happ
  grind

section

variable {L : Type} (C : CaseDomain L)

/-- `ListMergeSort.sort`, with the order of the labels. -/
def sort (arcs : List (L × Exp)) : List (L × Exp) := arcs.mergeSort fun a b => !C.greater a.1 b.1

def genLinearSearch (x : Var) (default : Exp) : List (L × Exp) → TGen Exp
  | [] => return default
  | [(key, act)] => C.genEqTest x key act default
  | (key, act) :: rest => do C.genEqTest x key act (← genLinearSearch x default rest)

def splitRange (rng : Range L) (x : L) : Range L × Range L := (⟨rng.min, C.pred x⟩, ⟨C.succ x, rng.max⟩)

/-- The loop of `covered`; `none` where it raises. -/
def cmp (max : L) : List (L × Exp) → L → Option Bool
  | [], min => some (C.greater min max)
  | (v, _) :: r, min => if C.equal v min then do cmp max r (← C.succ min) else some false

/-- Does an ordered list of values cover a range? -/
def covered (vs : List (L × Exp)) (rng : Range L) : Option Bool :=
  match rng.min, rng.max with
  | some min, some max => cmp C max vs min
  | _, _ => some false

/-- The test in the clause of `gen` for two arcs. -/
def coveredPair (arcs : List (L × Exp)) (rng : Range L) : Option Bool :=
  if arcs.length = 2 then covered C arcs rng else some false

/-- `gen` and `genSplit` of `genBinarySearch`. -/
def gen (x : Var) (default : Exp) (nCases : Nat) (rng : Range L) (arcs : List (L × Exp)) : TGen Exp :=
  match arcs with
  | [] => return default
  | [(key, act)] => do
    if ← TGen.ofOption (covered C [(key, act)] rng) then return act else C.genEqTest x key act default
  | (key₁, act₁) :: (key₂, act₂) :: rest => do
    if ← TGen.ofOption (coveredPair C ((key₁, act₁) :: (key₂, act₂) :: rest) rng) then
      C.genEqTest x key₁ act₁ act₂
    else
      let nCases := if rest.isEmpty then 2 else nCases
      let mid := nCases / 2
      match _h : split mid ((key₁, act₁) :: (key₂, act₂) :: rest) [] with
      | none => fail
      | some (lhs, (key, act), rhs) =>
        let (leftRng, rightRng) := splitRange C rng key
        let ltAct ← gen x default mid leftRng lhs
        let gtAct ← gen x default (nCases - (mid + 1)) rightRng rhs
        C.genCmpTest x key ltAct act gtAct
termination_by arcs.length
decreasing_by
  all_goals
    have hlen := split_length _h
    simp only [List.length_cons] at hlen ⊢
    omega

def genBinarySearch (x : Var) (nCases : Nat) (arcs : List (L × Exp)) (default : Exp) : TGen Exp :=
  gen C x default nCases ⟨none, none⟩ arcs

def convert (arg : Var) (arcs : List (L × Exp)) (default : Exp) : TGen Exp :=
  let arcs := sort C arcs
  let nCases := arcs.length
  if nCases ≥ minBinSearchNum && useBinarySearch then do
    let dfltCont ← new (.cont [])
    let default' := .throw dfltCont []
    return .cont (.fb dfltCont [] [] default) (← genBinarySearch C arg nCases arcs default')
  else genLinearSearch C arg default arcs

end

/-! ## The case domains -/

section

variable {L : Type} (ty : Ty) (lit : L → Literal)

def genNumTest (ltPrim eqPrim : CondOp) (arg : Var) (key : L) (ltAct eqAct gtAct : Exp) : TGen Exp := do
  let v ← new ty
  return .stmt [v] (.const (lit key) ty) (.if_ ⟨ltPrim, [arg, v]⟩ ltAct (.if_ ⟨eqPrim, [arg, v]⟩ eqAct gtAct))

def genNumOrdTest (cmpPrim : CondOp) (arg : Var) (key : L) (eqAct neqAct : Exp) : TGen Exp := do
  let v ← new ty
  return .stmt [v] (.const (lit key) ty) (.if_ ⟨cmpPrim, [arg, v]⟩ eqAct neqAct)

end

def intTst (ty : Ty) (ltPrim eqPrim : CondOp) : CaseDomain Int where
  equal i j := i == j
  greater i j := i > j
  succ i := some (i + 1)
  pred i := some (i - 1)
  genCmpTest := genNumTest ty .int ltPrim eqPrim
  genEqTest := genNumOrdTest ty .int eqPrim

/-- There is no three-way test on floats. -/
def floatTst (ty : Ty) (eqPrim : CondOp) : CaseDomain FloatLit where
  equal a b := a.compare b == .eq
  greater a b := a.compare b == .gt
  succ _ := none
  pred _ := none
  genCmpTest _ _ _ _ _ := fail
  genEqTest := genNumOrdTest ty .float eqPrim

def I32Tst : CaseDomain Int := intTst (.raw .int) .i32Lt .i32Eq
def I64Tst : CaseDomain Int := intTst (.raw .long) .i64Lt .i64Eq
def F32Tst : CaseDomain FloatLit := floatTst (.raw .float) .f32Eq
def F64Tst : CaseDomain FloatLit := floatTst (.raw .double) .f64Eq

/-- The pattern `fn (Literal.Int i) => i`. -/
def projInt : Literal → Option Int
  | .int i => some i
  | _ => none

/-- The pattern `fn (Literal.Float f) => f`. -/
def projFloat : Literal → Option FloatLit
  | .float f => some f
  | _ => none

def projArcs {L : Type} (proj : Literal → Option L) (arcs : List (Literal × Exp)) : Option (List (L × Exp)) :=
  arcs.mapM fun arc => (proj arc.1).map fun l => (l, arc.2)

/-- The conversion in `literalCase` at a raw type. -/
def convertRaw (rty : RawTy) (arg : Var) (arcs : List (Literal × Exp)) (default : Exp) : TGen Exp := do
  match rty with
  | .int => convert I32Tst arg (← TGen.ofOption (projArcs projInt arcs)) default
  | .long => convert I64Tst arg (← TGen.ofOption (projArcs projInt arcs)) default
  | .float => convert F32Tst arg (← TGen.ofOption (projArcs projFloat arcs)) default
  | .double => convert F64Tst arg (← TGen.ofOption (projArcs projFloat arcs)) default
  | _ => fail

/-- `literalCase` at a type other than an enumeration, with the arms transformed: it needs a default. -/
def literalCase (ty : Ty) (arg : Var) (arcs : List (Literal × Exp)) (optDflt : Option Exp) : TGen Exp :=
  match ty with
  | .raw rty => do convertRaw rty arg arcs (← TGen.ofOption optDflt)
  | _ => fail

end Bom.LiteralCase

end Manticore
