/-
  Manticore.BomOpt.CondContract — contraction of a condition whose operands are known (`bom-opt/cond-contract.sml`).

  `contract` looks at what its operands are bound to: two integer constants are compared as unbounded integers, two
  constants of an enumeration by their numbers, and of other variables it is only seen whether they are the same.
  The answer is compared with the condition's value in every valuation that gives the constants their registers.
  - `answer_ints`, `answer_var`: when an answer is right.
  - `contract_sound_iff`: the conditions on which the answer is right in every valuation.
-/

import Manticore.BomOpt.PrimContractProofs
import Manticore.Codegen.CondGen

namespace Manticore.BomOpt.CondContract

open Codegen
open PrimContract (Binding)
open BitVec (ofInt toNat_ofInt ult slt sle toInt_ofInt)
open List (map_cons map_nil map)

inductive Result where
  | FALSE | TRUE | UNKNOWN
  deriving DecidableEq, Repr

def Result.ofBool (b : Bool) : Result := if b then .TRUE else .FALSE

def same : Binding → Binding → Result
  | .Var x, .Var y => if x = y then .TRUE else .UNKNOWN
  | .Int a, .Int b => if a = b then .TRUE else .FALSE
  | .Enum a, .Enum b => if a = b then .TRUE else .FALSE
  | _, _ => .UNKNOWN

def diff (a b : Binding) : Result :=
  match same a b with
  | .UNKNOWN => .UNKNOWN
  | .TRUE => .FALSE
  | .FALSE => .TRUE

def less : Binding → Binding → Result
  | .Var x, .Var y => if x = y then .FALSE else .UNKNOWN
  | .Int a, .Int b => if a < b then .TRUE else .FALSE
  | _, _ => .UNKNOWN

def great : Binding → Binding → Result
  | .Var x, .Var y => if x = y then .FALSE else .UNKNOWN
  | .Int a, .Int b => if a > b then .TRUE else .FALSE
  | _, _ => .UNKNOWN

def lessEq : Binding → Binding → Result
  | .Var x, .Var y => if x = y then .TRUE else .UNKNOWN
  | .Int a, .Int b => if a ≤ b then .TRUE else .FALSE
  | _, _ => .UNKNOWN

def greatEq : Binding → Binding → Result
  | .Var x, .Var y => if x = y then .TRUE else .UNKNOWN
  | .Int a, .Int b => if a ≥ b then .TRUE else .FALSE
  | _, _ => .UNKNOWN

/-- `BV.kindOf`: the right-hand side a variable is bound to, if any. -/
abbrev Kinds := Var → Option (Bom.Rhs Var)

def bind (kindOf : Kinds) (x : Var) : Binding :=
  match kindOf x with
  | some (.const (.int n) _) => .Int n
  | some (.const (.enum n) _) => .Enum n
  | some (.prim p ys) => .Prim p ys
  | _ => .Var x

/-- `CondUtil.isPure`. -/
def isPure : CondOp → Bool
  | .bcas | .i32isSet | .i32TAS => false
  | _ => true

/-- The answer and the variables whose use counts go down by one. -/
def contract (kindOf : Kinds) (cond : Cond Var) : Result × List Var :=
  let withDel (res : Result) : Result × List Var := (res, if res = .UNKNOWN then [] else cond.args)
  if ¬ isPure cond.op then (.UNKNOWN, [])
  else
    let cond' := cond.map (bind kindOf)
    match cond'.op, cond'.args with
    | .isBoxed, [.Enum _] => withDel .FALSE
    | .isUnboxed, [.Enum _] => withDel .TRUE
    | .equal, [a, b] => withDel (same a b)
    | .notEqual, [a, b] => withDel (diff a b)
    | .enumEq, [a, b] => withDel (same a b)
    | .enumNEq, [a, b] => withDel (diff a b)
    | .i32Eq, [a, b] => withDel (same a b)
    | .i32NEq, [a, b] => withDel (diff a b)
    | .i32Lt, [a, b] => withDel (less a b)
    | .i32Lte, [a, b] => withDel (lessEq a b)
    | .i32Gt, [a, b] => withDel (great a b)
    | .i32Gte, [a, b] => withDel (greatEq a b)
    | .u32Lt, [a, b] => withDel (less a b)
    | .i64Eq, [a, b] => withDel (same a b)
    | .i64NEq, [a, b] => withDel (diff a b)
    | .i64Lt, [a, b] => withDel (less a b)
    | .i64Lte, [a, b] => withDel (lessEq a b)
    | .i64Gt, [a, b] => withDel (great a b)
    | .i64Gte, [a, b] => withDel (greatEq a b)
    | .u64Lt, [a, b] => withDel (less a b)
    | .f32Eq, [a, b] => withDel (same a b)
    | .f32NEq, [a, b] => withDel (diff a b)
    | .f64Eq, [a, b] => withDel (same a b)
    | .f64NEq, [a, b] => withDel (diff a b)
    | .adrEq, [a, b] => withDel (same a b)
    | .adrNEq, [a, b] => withDel (diff a b)
    | _, _ => (.UNKNOWN, [])

/-! ## Valuations -/

/-- The register of an enumeration constant: tagged in its lowest bit. -/
def enumVal (n : Nat) : Reg := BitVec.ofNat 64 (2 * n + 1)

/-- A valuation that gives the constants their registers; of a float constant it is only used whether it is a NaN. -/
def Consistent (kindOf : Kinds) (ρ : Var → Reg) : Prop :=
  ∀ x, match kindOf x with
    | some (.const (.int n) (.raw ty)) => ρ x = litVal ty n
    | some (.const (.enum n) _) => ρ x = enumVal n
    | some (.const (.float l) (.raw .float)) => isNaN ((ρ x).setWidth f32Ty) = decide (l = .qNaN)
    | some (.const (.float l) (.raw .double)) => isNaN ((ρ x).setWidth f64Ty) = decide (l = .qNaN)
    | _ => True

/-- A constant operand has the type of the comparison; the numbers of enumerations are below 2^31. -/
def WellTyped (kindOf : Kinds) (cond : Cond Var) : Prop :=
  ∀ x ∈ cond.args, ∀ l ty, kindOf x = some (.const l ty) →
    (∀ n, l = .enum n → n < 2 ^ 31) ∧
    match genCond cond.op with
    | some (.genCmp w _) => ∀ n, l = .int n → ∃ t, ty = .raw t ∧ szOf t = w
    | some (.genFCmp w _) => ∃ f, l = .float f ∧ ty = .raw (if w = f32Ty then .float else .double)
    | _ => True

/-- The answer is the condition's value in every valuation. -/
def Sound (kindOf : Kinds) (cond : Cond Var) : Prop :=
  ∀ ρ, Consistent kindOf ρ → ∀ b, condVal cond.op (cond.args.map ρ) = some b →
    (contract kindOf cond).1 = .UNKNOWN ∨ (contract kindOf cond).1 = .ofBool b

/-- Compared as integers, `a` and `b` are as their words of `w` bits: signed, or unsigned for `LTU`. -/
def SameOrder (w : Nat) (c : Cmp) (a b : Int) : Prop :=
  match c with
  | .EQ | .NE => a % 2 ^ w = b % 2 ^ w → a = b
  | .LT => a < b ↔ a.bmod (2 ^ w) < b.bmod (2 ^ w)
  | .LE => a ≤ b ↔ a.bmod (2 ^ w) ≤ b.bmod (2 ^ w)
  | .GT => b < a ↔ b.bmod (2 ^ w) < a.bmod (2 ^ w)
  | .GE => b ≤ a ↔ b.bmod (2 ^ w) ≤ a.bmod (2 ^ w)
  | .LTU => a < b ↔ a % 2 ^ w < b % 2 ^ w

/-- Two integer constants are in the same order as their words, and a float that is tested for equality with itself
    is a constant other than a NaN. -/
def Harmless (kindOf : Kinds) (cond : Cond Var) : Prop :=
  match genCond cond.op, cond.args.map (bind kindOf) with
  | some (.genCmp w c), [.Int a, .Int b] => SameOrder w c a b
  | some (.genFCmp _ c), [.Var x, .Var y] =>
    c = .EQ ∨ c = .NE → x = y → ∃ l ty, kindOf x = some (.const (.float l) ty) ∧ l ≠ .qNaN
  | _, _ => True

/-! ## The answer by the kind of test -/

/-- What `contract` does with the operands of a comparison. -/
def answer : Cmp → Binding → Binding → Result
  | .EQ => same
  | .NE => diff
  | .LT | .LTU => less
  | .LE => lessEq
  | .GT => great
  | .GE => greatEq

attribute [local simp] condVal same

theorem contract_genCmp {kindOf : Kinds} {op : CondOp} {w : Nat} {c : Cmp} (h : genCond op = some (.genCmp w c)) (x y : Var) :
    (contract kindOf ⟨op, [x, y]⟩).1 = answer c (bind kindOf x) (bind kindOf y) := by
  cases op <;> cases h <;> rfl

theorem contract_genFCmp {kindOf : Kinds} {op : CondOp} {w : Nat} {c : FCmp} (h : genCond op = some (.genFCmp w c))
    (x y : Var) :
    (contract kindOf ⟨op, [x, y]⟩).1 = match c with
      | .EQ => same (bind kindOf x) (bind kindOf y)
      | .NE => diff (bind kindOf x) (bind kindOf y)
      | _ => .UNKNOWN := by
  cases op <;> cases h <;> rfl

variable {kindOf : Kinds} {op : CondOp} {w : Nat} {x : Var}

theorem contract_tag {set : Bool} (h : genCond op = some (.tag set)) (x : Var) :
    (contract kindOf ⟨op, [x]⟩).1 = match bind kindOf x with | .Enum _ => .ofBool set | _ => .UNKNOWN := by
  cases op <;> cases h <;> simp only [contract, Cond.map, CondOp.explode, map_cons, map_nil, isPure] <;>
    cases bind kindOf x <;> rfl

/-- Operands that are looked at together. -/
def comparable : Binding → Binding → Bool
  | .Var _, .Var _ | .Int _, .Int _ | .Enum _, .Enum _ => true
  | _, _ => false

theorem answer_mixed (c : Cmp) {a b : Binding} (h : comparable a b = false) : answer c a b = .UNKNOWN := by
  cases a <;> cases b <;> simp only [comparable, Bool.true_eq_false] at h <;> cases c <;> rfl

/-! ## Integers and their words -/

theorem ofInt_inj {a b : Int} : ofInt w a = ofInt w b ↔ a % 2 ^ w = b % 2 ^ w := by
  have h2 : (0 : Int) < 2 ^ w := Int.pow_pos (by decide)
  rw [← BitVec.toNat_inj, toNat_ofInt, toNat_ofInt]
  have ha := Int.emod_nonneg a (Int.ne_of_gt h2)
  have hb := Int.emod_nonneg b (Int.ne_of_gt h2)
  push_cast
  omega

theorem run_ofInt (w : Nat) (c : Cmp) (a b : Int) :
    c.run (ofInt w a) (ofInt w b) = match c with
      | .EQ => decide (a % 2 ^ w = b % 2 ^ w)
      | .NE => decide (a % 2 ^ w ≠ b % 2 ^ w)
      | .LT => decide (a.bmod (2 ^ w) < b.bmod (2 ^ w))
      | .LE => decide (a.bmod (2 ^ w) ≤ b.bmod (2 ^ w))
      | .GT => decide (b.bmod (2 ^ w) < a.bmod (2 ^ w))
      | .GE => decide (b.bmod (2 ^ w) ≤ a.bmod (2 ^ w))
      | .LTU => decide (a % 2 ^ w < b % 2 ^ w) := by
  cases c with
  | EQ => simp only [Cmp.run, ofInt_inj]
  | NE => simp only [Cmp.run, ne_eq, ofInt_inj]
  | LTU =>
    have h2 : (0 : Int) < 2 ^ w := Int.pow_pos (by decide)
    have ha := Int.emod_nonneg a (Int.ne_of_gt h2)
    have hb := Int.emod_nonneg b (Int.ne_of_gt h2)
    simp only [Cmp.run, ult, toNat_ofInt, decide_eq_decide]
    push_cast
    omega
  | _ => simp only [Cmp.run, slt, sle, toInt_ofInt]

/-- On two integer constants the answer is right exactly when they are in the order of their words. -/
theorem answer_ints (w : Nat) (c : Cmp) (a b : Int) :
    (answer c (.Int a) (.Int b) = .UNKNOWN ∨
      answer c (.Int a) (.Int b) = .ofBool (c.run (ofInt w a) (ofInt w b))) ↔ SameOrder w c a b := by
  have hif : ∀ (p q : Prop) [Decidable p] [Decidable q],
      ((if p then Result.TRUE else .FALSE) = .UNKNOWN ∨ (if p then Result.TRUE else .FALSE) = .ofBool (decide q)) ↔ (p ↔ q) := by
    intro p q _ _
    by_cases hp : p <;> by_cases hq : q <;> simp [hp, hq, Result.ofBool]
  rw [run_ofInt]
  have hmod : a = b → a % 2 ^ w = b % 2 ^ w := fun h => by rw [h]
  cases c with
  | EQ =>
    simp only [answer, same, SameOrder, hif]
    exact ⟨fun h => h.2, fun h => ⟨hmod, h⟩⟩
  | NE =>
    have hdiff : diff (.Int a) (.Int b) = if a ≠ b then .TRUE else .FALSE := by
      unfold diff same
      by_cases h : a = b <;> simp [h]
    simp only [answer, hdiff, SameOrder, hif]
    omega
  | _ => simp only [answer, less, lessEq, great, greatEq, SameOrder, hif, gt_iff_lt, ge_iff_le]

/-! ## Variables and enumerations -/

/-- A register compared with itself. -/
def Cmp.reflexive : Cmp → Bool
  | .EQ | .LE | .GE => true
  | _ => false

theorem run_self (c : Cmp) (a : BitVec w) : c.run a a = Cmp.reflexive c := by
  cases c <;> simp [Cmp.run, Cmp.reflexive, slt, sle, ult]

theorem answer_var (c : Cmp) (x y : Var) :
    answer c (.Var x) (.Var y) = if x = y then .ofBool (Cmp.reflexive c) else .UNKNOWN := by
  cases c <;> simp only [answer, same, diff, less, lessEq, great, greatEq, Cmp.reflexive, Result.ofBool] <;>
    by_cases h : x = y <;> simp [h]

theorem enumVal_inj (hw : 32 ≤ w) {a b : Nat} (ha : a < 2 ^ 31) (hb : b < 2 ^ 31) :
    (enumVal a).setWidth w = (enumVal b).setWidth w ↔ a = b := by
  refine ⟨fun h => ?_, fun h => by rw [h]⟩
  have h32 := congrArg (fun v => BitVec.toNat (v.setWidth 32)) h
  simp only [BitVec.setWidth_setWidth_of_le _ hw, enumVal, BitVec.toNat_setWidth, BitVec.toNat_ofNat] at h32
  omega
theorem answer_enums (hw : 32 ≤ w) (c : Cmp) {a b : Nat} (ha : a < 2 ^ 31) (hb : b < 2 ^ 31) :
    answer c (.Enum a) (.Enum b) = .UNKNOWN ∨ answer c (.Enum a) (.Enum b) = .ofBool
      (c.run ((enumVal a).setWidth w) ((enumVal b).setWidth w)) := by
  cases c with
  | EQ =>
    right
    by_cases h : a = b <;> simp [answer, same, Cmp.run, enumVal_inj hw ha hb, h, Result.ofBool]
  | NE =>
    right
    by_cases h : a = b <;> simp [answer, same, diff, Cmp.run, enumVal_inj hw ha hb, h, Result.ofBool]
  | _ => exact .inl rfl

/-! ## What the operands are bound to -/

theorem bind_int {n : Int} (h : bind kindOf x = .Int n) : ∃ ty, kindOf x = some (.const (.int n) ty) := by
  unfold bind at h
  split at h <;> cases h
  exact ⟨_, ‹_›⟩

theorem bind_enum {n : Nat} (h : bind kindOf x = .Enum n) : ∃ ty, kindOf x = some (.const (.enum n) ty) := by
  unfold bind at h
  split at h <;> cases h
  exact ⟨_, ‹_›⟩

theorem bind_var {y : Var} (h : bind kindOf x = .Var y) :
    y = x ∧ (∀ n ty, kindOf x ≠ some (.const (.int n) ty)) ∧ ∀ n ty, kindOf x ≠ some (.const (.enum n) ty) := by
  unfold bind at h
  split at h <;> simp_all

/-- A NaN of either width. -/
def nanReg : Reg := 0x7ff800007fc00000

/-- A valuation in which every float that may be a NaN is one. -/
def nanValuation (kindOf : Kinds) (x : Var) : Reg :=
  match kindOf x with
  | some (.const (.int n) (.raw ty)) => litVal ty n
  | some (.const (.enum n) _) => enumVal n
  | some (.const (.float l) _) => if l = .qNaN then nanReg else 0
  | _ => nanReg

theorem nanValuation_consistent (kindOf : Kinds) : Consistent kindOf (nanValuation kindOf) := by
  have hnan : isNaN (nanReg.setWidth f32Ty) = true ∧ isNaN (nanReg.setWidth f64Ty) = true := by decide
  have hzero : isNaN ((0 : Reg).setWidth f32Ty) = false ∧ isNaN ((0 : Reg).setWidth f64Ty) = false := by decide
  intro x
  grind [nanValuation]

/-! ## When the answer is right -/

theorem FCmp.run_self (v : BitVec w) : FCmp.run .EQ v v = !isNaN v ∧ FCmp.run .NE v v = isNaN v := by
  cases h : isNaN v <;> simp [FCmp.run, h]

/-- On a float comparison the answer is right exactly if a variable tested for equality with itself is no NaN. -/
theorem float_sound_iff {c : FCmp} (h : genCond op = some (.genFCmp w c)) (x y : Var)
    (hty : WellTyped kindOf ⟨op, [x, y]⟩) : Sound kindOf ⟨op, [x, y]⟩ ↔ Harmless kindOf ⟨op, [x, y]⟩ := by
  -- a constant operand is a float
  have hconst : ∀ z ∈ [x, y], ∀ l ty, kindOf z = some (.const l ty) →
      ∃ f, l = .float f ∧ ty = .raw (if w = f32Ty then .float else .double) := by
    intro z hz l ty hk
    have := (hty z hz l ty hk).2
    rwa [h] at this
  have hnoInt : ∀ z ∈ [x, y], ∀ n, bind kindOf z ≠ .Int n := by
    grind [bind_int]
  have hnoEnum : ∀ z ∈ [x, y], ∀ n, bind kindOf z ≠ .Enum n := by
    grind [bind_enum]
  have hw : w = f32Ty ∨ w = f64Ty := by cases op <;> cases h <;> simp
  have hunknown : (contract kindOf ⟨op, [x, y]⟩).1 = .UNKNOWN → Sound kindOf ⟨op, [x, y]⟩ := fun hu _ _ _ _ => .inl hu
  have hans := @contract_genFCmp kindOf _ _ _ h x y
  simp only [Harmless, h, map_cons, map_nil]
  cases hx : bind kindOf x with
  | Int n => exact absurd hx (hnoInt x (by simp) n)
  | Enum n => exact absurd hx (hnoEnum x (by simp) n)
  | Prim p ys =>
    refine iff_of_true (hunknown ?_) trivial
    rw [hans, hx]
    cases c <;> rfl
  | Var x' =>
    obtain ⟨rfl, -, -⟩ := bind_var hx
    cases hy : bind kindOf y with
    | Int n => exact absurd hy (hnoInt y (by simp) n)
    | Enum n => exact absurd hy (hnoEnum y (by simp) n)
    | Prim p ys =>
      refine iff_of_true (hunknown ?_) trivial
      rw [hans, hx, hy]
      cases c <;> rfl
    | Var y' =>
      obtain ⟨rfl, -, -⟩ := bind_var hy
      by_cases hc : (c = .EQ ∨ c = .NE) ∧ x' = y'
      · obtain ⟨hc, rfl⟩ := hc
        -- the answer says that the variable is equal to itself
        have hself : ∀ v : BitVec w, (contract kindOf ⟨op, [x', x']⟩).1 = .ofBool (c.run v v) ↔ isNaN v = false := by
          intro v
          have hrun := FCmp.run_self v
          rw [hans, hx]
          rcases hc with rfl | rfl <;> simp only [same, diff, hrun, if_true, Result.ofBool] <;> cases isNaN v <;> simp
        have hne : (contract kindOf ⟨op, [x', x']⟩).1 ≠ .UNKNOWN := by
          rw [hans, hx]
          rcases hc with rfl | rfl <;> simp [same, diff]
        have hval : ∀ ρ : Var → Reg, condVal op [ρ x', ρ x'] =
            some (c.run ((ρ x').setWidth w) ((ρ x').setWidth w)) := fun ρ => by simp [condVal, h]
        constructor
        · intro hs _ _
          have hn := (hs _ (nanValuation_consistent kindOf) _ (hval _)).resolve_left hne
          rw [hself] at hn
          unfold nanValuation at hn
          have hnan : isNaN (nanReg.setWidth w) = true := by rcases hw with rfl | rfl <;> decide
          grind
        · intro hh ρ hρ b hb
          right
          obtain ⟨l, ty, hk, hl⟩ := hh hc rfl
          rw [show condVal op (map ρ [x', x']) = _ from hval ρ] at hb
          cases hb
          rw [hself]
          obtain ⟨f, hf, hty'⟩ := hconst x' (by simp) _ _ hk
          cases hf
          have hx' := hρ x'
          grind
      · refine iff_of_true (hunknown ?_) fun hc' he => absurd ⟨hc', he⟩ hc
        rw [hans, hx, hy]
        cases c with
        | EQ =>
          have hne : x' ≠ y' := fun he => hc ⟨.inl rfl, he⟩
          simp [same, hne]
        | NE =>
          have hne : x' ≠ y' := fun he => hc ⟨.inr rfl, he⟩
          simp [same, diff, hne]
        | _ => rfl

/-- On a comparison of integers, enumerations, addresses or values of any type the answer is right exactly if integer
    constants are in the order of their words. -/
theorem word_sound_iff {c : Cmp} (h : genCond op = some (.genCmp w c)) (x y : Var)
    (hty : WellTyped kindOf ⟨op, [x, y]⟩) : Sound kindOf ⟨op, [x, y]⟩ ↔ Harmless kindOf ⟨op, [x, y]⟩ := by
  have hw : 32 ≤ w ∧ w ≤ 64 := by cases op <;> cases h <;> decide
  have hval : ∀ ρ : Var → Reg, condVal op [ρ x, ρ y] = some (c.run ((ρ x).setWidth w) ((ρ y).setWidth w)) :=
    fun ρ => by simp [condVal, h]
  have hans := @contract_genCmp kindOf _ _ _ h x y
  have hunknown : (contract kindOf ⟨op, [x, y]⟩).1 = .UNKNOWN → Sound kindOf ⟨op, [x, y]⟩ := fun hu _ _ _ _ => .inl hu
  -- the register of an integer constant
  have hint : ∀ z ∈ [x, y], ∀ n, bind kindOf z = .Int n → ∀ ρ, Consistent kindOf ρ → (ρ z).setWidth w = ofInt w n := by
    intro z hz n hb ρ hρ
    obtain ⟨ty, hk⟩ := bind_int hb
    have ht := (hty z hz _ _ hk).2
    rw [h] at ht
    obtain ⟨t, rfl, hsz⟩ := ht n rfl
    have hz' := hρ z
    simp only [hk] at hz'
    rw [hz', PrimContract.litVal_setWidth hsz hw.2]
  have henum : ∀ z ∈ [x, y], ∀ n, bind kindOf z = .Enum n → n < 2 ^ 31 ∧ ∀ ρ, Consistent kindOf ρ → ρ z = enumVal n := by
    intro z hz n hb
    obtain ⟨ty, hk⟩ := bind_enum hb
    refine ⟨(hty z hz _ _ hk).1 n rfl, fun ρ hρ => ?_⟩
    have hz' := hρ z
    simpa only [hk] using hz'
  simp only [Harmless, h, map_cons, map_nil]
  rcases hx : bind kindOf x with x' | ⟨p, ys⟩ | a | a <;> rcases hy : bind kindOf y with y' | ⟨q, zs⟩ | b | b <;>
    simp only [hx, hy] at hans
  -- operands of different kinds are not compared
  any_goals exact iff_of_true (hunknown (hans.trans (answer_mixed c rfl))) trivial
  · -- two variables
    obtain ⟨rfl, -, -⟩ := bind_var hx
    obtain ⟨rfl, -, -⟩ := bind_var hy
    refine iff_of_true (fun ρ _ v hv => ?_) trivial
    rw [hans, answer_var]
    by_cases he : x' = y'
    · subst he
      rw [show condVal op (map ρ [x', x']) = _ from hval ρ] at hv
      cases hv
      simp [run_self]
    · simp [he]
  · -- two integer constants
    show Sound kindOf ⟨op, [x, y]⟩ ↔ SameOrder w c a b
    rw [← answer_ints]
    have hrun : ∀ ρ, Consistent kindOf ρ → condVal op [ρ x, ρ y] = some (c.run (ofInt w a) (ofInt w b)) := by
      intro ρ hρ
      rw [hval, hint x (by simp) a hx ρ hρ, hint y (by simp) b hy ρ hρ]
    constructor
    · intro hs
      rw [← hans]
      exact hs _ (nanValuation_consistent kindOf) _ (hrun _ (nanValuation_consistent kindOf))
    · intro hr ρ hρ v hv
      rw [show condVal op (map ρ [x, y]) = _ from hrun ρ hρ] at hv
      cases hv
      rw [hans]
      exact hr
  · -- two constants of an enumeration
    obtain ⟨ha, hxa⟩ := henum x (by simp) a hx
    obtain ⟨hb, hyb⟩ := henum y (by simp) b hy
    refine iff_of_true (fun ρ hρ v hv => ?_) trivial
    rw [show condVal op (map ρ [x, y]) = _ from hval ρ, hxa ρ hρ, hyb ρ hρ] at hv
    cases hv
    rw [hans]
    exact answer_enums hw.1 c ha hb

theorem tag_sound {set : Bool} (h : genCond op = some (.tag set)) (x : Var) : Sound kindOf ⟨op, [x]⟩ := by
  intro ρ hρ b hb
  rw [contract_tag h]
  cases hx : bind kindOf x with
  | Enum n =>
    obtain ⟨ty, hk⟩ := bind_enum hx
    have hx' := hρ x
    simp only [hk] at hx'
    have hbit : (enumVal n).getLsbD 0 = true := by simp [enumVal, BitVec.getLsbD_ofNat]
    rw [show condVal op (map ρ [x]) = some (decide ((ρ x).getLsbD 0 = set)) from by simp [condVal, h], hx', hbit] at hb
    cases hb
    right
    cases set <;> rfl
  | _ => exact .inl rfl

/-- The answer is right in every valuation exactly if the condition is harmless. -/
theorem contract_sound_iff {kindOf : Kinds} {cond : Cond Var} (hty : WellTyped kindOf cond) :
    Sound kindOf cond ↔ Harmless kindOf cond := by
  obtain ⟨op, args⟩ := cond
  -- without a value there is nothing to be right about
  have hvoid : (∀ ρ : Var → Reg, condVal op (args.map ρ) = none) → Sound kindOf ⟨op, args⟩ := by
    intro h ρ _ b hb
    rw [show condVal op (map ρ args) = none from h ρ] at hb
    cases hb
  cases hg : genCond op with
  | none => exact iff_of_true (hvoid fun ρ => by simp [condVal, hg]) (by simp [Harmless, hg])
  | some t =>
    cases t with
    | tag set =>
      refine iff_of_true ?_ (by simp [Harmless, hg])
      match args with
      | [x] => exact tag_sound hg x
      | [] => exact hvoid fun ρ => by simp [condVal, hg]
      | _ :: _ :: _ => exact hvoid fun ρ => by simp [condVal, hg]
    | genCmp w c =>
      match args with
      | [x, y] => exact word_sound_iff hg x y hty
      | [] => exact iff_of_true (hvoid fun ρ => by simp [condVal, hg]) (by simp [Harmless, hg])
      | [_] => exact iff_of_true (hvoid fun ρ => by simp [condVal, hg]) (by simp [Harmless, hg])
      | _ :: _ :: _ :: _ => exact iff_of_true (hvoid fun ρ => by simp [condVal, hg]) (by simp [Harmless, hg])
    | genFCmp w c =>
      match args with
      | [x, y] => exact float_sound_iff hg x y hty
      | [] => exact iff_of_true (hvoid fun ρ => by simp [condVal, hg]) (by simp [Harmless, hg])
      | [_] => exact iff_of_true (hvoid fun ρ => by simp [condVal, hg]) (by simp [Harmless, hg])
      | _ :: _ :: _ :: _ => exact iff_of_true (hvoid fun ρ => by simp [condVal, hg]) (by simp [Harmless, hg])

theorem contract_sound_iff_vars : Sound (fun _ => none) ⟨.i64Lt, [⟨0⟩, ⟨0⟩]⟩ ↔ Harmless (fun _ => none) ⟨.i64Lt, [⟨0⟩, ⟨0⟩]⟩ :=
  contract_sound_iff fun _ _ _ _ h => nomatch h

/-- `a` is -1 and `b` is 1. -/
def literals (x : Var) : Option (Bom.Rhs Var) :=
  if x = ⟨0⟩ then some (.const (.int (-1)) (.raw .long)) else some (.const (.int 1) (.raw .long))

/-- A float is taken to be equal to itself although it may be a NaN, and -1 to be below 1 as an unsigned word. -/
theorem contract_unsound :
    ((contract (fun _ => none) ⟨.f64Eq, [⟨0⟩, ⟨0⟩]⟩).1 = .TRUE ∧ ¬ Sound (fun _ => none) ⟨.f64Eq, [⟨0⟩, ⟨0⟩]⟩) ∧
    (contract literals ⟨.u64Lt, [⟨0⟩, ⟨1⟩]⟩).1 = .TRUE ∧ ¬ Sound literals ⟨.u64Lt, [⟨0⟩, ⟨1⟩]⟩ := by
  refine ⟨⟨rfl, fun hs => ?_⟩, rfl, fun hs => ?_⟩
  · have h := hs (fun _ => nanReg) (fun _ => trivial) false (by decide)
    revert h
    decide
  · have h := hs (nanValuation literals) (nanValuation_consistent literals) false (by decide)
    revert h
    decide

end Manticore.BomOpt.CondContract
