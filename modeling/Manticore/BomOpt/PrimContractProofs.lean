/-
  Manticore.BomOpt.PrimContractProofs — for which literals the contraction of primitives keeps the value of a tree.
-/

import Manticore.BomOpt.PrimContract

namespace Manticore.BomOpt.PrimContract

open ConstArith Codegen
open BitVec (ofInt setWidth_eq)
open List (map_cons map_nil)
open Option (map_some)
open Tree (eval prim)

variable {wordSize : Nat} {ty : Bom.Ty}

/-! ## What is folded -/

/-- The operation on constants for an operation of the machine. -/
def constArith (wordSize : Nat) : Oper2 → Nat → Int → Int → Option Int
  | .ADD => total sAdd
  | .SUB => total sSub
  | .MULS => total sMul
  | .MULU => total uMul
  | .DIVS => sQuot
  | .REMS => sRem
  | .DIVU => uDiv
  | .REMU => uMod
  | .ANDB => total bAnd
  | .ORB => total bOr
  | .XORB => total bXor
  | .SLL => total (uShL wordSize)
  | .SRL => total (uShR wordSize)

def constArith1 : Oper1 → Nat → Int → Int
  | .NEG => sNeg
  | .NOTB => bNot

def divides : Oper2 → Bool
  | .DIVS | .REMS | .DIVU | .REMU => true
  | _ => false

variable {p : PrimOp} {w : Nat} {o : Oper2} {ns : List Int} {c b a : Int}

section

attribute [local simp] genPrim contract

theorem contract_two (h : genPrim p = some (.genArith2 w o)) (a b : Int) :
    contract wordSize ty p [.Int a, .Int b] = if divides o ∧ b = 0 then .FAIL else folded ty
      (constArith wordSize o w a b) := by
  have hchk : ∀ width algSimp arith,
      try_chk0 ty width algSimp arith [.Int a, .Int b] = if b = 0 then .FAIL else folded ty (arith width a b) := by
    intro width algSimp arith
    by_cases hb : b = 0
    · subst hb
      rfl
    · rw [if_neg hb]
      unfold try_chk0
      split
      · rename_i heq
        cases heq
        exact absurd rfl hb
      · rfl
  cases p <;> simp only [genPrim, Option.some.injEq, Arith.genArith2.injEq, reduceCtorEq] at h <;>
    obtain ⟨rfl, rfl⟩ := h <;> simp [contract, isPure, hchk, divides, constArith, try_, i32Ty, i64Ty]

theorem contract_one {o : Oper1} (h : genPrim p = some (.genArith1 w o)) (a : Int) :
    contract wordSize ty p [.Int a] = folded ty (some (constArith1 o w a)) := by
  cases p <;> simp only [genPrim, Option.some.injEq, Arith.genArith1.injEq, reduceCtorEq] at h <;>
    obtain ⟨rfl, rfl⟩ := h <;> simp [contract, isPure, folded, constArith1, try1, i32Ty, i64Ty]

theorem contract_none (h : genPrim p = none) (ab : List Binding) : contract wordSize ty p ab = .FAIL := by
  cases p <;> simp only [genPrim, reduceCtorEq] at h <;> simp [contract]

/-- Primitives are applied to as many arguments as the machine's operation has. -/
theorem contract_arity {ab : List Binding}
    (h : (∃ w o, genPrim p = some (.genArith2 w o)) ∧ ab.length ≠ 2 ∨ (∃ w o, genPrim p = some (.genArith1 w o)) ∧ ab.length ≠ 1)
    : contract wordSize ty p ab = .FAIL := by
  have htry : ab.length ≠ 2 → ∀ width algSimp arith, try_ ty width algSimp arith ab = .FAIL := by
    intro hlen width algSimp arith
    unfold try_
    split
    · exact absurd rfl hlen
    · exact absurd rfl hlen
    · rfl
  have hchk : ab.length ≠ 2 → ∀ width algSimp arith, try_chk0 ty width algSimp arith ab = .FAIL := by
    intro hlen width algSimp arith
    unfold try_chk0
    split
    · exact absurd rfl hlen
    · exact htry hlen width algSimp arith
  have htry1 : ab.length ≠ 1 → ∀ width arith, try1 ty width arith ab = .FAIL := by
    intro hlen width arith
    unfold try1
    split
    · exact absurd rfl hlen
    · rfl
  rcases h with ⟨⟨w, o, h⟩, hlen⟩ | ⟨⟨w, o, h⟩, hlen⟩
  · cases p <;> simp only [genPrim, Option.some.injEq, reduceCtorEq] at h <;>
      simp [contract, htry hlen, hchk hlen]
  · cases p <;> simp only [genPrim, Option.some.injEq, reduceCtorEq] at h <;> simp [contract, htry1 hlen]

/-- What it takes for a primitive on literals to be replaced. -/
theorem contract_inv {ty' : Bom.Ty} (h : contract wordSize ty p (ns.map .Int) = .replRHS (.const (.int c) ty')) :
    (∃ w o a b, genPrim p = some (.genArith2 w o) ∧ ns = [a, b] ∧ ¬(divides o ∧ b = 0) ∧ constArith wordSize o w a b = some c)
      ∨ ∃ w o a, genPrim p = some (.genArith1 w o) ∧ ns = [a] ∧ constArith1 o w a = c := by
  cases hp : genPrim p with
  | none =>
    rw [contract_none hp] at h
    cases h
  | some arith =>
    cases arith with
    | genArith2 w o =>
      by_cases hlen : ns.length = 2
      · obtain ⟨a, b, rfl⟩ := List.length_eq_two.mp hlen
        rw [map_cons, map_cons, map_nil, contract_two hp] at h
        split at h
        case isTrue => cases h
        case isFalse hdiv =>
          cases hc : constArith wordSize o w a b with
          | none =>
            rw [hc] at h
            cases h
          | some c' =>
            rw [hc] at h
            cases h
            exact .inl ⟨w, o, a, b, rfl, rfl, hdiv, hc⟩
      grind [contract_arity]
    | genArith1 w o =>
      by_cases hlen : ns.length = 1
      · obtain ⟨a, rfl⟩ := List.length_eq_one_iff.mp hlen
        rw [map_cons, map_nil, contract_one hp] at h
        cases h
        exact .inr ⟨w, o, a, rfl, rfl, rfl⟩
      grind [contract_arity]

end

/-! ## Folding one operation -/

/-- Literals on which an operation of the machine and the one on constants agree. -/
def Fits2 (wordSize : Nat) (o : Oper2) (w : Nat) (a b : Int) : Prop :=
  match o with
  | .DIVS | .REMS => b = 0 ∨ InRange w a ∧ InRange w b ∧ ¬ Overflows w a b
  | .DIVU => b = 0 ∨ (0 ≤ a ∧ a < 2 ^ w) ∧ (0 < b ∧ b < 2 ^ w) ∨ InRange w a ∧ InRange w b ∧ UDivFits a b
  | .REMU => b = 0 ∨ (0 ≤ a ∧ a < 2 ^ w) ∧ (0 < b ∧ b < 2 ^ w) ∨ InRange w a ∧ InRange w b ∧ UModFits w a b
  | .SLL => UShLFits wordSize w a b
  | .SRL => UShRFits wordSize w a b
  | _ => True

/-- Literals on which a primitive may be folded. -/
def Fits (wordSize : Nat) (p : PrimOp) (ns : List Int) : Prop :=
  match genPrim p, ns with
  | some (.genArith2 w o), [a, b] => Fits2 wordSize o w a b
  | _, _ => True

theorem ofInt_eq_zero_iff (hw : 0 < w) (hb : InRange w b) : ofInt w b = 0 ↔ b = 0 := by
  rw [show (0 : BitVec w) = ofInt w 0 from rfl]
  exact ofInt_inj hw hb (inRange_zero w)

theorem ofInt_eq_zero_unsigned (hb : 0 < b ∧ b < 2 ^ w) : ofInt w b ≠ 0 := by
  grind [toNat_ofInt_nonneg]

theorem overflows_iff (hw : 1 < w) (ha : InRange w a) (hb : InRange w b) :
    (ofInt w a = BitVec.intMin w ∧ ofInt w b = -1) ↔ Overflows w a b := by
  have hpos := two_pow_pos (w - 1)
  have hneg : (-1 : BitVec w) = ofInt w (-1) := by
    rw [BitVec.ofInt_neg]
    rfl
  rw [← ofInt_intMin (by omega), hneg, ofInt_inj (by omega) ha ⟨Int.le_refl _, by omega⟩,
    ofInt_inj (by omega) hb ⟨by omega, by omega⟩]
  rfl

theorem count_eq (hw : w ∣ 2 ^ w) (b : Int) : (ofInt w b).toNat % w = (b % w).toNat := by
  rw [BitVec.toNat_ofInt, ← emod_toNat hw]
  norm_cast

/-- Where the literals fit, the folded literal is the machine's result. -/
theorem run_of_fits (hw : 1 < w) (hw2 : w ∣ 2 ^ w) (hword : w ∣ 2 ^ wordSize) (hdiv : ¬(divides o ∧ b = 0))
    (hc : constArith wordSize o w a b = some c) (h : Fits2 wordSize o w a b) :
    o.run (ofInt w a) (ofInt w b) = some (ofInt w c) := by
  have hw0 : 0 < w := by omega
  cases o with
  | ADD => cases hc; exact congrArg some (ofInt_sAdd a b).symm
  | SUB => cases hc; exact congrArg some (ofInt_sSub a b).symm
  | MULS => cases hc; exact congrArg some (ofInt_sMul a b).symm
  | MULU => cases hc; exact congrArg some (ofInt_uMul a b).symm
  | ANDB => cases hc; exact congrArg some (ofInt_bAnd a b).symm
  | ORB => cases hc; exact congrArg some (ofInt_bOr a b).symm
  | XORB => cases hc; exact congrArg some (ofInt_bXor a b).symm
  | SLL =>
    cases hc
    simp only [Oper2.run, count_eq hw2]
    exact congrArg some ((ofInt_uShL_iff hword a b).mpr h).symm
  | SRL =>
    cases hc
    simp only [Oper2.run, count_eq hw2]
    refine congrArg some (Eq.symm ?_)
    rcases h with ⟨h0, hlt, h⟩ | ⟨ha, h0, h⟩
    · exact (ofInt_uShR_unsigned hword ⟨h0, hlt⟩ b).mpr h
    · exact (ofInt_uShR_neg hw0 hword ha h0 b).mpr h
  | DIVS =>
    have hb0 : b ≠ 0 := fun hz => hdiv ⟨rfl, hz⟩
    obtain ⟨ha, hb, ho⟩ := h.resolve_left hb0
    simp only [constArith, sQuot, quot, if_neg hb0, map_some, Option.some.injEq] at hc
    simp only [Oper2.run]
    rw [if_neg (not_or.mpr ⟨mt (ofInt_eq_zero_iff hw0 hb).mp hb0, mt (overflows_iff hw ha hb).mp ho⟩), ← hc,
      ofInt_sQuot hw0 ha hb ho]
  | REMS =>
    have hb0 : b ≠ 0 := fun hz => hdiv ⟨rfl, hz⟩
    obtain ⟨ha, hb, ho⟩ := h.resolve_left hb0
    simp only [constArith, sRem, rem, if_neg hb0, map_some, Option.some.injEq] at hc
    simp only [Oper2.run]
    rw [if_neg (not_or.mpr ⟨mt (ofInt_eq_zero_iff hw0 hb).mp hb0, mt (overflows_iff hw ha hb).mp ho⟩), ← hc,
      ofInt_sRem hw0 ha hb]
  | DIVU =>
    have hb0 : b ≠ 0 := fun hz => hdiv ⟨rfl, hz⟩
    simp only [constArith, uDiv, quot, if_neg hb0, map_some, Option.some.injEq] at hc
    simp only [Oper2.run]
    rcases h.resolve_left hb0 with ⟨ha, hb⟩ | ⟨ha, hb, h⟩
    · rw [if_neg (ofInt_eq_zero_unsigned hb), ← hc, ofInt_uDiv_unsigned ha hb]
    · rw [if_neg (mt (ofInt_eq_zero_iff hw0 hb).mp hb0), ← hc, (ofInt_uDiv_iff hw0 ha hb hb0).mpr h]
  | REMU =>
    have hb0 : b ≠ 0 := fun hz => hdiv ⟨rfl, hz⟩
    simp only [constArith, uMod, rem, if_neg hb0, map_some, Option.some.injEq] at hc
    simp only [Oper2.run]
    rcases h.resolve_left hb0 with ⟨ha, hb⟩ | ⟨ha, hb, h⟩
    · rw [if_neg (ofInt_eq_zero_unsigned hb), ← hc, ofInt_uMod_unsigned ha hb]
    · rw [if_neg (mt (ofInt_eq_zero_iff hw0 hb).mp hb0), ← hc, (ofInt_uMod_iff hw0 ha hb hb0).mpr h]

/-- Literals of the signed range whose folded literal is the machine's result fit. -/
theorem fits_of_run (hw : 1 < w) (hw2 : w ∣ 2 ^ w) (hword : w ∣ 2 ^ wordSize) (ha : InRange w a) (hb : InRange w b)
    (hc : constArith wordSize o w a b = some c)
    (h : o.run (ofInt w a) (ofInt w b) = some (ofInt w c)) : Fits2 wordSize o w a b := by
  have hw0 : 0 < w := by omega
  cases o with
  | SLL =>
    cases hc
    simp only [Oper2.run, count_eq hw2] at h
    exact (ofInt_uShL_iff hword a b).mp (Option.some.inj h).symm
  | SRL =>
    cases hc
    simp only [Oper2.run, count_eq hw2] at h
    exact (ofInt_uShR_iff hw0 hword ha b).mp (Option.some.inj h).symm
  | DIVS | REMS =>
    by_cases hb0 : b = 0
    · exact .inl hb0
    · refine .inr ⟨ha, hb, fun ho => ?_⟩
      simp only [Oper2.run] at h
      rw [if_pos (.inr ((overflows_iff hw ha hb).mpr ho))] at h
      cases h
  | DIVU =>
    by_cases hb0 : b = 0
    · exact .inl hb0
    · simp only [constArith, uDiv, quot, if_neg hb0, map_some, Option.some.injEq] at hc
      simp only [Oper2.run] at h
      rw [if_neg (mt (ofInt_eq_zero_iff hw0 hb).mp hb0), ← hc] at h
      exact .inr (.inr ⟨ha, hb, (ofInt_uDiv_iff hw0 ha hb hb0).mp (Option.some.inj h).symm⟩)
  | REMU =>
    by_cases hb0 : b = 0
    · exact .inl hb0
    · simp only [constArith, uMod, rem, if_neg hb0, map_some, Option.some.injEq] at hc
      simp only [Oper2.run] at h
      rw [if_neg (mt (ofInt_eq_zero_iff hw0 hb).mp hb0), ← hc] at h
      exact .inr (.inr ⟨ha, hb, (ofInt_uMod_iff hw0 ha hb hb0).mp (Option.some.inj h).symm⟩)
  | _ => trivial

/-! ## Folding a primitive -/

theorem szOf_resTy (h : (∃ o, genPrim p = some (.genArith2 w o)) ∨ ∃ o, genPrim p = some (.genArith1 w o)) :
    szOf (resTy p) = w ∧ (w = 32 ∨ w = 64) := by
  rcases h with ⟨o, h⟩ | ⟨o, h⟩ <;> unfold resTy <;> rw [h]
  · cases p <;> simp only [genPrim, Option.some.injEq, Arith.genArith2.injEq, reduceCtorEq] at h <;>
      obtain ⟨rfl, -⟩ := h <;> first | exact ⟨rfl, .inl rfl⟩ | exact ⟨rfl, .inr rfl⟩
  · cases p <;> simp only [genPrim, Option.some.injEq, Arith.genArith1.injEq, reduceCtorEq] at h <;>
      obtain ⟨rfl, -⟩ := h <;> first | exact ⟨rfl, .inl rfl⟩ | exact ⟨rfl, .inr rfl⟩

theorem litVal_setWidth {ty : RawTy} (h : szOf ty = w) (hw : w ≤ 64) (n : Int) :
    (litVal ty n).setWidth w = ofInt w n := by
  subst h
  unfold litVal
  rw [BitVec.setWidth_setWidth_of_le _ hw, setWidth_eq]

theorem litVal_inj {ty : RawTy} (h : szOf ty = w) (hw : w ≤ 64) {v : BitVec w} {n : Int} :
    v.setWidth 64 = litVal ty n ↔ v = ofInt w n := by
  subst h
  constructor
  · intro he
    have hlow := congrArg (BitVec.setWidth (szOf ty)) he
    rwa [BitVec.setWidth_setWidth_of_le _ hw, setWidth_eq, litVal_setWidth rfl hw] at hlow
  · intro he
    rw [he, litVal]

/-- The value of a primitive on literals, when it is replaced by the literal `c`. -/
theorem primVal_two (h : genPrim p = some (.genArith2 w o)) (other : PrimOp → List Reg → Option Reg) (a b c : Int) :
    primVal other p [litVal (resTy p) a, litVal (resTy p) b] = some (litVal (resTy p) c) ↔ o.run (ofInt w a)
      (ofInt w b) = some (ofInt w c) := by
  obtain ⟨hsz, hw⟩ := szOf_resTy (.inl ⟨o, h⟩)
  have hle : w ≤ 64 := by omega
  simp [primVal, h, litVal_setWidth, hsz, hle, litVal_inj]

theorem primVal_one {o : Oper1} (h : genPrim p = some (.genArith1 w o)) (other : PrimOp → List Reg → Option Reg)
    (a : Int) : primVal other p [litVal (resTy p) a] = some (litVal (resTy p) (constArith1 o w a)) := by
  obtain ⟨hsz, hw⟩ := szOf_resTy (.inr ⟨o, h⟩)
  have hle : w ≤ 64 := by omega
  unfold primVal
  rw [h]
  simp only [litVal_setWidth hsz hle, Option.some.injEq, litVal_inj hsz hle]
  cases o with
  | NEG => exact (ofInt_sNeg a).symm
  | NOTB => exact (ofInt_bNot a).symm

theorem evalArgs_lits (other : PrimOp → List Reg → Option Reg) (ρ : Manticore.Var → Reg) (ty : RawTy) (ns : List Int) :
    evalArgs other ρ (ns.map (.lit ty)) = some (ns.map (litVal ty)) := by
  induction ns with
  | nil => rfl
  | cons n ns ih =>
    rw [map_cons, evalArgs, ih]
    rfl

theorem evalArgs_congr {other : PrimOp → List Reg → Option Reg} {ρ : Manticore.Var → Reg} {a a' : Tree}
    (h : a'.eval other ρ = a.eval other ρ) (pre post : List Tree) :
    evalArgs other ρ (pre ++ a' :: post) = evalArgs other ρ (pre ++ a :: post) := by
  induction pre with
  | nil => rw [List.nil_append, List.nil_append, evalArgs, evalArgs, h]
  | cons b pre ih => rw [List.cons_append, List.cons_append, evalArgs, evalArgs, ih]

/-- The widths divide the number of words of either width, and of the compiler's words. -/
theorem width_dvd (hword : 6 ≤ wordSize) (hw : w = 32 ∨ w = 64) : 1 < w ∧ w ∣ 2 ^ w ∧ w ∣ 2 ^ wordSize := by
  have h64 : 64 ∣ 2 ^ wordSize := pow_dvd_pow 2 hword
  rcases hw with rfl | rfl
  · exact ⟨by decide, by decide, Nat.dvd_trans (by decide) h64⟩
  · exact ⟨by decide, by decide, h64⟩

/-- A replacement on literals that fit keeps the value of the tree. -/
theorem Step.eval_eq (hword : 6 ≤ wordSize) {e e' : Tree} (h : Step wordSize p ns e e') (hf : Fits wordSize p ns)
    (other : PrimOp → List Reg → Option Reg) (ρ : Manticore.Var → Reg) : e'.eval other ρ = e.eval other ρ := by
  induction h with
  | arg _ ih => rw [eval, eval, evalArgs_congr ih]
  | @here c hc =>
    rw [eval, eval, evalArgs_lits]
    show _ = primVal other p (ns.map (litVal (resTy p)))
    rcases contract_inv hc with ⟨w, o, a, b, hp, rfl, hdiv, harith⟩ | ⟨w, o, a, hp, rfl, rfl⟩
    · obtain ⟨hw, hw2, hws⟩ := width_dvd hword (szOf_resTy (.inl ⟨o, hp⟩)).2
      unfold Fits at hf
      rw [hp] at hf
      exact ((primVal_two hp other a b c).mpr (run_of_fits hw hw2 hws hdiv harith hf)).symm
    · exact (primVal_one hp other a).symm

/-- A replacement on literals of the signed range that keeps the value is on literals that fit. -/
theorem fits_of_eval (hword : 6 ≤ wordSize) (hr : ∀ n ∈ ns, InRange (szOf (resTy p)) n)
    {other : PrimOp → List Reg → Option Reg} {ρ : Manticore.Var → Reg}
    (h : ∀ e e', Step wordSize p ns e e' → e'.eval other ρ = e.eval other ρ) : Fits wordSize p ns := by
  unfold Fits
  split
  case h_2 => trivial
  case h_1 w o a b hp =>
    obtain ⟨hsz, hw⟩ := szOf_resTy (.inl ⟨o, hp⟩)
    obtain ⟨hw1, hw2, hws⟩ := width_dvd hword hw
    rw [hsz] at hr
    have ha := hr a (by simp)
    have hb := hr b (by simp)
    by_cases hdiv : divides o ∧ b = 0
    · obtain ⟨ho, hb0⟩ := hdiv
      cases o with
      | DIVS | REMS | DIVU | REMU => exact .inl hb0
      | _ => cases ho
    · have harith : ∃ c, constArith wordSize o w a b = some c := by
        cases o with
        | DIVS | REMS | DIVU | REMU =>
          have hb0 : b ≠ 0 := fun hz => hdiv ⟨rfl, hz⟩
          exact ⟨_, by simp only [constArith, sQuot, sRem, uDiv, uMod, quot, rem, if_neg hb0, map_some]; rfl⟩
        | _ => exact ⟨_, rfl⟩
      obtain ⟨c, hc⟩ := harith
      have hstep : contract wordSize (.raw (resTy p)) p ([a, b].map .Int) =
          .replRHS (.const (.int c) (.raw (resTy p))) := by
        rw [map_cons, map_cons, map_nil, contract_two hp, if_neg hdiv, hc]
        rfl
      have heval := h _ _ (.here hstep)
      rw [eval, eval, evalArgs_lits] at heval
      exact fits_of_run hw1 hw2 hws ha hb hc ((primVal_two hp other a b c).mp heval.symm)

/-! ## Folding a tree -/

/-- A tree and one that replacements on literals that fit lead to. -/
def Folds (wordSize : Nat) : Tree → Tree → Prop :=
  Relation.ReflTransGen fun e e' => ∃ p ns, Step wordSize p ns e e' ∧ Fits wordSize p ns

/-- Replacements on literals that fit keep the value of a tree, however many there are; and a replacement on literals
    of the signed range keeps the value of every tree only when they fit. -/
theorem contract_correct (hword : 6 ≤ wordSize) :
    (∀ e e', Folds wordSize e e' → ∀ other ρ, e'.eval other ρ = e.eval other ρ) ∧
    ∀ p ns, (∀ n ∈ ns, InRange (szOf (resTy p)) n) →
      ((∀ e e', Step wordSize p ns e e' → ∀ other ρ, e'.eval other ρ = e.eval other ρ) ↔ Fits wordSize p ns) := by
  constructor
  · intro e e' h other ρ
    induction h with
    | refl => rfl
    | tail _ hstep ih =>
      obtain ⟨p, ns, hs, hf⟩ := hstep
      rw [hs.eval_eq hword hf, ih]
  · intro p ns hr
    constructor
    · intro h
      exact fits_of_eval hword hr fun e e' hs => h e e' hs (fun _ _ => none) fun _ => 0
    · intro hf e e' hs other ρ
      exact hs.eval_eq hword hf other ρ

theorem contract_correct_div : Fits 63 .i32Div [-7, 2] ∧
    ∀ other ρ, (prim .i32Add [.var ⟨0⟩, .lit .int (-3)]).eval other ρ =
      (prim .i32Add [.var ⟨0⟩, .prim .i32Div [.lit .int (-7), .lit .int 2]]).eval other ρ := by
  have hfits : Fits 63 .i32Div [-7, 2] := by
    show (2 : Int) = 0 ∨ InRange 32 (-7) ∧ InRange 32 2 ∧ ¬ Overflows 32 (-7) 2
    unfold InRange Overflows
    decide
  have hfold : contract 63 (.raw .int) .i32Div [.Int (-7), .Int 2] = .replRHS (.const (.int (-3)) (.raw .int)) := by
    rw [contract_two (o := .DIVS) (w := 32) rfl, show constArith 63 .DIVS 32 (-7) 2 = some (-3) by decide +kernel]
    rfl
  have hstep : Step 63 .i32Div [-7, 2]
      (.prim .i32Add ([.var ⟨0⟩] ++ .prim .i32Div [.lit .int (-7), .lit .int 2] :: []))
      (.prim .i32Add ([.var ⟨0⟩] ++ .lit .int (-3) :: [])) :=
    .arg (.here hfold)
  exact ⟨hfits, (contract_correct (show 6 ≤ 63 by decide)).1 _ _ (.single ⟨_, _, hstep, hfits⟩)⟩

/-- The literals −1 and 2 of an unsigned division are divided by `IntInf.quot` as they stand, to 0 and not to
    2147483647. -/
theorem contract_u32Div_ne : Step 63 .u32Div [-1, 2] (.prim .u32Div [.lit .int (-1), .lit .int 2]) (.lit .int 0) ∧
    ∀ other ρ, (Tree.lit .int 0).eval other ρ ≠
      (prim .u32Div [.lit .int (-1), .lit .int 2]).eval other ρ := by
  have hfold : contract 63 (.raw .int) .u32Div [.Int (-1), .Int 2] = .replRHS (.const (.int 0) (.raw .int)) := rfl
  refine ⟨.here hfold, fun other ρ h => ?_⟩
  rw [eval, eval, evalArgs, evalArgs, evalArgs, eval, eval] at h
  have hdiv := (primVal_two (p := .u32Div) rfl other (-1) 2 0).mp h.symm
  revert hdiv
  decide

end Manticore.BomOpt.PrimContract
