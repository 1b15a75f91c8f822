/-
  Manticore.Bom.Syntax — the BOM representation (`bom/bom.sml`, `bom/bom-ty.sml`), its
  variable occurrences and binders, well-scoped modules, and accurate use counts
  (`bom/census.sml`).

  Program points and the mutable fields of a variable are not part of a term: a pass
  that reads use counts takes the table of counts. A datatype is named by its stamp.
-/

import Manticore.Machine

namespace Manticore.Bom

/-- `BOMTy.kind`. -/
inductive Kind where
  | raw | boxed | unboxed | uniform | type
  deriving DecidableEq, Repr

/-- `BOMTy.tyc`: the stamp of a datatype or of an abstract type. -/
inductive Tyc where
  | data (stamp : Nat)
  | abs (stamp : Nat)
  deriving DecidableEq, Repr

/-- `BOMTy.ty`. -/
inductive Ty where
  | any
  | enum (w : Nat)
  | raw (ty : RawTy)
  | tuple (isMut : Bool) (tys : List Ty)
  | addr (ty : Ty)
  | fun_ (args exh res : List Ty)
  | cont (tys : List Ty)
  | cfun (ret : CType) (args : List CType)
  | vproc
  | deque
  | tyCon (tyc : Tyc)
  | parr

def unitTy : Ty := .enum 0

/-- `BOMTy.dcon_rep`. -/
inductive DConRep where
  | enum (w : Nat)
  | transparent
  | tuple
  | taggedTuple (w : Nat)
  | exnRep
  deriving DecidableEq, Repr

/-- `BOMTy.data_con`; constructors are told apart by their stamps. -/
structure DCon where
  name : String
  stamp : Nat
  rep : DConRep
  argTy : List Ty
  myTyc : Tyc

/-- `BOM.rhs`, over variables or over values. -/
inductive Rhs (V : Type) where
  | const (l : Literal) (ty : Ty)
  | cast (ty : Ty) (x : V)
  | select (i : Nat) (x : V)
  | update (i : Nat) (x y : V)
  | addrOf (i : Nat) (x : V)
  | alloc (ty : Ty) (xs : List V)
  | promote (x : V)
  | prim (p : PrimOp) (xs : List V)
  | dcon (dc : DCon) (xs : List V)
  | ccall (f : V) (xs : List V)
  | hostVProc
  | vpLoad (off : Int) (x : V)
  | vpStore (off : Int) (x y : V)
  | vpAddr (off : Int) (x : V)

/-- `BOM.pat`. -/
inductive Pat where
  | dcon (dc : DCon) (xs : List Var)
  | const (l : Literal) (ty : Ty)

mutual

/-- `BOM.term`. -/
inductive Exp where
  | let_ (lhs : List Var) (rhs e : Exp)
  | stmt (lhs : List Var) (rhs : Rhs Var) (e : Exp)
  | fun_ (fbs : List Lambda) (e : Exp)
  | cont (fb : Lambda) (e : Exp)
  | if_ (c : Cond Var) (e₁ e₂ : Exp)
  | case_ (x : Var) (cases : List (Pat × Exp)) (dflt : Option Exp)
  | apply (f : Var) (args rets : List Var)
  | throw (k : Var) (args : List Var)
  | ret (xs : List Var)
  | hlop (op : HLOp) (args rets : List Var)

/-- `BOM.lambda`. -/
inductive Lambda where
  | fb (f : Var) (params exh : List Var) (body : Exp)

end

namespace Lambda

def f : Lambda → Var | .fb f _ _ _ => f
def params : Lambda → List Var | .fb _ ps _ _ => ps
def exh : Lambda → List Var | .fb _ _ xs _ => xs
def body : Lambda → Exp | .fb _ _ _ e => e

@[simp] theorem f_fb (f : Var) (ps xs : List Var) (e : Exp) : (fb f ps xs e).f = f := rfl
@[simp] theorem params_fb (f : Var) (ps xs : List Var) (e : Exp) : (fb f ps xs e).params = ps := rfl
@[simp] theorem body_fb (f : Var) (ps xs : List Var) (e : Exp) : (fb f ps xs e).body = e := rfl

end Lambda

/-- `BOM.module`, without the rewrite rules and with the variables of its C functions. -/
structure Module where
  externs : List Var
  hlops : List Var
  body : Lambda

/-! ## Occurrences -/

/-- `BOMUtil.varsOfRHS`. -/
def Rhs.vars {V : Type} : Rhs V → List V
  | .const _ _ | .hostVProc => []
  | .cast _ x | .select _ x | .addrOf _ x | .promote x | .vpLoad _ x | .vpAddr _ x => [x]
  | .update _ x y | .vpStore _ x y => [x, y]
  | .alloc _ xs | .prim _ xs | .dcon _ xs => xs
  | .ccall f xs => f :: xs

def Pat.binders : Pat → List Var
  | .dcon _ xs => xs
  | .const _ _ => []

mutual

/-- The variables an expression mentions, once for each use. -/
def Exp.occs : Exp → List Var
  | .let_ _ rhs e => rhs.occs ++ e.occs
  | .stmt _ rhs e => rhs.vars ++ e.occs
  | .fun_ fbs e => occsFBs fbs ++ e.occs
  | .cont fb e => fb.occs ++ e.occs
  | .if_ c e₁ e₂ => c.args ++ (e₁.occs ++ e₂.occs)
  | .case_ x cases dflt => x :: (occsCases cases ++ occsDflt dflt)
  | .apply f args rets => f :: (args ++ rets)
  | .throw k args => k :: args
  | .ret xs => xs
  | .hlop _ args rets => args ++ rets

def Lambda.occs : Lambda → List Var
  | .fb _ _ _ body => body.occs

def occsFBs : List Lambda → List Var
  | [] => []
  | fb :: fbs => fb.occs ++ occsFBs fbs

def occsCases : List (Pat × Exp) → List Var
  | [] => []
  | (_, e) :: cases => e.occs ++ occsCases cases

def occsDflt : Option Exp → List Var
  | none => []
  | some e => e.occs

end

mutual

/-- The variables an expression binds, once for each binding. -/
def Exp.binders : Exp → List Var
  | .let_ lhs rhs e => lhs ++ (rhs.binders ++ e.binders)
  | .stmt lhs _ e => lhs ++ e.binders
  | .fun_ fbs e => bindersFBs fbs ++ e.binders
  | .cont fb e => fb.binders ++ e.binders
  | .if_ _ e₁ e₂ => e₁.binders ++ e₂.binders
  | .case_ _ cases dflt => bindersCases cases ++ bindersDflt dflt
  | .apply _ _ _ | .throw _ _ | .ret _ | .hlop _ _ _ => []

def Lambda.binders : Lambda → List Var
  | .fb f params exh body => f :: (params ++ (exh ++ body.binders))

def bindersFBs : List Lambda → List Var
  | [] => []
  | fb :: fbs => fb.binders ++ bindersFBs fbs

def bindersCases : List (Pat × Exp) → List Var
  | [] => []
  | (p, e) :: cases => p.binders ++ (e.binders ++ bindersCases cases)

def bindersDflt : Option Exp → List Var
  | none => []
  | some e => e.binders

end

mutual

/-- Every variable an expression mentions is in `Γ` or bound around the use. -/
def Exp.Scoped (Γ : List Var) : Exp → Prop
  | .let_ lhs rhs e => rhs.Scoped Γ ∧ e.Scoped (lhs ++ Γ)
  | .stmt lhs rhs e => rhs.vars ⊆ Γ ∧ e.Scoped (lhs ++ Γ)
  | .fun_ fbs e => ScopedFBs (fbs.map Lambda.f ++ Γ) fbs ∧ e.Scoped (fbs.map Lambda.f ++ Γ)
  | .cont fb e => fb.Scoped (fb.f :: Γ) ∧ e.Scoped (fb.f :: Γ)
  | .if_ c e₁ e₂ => c.args ⊆ Γ ∧ e₁.Scoped Γ ∧ e₂.Scoped Γ
  | .case_ x cases dflt => x ∈ Γ ∧ ScopedCases Γ cases ∧ ScopedDflt Γ dflt
  | .apply f args rets => f ∈ Γ ∧ args ⊆ Γ ∧ rets ⊆ Γ
  | .throw k args => k ∈ Γ ∧ args ⊆ Γ
  | .ret xs => xs ⊆ Γ
  | .hlop _ args rets => args ⊆ Γ ∧ rets ⊆ Γ

def Lambda.Scoped (Γ : List Var) : Lambda → Prop
  | .fb _ params exh body => body.Scoped (params ++ (exh ++ Γ))

def ScopedFBs (Γ : List Var) : List Lambda → Prop
  | [] => True
  | fb :: fbs => fb.Scoped Γ ∧ ScopedFBs Γ fbs

def ScopedCases (Γ : List Var) : List (Pat × Exp) → Prop
  | [] => True
  | (p, e) :: cases => e.Scoped (p.binders ++ Γ) ∧ ScopedCases Γ cases

def ScopedDflt (Γ : List Var) : Option Exp → Prop
  | none => True
  | some e => e.Scoped Γ

end

/-- Every variable the module mentions is bound around the use. The functions of inline HLOps are
    listed in `hlops` without being part of the body. -/
def Module.Scoped (m : Module) : Prop := m.body.Scoped m.externs

/-- Every variable of the module is bound once. -/
def Module.UniqueBinders (m : Module) : Prop := (m.externs ++ m.body.binders).Nodup

/-- The accurate use count of a variable, as `Census.census` computes it: one for each use, and
    one more for each time the variable defines an HLOp. -/
def Module.useCount (m : Module) (x : Var) : Int := m.body.occs.count x + m.hlops.count x

end Manticore.Bom
