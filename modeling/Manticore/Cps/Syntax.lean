/-
  Manticore.Cps.Syntax — the CPS representation (`cps/cps.sml`, `cps/cps-ty.sml`): terms with
  their program points, the subexpressions and the lambdas of a term.
-/

import Manticore.Machine

namespace Manticore.Cps

open List (mem_cons mem_cons_of_mem mem_append mem_append_left mem_append_right mem_singleton not_mem_nil)

/-- `ProgPt.ppt`. -/
abbrev Ppt := Nat

/-- `CPSTy.ty`. -/
inductive Ty where
  | any
  | enum (w : Nat)
  | raw (ty : RawTy)
  | tuple (isMut : Bool) (tys : List Ty)
  | addr (ty : Ty)
  | fun_ (args rets : List Ty)
  | cont (tys : List Ty)
  | cfun (ret : CType) (args : List CType)
  | vproc
  | deque

/-- `CPS.rhs`, over variables or over values. -/
inductive Rhs (V : Type) where
  | var (xs : List V)
  | cast (ty : Ty) (x : V)
  | const (l : Literal) (ty : Ty)
  | select (i : Nat) (x : V)
  | update (i : Nat) (x y : V)
  | addrOf (i : Nat) (x : V)
  | alloc (ty : Ty) (xs : List V)
  | promote (x : V)
  | prim (p : PrimOp) (xs : List V)
  | ccall (f : V) (xs : List V)
  | hostVProc
  | vpLoad (off : Int) (x : V)
  | vpStore (off : Int) (x y : V)
  | vpAddr (off : Int) (x : V)

mutual

/-- `CPS.exp`: a term and its program point. -/
inductive Exp where
  | let_ (pt : Ppt) (lhs : List Var) (rhs : Rhs Var) (e : Exp)
  | fun_ (pt : Ppt) (fbs : List Lambda) (e : Exp)
  | cont (pt : Ppt) (fb : Lambda) (e : Exp)
  | if_ (pt : Ppt) (c : Cond Var) (e₁ e₂ : Exp)
  | switch (pt : Ppt) (x : Var) (cases : List (Nat × Exp)) (dflt : Option Exp)
  | apply (pt : Ppt) (f : Var) (args rets : List Var)
  | throw (pt : Ppt) (k : Var) (args : List Var)

/-- `CPS.lambda`. -/
inductive Lambda where
  | fb (f : Var) (params rets : List Var) (body : Exp)

end

namespace Lambda

def f : Lambda → Var | .fb f _ _ _ => f
def params : Lambda → List Var | .fb _ ps _ _ => ps
def rets : Lambda → List Var | .fb _ _ rs _ => rs
def body : Lambda → Exp | .fb _ _ _ e => e

@[simp] theorem f_fb (f : Var) (ps rs : List Var) (e : Exp) : (fb f ps rs e).f = f := rfl
@[simp] theorem params_fb (f : Var) (ps rs : List Var) (e : Exp) : (fb f ps rs e).params = ps := rfl
@[simp] theorem rets_fb (f : Var) (ps rs : List Var) (e : Exp) : (fb f ps rs e).rets = rs := rfl
@[simp] theorem body_fb (f : Var) (ps rs : List Var) (e : Exp) : (fb f ps rs e).body = e := rfl

end Lambda

/-- `CPS.module`, with the variables of its C functions. -/
structure Module where
  externs : List Var
  body : Lambda

/-- The program point of an expression. -/
def Exp.ppt : Exp → Ppt
  | .let_ pt _ _ _ | .fun_ pt _ _ | .cont pt _ _ | .if_ pt _ _ _ | .switch pt _ _ _ | .apply pt _ _ _
  | .throw pt _ _ => pt

mutual

/-- The expression and everything below it. -/
def Exp.subs : Exp → List Exp
  | .let_ pt lhs rhs e => .let_ pt lhs rhs e :: e.subs
  | .fun_ pt fbs e => .fun_ pt fbs e :: (subsFBs fbs ++ e.subs)
  | .cont pt fb e => .cont pt fb e :: (fb.subs ++ e.subs)
  | .if_ pt c e₁ e₂ => .if_ pt c e₁ e₂ :: (e₁.subs ++ e₂.subs)
  | .switch pt x cases dflt => .switch pt x cases dflt :: (subsCases cases ++ subsDflt dflt)
  | .apply pt f args rets => [.apply pt f args rets]
  | .throw pt k args => [.throw pt k args]

def Lambda.subs : Lambda → List Exp
  | .fb _ _ _ body => body.subs

def subsFBs : List Lambda → List Exp
  | [] => []
  | fb :: fbs => fb.subs ++ subsFBs fbs

def subsCases : List (Nat × Exp) → List Exp
  | [] => []
  | (_, e) :: cases => e.subs ++ subsCases cases

def subsDflt : Option Exp → List Exp
  | none => []
  | some e => e.subs

end

/-- The functions and continuations an expression binds itself. -/
def Exp.fbs : Exp → List Lambda
  | .fun_ _ fbs _ => fbs
  | .cont _ fb _ => [fb]
  | _ => []

/-- Every expression of the module. -/
def Module.exps (m : Module) : List Exp := m.body.subs

/-- Every function and continuation of the module. -/
def Module.lambdas (m : Module) : List Lambda := m.body :: m.exps.flatMap Exp.fbs

/-- The points after an expression that is no call. -/
def Exp.next : Exp → List Ppt
  | .let_ _ _ _ e | .fun_ _ _ e | .cont _ _ e => [e.ppt]
  | .if_ _ _ e₁ e₂ => [e₁.ppt, e₂.ppt]
  | .switch _ _ cases dflt => cases.map (fun c => c.2.ppt) ++ (dflt.map Exp.ppt).toList
  | .apply _ _ _ _ | .throw _ _ _ => []

/-- The variable an expression calls. -/
def Exp.called : Exp → Option Var
  | .apply _ f _ _ => some f
  | .throw _ k _ => some k
  | _ => none

/-- Every expression has a point of its own, and every lambda a name of its own. -/
structure Module.UniquePoints (m : Module) : Prop where
  points : (m.exps.map Exp.ppt).Nodup
  names : (m.lambdas.map Lambda.f).Nodup

/-! ## Subexpressions -/

theorem Exp.self_mem_subs (e : Exp) : e ∈ e.subs := by
  cases e <;> simp [Exp.subs]

mutual

theorem Exp.subs_trans : ∀ {e e' : Exp}, e' ∈ e.subs → ∀ {x : Exp}, x ∈ e'.subs → x ∈ e.subs
  | .let_ pt lhs rhs e, e', h, x, hx => by
    rw [Exp.subs, mem_cons] at h
    rcases h with rfl | h
    · exact hx
    · exact mem_cons_of_mem _ (Exp.subs_trans h hx)
  | .fun_ pt fbs e, e', h, x, hx => by
    rw [Exp.subs, mem_cons, mem_append] at h
    rcases h with rfl | h | h
    · exact hx
    · exact mem_cons_of_mem _ (mem_append_left _ (subsFBs_trans h hx))
    · exact mem_cons_of_mem _ (mem_append_right _ (Exp.subs_trans h hx))
  | .cont pt fb e, e', h, x, hx => by
    rw [Exp.subs, mem_cons, mem_append] at h
    rcases h with rfl | h | h
    · exact hx
    · exact mem_cons_of_mem _ (mem_append_left _ (Lambda.subs_trans h hx))
    · exact mem_cons_of_mem _ (mem_append_right _ (Exp.subs_trans h hx))
  | .if_ pt c e₁ e₂, e', h, x, hx => by
    rw [Exp.subs, mem_cons, mem_append] at h
    rcases h with rfl | h | h
    · exact hx
    · exact mem_cons_of_mem _ (mem_append_left _ (Exp.subs_trans h hx))
    · exact mem_cons_of_mem _ (mem_append_right _ (Exp.subs_trans h hx))
  | .switch pt y cases dflt, e', h, x, hx => by
    rw [Exp.subs, mem_cons, mem_append] at h
    rcases h with rfl | h | h
    · exact hx
    · exact mem_cons_of_mem _ (mem_append_left _ (subsCases_trans h hx))
    · exact mem_cons_of_mem _ (mem_append_right _ (subsDflt_trans h hx))
  | .apply pt f xs rs, e', h, x, hx => by
    rw [Exp.subs, mem_singleton] at h
    exact h ▸ hx
  | .throw pt k xs, e', h, x, hx => by
    rw [Exp.subs, mem_singleton] at h
    exact h ▸ hx

theorem Lambda.subs_trans : ∀ {fb : Lambda} {e' : Exp}, e' ∈ fb.subs → ∀ {x : Exp}, x ∈ e'.subs → x ∈ fb.subs
  | .fb _ _ _ _, _, h, _, hx => Exp.subs_trans h hx

theorem subsFBs_trans : ∀ {fbs : List Lambda} {e' : Exp}, e' ∈ subsFBs fbs → ∀ {x : Exp}, x ∈ e'.subs →
    x ∈ subsFBs fbs
  | [], _, h, _, _ => absurd h not_mem_nil
  | fb :: fbs, e', h, x, hx => by
    rw [subsFBs, mem_append] at h
    rcases h with h | h
    · exact mem_append_left _ (Lambda.subs_trans h hx)
    · exact mem_append_right _ (subsFBs_trans h hx)

theorem subsCases_trans : ∀ {cases : List (Nat × Exp)} {e' : Exp}, e' ∈ subsCases cases → ∀ {x : Exp}, x ∈ e'.subs →
    x ∈ subsCases cases
  | [], _, h, _, _ => absurd h not_mem_nil
  | (_, e) :: cases, e', h, x, hx => by
    rw [subsCases, mem_append] at h
    rcases h with h | h
    · exact mem_append_left _ (Exp.subs_trans h hx)
    · exact mem_append_right _ (subsCases_trans h hx)

theorem subsDflt_trans : ∀ {dflt : Option Exp} {e' : Exp}, e' ∈ subsDflt dflt → ∀ {x : Exp}, x ∈ e'.subs →
    x ∈ subsDflt dflt
  | none, _, h, _, _ => absurd h not_mem_nil
  | some _, _, h, _, hx => Exp.subs_trans h hx

end

theorem mem_subsFBs {fb : Lambda} {fbs : List Lambda} (h : fb ∈ fbs) {x : Exp} (hx : x ∈ fb.subs) : x ∈ subsFBs fbs := by
  induction fbs with
  | nil => cases h
  | cons fb' fbs ih =>
    rcases mem_cons.mp h with rfl | h
    · exact mem_append_left _ hx
    · exact mem_append_right _ (ih h)

theorem mem_subsCases {n : Nat} {e : Exp} {cases : List (Nat × Exp)} (h : (n, e) ∈ cases) {x : Exp} (hx : x ∈ e.subs) :
    x ∈ subsCases cases := by
  induction cases with
  | nil => cases h
  | cons c cases ih =>
    rcases mem_cons.mp h with rfl | h
    · exact mem_append_left _ hx
    · exact mem_append_right _ (ih h)

/-- The point after an expression is the point of an expression below it. -/
theorem Exp.next_mem {e : Exp} {q : Ppt} (h : q ∈ e.next) : ∃ e' ∈ e.subs, e'.ppt = q := by
  cases e with
  | let_ pt lhs rhs e =>
    rw [Exp.next, mem_singleton] at h
    exact ⟨e, mem_cons_of_mem _ e.self_mem_subs, h.symm⟩
  | fun_ _ _ e | cont _ _ e =>
    rw [Exp.next, mem_singleton] at h
    exact ⟨e, mem_cons_of_mem _ (mem_append_right _ e.self_mem_subs), h.symm⟩
  | if_ pt c e₁ e₂ =>
    simp only [Exp.next, mem_cons, not_mem_nil, or_false] at h
    rcases h with rfl | rfl
    · exact ⟨e₁, mem_cons_of_mem _ (mem_append_left _ e₁.self_mem_subs), rfl⟩
    · exact ⟨e₂, mem_cons_of_mem _ (mem_append_right _ e₂.self_mem_subs), rfl⟩
  | switch pt x cases dflt =>
    rw [Exp.next, mem_append] at h
    rcases h with h | h
    · obtain ⟨⟨k, e⟩, hc, rfl⟩ := List.mem_map.mp h
      exact ⟨e, mem_cons_of_mem _ (mem_append_left _ (mem_subsCases hc e.self_mem_subs)), rfl⟩
    · cases dflt with
      | none => cases h
      | some e =>
        have hq : q = e.ppt := by simpa using h
        exact ⟨e, mem_cons_of_mem _ (mem_append_right _ e.self_mem_subs), hq.symm⟩
  | apply pt f xs rs => cases h
  | throw pt k xs => cases h

theorem Module.next_mem {m : Module} {e : Exp} (he : e ∈ m.exps) {q : Ppt} (h : q ∈ e.next) : ∃ e' ∈ m.exps, e'.ppt = q := by
  obtain ⟨e', he', hq⟩ := Exp.next_mem h
  exact ⟨e', Lambda.subs_trans he he', hq⟩

theorem Lambda.body_mem_subs (fb : Lambda) : fb.body ∈ fb.subs := by
  cases fb with
  | fb f ps rs body => exact body.self_mem_subs

theorem Module.body_mem {m : Module} {fb : Lambda} (h : fb ∈ m.lambdas) : fb.body ∈ m.exps := by
  rw [Module.lambdas, mem_cons, List.mem_flatMap] at h
  rcases h with rfl | ⟨e, he, hfb⟩
  · exact m.body.body_mem_subs
  · refine Lambda.subs_trans he ?_
    cases e with
    | fun_ pt fbs e => exact mem_cons_of_mem _ (mem_append_left _ (mem_subsFBs hfb fb.body_mem_subs))
    | cont pt fb' e =>
      rw [Exp.fbs, mem_singleton] at hfb
      exact mem_cons_of_mem _ (mem_append_left _ (hfb ▸ fb.body_mem_subs))
    | _ => cases hfb

end Manticore.Cps
