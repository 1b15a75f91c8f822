/-
  Manticore.BomOpt.DeadFuns — dead-code elimination for groups of functions that only
  call themselves (`bom-opt/dead-funs.sml`).

  The pass walks the module once. `env` holds the functions and continuations whose
  bodies are being walked, with a counter of the uses met there; a group is dead when
  each member's counter equals its use count. Deleting a group takes the uses in its
  bodies off the use counts (`Census.delete`) but not off the counters of the enclosing
  groups. A test, the subject of a case and the target of a throw are not counted; the
  scope of a group is walked before the group, the scope of a continuation after it.
-/

import Manticore.Bom.Syntax

namespace Manticore.Bom.DeadFuns

/-- The two tables the pass updates. -/
structure Counts where
  /-- `BV.useCount`. -/
  useCnt : Var → Int
  /-- The reference cells of the environment. -/
  cnt : Var → Int

/-- `use`. -/
def use (env : List Var) (c : Counts) (f : Var) : Counts :=
  if f ∈ env then { c with cnt := fun x => if x = f then c.cnt x + 1 else c.cnt x } else c

def uses (env : List Var) (c : Counts) (xs : List Var) : Counts := xs.foldl (use env) c

/-- `extend`, the new cell. -/
def extend (c : Counts) (fb : Lambda) : Counts :=
  { c with cnt := fun x => if x = fb.f then 0 else c.cnt x }

def isDead (c : Counts) (fb : Lambda) : Bool := c.cnt fb.f == c.useCnt fb.f

/-- `Census.delete`: every use in the expression is taken off its variable's count. -/
def delete (c : Counts) (e : Exp) : Counts :=
  e.occs.foldl (fun c x => { c with useCnt := fun y => if y = x then c.useCnt y - 1 else c.useCnt y }) c

mutual

def doExp (env : List Var) (c : Counts) : Exp → Exp × Counts
  | .let_ xs e₁ e₂ =>
    let r₁ := doExp env c e₁
    let r₂ := doExp env r₁.2 e₂
    (.let_ xs r₁.1 r₂.1, r₂.2)
  | .stmt xs rhs e =>
    let r := doExp env (uses env c rhs.vars) e
    (.stmt xs rhs r.1, r.2)
  | .fun_ fbs e =>
    let r := doExp env c e
    let s := doFBs (fbs.map Lambda.f ++ env) (fbs.foldl extend r.2) fbs
    if s.1.all (isDead s.2) then (r.1, s.1.foldl (fun c fb => delete c fb.body) s.2)
    else (.fun_ s.1 r.1, s.2)
  | .cont fb e =>
    let s := doFB (fb.f :: env) (extend c fb) fb
    let r := doExp (fb.f :: env) s.2 e
    if isDead s.2 s.1 then (r.1, r.2) else (.cont s.1 r.1, r.2)
  | .if_ x e₁ e₂ =>
    let r₁ := doExp env c e₁
    let r₂ := doExp env r₁.2 e₂
    (.if_ x r₁.1 r₂.1, r₂.2)
  | .case_ x cases dflt =>
    let d := doDflt env c dflt
    let r := doCases env d.2 cases
    (.case_ x r.1 d.1, r.2)
  | .apply f xs ys => (.apply f xs ys, uses env (uses env c (f :: xs)) ys)
  | .throw k xs => (.throw k xs, uses env c xs)
  | .ret xs => (.ret xs, uses env c xs)
  | .hlop op xs ys => (.hlop op xs ys, uses env (uses env c xs) ys)

def doFB (env : List Var) (c : Counts) : Lambda → Lambda × Counts
  | .fb f params exh body =>
    let r := doExp env c body
    (.fb f params exh r.1, r.2)

def doFBs (env : List Var) (c : Counts) : List Lambda → List Lambda × Counts
  | [] => ([], c)
  | fb :: fbs =>
    let r := doFB env c fb
    let s := doFBs env r.2 fbs
    (r.1 :: s.1, s.2)

def doCases (env : List Var) (c : Counts) : List (Pat × Exp) → List (Pat × Exp) × Counts
  | [] => ([], c)
  | (p, e) :: cases =>
    let r := doExp env c e
    let s := doCases env r.2 cases
    ((p, r.1) :: s.1, s.2)

def doDflt (env : List Var) (c : Counts) : Option Exp → Option Exp × Counts
  | none => (none, c)
  | some e =>
    let r := doExp env c e
    (some r.1, r.2)

end

/-- `transform`, started with the given use counts. -/
def transform (m : Module) (useCnt : Var → Int) : Module :=
  { m with body := (doFB [] ⟨useCnt, fun _ => 0⟩ m.body).1 }

end Manticore.Bom.DeadFuns
