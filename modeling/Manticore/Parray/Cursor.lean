/-
  Manticore.Parray.Cursor — cursors into trees whose left part is finished and whose right part is not
  (`basis/parray/rope.pml`, `int-rope.pml`): navigation, splitting the unfinished part of a cursor in two, and joining
  the results. A context lists its pieces from the cursor outwards.

  The two structures differ in `splitAt` and `join`: `Rope` reverses the pieces left of the element it splits at, and
  `IntRope` does not (`Lib.order`). The argument `unzipCursorR` of `splitAt`, which nothing uses, is left out.
-/

import Manticore.Parray.Rope

namespace Manticore.Parray

variable {α β γ κ ε : Type}

/-- The place of a tree in a larger one; `α` is what is right of it, and `β` what is left of it. -/
inductive GenCtx (α β : Type) where
  | top
  | left (c : GenCtx α β) (r : α)
  | right (l : β) (c : GenCtx α β)
  deriving DecidableEq, Repr

def ctxLength (lengthL : β → Int) (lengthR : α → Int) : GenCtx α β → Int × Int
  | .top => (0, 0)
  | .left c r => let (np, nu) := ctxLength lengthL lengthR c; (np, nu + lengthR r)
  | .right l c => let (np, nu) := ctxLength lengthL lengthR c; (np + lengthL l, nu)

def cursorLength (lengthL : β → Int) (lengthR : α → Int) (f : α) (c : GenCtx α β) : Int × Int :=
  let (np, nu) := ctxLength lengthL lengthR c
  (np, nu + lengthR f)

def numUnprocessed (lengthL : β → Int) (lengthR : α → Int) (f : α) (c : GenCtx α β) : Int :=
  (cursorLength lengthL lengthR f c).2

def leftmostLeaf : Rope γ → GenCtx (Rope γ) β → List γ × GenCtx (Rope γ) β
  | .leaf x, c => (x, c)
  | .cat _ _ l r, c => leftmostLeaf l (.left c r)

def finish (j : β → β → β) : β → GenCtx β β → β
  | f, .top => f
  | f, .left c r => finish j (j f r) c
  | f, .right l c => finish j (j l f) c

def start (M : Int) (rp : Rope γ) : Except Exn (Rope γ × GenCtx (Rope γ) β) := do
  let (s, c) := leftmostLeaf rp .top
  return (← leaf M s, c)

def next (leftmost : α → GenCtx α β → κ) (jnL : β → β → β) : β → GenCtx α β → Progress κ β
  | f, .top => .done f
  | f, .left c' r => .more (leftmost r (.right f c'))
  | f, .right l c' => next leftmost jnL (jnL l f) c'

def splitCtx (jL : β → β → β) (bL : β) (jR : α → α → Except Exn α) (bR : α) : GenCtx α β → Except Exn (β × α)
  | .top => .ok (bL, bR)
  | .left c r => do
    let (p, u) ← splitCtx jL bL jR bR c
    return (p, ← jR r u)
  | .right l c => do
    let (p, u) ← splitCtx jL bL jR bR c
    return (jL p l, u)

def splitCursor (jL : β → β → β) (bL : β) (jR : α → α → Except Exn α) (bR : α) (f : α) (c : GenCtx α β) :
    Except Exn (β × α) := do
  let (p, u) ← splitCtx jL bL jR bR c
  return (p, ← jR f u)

inductive Dir where
  | left
  | right
  deriving DecidableEq, Repr

/-- The finished pieces, the unfinished ones, and the directions. -/
abbrev UnzippedCtx (α β : Type) := List β × List α × List Dir

def unzipCtx : GenCtx α β → UnzippedCtx α β
  | .top => ([], [], [])
  | .left c r => let (ls, rs, ds) := unzipCtx c; (ls, r :: rs, .left :: ds)
  | .right l c => let (ls, rs, ds) := unzipCtx c; (l :: ls, rs, .right :: ds)

def unzipCursor (cur : α × GenCtx α β) : α × UnzippedCtx α β := (cur.1, unzipCtx cur.2)

def zipCtx : List β → List α → List Dir → Except Exn (GenCtx α β)
  | [], [], [] => .ok .top
  | ls, r :: rs, .left :: ds => do return .left (← zipCtx ls rs ds) r
  | l :: ls, rs, .right :: ds => do return .right l (← zipCtx ls rs ds)
  | _, _, _ => .error (.fail "zipCtx")

def zipCursor (rp : α) (c : UnzippedCtx α β) : Except Exn (α × GenCtx α β) := do
  let (ls, rs, ds) := c
  return (rp, ← zipCtx ls rs ds)

/-- What is before an element, the element, and what is after it. -/
def seqSplitAtIx3 (s : List α) (i : Int) : Except Exn (List α × α × List α) := do
  let (ls, rs) := seqSplitAtIx2 s i
  return (Seq.take ls (ls.length - 1), ← seqLast ls, rs)

def nav (M : Int) : Rope γ → UnzippedCtx (Rope γ) (Rope γ) → Int → Except Exn (Rope γ × UnzippedCtx (Rope γ) (Rope γ))
  | .leaf s, (ls, rs, ds), i =>
    if s.length = 1 then do return (← leaf M s, (ls, rs, ds))
    else do
      let (l, m, r) ← seqSplitAtIx3 s i
      let c' := ((← leaf M l) :: ls, (← leaf M r) :: rs, .right :: .left :: ds)
      return (← leaf M [m], c')
  | .cat _ _ l r, (ls, rs, ds), i =>
    if i < l.length then nav M l (ls, r :: rs, .left :: ds) i
    else nav M r (l :: ls, rs, .right :: ds) (i - l.length)

def cursorAtIx (M : Int) (rp : Rope γ) (i : Int) : Except Exn (Rope γ × UnzippedCtx (Rope γ) (Rope γ)) :=
  if rp.inBounds i then nav M rp ([], [], []) i else .error (.fail "subscript")

def divide (length : α → Int) : List α → Int → Except Exn (List α × α × Int × List α)
  | [], _ => .error (.fail "divide")
  | intv :: intvs, k =>
    if k ≤ length intv then .ok ([], intv, k, intvs)
    else do
      let (intvs1, m, k', intvs2) ← divide length intvs (k - length intv)
      return (intv :: intvs1, m, k', intvs2)

inductive Lib where
  | rope
  | intRope
  deriving DecidableEq, Repr

def Lib.order (lib : Lib) (xs : List α) : List α :=
  match lib with
  | .rope => xs.reverse
  | .intRope => xs

structure Rebuilder (β : Type) where
  ls : List β
  ds : List Dir
  mds : List Dir
  n1 : Nat
  n2 : Nat
  l1 : Nat
  l2 : Nat

def splitAt (lib : Lib) (length : α → Int) (encode : List α → Except Exn (ε × Nat))
    (cursorAtIx : α → Int → Except Exn (α × UnzippedCtx α α)) (unzipCursorL : κ → α × UnzippedCtx α β) (cur : κ) (n : Int) :
    Except Exn (ε × ε × Rebuilder β) := do
  let (rp, ls, rs, ds) := unzipCursorL cur
  let (rps1, m, k, rps2) ← divide length (rp :: rs) n
  let (mn, mls, mrs, mds) ← cursorAtIx m (k - 1)
  let (n1, n2) := (rps1.length, mrs.length)
  let (xs1, xs2) := (rps1 ++ lib.order mls ++ [mn], mrs ++ rps2)
  let (rp1, l1) ← encode xs1
  let (rp2, l2) ← encode xs2
  return (rp1, rp2, ⟨ls, ds, mds, n1, n2, l1, l2⟩)

/-- `List.take`, which raises an exception if the list is too short. -/
def listTake (xs : List α) (n : Nat) : Except Exn (List α) :=
  if n ≤ xs.length then .ok (xs.take n) else .error (.fail "subscript")

def listDrop (xs : List α) (n : Nat) : Except Exn (List α) :=
  if n ≤ xs.length then .ok (xs.drop n) else .error (.fail "subscript")

def listLast (xs : List α) : Except Exn α :=
  match xs.getLast? with
  | some x => .ok x
  | none => .error (.fail "empty")

def join (lib : Lib) (decode : β → Nat → Except Exn (List β)) (finish : κ → β)
    (zipCursor : β → UnzippedCtx β β → Except Exn κ) (rp1 rp2 : β) (reb : Rebuilder β) : Except Exn κ := do
  let xs1 ← decode rp1 reb.l1
  let xs2 ← decode rp2 reb.l2
  let rps1 ← listTake xs1 reb.n1
  let ms ← listDrop xs1 reb.n1
  let mn ← listLast ms
  let mls := lib.order (← listTake ms (ms.length - 1))
  let mrs ← listTake xs2 reb.n2
  let rps2 ← listDrop xs2 reb.n2
  let m := finish (← zipCursor mn (mls, mrs, reb.mds))
  match rps1 ++ [m] ++ rps2 with
  | rp :: rs => zipCursor rp (reb.ls, rs, reb.ds)
  | [] => .error (.fail "join")

def encode (nccat2 : α → α → α) : List α → Except Exn α
  | [] => .error (.fail "encodeRope")
  | [rp] => .ok rp
  | rp :: rps => do return nccat2 rp (← encode nccat2 rps)

def encodeRope (rps : List (Rope γ)) : Except Exn (Rope γ × Nat) := do return (← encode nccat2 rps, rps.length)

def decodeRope : Rope γ → Nat → Except Exn (List (Rope γ))
  | rp, n =>
    if n = 1 then .ok [rp]
    else
      match rp with
      | .cat _ _ rp1 rp2 => do return rp1 :: (← decodeRope rp2 (n - 1))
      | .leaf _ => .error (.fail "decodeRope")

/-- The cursor of an interrupted sweep; an empty finished part is not kept. -/
def more {π υ ω : Type} (length : π → Int) (mkU : υ → Except Exn α) (mkP : π → Except Exn β) (us : υ) (ps : π)
    (c : GenCtx α β) : Except Exn (Progress (α × GenCtx α β) ω) := do
  let c' ← if length ps = 0 then .ok c else (GenCtx.right · c) <$> mkP ps
  return .more (← mkU us, c')

/-! ## Sums over the unfinished pieces -/

def GenCtx.rights : GenCtx α β → List α
  | .top => []
  | .left c r => r :: c.rights
  | .right _ c => c.rights

theorem zipCtx_left (ls : List β) (r : α) (rs : List α) (ds : List Dir) :
    zipCtx ls (r :: rs) (.left :: ds) = (do return .left (← zipCtx ls rs ds) r) := by
  cases ls <;> rfl

theorem zipCtx_right (l : β) (ls : List β) (rs : List α) (ds : List Dir) :
    zipCtx (l :: ls) rs (.right :: ds) = (do return .right l (← zipCtx ls rs ds)) := by
  cases rs <;> rfl

theorem unzipCtx_rights (c : GenCtx α β) : (unzipCtx c).2.1 = c.rights := by
  induction c with
  | top => rfl
  | left c r ih => exact congrArg (r :: ·) ih
  | right l c ih => exact ih

theorem numUnprocessed_eq (lengthL : β → Int) (lengthR : α → Int) (f : α) (c : GenCtx α β) :
    numUnprocessed lengthL lengthR f c = ((f :: c.rights).map lengthR).sum := by
  have hctx : (ctxLength lengthL lengthR c).2 = (c.rights.map lengthR).sum := by
    induction c with
    | top => rfl
    | left c r ih =>
      rw [GenCtx.rights, List.map_cons, List.sum_cons, ← ih]
      exact Int.add_comm _ _
    | right l c ih => exact ih
  rw [List.map_cons, List.sum_cons, ← hctx]
  exact Int.add_comm _ _

end Manticore.Parray
