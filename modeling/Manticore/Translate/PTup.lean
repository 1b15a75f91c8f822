/-
  Manticore.Translate.PTup — flat parallel tuples as clones (`translate/translate-ptup.sml`).

  Code is what the translation makes, kept to the operations that other workers can see: local
  copies, constants and the promotions of the shared tuple and counter (which give the one
  promoted object each time) take no step. A worker runs the fast clone; each slow clone whose
  thread has been stolen runs on a worker of its own. The elements' own evaluation starts and
  ends in separate steps, with the outcome `out`.
-/

import Manticore.Machine

namespace Manticore.Translate.PTup

/-- Code of a clone; `i` are elements, and `v_i` the variable for the value of element `i`. -/
inductive Code where
  /-- `let v_i = e_i in k`, with the handler that `e_i` raises to. -/
  | eval (i : Nat) (k handler : Code)
  /-- `new-thread` and `spawn-thread` for the slow clone of element `i`. -/
  | spawn (i : Nat) (k : Code)
  /-- `remove-thread-b` and the case on its result. -/
  | remove (i : Nat) (notStolen stolen : Code)
  /-- `#i(r) := promote(v_j)`. -/
  | update (i j : Nat) (k : Code)
  /-- `I32FetchAndAdd(c, wV)` and the test of the previous value against `nV`. -/
  | fetchAdd (wV nV : BitVec 32) (last rest : Code)
  /-- `ret r`. -/
  | retShared
  /-- The tuple of the values, and `ret` of it. -/
  | retTuple (vs : List Nat)
  | stop
  /-- `Cancelation.cancel` of the cancelable of element `i`. -/
  | cancel (i : Nat) (k : Code)
  /-- `apply waitOn_i ()`. -/
  | waitOn (i : Nat) (k : Code)
  /-- `throw exh exn`. -/
  | throw

open Code

section

variable (n : Nat)

/-- `intRhs`. -/
def intRhs (x : Int) : BitVec 32 := BitVec.ofInt 32 x

/-- `store`. -/
def store (i j : Nat) (k : Code) : Code := .update i j k

/-- `finish`: signal that `w` elements have been evaluated. -/
def finish (w : Nat) : Code := .fetchAdd (intRhs w) (intRhs ((n : Int) - w + 1)) .retShared .stop

/-- The stores of the values `vs` of the elements from `i` on, in front of `k`; the last element is
    stored first (`foldlEq`). -/
def storeAll : Nat → List Nat → Code → Code
  | _, [], k => k
  | i, v :: vs, k => storeAll (i + 1) vs (store i v k)

/-- The body of a slow clone: `force` and `finish`. -/
def slowClone (handler : Code) (i : Nat) : Code := .eval i (store i i (finish n 1)) handler

/-- `mkSlowClones`: the slow clones are put on the queue from right to left. -/
def mkSlowClones : Nat → Code → Code
  | 0, eNext => eNext
  | i + 1, eNext => .spawn (i + 1) (mkSlowClones i eNext)

/-- `fastClone` from element `i` on, with so many elements left; `vs` are the variables so far, in
    reverse. -/
def fastClone (handler : Nat → Code) (i : Nat) : Nat → List Nat → Code
  | 0, vs => .retTuple vs.reverse
  | left + 1, vs => .remove i (.eval i (fastClone handler (i + 1) left (i :: vs)) (handler i))
      (storeAll 0 vs.reverse (finish n i))

/-- The code of the tuple: spawn the slow clones and run the fast clone. -/
def tuple (handler : Nat → Code) : Code :=
  mkSlowClones (n - 1) (.eval 0 (fastClone n handler 1 (n - 1) [0]) (handler 0))

/-- The clones of a translation. -/
structure Clones where
  fast : Code
  slow : Nat → Code

/-- `trWithoutExh`. -/
def trWithoutExh : Clones := ⟨tuple n fun _ => .throw, slowClone n .throw⟩

/-! ## Exceptions -/

/-- `mkCancelAll` for the cancelables from `i` on, so many of them; the last one is cancelled first. -/
def mkCancelAll (i : Nat) : Nat → Code → Code
  | 0, e => e
  | left + 1, e => mkCancelAll (i + 1) left (.cancel i e)

/-- The waits for the elements to the left of `i`, from the first on. -/
def waitOns : Nat → Code → Code
  | 0, e => e
  | i + 1, e => waitOns i (.waitOn i e)

/-- The handler of element `i` in the fast clone: cancel the elements to the right. -/
def fastHandler (i : Nat) : Code := mkCancelAll (i + 1) (n - 1 - i) .throw

/-- The handler of element `i` in its slow clone: cancel the elements to the right, and wait for those to
    the left. -/
def slowHandler (i : Nat) : Code := mkCancelAll (i + 1) (n - 1 - i) (waitOns i .throw)

/-- `trWithExh`. -/
def trWithExh : Clones := ⟨tuple n (fastHandler n), fun i => slowClone n (slowHandler n i) i⟩

end

/-! ## Workers -/

/-- What evaluating an element comes to. -/
abbrev Outcome := Except Val Val

inductive Thread where
  | unspawned
  | queued
  | removed
  | stolen
  deriving DecidableEq, Repr

structure Worker where
  code : Code
  /-- The evaluation that the code begins with has started. -/
  started : Bool
  env : Nat → Option Val
  exn : Option Val

/-- What reaches the context of the tuple. -/
inductive Result where
  /-- The shared tuple is returned. -/
  | shared
  | tuple (vs : List Val)
  | raised (exn : Val)

/-- Worker 0 runs the fast clone, worker `i` the slow clone of element `i`. -/
@[ext] structure State where
  workers : Nat → Option Worker
  threads : Nat → Thread
  slots : Nat → Val
  counter : BitVec 32
  /-- How often the evaluation of each element has started. -/
  starts : Nat → Nat
  results : List Result

/-- `nilVal`, the unit literal. -/
def nilVal : Val := .lit (.enum 0)

/-- `Prim.Equal` with `nilVal`. -/
def isNil : Val → Bool
  | .lit (.enum w) => w == 0
  | _ => false

def Worker.goto (w : Worker) (code : Code) : Worker := { w with code := code }

def State.setWorker (s : State) (j : Nat) (w : Option Worker) : State :=
  { s with workers := Function.update s.workers j w }

/-- The step of worker `j`, in front of `w.code`. -/
def stepWorker (out : Nat → Outcome) (s : State) (j : Nat) (w : Worker) : Option State :=
  match w.code with
  | .eval i k handler =>
    if w.started then
      match out i with
      | .ok v => some (s.setWorker j (some { w with code := k, started := false, env := Function.update w.env i (some v) }))
      | .error e => some (s.setWorker j (some { w with code := handler, started := false, exn := some e }))
    else some { s.setWorker j (some { w with started := true }) with
      starts := Function.update s.starts i (s.starts i + 1) }
  | .spawn i k => some { s.setWorker j (some (w.goto k)) with threads := Function.update s.threads i .queued }
  | .remove i notStolen stolen =>
    if s.threads i = .queued then
      some { s.setWorker j (some (w.goto notStolen)) with threads := Function.update s.threads i .removed }
    else some (s.setWorker j (some (w.goto stolen)))
  | .update i v k => (w.env v).map fun u =>
    { s.setWorker j (some (w.goto k)) with slots := Function.update s.slots i u }
  | .fetchAdd wV nV last rest =>
    some { s.setWorker j (some (w.goto (if nV = s.counter then last else rest))) with counter := s.counter + wV }
  | .retShared => some { s.setWorker j none with results := .shared :: s.results }
  | .retTuple vs => (vs.mapM w.env).map fun us => { s.setWorker j none with results := .tuple us :: s.results }
  | .stop => some (s.setWorker j none)
  | .cancel _ k => some (s.setWorker j (some (w.goto k)))
  | .waitOn i k => if isNil (s.slots i) then some s else some (s.setWorker j (some (w.goto k)))
  | .throw => w.exn.map fun e => { s.setWorker j none with results := .raised e :: s.results }

/-- Some worker takes a step, or a queued thread is stolen and its slow clone begins. -/
inductive Step (c : Clones) (out : Nat → Outcome) : State → State → Prop where
  | worker {s s' : State} (j : Nat) {w : Worker} (hw : s.workers j = some w) (hs : stepWorker out s j w = some s') :
    Step c out s s'
  | steal {s : State} (i : Nat) (hi : s.threads i = .queued) :
    Step c out s { s.setWorker i (some ⟨c.slow i, false, fun _ => none, none⟩) with
      threads := Function.update s.threads i .stolen }

/-- Before the fast clone runs: a tuple of nils and the counter at one. -/
def init (c : Clones) : State where
  workers := Function.update (fun _ => none) 0 (some ⟨c.fast, false, fun _ => none, none⟩)
  threads _ := .unspawned
  slots _ := nilVal
  counter := intRhs 1
  starts _ := 0
  results := []

/-- The states of every interleaving. -/
inductive Reach (c : Clones) (out : Nat → Outcome) : State → Prop where
  | init : Reach c out (init c)
  | step {s s' : State} (h : Reach c out s) (hs : Step c out s s') : Reach c out s'

/-- Nothing is left to do but wait for what never comes. -/
def Quiescent (c : Clones) (out : Nat → Outcome) (s : State) : Prop := ∀ s', Step c out s s' → s' = s

end Manticore.Translate.PTup
