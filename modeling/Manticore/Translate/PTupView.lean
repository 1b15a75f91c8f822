/-
  Manticore.Translate.PTupView — the phases of a flat parallel tuple, and the clones as a refinement of them.

  A view says how far the fast clone and each slow clone have come. A view determines the state of the
  workers (`View.concrete`), and the steps of the workers are moves of the view.

  The handlers of the elements are parameters: `hf i` in the fast clone, `hs i` in the slow clone.
-/

import Manticore.Translate.PTup

namespace Manticore.Translate.PTup

open Code
open Function (update_self update_of_ne)
open List (range)

/-! ## The code from each point on -/

theorem storeAll_append (i : Nat) (vs : List Nat) (v : Nat) (k : Code) :
    storeAll i (vs ++ [v]) k = store (i + vs.length) v (storeAll i vs k) := by
  induction vs generalizing i k with
  | nil => rfl
  | cons u vs ih =>
    rw [List.cons_append, storeAll, storeAll, ih, List.length_cons]
    congr 1
    omega

/-- Element `k` is stored before those to its left. -/
theorem storeAll_range (k : Nat) (e : Code) :
    storeAll 0 (range (k + 1)) e = update k k (storeAll 0 (range k) e) := by
  rw [List.range_succ, storeAll_append, List.length_range, Nat.zero_add, store]

/-- The fast clone from element `i` on, with all the variables to its left. -/
def fastFrom (n : Nat) (hf : Nat → Code) (i : Nat) : Code := fastClone n hf i (n - i) (range i).reverse

theorem fastFrom_lt {n i : Nat} (hf : Nat → Code) (hi : i < n) :
    fastFrom n hf i = remove i (eval i (fastFrom n hf (i + 1)) (hf i)) (storeAll 0 (range i) (finish n i)) := by
  have hleft : n - i = n - (i + 1) + 1 := by omega
  grind [List.range_succ, fastFrom, fastClone]

theorem fastFrom_self (n : Nat) (hf : Nat → Code) : fastFrom n hf n = retTuple (range n) := by
  rw [fastFrom, Nat.sub_self, fastClone, List.reverse_reverse]

/-! ## Phases -/

/-- Where the fast clone is. -/
inductive Fast where
  /-- Slow clones `k + 1` to `1` are still to be spawned. -/
  | spawning (k : Nat)
  | evaluating (i : Nat) (started : Bool)
  /-- All elements to the left of `i` are evaluated. -/
  | next (i : Nat)
  /-- Handing over at `h`, with elements `k` to `h - 1` stored. -/
  | storing (h k : Nat)
  /-- Counted: `last` if nothing was missing. -/
  | ending (h : Nat) (last : Bool)
  | ended (h : Nat)
  | returned
  | raising (i : Nat) (k : Code)
  | raised (i : Nat)

/-- Where the slow clone of an element is. -/
inductive Slow where
  | unspawned
  | queued
  | removed
  | evaluating (started : Bool)
  | valued
  | stored
  | ending (last : Bool)
  | ended
  | raising (k : Code)
  | raised

structure View where
  fast : Fast
  slow : Nat → Slow
  /-- The elements counted so far. -/
  count : Nat
  results : List Result

/-- The value of an element, if it has one. -/
def valOf (o : Outcome) : Option Val := o.toOption

/-- The exception of an element, if it raises one. -/
def exnOf : Outcome → Option Val
  | .ok _ => none
  | .error e => some e

@[simp] theorem valOf_ok (v : Val) : valOf (.ok v) = some v := rfl
@[simp] theorem valOf_error (e : Val) : valOf (.error e) = none := rfl
@[simp] theorem exnOf_error (e : Val) : exnOf (.error e) = some e := rfl

def endCode (last : Bool) : Code := bif last then .retShared else .stop

section

variable (n : Nat) (hf hs : Nat → Code) (out : Nat → Outcome)

/-- The clones with the handlers. -/
def clones : Clones := ⟨tuple n hf, fun i => slowClone n (hs i) i⟩

/-- The variables of the elements to the left of `i`. -/
def envTo (i : Nat) : Nat → Option Val := fun j => if j < i then valOf (out j) else none

def Fast.worker : Fast → Option Worker
  | .spawning k => some ⟨mkSlowClones (k + 1) (.eval 0 (fastFrom n hf 1) (hf 0)), false, envTo out 0, none⟩
  | .evaluating i started => some ⟨.eval i (fastFrom n hf (i + 1)) (hf i), started, envTo out i, none⟩
  | .next i => some ⟨fastFrom n hf i, false, envTo out i, none⟩
  | .storing h k => some ⟨storeAll 0 (range k) (finish n h), false, envTo out h, none⟩
  | .ending h last => some ⟨endCode last, false, envTo out h, none⟩
  | .raising i k => some ⟨k, false, envTo out i, exnOf (out i)⟩
  | .ended _ | .returned | .raised _ => none

/-- How often the fast clone has started element `j`. -/
def Fast.starts : Fast → Nat → Nat
  | .spawning _, _ => 0
  | .evaluating i started, j => if j < i ∨ (j = i ∧ started = true) then 1 else 0
  | .next i, j | .storing i _, j | .ending i _, j | .ended i, j => if j < i then 1 else 0
  | .returned, j => if j < n then 1 else 0
  | .raising i _, j | .raised i, j => if j ≤ i then 1 else 0

/-- The fast clone has stored element `j`. -/
def Fast.stores : Fast → Nat → Bool
  | .storing h k, j => decide (k ≤ j) && decide (j < h)
  | .ending h _, j | .ended h, j => decide (j < h)
  | _, _ => false

def Slow.worker (i : Nat) : Slow → Option Worker
  | .evaluating started => some ⟨slowClone n (hs i) i, started, fun _ => none, none⟩
  | .valued => some ⟨store i i (finish n 1), false, Function.update (fun _ => none) i (valOf (out i)), none⟩
  | .stored => some ⟨finish n 1, false, Function.update (fun _ => none) i (valOf (out i)), none⟩
  | .ending last => some ⟨endCode last, false, Function.update (fun _ => none) i (valOf (out i)), none⟩
  | .raising k => some ⟨k, false, fun _ => none, exnOf (out i)⟩
  | .unspawned | .queued | .removed | .ended | .raised => none

def Slow.thread : Slow → Thread
  | .unspawned => .unspawned
  | .queued => .queued
  | .removed => .removed
  | _ => .stolen

def Slow.starts : Slow → Nat
  | .unspawned | .queued | .removed | .evaluating false => 0
  | _ => 1

def Slow.stores : Slow → Bool
  | .stored | .ending _ | .ended => true
  | _ => false

/-- Element `j` is in the shared tuple. -/
def View.stored (v : View) (j : Nat) : Bool := v.fast.stores j || (v.slow j).stores

/-- Slot `j` of the shared tuple. -/
def View.slot (v : View) (j : Nat) : Val := if v.stored j then (valOf (out j)).getD nilVal else nilVal

/-- The state of the workers at a view. -/
def View.concrete (v : View) : State where
  workers j := if j = 0 then v.fast.worker n hf out else (v.slow j).worker n hs out j
  threads j := (v.slow j).thread
  slots j := v.slot out j
  counter := BitVec.ofNat 32 (1 + v.count)
  starts j := v.fast.starts n j + (v.slow j).starts
  results := v.results

/-- The view at the start. -/
def View.init : View := ⟨.spawning (n - 2), fun _ => .unspawned, 0, []⟩

/-! ## Moves -/

/-- A handler's step to the next, by the slots so far. -/
inductive HandlerStep (v : View) : Code → Code → Prop where
  | cancel (i : Nat) (k : Code) : HandlerStep v (.cancel i k) k
  | waitOn (i : Nat) (k : Code) (h : isNil (v.slot out i) = false) : HandlerStep v (.waitOn i k) k

/-- What follows the spawn of slow clone `k + 1`. -/
def afterSpawn : Nat → Fast
  | 0 => .evaluating 0 false
  | k + 1 => .spawning k

/-- The test of `finish w` after `count` elements. -/
def isLast (w count : Nat) : Bool := intRhs ((n : Int) - w + 1) = BitVec.ofNat 32 (1 + count)

/-- How a view moves. -/
inductive Move : View → View → Prop where
  | spawn {v : View} (k : Nat) (h : v.fast = .spawning k) :
    Move v { v with fast := afterSpawn k, slow := Function.update v.slow (k + 1) .queued }
  | start {v : View} (i : Nat) (h : v.fast = .evaluating i false) : Move v { v with fast := .evaluating i true }
  | value {v : View} (i : Nat) (h : v.fast = .evaluating i true) (u : Val) (hu : out i = .ok u) :
    Move v { v with fast := .next (i + 1) }
  | exn {v : View} (i : Nat) (h : v.fast = .evaluating i true) (e : Val) (he : out i = .error e) :
    Move v { v with fast := .raising i (hf i) }
  | take {v : View} (i : Nat) (h : v.fast = .next i) (hi : i < n) (hq : v.slow i = .queued) :
    Move v { v with fast := .evaluating i false, slow := Function.update v.slow i .removed }
  | handOver {v : View} (i : Nat) (h : v.fast = .next i) (hi : i < n) (hq : v.slow i ≠ .queued) :
    Move v { v with fast := .storing i i }
  | store {v : View} (i k : Nat) (h : v.fast = .storing i (k + 1)) : Move v { v with fast := .storing i k }
  | add {v : View} (i : Nat) (h : v.fast = .storing i 0) :
    Move v { v with fast := .ending i (isLast n i v.count), count := v.count + i }
  | finish {v : View} (i : Nat) (last : Bool) (h : v.fast = .ending i last) :
    Move v { v with fast := .ended i, results := if last then .shared :: v.results else v.results }
  | ret {v : View} (h : v.fast = .next n) (us : List Val) (hu : (range n).mapM (envTo out n) = some us) :
    Move v { v with fast := .returned, results := .tuple us :: v.results }
  | handler {v : View} (i : Nat) (k k' : Code) (h : v.fast = .raising i k) (hk : HandlerStep out v k k') :
    Move v { v with fast := .raising i k' }
  | throw {v : View} (i : Nat) (h : v.fast = .raising i .throw) (e : Val) (he : exnOf (out i) = some e) :
    Move v { v with fast := .raised i, results := .raised e :: v.results }
  | steal {v : View} (i : Nat) (h : v.slow i = .queued) :
    Move v { v with slow := Function.update v.slow i (.evaluating false) }
  | slowStart {v : View} (i : Nat) (h : v.slow i = .evaluating false) :
    Move v { v with slow := Function.update v.slow i (.evaluating true) }
  | slowValue {v : View} (i : Nat) (h : v.slow i = .evaluating true) (u : Val) (hu : out i = .ok u) :
    Move v { v with slow := Function.update v.slow i .valued }
  | slowExn {v : View} (i : Nat) (h : v.slow i = .evaluating true) (e : Val) (he : out i = .error e) :
    Move v { v with slow := Function.update v.slow i (.raising (hs i)) }
  | slowStore {v : View} (i : Nat) (h : v.slow i = .valued) : Move v { v with slow := Function.update v.slow i .stored }
  | slowAdd {v : View} (i : Nat) (h : v.slow i = .stored) :
    Move v { v with slow := Function.update v.slow i (.ending (isLast n 1 v.count)), count := v.count + 1 }
  | slowFinish {v : View} (i : Nat) (last : Bool) (h : v.slow i = .ending last) :
    Move v { v with
      slow := Function.update v.slow i .ended, results := if last then .shared :: v.results else v.results }
  | slowHandler {v : View} (i : Nat) (k k' : Code) (h : v.slow i = .raising k) (hk : HandlerStep out v k k') :
    Move v { v with slow := Function.update v.slow i (.raising k') }
  | slowThrow {v : View} (i : Nat) (h : v.slow i = .raising .throw) (e : Val) (he : exnOf (out i) = some e) :
    Move v { v with slow := Function.update v.slow i .raised, results := .raised e :: v.results }

/-! ## Handlers -/

/-- A handler that has waited for the elements to the left of `p`, waits for those up to `w`, and throws. -/
inductive HandlerCode (w : Nat) : Nat → Code → Prop where
  | cancel {p : Nat} {k : Code} (i : Nat) (h : HandlerCode w p k) : HandlerCode w p (.cancel i k)
  | waitOn {p : Nat} {k : Code} (hp : p < w) (h : HandlerCode w (p + 1) k) : HandlerCode w p (.waitOn p k)
  | throw : HandlerCode w w .throw

/-- Element `j` is in the shared tuple, with a value other than nil. -/
def View.Passed (v : View) (j : Nat) : Prop := v.stored j = true ∧ isNil (v.slot out j) = false

/-- The handlers that run, and what they have waited for. -/
structure Handles (v : View) : Prop where
  fast : ∀ i k, v.fast = .raising i k → HandlerCode 0 0 k
  slow : ∀ i k, v.slow i = .raising k → ∃ p, HandlerCode i p k ∧ ∀ j < p, v.Passed out j
  raised : ∀ i, v.slow i = .raised → ∀ j < i, v.Passed out j

/-! ## The shape of a view -/

/-- Elements to the left of this belong to the fast clone. -/
@[simp] def Fast.taken : Fast → Nat
  | .spawning _ => 1
  | .evaluating i _ | .raising i _ | .raised i => i + 1
  | .next i | .storing i _ | .ending i _ | .ended i => i
  | .returned => n

/-- Elements to the left of this have been evaluated by the fast clone. -/
@[simp] def Fast.done : Fast → Nat
  | .spawning _ => 0
  | .evaluating i _ | .raising i _ | .raised i | .next i | .storing i _ | .ending i _ | .ended i => i
  | .returned => n

/-- The bounds of a phase. -/
@[simp] def Fast.Bounds : Fast → Prop
  | .spawning k => k + 1 < n
  | .evaluating i _ => i < n
  | .raising i _ | .raised i => i < n ∧ ∃ e, out i = .error e
  | .next i => 1 ≤ i ∧ i ≤ n
  | .storing i k => 1 ≤ i ∧ i < n ∧ k ≤ i
  | .ending i _ | .ended i => 1 ≤ i ∧ i < n
  | .returned => True

/-- What a phase says about the outcome. -/
@[simp] def Slow.Agrees (o : Outcome) : Slow → Prop
  | .valued | .stored | .ending _ | .ended => ∃ u, o = .ok u
  | .raising _ | .raised => ∃ e, o = .error e
  | _ => True

/-- Who has which element. -/
structure Shape (v : View) : Prop where
  bounds : v.fast.Bounds n out
  done : ∀ j < v.fast.done n, ∃ u, out j = .ok u
  agrees : ∀ j, (v.slow j).Agrees (out j)
  first : v.slow 0 = .unspawned
  outside : ∀ j, n ≤ j → v.slow j = .unspawned
  removed : ∀ j, v.slow j = .removed ↔ 1 ≤ j ∧ j < v.fast.taken n
  unspawned : ∀ j, 1 ≤ j → j < n → (v.slow j = .unspawned ↔ ∃ k, v.fast = .spawning k ∧ j ≤ k + 1)

theorem shape_init (hn : 2 ≤ n) : Shape n out (View.init n) where
  bounds := by
    show n - 2 + 1 < n
    omega
  done := by
    intro j hj
    exact absurd hj (Nat.not_lt_zero j)
  agrees _ := trivial
  first := rfl
  outside _ _ := rfl
  removed := by
    intro j
    constructor
    · intro h
      cases h
    · intro h
      have h1 : j < 1 := h.2
      omega
  unspawned := by
    intro j hj hjn
    exact ⟨fun _ => ⟨n - 2, rfl, by omega⟩, fun _ => rfl⟩

end

variable {n : Nat} {hf hs : Nat → Code} {out : Nat → Outcome}

theorem Shape.spawns {v : View} (h : Shape n out v) {k : Nat} (hk : v.fast = .spawning k) :
    v.slow (k + 1) = .unspawned := by
  have hb := h.bounds
  rw [hk] at hb
  exact (h.unspawned (k + 1) (by omega) hb).mpr ⟨k, hk, Nat.le_refl _⟩

/-- The fast clone moves on within the elements it has taken. -/
theorem Shape.setFast {v v' : View} (h : Shape n out v) (hslow : v'.slow = v.slow) (hb : v'.fast.Bounds n out)
    (hd : ∀ j < v'.fast.done n, j < v.fast.done n ∨ ∃ u, out j = .ok u) (ht : v'.fast.taken n = v.fast.taken n)
    (hsp : ∀ k, v.fast ≠ .spawning k) (hsp' : ∀ k, v'.fast ≠ .spawning k) : Shape n out v' where
  bounds := hb
  done := by
    intro j hj
    rcases hd j hj with hlt | hok
    · exact h.done j hlt
    · exact hok
  agrees := by
    rw [hslow]
    exact h.agrees
  first := by rw [hslow, h.first]
  outside := by
    rw [hslow]
    exact h.outside
  removed := by
    rw [hslow, ht]
    exact h.removed
  unspawned := by
    intro j hj hjn
    rw [hslow, h.unspawned j hj hjn]
    simp [hsp, hsp']

/-- A slow clone moves on. -/
theorem Shape.setSlow {v v' : View} (h : Shape n out v) (hfast : v'.fast = v.fast) (i : Nat) (x : Slow)
    (hslow : v'.slow = Function.update v.slow i x) (hx : x.Agrees (out i)) (hu : v.slow i ≠ .unspawned)
    (hr : v.slow i ≠ .removed) (hu' : x ≠ .unspawned) (hr' : x ≠ .removed) : Shape n out v' where
  bounds := by
    rw [hfast]
    exact h.bounds
  done := by
    rw [hfast]
    exact h.done
  agrees := by
    intro j
    by_cases hj : j = i
    · rw [hslow, hj, update_self]
      exact hx
    · rw [hslow, update_of_ne hj]
      exact h.agrees j
  first := by
    have hi : (0 : Nat) ≠ i := by
      intro e
      exact hu (e ▸ h.first)
    rw [hslow, update_of_ne hi, h.first]
  outside := by
    intro j hj
    have hi : j ≠ i := by
      intro e
      exact hu (e ▸ h.outside j hj)
    rw [hslow, update_of_ne hi, h.outside j hj]
  removed := by
    intro j
    rw [hfast, ← h.removed j, hslow]
    by_cases hj : j = i
    · rw [hj, update_self]
      exact iff_of_false hr' hr
    · rw [update_of_ne hj]
  unspawned := by
    intro j hj hjn
    rw [hfast, ← h.unspawned j hj hjn, hslow]
    by_cases hi : j = i
    · rw [hi, update_self]
      exact iff_of_false hu' hu
    · rw [update_of_ne hi]

theorem Shape.spawn {v : View} (h : Shape n out v) (k : Nat) (hk : v.fast = .spawning k) :
    Shape n out { v with fast := afterSpawn k, slow := Function.update v.slow (k + 1) .queued } := by
  have hb : k + 1 < n := by simpa [hk] using h.bounds
  have ht : v.fast.taken n = 1 := by rw [hk, Fast.taken]
  have ht' : (afterSpawn k).taken n = 1 := by cases k <;> rfl
  constructor
  · cases k with
    | zero => show 0 < n; omega
    | succ k => show k + 1 < n; omega
  · intro j hj
    cases k <;> exact absurd hj (Nat.not_lt_zero j)
  · intro j
    by_cases hj : j = k + 1
    · rw [hj]
      simp only [update_self, Slow.Agrees]
    · simp only [update_of_ne hj]
      exact h.agrees j
  · show Function.update v.slow (k + 1) .queued 0 = _
    rw [update_of_ne (by omega), h.first]
  · intro j hj
    show Function.update v.slow (k + 1) .queued j = _
    rw [update_of_ne (by omega), h.outside j hj]
  · grind [removed]
  · intro j hj hjn
    by_cases hjk : j = k + 1
    · subst hjk
      cases k <;> simp [afterSpawn]
    · simp only [update_of_ne hjk]
      rw [h.unspawned j hj hjn, hk]
      cases k with
      | zero | succ => simp [afterSpawn]; omega

theorem Shape.take {v : View} (h : Shape n out v) (i : Nat) (hi : v.fast = .next i) (hin : i < n)
    (hq : v.slow i = .queued) :
    Shape n out { v with fast := .evaluating i false, slow := Function.update v.slow i .removed } := by
  have hb : 1 ≤ i ∧ i ≤ n := by simpa [hi] using h.bounds
  have ht : v.fast.taken n = i := by rw [hi, Fast.taken]
  constructor
  · exact hin
  · intro j hj
    exact h.done j (by rw [hi]; exact hj)
  · intro j
    by_cases hj : j = i
    · rw [hj]
      simp only [update_self, Slow.Agrees]
    · simp only [update_of_ne hj]
      exact h.agrees j
  · show Function.update v.slow i .removed 0 = _
    rw [update_of_ne (by omega), h.first]
  · intro j hj
    show Function.update v.slow i .removed j = _
    rw [update_of_ne (by omega), h.outside j hj]
  · intro j
    show Function.update v.slow i .removed j = _ ↔ 1 ≤ j ∧ j < i + 1
    by_cases hj : j = i
    · subst hj
      simp only [update_self, true_iff]
      omega
    · rw [update_of_ne hj, h.removed j, ht]
      omega
  · intro j hj hjn
    show Function.update v.slow i .removed j = _ ↔ _
    by_cases hji : j = i
    · subst hji
      simp
    · rw [update_of_ne hji, h.unspawned j hj hjn, hi]
      simp

theorem shape_move {v v' : View} (h : Shape n out v) (hm : Move n hf hs out v v') : Shape n out v' := by
  have hb := h.bounds
  cases hm with
  | spawn k hk => exact h.spawn k hk
  | take i hi hin hq => exact h.take i hi hin hq
  | start _ hi | finish _ _ hi | handler _ _ _ hi _ | throw _ hi _ _ =>
    rw [hi] at hb
    exact h.setFast rfl hb (by simp +contextual [hi]) (by simp [hi]) (by simp [hi]) (by simp)
  | value i hi u hu =>
    rw [hi] at hb
    refine h.setFast rfl ⟨by omega, hb⟩ ?_ (by simp [hi]) (by simp [hi]) (by simp)
    intro j hj
    rcases Nat.lt_succ_iff_lt_or_eq.mp hj with hlt | rfl
    · exact .inl (by rw [hi]; exact hlt)
    · exact .inr ⟨u, hu⟩
  | exn i hi e he =>
    rw [hi] at hb
    exact h.setFast rfl ⟨hb, e, he⟩ (by simp +contextual [hi]) (by simp [hi]) (by simp [hi]) (by simp)
  | handOver i hi hin hq =>
    rw [hi] at hb
    exact h.setFast rfl ⟨hb.1, hin, Nat.le_refl i⟩ (by simp +contextual [hi]) (by simp [hi]) (by simp [hi]) (by simp)
  | store i k hi =>
    rw [hi] at hb
    exact h.setFast rfl ⟨hb.1, hb.2.1, by have := hb.2.2; omega⟩ (by simp +contextual [hi]) (by simp [hi]) (by simp [hi])
      (by simp)
  | add i hi =>
    rw [hi] at hb
    exact h.setFast rfl ⟨hb.1, hb.2.1⟩ (by simp +contextual [hi]) (by simp [hi]) (by simp [hi]) (by simp)
  | ret hi us hu => exact h.setFast rfl trivial (by simp +contextual [hi]) (by simp [hi]) (by simp [hi]) (by simp)
  | steal i hi | slowStart i hi => exact h.setSlow rfl i _ rfl trivial (by simp [hi]) (by simp [hi]) (by simp) (by simp)
  | slowValue i hi u hu | slowExn i hi u hu => exact h.setSlow rfl i _ rfl ⟨u, hu⟩ (by simp [hi]) (by simp [hi]) (by simp) (by simp)
  | slowStore i hi | slowAdd i hi | slowFinish i _ hi | slowHandler i _ _ hi _ | slowThrow i hi _ _ =>
    have ha := h.agrees i
    rw [hi] at ha
    exact h.setSlow rfl i _ rfl ha (by simp [hi]) (by simp [hi]) (by simp) (by simp)
end Manticore.Translate.PTup
