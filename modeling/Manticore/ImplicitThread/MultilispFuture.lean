/-
  Manticore.ImplicitThread.MultilispFuture — eager futures: `@future` and `@touch` (`implicit-thread/multilisp-future.pml`).

  One call of `@future`: the fiber that runs the thunk, the context that it makes available, and any number of touches.
  A value is a word that is no result, or a result; what `@touch` does with a word that is none is not defined. A cell
  is written once and a get waits for its value, as `Manticore.ImplicitThread.IVar` proves. Between two steps the
  context may be stolen, and with a cancelable the body may be terminated.

  - `future_touch`: the thunk runs at most once, and every touch gives what it gave, in every run but those where the
    context is not stolen and there is a cancelable; there the cell holds the value without its tag.
  - `touch_untagged`: such a run, and what its touch finds.
-/

import Mathlib

namespace Manticore.ImplicitThread.MultilispFuture

/-- A value: a `Result.result`, or anything else. -/
inductive Any (α ε : Type) where
  | other (a : α)
  | RES (x : Any α ε)
  | EXN (e : ε)

variable {α ε : Type}

/-- What the thunk gives. -/
inductive Outcome (α ε : Type) where
  | returns (v : Any α ε)
  | raises (e : ε)

/-- The result that stands for it. -/
def Outcome.tagged : Outcome α ε → Any α ε
  | .returns v => .RES v
  | .raises e => .EXN e

/-- `@touch`, when the cell has a value: `none` where that is no result. -/
def touch : Any α ε → Option (Outcome α ε)
  | .RES x => some (.returns x)
  | .EXN e => some (.raises e)
  | .other _ => none

/-- Where the fiber of the body is. -/
inductive Body (α ε : Type) where
  | spawn
  | apply
  /-- Before `@remove-thread`. -/
  | returned (v : Any α ε)
  /-- Before the put of the slow clone. -/
  | slow (v : Any α ε)
  /-- Before the put of `exh'`. -/
  | raised (e : ε)
  /-- It goes on as the context. -/
  | fast
  | stopped
  | terminated

/-- Where the context is. -/
inductive Context where
  | caller
  | queued
  | stolen
  | removed

structure State (α ε : Type) where
  body : Body α ε
  context : Context
  /-- The cell made first, and that of the fast clone. -/
  ivar : Option (Any α ε)
  fastIVar : Option (Any α ε)
  /-- How often the thunk was applied. -/
  runs : Nat
  touches : List (Option (Outcome α ε))

def start : State α ε := ⟨.spawn, .caller, none, none, 0, []⟩

/-- The cell of the future that the context has. -/
def State.cell (s : State α ε) : Option (Any α ε) := match s.context with
  | .stolen => s.ivar
  | .removed => s.fastIVar
  | .caller | .queued => none

/-- What the fast clone stores: with a cancelable the value itself. -/
def fastValue (c : Bool) (v : Any α ε) : Any α ε := if c then v else .RES v

inductive Label where
  | fastClone
  | other

variable {f : Outcome α ε} {c : Bool}

/-- A step of a future of the thunk `f`, with a cancelable if `c`. -/
inductive Act (f : Outcome α ε) (c : Bool) (s : State α ε) : Label → State α ε → Prop
  | spawn : s.body = .spawn → Act f c s .other { s with body := .apply, context := .queued }
  | steal : s.context = .queued → Act f c s .other { s with context := .stolen }
  | returns {v : Any α ε} : s.body = .apply → f = .returns v →
      Act f c s .other { s with body := .returned v, runs := s.runs + 1 }
  | raises {e : ε} : s.body = .apply → f = .raises e →
      Act f c s .other { s with body := .raised e, runs := s.runs + 1 }
  /-- `@remove-thread` gives the context back. -/
  | fastClone {v : Any α ε} : s.body = .returned v → s.context = .queued →
      Act f c s .fastClone { s with body := .fast, context := .removed, fastIVar := some (fastValue c v) }
  /-- It gives another thread, or none. -/
  | slowClone {v : Any α ε} : s.body = .returned v → Act f c s .other { s with body := .slow v }
  | putRes {v : Any α ε} : s.body = .slow v →
      Act f c s .other { s with body := .stopped, ivar := s.ivar <|> some (.RES v) }
  | putExn {e : ε} : s.body = .raised e →
      Act f c s .other { s with body := .stopped, ivar := s.ivar <|> some (.EXN e) }
  | cancel : c = true → s.body ≠ .spawn → s.body ≠ .fast → s.body ≠ .stopped →
      Act f c s .other { s with body := .terminated }
  | touch {w : Any α ε} : s.cell = some w → Act f c s .other { s with touches := touch w :: s.touches }

def Step (f : Outcome α ε) (c : Bool) (s s' : State α ε) : Prop := ∃ l, Act f c s l s'

def Reachable (f : Outcome α ε) (c : Bool) (s : State α ε) : Prop := Relation.ReflTransGen (Step f c) start s

/-- A step, but no fast clone with a cancelable. -/
def TaggedStep (f : Outcome α ε) (c : Bool) (s s' : State α ε) : Prop := ∃ l, Act f c s l s' ∧ (l = .fastClone → c = false)

/-! ## What the thunk gives is in the cell -/

/-- What a future of `f` promises. -/
structure Sound (f : Outcome α ε) (s : State α ε) : Prop where
  /-- The thunk is executed at most once. -/
  once : s.runs ≤ 1
  /-- The cell has the result of the thunk, in the form that a touch expects. -/
  tagged : ∀ w, s.ivar = some w ∨ s.fastIVar = some w → w = f.tagged
  /-- Every touch gives what the thunk gave. -/
  touches : ∀ r ∈ s.touches, r = some f
  /-- When the body is over a touch does not wait. -/
  stopped : s.body = .stopped → s.ivar.isSome = true
  fast : s.body = .fast → s.context = .removed ∧ s.fastIVar.isSome = true

/-- The body carries what the thunk gave. -/
structure Carried (f : Outcome α ε) (s : State α ε) : Prop where
  sound : Sound f s
  before : s.body = .spawn ∨ s.body = .apply → s.runs = 0
  returned : ∀ v, s.body = .returned v ∨ s.body = .slow v → f = .returns v
  raised : ∀ e, s.body = .raised e → f = .raises e

variable {s s' : State α ε} {l : Label}

theorem touch_tagged (f : Outcome α ε) : touch f.tagged = some f := by
  cases f <;> rfl

theorem Sound.cell (h : Sound f s) {w : Any α ε} (hw : s.cell = some w) : w = f.tagged := by
  unfold State.cell at hw
  cases hc : s.context with
  | stolen => exact h.tagged w (.inl (by simpa [hc] using hw))
  | removed => exact h.tagged w (.inr (by simpa [hc] using hw))
  | caller | queued => simp [hc] at hw

/-- The put of the body. -/
theorem Sound.put (h : Sound f s) {w : Any α ε} (hw : w = f.tagged) :
    Sound f { s with body := .stopped, ivar := s.ivar <|> some w } := by
  refine ⟨h.once, fun u hu => ?_, h.touches, fun _ => by cases s.ivar <;> rfl, nofun⟩
  rcases hu with hu | hu
  · cases hi : s.ivar with
    | none =>
      have he : (s.ivar <|> some w) = some u := hu
      rw [hi] at he
      cases he
      exact hw
    | some y =>
      have he : (s.ivar <|> some w) = some u := hu
      rw [hi] at he
      exact h.tagged u (.inl (hi.trans he))
  · exact h.tagged u (.inr hu)

theorem Act.carried (h : Carried f s) (ha : Act f c s l s') (hl : l = .fastClone → c = false) : Carried f s' := by
  obtain ⟨hsound, hbefore, hreturned, hraised⟩ := h
  obtain ⟨honce, htagged, htouches, hstopped, hfast⟩ := hsound
  cases ha with
  | spawn hb =>
    exact ⟨⟨honce, htagged, htouches, nofun, nofun⟩, fun _ => hbefore (.inl hb), nofun, nofun⟩
  | steal hc =>
    refine ⟨⟨honce, htagged, htouches, hstopped, fun hb => ?_⟩, hbefore, hreturned, hraised⟩
    have hr := (hfast hb).1
    rw [hc] at hr
    cases hr
  | returns hb hf =>
    have h0 := hbefore (.inr hb)
    refine ⟨⟨by show s.runs + 1 ≤ 1; omega, htagged, htouches, nofun, nofun⟩, nofun, fun v hv => ?_, nofun⟩
    rcases hv with hv | hv <;> cases hv
    exact hf
  | raises hb hf =>
    have h0 := hbefore (.inr hb)
    refine ⟨⟨by show s.runs + 1 ≤ 1; omega, htagged, htouches, nofun, nofun⟩, nofun, nofun, fun e he => ?_⟩
    cases he
    exact hf
  | @fastClone v hb hc =>
    have hf := hreturned v (.inl hb)
    refine ⟨⟨honce, fun w hw => ?_, htouches, nofun, fun _ => ⟨rfl, rfl⟩⟩, nofun, nofun, nofun⟩
    rcases hw with hw | hw
    · exact htagged w (.inl hw)
    · rw [hl rfl] at hw
      cases hw
      rw [hf]
      rfl
  | slowClone hb =>
    refine ⟨⟨honce, htagged, htouches, nofun, nofun⟩, nofun, fun v hv => ?_, nofun⟩
    rcases hv with hv | hv <;> cases hv
    exact hreturned _ (.inl hb)
  | @putRes v hb =>
    have hf := hreturned v (.inr hb)
    exact ⟨Sound.put ⟨honce, htagged, htouches, hstopped, hfast⟩ (by rw [hf]; rfl), nofun, nofun, nofun⟩
  | @putExn e hb =>
    have hf := hraised e hb
    exact ⟨Sound.put ⟨honce, htagged, htouches, hstopped, hfast⟩ (by rw [hf]; rfl), nofun, nofun, nofun⟩
  | cancel _ _ _ _ => exact ⟨⟨honce, htagged, htouches, nofun, nofun⟩, nofun, nofun, nofun⟩
  | @touch w hw =>
    have hs : Sound f s := ⟨honce, htagged, htouches, hstopped, hfast⟩
    refine ⟨⟨honce, htagged, fun r hr => ?_, hstopped, hfast⟩, hbefore, hreturned, hraised⟩
    rcases List.mem_cons.mp hr with rfl | hr
    · rw [hs.cell hw, touch_tagged]
    · exact htouches r hr

/-! ## The fast clone with a cancelable -/

/-- The cell of the fast clone has the value without its tag. -/
structure Untagged (f : Outcome α ε) (c : Bool) (s : State α ε) : Prop where
  cancelable : c = true
  fast : s.body = .fast ∧ s.context = .removed
  value : ∃ v, f = .returns v ∧ s.fastIVar = some v

theorem Untagged.unsound (h : Untagged f c s) : ¬ Sound f s := by
  obtain ⟨v, rfl, hv⟩ := h.value
  intro hs
  have hw : v = .RES v := hs.tagged v (.inr hv)
  have hsize := congrArg sizeOf hw
  simp at hsize

theorem Untagged.act (h : Untagged f c s) (ha : Act f c s l s') : Untagged f c s' := by
  obtain ⟨hc, ⟨hb, hctx⟩, hv⟩ := h
  cases ha with
  | spawn hb' | returns hb' _ | raises hb' _ | fastClone hb' _ | slowClone hb' | putRes hb' | putExn hb' =>
    rw [hb] at hb'
    cases hb'
  | steal hctx' =>
    rw [hctx] at hctx'
    cases hctx'
  | cancel _ _ hb' _ => exact absurd hb hb'
  | touch _ => exact ⟨hc, ⟨hb, hctx⟩, hv⟩

/-- Only the fast clone removes the context. -/
theorem Act.removed (h : s.context ≠ .removed) (ha : Act f c s l s') (hl : l ≠ .fastClone) : s'.context ≠ .removed := by
  cases ha with
  | fastClone _ _ => exact absurd rfl hl
  | spawn _ | steal _ => nofun
  | returns _ _ | raises _ _ | slowClone _ | putRes _ | putExn _ | cancel _ _ _ _ | touch _ => exact h

theorem Reachable.untagged_or (h : Reachable f c s) : Untagged f c s ∨ Carried f s ∧ (c = true → s.context ≠ .removed) := by
  induction h with
  | refl => exact .inr ⟨⟨⟨Nat.zero_le 1, by simp [start], nofun, nofun, nofun⟩, fun _ => rfl, by simp [start], nofun⟩, nofun⟩
  | tail _ hstep ih =>
    obtain ⟨l, ha⟩ := hstep
    rcases ih with hu | ⟨hcar, hctx⟩
    · exact .inl (hu.act ha)
    · by_cases hl : l = .fastClone ∧ c = true
      · obtain ⟨rfl, hc⟩ := hl
        cases ha with
        | @fastClone v hb _ =>
          refine .inl ⟨hc, ⟨rfl, rfl⟩, v, hcar.returned v (.inl hb), ?_⟩
          rw [hc]
          rfl
      · refine .inr ⟨ha.carried hcar fun hf => ?_, fun hc => ha.removed (hctx hc) fun hf => hl ⟨hf, hc⟩⟩
        cases hc : c with
        | false => rfl
        | true => exact absurd ⟨hf, hc⟩ hl

theorem TaggedStep.context (h : s.context ≠ .removed ∨ c = false) (hstep : TaggedStep f c s s') :
    s'.context ≠ .removed ∨ c = false := by
  obtain ⟨l, ha, hl⟩ := hstep
  rcases h with hctx | hc
  · by_cases hf : l = .fastClone
    · exact .inr (hl hf)
    · exact .inl (ha.removed hctx hf)
  · exact .inr hc

/-- What a future promises holds in every run without a fast clone that has a cancelable, and fails after one. -/
theorem future_touch (f : Outcome α ε) (c : Bool) :
    (∀ s, Relation.ReflTransGen (TaggedStep f c) start s → Sound f s) ∧
    ∀ s, Reachable f c s → (Sound f s ↔ ¬ (c = true ∧ s.context = .removed)) := by
  have hiff : ∀ s, Reachable f c s → (Sound f s ↔ ¬ (c = true ∧ s.context = .removed)) := by
    intro s h
    rcases h.untagged_or with hu | ⟨hcar, hctx⟩
    · exact ⟨fun hs => absurd hs hu.unsound, fun hn => absurd ⟨hu.cancelable, hu.fast.2⟩ hn⟩
    · exact ⟨fun _ hn => hctx hn.1 hn.2, fun _ => hcar.sound⟩
  refine ⟨fun s h => ?_, hiff⟩
  suffices hs : Reachable f c s ∧ (s.context ≠ .removed ∨ c = false) by
    grind
  induction h with
  | refl => exact ⟨.refl, .inl nofun⟩
  | tail _ hstep ih =>
    refine ⟨ih.1.tail ?_, hstep.context ih.2⟩
    obtain ⟨l, ha, -⟩ := hstep
    exact ⟨l, ha⟩

/-- The thunk returns 7, the context is not stolen, and the touch finds a word that is no result. -/
theorem touch_untagged : ∃ s : State Nat Empty, Reachable (.returns (.other 7)) true s ∧ none ∈ s.touches ∧
    ¬ Sound (.returns (.other 7)) s := by
  have h₀ : Reachable (.returns (.other 7)) true (start (α := Nat) (ε := Empty)) := .refl
  have h₁ := h₀.tail ⟨_, .spawn rfl⟩
  have h₂ := h₁.tail ⟨_, .returns rfl rfl⟩
  have h₃ := h₂.tail ⟨_, .fastClone rfl rfl⟩
  have h₄ := h₃.tail ⟨_, .touch rfl⟩
  refine ⟨_, h₄, List.mem_cons_self, fun hs => ?_⟩
  have hr := hs.touches none List.mem_cons_self
  cases hr

end Manticore.ImplicitThread.MultilispFuture
