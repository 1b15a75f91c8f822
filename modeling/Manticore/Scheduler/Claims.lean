/-
  Manticore.Scheduler.Claims — the reference counts of the resume deques
  (lib/parallel-rt/gc/work-stealing-deque.c, lib/basis/scheduler/work-stealing.pml).

  Deques live in the C heap. `nClaimed` counts the claims on one: a new deque is claimed for
  the process that allocates it, `M_ResumeDeques` claims every nonempty resume deque of the
  vproc, and `@release-in-atomic` gives one claim back. A collection frees the resume deques
  that are empty and not claimed (`prune`). One operation of the vproc is in progress at a
  time; a collection may come between any two of its steps.

  The operations: `@resume-task-on-new-deque`, `@try-pop-local-in-atomic` and
  `@try-pop-remote-in-atomic`, and the ones that work on deques they have claimed and give
  their claims back before they end (`Pc.client`), `@double-size-in-atomic` among them.
  `Pc.held` lists the claims an operation holds, one entry for each.

  The pop attempts ask `@resume-deques-in-atomic` for the claimed deques, pop from the
  first and return without releasing any. Proved: when no pop attempt finds a nonempty
  resume deque, `nClaimed` is the number of claims held in every state, a collection frees
  exactly the empty resume deques on which no claim is held, and nothing else
  (`claims_counted`). A pop attempt that does find one leaves a claim nobody holds, and that
  deque is never freed (`try_pop_leaks`).
-/

import Manticore.Scheduler.WorkStealingDeque

namespace Manticore.Scheduler.Claims

open WorkStealingDeque
open Function (update update_self update_of_ne)
open List (mem_cons nodup_cons not_mem_nil mem_cons_self)
open Fuel (of_bind_ok)

variable {α : Type}

def DEFAULT_DEQUE_SZ : Int := 64000

/-- The allocated chunks by their address. -/
abbrev Heap (α : Type) := Nat → Option (Deque α)

/-- A pop attempt of the host itself or of a thief. -/
inductive Who where
  | loc
  | remote
  deriving DecidableEq, Repr

def Who.pop : Who → Deque α → Except Fault (Deque α × Option (Option α))
  | .loc, deq => deq.popNewEnd
  | .remote, deq => deq.popOldEnd

/-- Where the operation in progress is. -/
inductive Pc (α : Type) where
  | idle
  /-- `@resume-task-on-new-deque`. -/
  | create (thd : α)
  | push (d : Nat) (thd : α)
  | release (d : Nat)
  /-- `@try-pop-local-in-atomic` and `@try-pop-remote-in-atomic`. -/
  | find (w : Who)
  | fromResume (w : Who) (ds : List Nat)
  | fromPrimary (w : Who)
  /-- An operation that holds the claims `ds`. -/
  | client (ds : List Nat)
  /-- `@double-size-in-atomic` within such an operation. -/
  | doubling (d newDeque : Nat) (ds : List Nat)

/-- The claims the operation holds. -/
def Pc.held : Pc α → List Nat
  | .push d _ | .release d => [d]
  | .fromResume _ ds | .client ds | .doubling _ _ ds => ds
  | _ => []

/-- `struct WorkGroupList_s` of a vproc, and the operation in progress there. -/
structure St (α : Type) where
  heap : Heap α
  primaryDeque : Option Nat
  resumeDeques : List Nat
  pc : Pc α

def St.init : St α := { heap := fun _ => none, primaryDeque := none, resumeDeques := [], pc := .idle }

/-- `M_ResumeDeques`: the list `l` of the deques it has claimed grows at its head. -/
def claimAll : Heap α → List Nat → List Nat → Heap α × List Nat
  | heap, [], l => (heap, l)
  | heap, d :: ds, l =>
    match heap d with
    | some deq =>
      if deq.size > 0 then claimAll (update heap d (some { deq with nClaimed := deq.nClaimed + 1 })) ds (d :: l)
      else claimAll heap ds l
    | none => claimAll heap ds l

/-- `PruneDequeList`: the list `new` of the deques it keeps grows at its head. -/
def prune : Heap α → List Nat → List Nat → Heap α × List Nat
  | heap, [], new => (heap, new)
  | heap, d :: ds, new =>
    match heap d with
    | some deq =>
      if deq.size = 0 ∧ deq.nClaimed = 0 then prune (update heap d none) ds new
      else prune heap ds (d :: new)
    | none => prune heap ds (d :: new)

/-- `Prune`, which every collection runs first. -/
def St.collect (s : St α) : St α :=
  { s with heap := (prune s.heap s.resumeDeques []).1, resumeDeques := (prune s.heap s.resumeDeques []).2 }

/-- `claimAll` on the resume deques of the vproc. -/
def St.claim (s : St α) : Heap α × List Nat := claimAll s.heap s.resumeDeques []

inductive Step : St α → St α → Prop
  | resumeTask {s : St α} (thd : α) : s.pc = .idle → Step s { s with pc := .create thd }
  | create {s : St α} {thd : α} {d : Nat} {deq : Deque α} : s.pc = .create thd → s.heap d = none →
      DequeAlloc DEFAULT_DEQUE_SZ = .ok deq →
      Step s { s with heap := update s.heap d (some deq), resumeDeques := d :: s.resumeDeques, pc := .push d thd }
  | push {s : St α} {thd : α} {d : Nat} {deq deq' : Deque α} : s.pc = .push d thd → s.heap d = some deq →
      deq.pushNewEnd (some thd) = .ok deq' → Step s { s with heap := update s.heap d (some deq'), pc := .release d }
  | release {s : St α} {d : Nat} {deq deq' : Deque α} : s.pc = .release d → s.heap d = some deq →
      deq.release = .ok deq' → Step s { s with heap := update s.heap d (some deq'), pc := .idle }
  | tryPop {s : St α} (w : Who) : s.pc = .idle → Step s { s with pc := .find w }
  | find {s : St α} {w : Who} : s.pc = .find w → Step s { s with heap := s.claim.1, pc := .fromResume w s.claim.2 }
  | popResume {s : St α} {w : Who} {d : Nat} {ds : List Nat} {deq deq' : Deque α} {thd : Option α} :
      s.pc = .fromResume w (d :: ds) → s.heap d = some deq → w.pop deq = .ok (deq', some thd) →
      Step s { s with heap := update s.heap d (some deq'), pc := .idle }
  | popResumeNone {s : St α} {w : Who} {d : Nat} {ds : List Nat} {deq deq' : Deque α} :
      s.pc = .fromResume w (d :: ds) → s.heap d = some deq → w.pop deq = .ok (deq', none) →
      Step s { s with heap := update s.heap d (some deq'), pc := .fromPrimary w }
  | noResume {s : St α} {w : Who} : s.pc = .fromResume w [] → Step s { s with pc := .fromPrimary w }
  | noPrimary {s : St α} {w : Who} : s.pc = .fromPrimary w → s.primaryDeque = none → Step s { s with pc := .idle }
  | popPrimary {s : St α} {w : Who} {p : Nat} {deq deq' : Deque α} {thd : Option (Option α)} : s.pc = .fromPrimary w →
      s.primaryDeque = some p → s.heap p = some deq → (w = .remote → deq.size > 1) → w.pop deq = .ok (deq', thd) →
      Step s { s with heap := update s.heap p (some deq'), pc := .idle }
  | shortPrimary {s : St α} {p : Nat} {deq : Deque α} : s.pc = .fromPrimary .remote → s.primaryDeque = some p →
      s.heap p = some deq → ¬ deq.size > 1 → Step s { s with pc := .idle }
  | enter {s : St α} : s.pc = .idle → Step s { s with pc := .client [] }
  | newPrimary {s : St α} {ds : List Nat} {d : Nat} {deq : Deque α} : s.pc = .client ds → s.heap d = none →
      DequeAlloc DEFAULT_DEQUE_SZ = .ok deq → Step s { s with heap := update s.heap d (some deq), primaryDeque := some d }
  | claim {s : St α} {ds : List Nat} : s.pc = .client ds → Step s { s with heap := s.claim.1, pc := .client (s.claim.2 ++ ds) }
  | clientPop {s : St α} {ds : List Nat} (w : Who) {d : Nat} {deq deq' : Deque α} {thd : Option (Option α)} :
      s.pc = .client ds → d ∈ ds → s.heap d = some deq → w.pop deq = .ok (deq', thd) →
      Step s { s with heap := update s.heap d (some deq') }
  | clientPush {s : St α} {ds : List Nat} (thd : α) {d : Nat} {deq deq' : Deque α} :
      s.pc = .client ds → d ∈ ds → s.heap d = some deq → deq.pushNewEnd (some thd) = .ok deq' →
      Step s { s with heap := update s.heap d (some deq') }
  | clientRelease {s : St α} {ds : List Nat} {d : Nat} {deq deq' : Deque α} : s.pc = .client ds → d ∈ ds →
      s.heap d = some deq → deq.release = .ok deq' →
      Step s { s with heap := update s.heap d (some deq'), pc := .client (ds.erase d) }
  | leave {s : St α} : s.pc = .client [] → Step s { s with pc := .idle }
  | doubleSize {s : St α} {ds : List Nat} {d newDeque : Nat} {deq deq' : Deque α} : s.pc = .client ds →
      d ∈ ds ∨ s.primaryDeque = some d → s.heap d = some deq → s.heap newDeque = none →
      DequeAlloc (Int.bmod (deq.maxSz * 2) (2 ^ 32)) = .ok deq' →
      Step s { s with heap := update s.heap newDeque (some deq'), primaryDeque := some newDeque, pc := .doubling d newDeque ds }
  | copy {s : St α} {ds : List Nat} {d newDeque : Nat} {deq deq' new new' : Deque α} {elt : Option α} :
      s.pc = .doubling d newDeque ds → s.heap d = some deq → s.heap newDeque = some new →
      deq.popOldEnd = .ok (deq', some elt) → new.pushNewEnd elt = .ok new' →
      Step s { s with heap := update (update s.heap d (some deq')) newDeque (some new') }
  | copied {s : St α} {ds : List Nat} {d newDeque : Nat} {deq deq' deq'' : Deque α} : s.pc = .doubling d newDeque ds →
      s.heap d = some deq → deq.popOldEnd = .ok (deq', none) → deq'.release = .ok deq'' →
      Step s { s with heap := update s.heap d (some deq''), pc := .client (ds.erase d) }
  | collect {s : St α} : Step s s.collect

/-- No pop attempt is about to find a nonempty resume deque. -/
def Ready (s : St α) : Prop := ∀ w, s.pc = .find w → s.claim.2 = []

inductive Reach : St α → Prop
  | init : Reach St.init
  | step {s s' : St α} : Reach s → Step s s' → Reach s'

/-- The states reached when no pop attempt finds a nonempty resume deque. -/
inductive Run : St α → Prop
  | init : Run St.init
  | step {s s' : St α} : Run s → Ready s → Step s s' → Run s'

/-! ## What the deque operations do to the count -/

section
variable {deq deq' : Deque α}

attribute [local simp] claimAll prune Pc.held

theorem nClaimed_alloc {size : Int} (h : DequeAlloc size = .ok deq) : deq.nClaimed = 1 := by
  grind [DequeAlloc]

theorem nClaimed_update {i : Int} {elt : Option α} (h : deq.update i elt = .ok deq') : deq'.nClaimed = deq.nClaimed := by
  obtain ⟨_, _, h⟩ := of_bind_ok h
  obtain ⟨_, _, h⟩ := of_bind_ok h
  cases h
  rfl

theorem nClaimed_push {elt : Option α} (h : deq.pushNewEnd elt = .ok deq') : deq'.nClaimed = deq.nClaimed := by
  obtain ⟨_, _, h⟩ := of_bind_ok h
  obtain ⟨_, _, h⟩ := of_bind_ok h
  obtain ⟨_, _, h⟩ := of_bind_ok h
  obtain ⟨deq₁, hup, h⟩ := of_bind_ok h
  obtain ⟨_, _, h⟩ := of_bind_ok h
  have hn := nClaimed_update hup
  cases h
  exact hn

theorem nClaimed_popNew {r : Option (Option α)} (h : deq.popNewEnd = .ok (deq', r)) : deq'.nClaimed = deq.nClaimed := by
  obtain ⟨_, _, h⟩ := of_bind_ok h
  obtain ⟨_, _, h⟩ := of_bind_ok h
  split at h
  · cases h
    rfl
  · obtain ⟨_, _, h⟩ := of_bind_ok h
    obtain ⟨deq₁, hup, h⟩ := of_bind_ok h
    obtain ⟨_, _, h⟩ := of_bind_ok h
    obtain ⟨_, _, h⟩ := of_bind_ok h
    have hn := nClaimed_update hup
    cases h
    exact hn

theorem nClaimed_popOld {r : Option (Option α)} (h : deq.popOldEnd = .ok (deq', r)) : deq'.nClaimed = deq.nClaimed := by
  obtain ⟨_, _, h⟩ := of_bind_ok h
  obtain ⟨_, _, h⟩ := of_bind_ok h
  split at h
  · cases h
    rfl
  · obtain ⟨_, _, h⟩ := of_bind_ok h
    obtain ⟨deq₁, hup, h⟩ := of_bind_ok h
    obtain ⟨_, _, h⟩ := of_bind_ok h
    have hn := nClaimed_update hup
    cases h
    exact hn

theorem nClaimed_pop {w : Who} {r : Option (Option α)} (h : w.pop deq = .ok (deq', r)) : deq'.nClaimed = deq.nClaimed := by
  cases w with
  | loc => exact nClaimed_popNew h
  | remote => exact nClaimed_popOld h

theorem nClaimed_release (h : deq.release = .ok deq') : deq'.nClaimed = deq.nClaimed - 1 := by
  obtain ⟨_, _, h⟩ := of_bind_ok h
  cases h
  rfl

end

/-! ## Claiming and pruning a list -/

variable {heap : Heap α} {ds l : List Nat} {d : Nat} {new : List Nat}

theorem claimAll_off (h : d ∉ ds) : (claimAll heap ds l).1 d = heap d := by
  induction ds generalizing heap l with
  | nil => rfl
  | cons e ds ih =>
    rw [mem_cons, not_or] at h
    grind [claimAll]

theorem claimAll_mem (h : d ∈ (claimAll heap ds l).2) : d ∈ ds ∨ d ∈ l := by
  induction ds generalizing heap l with
  | nil => exact .inr h
  | cons e ds ih =>
    grind [claimAll]

theorem claimAll_count_off (h : d ∉ ds) : (claimAll heap ds l).2.count d = l.count d := by
  induction ds generalizing heap l with
  | nil => rfl
  | cons e ds ih =>
    rw [mem_cons, not_or] at h
    unfold claimAll
    grind

/-- A claimed deque is on the list once more, and its count goes up by one. -/
theorem claimAll_count (hnd : ds.Nodup) (hd : d ∈ ds) {deq : Deque α} (hdeq : heap d = some deq) :
    ∃ deq', (claimAll heap ds l).1 d = some deq' ∧ deq'.size = deq.size ∧ deq'.nClaimed + l.count d = deq.nClaimed +
      (claimAll heap ds l).2.count d := by
  induction ds generalizing heap l with
  | nil => cases hd
  | cons e ds ih =>
    obtain ⟨he, hnd⟩ := nodup_cons.1 hnd
    by_cases hde : d = e
    · subst hde
      unfold claimAll
      rw [hdeq]
      dsimp only
      split
      · refine ⟨{ deq with nClaimed := deq.nClaimed + 1 }, by rw [claimAll_off he, update_self], rfl, ?_⟩
        rw [claimAll_count_off he, List.count_cons_self]
        push_cast
        omega
      · exact ⟨deq, by rw [claimAll_off he, hdeq], rfl, by rw [claimAll_count_off he]⟩
    · have hd' : d ∈ ds := (mem_cons.1 hd).resolve_left hde
      unfold claimAll
      split
      · split
        · obtain ⟨deq', hdeq', hsz, hn⟩ := ih hnd hd' ((update_of_ne hde _ heap).trans hdeq)
          rw [List.count_cons_of_ne (Ne.symm hde)] at hn
          exact ⟨deq', hdeq', hsz, hn⟩
        · exact ih hnd hd' hdeq
      · exact ih hnd hd' hdeq

/-- The collection may free the deque. -/
def Free (heap : Heap α) (d : Nat) : Prop := ∃ deq, heap d = some deq ∧ deq.size = 0 ∧ deq.nClaimed = 0

theorem prune_off (h : d ∉ ds) : (prune heap ds new).1 d = heap d := by
  induction ds generalizing heap new with
  | nil => rfl
  | cons e ds ih =>
    rw [mem_cons, not_or] at h
    grind [prune]

/-- The chunk of a listed deque is freed if it is empty and not claimed, and left alone otherwise. -/
theorem prune_heap (hnd : ds.Nodup) (hd : d ∈ ds) :
    (Free heap d → (prune heap ds new).1 d = none) ∧ (¬ Free heap d → (prune heap ds new).1 d = heap d) := by
  induction ds generalizing heap new with
  | nil => cases hd
  | cons e ds ih =>
    obtain ⟨he, hnd⟩ := nodup_cons.1 hnd
    by_cases hde : d = e
    · subst hde
      unfold prune
      split
      · next deq hdeq =>
        split
        · next hfree =>
          exact ⟨fun _ => by rw [prune_off he, update_self], fun hn => absurd ⟨deq, hdeq, hfree⟩ hn⟩
        · next hfree =>
          refine ⟨fun ⟨deq', hdeq', hf⟩ => ?_, fun _ => prune_off he⟩
          rw [hdeq] at hdeq'
          cases hdeq'
          exact absurd hf hfree
      grind [prune_off]
    grind [prune, Free]

/-- What a collection does to the chunk of a resume deque. -/
theorem St.prune_heap (s : St α) (hnd : s.resumeDeques.Nodup) (hd : d ∈ s.resumeDeques) :
    (Free s.heap d → s.collect.heap d = none) ∧ (¬ Free s.heap d → s.collect.heap d = s.heap d) := Claims.prune_heap
      hnd hd

/-- The list keeps the deques that are not freed. -/
theorem prune_mem (hnd : ds.Nodup) : d ∈ (prune heap ds new).2 ↔ d ∈ new ∨ (d ∈ ds ∧ ¬ Free heap d) := by
  induction ds generalizing heap new with
  | nil => simp [prune]
  | cons e ds ih =>
    grind [Free, prune]

theorem prune_nodup (hnd : ds.Nodup) (hnew : new.Nodup) (hdisj : ∀ d ∈ new, d ∉ ds) :
    (prune heap ds new).2.Nodup := by
  induction ds generalizing heap new with
  | nil => exact hnew
  | cons e ds ih =>
    grind [prune]

/-! ## The invariant -/

/-- The count of a resume deque is the number of claims the operation holds on it. -/
structure Inv (s : St α) : Prop where
  counted : ∀ d ∈ s.resumeDeques, ∃ deq, s.heap d = some deq ∧ deq.nClaimed = s.pc.held.count d
  nodup : s.resumeDeques.Nodup
  held : ∀ d ∈ s.pc.held, d ∈ s.resumeDeques
  primary : ∀ p, s.primaryDeque = some p → p ∉ s.resumeDeques ∧ s.heap p ≠ none
  doubling : ∀ d nd ds, s.pc = .doubling d nd ds → nd ∉ s.resumeDeques ∧ (d ∈ ds ∨ d ∉ s.resumeDeques)

variable {s s' : St α}

theorem inv_init : Inv (St.init : St α) where
  counted := fun _ hd => absurd hd not_mem_nil
  nodup := List.nodup_nil
  held := fun _ hd => absurd hd not_mem_nil
  primary := fun _ hp => by cases hp
  doubling := fun _ _ _ hpc => by cases hpc

variable {pc : Pc α} {d : Nat} {deq : Deque α}

/-- The operation moves on and holds the same claims. -/
theorem Inv.goto (h : Inv s) (hheld : pc.held = s.pc.held)
    (hdoubling : ∀ d nd ds, pc = .doubling d nd ds → nd ∉ s.resumeDeques ∧ (d ∈ ds ∨ d ∉ s.resumeDeques)) :
    Inv { s with pc := pc } where
  counted := by rw [hheld]; exact h.counted
  nodup := h.nodup
  held := by rw [hheld]; exact h.held
  primary := h.primary
  doubling := hdoubling

/-- A deque changes, but not its count. -/
theorem Inv.put (h : Inv s) {deq' : Deque α} (hd : s.heap d = some deq) (hn : deq'.nClaimed = deq.nClaimed) :
    Inv { s with heap := update s.heap d (some deq') } where
  counted := fun e he => by
    obtain ⟨deq₁, hdeq₁, hn₁⟩ := h.counted e he
    by_cases hed : e = d
    · simp_all
    · exact ⟨deq₁, (update_of_ne hed _ _).trans hdeq₁, hn₁⟩
  nodup := h.nodup
  held := h.held
  primary := fun p hp => by
    refine ⟨(h.primary p hp).1, ?_⟩
    show update s.heap d (some deq') p ≠ none
    by_cases hpd : p = d
    · subst hpd
      rw [update_self]
      exact Option.some_ne_none _
    · rw [update_of_ne hpd]
      exact (h.primary p hp).2
  doubling := h.doubling

/-- The operation gives back one of its claims on the deque. -/
theorem Inv.giveBack (h : Inv s) {deq' : Deque α} (hd : s.heap d = some deq) (hn : deq'.nClaimed = deq.nClaimed - 1)
    (hheld : pc.held = s.pc.held.erase d) (hmem : d ∈ s.pc.held ∨ d ∉ s.resumeDeques)
    (hpc : ∀ d nd ds, pc ≠ .doubling d nd ds) : Inv { s with heap := update s.heap d (some deq'), pc := pc } where
  counted := fun e he => by
    obtain ⟨deq₁, hdeq₁, hn₁⟩ := h.counted e he
    by_cases hed : e = d
    · grind
    simp_all
  nodup := h.nodup
  held := fun e he => h.held e (List.mem_of_mem_erase (by rwa [hheld] at he))
  primary := fun p hp => by
    refine ⟨(h.primary p hp).1, ?_⟩
    show update s.heap d (some deq') p ≠ none
    by_cases hpd : p = d
    · subst hpd
      rw [update_self]
      exact Option.some_ne_none _
    · rw [update_of_ne hpd]
      exact (h.primary p hp).2
  doubling := fun d' nd ds heq => absurd heq (hpc d' nd ds)

/-- The operation claims every nonempty resume deque. -/
theorem Inv.claimed (h : Inv s) (hheld : pc.held = s.claim.2 ++ s.pc.held) (hpc : ∀ d nd ds, pc ≠ .doubling d nd ds)
    : Inv { s with heap := s.claim.1, pc := pc } where
  counted := fun d hd => by
    obtain ⟨deq, hdeq, hn⟩ := h.counted d hd
    obtain ⟨deq', hdeq', -, hn'⟩ := claimAll_count (l := []) h.nodup hd hdeq
    grind [St.claim]
  nodup := h.nodup
  held := fun d hd => by
    rw [hheld] at hd
    rcases List.mem_append.1 hd with hd | hd
    · exact (claimAll_mem hd).resolve_right not_mem_nil
    · exact h.held d hd
  primary := fun p hp => by
    refine ⟨(h.primary p hp).1, ?_⟩
    show s.claim.1 p ≠ none
    rw [St.claim, claimAll_off (h.primary p hp).1]
    exact (h.primary p hp).2
  doubling := fun d nd ds heq => absurd heq (hpc d nd ds)

/-- A deque is freed by the next collection when it is empty and nothing holds a claim on it. -/
theorem Inv.free_iff (h : Inv s) (hd : d ∈ s.resumeDeques) (hdeq : s.heap d = some deq) :
    Free s.heap d ↔ deq.size = 0 ∧ d ∉ s.pc.held := by
  obtain ⟨deq', hdeq', hn⟩ := h.counted d hd
  rw [hdeq] at hdeq'
  cases hdeq'
  have hzero : deq.nClaimed = 0 ↔ d ∉ s.pc.held := by
    rw [hn, ← List.count_eq_zero]
    omega
  constructor
  · rintro ⟨deq', hdeq', hsz, hcl⟩
    rw [hdeq] at hdeq'
    cases hdeq'
    exact ⟨hsz, hzero.1 hcl⟩
  · rintro ⟨hsz, hcl⟩
    exact ⟨deq, hdeq, hsz, hzero.2 hcl⟩

theorem Inv.collect (h : Inv s) : Inv s.collect where
  counted := fun d hd => by
    obtain ⟨hmem, hfree⟩ := ((prune_mem h.nodup).1 hd).resolve_left not_mem_nil
    obtain ⟨deq, hdeq, hn⟩ := h.counted d hmem
    exact ⟨deq, ((prune_heap h.nodup hmem).2 hfree).trans hdeq, hn⟩
  nodup := prune_nodup h.nodup List.nodup_nil fun _ hd => absurd hd not_mem_nil
  held := fun d hd => by
    have hmem := h.held d hd
    obtain ⟨deq, hdeq, -⟩ := h.counted d hmem
    exact (prune_mem h.nodup).2 (.inr ⟨hmem, fun hfree => ((h.free_iff hmem hdeq).1 hfree).2 hd⟩)
  primary := fun p hp => by
    obtain ⟨hoff, halloc⟩ := h.primary p hp
    refine ⟨fun hmem => hoff (((prune_mem h.nodup).1 hmem).resolve_left not_mem_nil).1, ?_⟩
    show (prune s.heap s.resumeDeques []).1 p ≠ none
    rwa [prune_off hoff]
  doubling := fun d nd ds hpc => by
    have hsub : ∀ e, e ∈ s.collect.resumeDeques → e ∈ s.resumeDeques :=
      fun e hmem => (((prune_mem h.nodup).1 hmem).resolve_left not_mem_nil).1
    obtain ⟨h1, h2⟩ := h.doubling d nd ds hpc
    grind

/-- A chunk that is no resume deque changes. -/
theorem Inv.putOff (h : Inv s) (hoff : d ∉ s.resumeDeques) {primary : Option Nat}
    (hprimary : primary = s.primaryDeque ∨ primary = some d) :
    Inv { s with heap := update s.heap d (some deq), primaryDeque := primary } where
  counted := fun e he => by
    obtain ⟨deq₁, hdeq₁, hn₁⟩ := h.counted e he
    grind
  nodup := h.nodup
  held := h.held
  primary := fun p hp => by
    show p ∉ s.resumeDeques ∧ update s.heap d (some deq) p ≠ none
    by_cases hpd : p = d
    · simp_all
    · rw [update_of_ne hpd]
      rcases hprimary with rfl | rfl
      · exact h.primary p hp
      · exact absurd (Option.some.inj hp).symm hpd
  doubling := h.doubling

/-- A free chunk is no resume deque. -/
theorem Inv.fresh (h : Inv s) (hd : s.heap d = none) : d ∉ s.resumeDeques := by
  intro hmem
  obtain ⟨deq, hdeq, -⟩ := h.counted d hmem
  rw [hd] at hdeq
  cases hdeq

/-- A new resume deque is claimed for the operation that creates it. -/
theorem Inv.create (h : Inv s) {thd : α} (hd : s.heap d = none) (hn : deq.nClaimed = 1) (hheld : s.pc.held = []) :
    Inv { s with heap := update s.heap d (some deq), resumeDeques := d :: s.resumeDeques, pc := .push d thd } where
  counted := fun e he => by
    by_cases hed : e = d
    · subst hed
      exact ⟨deq, update_self .., by rw [hn]; simp [Pc.held]⟩
    · obtain ⟨deq₁, hdeq₁, hn₁⟩ := h.counted e ((mem_cons.1 he).resolve_left hed)
      refine ⟨deq₁, (update_of_ne hed _ _).trans hdeq₁, ?_⟩
      rw [hn₁, hheld]
      simp [Pc.held, Ne.symm hed]
  nodup := nodup_cons.2 ⟨h.fresh hd, h.nodup⟩
  held := fun e he => by
    rw [List.mem_singleton.1 he]
    exact mem_cons_self
  primary := fun p hp => by
    obtain ⟨hoff, halloc⟩ := h.primary p hp
    grind
  doubling := fun _ _ _ hpc => by cases hpc

/-- No pop attempt has a nonempty resume deque in its hands. -/
def NoList (s : St α) : Prop := ∀ w ds, s.pc = .fromResume w ds → ds = []

theorem Inv.step (h : Inv s) (hlist : NoList s) (hs : Step s s') : Inv s' := by
  cases hs with
  | resumeTask _ hpc | tryPop _ hpc | noResume hpc | noPrimary hpc | shortPrimary hpc | enter hpc | leave hpc => exact h.goto (by rw [hpc]; rfl) nofun
  | create hpc hd halloc => exact h.create hd (nClaimed_alloc halloc) (by rw [hpc]; rfl)
  | push hpc hd hpush => exact (h.put hd (nClaimed_push hpush)).goto (by rw [hpc]; rfl) nofun
  | @release d _ _ hpc hd hrel =>
    refine h.giveBack hd (nClaimed_release hrel) ?_ (.inl ?_) nofun
    · rw [hpc]
      simp [Pc.held]
    · rw [hpc]
      exact mem_cons_self
  | find hpc => exact h.claimed (by rw [hpc]; simp [Pc.held]) nofun
  | popResume hpc | popResumeNone hpc => exact absurd (hlist _ _ hpc) (List.cons_ne_nil _ _)
  | popPrimary hpc _ hd _ hpop => exact (h.put hd (nClaimed_pop hpop)).goto (by rw [hpc]; rfl) nofun
  | newPrimary _ hd => exact h.putOff (h.fresh hd) (.inr rfl)
  | claim hpc => exact h.claimed (by rw [hpc]; rfl) nofun
  | clientPop w _ _ hd hpop => exact h.put hd (nClaimed_pop hpop)
  | clientPush thd _ _ hd hpush => exact h.put hd (nClaimed_push hpush)
  | clientRelease hpc hmem hd hrel =>
    exact h.giveBack hd (nClaimed_release hrel) (by rw [hpc]; rfl) (.inl (by rw [hpc]; exact hmem)) nofun
  | @doubleSize ds d nd _ _ hpc hd _ hnd _ =>
    refine (h.putOff (h.fresh hnd) (.inr rfl)).goto (by rw [hpc]; rfl) fun d' nd' ds' heq => ?_
    cases heq
    exact ⟨h.fresh hnd, hd.imp_right fun hp => (h.primary d hp).1⟩
  | @copy ds d nd _ _ _ _ _ hpc hd _ hpop _ =>
    obtain ⟨hoff, _⟩ := h.doubling d nd ds hpc
    exact (h.put hd (nClaimed_popOld hpop)).putOff hoff (.inl rfl)
  | @copied ds d nd _ _ _ hpc hd hpop hrel =>
    refine h.giveBack hd ?_ (by rw [hpc]; rfl) ?_ nofun
    · rw [nClaimed_release hrel, nClaimed_popOld hpop]
    · rw [hpc]
      exact (h.doubling d nd ds hpc).2
  | collect => exact h.collect

theorem NoList.step (h : NoList s) (hready : Ready s) (hs : Step s s') : NoList s' := by
  intro w ds hpc'
  cases hs with
  | find hpc =>
    cases hpc'
    exact hready w hpc
  | collect => exact h w ds hpc'
  | newPrimary hpc | clientPop _ hpc | clientPush _ hpc | copy hpc =>
    have heq := hpc.symm.trans hpc'
    cases heq
  | _ => cases hpc'

/-! ## Every claim is accounted for -/

/-- The count of a resume deque is the number of claims held on it, none between operations;
a collection frees exactly the empty resume deques on which no claim is held. -/
structure Accounted (s : St α) : Prop where
  counted : ∀ d ∈ s.resumeDeques, ∃ deq, s.heap d = some deq ∧ deq.nClaimed = s.pc.held.count d
  idle : s.pc = .idle → ∀ d ∈ s.resumeDeques, ∀ deq, s.heap d = some deq → deq.nClaimed = 0
  freed : ∀ d ∈ s.resumeDeques, ∀ deq, s.heap d = some deq → (s.collect.heap d = none ↔ deq.size = 0 ∧ d ∉ s.pc.held)
  kept : ∀ d, d ∉ s.resumeDeques ∨ s.collect.heap d ≠ none → s.collect.heap d = s.heap d

theorem Inv.accounted (h : Inv s) : Accounted s where
  counted := h.counted
  idle := fun hpc d hd deq hdeq => by
    obtain ⟨deq', hdeq', hn⟩ := h.counted d hd
    rw [hdeq] at hdeq'
    cases hdeq'
    rw [hn, hpc]
    rfl
  freed := fun d hd deq hdeq => by
    rw [← h.free_iff hd hdeq]
    obtain ⟨hyes, hno⟩ := s.prune_heap h.nodup hd
    grind
  kept := fun d hd => by
    by_cases hmem : d ∈ s.resumeDeques
    · obtain ⟨hyes, hno⟩ := s.prune_heap h.nodup hmem
      exact hno fun hfree => (hd.resolve_left fun hn => hn hmem) (hyes hfree)
    · exact prune_off hmem

/-- When no pop attempt finds a nonempty resume deque, every claim is accounted for in every state. -/
theorem claims_counted (h : Run s) : Accounted s := by
  have hinv : Inv s ∧ NoList s := by
    induction h with
    | init => exact ⟨inv_init, nofun⟩
    | step _ hready hs ih => exact ⟨ih.1.step ih.2 hs, ih.2.step hready hs⟩
  exact hinv.1.accounted

/-- A task is resumed on a new deque. -/
theorem claims_counted_resumed : ∃ s : St Nat, s.pc = .idle ∧ s.resumeDeques = [0] ∧ Accounted s := by
  have hchunk : ChunkFits DEFAULT_DEQUE_SZ := ⟨by decide, by decide⟩
  have h0 : Run (St.init : St Nat) := .init
  have h1 := h0.step nofun (.resumeTask 7 rfl)
  have h2 := h1.step nofun (.create (d := 0) rfl rfl (DequeAlloc_ok hchunk))
  have h3 := h2.step nofun (.push rfl rfl rfl)
  have h4 := h3.step nofun (.release rfl rfl rfl)
  exact ⟨_, rfl, rfl, claims_counted h4⟩

/-- The host pops the task from its resume deque: the deque is empty and stays claimed, and no collection frees it. -/
theorem try_pop_leaks : ∃ s : St Nat, Reach s ∧ s.pc = .idle ∧ s.resumeDeques = [0] ∧
    (∃ deq, s.heap 0 = some deq ∧ deq.size = 0 ∧ deq.nClaimed = 1) ∧ s.collect.heap 0 ≠ none ∧ ¬ Accounted s := by
  have hchunk : ChunkFits DEFAULT_DEQUE_SZ := ⟨by decide, by decide⟩
  have h0 : Reach (St.init : St Nat) := .init
  have h1 := h0.step (.resumeTask 7 rfl)
  have h2 := h1.step (.create (d := 0) rfl rfl (DequeAlloc_ok hchunk))
  have h3 := h2.step (.push rfl rfl rfl)
  have h4 := h3.step (.release rfl rfl rfl)
  have h5 := h4.step (.tryPop .loc rfl)
  have h6 := h5.step (.find rfl)
  have h7 := h6.step (.popResume rfl rfl rfl)
  refine ⟨_, h7, rfl, rfl, ⟨_, rfl, rfl, rfl⟩, ?_, fun hacc => ?_⟩
  · exact Option.isSome_iff_ne_none.1 rfl
  · have := hacc.idle rfl 0 mem_cons_self _ rfl
    revert this
    decide

end Manticore.Scheduler.Claims
