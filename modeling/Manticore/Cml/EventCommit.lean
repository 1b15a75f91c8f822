/-
  Manticore.Cml.EventCommit — a synchronisation is committed to one branch (see `Manticore.Cml.Event`).

  While no block function rolls back (`Act.effect` says what the other steps can do):

  - `Run.inv`: a call is committed at most once, and its thread is to be resumed if that was done by another thread;
    an item whose flag is still waiting belongs to a thread that waits for it.
-/

import Manticore.Cml.Event
import Manticore.Library.Parties

namespace Manticore.Cml.Event

open Parties
open Function (update_self update_of_ne update)
open Multiset (map_cons count_cons)

variable {n : Nat} {C V α : Type}

/-! ## Where a call is -/

inductive Phase (n : Nat) where
  /-- No flag of the call is in use. -/
  | fresh
  /-- Other threads may commit the call with the flag. -/
  | waits (flg : Flag n)
  | claimed (flg : Flag n)
  | committed

def Mode.phase : Mode n C V α → Phase n
  | .block flg _ _ => .waits flg
  | _ => .fresh

/-- The branches visited before. -/
def Mode.done : Mode n C V α → List (Branch C V α)
  | .block _ done _ => done
  | _ => []

def Pc.phase (call : Call n) : Pc n C V α → Phase n
  | .idle | .poll _ _ _ | .doEvt _ _ | .noneUnlock _ _ _ | .waitState _ | .signalLock _ | .signalState _
  | .signalWaiting _ | .signalUnlock _ _ | .signalLp _ | .signalReady _ _ => .fresh
  | .block flg _ _ | .stop flg _ | .blocked flg _ | .push flg _ _ _ | .pushUnlock flg _ _ | .waitUnlock flg _ _ =>
    .waits flg
  | .lock m _ _ | .tryLp m _ _ | .deref m _ _ _ | .matchLp m _ _ _ => m.phase
  | .enqueue m _ _ | .waitLock m _ _ | .waitCase m _ _ | .waitTrue m _ _ | .waitPush m _ _ => m.mode.phase
  | .enqueueUnlock m _ _ => .waits (m.flag call)
  | .claimed flg _ _ _ _ _ | .rollBack flg _ _ _ _ _ _ => .claimed flg
  | .matchUnlock _ _ _ _ | .handOver _ _ _ _ | .ret _ _ _ => .committed

/-- The branches that may have been registered. -/
def Pc.registered : Pc n C V α → List (Branch C V α)
  | .block _ done _ | .claimed _ done _ _ _ _ | .rollBack _ done _ _ _ _ _ => done
  | .stop _ evt | .blocked _ evt | .push _ evt _ _ | .pushUnlock _ evt _ | .waitUnlock _ evt _ => evt
  | .lock m _ _ | .tryLp m _ _ | .deref m _ _ _ | .matchLp m _ _ _ => m.done
  | .enqueue m _ _ | .waitLock m _ _ | .waitCase m _ _ | .waitTrue m _ _ | .waitPush m _ _ => m.mode.done
  | .enqueueUnlock m op b => m.mode.done ++ [(.chan op, b)]
  | _ => []

/-- The items that the thread has taken out of a queue or list and may still match. -/
def Pc.hand : Pc n C V α → List (Item n C V α)
  | .deref _ _ _ item | .matchLp _ _ _ item | .claimed _ _ _ _ _ item | .rollBack _ _ _ _ _ item _
  | .push _ _ _ item => [item]
  | .signalUnlock _ l | .signalLp l | .signalReady _ l => l
  | _ => []

/-- Whom the thread is to resume. -/
def Pc.owes (j : Fin n) : Pc n C V α → Nat
  | .matchUnlock _ _ _ item | .handOver _ _ _ item | .signalReady item _ => if item.flag.call.1 = j then 1 else 0
  | _ => 0

variable {s s' : State n C V α} {i j : Fin n} {pc : Pc n C V α} {item : Item n C V α}

/-- The item is in a queue, in a list of waiters or in the hands of a thread. -/
def Around (s : State n C V α) (item : Item n C V α) : Prop :=
  (∃ ch d, item ∈ s.queue ch d) ∨ (∃ cv, item ∈ s.waiting cv) ∨ ∃ j, item ∈ (s.pcs j).hand

/-- How often the thread is to be resumed. -/
def State.resumptions (s : State n C V α) (j : Fin n) : Nat :=
  (s.ready.map fun r => r.1.call.1).count j + ∑ i, (s.pcs i).owes j

/-- How often the call has been committed. -/
def State.committed (s : State n C V α) (call : Call n) : Nat := (s.commits.map Prod.fst).count call

theorem goto_self (s : State n C V α) (i : Fin n) (pc : Pc n C V α) : (s.goto i pc).pcs i = pc :=
  update_self _ _ _

theorem goto_of_ne (pc : Pc n C V α) (h : j ≠ i) : (s.goto i pc).pcs j = s.pcs j := update_of_ne h _ _

/-! ## What a step can do -/

/-- The thread goes to `pc`; an item that comes to be around is one that it registers there. -/
structure Moves (s : State n C V α) (i : Fin n) (pc : Pc n C V α) (s' : State n C V α) : Prop where
  pcs : s'.pcs = update s.pcs i pc
  around : ∀ item, Around s' item → Around s item ∨
    pc.phase (s.call i) = .waits item.flag ∧ item.branch ∈ pc.registered

/-- Whom the threads are to resume stays as it is. -/
def SameReady (s s' : State n C V α) : Prop := ∀ j, s'.resumptions j = s.resumptions j

/-- One resumption more. -/
def MoreReady (s s' : State n C V α) (i : Fin n) : Prop :=
  ∀ j, s'.resumptions j = s.resumptions j + if i = j then 1 else 0

inductive Effect (s : State n C V α) (i : Fin n) (s' : State n C V α) : Prop
  /-- The thread goes on in its phase. -/
  | goes (pc : Pc n C V α) : Moves s i pc s' → s'.flags = s.flags → s'.commits = s.commits → s'.calls = s.calls →
      SameReady s s' → pc.phase (s.call i) = (s.pcs i).phase (s.call i) →
      (∀ br ∈ (s.pcs i).registered, br ∈ pc.registered) → Effect s i s'
  /-- It is to wait from now on. -/
  | starts (pc : Pc n C V α) : Moves s i pc s' → s'.flags = s.flags → s'.commits = s.commits → s'.calls = s.calls →
      SameReady s s' → (s.pcs i).phase (s.call i) = .fresh → pc.phase (s.call i) = .waits ⟨s.call i, false⟩ →
      Effect s i s'
  /-- With nothing registered yet, it takes another flag. -/
  | renews (pc : Pc n C V α) (flg : Flag n) : Moves s i pc s' → s'.flags = s.flags → s'.commits = s.commits →
      s'.calls = s.calls → SameReady s s' → (s.pcs i).phase (s.call i) = .waits flg → (s.pcs i).registered = [] →
      pc.phase (s.call i) = .waits ⟨s.call i, true⟩ → Effect s i s'
  | claims (pc : Pc n C V α) (flg : Flag n) : Moves s i pc s' →
      s'.flags = update s.flags flg .claimed → s'.commits = s.commits → s'.calls = s.calls → SameReady s s' →
      (s.pcs i).phase (s.call i) = .waits flg → s.flags flg = .waiting → pc.phase (s.call i) = .claimed flg →
      Effect s i s'
  /-- It commits its call and that of the item. -/
  | commitsBoth (pc : Pc n C V α) (br : Branch C V α) (item : Item n C V α) : Moves s i pc s' → Around s item →
      s.flags item.flag = .waiting → s'.flags = update s.flags item.flag .synched →
      s'.commits = (item.flag.call, item.branch) ::ₘ (s.call i, br) ::ₘ s.commits → s'.calls = s.calls →
      MoreReady s s' item.flag.call.1 →
      ((s.pcs i).phase (s.call i) = .fresh ∨ ∃ flg, (s.pcs i).phase (s.call i) = .claimed flg) →
      pc.phase (s.call i) = .committed → Effect s i s'
  /-- It commits its call alone, of which nothing is registered. -/
  | commits (pc : Pc n C V α) (br : Branch C V α) : Moves s i pc s' → s'.flags = s.flags →
      s'.commits = (s.call i, br) ::ₘ s.commits → s'.calls = s.calls → SameReady s s' →
      ((s.pcs i).phase (s.call i) = .fresh ∨
        (∃ flg, (s.pcs i).phase (s.call i) = .waits flg) ∧ (s.pcs i).registered = []) →
      pc.phase (s.call i) = .committed → Effect s i s'
  /-- It commits the call of the item. -/
  | wakes (pc : Pc n C V α) (item : Item n C V α) : Moves s i pc s' → Around s item → s.flags item.flag = .waiting →
      s'.flags = update s.flags item.flag .synched →
      s'.commits = (item.flag.call, item.branch) ::ₘ s.commits → s'.calls = s.calls →
      MoreReady s s' item.flag.call.1 → (s.pcs i).phase (s.call i) = .fresh → pc.phase (s.call i) = .fresh →
      Effect s i s'
  | resumes (pc : Pc n C V α) (flg : Flag n) : Moves s i pc s' → s'.flags = s.flags → s'.commits = s.commits →
      s'.calls = s.calls → MoreReady s' s i → (s.pcs i).phase (s.call i) = .waits flg →
      pc.phase (s.call i) = .committed → Effect s i s'
  | returns : Moves s i .idle s' → s'.flags = s.flags → s'.commits = s.commits →
      s'.calls = update s.calls i (s.calls i + 1) → SameReady s s' →
      (s.pcs i).phase (s.call i) = .committed → Effect s i s'

/-- The queues and the lists are left as they are. -/
theorem around_same (hpcs : s'.pcs = update s.pcs i pc) (hq : s'.queue = s.queue)
    (hw : s'.waiting = s.waiting) (hhand : ∀ item ∈ pc.hand, item ∈ (s.pcs i).hand) (hitem : Around s' item) :
    Around s item := by
  unfold Around at hitem ⊢
  rw [hq, hw, hpcs] at hitem
  grind

theorem Moves.of_same (hpcs : s'.pcs = update s.pcs i pc) (hq : s'.queue = s.queue)
    (hw : s'.waiting = s.waiting) (hhand : ∀ item ∈ pc.hand, item ∈ (s.pcs i).hand) : Moves s i pc s' :=
  ⟨hpcs, fun _ hitem => .inl (around_same hpcs hq hw hhand hitem)⟩

theorem SameReady.of_same (hpcs : s'.pcs = update s.pcs i pc) (hready : s'.ready = s.ready)
    (howes : ∀ j, pc.owes j = (s.pcs i).owes j) : SameReady s s' := by
  intro j
  have hsum := sum_update s.pcs (Pc.owes j) i pc
  unfold State.resumptions
  rw [hready, hpcs]
  have := howes j
  omega

theorem mem_dequeueMatch {flg : Flag n} {l l' : List (Item n C V α)} (h : dequeueMatch flg l = some (item, l')) :
    (∀ x, x ∈ l ↔ x = item ∨ x ∈ l') ∧ item.flag ≠ flg := by
  induction l generalizing l' with
  | nil => cases h
  | cons y l ih =>
    rw [dequeueMatch] at h
    by_cases hy : flg ≠ y.flag
    · rw [if_pos hy] at h
      cases h
      exact ⟨fun x => List.mem_cons, hy.symm⟩
    · rw [if_neg hy] at h
      obtain ⟨⟨item', l''⟩, hl'', he⟩ := Option.map_eq_some_iff.mp h
      grind

theorem mem_dequeue {m : Mode n C V α} {l l' : List (Item n C V α)} (h : m.dequeue l = some (item, l')) :
    ∀ x, x ∈ l ↔ x = item ∨ x ∈ l' := by
  have hfirst : ∀ {l : List (Item n C V α)}, dequeue l = some (item, l') → ∀ x, x ∈ l ↔ x = item ∨ x ∈ l' := by
    intro l h
    cases l with
    | nil => cases h
    | cons y l =>
      cases h
      exact fun x => List.mem_cons
  cases m with
  | plain | poll => exact hfirst h
  | block flg done todo => exact (mem_dequeueMatch h).1

theorem MoreReady.of_owes (hpcs : s'.pcs = update s.pcs i pc) (hready : s'.ready = s.ready)
    (howes : ∀ k, pc.owes k = (s.pcs i).owes k + if j = k then 1 else 0) : MoreReady s s' j := by
  intro k
  have hsum := sum_update s.pcs (Pc.owes k) i pc
  unfold State.resumptions
  rw [hready, hpcs]
  have hk := howes k
  omega

/-- A resumption that the thread owes is enqueued. -/
theorem SameReady.enqueueReady {r : Result n C V α}
    (howes : ∀ j, (s.pcs i).owes j = if item.flag.call.1 = j then 1 else 0) (hpc : ∀ j, pc.owes j = 0) : SameReady s ((s.enqueueReady item r).goto i pc) := by
  intro j
  have hsum := sum_update s.pcs (Pc.owes j) i pc
  have hcount : (((s.enqueueReady item r).goto i pc).ready.map fun r => r.1.call.1).count j =
      (s.ready.map fun r => r.1.call.1).count j + if item.flag.call.1 = j then 1 else 0 := by
    show (((item.flag, item.branch, r) ::ₘ s.ready).map fun r => r.1.call.1).count j = _
    rw [map_cons, count_cons]
    simp only [eq_comm]
  rw [howes, hpc] at hsum
  unfold State.resumptions
  rw [hcount]
  show _ + (∑ k, (update s.pcs i pc k).owes j) = _
  omega

theorem around_hand (h : item ∈ (s.pcs i).hand) : Around s item := .inr (.inr ⟨i, h⟩)

def Pc.rollsBack : Pc n C V α → Bool
  | .rollBack _ _ _ _ _ _ _ => true
  | _ => false

/-- The thread is not about to write its partner's flag back. -/
def NoRollBack (s : State n C V α) (i : Fin n) : Prop := (s.pcs i).rollsBack = false

/-- The block function of `waitEvt` is about to register or to go on, where the choice has one branch or, if it goes on,
    no branch before. -/
def WaitsAlone (s : State n C V α) (i : Fin n) : Prop := match s.pcs i with
  | .waitTrue (.block _ done _) _ _ => done = []
  | .waitPush (.block _ done todo) _ _ => done = [] ∧ todo = []
  | _ => True


section

variable [DecidableEq C] [DecidableEq V]

omit [DecidableEq V] in
theorem update_side {β : Type} (f : C → Side → β) (ch ch' : C) (d d' : Side) (x : β) :
    update f ch (update (f ch) d x) ch' d' = if ch' = ch ∧ d' = d then x else f ch' d' := by
  by_cases hch : ch' = ch
  · subst hch
    rw [update_self]
    by_cases hd : d' = d
    · rw [hd, update_self, if_pos ⟨rfl, rfl⟩]
    · rw [update_of_ne hd, if_neg fun h => hd h.2]
  · rw [update_of_ne hch, if_neg fun h => hch h.1]

omit [DecidableEq V] in
theorem queue_setQueue (s : State n C V α) (ch ch' : C) (d d' : Side) (l : List (Item n C V α)) :
    (s.setQueue ch d l).queue ch' d' = if ch' = ch ∧ d' = d then l else s.queue ch' d' :=
  update_side s.queue ch ch' d d' l

omit [DecidableEq C] in
theorem waiting_setWaiting (s : State n C V α) (cv cv' : V) (l : List (Item n C V α)) :
    (s.setWaiting cv l).waiting cv' = if cv' = cv then l else s.waiting cv' := by
  show update s.waiting cv l cv' = _
  by_cases hcv : cv' = cv
  · rw [hcv, update_self, if_pos rfl]
  · rw [update_of_ne hcv, if_neg hcv]

omit [DecidableEq V] in
/-- One queue changes. -/
theorem Moves.of_queue {ch : C} {d : Side} {l : List (Item n C V α)} (hpcs : s'.pcs = update s.pcs i pc)
    (hq : s'.queue = (s.setQueue ch d l).queue) (hw : s'.waiting = s.waiting)
    (hl : ∀ item ∈ l, Around s item ∨ pc.phase (s.call i) = .waits item.flag ∧ item.branch ∈ pc.registered)
    (hhand : ∀ item ∈ pc.hand, Around s item) : Moves s i pc s' := by
  refine ⟨hpcs, fun item hitem => ?_⟩
  unfold Around at hitem
  rw [hq, hw, hpcs] at hitem
  rcases hitem with ⟨ch', d', hitem⟩ | hitem | ⟨j, hitem⟩
  · rw [queue_setQueue] at hitem
    split at hitem
    · exact hl item hitem
    · exact .inl (.inl ⟨ch', d', hitem⟩)
  · exact .inl (.inr (.inl hitem))
  · by_cases hj : j = i
    · rw [hj, update_self] at hitem
      exact .inl (hhand item hitem)
    · rw [update_of_ne hj] at hitem
      exact .inl (.inr (.inr ⟨j, hitem⟩))

omit [DecidableEq C] in
/-- One list of waiters changes. -/
theorem Moves.of_waiting {cv : V} {l : List (Item n C V α)} (hpcs : s'.pcs = update s.pcs i pc)
    (hq : s'.queue = s.queue) (hw : s'.waiting = (s.setWaiting cv l).waiting)
    (hl : ∀ item ∈ l, Around s item ∨ pc.phase (s.call i) = .waits item.flag ∧ item.branch ∈ pc.registered)
    (hhand : ∀ item ∈ pc.hand, Around s item) : Moves s i pc s' := by
  refine ⟨hpcs, fun item hitem => ?_⟩
  unfold Around at hitem
  rw [hq, hw, hpcs] at hitem
  rcases hitem with hitem | ⟨cv', hitem⟩ | ⟨j, hitem⟩
  · exact .inl (.inl hitem)
  · rw [waiting_setWaiting] at hitem
    split at hitem
    · exact hl item hitem
    · exact .inl (.inr (.inl ⟨cv', hitem⟩))
  · by_cases hj : j = i
    · rw [hj, update_self] at hitem
      exact .inl (hhand item hitem)
    · rw [update_of_ne hj] at hitem
      exact .inl (.inr (.inr ⟨j, hitem⟩))

theorem Act.effect (hback : NoRollBack s i) (hwait : WaitsAlone s i) (ha : Act s i s') : Effect s i s' := by
  cases ha with
  | call _ hpc | sync _ hpc | pollFn hpc | polled hpc | doChan hpc | wait _ hpc | waitState hpc _ | signal _ hpc
  | signalLock hpc _ | signalState hpc | noneUnlock hpc | doNone hpc _ | signalNil hpc =>
    exact .goes _ (.of_same rfl rfl rfl nofun) rfl rfl rfl (.of_same rfl rfl fun _ => by rw [hpc]; rfl)
      (by rw [hpc]; rfl) (by rw [hpc]; nofun)
  | blockChan hpc | blockWait hpc | blockDone hpc | stop hpc | lock hpc _ | derefSynched hpc _ | casSynched hpc _ _
  | pushUnlock hpc | dequeueNone hpc _ | waitLock hpc _ | caseTrue hpc _ | caseFalse hpc _ | waitUnlock hpc =>
    exact .goes _ (.of_same rfl rfl rfl nofun) rfl rfl rfl (.of_same rfl rfl fun _ => by rw [hpc]; rfl)
      (by rw [hpc]; rfl) (by rw [hpc]; exact fun _ h => h)
  | deref hpc _ | claimedFail hpc _ | matchUnlock hpc | signalUnlock hpc =>
    exact .goes _ (.of_same rfl rfl rfl (by rw [hpc]; exact fun _ h => h)) rfl rfl rfl
      (.of_same rfl rfl fun _ => by rw [hpc]; rfl) (by rw [hpc]; rfl) (by rw [hpc]; exact fun _ h => h)
  | signalSkip hpc _ =>
    exact .goes _ (.of_same rfl rfl rfl (by rw [hpc]; exact fun _ h => List.mem_cons_of_mem _ h)) rfl rfl rfl
      (.of_same rfl rfl fun _ => by rw [hpc]; rfl) (by rw [hpc]; rfl) (by rw [hpc]; nofun)
  | claimFail hpc _ =>
    exact .goes _ (.of_same rfl rfl rfl (by rw [hpc]; exact fun _ h => h)) rfl rfl rfl
      (.of_same rfl rfl fun _ => by rw [hpc]; rfl) (by rw [hpc]; rfl)
      (by rw [hpc]; exact fun _ h => List.mem_append_left _ h)
  | @dequeue m op b item l hpc hl =>
    have hmem := mem_dequeue hl
    refine .goes _ (.of_queue rfl rfl rfl (fun x hx => .inl (.inl ⟨_, _, (hmem x).mpr (.inr hx)⟩)) fun x hx => ?_) rfl
      rfl rfl (.of_same rfl rfl fun _ => by rw [hpc]; rfl) (by rw [hpc]; rfl) (by rw [hpc]; exact fun _ h => h)
    exact .inl ⟨_, _, (hmem x).mpr (.inl (List.mem_singleton.mp hx))⟩
  | @push flg evt op item hpc =>
    refine .goes _ (.of_queue rfl rfl rfl (fun x hx => .inl ?_) nofun) rfl rfl rfl
      (.of_same rfl rfl fun _ => by rw [hpc]; rfl) (by rw [hpc]; rfl) (by rw [hpc]; exact fun _ h => h)
    rcases List.mem_cons.mp hx with rfl | hx
    · exact around_hand (i := i) (by rw [hpc]; exact List.mem_cons_self)
    · exact .inl ⟨_, _, hx⟩
  | @signalWaiting cv hpc =>
    exact .goes _ (.of_waiting rfl rfl rfl nofun fun x hx => .inr (.inl ⟨cv, hx⟩)) rfl rfl rfl
      (.of_same rfl rfl fun _ => by rw [hpc]; rfl) (by rw [hpc]; rfl) (by rw [hpc]; nofun)
  | blockThd hpc =>
    exact .starts _ (.of_same rfl rfl rfl nofun) rfl rfl rfl (.of_same rfl rfl fun _ => by rw [hpc]; rfl)
      (by rw [hpc]; rfl) rfl
  | @enqueue m op b hpc =>
    have hmoves : Moves s i (.enqueueUnlock m op b)
        ((s.enqueue op.ch op.side ⟨m.flag (s.call i), (.chan op, b)⟩).goto i (.enqueueUnlock m op b)) := by
      refine .of_queue rfl rfl rfl (fun x hx => ?_) nofun
      rcases List.mem_append.mp hx with hx | hx
      · exact .inl (.inl ⟨_, _, hx⟩)
      · obtain rfl := List.mem_singleton.mp hx
        exact .inr ⟨rfl, List.mem_append_right _ List.mem_cons_self⟩
    cases m with
    | plain =>
      exact .starts _ hmoves rfl rfl rfl (.of_same rfl rfl fun _ => by rw [hpc]; rfl) (by rw [hpc]; rfl) rfl
    | block flg done todo =>
      exact .goes _ hmoves rfl rfl rfl (.of_same rfl rfl fun _ => by rw [hpc]; rfl) (by rw [hpc]; rfl)
        (by rw [hpc]; exact fun _ h => List.mem_append_left _ h)
  | @enqueueUnlock m op b hpc =>
    cases m with
    | plain | block _ _ _ =>
      exact .goes _ (.of_same rfl rfl rfl nofun) rfl rfl rfl (.of_same rfl rfl fun _ => by rw [hpc]; rfl)
        (by rw [hpc]; rfl) (by rw [hpc]; exact fun _ h => h)
  | @claim flg done todo op b item hpc hflg =>
    exact .claims _ flg (.of_same rfl rfl rfl (by rw [hpc]; exact fun _ h => h)) rfl rfl rfl
      (.of_same rfl rfl fun _ => by rw [hpc]; rfl) (by rw [hpc]; rfl) hflg rfl
  | @casWaiting m op b item hpc hm hflag =>
    refine .commitsBoth _ (.chan op, b) item (.of_same rfl rfl rfl nofun)
      (around_hand (i := i) (by rw [hpc]; exact List.mem_cons_self)) hflag rfl rfl rfl
      (.of_owes rfl rfl fun _ => by rw [hpc]; exact (Nat.zero_add _).symm) (.inl ?_) rfl
    rw [hpc]
    cases m with
    | plain | poll _ _ => rfl
    | block flg done todo => exact absurd rfl (hm flg done todo)
  | @claimedWaiting flg done todo op b item hpc hflag =>
    exact .commitsBoth _ (.chan op, b) item (.of_same rfl rfl rfl nofun)
      (around_hand (i := i) (by rw [hpc]; exact List.mem_cons_self)) hflag rfl rfl rfl
      (.of_owes rfl rfl fun _ => by rw [hpc]; exact (Nat.zero_add _).symm) (.inr ⟨flg, by rw [hpc]; rfl⟩) rfl
  | rollBack hpc =>
    rw [NoRollBack, hpc] at hback
    cases hback
  | handOver hpc =>
    exact .goes _ (.of_same rfl rfl rfl nofun) rfl rfl rfl (.enqueueReady (fun _ => by rw [hpc]; rfl) fun _ => rfl) (by rw [hpc]; rfl)
      (by rw [hpc]; nofun)
  | signalReady hpc =>
    exact .goes _ (.of_same rfl rfl rfl (by rw [hpc]; exact fun _ h => h)) rfl rfl rfl
      (.enqueueReady (fun _ => by rw [hpc]; rfl) fun _ => rfl) (by rw [hpc]; rfl) (by rw [hpc]; nofun)
  | doWait hpc | waitDone hpc _ =>
    exact .commits _ _ (.of_same rfl rfl rfl nofun) rfl rfl rfl (.of_same rfl rfl fun _ => by rw [hpc]; rfl)
      (.inl (by rw [hpc]; rfl)) rfl
  | @waitTrue m cv b hpc =>
    refine .commits _ (.wait cv, b) (.of_same rfl rfl rfl nofun) rfl rfl rfl
      (.of_same rfl rfl fun _ => by rw [hpc]; rfl) ?_ rfl
    rw [WaitsAlone, hpc] at hwait
    rw [hpc]
    cases m with
    | plain => exact .inl rfl
    | block flg done todo => exact .inr ⟨⟨flg, rfl⟩, hwait⟩
  | @waitPush m cv b hpc =>
    rw [WaitsAlone, hpc] at hwait
    have hmoves : Moves s i (.waitUnlock (m.waitFlag (s.call i)) (m.mode.evt (.wait cv, b)) cv)
        ((s.setWaiting cv (⟨m.waitFlag (s.call i), (.wait cv, b)⟩ :: s.waiting cv)).goto i
          (.waitUnlock (m.waitFlag (s.call i)) (m.mode.evt (.wait cv, b)) cv)) := by
      refine .of_waiting rfl rfl rfl (fun x hx => ?_) nofun
      rcases List.mem_cons.mp hx with rfl | hx
      · refine .inr ⟨rfl, ?_⟩
        show (Base.wait cv, b) ∈ m.mode.evt (.wait cv, b)
        cases m with
        | plain => exact List.mem_cons_self
        | block flg done todo => exact List.mem_append_right _ List.mem_cons_self
      · exact .inl (.inr (.inl ⟨cv, hx⟩))
    cases m with
    | plain =>
      exact .starts _ hmoves rfl rfl rfl (.of_same rfl rfl fun _ => by rw [hpc]; rfl) (by rw [hpc]; rfl) rfl
    | block flg done todo =>
      exact .renews _ flg hmoves rfl rfl rfl (.of_same rfl rfl fun _ => by rw [hpc]; rfl) (by rw [hpc]; rfl)
        (by rw [hpc]; exact hwait.1) rfl
  | @signalWake hd tl hpc hflag =>
    exact .wakes _ hd (.of_same rfl rfl rfl (by rw [hpc]; exact fun _ h => List.mem_cons_of_mem _ h))
      (around_hand (i := i) (by rw [hpc]; exact List.mem_cons_self)) hflag rfl rfl rfl
      (.of_owes rfl rfl fun _ => by rw [hpc]; exact (Nat.zero_add _).symm) (by rw [hpc]; rfl) rfl
  | @resume flg flg' evt br r ready hpc hr hi =>
    refine .resumes _ flg (.of_same rfl rfl rfl nofun) rfl rfl rfl (fun j => ?_) (by rw [hpc]; rfl) rfl
    have hsum := sum_update s.pcs (Pc.owes j) i (.ret evt br r)
    rw [hpc] at hsum
    have hzero : (Pc.blocked flg evt : Pc n C V α).owes j = 0 := rfl
    have hzero' : (Pc.ret evt br r : Pc n C V α).owes j = 0 := rfl
    have hcount : (s.ready.map fun r => r.1.call.1).count j =
        (ready.map fun r => r.1.call.1).count j + if i = j then 1 else 0 := by
      rw [hr, map_cons, count_cons, hi]
      simp only [eq_comm]
    unfold State.resumptions
    rw [hcount]
    show _ = (ready.map fun r => r.1.call.1).count j + (∑ k, (update s.pcs i (.ret evt br r) k).owes j) + _
    omega
  | ret hpc =>
    exact .returns (.of_same rfl rfl rfl nofun) rfl rfl rfl (.of_same rfl rfl fun _ => by rw [hpc]; rfl)
      (by rw [hpc]; rfl)

end

/-! ## A call is committed once -/

/-- What the flags of the running call can be. -/
def Phase.Flags (flags : Flag n → Status) (call : Call n) : Phase n → Prop
  | .fresh => ∀ flg, flg.call = call → flags flg = .waiting
  | .waits flg => flg.call = call ∧ flags flg ≠ .claimed ∧ ∀ flg', flg'.call = call → flg' ≠ flg → flags flg' = .waiting
  | .claimed flg => flg.call = call ∧ flags flg = .claimed
  | .committed => True

/-- Whether another thread has committed the call. -/
def Phase.synched (flags : Flag n → Status) : Phase n → Nat
  | .waits flg => if flags flg = .synched then 1 else 0
  | _ => 0

/-- Whether the call is committed. -/
def Phase.commits (flags : Flag n → Status) : Phase n → Nat
  | .committed => 1
  | p => p.synched flags

def State.phase (s : State n C V α) (i : Fin n) : Phase n := (s.pcs i).phase (s.call i)

structure Inv (s : State n C V α) : Prop where
  flags : ∀ i, (s.phase i).Flags s.flags (s.call i)
  /-- A flag that has nothing registered has been committed by nobody. -/
  unregistered : ∀ i flg, s.phase i = .waits flg → (s.pcs i).registered = [] → s.flags flg = .waiting
  count : ∀ i, s.committed (s.call i) = (s.phase i).commits s.flags
  resumptions : ∀ i, s.resumptions i = (s.phase i).synched s.flags
  finished : ∀ call, call.2 < s.calls call.1 → s.committed call ≤ 1
  unused : ∀ flg, s.calls flg.call.1 < flg.call.2 → s.flags flg = .waiting
  future : ∀ call, s.calls call.1 < call.2 → s.committed call = 0
  items : ∀ item, Around s item → s.flags item.flag = .waiting →
    s.phase item.flag.call.1 = .waits item.flag ∧ item.branch ∈ (s.pcs item.flag.call.1).registered

theorem phase_self (hpcs : s'.pcs = update s.pcs i pc) (hcalls : s'.calls = s.calls) :
    s'.phase i = pc.phase (s.call i) := by
  rw [State.phase, hpcs, update_self, State.call, hcalls]
  rfl

theorem phase_of_ne (hpcs : s'.pcs = update s.pcs i pc) (hcalls : s'.calls = s.calls) (hj : j ≠ i) :
    s'.phase j = s.phase j := by
  rw [State.phase, hpcs, update_of_ne hj, State.call, hcalls]
  rfl

theorem call_eq (hcalls : s'.calls = s.calls) (j : Fin n) : s'.call j = s.call j := by
  rw [State.call, hcalls]
  rfl

theorem Phase.Flags.congr {flags : Flag n → Status} (flags' : Flag n → Status) {call : Call n} {p : Phase n}
    (h : p.Flags flags call) (hsame : ∀ flg, flg.call = call → flags' flg = flags flg) :
    p.Flags flags' call ∧ p.synched flags' = p.synched flags ∧ p.commits flags' = p.commits flags := by
  cases p with
  | fresh => exact ⟨fun flg hflg => (hsame flg hflg).trans (h flg hflg), rfl, rfl⟩
  | waits flg =>
    obtain ⟨hcall, hne, hothers⟩ := h
    have hflg := hsame flg hcall
    have hsynched : (Phase.waits flg).synched flags' = (Phase.waits flg).synched flags := by
      rw [Phase.synched, hflg]
      rfl
    exact ⟨⟨hcall, by rw [hflg]; exact hne, fun flg' hc hn => (hsame flg' hc).trans (hothers flg' hc hn)⟩, hsynched,
      hsynched⟩
  | claimed flg => exact ⟨⟨h.1, (hsame flg h.1).trans h.2⟩, rfl, rfl⟩
  | committed => exact ⟨trivial, rfl, rfl⟩

/-- A step of the thread `i` that changes no flags but those of its call, which is committed alone or not at all. -/
theorem Inv.move (h : Inv s) {k : Nat} (hm : Moves s i pc s') (hflags : ∀ flg, flg.call ≠ s.call i → s'.flags flg = s.flags flg)
    (hback : ∀ flg, s'.flags flg = .waiting → s.flags flg = .waiting) (hcalls : s'.calls = s.calls)
    (hcommits : ∀ call, s'.committed call = s.committed call + if call = s.call i then k else 0)
    (hpc : (pc.phase (s.call i)).Flags s'.flags (s.call i))
    (hnone : ∀ flg, pc.phase (s.call i) = .waits flg → pc.registered = [] → s'.flags flg = .waiting)
    (hcount : (pc.phase (s.call i)).commits s'.flags = (s.phase i).commits s.flags + k)
    (hres : ∀ j, s'.resumptions j + (if j = i then (s.phase i).synched s.flags else 0) =
      s.resumptions j + if j = i then (pc.phase (s.call i)).synched s'.flags else 0)
    (hitems : ∀ flg br, s.phase i = .waits flg → s'.flags flg = .waiting → br ∈ (s.pcs i).registered →
      pc.phase (s.call i) = .waits flg ∧ br ∈ pc.registered) : Inv s' := by
  have hself := phase_self hm.pcs hcalls
  have hother := fun {j} => phase_of_ne (j := j) hm.pcs hcalls
  have hcall := call_eq hcalls
  have hcongr : ∀ {j}, j ≠ i → _ := fun {j} hj => (h.flags j).congr s'.flags fun flg hflg =>
    hflags flg fun he => hj (congrArg Prod.fst (hflg.symm.trans he))
  refine ⟨fun j => ?_, fun j flg hj hreg => ?_, fun j => ?_, fun j => ?_, fun call hlt => ?_, fun flg hlt => ?_,
    fun call hlt => ?_, fun item hitem hwait => ?_⟩
  · rw [hcall]
    by_cases hj : j = i
    · rw [hj, hself]
      exact hpc
    · rw [hother hj]
      exact (hcongr hj).1
  · by_cases hji : j = i
    · subst hji
      rw [hself] at hj
      rw [hm.pcs, update_self] at hreg
      exact hnone flg hj hreg
    · rw [hother hji] at hj
      rw [hm.pcs, update_of_ne hji] at hreg
      have hflg := (hcongr hji).1
      have hold := h.flags j
      rw [hj] at hflg hold
      rw [hflags]
      · exact h.unregistered j flg hj hreg
      · intro he
        exact hji (congrArg Prod.fst (hold.1.symm.trans he))
  · rw [hcommits, hcall, h.count]
    by_cases hj : j = i
    · rw [hj, if_pos rfl, hself, hcount]
    · rw [if_neg fun he => hj (congrArg Prod.fst he), hother hj, (hcongr hj).2.2, Nat.add_zero]
  · have hj := hres j
    rw [h.resumptions] at hj
    by_cases hji : j = i
    · subst hji
      rw [if_pos rfl, if_pos rfl] at hj
      rw [hself]
      omega
    · rw [if_neg hji, if_neg hji] at hj
      rw [hother hji, (hcongr hji).2.1]
      exact hj
  · rw [hcalls] at hlt
    rw [hcommits, if_neg]
    · exact h.finished call hlt
    · intro he
      rw [he] at hlt
      exact Nat.lt_irrefl _ hlt
  · rw [hcalls] at hlt
    rw [hflags]
    · exact h.unused flg hlt
    · intro he
      rw [he] at hlt
      exact Nat.lt_irrefl _ hlt
  · rw [hcalls] at hlt
    rw [hcommits, if_neg]
    · exact h.future call hlt
    · intro he
      rw [he] at hlt
      exact Nat.lt_irrefl _ hlt
  · rcases hm.around item hitem with hold | ⟨hphase, hreg⟩
    · obtain ⟨hphase, hreg⟩ := h.items item hold (hback _ hwait)
      by_cases hj : item.flag.call.1 = i
      · rw [hj] at hphase hreg ⊢
        rw [hself, hm.pcs, update_self]
        exact hitems item.flag item.branch hphase hwait hreg
      · rw [hother hj, hm.pcs, update_of_ne hj]
        exact ⟨hphase, hreg⟩
    · have hcur := hpc
      rw [hphase] at hcur
      have hj : item.flag.call.1 = i := by rw [hcur.1]; rfl
      rw [hj, hself, hm.pcs, update_self]
      exact ⟨hphase, hreg⟩

/-- A step that commits the call of an item, and perhaps its own. -/
theorem Inv.wake (h : Inv s) {k : Nat} (hm : Moves s i pc s') (hitem : Around s item)
    (hwait : s.flags item.flag = .waiting) (hflags : s'.flags = update s.flags item.flag .synched)
    (hcalls : s'.calls = s.calls)
    (hcommits : ∀ call, s'.committed call = s.committed call + (if call = s.call i then k else 0) +
      if call = item.flag.call then 1 else 0)
    (hready : MoreReady s s' item.flag.call.1) (hold : ∀ flg, s.phase i ≠ .waits flg)
    (hnew : ∀ flg, pc.phase (s.call i) ≠ .waits flg) (hpc : (pc.phase (s.call i)).Flags s.flags (s.call i))
    (hcount : (pc.phase (s.call i)).commits s.flags = (s.phase i).commits s.flags + k) : Inv s' := by
  obtain ⟨hwaits, hbranch⟩ := h.items item hitem hwait
  have hi : item.flag.call.1 ≠ i := fun he => hold item.flag (he ▸ hwaits)
  have hflag := h.flags item.flag.call.1
  rw [hwaits] at hflag
  obtain ⟨hitemCall, -, hothers⟩ := hflag
  have hself := phase_self hm.pcs hcalls
  have hother := fun {j} => phase_of_ne (j := j) hm.pcs hcalls
  have hcall := call_eq hcalls
  have hsame : ∀ flg, flg ≠ item.flag → s'.flags flg = s.flags flg := fun flg hne => by
    rw [hflags, update_of_ne hne]
  have hsynched : s'.flags item.flag = .synched := by rw [hflags, update_self]
  have hback : ∀ flg, s'.flags flg = .waiting → flg ≠ item.flag ∧ s.flags flg = .waiting := fun flg hflg => by
    by_cases he : flg = item.flag
    · rw [he, hsynched] at hflg
      cases hflg
    · exact ⟨he, (hsame flg he).symm.trans hflg⟩
  -- the flags of the other threads stay as they are
  have hkeep : ∀ {j} {p : Phase n}, j ≠ item.flag.call.1 → p.Flags s.flags (s.call j) → _ := fun {j p} hj hp =>
    hp.congr s'.flags fun flg hflg => hsame flg fun he => hj (by rw [← he, hflg]; rfl)
  have hpc' := hkeep (Ne.symm hi) hpc
  have hzero : ∀ {p : Phase n}, (∀ flg, p ≠ .waits flg) → ∀ flags, p.synched flags = 0 := by
    intro p hp flags
    cases p with
    | waits flg => exact absurd rfl (hp flg)
    | _ => rfl
  have hcur : ∀ {x : Call n}, x = item.flag.call → ¬ x.2 < s.calls x.1 ∧ ¬ s.calls x.1 < x.2 := by
    intro x hx
    rw [hx, hitemCall]
    exact ⟨Nat.lt_irrefl _, Nat.lt_irrefl _⟩
  refine ⟨fun j => ?_, fun j flg hj hreg => ?_, fun j => ?_, fun j => ?_, fun call hlt => ?_, fun flg hlt => ?_,
    fun call hlt => ?_, fun x hx hxwait => ?_⟩
  · rw [hcall]
    by_cases hj : j = i
    · rw [hj, hself]
      exact hpc'.1
    · rw [hother hj]
      by_cases hji : j = item.flag.call.1
      · rw [hji, hwaits]
        refine ⟨hitemCall, by rw [hsynched]; nofun, fun flg hc hne => ?_⟩
        rw [hsame flg hne]
        exact hothers flg hc hne
      · exact (hkeep hji (h.flags j)).1
  · by_cases hji : j = i
    · subst hji
      rw [hself] at hj
      exact absurd hj (hnew flg)
    · rw [hother hji] at hj
      rw [hm.pcs, update_of_ne hji] at hreg
      by_cases hje : j = item.flag.call.1
      · rw [hje] at hreg
        rw [hreg] at hbranch
        cases hbranch
      · have hflg := h.flags j
        rw [hj] at hflg
        rw [hsame flg fun he => hje (by rw [← he, hflg.1]; rfl)]
        exact h.unregistered j flg hj hreg
  · rw [hcommits, hcall, h.count]
    by_cases hj : j = i
    · rw [hj, if_pos rfl, if_neg fun he => hi (congrArg Prod.fst he).symm, hself, hpc'.2.2, hcount,
        Nat.add_zero]
    · rw [if_neg fun he => hj (congrArg Prod.fst he), hother hj]
      by_cases hje : j = item.flag.call.1
      · rw [hje, if_pos hitemCall.symm, hwaits]
        show (if s.flags item.flag = .synched then 1 else 0) + 0 + 1 = if s'.flags item.flag = .synched then 1 else 0
        rw [hwait, hsynched]
        rfl
      · rw [if_neg fun he => hje (congrArg Prod.fst he), (hkeep hje (h.flags j)).2.2, Nat.add_zero]
  · rw [hready j, h.resumptions]
    by_cases hj : j = i
    · rw [hj, if_neg hi, hself, hzero hold, hzero hnew]
    · rw [hother hj]
      by_cases hje : j = item.flag.call.1
      · rw [hje, if_pos rfl, hwaits]
        show (if s.flags item.flag = .synched then 1 else 0) + 1 = if s'.flags item.flag = .synched then 1 else 0
        rw [hwait, hsynched]
        rfl
      · rw [if_neg (Ne.symm hje), (hkeep hje (h.flags j)).2.1, Nat.add_zero]
  · rw [hcalls] at hlt
    rw [hcommits, if_neg, if_neg fun he => (hcur he).1 hlt]
    · exact h.finished call hlt
    · intro he
      rw [he] at hlt
      exact Nat.lt_irrefl _ hlt
  · rw [hcalls] at hlt
    rw [hsame flg fun he => (hcur (congrArg Flag.call he)).2 hlt]
    exact h.unused flg hlt
  · rw [hcalls] at hlt
    rw [hcommits, if_neg, if_neg fun he => (hcur he).2 hlt]
    · exact h.future call hlt
    · intro he
      rw [he] at hlt
      exact Nat.lt_irrefl _ hlt
  · obtain ⟨hne, hxold⟩ := hback _ hxwait
    rcases hm.around x hx with hold' | ⟨hphase, -⟩
    · obtain ⟨hphase, hreg⟩ := h.items x hold' hxold
      have hj : x.flag.call.1 ≠ i := fun he => hold x.flag (he ▸ hphase)
      rw [hother hj, hm.pcs, update_of_ne hj]
      exact ⟨hphase, hreg⟩
    · exact absurd hphase (hnew x.flag)

/-- The thread returns, and its next call is fresh. -/
theorem Inv.ret (h : Inv s) (hm : Moves s i .idle s') (hflags : s'.flags = s.flags) (hcommits : s'.commits = s.commits)
    (hcalls : s'.calls = update s.calls i (s.calls i + 1)) (hready : SameReady s s')
    (hold : s.phase i = .committed) : Inv s' := by
  have hcallsOf : ∀ j, j ≠ i → s'.calls j = s.calls j := fun j hj => by rw [hcalls, update_of_ne hj]
  have hcallsSelf : s'.calls i = s.calls i + 1 := by rw [hcalls, update_self]
  have hself : s'.phase i = .fresh := by
    rw [State.phase, hm.pcs, update_self]
    rfl
  have hcall : ∀ j, j ≠ i → s'.call j = s.call j := fun j hj => by rw [State.call, hcallsOf j hj]; rfl
  have hother : ∀ j, j ≠ i → s'.phase j = s.phase j := fun j hj => by
    rw [State.phase, hm.pcs, update_of_ne hj, hcall j hj]
    rfl
  have hcommitted : ∀ call, s'.committed call = s.committed call := fun call => by
    rw [State.committed, hcommits]
    rfl
  refine ⟨fun j => ?_, fun j flg hj hreg => ?_, fun j => ?_, fun j => ?_, fun call hlt => ?_, fun flg hlt => ?_,
    fun call hlt => ?_, fun item hitem hwait => ?_⟩
  · by_cases hj : j = i
    · rw [hj, hself, hflags]
      intro flg hflg
      refine h.unused flg ?_
      rw [hflg]
      show s.calls i < s'.calls i
      rw [hcallsSelf]
      exact Nat.lt_succ_self _
    · rw [hother j hj, hflags, hcall j hj]
      exact h.flags j
  · by_cases hji : j = i
    · subst hji
      rw [hself] at hj
      cases hj
    · rw [hother j hji] at hj
      rw [hm.pcs, update_of_ne hji] at hreg
      rw [hflags]
      exact h.unregistered j flg hj hreg
  · rw [hcommitted, hflags]
    by_cases hj : j = i
    · rw [hj, hself]
      refine h.future _ ?_
      show s.calls i < s'.calls i
      rw [hcallsSelf]
      exact Nat.lt_succ_self _
    · rw [hother j hj, hcall j hj]
      exact h.count j
  · rw [hready j, h.resumptions, hflags]
    by_cases hj : j = i
    · rw [hj, hself, hold]
      rfl
    · rw [hother j hj]
  · rw [hcommitted]
    by_cases hj : call.1 = i
    · rw [hj, hcallsSelf] at hlt
      rcases Nat.lt_succ_iff_lt_or_eq.mp hlt with hlt | heq
      · exact h.finished call (by rw [hj]; exact hlt)
      · have hc : call = s.call i := Prod.ext hj heq
        rw [hc, h.count, hold]
        exact Nat.le_refl _
    · rw [hcallsOf _ hj] at hlt
      exact h.finished call hlt
  · rw [hflags]
    refine h.unused flg ?_
    by_cases hj : flg.call.1 = i
    · rw [hj, hcallsSelf] at hlt
      rw [hj]
      exact Nat.lt_of_succ_lt hlt
    · rw [hcallsOf _ hj] at hlt
      exact hlt
  · rw [hcommitted]
    refine h.future call ?_
    by_cases hj : call.1 = i
    · rw [hj, hcallsSelf] at hlt
      rw [hj]
      exact Nat.lt_of_succ_lt hlt
    · rw [hcallsOf _ hj] at hlt
      exact hlt
  · rw [hflags] at hwait
    rcases hm.around item hitem with hitem | ⟨hphase, -⟩
    · obtain ⟨hphase, hreg⟩ := h.items item hitem hwait
      have hj : item.flag.call.1 ≠ i := fun he => by
        rw [he, hold] at hphase
        cases hphase
      rw [hother _ hj, hm.pcs, update_of_ne hj]
      exact ⟨hphase, hreg⟩
    · cases hphase

theorem committed_same (hcommits : s'.commits = s.commits) (call c : Call n) :
    s'.committed call = s.committed call + if call = c then 0 else 0 := by
  rw [State.committed, hcommits, ite_self]
  rfl

theorem committed_cons {c : Call n} {br : Branch C V α} (hcommits : s'.commits = (c, br) ::ₘ s.commits) (call : Call n) :
    s'.committed call = s.committed call + if call = c then 1 else 0 := by
  rw [State.committed, hcommits, map_cons, count_cons]
  rfl

theorem Effect.inv (h : Inv s) (he : Effect s i s') : Inv s' := by
  have hflagsi := h.flags i
  cases he with
  | goes pc hm hflags hcommits hcalls hready hphase hreg =>
    have hphase' : pc.phase (s.call i) = s.phase i := hphase
    refine h.move (k := 0) hm (fun flg _ => by rw [hflags]) (fun flg hf => by rw [← hflags]; exact hf) hcalls
      (fun call => committed_same hcommits call _) (by rw [hphase', hflags]; exact hflagsi) (fun flg hw hr => ?_)
      (by rw [hphase', hflags, Nat.add_zero]) (fun j => by rw [hready j, hphase', hflags])
      fun flg br hw _ hbr => ⟨by rw [hphase', hw], hreg br hbr⟩
    rw [hflags]
    refine h.unregistered i flg (by rw [← hphase', hw]) (List.eq_nil_iff_forall_not_mem.mpr fun br hbr => ?_)
    have hmem := hreg br hbr
    rw [hr] at hmem
    cases hmem
  | starts pc hm hflags hcommits hcalls hready hold hnew =>
    have hold' : s.phase i = .fresh := hold
    rw [hold'] at hflagsi
    have hwait : s.flags ⟨s.call i, false⟩ = .waiting := hflagsi _ rfl
    have hzero : (Phase.waits ⟨s.call i, false⟩).synched s.flags = 0 := by
      rw [Phase.synched, hwait]
      rfl
    refine h.move (k := 0) hm (fun flg _ => by rw [hflags]) (fun flg hf => by rw [← hflags]; exact hf) hcalls
      (fun call => committed_same hcommits call _) ?_ (fun flg hw _ => ?_) ?_ (fun j => ?_) fun flg br hw => ?_
    · rw [hnew, hflags]
      exact ⟨rfl, by rw [hwait]; nofun, fun flg hc _ => hflagsi flg hc⟩
    · rw [hnew] at hw
      cases hw
      rw [hflags]
      exact hwait
    · rw [hnew, hold', hflags]
      exact hzero
    · rw [hnew, hold', hflags, hready j, hzero]
      rfl
    · rw [hold'] at hw
      cases hw
  | renews pc flg hm hflags hcommits hcalls hready hold hreg hnew =>
    have hold' : s.phase i = .waits flg := hold
    have hwait := h.unregistered i flg hold' hreg
    rw [hold'] at hflagsi
    have hall : ∀ flg', flg'.call = s.call i → s.flags flg' = .waiting := fun flg' hc => by
      by_cases he : flg' = flg
      · rw [he]
        exact hwait
      · exact hflagsi.2.2 flg' hc he
    have hzero : ∀ {flg'}, flg'.call = s.call i → (Phase.waits flg').synched s.flags = 0 := fun {flg'} hc => by
      rw [Phase.synched, hall flg' hc]
      rfl
    refine h.move (k := 0) hm (fun flg _ => by rw [hflags]) (fun flg hf => by rw [← hflags]; exact hf) hcalls
      (fun call => committed_same hcommits call _) ?_ (fun flg' hw _ => ?_) ?_ (fun j => ?_) fun flg' br hw _ hbr => ?_
    · rw [hnew, hflags]
      exact ⟨rfl, by rw [hall _ rfl]; nofun, fun flg hc _ => hall flg hc⟩
    · rw [hnew] at hw
      cases hw
      rw [hflags]
      exact hall _ rfl
    · rw [hnew, hold', hflags]
      exact (hzero rfl).trans (hzero hflagsi.1).symm
    · rw [hnew, hold', hflags, hready j, hzero hflagsi.1, hzero rfl]
    · rw [hreg] at hbr
      cases hbr
  | claims pc flg hm hflags hcommits hcalls hready hold hwait hnew =>
    have hold' : s.phase i = .waits flg := hold
    rw [hold'] at hflagsi
    have hzero : (s.phase i).synched s.flags = 0 := by
      rw [hold', Phase.synched, hwait]
      rfl
    have hclaimed : s'.flags flg = .claimed := by rw [hflags, update_self]
    have hsame : ∀ flg', flg' ≠ flg → s'.flags flg' = s.flags flg' := fun flg' hne => by
      rw [hflags, update_of_ne hne]
    refine h.move (k := 0) hm (fun flg' hne => hsame flg' fun he => hne (he ▸ hflagsi.1)) (fun flg' hf => ?_) hcalls
      (fun call => committed_same hcommits call _) ?_ (fun flg' hw => ?_) ?_ (fun j => ?_) fun flg' br hw hf => ?_
    · rw [← hsame flg' fun he => ?_]
      · exact hf
      · rw [he, hclaimed] at hf
        cases hf
    · rw [hnew]
      exact ⟨hflagsi.1, hclaimed⟩
    · rw [hnew] at hw
      cases hw
    · rw [hnew, hold']
      rw [hold'] at hzero
      exact hzero.symm
    · rw [hnew, hready j, hzero]
      rfl
    · rw [hold'] at hw
      cases hw
      rw [hclaimed] at hf
      cases hf
  | commitsBoth pc br item hm hitem hwait hflags hcommits hcalls hready hold hnew =>
    refine h.wake (k := 1) hm hitem hwait hflags hcalls (fun call => ?_) hready (fun flg hw => ?_)
      (fun flg hw => ?_) (by rw [hnew]; trivial) ?_
    · rw [State.committed, hcommits, map_cons, map_cons, count_cons, count_cons]
      rfl
    · have hw' : (s.pcs i).phase (s.call i) = .waits flg := hw
      simp_all
    · rw [hnew] at hw
      cases hw
    · rw [hnew]
      show 1 = ((s.pcs i).phase (s.call i)).commits s.flags + 1
      rcases hold with hf | ⟨flg', hf⟩ <;> rw [hf] <;> rfl
  | commits pc br hm hflags hcommits hcalls hready hold hnew =>
    have hzero : (s.phase i).synched s.flags = 0 ∧ (s.phase i).commits s.flags = 0 := by
      rcases hold with hf | ⟨⟨flg, hf⟩, hreg⟩
      · have hf' : s.phase i = .fresh := hf
        rw [hf']
        exact ⟨rfl, rfl⟩
      · have hf' : s.phase i = .waits flg := hf
        have hwait := h.unregistered i flg hf' hreg
        have hs : (Phase.waits flg).synched s.flags = 0 := by
          rw [Phase.synched, hwait]
          rfl
        rw [hf']
        exact ⟨hs, hs⟩
    refine h.move (k := 1) hm (fun flg _ => by rw [hflags]) (fun flg hf => by rw [← hflags]; exact hf) hcalls
      (fun call => committed_cons hcommits call) (by rw [hnew]; trivial) (fun flg hw => ?_) ?_ (fun j => ?_)
      fun flg br' hw _ hbr => ?_
    · rw [hnew] at hw
      cases hw
    · rw [hnew, hzero.2]
      rfl
    · rw [hnew, hzero.1, hready j]
      rfl
    · rcases hold with hf | ⟨-, hreg⟩
      · have hf' : s.phase i = .fresh := hf
        rw [hf'] at hw
        cases hw
      · rw [hreg] at hbr
        cases hbr
  | wakes pc item hm hitem hwait hflags hcommits hcalls hready hold hnew =>
    have hold' : s.phase i = .fresh := hold
    rw [hold'] at hflagsi
    refine h.wake (k := 0) hm hitem hwait hflags hcalls (fun call => ?_) hready (fun flg hw => ?_) (fun flg hw => ?_)
      (by rw [hnew]; exact hflagsi) (by rw [hnew, hold', Nat.add_zero])
    · rw [ite_self, Nat.add_zero]
      exact committed_cons hcommits call
    · rw [hold'] at hw
      cases hw
    · rw [hnew] at hw
      cases hw
  | resumes pc flg hm hflags hcommits hcalls hready hold hnew =>
    have hold' : s.phase i = .waits flg := hold
    -- the resumption tells that the flag is synched
    have hone : (s.phase i).synched s.flags = 1 ∧ s.flags flg = .synched := by
      have hpos := hready i
      rw [h.resumptions, if_pos rfl, hold', Phase.synched] at hpos
      rw [hold', Phase.synched]
      by_cases hs : s.flags flg = .synched
      · exact ⟨if_pos hs, hs⟩
      · rw [if_neg hs] at hpos
        omega
    refine h.move (k := 0) hm (fun flg _ => by rw [hflags]) (fun flg hf => by rw [← hflags]; exact hf) hcalls
      (fun call => committed_same hcommits call _) (by rw [hnew]; trivial) (fun flg hw => ?_) ?_ (fun j => ?_)
      fun flg' br hw hf => ?_
    · rw [hnew] at hw
      cases hw
    · rw [hnew]
      have hs := hone.1
      rw [hold'] at hs ⊢
      exact hs.symm
    · rw [hnew, hone.1]
      have hj := hready j
      by_cases hji : j = i
      · rw [if_pos hji, if_pos hji]
        rw [if_pos hji.symm] at hj
        exact hj.symm
      simp [hji, Ne.symm, hj]
    · rw [hold'] at hw
      cases hw
      rw [hflags, hone.2] at hf
      cases hf
  | returns hm hflags hcommits hcalls hready hold => exact h.ret hm hflags hcommits hcalls hready hold

theorem Inv.once (h : Inv s) (call : Call n) : s.committed call ≤ 1 := by
  rcases Nat.lt_trichotomy call.2 (s.calls call.1) with hlt | heq | hlt
  · exact h.finished call hlt
  · have hcall : call = s.call call.1 := Prod.ext rfl heq
    rw [hcall, h.count]
    cases s.phase call.1 with
    | waits flg =>
      show (if s.flags flg = .synched then 1 else 0) ≤ 1
      split
      · exact Nat.le_refl _
      · exact Nat.zero_le _
    | fresh | claimed _ => exact Nat.zero_le _
    | committed => exact Nat.le_refl _
  · rw [h.future call hlt]
    exact Nat.zero_le _

theorem inv_init : Inv (init n C V α) := by
  refine ⟨fun _ _ _ => rfl, nofun, fun _ => rfl, fun j => ?_, fun _ _ => Nat.zero_le _, fun _ _ => rfl,
    fun _ _ => rfl, fun item hitem => ?_⟩
  · show 0 + (∑ _ : Fin n, 0) = 0
    rw [Finset.sum_const_zero]
    rfl
  · rcases hitem with ⟨ch, d, hitem⟩ | ⟨cv, hitem⟩ | ⟨j, hitem⟩ <;> cases hitem

/-- No thread rolls back, and `waitEvt` blocks alone. -/
def Careful (s : State n C V α) (i : Fin n) : Prop := NoRollBack s i ∧ WaitsAlone s i

theorem Run.inv [DecidableEq C] [DecidableEq V] (h : Run Careful s) : Inv s := by
  induction h with
  | refl => exact inv_init
  | tail _ hstep ih =>
    obtain ⟨i, ⟨hback, hwait⟩, ha⟩ := hstep
    exact (ha.effect hback hwait).inv ih

end Manticore.Cml.Event
