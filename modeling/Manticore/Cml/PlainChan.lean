/-
  Manticore.Cml.PlainChan — plain `send` and `recv` (see `Manticore.Cml.Event`).

  The runs in which the threads only send and receive; a channel is used by any number of them.

  - `PlainRun.locked`: the lock is held as the threads' places tell, and one of the two queues is empty.
  - `PlainRun.fifo`: what has been enqueued has been matched, in this order, is in the hands of the holder of the lock
    or is still in the queue, and a flag is synched by the one match of its item.
  - `plain_sound`: these, and that a receive returns a message that was sent, which no other receive obtains.
-/

import Manticore.Cml.EventResults

namespace Manticore.Cml.Event

open Function (update update_self update_of_ne)
open List (mem_append mem_singleton append_assoc mem_append_right nodup_append)

variable {n : Nat} {C V α : Type}

/-! ## The steps -/

def Mode.isPlain : Mode n C V α → Bool
  | .plain => true
  | _ => false

def WaitMode.isPlain : WaitMode n C V α → Bool
  | .plain => true
  | .block _ _ _ => false

/-- The thread is idle, sends or receives. -/
def Pc.plain : Pc n C V α → Bool
  | .idle | .stop _ _ | .blocked _ _ | .ret _ _ _ => true
  | .lock m _ _ | .tryLp m _ _ | .deref m _ _ _ | .matchLp m _ _ _ | .matchUnlock m _ _ _ | .handOver m _ _ _ =>
    m.isPlain
  | .enqueue m _ _ | .enqueueUnlock m _ _ => m.isPlain
  | _ => false

theorem Mode.eq_plain {m : Mode n C V α} (h : m.isPlain = true) : m = .plain := by
  cases m with
  | plain => rfl
  | poll _ _ | block _ _ _ => cases h

theorem WaitMode.eq_plain {m : WaitMode n C V α} (h : m.isPlain = true) : m = .plain := by
  cases m with
  | plain => rfl
  | block _ _ _ => cases h

variable [DecidableEq C] [DecidableEq V]

def PlainStep (s s' : State n C V α) : Prop := ∃ i, Act s i s' ∧ (s'.pcs i).plain = true

def PlainRun (s : State n C V α) : Prop := Relation.ReflTransGen PlainStep (init n C V α) s

/-- The steps of `@chan-send` and `@chan-recv`. -/
inductive PlainAct (s : State n C V α) (i : Fin n) : State n C V α → Prop
  | call (op : ChanOp C α) : s.pcs i = .idle →
      PlainAct s i ((s.begin i [(.chan op, 0)]).goto i (.lock .plain op 0))
  | lock {op : ChanOp C α} {b : Nat} : s.pcs i = .lock .plain op b → s.lock (.inl op.ch) = none →
      PlainAct s i ((s.acquire i (.inl op.ch)).goto i (.tryLp .plain op b))
  | dequeue {op : ChanOp C α} {b : Nat} {item : Item n C V α} {l : List (Item n C V α)} :
      s.pcs i = .tryLp .plain op b → s.queue op.ch op.side.other = item :: l →
      PlainAct s i ((s.setQueue op.ch op.side.other l).goto i (.deref .plain op b item))
  | derefSynched {op : ChanOp C α} {b : Nat} {item : Item n C V α} : s.pcs i = .deref .plain op b item →
      s.flags item.flag = .synched → PlainAct s i (s.goto i (.tryLp .plain op b))
  | deref {op : ChanOp C α} {b : Nat} {item : Item n C V α} : s.pcs i = .deref .plain op b item →
      s.flags item.flag ≠ .synched → PlainAct s i (s.goto i (.matchLp .plain op b item))
  | casWaiting {op : ChanOp C α} {b : Nat} {item : Item n C V α} : s.pcs i = .matchLp .plain op b item →
      s.flags item.flag = .waiting → PlainAct s i ((s.commitMatch i op b item).goto i (.matchUnlock .plain op b item))
  | casSynched {op : ChanOp C α} {b : Nat} {item : Item n C V α} : s.pcs i = .matchLp .plain op b item →
      s.flags item.flag = .synched → PlainAct s i (s.goto i (.tryLp .plain op b))
  | matchUnlock {op : ChanOp C α} {b : Nat} {item : Item n C V α} : s.pcs i = .matchUnlock .plain op b item →
      PlainAct s i ((s.unlock (.inl op.ch)).goto i (.handOver .plain op b item))
  | handOver {op : ChanOp C α} {b : Nat} {item : Item n C V α} : s.pcs i = .handOver .plain op b item →
      PlainAct s i ((s.enqueueReady item (handed (s.call i, (.chan op, b)) op)).goto i
        (.ret [(.chan op, b)] (.chan op, b) (Mode.plain.result op item)))
  | dequeueNone {op : ChanOp C α} {b : Nat} : s.pcs i = .tryLp .plain op b → s.queue op.ch op.side.other = [] →
      PlainAct s i (s.goto i (.enqueue .plain op b))
  | enqueue {op : ChanOp C α} {b : Nat} : s.pcs i = .enqueue .plain op b →
      PlainAct s i ((s.enqueue op.ch op.side ⟨⟨s.call i, false⟩, (.chan op, b)⟩).goto i (.enqueueUnlock .plain op b))
  | enqueueUnlock {op : ChanOp C α} {b : Nat} : s.pcs i = .enqueueUnlock .plain op b →
      PlainAct s i ((s.unlock (.inl op.ch)).goto i (.stop ⟨s.call i, false⟩ [(.chan op, b)]))
  | stop {flg : Flag n} {evt : List (Branch C V α)} : s.pcs i = .stop flg evt →
      PlainAct s i (s.goto i (.blocked flg evt))
  | resume {flg flg' : Flag n} {evt : List (Branch C V α)} {br : Branch C V α} {r : Result n C V α}
      {ready : Multiset (Flag n × Branch C V α × Result n C V α)} : s.pcs i = .blocked flg evt →
      s.ready = (flg', br, r) ::ₘ ready → flg'.call.1 = i → PlainAct s i ({ s with ready }.goto i (.ret evt br r))
  | ret {evt : List (Branch C V α)} {br : Branch C V α} {r : Result n C V α} : s.pcs i = .ret evt br r →
      PlainAct s i ({ s with returned := (s.call i, evt, br, r) ::ₘ s.returned,
                             calls := update s.calls i (s.calls i + 1) }.goto i .idle)

variable {s s' : State n C V α} {i j : Fin n} {pc : Pc n C V α} {item : Item n C V α}

theorem Act.plainAct (ha : Act s i s') (hplain : (s.pcs i).plain = true) (hplain' : (s'.pcs i).plain = true) :
    PlainAct s i s' := by
  cases ha with
  | call op hpc => exact .call op hpc
  | stop hpc => exact .stop hpc
  | resume hpc hr hi => exact .resume hpc hr hi
  | ret hpc => exact .ret hpc
  | lock hpc hl =>
    rw [hpc] at hplain
    obtain rfl := Mode.eq_plain hplain
    exact .lock hpc hl
  | @dequeue m op b item l hpc hl =>
    rw [hpc] at hplain
    obtain rfl := Mode.eq_plain hplain
    refine .dequeue hpc ?_
    cases hq : s.queue op.ch op.side.other with
    | nil =>
      rw [hq] at hl
      cases hl
    | cons item' l' =>
      rw [hq] at hl
      cases hl
      rfl
  | derefSynched hpc hf =>
    rw [hpc] at hplain
    obtain rfl := Mode.eq_plain hplain
    exact .derefSynched hpc hf
  | deref hpc hf =>
    rw [hpc] at hplain
    obtain rfl := Mode.eq_plain hplain
    exact .deref hpc hf
  | casWaiting hpc _ hf =>
    rw [hpc] at hplain
    obtain rfl := Mode.eq_plain hplain
    exact .casWaiting hpc hf
  | casSynched hpc _ hf =>
    rw [hpc] at hplain
    obtain rfl := Mode.eq_plain hplain
    exact .casSynched hpc hf
  | matchUnlock hpc =>
    rw [hpc] at hplain
    obtain rfl := Mode.eq_plain hplain
    exact .matchUnlock hpc
  | handOver hpc =>
    rw [hpc] at hplain
    obtain rfl := Mode.eq_plain hplain
    exact .handOver hpc
  | @dequeueNone m op b hpc hl =>
    rw [goto_self] at hplain'
    obtain rfl := WaitMode.eq_plain hplain'
    refine .dequeueNone hpc ?_
    cases hq : s.queue op.ch op.side.other with
    | nil => rfl
    | cons item l =>
      rw [hq] at hl
      cases hl
  | enqueue hpc =>
    rw [hpc] at hplain
    obtain rfl := WaitMode.eq_plain hplain
    exact .enqueue hpc
  | enqueueUnlock hpc =>
    rw [hpc] at hplain
    obtain rfl := WaitMode.eq_plain hplain
    exact .enqueueUnlock hpc
  | sync _ _ | wait _ _ | signal _ _ =>
    rw [goto_self] at hplain'
    cases hplain'
  | claim hpc _ | claimFail hpc _ | pollFn hpc | polled hpc | doChan hpc | doWait hpc | blockThd hpc
  | blockChan hpc | blockWait hpc | blockDone hpc | claimedWaiting hpc _ | claimedFail hpc _ | rollBack hpc
  | push hpc | pushUnlock hpc | noneUnlock hpc | doNone hpc _ | waitDone hpc _ | waitState hpc _ | waitLock hpc _
  | caseTrue hpc _ | waitTrue hpc | caseFalse hpc _ | waitPush hpc | waitUnlock hpc | signalLock hpc _
  | signalState hpc | signalWaiting hpc | signalUnlock hpc | signalWake hpc _ | signalSkip hpc _ | signalReady hpc
  | signalNil hpc =>
    rw [hpc] at hplain
    cases hplain

theorem Act.pcs_of_ne (ha : Act s i s') (hj : j ≠ i) : s'.pcs j = s.pcs j := by
  cases ha <;> exact goto_of_ne _ hj

theorem PlainRun.plain (h : PlainRun s) (j : Fin n) : (s.pcs j).plain = true := by
  induction h with
  | refl => rfl
  | tail _ hstep ih =>
    obtain ⟨i, ha, hplain⟩ := hstep
    by_cases hj : j = i
    · rw [hj]
      exact hplain
    · rw [ha.pcs_of_ne hj]
      exact ih

/-- What is asked of the other runs holds of these. -/
theorem PlainRun.run (h : PlainRun s) : Run (fun s i => Careful s i ∧ NoWrap s i) s := by
  induction h with
  | refl => exact .refl
  | @tail t _ hr hstep ih =>
    obtain ⟨i, ha, -⟩ := hstep
    have hplain := PlainRun.plain hr i
    refine ih.tail ⟨i, ⟨⟨?_, ?_⟩, ?_⟩, ha⟩
    · cases hpc : t.pcs i <;> rw [hpc] at hplain <;> rw [NoRollBack, hpc] <;> first | rfl | cases hplain
    · rw [WaitsAlone]
      split
      · next hpc =>
        rw [hpc] at hplain
        cases hplain
      · next hpc =>
        rw [hpc] at hplain
        cases hplain
      · trivial
    · cases hpc : t.pcs i with
      | handOver m op b item =>
        rw [hpc] at hplain
        obtain rfl := Mode.eq_plain hplain
        rw [NoWrap, hpc]
        rfl
      | _ =>
        rw [NoWrap, hpc]
        rfl

/-! ## The lock -/

/-- The channel that the thread holds. -/
def Pc.holds : Pc n C V α → Option C
  | .tryLp _ op _ | .deref _ op _ _ | .matchLp _ op _ _ | .matchUnlock _ op _ _ | .enqueue _ op _
  | .enqueueUnlock _ op _ => some op.ch
  | _ => none

structure Locked (s : State n C V α) : Prop where
  lock : ∀ i ch, (s.pcs i).holds = some ch ↔ s.lock (.inl ch) = some i
  /-- The other queue was found empty. -/
  empty : ∀ i m op b, s.pcs i = .enqueue m op b → s.queue op.ch op.side.other = []
  sides : ∀ ch d, s.queue ch d = [] ∨ s.queue ch d.other = []

omit [DecidableEq C] [DecidableEq V] in
theorem Locked.goto (h : Locked s) (hpcs : s'.pcs = update s.pcs i pc)
    (hlock : ∀ j ch, j ≠ i → (s'.lock (.inl ch) = some j ↔ s.lock (.inl ch) = some j))
    (hself : ∀ ch, pc.holds = some ch ↔ s'.lock (.inl ch) = some i)
    (hempty : ∀ m op b, pc = .enqueue m op b → s'.queue op.ch op.side.other = [])
    (hothers : ∀ j ch d, j ≠ i → s.lock (.inl ch) = some j → s.queue ch d = [] → s'.queue ch d = [])
    (hsides : ∀ ch d, s'.queue ch d = [] ∨ s'.queue ch d.other = []) : Locked s' := by
  refine ⟨fun j ch => ?_, fun j m op b hj => ?_, hsides⟩
  · rw [hpcs]
    by_cases hj : j = i
    · rw [hj, update_self]
      exact hself ch
    · rw [update_of_ne hj, hlock j ch hj]
      exact h.lock j ch
  · rw [hpcs] at hj
    by_cases hji : j = i
    · rw [hji, update_self] at hj
      exact hempty m op b hj
    · rw [update_of_ne hji] at hj
      refine hothers j _ _ hji ?_ (h.empty j m op b hj)
      rw [← h.lock, hj]
      rfl

/-- Another thread's locks stay its own when a free one is taken, or one is released. -/
theorem acquire_other {k : C ⊕ V} (hl : s.lock k = none) (hj : j ≠ i) (k' : C ⊕ V) :
    update s.lock k (some i) k' = some j ↔ s.lock k' = some j := by
  by_cases hk : k' = k
  · rw [hk, update_self, hl]
    exact ⟨fun he => absurd (Option.some.inj he).symm hj, nofun⟩
  · rw [update_of_ne hk]

theorem unlock_other {k : C ⊕ V} (hl : s.lock k = some i) (hj : j ≠ i) (k' : C ⊕ V) :
    update s.lock k none k' = some j ↔ s.lock k' = some j := by
  by_cases hk : k' = k
  · rw [hk, update_self, hl]
    exact ⟨nofun, fun he => absurd (Option.some.inj he).symm hj⟩
  · rw [update_of_ne hk]

omit [DecidableEq C] [DecidableEq V] in
/-- The lock stays as it is. -/
theorem Locked.same (h : Locked s) (hpcs : s'.pcs = update s.pcs i pc) (hlock : s'.lock = s.lock)
    (hqueue : s'.queue = s.queue) (hholds : pc.holds = (s.pcs i).holds)
    (hempty : ∀ m op b, pc = .enqueue m op b → s.queue op.ch op.side.other = []) : Locked s' := by
  refine h.goto hpcs (fun j ch _ => by rw [hlock]) (fun ch => by rw [hholds, hlock]; exact h.lock i ch)
    (fun m op b hpc => by rw [hqueue]; exact hempty m op b hpc) (fun j ch d _ _ hq => by rw [hqueue]; exact hq)
    (fun ch d => by rw [hqueue]; exact h.sides ch d)

/-- The thread releases the lock. -/
theorem Locked.release (h : Locked s) {ch : C} (hpcs : s'.pcs = update s.pcs i pc)
    (hlock : s'.lock = update s.lock (.inl ch) none) (hqueue : s'.queue = s.queue)
    (hold : (s.pcs i).holds = some ch) (hholds : pc.holds = none) : Locked s' := by
  have hi := (h.lock i ch).mp hold
  refine h.goto hpcs (fun j ch' hj => by rw [hlock]; exact unlock_other hi hj _) (fun ch' => ?_)
    (fun m op b hpc => ?_) (fun j ch d _ _ hq => by rw [hqueue]; exact hq) (fun ch d => by rw [hqueue]; exact h.sides ch d)
  · rw [hholds, hlock]
    refine ⟨nofun, fun he => ?_⟩
    by_cases hch : ch' = ch
    · rw [hch, update_self] at he
      cases he
    · rw [update_of_ne fun he => hch (Sum.inl.inj he), ← h.lock, hold] at he
      exact absurd (Option.some.inj he).symm hch
  · rw [hpc] at hholds
    cases hholds

omit [DecidableEq V] in
/-- The holder of the lock changes one of the queues of the channel. -/
theorem Locked.setQueue (h : Locked s) {ch : C} {d : Side} {l : List (Item n C V α)}
    (hpcs : s'.pcs = update s.pcs i pc) (hlock : s'.lock = s.lock)
    (hqueue : s'.queue = (s.setQueue ch d l).queue) (hold : (s.pcs i).holds = some ch) (hholds : pc.holds = some ch)
    (hempty : ∀ m op b, pc ≠ .enqueue m op b) (hside : s.queue ch d.other = []) : Locked s' := by
  have hi := (h.lock i ch).mp hold
  refine h.goto hpcs (fun j ch' _ => by rw [hlock]) (fun ch' => ?_) (fun m op b hpc => absurd hpc (hempty m op b))
    (fun j ch' d' hj hl hq => ?_) fun ch' d' => ?_
  · rw [hholds, hlock, ← hold]
    exact h.lock i ch'
  · rw [hqueue, queue_setQueue, if_neg]
    · exact hq
    · intro he
      rw [he.1, hi] at hl
      exact hj (Option.some.inj hl).symm
  · rw [hqueue, queue_setQueue, queue_setQueue]
    by_cases hch : ch' = ch
    · subst hch
      by_cases hd : d' = d
      · subst hd
        refine .inr ?_
        rw [if_neg]
        · exact hside
        · intro he
          have hd := he.2
          cases d' <;> cases hd
      · refine .inl ?_
        have hd' : d' = d.other := by
          cases d' <;> cases d <;> first | rfl | exact absurd rfl hd
        rw [if_neg fun he => hd he.2, hd']
        exact hside
    · rw [if_neg fun he => hch he.1, if_neg fun he => hch he.1]
      exact h.sides ch' d'

theorem PlainAct.locked (h : Locked s) (ha : PlainAct s i s') : Locked s' := by
  cases ha with
  | call _ hpc | derefSynched hpc _ | deref hpc _ | casWaiting hpc _ | casSynched hpc _ | handOver hpc | stop hpc
  | resume hpc _ _ | ret hpc => exact h.same rfl rfl rfl (by rw [hpc]; rfl) nofun
  | @dequeueNone op b hpc hq =>
    refine h.same rfl rfl rfl (by rw [hpc]; rfl) fun m op' b' he => ?_
    cases he
    exact hq
  | matchUnlock hpc | enqueueUnlock hpc => exact h.release rfl rfl rfl (by rw [hpc]; rfl) rfl
  | @lock op b hpc hl =>
    refine h.goto rfl (fun j ch hj => acquire_other hl hj _) (fun ch => ?_) nofun (fun _ _ _ _ _ => id) h.sides
    show some op.ch = some ch ↔ update s.lock (.inl op.ch) (some i) (.inl ch) = some i
    by_cases hch : ch = op.ch
    · rw [hch, update_self]
      exact ⟨fun _ => rfl, fun _ => rfl⟩
    · rw [update_of_ne fun he => hch (Sum.inl.inj he), ← h.lock, hpc]
      exact ⟨fun he => absurd (Option.some.inj he).symm hch, nofun⟩
  | @dequeue op b item l hpc hq =>
    refine h.setQueue rfl rfl rfl (by rw [hpc]; rfl) rfl nofun ?_
    rcases h.sides op.ch op.side.other with hnil | hnil
    · rw [hnil] at hq
      cases hq
    · exact hnil
  | @enqueue op b hpc =>
    exact h.setQueue (d := op.side) rfl rfl rfl (by rw [hpc]; rfl) rfl nofun (h.empty i _ op b hpc)

theorem PlainRun.locked (h : PlainRun s) : Locked s := by
  induction h with
  | refl => exact ⟨fun _ _ => ⟨nofun, nofun⟩, nofun, fun _ _ => .inl rfl⟩
  | tail hr hstep ih =>
    obtain ⟨i, ha, hplain⟩ := hstep
    exact (ha.plainAct (PlainRun.plain hr i) hplain).locked ih

/-! ## First come, first served -/

/-- The item that the holder of the lock has taken from the queue and not matched yet. -/
def Pc.taken (ch : C) (d : Side) : Pc n C V α → List (Item n C V α)
  | .deref _ op _ item | .matchLp _ op _ item => if op.ch = ch ∧ op.side.other = d then [item] else []
  | _ => []

def State.held (s : State n C V α) (ch : C) (d : Side) : List (Item n C V α) := match s.lock (.inl ch) with
  | some i => (s.pcs i).taken ch d
  | none => []

structure Fifo (s : State n C V α) : Prop where
  fifo : ∀ ch d, s.enqueued ch d = s.matched ch d ++ s.held ch d ++ s.queue ch d
  nodup : ∀ ch d, (s.enqueued ch d).Nodup
  on : ∀ ch d, ∀ item ∈ s.enqueued ch d, item.On ch d
  synched : ∀ ch d, ∀ item ∈ s.matched ch d, s.flags item.flag = .synched
  waiting : ∀ ch d, ∀ item ∈ s.held ch d ++ s.queue ch d, s.flags item.flag = .waiting
  /-- The call has one branch. -/
  single : ∀ i, ∀ br ∈ (s.pcs i).evt, ∀ br' ∈ (s.pcs i).evt, br = br'

omit [DecidableEq V] in
theorem held_of {ch : C} (hl : s.lock (.inl ch) = some i) (d : Side) : s.held ch d = (s.pcs i).taken ch d := by
  unfold State.held
  rw [hl]

omit [DecidableEq V] in
theorem held_same {ch : C} {d : Side} (hpcs : s'.pcs = update s.pcs i pc)
    (hlock : ∀ j, j ≠ i → (s'.lock (.inl ch) = some j ↔ s.lock (.inl ch) = some j))
    (hself : (if s'.lock (.inl ch) = some i then pc.taken ch d else []) =
      if s.lock (.inl ch) = some i then (s.pcs i).taken ch d else []) : s'.held ch d = s.held ch d := by
  have hother : ∀ j, j ≠ i → s'.pcs j = s.pcs j := fun j hj => by rw [hpcs, update_of_ne hj]
  have hi : s'.pcs i = pc := by rw [hpcs, update_self]
  unfold State.held
  grind

omit [DecidableEq V] in
/-- The holder of the lock goes on. -/
theorem held_holder (s' : State n C V α) {c : C} (hl : Locked s) (hold : (s.pcs i).holds = some c)
    (hpcs : s'.pcs = update s.pcs i pc) (hlock : s'.lock = s.lock) (ch : C) (d : Side) :
    s'.held ch d = if ch = c then pc.taken c d else s.held ch d := by
  by_cases hch : ch = c
  · rw [if_pos hch, hch, held_of (i := i) (by rw [hlock]; exact (hl.lock i c).mp hold), hpcs, update_self]
  · have hnot : s.lock (.inl ch) ≠ some i := fun he => by
      rw [← hl.lock, hold] at he
      exact hch (Option.some.inj he).symm
    rw [if_neg hch]
    refine held_same hpcs (fun j _ => by rw [hlock]) ?_
    rw [hlock, if_neg hnot, if_neg hnot]

omit [DecidableEq V] in
/-- The items of a call that waits are the same. -/
theorem Fifo.item_eq (hinv : Inv s) (h : Fifo s) {item' : Item n C V α} (hitem : Around s item)
    (hitem' : Around s item') (hwait : s.flags item.flag = .waiting) (hflag : item'.flag = item.flag) : item' = item := by
  obtain ⟨-, hreg⟩ := hinv.items item hitem hwait
  obtain ⟨-, hreg'⟩ := hinv.items item' hitem' (by rw [hflag]; exact hwait)
  rw [hflag] at hreg'
  have hbranch := h.single _ _ (registered_evt hreg') _ (registered_evt hreg)
  cases item
  cases item'
  cases hflag
  cases hbranch
  rfl

omit [DecidableEq V] in
theorem around_held {ch : C} {d : Side} (h : item ∈ s.held ch d ++ s.queue ch d) : Around s item := by
  rcases mem_append.mp h with h | h
  · cases hl : s.lock (.inl ch) with
    | none =>
      rw [State.held, hl] at h
      cases h
    | some k =>
      rw [held_of hl] at h
      refine around_hand (i := k) ?_
      cases hpc : s.pcs k with
      | deref m op b x | matchLp m op b x =>
        rw [hpc, Pc.taken] at h
        by_cases hop : op.ch = ch ∧ op.side.other = d
        · rw [if_pos hop] at h
          exact h
        · rw [if_neg hop] at h
          cases h
      | _ =>
        rw [hpc] at h
        cases h
  · exact .inl ⟨ch, d, h⟩

omit [DecidableEq V] in
/-- A step that neither takes an item nor is done with one. -/
theorem Fifo.same (h : Fifo s) (hpcs : s'.pcs = update s.pcs i pc) (hflags : s'.flags = s.flags)
    (hqueue : s'.queue = s.queue) (henqueued : s'.enqueued = s.enqueued) (hmatched : s'.matched = s.matched)
    (hlock : ∀ j, j ≠ i → ∀ ch, (s'.lock (.inl ch) = some j ↔ s.lock (.inl ch) = some j))
    (htaken : ∀ ch d, (if s'.lock (.inl ch) = some i then pc.taken ch d else []) =
      if s.lock (.inl ch) = some i then (s.pcs i).taken ch d else [])
    (hevt : ∀ br ∈ pc.evt, ∀ br' ∈ pc.evt, br = br') : Fifo s' := by
  have hheld : ∀ ch d, s'.held ch d = s.held ch d := fun ch d => held_same hpcs (fun j hj => hlock j hj ch) (htaken ch d)
  refine ⟨fun ch d => ?_, fun ch d => ?_, fun ch d => ?_, fun ch d => ?_, fun ch d => ?_, fun j => ?_⟩
  · rw [henqueued, hmatched, hheld, hqueue]
    exact h.fifo ch d
  · rw [henqueued]
    exact h.nodup ch d
  · rw [henqueued]
    exact h.on ch d
  · rw [hmatched, hflags]
    exact h.synched ch d
  · rw [hheld, hqueue, hflags]
    exact h.waiting ch d
  · rw [hpcs]
    by_cases hj : j = i
    · rw [hj, update_self]
      exact hevt
    · rw [update_of_ne hj]
      exact h.single j

omit [DecidableEq C] [DecidableEq V] in
theorem Item.On.eq {ch ch' : C} {d d' : Side} (h : item.On ch d) (h' : item.On ch' d') : ch = ch' ∧ d = d' := by
  obtain ⟨op, hop, rfl, rfl⟩ := h
  obtain ⟨op', hop', rfl, rfl⟩ := h'
  rw [hop] at hop'
  cases hop'
  exact ⟨rfl, rfl⟩

theorem PlainAct.fifo (hinv : Inv s) (hl : Locked s) (h : Fifo s) (ha : PlainAct s i s') : Fifo s' := by
  have hsingle := h.single i
  cases ha with
  | call op hpc =>
    refine h.same rfl rfl rfl rfl rfl (fun _ _ _ => Iff.rfl) (fun _ _ => by rw [hpc]; rfl) fun br hbr br' hbr' => ?_
    rw [mem_singleton.mp hbr, mem_singleton.mp hbr']
  | deref hpc _ | dequeueNone hpc _ | handOver hpc | stop hpc | resume hpc _ _ =>
    rw [hpc] at hsingle
    exact h.same rfl rfl rfl rfl rfl (fun _ _ _ => Iff.rfl) (fun _ _ => by rw [hpc]; rfl) hsingle
  | ret hpc => exact h.same rfl rfl rfl rfl rfl (fun _ _ _ => Iff.rfl) (fun _ _ => by rw [hpc]; rfl) nofun
  | lock hpc hfree =>
    rw [hpc] at hsingle
    refine h.same rfl rfl rfl rfl rfl (fun j hj ch => acquire_other hfree hj _) (fun ch d => ?_) hsingle
    rw [hpc]
    exact (ite_self _).trans (ite_self _).symm
  | matchUnlock hpc | enqueueUnlock hpc =>
    have hheld := (hl.lock i _).mp (by rw [hpc]; rfl)
    rw [hpc] at hsingle
    refine h.same rfl rfl rfl rfl rfl (fun j hj ch => unlock_other hheld hj _) (fun ch d => ?_) hsingle
    rw [hpc]
    exact (ite_self _).trans (ite_self _).symm
  | @dequeue op b item l hpc hq =>
    rw [hpc] at hsingle
    have hold : (s.pcs i).holds = some op.ch := by
      rw [hpc]
      rfl
    have hnone : ∀ d, s.held op.ch d = [] := fun d => by
      rw [held_of ((hl.lock i _).mp hold), hpc]
      rfl
    -- the item goes from the queue to the hand of the thread
    have hmoves : ∀ ch d, ((s.setQueue op.ch op.side.other l).goto i (.deref .plain op b item)).held ch d ++
        (s.setQueue op.ch op.side.other l).queue ch d = s.held ch d ++ s.queue ch d := fun ch d => by
      rw [held_holder ((s.setQueue op.ch op.side.other l).goto i (.deref .plain op b item)) hl hold rfl rfl, queue_setQueue]
      by_cases hch : ch = op.ch
      · subst hch
        rw [if_pos rfl, hnone]
        by_cases hd : d = op.side.other
        · rw [hd, if_pos ⟨rfl, rfl⟩, hq]
          show (if op.ch = op.ch ∧ op.side.other = op.side.other then [item] else []) ++ l = item :: l
          rw [if_pos ⟨rfl, rfl⟩]
          rfl
        · rw [if_neg fun he => hd he.2]
          show (if op.ch = op.ch ∧ op.side.other = d then [item] else []) ++ _ = _
          rw [if_neg fun he => hd he.2.symm]
      · rw [if_neg hch, if_neg fun he => hch he.1]
    refine ⟨fun ch d => ?_, h.nodup, h.on, h.synched, fun ch d x hx => ?_, fun j => ?_⟩
    · rw [append_assoc]
      exact (h.fifo ch d).trans ((append_assoc _ _ _).trans (congrArg (s.matched ch d ++ ·) (hmoves ch d).symm))
    · exact h.waiting ch d x (hmoves ch d ▸ hx)
    · by_cases hj : j = i
      · rw [hj, goto_self]
        exact hsingle
      · rw [goto_of_ne _ hj]
        exact h.single j
  | @derefSynched op b item hpc hf | @casSynched op b item hpc hf =>
    have hheld : item ∈ s.held op.ch op.side.other ++ s.queue op.ch op.side.other := by
      rw [held_of ((hl.lock i op.ch).mp (by rw [hpc]; rfl)), hpc, Pc.taken, if_pos ⟨rfl, rfl⟩]
      exact List.mem_cons_self
    have hwait := h.waiting _ _ item hheld
    rw [hf] at hwait
    cases hwait
  | @casWaiting op b item hpc hflag =>
    rw [hpc] at hsingle
    have hold : (s.pcs i).holds = some op.ch := by
      rw [hpc]
      rfl
    have htaken : ∀ d, s.held op.ch d = if op.side.other = d then [item] else [] := fun d => by
      rw [held_of ((hl.lock i _).mp hold), hpc, Pc.taken]
      by_cases hd : op.side.other = d
      · rw [if_pos ⟨rfl, hd⟩, if_pos hd]
      · rw [if_neg fun he => hd he.2, if_neg hd]
    have hitem : item ∈ s.held op.ch op.side.other := by
      rw [htaken, if_pos rfl]
      exact List.mem_cons_self
    have hon := h.on op.ch op.side.other item (by
      rw [h.fifo]
      exact List.mem_append_left _ (mem_append_right _ hitem))
    have hheld' : ∀ ch d, ((s.commitMatch i op b item).goto i (.matchUnlock .plain op b item)).held ch d =
        if ch = op.ch then [] else s.held ch d := held_holder ((s.commitMatch i op b item).goto i _) hl hold rfl rfl
    have hmatched : ∀ ch d, (s.commitMatch i op b item).matched ch d =
        if ch = op.ch ∧ d = op.side.other then s.matched op.ch op.side.other ++ [item] else s.matched ch d :=
      fun ch d => update_side s.matched op.ch ch op.side.other d _
    -- the item goes from the hand of the thread to those that were matched
    have hmoves : ∀ ch d, (s.commitMatch i op b item).matched ch d ++
        ((s.commitMatch i op b item).goto i (.matchUnlock .plain op b item)).held ch d =
          s.matched ch d ++ s.held ch d := fun ch d => by
      rw [hmatched, hheld']
      by_cases hch : ch = op.ch
      · grind
      · rw [if_neg fun he => hch he.1, if_neg hch]
    have hsynched : ∀ y : Item n C V α, s.flags y.flag = .synched ∨ y.flag = item.flag →
        (s.commitMatch i op b item).flags y.flag = .synched := fun y hy => by
      show update s.flags item.flag .synched y.flag = .synched
      by_cases hflg : y.flag = item.flag
      · rw [hflg, update_self]
      · rw [update_of_ne hflg]
        exact hy.resolve_right hflg
    refine ⟨fun ch d => ?_, h.nodup, h.on, fun ch d y hy => ?_, fun ch d y hy => ?_, fun j => ?_⟩
    · exact (h.fifo ch d).trans (congrArg (· ++ s.queue ch d) (hmoves ch d).symm)
    · refine hsynched y ?_
      have hy : y ∈ (s.commitMatch i op b item).matched ch d := hy
      rw [hmatched] at hy
      by_cases hop : ch = op.ch ∧ d = op.side.other
      · rw [if_pos hop] at hy
        rcases mem_append.mp hy with hy | hy
        · exact .inl (h.synched _ _ y hy)
        · exact .inr (congrArg Item.flag (mem_singleton.mp hy))
      · rw [if_neg hop] at hy
        exact .inl (h.synched ch d y hy)
    · have hold' : y ∈ s.held ch d ++ s.queue ch d ∧ (ch = op.ch → y ∈ s.queue ch d) := by
        rcases mem_append.mp hy with hy | hy
        · rw [hheld'] at hy
          by_cases hch : ch = op.ch
          · rw [if_pos hch] at hy
            cases hy
          grind
        · exact ⟨mem_append_right _ hy, fun _ => hy⟩
      have hwait := h.waiting ch d y hold'.1
      have hne : y.flag ≠ item.flag := fun hflg => by
        have hy := h.item_eq hinv (around_held (List.mem_append_left _ hitem)) (around_held hold'.1) hflag hflg
        subst hy
        have hony := h.on ch d y (by
          rw [h.fifo, append_assoc]
          exact mem_append_right _ hold'.1)
        obtain ⟨rfl, rfl⟩ := hony.eq hon
        -- it would be in the queue as well
        have hnodup := h.nodup op.ch op.side.other
        rw [h.fifo, append_assoc] at hnodup
        have hdisj := (nodup_append.mp (nodup_append.mp hnodup).2.1).2.2
        exact hdisj y hitem y (hold'.2 rfl) rfl
      show update s.flags item.flag .synched y.flag = .waiting
      rw [update_of_ne hne]
      exact hwait
    · by_cases hj : j = i
      · rw [hj, goto_self]
        exact hsingle
      · rw [goto_of_ne _ hj]
        exact h.single j
  | @enqueue op b hpc =>
    rw [hpc] at hsingle
    have hold : (s.pcs i).holds = some op.ch := by
      rw [hpc]
      rfl
    have hphase : s.phase i = .fresh := by
      rw [State.phase, hpc]
      rfl
    have hfresh := hinv.flags i
    rw [hphase] at hfresh
    have hwait : s.flags ⟨s.call i, false⟩ = .waiting := hfresh _ rfl
    have hheld : ∀ ch d, ((s.enqueue op.ch op.side ⟨⟨s.call i, false⟩, (.chan op, b)⟩).goto i
        (.enqueueUnlock .plain op b)).held ch d = s.held ch d := fun ch d => by
      rw [held_holder ((s.enqueue op.ch op.side _).goto i (.enqueueUnlock .plain op b)) hl hold rfl rfl]
      by_cases hch : ch = op.ch
      · rw [if_pos hch, hch, held_of ((hl.lock i _).mp hold), hpc]
        rfl
      · rw [if_neg hch]
    -- an item of the call would be one that the thread has registered, or that was matched
    have hnew : ∀ ch d, (⟨⟨s.call i, false⟩, (.chan op, b)⟩ : Item n C V α) ∉ s.enqueued ch d := fun ch d hmem => by
      rw [h.fifo, append_assoc] at hmem
      rcases mem_append.mp hmem with hmem | hmem
      · have hsynched := h.synched ch d _ hmem
        rw [hwait] at hsynched
        cases hsynched
      · have hwaits : s.phase i = _ := (hinv.items _ (around_held hmem) hwait).1
        rw [hphase] at hwaits
        cases hwaits
    have hqueue : ∀ ch d, (s.enqueue op.ch op.side ⟨⟨s.call i, false⟩, (.chan op, b)⟩).queue ch d =
        if ch = op.ch ∧ d = op.side then s.queue op.ch op.side ++ [⟨⟨s.call i, false⟩, (.chan op, b)⟩]
        else s.queue ch d := fun ch d => queue_setQueue s op.ch ch op.side d _
    have henqueued : ∀ ch d, (s.enqueue op.ch op.side ⟨⟨s.call i, false⟩, (.chan op, b)⟩).enqueued ch d =
        if ch = op.ch ∧ d = op.side then s.enqueued op.ch op.side ++ [⟨⟨s.call i, false⟩, (.chan op, b)⟩]
        else s.enqueued ch d := fun ch d => update_side s.enqueued op.ch ch op.side d _
    refine ⟨fun ch d => ?_, fun ch d => ?_, fun ch d y hy => ?_, h.synched, fun ch d y hy => ?_, fun j => ?_⟩
    · show (s.enqueue op.ch op.side _).enqueued ch d = s.matched ch d ++ _ ++ (s.enqueue op.ch op.side _).queue ch d
      rw [hheld, henqueued, hqueue]
      by_cases hop : ch = op.ch ∧ d = op.side
      · rw [if_pos hop, if_pos hop, h.fifo, hop.1, hop.2, append_assoc _ (s.queue op.ch op.side)]
      · rw [if_neg hop, if_neg hop]
        exact h.fifo ch d
    · show ((s.enqueue op.ch op.side _).enqueued ch d).Nodup
      rw [henqueued]
      by_cases hop : ch = op.ch ∧ d = op.side
      · rw [if_pos hop, nodup_append]
        refine ⟨h.nodup _ _, List.nodup_singleton _, fun x hx y hy hxy => ?_⟩
        rw [hxy, mem_singleton.mp hy] at hx
        exact hnew _ _ hx
      · rw [if_neg hop]
        exact h.nodup ch d
    · have hy : y ∈ (s.enqueue op.ch op.side _).enqueued ch d := hy
      rw [henqueued] at hy
      by_cases hop : ch = op.ch ∧ d = op.side
      · rw [if_pos hop] at hy
        rw [hop.1, hop.2]
        rcases mem_append.mp hy with hy | hy
        · exact h.on _ _ y hy
        · rw [mem_singleton.mp hy]
          exact ⟨op, rfl, rfl, rfl⟩
      · rw [if_neg hop] at hy
        exact h.on ch d y hy
    · show s.flags y.flag = .waiting
      rw [hheld] at hy
      rcases mem_append.mp hy with hy | hy
      · exact h.waiting ch d y (List.mem_append_left _ hy)
      · have hy : y ∈ (s.enqueue op.ch op.side _).queue ch d := hy
        rw [hqueue] at hy
        by_cases hop : ch = op.ch ∧ d = op.side
        · rw [if_pos hop] at hy
          rcases mem_append.mp hy with hy | hy
          · exact h.waiting _ _ y (mem_append_right _ hy)
          · rw [mem_singleton.mp hy]
            exact hwait
        · rw [if_neg hop] at hy
          exact h.waiting ch d y (mem_append_right _ hy)
    · by_cases hj : j = i
      · rw [hj, goto_self]
        exact hsingle
      · rw [goto_of_ne _ hj]
        exact h.single j

theorem PlainRun.fifo (h : PlainRun s) : Fifo s := by
  induction h with
  | refl =>
    refine ⟨fun _ _ => ?_, fun _ _ => List.nodup_nil, nofun, nofun, nofun, nofun⟩
    rfl
  | tail hr hstep ih =>
    obtain ⟨i, ha, hplain⟩ := hstep
    have hinv := ((PlainRun.run hr).mono fun _ _ hP => hP.1).inv
    exact (ha.plainAct (PlainRun.plain hr i) hplain).fifo hinv (PlainRun.locked hr) ih

/-! ## Sends and receives -/

/-- What `send` and `recv` promise. -/
structure PlainSound (s : State n C V α) : Prop where
  /-- Of a send one message at most is received, once. -/
  once : ∀ call, ((s.delivered + s.inFlight).map Prod.fst).count call ≤ 1
  /-- A receive that has returned has a message that was sent on the channel. -/
  sent : ∀ call evt ch b r, (call, evt, (.chan (.recv ch), b), r) ∈ s.returned →
    ∃ src msg, r = .msg src ∧ src.2.1 = .chan (.send ch msg) ∧ src ∈ s.begun
  /-- No thread is queued while one is queued on the other side. -/
  apart : ∀ ch d, s.queue ch d = [] ∨ s.queue ch d.other = []
  /-- The threads that wait are served in the order in which they were enqueued. -/
  served : ∀ ch d, s.enqueued ch d = s.matched ch d ++ s.held ch d ++ s.queue ch d ∧ (s.enqueued ch d).Nodup

theorem plain_sound (h : PlainRun s) : PlainSound s := by
  have hcareful : Run Careful s := h.run.mono fun _ _ hP => hP.1
  have hresults : Results s := Run.results (h.run.mono fun _ _ hP => hP.2)
  have hfifo := h.fifo
  refine ⟨h.run.delivered.once hcareful.inv.once, fun call evt ch b r hr => ?_, h.locked.sides,
    fun ch d => ⟨hfifo.fifo ch d, hfifo.nodup ch d⟩⟩
  have hfits := hresults.returned _ hr
  cases r with
  | unit | wrapped => exact hfits.elim
  | msg src =>
    obtain ⟨msg, hmsg⟩ := hfits
    have hsrc : src ∈ s.delivered := Multiset.mem_bind.mpr ⟨_, hr, Multiset.mem_singleton_self src⟩
    have hcommit : src ∈ s.commits := Multiset.mem_of_le hcareful.delivered (Multiset.mem_add.mpr (.inl hsrc))
    exact ⟨src, msg, rfl, hmsg, hcareful.within.commits src hcommit⟩

theorem PlainRun.step (h : PlainRun s) (i : Fin n) (ha : Act s i s') (hplain : (s'.pcs i).plain = true) :
    PlainRun s' := h.tail ⟨i, ha, hplain⟩

/-- A send waits, and a receive that comes later returns its message. -/
theorem plain_sound_recv : ∃ s : State 2 Nat Empty Nat, s.returned.card = 1 ∧ PlainSound s := by
  have h : PlainRun (init 2 Nat Empty Nat) := .refl
  have a := h.step 0 (.call (.send 0 7) rfl) rfl
  have a := a.step 0 (.lock rfl rfl) rfl
  have a := a.step 0 (.dequeueNone (m := .plain) rfl rfl) rfl
  have a := a.step 0 (.enqueue rfl) rfl
  have a := a.step 0 (.enqueueUnlock rfl) rfl
  have b := a.step 1 (.call (.recv 0) rfl) rfl
  have b := b.step 1 (.lock rfl rfl) rfl
  have b := b.step 1 (.dequeue rfl rfl) rfl
  have b := b.step 1 (.deref rfl (by decide)) rfl
  have b := b.step 1 (.casWaiting rfl nofun rfl) rfl
  have b := b.step 1 (.matchUnlock rfl) rfl
  have b := b.step 1 (.handOver rfl) rfl
  have b := b.step 1 (.ret rfl) rfl
  exact ⟨_, rfl, plain_sound b⟩

end Manticore.Cml.Event
