/-
  Manticore.ParallelRt.LandingPad — signals to a vproc that may sleep: `VProcSendSignal`, `VProcWake` and `VProcSleep`
  (`vproc/vproc.c`), `@send-in-atomic` and `@recv-in-atomic` (`runtime/vproc.pml`).

  One vproc receives, any number of vprocs send; a step is one access to the landing pad or to the sleeping flag, or
  one operation of the condition. The landing pad is a list of cells, which are never reused, so a compare-and-swap
  compares lists. The lock of the vproc is taken by nobody else and is left out; a wait may end on its own. The
  preemption that follows `@send-in-atomic` is left out.

  - `Reachable.once`: every signal that is placed is on the landing pad or has been collected, once.
  - `sleep_forever`: the wake-up is lost when the condition is signalled after the sleeper has seen the landing pad
    empty and before it waits.
  - `landing_pad`: it is not lost in any run without such a step.
-/

import Mathlib

namespace Manticore.ParallelRt.LandingPad

open Function (update update_self update_of_ne)

/-- A signal: its sender, and how many that one has sent before. -/
abbrev Signal (n : Nat) := Fin n × Nat

/-- Where a sender is. -/
inductive Sender (n : Nat) where
  | idle
  /-- Before it reads the landing pad. -/
  | load (k : Signal n)
  /-- Before the compare-and-swap. -/
  | cas (k : Signal n) (landingPadOrig : List (Signal n))
  /-- Before it tests the sleeping flag. -/
  | test
  /-- Before `VProcWake`. -/
  | wake

/-- Where the receiver is. -/
inductive Receiver (n : Nat) where
  | running
  /-- Before the first load of `@recv-in-atomic`. -/
  | recv
  /-- Before the load of its loop. -/
  | load
  | cas (ldgPadOrig : List (Signal n))
  /-- In `VProcSleep`, before the flag is set. -/
  | sleep
  /-- Before the test of the landing pad. -/
  | test
  /-- The landing pad was empty. -/
  | wait
  /-- In `CondWait`. -/
  | blocked
  /-- Before the flag is cleared. -/
  | clear

structure State (n : Nat) where
  landingPad : List (Signal n)
  sleeping : Bool
  receiver : Receiver n
  senders : Fin n → Sender n
  /-- How many signals each vproc has begun to send. -/
  sent : Fin n → Nat
  /-- The signals placed on the landing pad, and those that `@recv-in-atomic` has returned. -/
  placed : List (Signal n)
  collected : List (Signal n)

namespace State

variable {n : Nat} (s : State n) (i : Fin n)

def setSender (pc : Sender n) : State n := { s with senders := update s.senders i pc }

def setReceiver (pc : Receiver n) : State n := { s with receiver := pc }

/-- A new signal. -/
def send : State n := { s with sent := update s.sent i (s.sent i + 1) }.setSender i (.load (i, s.sent i))

/-- The cell of the signal `k` goes on the landing pad. -/
def place (k : Signal n) : State n :=
  { s with landingPad := k :: s.landingPad, placed := k :: s.placed }.setSender i .test

/-- `VProcWake`: the signal is lost when nobody waits. -/
def wake : State n :=
  let receiver := match s.receiver with
    | .blocked => .test
    | pc => pc
  { s with receiver }.setSender i .idle

/-- The signals of the landing pad are taken off it. -/
def collect : State n :=
  { s with landingPad := [], collected := s.landingPad ++ s.collected, receiver := .running }

end State

/-- The receiver, a sender, or a sender at the condition. -/
inductive Label (n : Nat) where
  | receiver
  | sender (i : Fin n)
  | signal (i : Fin n)

variable {n : Nat}

inductive Act (s : State n) : Label n → State n → Prop
  | send {i : Fin n} : s.senders i = .idle → Act s (.sender i) (s.send i)
  | load {i : Fin n} {k : Signal n} : s.senders i = .load k → Act s (.sender i) (s.setSender i (.cas k s.landingPad))
  | place {i : Fin n} {k : Signal n} : s.senders i = .cas k s.landingPad → Act s (.sender i) (s.place i k)
  | retry {i : Fin n} {k : Signal n} {orig : List (Signal n)} : s.senders i = .cas k orig → s.landingPad ≠ orig →
      Act s (.sender i) (s.setSender i (.load k))
  | asleep {i : Fin n} : s.senders i = .test → s.sleeping = true → Act s (.sender i) (s.setSender i .wake)
  | awake {i : Fin n} : s.senders i = .test → s.sleeping = false → Act s (.sender i) (s.setSender i .idle)
  | signal {i : Fin n} : s.senders i = .wake → Act s (.signal i) (s.wake i)
  | recv : s.receiver = .running → Act s .receiver (s.setReceiver .recv)
  | recvEmpty : s.receiver = .recv → s.landingPad = [] → Act s .receiver (s.setReceiver .running)
  | recvSome : s.receiver = .recv → s.landingPad ≠ [] → Act s .receiver (s.setReceiver .load)
  | recvLoad : s.receiver = .load → Act s .receiver (s.setReceiver (.cas s.landingPad))
  | collect : s.receiver = .cas s.landingPad → Act s .receiver s.collect
  | recvRetry {orig : List (Signal n)} : s.receiver = .cas orig → s.landingPad ≠ orig →
      Act s .receiver (s.setReceiver .load)
  | sleep : s.receiver = .running → Act s .receiver (s.setReceiver .sleep)
  | setFlag : s.receiver = .sleep → Act s .receiver ({ s with sleeping := true }.setReceiver .test)
  | testEmpty : s.receiver = .test → s.landingPad = [] → Act s .receiver (s.setReceiver .wait)
  | testSome : s.receiver = .test → s.landingPad ≠ [] → Act s .receiver (s.setReceiver .clear)
  | wait : s.receiver = .wait → Act s .receiver (s.setReceiver .blocked)
  | spurious : s.receiver = .blocked → Act s .receiver (s.setReceiver .test)
  | clearFlag : s.receiver = .clear → Act s .receiver ({ s with sleeping := false }.setReceiver .running)

def start : State n := ⟨[], false, .running, fun _ => .idle, fun _ => 0, [], []⟩

def Step (s s' : State n) : Prop := ∃ l, Act s l s'

def Reachable (s : State n) : Prop := Relation.ReflTransGen Step start s

/-- A wake-up is still to be delivered. -/
def Coming (s : State n) : Prop := ∃ i, s.senders i = .wake ∨ s.senders i = .test ∧ s.sleeping = true

/-- The vproc is blocked with a signal on its landing pad, and nobody will wake it. -/
def Stranded (s : State n) : Prop := s.receiver = .blocked ∧ s.landingPad ≠ [] ∧ ¬ Coming s

/-! ## Every signal is collected once -/

/-- The signal that a vproc has begun to send and not placed yet. -/
def Sender.pending : Sender n → Option (Signal n)
  | .load k | .cas k _ => some k
  | _ => none

/-- The signals are on the landing pad or collected, and no two are the same. -/
structure Once (s : State n) : Prop where
  perm : (s.landingPad ++ s.collected).Perm s.placed
  nodup : s.placed.Nodup
  sent : ∀ k ∈ s.placed, k.2 < s.sent k.1
  pending : ∀ i k, (s.senders i).pending = some k → k.1 = i ∧ k.2 < s.sent i ∧ k ∉ s.placed

variable {s s' : State n} {l : Label n} {i j : Fin n}

theorem setSender_self (s : State n) (i : Fin n) (pc : Sender n) : (s.setSender i pc).senders i = pc :=
  update_self _ _ _

theorem setSender_of_ne (pc : Sender n) (h : j ≠ i) : (s.setSender i pc).senders j = s.senders j :=
  update_of_ne h _ _

/-- A sender goes on with the same signal or none. -/
theorem Once.setSender (h : Once s) {pc : Sender n} (hpc : ∀ k, pc.pending = some k → (s.senders i).pending = some k) :
    Once (s.setSender i pc) := by
  refine ⟨h.perm, h.nodup, h.sent, fun j k hk => ?_⟩
  by_cases hj : j = i
  · subst hj
    rw [setSender_self] at hk
    exact h.pending j k (hpc k hk)
  · rw [setSender_of_ne _ hj] at hk
    exact h.pending j k hk

theorem Once.send (h : Once s) (i : Fin n) : Once (s.send i) := by
  have hle : ∀ j, s.sent j ≤ (s.send i).sent j := fun j => by
    show s.sent j ≤ update s.sent i (s.sent i + 1) j
    by_cases hj : j = i
    · rw [hj, update_self]
      exact Nat.le_succ _
    · exact Nat.le_of_eq (update_of_ne hj _ _).symm
  refine ⟨h.perm, h.nodup, fun k hk => Nat.lt_of_lt_of_le (h.sent k hk) (hle _), fun j k hk => ?_⟩
  by_cases hj : j = i
  · subst hj
    rw [State.send, setSender_self] at hk
    obtain rfl := Option.some.inj hk
    refine ⟨rfl, ?_, fun hm => Nat.lt_irrefl _ (h.sent _ hm)⟩
    show s.sent j < update s.sent j (s.sent j + 1) j
    rw [update_self]
    exact Nat.lt_succ_self _
  · rw [State.send, setSender_of_ne _ hj] at hk
    obtain ⟨hi, hlt, hn⟩ := h.pending j k hk
    exact ⟨hi, Nat.lt_of_lt_of_le hlt (hle _), hn⟩

theorem Once.place (h : Once s) {k : Signal n} (hk : (s.senders i).pending = some k) : Once (s.place i k) := by
  obtain ⟨hki, hlt, hn⟩ := h.pending i k hk
  refine ⟨h.perm.cons k, List.nodup_cons.mpr ⟨hn, h.nodup⟩, fun m hm => ?_, fun j m hm => ?_⟩
  · rcases List.mem_cons.mp hm with rfl | hm
    · rw [hki]
      exact hlt
    · exact h.sent m hm
  · by_cases hj : j = i
    · subst hj
      rw [State.place, setSender_self] at hm
      cases hm
    · rw [State.place, setSender_of_ne _ hj] at hm
      obtain ⟨hmj, hlt', hn'⟩ := h.pending j m hm
      refine ⟨hmj, hlt', fun hmem => ?_⟩
      rcases List.mem_cons.mp hmem with rfl | hmem
      · exact hj (hmj.symm.trans hki)
      · exact hn' hmem

theorem Act.once (h : Once s) (ha : Act s l s') : Once s' := by
  cases ha with
  | send _ => exact h.send _
  | load hpc | retry hpc _ => exact h.setSender fun k hk => by rw [hpc]; exact hk
  | place hpc => exact h.place (by rw [hpc]; rfl)
  | asleep _ _ | awake _ _ => exact h.setSender fun k hk => nomatch hk
  | signal _ =>
    have h' : Once ({ s with receiver := (match s.receiver with | .blocked => .test | pc => pc) } : State n) :=
      ⟨h.perm, h.nodup, h.sent, h.pending⟩
    exact h'.setSender fun k hk => nomatch hk
  | collect | recv | recvEmpty | recvSome | recvLoad | recvRetry | sleep | setFlag | testEmpty | testSome | wait
  | spurious | clearFlag => exact ⟨h.perm, h.nodup, h.sent, h.pending⟩

theorem Reachable.once (h : Reachable s) : Once s := by
  induction h with
  | refl => exact ⟨.refl _, List.nodup_nil, List.forall_mem_nil _, fun _ _ hk => (nomatch hk)⟩
  | tail _ hstep ih =>
    obtain ⟨l, ha⟩ := hstep
    exact ha.once ih

/-! ## The wake-up -/

/-- A step, but not a signal at the condition between the sleeper's test of the landing pad and its wait. -/
def Prompt (s s' : State n) : Prop := ∃ l, Act s l s' ∧ ∀ i, l = .signal i → s.receiver ≠ .wait

/-- In the loop of `VProcSleep`. -/
def Receiver.Asleep : Receiver n → Prop
  | .test | .wait | .blocked | .clear => True
  | _ => False

/-- The flag is set throughout the loop, and after a test that found the landing pad empty a signal placed on it has a
    wake-up on its way. -/
structure Watched (s : State n) : Prop where
  flag : s.receiver.Asleep → s.sleeping = true
  coming : s.receiver = .wait ∨ s.receiver = .blocked → s.landingPad ≠ [] → Coming s

/-- A sender with no wake-up on its way goes on. -/
theorem Watched.setSender (h : Watched s) {pc : Sender n}
    (hi : ¬ (s.senders i = .wake ∨ s.senders i = .test ∧ s.sleeping = true)) : Watched (s.setSender i pc) := by
  refine ⟨h.flag, fun hr hpad => ?_⟩
  obtain ⟨j, hj⟩ := h.coming hr hpad
  have hji : j ≠ i := by
    rintro rfl
    exact hi hj
  exact ⟨j, by rw [setSender_of_ne _ hji]; exact hj⟩

/-- A receiver that does not wait after the step. -/
theorem Watched.setReceiver {pc : Receiver n} (hflag : pc.Asleep → s.sleeping = true) (hwait : pc ≠ .wait)
    (hblocked : pc ≠ .blocked) : Watched (s.setReceiver pc) :=
  ⟨hflag, fun hr _ => (hr.elim hwait hblocked).elim⟩

theorem Watched.wake (h : Watched s) (hr : s.receiver ≠ .wait) : Watched (s.wake i) := by
  have hreceiver : (s.wake i).receiver ≠ .blocked ∧ (s.wake i).receiver ≠ .wait ∧
      ((s.wake i).receiver.Asleep → s.receiver.Asleep) := by
    show (match s.receiver with | .blocked => Receiver.test | pc => pc) ≠ .blocked ∧
      (match s.receiver with | .blocked => Receiver.test | pc => pc) ≠ .wait ∧
      ((match s.receiver with | .blocked => Receiver.test | pc => pc).Asleep → s.receiver.Asleep)
    split
    · rename_i hb
      exact ⟨nofun, nofun, fun _ => by rw [hb]; trivial⟩
    · exact ⟨by assumption, hr, id⟩
  exact ⟨fun ha => h.flag (hreceiver.2.2 ha), fun hw _ => (hw.elim hreceiver.2.1 hreceiver.1).elim⟩

theorem Prompt.watched (h : Watched s) (hstep : Prompt s s') : Watched s' := by
  obtain ⟨l, ha, hsignal⟩ := hstep
  cases ha with
  | @send i hpc =>
    have h' : Watched ({ s with sent := update s.sent i (s.sent i + 1) } : State n) := ⟨h.flag, h.coming⟩
    refine h'.setSender ?_
    rw [show ({ s with sent := update s.sent i (s.sent i + 1) } : State n).senders i = .idle from hpc]
    rintro (he | ⟨he, -⟩) <;> cases he
  | load hpc | retry hpc _ =>
    refine h.setSender ?_
    rw [hpc]
    rintro (he | ⟨he, -⟩) <;> cases he
  | awake hpc hflag =>
    refine h.setSender ?_
    rw [hpc, hflag]
    rintro (he | ⟨-, he⟩) <;> cases he
  | @place i k hpc =>
    -- the receiver is in the loop when it waits, so the sender will see the flag
    refine ⟨h.flag, fun hr _ => ⟨i, .inr ⟨setSender_self _ _ _, h.flag ?_⟩⟩⟩
    rcases hr with hr | hr
    · rw [show s.receiver = .wait from hr]
      trivial
    · rw [show s.receiver = .blocked from hr]
      trivial
  | @asleep i hpc hflag =>
    refine ⟨h.flag, fun hr hpad => ?_⟩
    exact ⟨i, .inl (setSender_self _ _ _)⟩
  | signal hpc => exact h.wake (hsignal _ rfl)
  | collect _ => exact ⟨fun ha => ha.elim, fun hr _ => hr.elim nofun nofun⟩
  | recv _ | recvEmpty _ _ | recvSome _ _ | recvLoad _ | recvRetry _ _ | sleep _ =>
    exact .setReceiver (fun ha => ha.elim) nofun nofun
  | setFlag _ => exact .setReceiver (fun _ => rfl) nofun nofun
  | clearFlag _ => exact .setReceiver (fun ha => ha.elim) nofun nofun
  | testEmpty hr hpad => exact ⟨fun _ => h.flag (by rw [hr]; trivial), fun _ hne => absurd hpad hne⟩
  | testSome hr _ | spurious hr => exact .setReceiver (fun _ => h.flag (by rw [hr]; trivial)) nofun nofun
  | wait hr => exact ⟨fun _ => h.flag (by rw [hr]; trivial), fun _ hne => h.coming (.inl hr) hne⟩

/-- What every run guarantees, and what it guarantees when no wake-up comes between the test and the wait. -/
theorem landing_pad (n : Nat) : (∀ s : State n, Reachable s → (s.landingPad ++ s.collected).Perm s.placed ∧
      s.placed.Nodup) ∧
    ∀ s : State n, Relation.ReflTransGen Prompt start s → ¬ Stranded s := by
  refine ⟨fun s h => ⟨h.once.perm, h.once.nodup⟩, fun s h => ?_⟩
  have hw : Watched s := by
    induction h with
    | refl => exact ⟨fun ha => ha.elim, fun hr => hr.elim nofun nofun⟩
    | tail _ hstep ih => exact hstep.watched ih
  rintro ⟨hr, hpad, hn⟩
  exact hn (hw.coming (.inr hr) hpad)

/-- The sleeper tests the landing pad, the signal is placed and the wake-up sent, then the sleeper waits. -/
theorem sleep_forever : ∃ s : State 1, Reachable s ∧ Stranded s := by
  have h₀ : Reachable (start (n := 1)) := .refl
  have h₁ := h₀.tail ⟨_, Act.sleep rfl⟩
  have h₂ := h₁.tail ⟨_, Act.setFlag rfl⟩
  have h₃ := h₂.tail ⟨_, Act.testEmpty rfl rfl⟩
  have h₄ := h₃.tail ⟨_, Act.send (i := 0) rfl⟩
  have h₅ := h₄.tail ⟨_, Act.load (i := 0) rfl⟩
  have h₆ := h₅.tail ⟨_, Act.place (i := 0) rfl⟩
  have h₇ := h₆.tail ⟨_, Act.asleep (i := 0) rfl rfl⟩
  have h₈ := h₇.tail ⟨_, Act.signal (i := 0) rfl⟩
  refine ⟨_, h₈.tail ⟨_, Act.wait rfl⟩, rfl, List.cons_ne_nil _ _, ?_⟩
  rintro ⟨i, hi⟩
  obtain rfl : i = 0 := Subsingleton.elim _ _
  rcases hi with he | ⟨he, -⟩ <;> cases he

end Manticore.ParallelRt.LandingPad
