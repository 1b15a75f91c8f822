/-
  Manticore.Cml.FanIn — fan-in channels: `send` and `recv` (`cml/fanin.pml`).

  Any number of threads send and one receives; a step is one access to the channel. The items of the channel are named
  by the order in which they were linked to it, and an item that no link leads to yet has no name. A thread stops with
  the access that links its item, and goes on as soon as its continuation is enqueued on a vproc.

  - `Reachable.linked`: the items form one list, of which the head is known and the tail is a hint.
  - `Reachable.waits`: beyond the head are the items of blocked senders, or the one of the blocked receiver.
  - `Reachable.account`: what was sent has been received, in the order in which it was sent, or is linked.
  - `fanIn_sound`: these, and that the receiver never finds an item that it did not expect.
-/

import Manticore.Library.Parties

namespace Manticore.Cml.FanIn

open Parties
open Function (update update_self update_of_ne)
open List (length_append append_assoc append_nil range)

/-- A message, and how many sends its thread has begun before. -/
structure Call (α : Type) where
  num : Nat
  msg : α

inductive Item (n : Nat) (α : Type) where
  | dummy
  | send (i : Fin n) (x : Call α)
  | recv

/-- Where a sender is: before the access that the name tells. -/
inductive Sender (α : Type) where
  | idle
  | readHd (x : Call α)
  | readTl (x : Call α) (hdpt : Nat)
  | readLink (x : Call α) (hdpt tlpt : Nat)
  | casTl (x : Call α) (tlpt next : Nat)
  /-- The send item is to be linked. -/
  | casLink (x : Call α) (tlpt : Nat)
  /-- The tail is the item of a blocked receiver. -/
  | casHd (x : Call α) (hdpt tlpt : Nat)
  | deliver (x : Call α) (recvval : Nat)
  | blocked (item : Nat)

/-- Where the receiver is. -/
inductive Receiver (n : Nat) (α : Type) where
  | idle
  | readHd
  | readLink (hdpt : Nat)
  /-- The recv item is to be linked. -/
  | casLink (hdpt : Nat)
  | updateHd (next : Nat) (i : Fin n) (x : Call α)
  | wake (i : Fin n) (x : Call α)
  | ret (i : Fin n) (x : Call α)
  | blocked (item : Nat)
  /-- `Fail "Unexpected waiting processes in channel queue"`. -/
  | failed

structure State (n : Nat) (α : Type) where
  items : List (Item n α)
  link : Nat → Option Nat
  hd : Nat
  tl : Nat
  senders : Fin n → Sender α
  receiver : Receiver n α
  /-- How many sends each thread has begun. -/
  calls : Fin n → Nat
  /-- The messages linked to the channel or handed to a blocked receiver, and those taken from it or so handed. -/
  sent : List (Fin n × Call α)
  received : List (Fin n × Call α)
  /-- What `recv` has returned. -/
  returned : List (Fin n × Call α)

variable {n : Nat} {α : Type}

namespace State

variable (s : State n α) (i : Fin n)

def goto (pc : Sender α) : State n α := { s with senders := update s.senders i pc }

/-- A new send. -/
def callSend (a : α) : State n α :=
  { s with calls := update s.calls i (s.calls i + 1) }.goto i (.readHd ⟨s.calls i, a⟩)

/-- The item is linked after `p`. -/
def append (p : Nat) (item : Item n α) : State n α :=
  { s with items := s.items ++ [item], link := update s.link p (some s.items.length) }

end State

/-- `@chan-new`. -/
def chanNew (n : Nat) (α : Type) : State n α :=
  ⟨[.dummy], fun _ => none, 0, 0, fun _ => .idle, .idle, fun _ => 0, [], [], []⟩

/-- `@chan-send`. -/
inductive Send (s : State n α) (i : Fin n) : State n α → Prop
  | call {a : α} : s.senders i = .idle → Send s i (s.callSend i a)
  | readHd {x : Call α} : s.senders i = .readHd x → Send s i (s.goto i (.readTl x s.hd))
  | readTl {x : Call α} {h : Nat} : s.senders i = .readTl x h → Send s i (s.goto i (.readLink x h s.tl))
  | linkSome {x : Call α} {h t nx : Nat} : s.senders i = .readLink x h t → s.link t = some nx →
      Send s i (s.goto i (.casTl x t nx))
  | linkNil {x : Call α} {h t : Nat} : s.senders i = .readLink x h t → s.link t = none →
      (s.items[t]? = some .recv → h = t) → Send s i (s.goto i (.casLink x t))
  | linkRecv {x : Call α} {h t : Nat} : s.senders i = .readLink x h t → s.link t = none →
      s.items[t]? = some .recv → h ≠ t → Send s i (s.goto i (.casHd x h t))
  | casTl {x : Call α} {t nx : Nat} : s.senders i = .casTl x t nx → s.tl = t →
      Send s i ({ s with tl := nx }.goto i (.readHd x))
  | casTlFail {x : Call α} {t nx : Nat} : s.senders i = .casTl x t nx → s.tl ≠ t → Send s i (s.goto i (.readHd x))
  | casLink {x : Call α} {t : Nat} : s.senders i = .casLink x t → s.link t = none →
      Send s i ({ s.append t (.send i x) with sent := s.sent ++ [(i, x)] }.goto i (.blocked s.items.length))
  | casLinkFail {x : Call α} {t : Nat} : s.senders i = .casLink x t → s.link t ≠ none →
      Send s i (s.goto i (.readHd x))
  | casHd {x : Call α} {h t : Nat} : s.senders i = .casHd x h t → s.hd = h →
      Send s i ({ s with hd := t, sent := s.sent ++ [(i, x)], received := s.received ++ [(i, x)] }.goto i
        (.deliver x t))
  | casHdFail {x : Call α} {h t : Nat} : s.senders i = .casHd x h t → s.hd ≠ h → Send s i (s.goto i (.readHd x))
  | deliver {x : Call α} {t : Nat} : s.senders i = .deliver x t →
      Send s i ({ s with receiver := .ret i x }.goto i .idle)

/-- `@chan-recv`; what it reads of the tail is not used. -/
inductive Recv (s : State n α) : State n α → Prop
  | call : s.receiver = .idle → Recv s { s with receiver := .readHd }
  | readHd : s.receiver = .readHd → Recv s { s with receiver := .readLink s.hd }
  | linkNil {h : Nat} : s.receiver = .readLink h → s.link h = none → Recv s { s with receiver := .casLink h }
  | linkSend {h nx : Nat} {i : Fin n} {x : Call α} : s.receiver = .readLink h → s.link h = some nx →
      s.items[nx]? = some (.send i x) → Recv s { s with receiver := .updateHd nx i x }
  | linkOther {h nx : Nat} : s.receiver = .readLink h → s.link h = some nx →
      (∀ i x, s.items[nx]? ≠ some (.send i x)) → Recv s { s with receiver := .failed }
  | casLink {h : Nat} : s.receiver = .casLink h → s.link h = none →
      Recv s { s.append h .recv with receiver := .blocked s.items.length }
  | casLinkFail {h : Nat} : s.receiver = .casLink h → s.link h ≠ none → Recv s { s with receiver := .readHd }
  | updateHd {nx : Nat} {i : Fin n} {x : Call α} : s.receiver = .updateHd nx i x →
      Recv s { s with hd := nx, received := s.received ++ [(i, x)], receiver := .wake i x }
  | wake {i : Fin n} {x : Call α} : s.receiver = .wake i x →
      Recv s ({ s with receiver := .ret i x }.goto i .idle)
  | ret {i : Fin n} {x : Call α} : s.receiver = .ret i x →
      Recv s { s with returned := s.returned ++ [(i, x)], receiver := .idle }

def Step (s s' : State n α) : Prop := (∃ i, Send s i s') ∨ Recv s s'

def Reachable (s : State n α) : Prop := Relation.ReflTransGen Step (chanNew n α) s

variable {s s' : State n α} {i j : Fin n}

theorem goto_self (s : State n α) (i : Fin n) (pc : Sender α) : (s.goto i pc).senders i = pc :=
  update_self _ _ _

theorem goto_of_ne (pc : Sender α) (h : j ≠ i) : (s.goto i pc).senders j = s.senders j := update_of_ne h _ _

/-! ## The list of the items -/

/-- What a sender has read of the list. -/
def Sender.Read (s : State n α) : Sender α → Prop
  | .readTl _ h => h ≤ s.hd
  | .readLink _ h t => h ≤ s.hd ∧ t < s.items.length
  | .casTl _ _ nx => nx < s.items.length
  | .casLink _ t => t < s.items.length ∧ (s.items[t]? = some .recv → t ≤ s.hd)
  | .casHd _ h t => h < t ∧ s.items[t]? = some .recv
  | _ => True

/-- What the receiver has read: nobody else moves the head while it runs. -/
def Receiver.Read (s : State n α) : Receiver n α → Prop
  | .readLink h | .casLink h => h = s.hd
  | .updateHd nx i x => nx = s.hd + 1 ∧ s.items[nx]? = some (.send i x)
  | .failed => False
  | _ => True

structure Linked (s : State n α) : Prop where
  link : ∀ p, s.link p = if p + 1 < s.items.length then some (p + 1) else none
  hd : s.hd < s.items.length
  tl : s.tl < s.items.length
  read : ∀ i, (s.senders i).Read s

variable {p : Nat} {pc : Sender α} {x : Call α} {t : Nat}

theorem Linked.last (h : Linked s) (hp : p < s.items.length) (hl : s.link p = none) : s.items.length = p + 1 := by
  have hlink := h.link p
  rw [hl] at hlink
  split at hlink
  · cases hlink
  · omega

theorem Linked.next (h : Linked s) {nx : Nat} (hl : s.link p = some nx) : nx = p + 1 ∧ nx < s.items.length := by
  have hlink := h.link p
  rw [hl] at hlink
  split at hlink
  · cases hlink
    exact ⟨rfl, ‹_›⟩
  · cases hlink

/-- What has been read stays, as the list grows and the head moves on. -/
theorem Sender.Read.mono (h : pc.Read s) (hhd : s.hd ≤ s'.hd) (hitems : s.items <+: s'.items) : pc.Read s' := by
  obtain ⟨l, hl⟩ := hitems
  have hlen : s.items.length ≤ s'.items.length := by
    rw [← hl, length_append]
    exact Nat.le_add_right _ _
  have hget : ∀ t, t < s.items.length → s'.items[t]? = s.items[t]? := fun t ht => by
    rw [← hl, List.getElem?_append_left ht]
  cases pc with
  | readTl x h₀ => exact Nat.le_trans h hhd
  | readLink x h₀ t => exact ⟨Nat.le_trans h.1 hhd, Nat.lt_of_lt_of_le h.2 hlen⟩
  | casTl x t nx => exact Nat.lt_of_lt_of_le h hlen
  | casLink x t =>
    refine ⟨Nat.lt_of_lt_of_le h.1 hlen, fun hr => ?_⟩
    rw [hget t h.1] at hr
    exact Nat.le_trans (h.2 hr) hhd
  | casHd x h₀ t =>
    obtain ⟨hlt, -⟩ := List.getElem?_eq_some_iff.mp h.2
    exact ⟨h.1, by rw [hget t hlt]; exact h.2⟩
  | idle | readHd x | deliver x t | blocked p => trivial

/-- A step of a sender, or one that leaves the senders. -/
theorem Linked.goto (h : Linked s) (hsenders : s'.senders = update s.senders i pc)
    (hitems : s'.items = s.items) (hlink : s'.link = s.link) (hle : s.hd ≤ s'.hd) (hhd : s'.hd < s.items.length)
    (htl : s'.tl < s.items.length) (hpc : pc.Read s) : Linked s' := by
  have hmono : ∀ {pc : Sender α}, pc.Read s → pc.Read s' := fun hr => hr.mono hle (by rw [hitems])
  refine ⟨by rw [hlink, hitems]; exact h.link, by rw [hitems]; exact hhd, by rw [hitems]; exact htl, fun j => ?_⟩
  rw [hsenders]
  by_cases hj : j = i
  · rw [hj, update_self]
    exact hmono hpc
  · rw [update_of_ne hj]
    exact hmono (h.read j)

theorem Linked.same (h : Linked s) (hsenders : s'.senders = s.senders) (hitems : s'.items = s.items)
    (hlink : s'.link = s.link) (hle : s.hd ≤ s'.hd) (hhd : s'.hd < s.items.length) (htl : s'.tl = s.tl) : Linked s' := by
  refine ⟨by rw [hlink, hitems]; exact h.link, by rw [hitems]; exact hhd, by rw [htl, hitems]; exact h.tl,
    fun j => ?_⟩
  rw [hsenders]
  exact (h.read j).mono hle (by rw [hitems])

theorem Linked.append (h : Linked s) (hp : p < s.items.length) (hl : s.link p = none) (item : Item n α) :
    Linked (s.append p item) := by
  have hlast := h.last hp hl
  have hlen : (s.append p item).items.length = s.items.length + 1 := by
    rw [State.append, length_append]
    rfl
  refine ⟨fun q => ?_, ?_, ?_, fun j => (h.read j).mono (Nat.le_refl _) (List.prefix_append _ _)⟩
  · rw [hlen]
    show update s.link p (some s.items.length) q = _
    by_cases hq : q = p
    · rw [hq, update_self, if_pos (by omega), hlast]
    · rw [update_of_ne hq, h.link q]
      by_cases hlt : q + 1 < s.items.length
      · rw [if_pos hlt, if_pos (by omega)]
      · rw [if_neg hlt, if_neg (by omega)]
  · rw [hlen]
    exact Nat.lt_succ_of_lt h.hd
  · rw [hlen]
    exact Nat.lt_succ_of_lt h.tl

theorem Send.linked (h : Linked s) (ha : Send s i s') : Linked s' := by
  have hread := h.read i
  cases ha with
  | call _ | casTlFail _ _ | casLinkFail _ _ | casHdFail _ _ | deliver _ =>
    exact h.goto rfl rfl rfl (Nat.le_refl _) h.hd h.tl trivial
  | readHd _ => exact h.goto rfl rfl rfl (Nat.le_refl _) h.hd h.tl (Nat.le_refl _)
  | readTl hpc =>
    rw [hpc] at hread
    exact h.goto rfl rfl rfl (Nat.le_refl _) h.hd h.tl ⟨hread, h.tl⟩
  | linkSome _ hl => exact h.goto rfl rfl rfl (Nat.le_refl _) h.hd h.tl (h.next hl).2
  | linkNil hpc _ hr =>
    rw [hpc] at hread
    exact h.goto rfl rfl rfl (Nat.le_refl _) h.hd h.tl ⟨hread.2, fun ht => hr ht ▸ hread.1⟩
  | @linkRecv x h₀ t hpc hl hr hne =>
    rw [hpc] at hread
    -- the head was read before the tail's link, which is nil
    have hlast := h.last hread.2 hl
    have hhd := h.hd
    refine h.goto rfl rfl rfl (Nat.le_refl _) h.hd h.tl ⟨?_, hr⟩
    have hle := hread.1
    omega
  | casTl hpc _ =>
    rw [hpc] at hread
    exact h.goto rfl rfl rfl (Nat.le_refl _) h.hd hread trivial
  | @casLink x t hpc hl =>
    rw [hpc] at hread
    have happ := h.append hread.1 hl (.send i x)
    exact happ.goto rfl rfl rfl (Nat.le_refl _) happ.hd happ.tl trivial
  | casHd hpc hh =>
    rw [hpc] at hread
    obtain ⟨hlt, -⟩ := List.getElem?_eq_some_iff.mp hread.2
    exact h.goto rfl rfl rfl (hh ▸ Nat.le_of_lt hread.1) hlt h.tl trivial

theorem Recv.linked (h : Linked s) (hread : s.receiver.Read s) (ha : Recv s s') : Linked s' := by
  cases ha with
  | call _ | readHd _ | linkNil _ _ | linkSend _ _ _ | linkOther _ _ _ | casLinkFail _ _ | ret _ =>
    exact h.same rfl rfl rfl (Nat.le_refl _) h.hd rfl
  | casLink hpc hl =>
    rw [hpc] at hread
    have happ := h.append (show _ < s.items.length from hread ▸ h.hd) hl .recv
    exact happ.same rfl rfl rfl (Nat.le_refl _) happ.hd rfl
  | updateHd hpc =>
    rw [hpc] at hread
    obtain ⟨hlt, -⟩ := List.getElem?_eq_some_iff.mp hread.2
    exact h.same rfl rfl rfl (by show s.hd ≤ _; rw [hread.1]; exact Nat.le_succ _) hlt rfl
  | wake _ => exact h.goto rfl rfl rfl (Nat.le_refl _) h.hd h.tl trivial

/-! ## Who waits -/

/-- The item after the head belongs to a thread that waits with it. -/
def Ahead (s : State n α) (p : Nat) : Prop :=
  (∃ i x, s.items[p]? = some (.send i x) ∧ s.senders i = .blocked p) ∨
    s.items[p]? = some .recv ∧ s.receiver = .blocked p

structure Waits (s : State n α) : Prop where
  ahead : ∀ p, s.hd < p → p < s.items.length → Ahead s p
  read : s.receiver.Read s
  /-- A blocked receiver waits with the only item after the head, or with the head, and then is to be resumed. -/
  blocked : ∀ r, s.receiver = .blocked r → s.items[r]? = some .recv ∧
    (s.hd + 1 = r ∧ s.items.length = r + 1 ∨ s.hd = r ∧ ∃ i x, s.senders i = .deliver x r)
  deliver : ∀ i x r, s.senders i = .deliver x r → s.receiver = .blocked r ∧ s.hd = r
  one : ∀ i j x y p r, s.senders i = .deliver x p → s.senders j = .deliver y r → i = j
  /-- The sender of the item that has become the head is to be resumed. -/
  wake : ∀ i x, s.receiver = .wake i x → s.senders i = .blocked s.hd

/-- The thread is idle or runs. -/
def Sender.runs : Sender α → Bool
  | .deliver _ _ | .blocked _ => false
  | _ => true

/-- A sender goes on, and leaves the items, the head and the receiver as they are. -/
theorem Waits.goto (h : Waits s) (hsenders : s'.senders = update s.senders i pc)
    (hitems : s'.items = s.items) (hhd : s'.hd = s.hd) (hrecv : s'.receiver = s.receiver)
    (hruns : (s.senders i).runs = true) (hpc : pc.runs = true) : Waits s' := by
  have hkeep : ∀ j p, s.senders j = .blocked p → s'.senders j = .blocked p := fun j p hj => by
    rw [hsenders, update_of_ne]
    · exact hj
    · intro hji
      rw [← hji, hj] at hruns
      cases hruns
  have hdel : ∀ j x r, s'.senders j = .deliver x r ↔ s.senders j = .deliver x r := fun j x r => by
    rw [hsenders]
    by_cases hj : j = i
    · subst hj
      rw [update_self]
      refine ⟨fun he => ?_, fun he => ?_⟩
      · rw [he] at hpc
        cases hpc
      · rw [he] at hruns
        cases hruns
    · rw [update_of_ne hj]
  refine ⟨fun p hp hlt => ?_, ?_, fun r hr => ?_, fun j x r hj => ?_, fun j k x y p r hj hk => ?_, fun j x hw => ?_⟩
  · rw [hhd] at hp
    rw [hitems] at hlt
    unfold Ahead
    rw [hitems, hrecv]
    rcases h.ahead p hp hlt with ⟨j, x, hitem, hj⟩ | hr
    · exact .inl ⟨j, x, hitem, hkeep j p hj⟩
    · exact .inr hr
  · have hread := h.read
    unfold Receiver.Read at hread ⊢
    rw [hrecv, hhd, hitems]
    exact hread
  · rw [hrecv] at hr
    rw [hhd, hitems]
    obtain ⟨hitem, hwhere⟩ := h.blocked r hr
    simp_all
  · rw [hrecv, hhd]
    exact h.deliver j x r ((hdel j x r).mp hj)
  · exact h.one j k x y p r ((hdel j x p).mp hj) ((hdel k y r).mp hk)
  · rw [hrecv] at hw
    rw [hhd]
    exact hkeep j _ (h.wake j x hw)

theorem Ahead.recv (h : Ahead s p) (hp : s.items[p]? = some .recv) : s.receiver = .blocked p := by
  rcases h with ⟨i, x, hitem, -⟩ | ⟨-, hr⟩
  · rw [hp] at hitem
    cases hitem
  · exact hr

theorem getElem?_append_of_some {l : List (Item n α)} {item new : Item n α} (h : l[p]? = some item) :
    (l ++ [new])[p]? = some item := by
  grind

theorem Receiver.Read.append {pc : Receiver n α} (h : pc.Read s) (p : Nat) (item : Item n α) :
    pc.Read (s.append p item) := by
  cases pc with
  | updateHd nx i x => exact ⟨h.1, getElem?_append_of_some h.2⟩
  | failed | readLink | casLink => exact h
  | idle | readHd | wake _ _ | ret _ _ | blocked _ => trivial

/-- A sender links its item to the last one, and stops. -/
theorem Waits.casLink (hlk : Linked s) (h : Waits s) (hpc : s.senders i = .casLink x t) (hl : s.link t = none)
    (hs : s'.senders = update s.senders i (.blocked s.items.length))
    (hitems : s'.items = s.items ++ [.send i x]) (hhd : s'.hd = s.hd) (hrecv : s'.receiver = s.receiver) :
    Waits s' := by
  have hread := hlk.read i
  rw [hpc] at hread
  have hlast := hlk.last hread.1 hl
  have hkeep : ∀ j pc, s.senders j = pc → pc ≠ .casLink x t → s'.senders j = pc := fun j pc hj hne => by
    rw [hs, update_of_ne]
    · exact hj
    · intro hji
      rw [← hj, hji, hpc] at hne
      exact hne rfl
  have hdel : ∀ j y r, s'.senders j = .deliver y r → s.senders j = .deliver y r := fun j y r hj => by
    rw [hs] at hj
    by_cases hji : j = i
    · rw [hji, update_self] at hj
      cases hj
    · rw [update_of_ne hji] at hj
      exact hj
  refine ⟨fun p hp hlt => ?_, ?_, fun r hr => ?_, fun j y r hj => ?_, fun j k y z p r hj hk => ?_, fun j y hw => ?_⟩
  · rw [hhd] at hp
    rw [hitems, length_append] at hlt
    unfold Ahead
    rw [hitems, hrecv]
    by_cases hp' : p < s.items.length
    · rcases h.ahead p hp hp' with ⟨j, y, hitem, hj⟩ | ⟨hitem, hr⟩
      · exact .inl ⟨j, y, getElem?_append_of_some hitem, hkeep j _ hj nofun⟩
      · exact .inr ⟨getElem?_append_of_some hitem, hr⟩
    · obtain rfl : p = s.items.length := by
        have hlt' : p < s.items.length + 1 := hlt
        omega
      exact .inl ⟨i, x, List.getElem?_concat_length, by rw [hs, update_self]⟩
  · have hr := h.read.append t (.send i x)
    unfold Receiver.Read at hr ⊢
    rw [hrecv, hhd, hitems]
    exact hr
  · rw [hrecv] at hr
    obtain ⟨hitem, hwhere⟩ := h.blocked r hr
    rw [hitems, hhd]
    refine ⟨getElem?_append_of_some hitem, ?_⟩
    rcases hwhere with ⟨hnext, hlen⟩ | ⟨heq, j, y, hj⟩
    · -- the item of a receiver that waits is the tail, and no item is linked to it
      obtain rfl : r = t := by omega
      have hle := hread.2 hitem
      omega
    · exact .inr ⟨heq, j, y, hkeep j _ hj nofun⟩
  · rw [hrecv, hhd]
    exact h.deliver j y r (hdel j y r hj)
  · exact h.one j k y z p r (hdel j y p hj) (hdel k z r hk)
  · rw [hrecv] at hw
    rw [hhd]
    exact hkeep j _ (h.wake j y hw) nofun

/-- A sender whose head is still the head meets the blocked receiver, and no item is between them. -/
theorem Waits.meets (hlk : Linked s) (h : Waits s) (hpc : s.senders i = .casHd x s.hd t) :
    s.items[t]? = some .recv ∧ s.receiver = .blocked t ∧ s.hd + 1 = t ∧ s.items.length = t + 1 := by
  have hread := hlk.read i
  rw [hpc] at hread
  obtain ⟨hlt, hitem⟩ := hread
  obtain ⟨hlen, -⟩ := List.getElem?_eq_some_iff.mp hitem
  have hblocked := (h.ahead t hlt hlen).recv hitem
  refine ⟨hitem, hblocked, ?_⟩
  obtain ⟨-, hlast | ⟨heq, -⟩⟩ := h.blocked t hblocked
  · exact hlast
  · omega

theorem Waits.casHd (hlk : Linked s) (h : Waits s) (hpc : s.senders i = .casHd x s.hd t)
    (hs : s'.senders = update s.senders i (.deliver x t)) (hitems : s'.items = s.items) (hhd : s'.hd = t)
    (hrecv : s'.receiver = s.receiver) : Waits s' := by
  obtain ⟨hitem, hblocked, hnext, hlast⟩ := h.meets hlk hpc
  -- nobody has met it before
  have hnone : ∀ j y r, s.senders j ≠ .deliver y r := fun j y r hj => by
    obtain ⟨hr, heq⟩ := h.deliver j y r hj
    rw [hblocked] at hr
    cases hr
    omega
  have hdel : ∀ j y r, s'.senders j = .deliver y r → j = i ∧ r = t := fun j y r hj => by
    rw [hs] at hj
    by_cases hji : j = i
    · rw [hji, update_self] at hj
      cases hj
      exact ⟨hji, rfl⟩
    · rw [update_of_ne hji] at hj
      exact absurd hj (hnone j y r)
  refine ⟨fun p hp hp' => ?_, ?_, fun r hr => ?_, fun j y r hj => ?_, fun j k y z p r hj hk => ?_, fun j y hw => ?_⟩
  · rw [hhd] at hp
    rw [hitems] at hp'
    omega
  · rw [hrecv, hblocked]
    trivial
  · rw [hrecv, hblocked] at hr
    cases hr
    rw [hitems, hhd]
    exact ⟨hitem, .inr ⟨rfl, i, x, by rw [hs, update_self]⟩⟩
  · obtain ⟨-, rfl⟩ := hdel j y r hj
    rw [hrecv, hhd]
    exact ⟨hblocked, rfl⟩
  · rw [(hdel j y p hj).1, (hdel k z r hk).1]
  · rw [hrecv, hblocked] at hw
    cases hw

/-- The receiver is resumed with the message of the sender that has met it. -/
theorem Waits.deliver_ret (h : Waits s) (hpc : s.senders i = .deliver x t)
    (hs : s'.senders = update s.senders i .idle) (hitems : s'.items = s.items) (hhd : s'.hd = s.hd)
    (hrecv : s'.receiver = .ret i x) : Waits s' := by
  obtain ⟨hblocked, heq⟩ := h.deliver i x t hpc
  have hnone : ∀ j y r, s'.senders j ≠ .deliver y r := fun j y r hj => by
    rw [hs] at hj
    by_cases hji : j = i
    · rw [hji, update_self] at hj
      cases hj
    · rw [update_of_ne hji] at hj
      exact hji (h.one j i y x r t hj hpc)
  refine ⟨fun p hp hp' => ?_, by rw [hrecv]; trivial, fun r hr => ?_, fun j y r hj => absurd hj (hnone j y r),
    fun j _ y _ p _ hj _ => absurd hj (hnone j y p), fun j y hw => ?_⟩
  · rw [hhd] at hp
    rw [hitems] at hp'
    unfold Ahead
    rw [hitems]
    rcases h.ahead p hp hp' with ⟨j, y, hitem, hj⟩ | ⟨-, hr⟩
    · refine .inl ⟨j, y, hitem, ?_⟩
      rw [hs, update_of_ne]
      · exact hj
      · intro hji
        rw [hji, hpc] at hj
        cases hj
    · rw [hblocked] at hr
      cases hr
      omega
  · rw [hrecv] at hr
    cases hr
  · rw [hrecv] at hw
    cases hw

theorem Send.waits (hlk : Linked s) (h : Waits s) (ha : Send s i s') : Waits s' := by
  cases ha with
  | call hpc | readHd hpc | readTl hpc | linkSome hpc _ | linkNil hpc _ _ | linkRecv hpc _ _ _ | casTl hpc _
  | casTlFail hpc _ | casLinkFail hpc _ | casHdFail hpc _ =>
    exact h.goto rfl rfl rfl rfl (by rw [hpc]; rfl) rfl
  | casLink hpc hl => exact h.casLink hlk hpc hl rfl rfl rfl rfl
  | casHd hpc hh =>
    subst hh
    exact h.casHd hlk hpc rfl rfl rfl rfl
  | deliver hpc => exact h.deliver_ret hpc rfl rfl rfl rfl

/-- The receiver goes on, and leaves the items, the head and the senders as they are. -/
theorem Waits.receiver (h : Waits s) (hs : s'.senders = s.senders) (hitems : s'.items = s.items) (hhd : s'.hd = s.hd)
    (hruns : ∀ r, s.receiver ≠ .blocked r) (hpc : ∀ r, s'.receiver ≠ .blocked r)
    (hwake : ∀ i x, s'.receiver ≠ .wake i x) (hread : s'.receiver.Read s) : Waits s' := by
  have hnone : ∀ j y r, s.senders j ≠ .deliver y r := fun j y r hj => hruns r (h.deliver j y r hj).1
  refine ⟨fun p hp hp' => ?_, ?_, fun r hr => absurd hr (hpc r), fun j y r hj => ?_, fun j _ y _ p _ hj _ => ?_,
    fun j y hw => absurd hw (hwake j y)⟩
  · rw [hhd] at hp
    rw [hitems] at hp'
    rcases h.ahead p hp hp' with ⟨j, y, hitem, hj⟩ | ⟨-, hr⟩
    · exact .inl ⟨j, y, by rw [hitems]; exact hitem, by rw [hs]; exact hj⟩
    · exact absurd hr (hruns p)
  · unfold Receiver.Read at hread ⊢
    rw [hhd, hitems]
    exact hread
  · rw [hs] at hj
    exact absurd hj (hnone j y r)
  · rw [hs] at hj
    exact absurd hj (hnone j y p)

theorem Recv.waits (hlk : Linked s) (h : Waits s) (ha : Recv s s') : Waits s' := by
  have hread := h.read
  cases ha with
  | call hpc | casLinkFail hpc _ | ret hpc =>
    exact h.receiver rfl rfl rfl (by rw [hpc]; nofun) nofun nofun trivial
  | readHd hpc => exact h.receiver rfl rfl rfl (by rw [hpc]; nofun) nofun nofun rfl
  | linkNil hpc _ =>
    rw [hpc] at hread
    exact h.receiver rfl rfl rfl (by rw [hpc]; nofun) nofun nofun hread
  | linkSend hpc hl hitem =>
    rw [hpc] at hread
    exact h.receiver rfl rfl rfl (by rw [hpc]; nofun) nofun nofun ⟨hread ▸ (hlk.next hl).1, hitem⟩
  | @linkOther h₀ nx hpc hl hother =>
    -- the receiver runs, so the item after the head is a sender's
    rw [hpc] at hread
    obtain ⟨hnx, hlt⟩ := hlk.next hl
    have hhd : h₀ = s.hd := hread
    rcases h.ahead nx (by omega) hlt with ⟨j, y, hitem, -⟩ | ⟨-, hr⟩
    · exact absurd hitem (hother j y)
    · rw [hpc] at hr
      cases hr
  | @casLink h₀ hpc hl =>
    rw [hpc] at hread
    have hhd : h₀ = s.hd := hread
    subst hhd
    have hlast := hlk.last hlk.hd hl
    have hnone : ∀ j y r, s.senders j ≠ .deliver y r := fun j y r hj => by
      have hr := (h.deliver j y r hj).1
      rw [hpc] at hr
      cases hr
    refine ⟨fun p hp hp' => ?_, trivial, fun r hr => ?_, fun j y r hj => absurd hj (hnone j y r),
      fun j _ y _ p _ hj _ => absurd hj (hnone j y p), nofun⟩
    · have hp₁ : s.hd < p := hp
      have hp₂ : p < (s.items ++ [Item.recv]).length := hp'
      rw [length_append, List.length_singleton] at hp₂
      obtain rfl : p = s.items.length := by omega
      exact .inr ⟨List.getElem?_concat_length, rfl⟩
    · cases hr
      refine ⟨List.getElem?_concat_length, .inl ⟨hlast.symm, ?_⟩⟩
      show (s.items ++ [Item.recv]).length = s.items.length + 1
      rw [length_append, List.length_singleton]
  | @updateHd nx i x hpc =>
    rw [hpc] at hread
    obtain ⟨rfl, hitem⟩ := hread
    obtain ⟨hlt, -⟩ := List.getElem?_eq_some_iff.mp hitem
    have hruns : ∀ r, s.receiver ≠ .blocked r := by
      rw [hpc]
      nofun
    have hnone : ∀ j y r, s.senders j ≠ .deliver y r := fun j y r hj => hruns r (h.deliver j y r hj).1
    refine ⟨fun p hp hp' => ?_, trivial, nofun, fun j y r hj => absurd hj (hnone j y r),
      fun j _ y _ p _ hj _ => absurd hj (hnone j y p), fun j y hw => ?_⟩
    · rcases h.ahead p (Nat.lt_of_succ_lt hp) hp' with hsend | ⟨-, hr⟩
      · exact .inl hsend
      · exact absurd hr (hruns p)
    · cases hw
      rcases h.ahead _ (Nat.lt_succ_self _) hlt with ⟨k, z, hitem', hk⟩ | ⟨-, hr⟩
      · rw [hitem] at hitem'
        cases hitem'
        exact hk
      · exact absurd hr (hruns _)
  | @wake i x hpc =>
    have hblocked := h.wake i x hpc
    have hruns : ∀ r, s.receiver ≠ .blocked r := by
      rw [hpc]
      nofun
    have hnone : ∀ j y r, update s.senders i .idle j ≠ .deliver y r := fun j y r hj => by
      by_cases hji : j = i
      · rw [hji, update_self] at hj
        cases hj
      · rw [update_of_ne hji] at hj
        exact hruns r (h.deliver j y r hj).1
    refine ⟨fun p hp hp' => ?_, trivial, nofun, fun j y r hj => absurd hj (hnone j y r),
      fun j _ y _ p _ hj _ => absurd hj (hnone j y p), nofun⟩
    rcases h.ahead p hp hp' with ⟨j, y, hitem, hj⟩ | ⟨-, hr⟩
    · refine .inl ⟨j, y, hitem, ?_⟩
      rw [goto_of_ne]
      · exact hj
      · -- its own item is the head
        intro hji
        rw [hji, hblocked] at hj
        cases hj
        exact Nat.lt_irrefl _ hp
    · exact absurd hr (hruns p)

theorem Reachable.linked_waits (h : Reachable s) : Linked s ∧ Waits s := by
  induction h with
  | refl =>
    refine ⟨⟨fun p => ?_, Nat.one_pos, Nat.one_pos, fun _ => trivial⟩, fun p hp hlt => ?_, trivial, nofun, nofun,
      nofun, nofun⟩
    · show none = if p + 1 < 1 then some (p + 1) else none
      rw [if_neg (by omega)]
    · exact absurd hlt (Nat.not_lt.mpr hp)
  | tail _ hstep ih =>
    obtain ⟨hlk, hw⟩ := ih
    rcases hstep with ⟨i, ha⟩ | ha
    · exact ⟨ha.linked hlk, ha.waits hlk hw⟩
    · exact ⟨ha.linked hlk hw.read, ha.waits hlk hw⟩

theorem Reachable.linked (h : Reachable s) : Linked s := h.linked_waits.1

theorem Reachable.waits (h : Reachable s) : Waits s := h.linked_waits.2

/-! ## What was sent -/

def Item.message : Item n α → Option (Fin n × Call α)
  | .send i x => some (i, x)
  | _ => none

/-- The messages that the channel holds. -/
def State.held (s : State n α) : List (Fin n × Call α) := (s.items.drop (s.hd + 1)).filterMap Item.message

/-- What `recv` is to return. -/
def Receiver.obtained : Receiver n α → List (Fin n × Call α)
  | .wake i x | .ret i x => [(i, x)]
  | _ => []

structure Account (s : State n α) : Prop where
  sent : s.sent = s.received ++ s.held
  deliver : ∀ i x r, s.senders i = .deliver x r → s.received = s.returned ++ [(i, x)]
  returned : (∀ r, s.receiver = .blocked r → s.hd < r) → s.received = s.returned ++ s.receiver.obtained

/-- A sender goes on, and takes no message to or from the channel. -/
theorem Account.goto (h : Account s) (hsenders : s'.senders = update s.senders i pc) (hpc : pc.runs = true)
    (hheld : s'.held = s.held) (hsent : s'.sent = s.sent) (hreceived : s'.received = s.received)
    (hreturned : s'.returned = s.returned) (hrecv : s'.receiver = s.receiver) (hhd : s'.hd = s.hd) :
    Account s' := by
  refine ⟨by rw [hsent, hreceived, hheld]; exact h.sent, fun j x r hj => ?_, ?_⟩
  · rw [hreceived, hreturned]
    rw [hsenders] at hj
    by_cases hji : j = i
    · rw [hji, update_self] at hj
      rw [hj] at hpc
      cases hpc
    · rw [update_of_ne hji] at hj
      exact h.deliver j x r hj
  · rw [hreceived, hreturned, hrecv, hhd]
    exact h.returned

theorem held_append (hlk : Linked s) (p : Nat) (item : Item n α) :
    (s.append p item).held = s.held ++ item.message.toList := by
  show ((s.items ++ [item]).drop (s.hd + 1)).filterMap Item.message = _
  rw [List.drop_append_of_le_length hlk.hd, List.filterMap_append]
  cases hm : item.message <;> simp [State.held, hm]

theorem Send.account (hlk : Linked s) (hw : Waits s) (h : Account s) (ha : Send s i s') : Account s' := by
  cases ha with
  | call _ | readHd _ | readTl _ | linkSome _ _ | linkNil _ _ _ | linkRecv _ _ _ _ | casTl _ _ | casTlFail _ _
  | casLinkFail _ _ | casHdFail _ _ => exact h.goto rfl rfl rfl rfl rfl rfl rfl rfl
  | @casLink x t hpc hl =>
    refine ⟨?_, fun j y r hj => ?_, h.returned⟩
    · show s.sent ++ [(i, x)] = s.received ++ (s.append t (.send i x)).held
      rw [held_append hlk, h.sent, append_assoc]
      rfl
    · by_cases hji : j = i
      · rw [hji, goto_self] at hj
        cases hj
      · rw [goto_of_ne _ hji] at hj
        exact h.deliver j y r hj
  | @casHd x h₀ t hpc hh =>
    subst hh
    obtain ⟨hitem, hblocked, hnext, hlast⟩ := hw.meets hlk hpc
    subst hnext
    have hbefore : s.held = [] := by
      obtain ⟨hlt, hget⟩ := List.getElem?_eq_some_iff.mp hitem
      rw [State.held, List.drop_eq_getElem_cons hlt, hget, List.drop_of_length_le (by omega)]
      rfl
    have hreceived : s.received = s.returned := by
      rw [h.returned, hblocked]
      · exact append_nil _
      simp [hblocked]
    refine ⟨?_, fun j y r hj => ?_, fun hlt => ?_⟩
    · show s.sent ++ [(i, x)] = s.received ++ [(i, x)] ++ (s.items.drop (s.hd + 1 + 1)).filterMap Item.message
      rw [List.drop_of_length_le (by omega), h.sent, hbefore]
      simp
    · show s.received ++ [(i, x)] = s.returned ++ [(j, y)]
      by_cases hji : j = i
      · rw [hji, goto_self] at hj
        cases hj
        rw [hji, hreceived]
      · rw [goto_of_ne _ hji] at hj
        have hr := hw.deliver j y r hj
        rw [hblocked] at hr
        obtain ⟨hr, heq⟩ := hr
        cases hr
        omega
    · exact absurd (hlt _ hblocked) (Nat.lt_irrefl _)
  | @deliver x t hpc =>
    refine ⟨h.sent, fun j y r hj => ?_, fun _ => h.deliver i x t hpc⟩
    by_cases hji : j = i
    · rw [hji, goto_self] at hj
      cases hj
    · rw [goto_of_ne _ hji] at hj
      exact absurd (hw.one j i y x r t hj hpc) hji

theorem Recv.account (hlk : Linked s) (hw : Waits s) (h : Account s) (ha : Recv s s') : Account s' := by
  have hread := hw.read
  have hreturned : (∀ r, s.receiver ≠ .blocked r) → s.received = s.returned ++ s.receiver.obtained :=
    fun hr => h.returned fun r hb => absurd hb (hr r)
  cases ha with
  | call hpc | readHd hpc | linkNil hpc _ | linkSend hpc _ _ | linkOther hpc _ _ | casLinkFail hpc _ =>
    rw [hpc] at hreturned
    exact ⟨h.sent, h.deliver, fun _ => hreturned nofun⟩
  | @casLink h₀ hpc hl =>
    rw [hpc] at hreturned
    refine ⟨?_, h.deliver, fun _ => hreturned nofun⟩
    show s.sent = s.received ++ (s.append h₀ .recv).held
    rw [held_append hlk, h.sent]
    exact (congrArg _ (append_nil _)).symm
  | @updateHd nx i x hpc =>
    rw [hpc] at hread hreturned
    obtain ⟨rfl, hitem⟩ := hread
    have hnone : ∀ j y r, s.senders j ≠ .deliver y r := fun j y r hj => by
      have hr := (hw.deliver j y r hj).1
      rw [hpc] at hr
      cases hr
    refine ⟨?_, fun j y r hj => absurd hj (hnone j y r), fun _ => ?_⟩
    · obtain ⟨hlt, hget⟩ := List.getElem?_eq_some_iff.mp hitem
      show s.sent = s.received ++ [(i, x)] ++ (s.items.drop (s.hd + 1 + 1)).filterMap Item.message
      rw [h.sent, State.held, List.drop_eq_getElem_cons hlt, hget, append_assoc]
      rfl
    · show s.received ++ [(i, x)] = s.returned ++ [(i, x)]
      rw [hreturned nofun]
      exact congrArg (· ++ [(i, x)]) (append_nil _)
  | @wake i x hpc =>
    rw [hpc] at hreturned
    refine ⟨h.sent, fun j y r hj => ?_, fun _ => hreturned nofun⟩
    by_cases hji : j = i
    · rw [hji, goto_self] at hj
      cases hj
    · rw [goto_of_ne _ hji] at hj
      exact h.deliver j y r hj
  | @ret i x hpc =>
    rw [hpc] at hreturned
    refine ⟨h.sent, fun j y r hj => ?_, fun _ => ?_⟩
    · have hr := (hw.deliver j y r hj).1
      rw [hpc] at hr
      cases hr
    · show s.received = s.returned ++ [(i, x)] ++ []
      rw [hreturned nofun, append_nil]
      rfl

theorem Reachable.account (h : Reachable s) : Account s := by
  induction h with
  | refl => exact ⟨rfl, nofun, fun _ => rfl⟩
  | tail hr hstep ih =>
    rcases hstep with ⟨i, ha⟩ | ha
    · exact ha.account (Reachable.linked hr) (Reachable.waits hr) ih
    · exact ha.account (Reachable.linked hr) (Reachable.waits hr) ih

/-! ## The order of one sender's messages -/

/-- The calls of the sender `i` among the messages. -/
def callsOf (i : Fin n) (l : List (Fin n × Call α)) : List Nat := (l.filter fun m => m.1 = i).map fun m => m.2.num

/-- The call that has sent nothing yet. -/
def Sender.pending : Sender α → Option Nat
  | .readHd x | .readTl x _ | .readLink x _ _ | .casTl x _ _ | .casLink x _ | .casHd x _ _ => some x.num
  | _ => none

/-- The sends that each thread has begun before the pending one have sent their messages, in this order. -/
structure Ordered (s : State n α) : Prop where
  pending : ∀ i k, (s.senders i).pending = some k → s.calls i = k + 1
  sent : ∀ i, callsOf i s.sent = range ((s.senders i).pending.getD (s.calls i))

theorem Ordered.goto (h : Ordered s) (hsenders : s'.senders = update s.senders i pc)
    (hpc : pc.pending = (s.senders i).pending) (hcalls : s'.calls = s.calls) (hsent : s'.sent = s.sent) :
    Ordered s' := by
  have hpending : ∀ j, (s'.senders j).pending = (s.senders j).pending := fun j => by
    rw [hsenders]
    by_cases hj : j = i
    · rw [hj, update_self, hpc]
    · rw [update_of_ne hj]
  refine ⟨fun j k hj => ?_, fun j => ?_⟩
  · rw [hpending] at hj
    rw [hcalls]
    exact h.pending j k hj
  · rw [hpending, hcalls, hsent]
    exact h.sent j

/-- The pending call sends its message. -/
theorem Ordered.send (h : Ordered s) (hsenders : s'.senders = update s.senders i pc)
    (hx : (s.senders i).pending = some x.num) (hpc : pc.pending = none) (hcalls : s'.calls = s.calls)
    (hsent : s'.sent = s.sent ++ [(i, x)]) : Ordered s' := by
  refine ⟨fun j k hj => ?_, fun j => ?_⟩
  · rw [hsenders] at hj
    rw [hcalls]
    by_cases hji : j = i
    · rw [hji, update_self, hpc] at hj
      cases hj
    · rw [update_of_ne hji] at hj
      exact h.pending j k hj
  · have hj := h.sent j
    rw [hsenders, hcalls, hsent, callsOf, List.filter_append, List.map_append]
    by_cases hji : j = i
    · subst hji
      rw [hx] at hj
      rw [update_self, hpc]
      show callsOf j s.sent ++ _ = range (s.calls j)
      rw [hj, h.pending j _ hx, List.range_succ]
      simp
    · rw [update_of_ne hji]
      show callsOf j s.sent ++ _ = _
      rw [hj]
      simp [Ne.symm hji]

theorem Ordered.call (h : Ordered s) (hidle : s.senders i = .idle) (a : α) : Ordered (s.callSend i a) := by
  refine ⟨fun j k hj => ?_, fun j => ?_⟩
  · show update s.calls i (s.calls i + 1) j = k + 1
    by_cases hji : j = i
    · subst hji
      rw [State.callSend, goto_self] at hj
      cases hj
      rw [update_self]
    · rw [State.callSend, goto_of_ne _ hji] at hj
      rw [update_of_ne hji]
      exact h.pending j k hj
  · have hj := h.sent j
    show callsOf j s.sent = range (((s.callSend i a).senders j).pending.getD
      (update s.calls i (s.calls i + 1) j))
    by_cases hji : j = i
    · subst hji
      rw [hidle] at hj
      rw [State.callSend, goto_self]
      exact hj
    · rw [State.callSend, goto_of_ne _ hji, update_of_ne hji]
      exact hj

theorem Send.ordered (h : Ordered s) (ha : Send s i s') : Ordered s' := by
  cases ha with
  | call hpc => exact h.call hpc _
  | readHd hpc | readTl hpc | linkSome hpc _ | linkNil hpc _ _ | linkRecv hpc _ _ _ | casTl hpc _ | casTlFail hpc _
  | casLinkFail hpc _ | casHdFail hpc _ | deliver hpc => exact h.goto rfl (by rw [hpc]; rfl) rfl rfl
  | casLink hpc _ | casHd hpc _ => exact h.send rfl (by rw [hpc]; rfl) rfl rfl rfl

theorem Recv.ordered (hw : Waits s) (h : Ordered s) (ha : Recv s s') : Ordered s' := by
  cases ha with
  | wake hpc => exact h.goto rfl (by rw [hw.wake _ _ hpc]; rfl) rfl rfl
  | _ => exact ⟨h.pending, h.sent⟩

theorem Reachable.ordered (h : Reachable s) : Ordered s := by
  induction h with
  | refl => exact ⟨nofun, fun _ => rfl⟩
  | tail hr hstep ih =>
    rcases hstep with ⟨i, ha⟩ | ha
    · exact ha.ordered ih
    · exact ha.ordered (Reachable.waits hr) ih

/-! ## What the channel promises -/

/-- What a sender hands to the blocked receiver. -/
def Sender.handed (i : Fin n) : Sender α → List (Fin n × Call α)
  | .deliver x _ => [(i, x)]
  | _ => []

/-- The messages on their way to the return of `recv`. -/
def State.transit (s : State n α) : Multiset (Fin n × Call α) :=
  s.receiver.obtained + ∑ i, ((s.senders i).handed i : Multiset (Fin n × Call α))

theorem Reachable.received (h : Reachable s) : ∃ l, s.received = s.returned ++ l ∧ (l : Multiset _) = s.transit := by
  have hw := h.waits
  have hacc := h.account
  -- the sum has at most one summand, that of the sender that has met the receiver
  by_cases hdel : ∃ i x r, s.senders i = .deliver x r
  · obtain ⟨i, x, r, hi⟩ := hdel
    have hrecv := (hw.deliver i x r hi).1
    have hsum : (∑ j, ((s.senders j).handed j : Multiset (Fin n × Call α))) = {(i, x)} := by
      rw [Finset.sum_eq_single i]
      · rw [hi]
        rfl
      · intro j _ hj
        cases hpc : s.senders j with
        | deliver y p => exact absurd (hw.one j i y x p r hpc hi) hj
        | _ => rfl
      · exact fun hmem => absurd (Finset.mem_univ i) hmem
    refine ⟨[(i, x)], hacc.deliver i x r hi, ?_⟩
    rw [State.transit, hsum, hrecv]
    rfl
  · have hsum : (∑ j, ((s.senders j).handed j : Multiset (Fin n × Call α))) = 0 := by
      refine Finset.sum_eq_zero fun j _ => ?_
      cases hpc : s.senders j with
      | deliver y p => exact absurd ⟨j, y, p, hpc⟩ hdel
      | _ => rfl
    refine ⟨s.receiver.obtained, hacc.returned fun r hr => ?_, ?_⟩
    · rcases (hw.blocked r hr).2 with ⟨hlt, -⟩ | ⟨-, i, x, hi⟩
      · omega
      · exact absurd ⟨i, x, r, hi⟩ hdel
    · rw [State.transit, hsum, add_zero]

/-- What is a prefix of the messages sent has each sender's first ones, in their order. -/
theorem callsOf_prefix (h : Reachable s) {l : List (Fin n × Call α)} (hl : l <+: s.sent) (i : Fin n) :
    ∃ k, callsOf i l = range k := by
  have hp : callsOf i l <+: callsOf i s.sent := (hl.filter _).map _
  rw [h.ordered.sent i, List.prefix_iff_eq_take, List.take_range] at hp
  exact ⟨_, hp⟩

/-- Calls are told apart by their thread and number. -/
theorem count_callsOf (l : List (Fin n × Call α)) (i : Fin n) (k : Nat) :
    (l.map fun m => (m.1, m.2.num)).count (i, k) = (callsOf i l).count k := by
  induction l with
  | nil => rfl
  | cons m l ih =>
    rw [List.map_cons, List.count_cons, ih]
    by_cases hm : m.1 = i
    · simp [callsOf, hm, List.count_cons]
    · simp [callsOf, hm]

theorem sent_nodup (h : Reachable s) : (s.sent.map fun m => (m.1, m.2.num)).Nodup := by
  rw [List.nodup_iff_count_le_one]
  intro m
  rw [count_callsOf, h.ordered.sent]
  exact List.nodup_iff_count_le_one.mp List.nodup_range _

/-- What a fan-in channel promises. -/
structure Sound (s : State n α) : Prop where
  /-- What was sent has been received, is on its way to the receiver or is held by the channel; messages are told apart
      by their calls. -/
  once : (s.returned : Multiset (Fin n × Call α)) + s.transit + s.held = s.sent
  calls : (s.sent.map fun m => (m.1, m.2.num)).Nodup
  /-- They are received in the order in which they were sent, those of one sender in the order of its calls. -/
  fifo : s.returned <+: s.sent
  order : ∀ i, ∃ k, callsOf i s.returned = range k
  expected : s.receiver ≠ .failed

theorem fanIn_sound (h : Reachable s) : Sound s := by
  obtain ⟨l, hl, htransit⟩ := h.received
  have hsent := h.account.sent
  rw [hl] at hsent
  have hfifo : s.returned <+: s.sent := by
    rw [hsent, append_assoc]
    exact List.prefix_append _ _
  refine ⟨?_, sent_nodup h, hfifo, callsOf_prefix h hfifo, fun hf => ?_⟩
  · rw [hsent, ← htransit, Multiset.coe_add, Multiset.coe_add]
  · have hread := h.waits.read
    rw [hf] at hread
    exact hread

/-- A sender is about to hand its message to the blocked receiver. -/
theorem fanIn_sound_deliver : ∃ s : State 1 Nat, s.senders 0 = .deliver ⟨0, 7⟩ 1 ∧ s.receiver = .blocked 1 ∧
    Sound s := by
  have h₀ : Reachable (chanNew 1 Nat) := .refl
  have h₁ := h₀.tail (.inr (.call rfl))
  have h₂ := h₁.tail (.inr (.readHd rfl))
  have h₃ := h₂.tail (.inr (.linkNil rfl rfl))
  have h₄ := h₃.tail (.inr (.casLink rfl rfl))
  have h₅ := h₄.tail (.inl ⟨0, .call (a := 7) rfl⟩)
  have h₆ := h₅.tail (.inl ⟨0, .readHd (goto_self _ _ _)⟩)
  have h₇ := h₆.tail (.inl ⟨0, .readTl (goto_self _ _ _)⟩)
  have h₈ := h₇.tail (.inl ⟨0, .linkSome (goto_self _ _ _) rfl⟩)
  have h₉ := h₈.tail (.inl ⟨0, .casTl (goto_self _ _ _) rfl⟩)
  have h₁₀ := h₉.tail (.inl ⟨0, .readHd (goto_self _ _ _)⟩)
  have h₁₁ := h₁₀.tail (.inl ⟨0, .readTl (goto_self _ _ _)⟩)
  have h₁₂ := h₁₁.tail (.inl ⟨0, .linkRecv (goto_self _ _ _) rfl rfl (by decide)⟩)
  have h₁₃ := h₁₂.tail (.inl ⟨0, .casHd (goto_self _ _ _) rfl⟩)
  exact ⟨_, goto_self _ _ _, rfl, fanIn_sound h₁₃⟩

end Manticore.Cml.FanIn
