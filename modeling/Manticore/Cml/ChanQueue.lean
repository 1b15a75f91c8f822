/-
  Manticore.Cml.ChanQueue — the queues of a channel, as linked items (`cml/alt-prim-chan.pml`).

  A channel has the head and the tail of its two queues; an item has a link. The holder of the channel's lock runs
  these operations, which `Manticore.Cml.Event` takes for operations on lists.

  - `Holds.enqueue`, `Holds.dequeue`, `Holds.dequeueMatch`, `Holds.push`: each does what the list operation does.
  - `queues_refine`: so does every sequence of them on any channels, from empty queues on.
  - `queues_of_threads`: the lists are those of the threads in `Manticore.Cml.Event`.
-/

import Manticore.Cml.EventCommit
import Manticore.Library.LinkedList

namespace Manticore.Cml.ChanQueue

open Event LinkedList
open Function (update)

variable {I C V α : Type} {n : Nat} {content : I → Item n C V α}

/-- The heads and tails of all channels, and the links of the items. -/
structure Heap (I C : Type) where
  hd : C → Side → Option I
  tl : C → Side → Option I
  link : I → Option I

/-- The queues as lists of items. -/
abbrev Queues (I C : Type) := C → Side → List I

section

variable [DecidableEq C] [DecidableEq I]

namespace Heap

variable (h : Heap I C) (ch : C) (d : Side)

def setHd (o : Option I) : Heap I C := { h with hd := update h.hd ch (update (h.hd ch) d o) }

def setTl (o : Option I) : Heap I C := { h with tl := update h.tl ch (update (h.tl ch) d o) }

def setLink (item : I) (o : Option I) : Heap I C := { h with link := update h.link item o }

/-- `@chan-enqueue-recv`, `@chan-enqueue-send`. -/
def enqueue (item : I) : Heap I C :=
  let h := h.setLink item none
  match h.tl ch d with
  | none => (h.setHd ch d (some item)).setTl ch d (some item)
  | some tl => (h.setLink tl (some item)).setTl ch d (some item)

/-- `@chan-dequeue-recv`, `@chan-dequeue-send`. -/
def dequeue : Option I × Heap I C := match h.hd ch d with
  | none => (none, h)
  | some hd =>
    let next := h.link hd
    let h := h.setHd ch d next
    match next with
    | none => (some hd, h.setTl ch d none)
    | some _ => (some hd, h)

/-- `item`, which comes after `prev`, is taken out. -/
def unlink (prev : Option I) (item : I) : Heap I C :=
  let next := h.link item
  let h := match prev with
    | none => h.setHd ch d next
    | some prev => h.setLink prev next
  match next with
  | none => h.setTl ch d prev
  | some _ => h

/-- `find` of `@chan-dequeue-recv-match` and `@chan-dequeue-send-match`. -/
def find (flag : I → Flag n) (id : Flag n) : Nat → Option I → Option I → Option (Option I × Heap I C)
  | 0, _, _ => none
  | _ + 1, _, none => some (none, h)
  | fuel + 1, prev, some item =>
    if id ≠ flag item then some (some item, h.unlink ch d prev item)
    else find flag id fuel (some item) (h.link item)

def dequeueMatch (flag : I → Flag n) (id : Flag n) (fuel : Nat) : Option (Option I × Heap I C) :=
  h.find ch d flag id fuel none (h.hd ch d)

/-- `@chan-push-recv`, `@chan-push-send`. -/
def push (item : I) : Heap I C :=
  let hd := h.hd ch d
  let h := (h.setLink item hd).setHd ch d (some item)
  match hd with
  | none => h.setTl ch d (some item)
  | some _ => h

end Heap

def Queues.set (q : Queues I C) (ch : C) (d : Side) (l : List I) : Queues I C :=
  update q ch (update (q ch) d l)

/-! ## What the links represent -/

structure Holds (h : Heap I C) (q : Queues I C) : Prop where
  linked : ∀ ch d, Linked h.link (h.hd ch d) (q ch d)
  tail : ∀ ch d, h.tl ch d = (q ch d).getLast?
  nodup : ∀ ch d, (q ch d).Nodup
  /-- An item is in one queue. -/
  apart : ∀ ch d ch' d', ∀ item ∈ q ch d, item ∈ q ch' d' → ch = ch' ∧ d = d'

variable {h h' : Heap I C} {q : Queues I C} {ch : C} {d : Side} {item : I} {l : List I}

omit [DecidableEq I] in
@[grind =] theorem Queues.set_eq (q : Queues I C) (ch ch' : C) (d d' : Side) (l : List I) :
    q.set ch d l ch' d' = if ch' = ch ∧ d' = d then l else q ch' d' := update_side q ch ch' d d' l

omit [DecidableEq I] in
/-- One queue changes; only the links of its items and of items in no queue do. -/
theorem Holds.set (hq : Holds h q) (hlinked : Linked h'.link (h'.hd ch d) l) (htail : h'.tl ch d = l.getLast?)
    (hnodup : l.Nodup) (hmem : ∀ x ∈ l, ∀ ch' d', x ∈ q ch' d' → ch' = ch ∧ d' = d)
    (hhd : ∀ ch' d', ¬(ch' = ch ∧ d' = d) → h'.hd ch' d' = h.hd ch' d')
    (htl : ∀ ch' d', ¬(ch' = ch ∧ d' = d) → h'.tl ch' d' = h.tl ch' d')
    (hlink : ∀ ch' d', ¬(ch' = ch ∧ d' = d) → ∀ x ∈ q ch' d', h'.link x = h.link x) : Holds h' (q.set ch d l) := by
  obtain ⟨hlinked', htail', hnodup', hapart⟩ := hq
  refine ⟨fun ch' d' => ?_, by grind, by grind, fun ch₁ d₁ ch₂ d₂ x hx hx' => ?_⟩
  · rw [Queues.set_eq]
    split
    · next he => rwa [he.1, he.2]
    · next he => exact hhd ch' d' he ▸ (hlinked' ch' d').congr (hlink ch' d' he)
  · rw [Queues.set_eq] at hx hx'
    have hmem₁ := hmem x
    have hapart' := hapart ch₁ d₁ ch₂ d₂ x
    grind

omit [DecidableEq I] in
theorem Queues.set_self (q : Queues I C) (ch : C) (d : Side) : q.set ch d (q ch d) = q := by
  funext ch' d'
  grind

omit [DecidableEq I] in
@[grind =] theorem hd_setHd (h : Heap I C) (ch ch' : C) (d d' : Side) (o : Option I) :
    (h.setHd ch d o).hd ch' d' = if ch' = ch ∧ d' = d then o else h.hd ch' d' := update_side h.hd ch ch' d d' o

omit [DecidableEq I] in
@[grind =] theorem tl_setTl (h : Heap I C) (ch ch' : C) (d d' : Side) (o : Option I) :
    (h.setTl ch d o).tl ch' d' = if ch' = ch ∧ d' = d then o else h.tl ch' d' := update_side h.tl ch ch' d d' o

omit [DecidableEq C] in
@[grind =] theorem link_setLink (h : Heap I C) (item x : I) (o : Option I) :
    (h.setLink item o).link x = if x = item then o else h.link x := Function.update_apply _ _ _ _

variable (o : Option I)

omit [DecidableEq I] in
@[grind =] theorem tl_setHd (ch' : C) (d' : Side) : (h.setHd ch d o).tl ch' d' = h.tl ch' d' := rfl

omit [DecidableEq I] in
@[grind =] theorem link_setHd (x : I) : (h.setHd ch d o).link x = h.link x := rfl

omit [DecidableEq I] in
@[grind =] theorem hd_setTl (ch' : C) (d' : Side) : (h.setTl ch d o).hd ch' d' = h.hd ch' d' := rfl

omit [DecidableEq I] in
@[grind =] theorem link_setTl (x : I) : (h.setTl ch d o).link x = h.link x := rfl

omit [DecidableEq C] in
@[grind =] theorem hd_setLink (ch' : C) (d' : Side) : (h.setLink item o).hd ch' d' = h.hd ch' d' := rfl

omit [DecidableEq C] in
@[grind =] theorem tl_setLink (ch' : C) (d' : Side) : (h.setLink item o).tl ch' d' = h.tl ch' d' := rfl

theorem Holds.enqueue (hq : Holds h q) (hfresh : ∀ ch d, item ∉ q ch d) :
    Holds (h.enqueue ch d item) (q.set ch d (q ch d ++ [item])) := by
  have hnodup : (q ch d ++ [item]).Nodup := by grind [hq.nodup ch d]
  have hmem : ∀ x ∈ q ch d ++ [item], ∀ ch' d', x ∈ q ch' d' → ch' = ch ∧ d' = d := by grind [hq.apart]
  have htail := hq.tail ch d
  have hlinked := hq.linked ch d
  unfold Heap.enqueue
  dsimp only
  split
  · next htl =>
    rw [tl_setLink, htail, List.getLast?_eq_none_iff] at htl
    rw [htl] at hnodup hmem ⊢
    refine hq.set ?_ ?_ hnodup hmem ?_ ?_ ?_
    · simp only [List.nil_append]
      exact ⟨by grind, by grind [linked_nil]⟩
    all_goals grind
  · next t htl =>
    rw [tl_setLink, htail] at htl
    obtain ⟨l, hl⟩ := List.getLast?_eq_some_iff.mp htl
    have hdisj := hq.nodup ch d
    rw [hl] at hlinked hnodup hmem hdisj ⊢
    refine hq.set ?_ ?_ hnodup hmem ?_ ?_ ?_
    · rw [List.append_assoc]
      exact hlinked.snoc (by grind) (by grind) (by grind)
    all_goals grind [hq.apart]

omit [DecidableEq I] in
theorem Holds.dequeue (hq : Holds h q) (ch : C) (d : Side) :
    (h.dequeue ch d).1 = (q ch d).head? ∧ Holds (h.dequeue ch d).2 (q.set ch d (q ch d).tail) := by
  have hlinked := hq.linked ch d
  have htail := hq.tail ch d
  cases hl : q ch d with
  | nil =>
    rw [hl] at hlinked
    have hhd : h.hd ch d = none := hlinked
    grind [Heap.dequeue, Queues.set_self]
  | cons item l =>
    rw [hl] at hlinked htail
    obtain ⟨hhd, hrest⟩ := hlinked
    have hnodup := hq.nodup ch d
    have hmem : ∀ x ∈ l, ∀ ch' d', x ∈ q ch' d' → ch' = ch ∧ d' = d := by grind [hq.apart]
    unfold Heap.dequeue
    rw [hhd]
    dsimp only
    split
    · next hnext =>
      rw [hnext, linked_none] at hrest
      subst hrest
      refine ⟨rfl, hq.set ?_ ?_ List.nodup_nil nofun ?_ ?_ ?_⟩
      all_goals grind [linked_nil]
    · next next hnext =>
      refine ⟨rfl, hq.set ?_ ?_ (by grind) hmem ?_ ?_ fun _ _ _ _ _ => rfl⟩
      · rw [hd_setHd, if_pos ⟨rfl, rfl⟩]
        exact hrest
      all_goals grind [linked_nil]

theorem Holds.push (hq : Holds h q) (hfresh : ∀ ch d, item ∉ q ch d) :
    Holds (h.push ch d item) (q.set ch d (item :: q ch d)) := by
  have hlinked := hq.linked ch d
  have htail := hq.tail ch d
  have hnodup : (item :: q ch d).Nodup := List.nodup_cons.mpr ⟨hfresh ch d, hq.nodup ch d⟩
  have hmem : ∀ x ∈ item :: q ch d, ∀ ch' d', x ∈ q ch' d' → ch' = ch ∧ d' = d := by grind [hq.apart]
  have hlinked' : Linked (h.setLink item (h.hd ch d)).link (some item) (item :: q ch d) :=
    hlinked.push (by grind) (by grind)
  have hhd : ((h.setLink item (h.hd ch d)).setHd ch d (some item)).hd ch d = some item := by grind
  unfold Heap.push
  dsimp only
  split
  · next hnil =>
    rw [hnil, linked_none] at hlinked
    refine hq.set (hhd.symm ▸ hlinked') ?_ hnodup hmem ?_ ?_ ?_
    all_goals grind
  · next b hb =>
    refine hq.set (hhd.symm ▸ hlinked') ?_ hnodup hmem ?_ ?_ ?_
    · cases hl : q ch d <;> grind [linked_nil]
    all_goals grind

/-- The item is taken out of the middle of the queue. -/
theorem Holds.unlink (hq : Holds h q) {r : List I} (hl : q ch d = l ++ item :: r) :
    Holds (h.unlink ch d l.getLast? item) (q.set ch d (l ++ r)) := by
  have hlinked := hq.linked ch d
  have htail := hq.tail ch d
  have hnodup := hq.nodup ch d
  rw [hl] at hlinked htail hnodup
  have hsub : (l ++ r).Sublist (l ++ item :: r) := (List.sublist_cons_self item r).append_left l
  have hnodup' := hnodup.sublist hsub
  have hmem : ∀ x ∈ l ++ r, ∀ ch' d', x ∈ q ch' d' → ch' = ch ∧ d' = d := fun x hx ch' d' hx' =>
    hq.apart ch' d' ch d x hx' (by rw [hl]; exact hsub.subset hx)
  have hnext : h.link item = r.head? := hlinked.right
  -- the link before the item
  obtain ⟨h₁, heq₁, hlinked₁, htl₁, hhd₁, hlink₁⟩ : ∃ h₁ : Heap I C, h₁ = (match l.getLast? with
        | none => h.setHd ch d (h.link item)
        | some prev => h.setLink prev (h.link item)) ∧ Linked h₁.link (h₁.hd ch d) (l ++ r) ∧ h₁.tl = h.tl ∧
      (∀ ch' d', ¬(ch' = ch ∧ d' = d) → h₁.hd ch' d' = h.hd ch' d') ∧
      ∀ ch' d', ¬(ch' = ch ∧ d' = d) → ∀ x ∈ q ch' d', h₁.link x = h.link x := by
    refine ⟨_, rfl, ?_⟩
    rcases List.eq_nil_or_concat l with rfl | ⟨l', prev, rfl⟩
    · refine ⟨?_, rfl, by grind, fun _ _ _ _ _ => rfl⟩
      show Linked h.link ((h.setHd ch d (h.link item)).hd ch d) r
      rw [hd_setHd, if_pos ⟨rfl, rfl⟩]
      exact hlinked.2
    · rw [List.concat_eq_append] at hl hlinked hnodup ⊢
      rw [List.getLast?_concat]
      have hprev : prev ∈ q ch d := by grind
      refine ⟨?_, rfl, fun _ _ _ => rfl, by grind [hq.apart]⟩
      rw [List.append_assoc] at hlinked hnodup ⊢
      exact hlinked.remove (by grind) (by grind)
  have heq : h.unlink ch d l.getLast? item = match r.head? with
      | none => h₁.setTl ch d l.getLast?
      | some _ => h₁ := by rw [heq₁, ← hnext]; rfl
  rw [heq]
  cases r with
  | nil | cons => exact hq.set hlinked₁ (by grind) hnodup' hmem hhd₁ (by grind) hlink₁

/-! ## The operations on lists -/

/-- The first item with another flag, and the others. -/
def takeMatch (flag : I → Flag n) (id : Flag n) : List I → Option (I × List I)
  | [] => none
  | item :: l => if id ≠ flag item then some (item, l) else (takeMatch flag id l).map fun r => (r.1, item :: r.2)

omit [DecidableEq C] [DecidableEq I] in
theorem takeMatch_map (content : I → Item n C V α) (id : Flag n) (l : List I) :
    dequeueMatch id (l.map content) =
      (takeMatch (fun item => (content item).flag) id l).map fun r => (content r.1, r.2.map content) := by
  induction l with
  | nil => rfl
  | cons item l ih =>
    rw [List.map_cons, dequeueMatch, takeMatch]
    by_cases hid : id ≠ (content item).flag
    · rw [if_pos hid, if_pos hid]
      rfl
    · rw [if_neg hid, if_neg hid, ih, Option.map_map, Option.map_map]
      rfl

theorem find_spec (hq : Holds h q) (flag : I → Flag n) (id : Flag n) (ch : C) (d : Side) {l r : List I} (hl : q ch d = l ++ r) :
    match takeMatch flag id r with
    | none => ∀ fuel, r.length < fuel → h.find ch d flag id fuel l.getLast? r.head? = some (none, h)
    | some (item, r') => ∃ h', (∀ fuel, r.length < fuel →
          h.find ch d flag id fuel l.getLast? r.head? = some (some item, h')) ∧ Holds h' (q.set ch d (l ++ r')) := by
  induction r generalizing l with
  | nil =>
    intro fuel hfuel
    cases fuel with
    | zero => cases hfuel
    | succ fuel => rfl
  | cons item r ih =>
    have hlinked := hq.linked ch d
    rw [hl] at hlinked
    have hfind : ∀ fuel, (item :: r).length < fuel + 1 → r.length < fuel ∧
        h.find ch d flag id (fuel + 1) l.getLast? (item :: r).head? =
          if id ≠ flag item then some (some item, h.unlink ch d l.getLast? item)
          else h.find ch d flag id fuel (l ++ [item]).getLast? r.head? := fun fuel hfuel => by
      rw [List.getLast?_concat, ← hlinked.right]
      exact ⟨Nat.lt_of_succ_lt_succ hfuel, rfl⟩
    rw [takeMatch]
    by_cases hid : id ≠ flag item
    · rw [if_pos hid]
      refine ⟨_, fun fuel hfuel => ?_, hq.unlink hl⟩
      cases fuel with
      | zero => cases hfuel
      | succ fuel => exact (hfind fuel hfuel).2.trans (if_pos hid)
    · rw [if_neg hid]
      have hrest := ih (l := l ++ [item]) (by rw [hl, List.append_assoc]; rfl)
      cases htake : takeMatch flag id r with
      | none =>
        rw [htake] at hrest
        intro fuel hfuel
        cases fuel with
        | zero => cases hfuel
        | succ fuel => exact (hfind fuel hfuel).2.trans ((if_neg hid).trans (hrest fuel (hfind fuel hfuel).1))
      | some res =>
        rw [htake] at hrest
        obtain ⟨h', hrest, hholds⟩ := hrest
        rw [List.append_assoc] at hholds
        refine ⟨h', fun fuel hfuel => ?_, hholds⟩
        cases fuel with
        | zero => cases hfuel
        | succ fuel => exact (hfind fuel hfuel).2.trans ((if_neg hid).trans (hrest fuel (hfind fuel hfuel).1))

/-- An operation of the holder of a channel's lock. -/
inductive Op (n : Nat) (I C : Type) where
  | enqueue (ch : C) (d : Side) (item : I)
  | dequeue (ch : C) (d : Side)
  | dequeueMatch (ch : C) (d : Side) (id : Flag n)
  | push (ch : C) (d : Side) (item : I)

def Heap.exec (h : Heap I C) (flag : I → Flag n) (fuel : Nat) : Op n I C → Option (Option I × Heap I C)
  | .enqueue ch d item => some (none, h.enqueue ch d item)
  | .dequeue ch d => some (h.dequeue ch d)
  | .dequeueMatch ch d id => h.dequeueMatch ch d flag id fuel
  | .push ch d item => some (none, h.push ch d item)

def Heap.run (h : Heap I C) (flag : I → Flag n) (fuel : Nat) : List (Op n I C) → Option (List (Option I) × Heap I C)
  | [] => some ([], h)
  | op :: ops =>
    (h.exec flag fuel op).bind fun r => (r.2.run flag fuel ops).map fun rs => (r.1 :: rs.1, rs.2)

def Queues.exec (q : Queues I C) (flag : I → Flag n) : Op n I C → Option I × Queues I C
  | .enqueue ch d item => (none, q.set ch d (q ch d ++ [item]))
  | .dequeue ch d => ((q ch d).head?, q.set ch d (q ch d).tail)
  | .dequeueMatch ch d id => match takeMatch flag id (q ch d) with
    | none => (none, q)
    | some (item, l) => (some item, q.set ch d l)
  | .push ch d item => (none, q.set ch d (item :: q ch d))

def Queues.run (q : Queues I C) (flag : I → Flag n) : List (Op n I C) → List (Option I) × Queues I C
  | [] => ([], q)
  | op :: ops =>
    let r := q.exec flag op
    let rs := r.2.run flag ops
    (r.1 :: rs.1, rs.2)

/-- An item that is enqueued or pushed is in no queue. -/
def Op.Allowed (q : Queues I C) : Op n I C → Prop
  | .enqueue _ _ item | .push _ _ item => ∀ ch d, item ∉ q ch d
  | _ => True

def Allowed (flag : I → Flag n) (q : Queues I C) : List (Op n I C) → Prop
  | [] => True
  | op :: ops => op.Allowed q ∧ Allowed flag (q.exec flag op).2 ops

theorem exec_refines (hq : Holds h q) (flag : I → Flag n) {op : Op n I C} (hop : op.Allowed q) :
    ∃ N h', (∀ fuel, N ≤ fuel → h.exec flag fuel op = some ((q.exec flag op).1, h')) ∧
      Holds h' (q.exec flag op).2 := by
  cases op with
  | enqueue ch d item => exact ⟨0, _, fun _ _ => rfl, hq.enqueue hop⟩
  | dequeue ch d =>
    obtain ⟨hres, hholds⟩ := hq.dequeue ch d
    exact ⟨0, _, fun _ _ => congrArg some (Prod.ext hres rfl), hholds⟩
  | push ch d item => exact ⟨0, _, fun _ _ => rfl, hq.push hop⟩
  | dequeueMatch ch d id =>
    have hfind := find_spec (l := []) hq flag id ch d rfl
    have hhd := (hq.linked ch d).head
    rw [Queues.exec]
    cases htake : takeMatch flag id (q ch d) with
    | none =>
      rw [htake] at hfind
      refine ⟨(q ch d).length + 1, h, fun fuel hfuel => ?_, hq⟩
      rw [Heap.exec, Heap.dequeueMatch, hhd]
      exact hfind fuel hfuel
    | some res =>
      rw [htake] at hfind
      obtain ⟨h', hfind, hholds⟩ := hfind
      refine ⟨(q ch d).length + 1, h', fun fuel hfuel => ?_, hholds⟩
      rw [Heap.exec, Heap.dequeueMatch, hhd]
      exact hfind fuel hfuel

/-- Sequences of operations, with enough fuel for `find`. -/
theorem run_refines (hq : Holds h q) (flag : I → Flag n) {ops : List (Op n I C)} (hops : Allowed flag q ops) :
    ∃ N h', (∀ fuel, N ≤ fuel → h.run flag fuel ops = some ((q.run flag ops).1, h')) ∧ Holds h' (q.run flag ops).2 := by
  induction ops generalizing h q with
  | nil => exact ⟨0, h, fun _ _ => rfl, hq⟩
  | cons op ops ih =>
    obtain ⟨N, h₁, hexec, hholds₁⟩ := exec_refines hq flag hops.1
    obtain ⟨N', h', hrun, hholds⟩ := ih hholds₁ hops.2
    refine ⟨max N N', h', fun fuel hfuel => ?_, hholds⟩
    rw [Heap.run, hexec fuel (by omega), Option.bind_some, hrun fuel (by omega)]
    rfl

def Heap.empty : Heap I C := ⟨fun _ _ => none, fun _ _ => none, fun _ => none⟩

def Queues.empty : Queues I C := fun _ _ => []

omit [DecidableEq C] [DecidableEq I] in
theorem holds_empty : Holds (Heap.empty : Heap I C) Queues.empty :=
  ⟨fun _ _ => rfl, fun _ _ => rfl, fun _ _ => List.nodup_nil, nofun⟩

omit [DecidableEq I] in
/-- Only items of the same flag are passed over. -/
theorem takeMatch_eq (flag : I → Flag n) (id : Flag n) (l : List I) :
    takeMatch flag id l = (l.find? (id ≠ flag ·)).map fun item => (item, l.eraseP (id ≠ flag ·)) := by
  induction l with
  | nil => rfl
  | cons item l ih =>
    rw [takeMatch, List.find?_cons, List.eraseP_cons, ih]
    by_cases hid : id ≠ flag item <;> simp [hid, Function.comp_def]

/-- From empty queues on, the links are those of lists: `dequeue` takes the first item, and `dequeueMatch` the first of
    another flag, whether or not it can still be claimed. -/
theorem queues_refine (flag : I → Flag n) {ops : List (Op n I C)} (hops : Allowed flag Queues.empty ops) :
    ∃ N h', (∀ fuel, N ≤ fuel → Heap.empty.run flag fuel ops = some ((Queues.empty.run flag ops).1, h')) ∧
      (∀ ch d, Linked h'.link (h'.hd ch d) ((Queues.empty.run flag ops).2 ch d) ∧
        h'.tl ch d = ((Queues.empty.run flag ops).2 ch d).getLast? ∧
        ((Queues.empty.run flag ops).2 ch d = [] ↔ h'.hd ch d = none ∧ h'.tl ch d = none)) ∧
      ∀ id l, takeMatch flag id l = (l.find? (id ≠ flag ·)).map fun item => (item, l.eraseP (id ≠ flag ·)) := by
  obtain ⟨N, h', hrun, hholds⟩ := run_refines holds_empty flag hops
  refine ⟨N, h', hrun, fun ch d => ⟨hholds.linked ch d, hholds.tail ch d, ?_⟩, takeMatch_eq flag⟩
  rw [(hholds.linked ch d).head, hholds.tail ch d, List.head?_eq_none_iff, List.getLast?_eq_none_iff, and_self]

/-- The flag of an item, and that of item 0 is synched already. -/
def ownFlag (item : Nat) : Flag 1 := ⟨(⟨0, Nat.one_pos⟩, item), false⟩

def firstSynched (flg : Flag 1) : Status := if flg.call.2 = 0 then .synched else .waiting

def twoDequeue : List (Op 1 Nat Unit) := [.enqueue () .recv 0, .enqueue () .recv 1, .dequeue () .recv]

theorem twoDequeue_allowed : Allowed ownFlag Queues.empty twoDequeue :=
  ⟨nofun, fun ch d => by cases ch; cases d <;> decide, trivial, trivial⟩

theorem queues_refine_two :
    ∃ N h', (∀ fuel, N ≤ fuel → Heap.empty.run ownFlag fuel twoDequeue =
      some ((Queues.empty.run ownFlag twoDequeue).1, h')) ∧ Linked h'.link (h'.hd () .recv) [1] := by
  obtain ⟨N, h', hrun, hlinked, -⟩ := queues_refine ownFlag twoDequeue_allowed
  exact ⟨N, h', hrun, (hlinked () .recv).1⟩

/-- A synched item is dequeued before one that can be claimed. -/
theorem dequeue_synched : Allowed ownFlag Queues.empty twoDequeue ∧
    (Heap.empty.run ownFlag 3 twoDequeue).map Prod.fst = some [none, none, some 0] ∧
    firstSynched (ownFlag 0) = .synched ∧ firstSynched (ownFlag 1) = .waiting :=
  ⟨twoDequeue_allowed, rfl, rfl, rfl⟩

/-! ## The queues of the threads -/

variable {s : State n C V α}

/-- The queues of the state are those of the items. -/
def Of (content : I → Item n C V α) (q : Queues I C) (s : State n C V α) : Prop :=
  ∀ ch d, s.queue ch d = (q ch d).map content

/-- The operation as the steps of the threads do it. -/
def execOn (content : I → Item n C V α) (s : State n C V α) : Op n I C → Option (Item n C V α) × State n C V α
  | .enqueue ch d item => (none, s.enqueue ch d (content item))
  | .dequeue ch d => taken ch d (Event.dequeue (s.queue ch d))
  | .dequeueMatch ch d id => taken ch d (Event.dequeueMatch id (s.queue ch d))
  | .push ch d item => (none, s.setQueue ch d (content item :: s.queue ch d))
where
  taken (ch : C) (d : Side) : Option (Item n C V α × List (Item n C V α)) → Option (Item n C V α) × State n C V α
    | none => (none, s)
    | some (item, l) => (some item, s.setQueue ch d l)

def runOn (content : I → Item n C V α) (s : State n C V α) : List (Op n I C) → List (Option (Item n C V α)) × State n C V α
  | [] => ([], s)
  | op :: ops =>
    let r := execOn content s op
    let rs := runOn content r.2 ops
    (r.1 :: rs.1, rs.2)

omit [DecidableEq I] in
theorem Of.set (h : Of content q s) (ch : C) (d : Side) (l : List I) :
    Of content (q.set ch d l) (s.setQueue ch d (l.map content)) := by
  intro ch' d'
  rw [queue_setQueue, Queues.set_eq]
  split
  · rfl
  · exact h ch' d'

omit [DecidableEq I] in
theorem Of.exec (h : Of content q s) (op : Op n I C) :
    (execOn content s op).1 = (q.exec (fun item => (content item).flag) op).1.map content ∧
      Of content (q.exec (fun item => (content item).flag) op).2 (execOn content s op).2 := by
  cases op with
  | enqueue ch d item =>
    have hset := h.set ch d (q ch d ++ [item])
    rw [List.map_append, ← h ch d] at hset
    exact ⟨rfl, hset⟩
  | push ch d item =>
    have hset := h.set ch d (item :: q ch d)
    rw [List.map_cons, ← h ch d] at hset
    exact ⟨rfl, hset⟩
  | dequeue ch d =>
    rw [execOn, h ch d, Queues.exec]
    cases hq : q ch d with
    | nil =>
      have hself : q.set ch d [] = q := by rw [← hq, Queues.set_self]
      exact ⟨rfl, by rwa [List.tail_nil, hself]⟩
    | cons item l => exact ⟨rfl, h.set ch d l⟩
  | dequeueMatch ch d id =>
    rw [execOn, h ch d, takeMatch_map, Queues.exec]
    cases takeMatch (fun item => (content item).flag) id (q ch d) with
    | none => exact ⟨rfl, h⟩
    | some r => exact ⟨rfl, h.set ch d r.2⟩

omit [DecidableEq I] in
theorem Of.run (h : Of content q s) (ops : List (Op n I C)) :
    (runOn content s ops).1 = (q.run (fun item => (content item).flag) ops).1.map (Option.map content) ∧
      Of content (q.run (fun item => (content item).flag) ops).2 (runOn content s ops).2 := by
  induction ops generalizing q s with
  | nil => exact ⟨rfl, h⟩
  | cons op ops ih =>
    obtain ⟨hres, hof⟩ := h.exec op
    obtain ⟨hrest, hof⟩ := ih hof
    exact ⟨congrArg₂ List.cons hres hrest, hof⟩

/-- On channels whose queues are empty the linked items do what the steps of the threads do with lists. -/
theorem queues_of_threads (content : I → Item n C V α) (hs : ∀ ch d, s.queue ch d = []) {ops : List (Op n I C)}
    (hops : Allowed (fun item => (content item).flag) Queues.empty ops) :
    ∃ N h' rs, ∃ q : Queues I C, (∀ fuel, N ≤ fuel → Heap.empty.run (fun item => (content item).flag) fuel ops = some (rs, h')) ∧
      (runOn content s ops).1 = rs.map (Option.map content) ∧
      ∀ ch d, Linked h'.link (h'.hd ch d) (q ch d) ∧ (runOn content s ops).2.queue ch d = (q ch d).map content := by
  obtain ⟨N, h', hrun, hholds⟩ := run_refines holds_empty _ hops
  obtain ⟨hres, hof⟩ := (show Of content Queues.empty s from hs).run ops
  exact ⟨N, h', _, _, hrun, hres, fun ch d => ⟨hholds.linked ch d, hof ch d⟩⟩

theorem queues_of_threads_two : ∃ rs : List (Option Nat),
    (runOn (fun k => ⟨ownFlag k, (.chan (.recv ()), 0)⟩) (Event.init 1 Unit Empty Nat) twoDequeue).1 =
      rs.map (Option.map fun k => ⟨ownFlag k, (.chan (.recv ()), 0)⟩) := by
  obtain ⟨-, -, rs, -, -, hres, -⟩ := queues_of_threads (s := Event.init 1 Unit Empty Nat)
    (fun k => ⟨ownFlag k, (.chan (.recv ()), 0)⟩) (fun _ _ => rfl) twoDequeue_allowed
  exact ⟨rs, hres⟩

end

end Manticore.Cml.ChanQueue
