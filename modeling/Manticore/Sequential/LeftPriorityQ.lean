/-
  Manticore.Sequential.LeftPriorityQ — priority queues as leftist heaps (lib/basis/sequential/left-priorityq.pml).

  The root is an item of greatest priority. Proved (`heap_runs`): after every sequence of `insert` and `next` the heap
  is leftist with the ranks it records, the count is the number of items, the items are those inserted less those taken,
  and `next` takes one of greatest priority, for every order that is total and transitive. Two such queues, merged and
  emptied by `remove`, give their items by priority (`merged_sorts`).
-/

import Mathlib

namespace Manticore.Sequential.LeftPriorityQ

open Multiset (cons_add add_cons mem_add)

inductive Heap (α : Type) where
  | EMPTY
  | ND (rank : Int) (x : α) (a b : Heap α)

structure Queue (α : Type) where
  n : Int
  heap : Heap α

variable {α P : Type} (priority : α → P) (compare : P → P → Ordering)

def Queue.empty : Queue α := ⟨0, .EMPTY⟩

namespace Heap

def singleton (x : α) : Heap α := .ND 1 x .EMPTY .EMPTY

def rank : Heap α → Int
  | .EMPTY => 0
  | .ND r _ _ _ => r

def mkNode (x : α) (a b : Heap α) : Heap α :=
  if a.rank ≥ b.rank then .ND (b.rank + 1) x a b else .ND (a.rank + 1) x b a

def merge (h1 h2 : Heap α) : Heap α :=
  match h1, h2 with
  | h, .EMPTY => h
  | .EMPTY, h => h
  | .ND r1 x h11 h12, .ND r2 y h21 h22 =>
    match compare (priority x) (priority y) with
    | .gt => mkNode x h11 (merge h12 (.ND r2 y h21 h22))
    | _ => mkNode y h21 (merge (.ND r1 x h11 h12) h22)
termination_by sizeOf h1 + sizeOf h2

def items : Heap α → Multiset α
  | .EMPTY => 0
  | .ND _ x a b => x ::ₘ (a.items + b.items)

/-- The length of the right spine. -/
def spine : Heap α → Int
  | .EMPTY => 0
  | .ND _ _ _ b => b.spine + 1

/-- The root is of greatest priority, the left spine at least as long as the right one, and the rank its length. -/
def Leftist : Heap α → Prop
  | .EMPTY => True
  | .ND r x a b => (∀ y ∈ a.items + b.items, (compare (priority y) (priority x)).isLE) ∧ b.spine ≤ a.spine ∧
    r = b.spine + 1 ∧ a.Leftist ∧ b.Leftist

variable {priority compare} {h a b : Heap α} {x : α}

theorem Leftist.rank_eq (hl : h.Leftist priority compare) : h.rank = h.spine := by
  cases h with
  | EMPTY => rfl
  | ND r x a b => exact hl.2.2.1

theorem items_mkNode (x : α) (a b : Heap α) : (mkNode x a b).items = x ::ₘ (a.items + b.items) := by
  unfold mkNode
  split
  · rfl
  · rw [items, Multiset.add_comm]

theorem Leftist.mkNode (ha : a.Leftist priority compare) (hb : b.Leftist priority compare)
    (hx : ∀ y ∈ a.items + b.items, (compare (priority y) (priority x)).isLE) :
    (mkNode x a b).Leftist priority compare := by
  have hra := ha.rank_eq
  have hrb := hb.rank_eq
  unfold Heap.mkNode
  split
  · exact ⟨hx, by omega, by omega, ha, hb⟩
  · refine ⟨?_, by omega, by omega, hb, ha⟩
    rwa [Multiset.add_comm]

theorem items_merge (h1 h2 : Heap α) : (merge priority compare h1 h2).items = h1.items + h2.items := by
  fun_induction merge priority compare h1 h2 with
  | case1 h => simp [items]
  | case2 h => simp [items]
  | case3 r1 x h11 h12 r2 y h21 h22 _ ih =>
    rw [items_mkNode, ih, ← Multiset.add_assoc, items, items, cons_add]
  | case4 r1 x h11 h12 r2 y h21 h22 _ ih =>
    rw [items_mkNode, ih, items, items, add_cons, ← Multiset.add_assoc, ← Multiset.add_assoc, Multiset.add_comm h21.items]

/-- What is not above the root is not above a greater one. -/
theorem Leftist.all_le [Std.TransCmp compare] {r : Int} {y : α} (hl : (ND r x a b).Leftist priority compare)
    (hxy : (compare (priority x) (priority y)).isLE) : ∀ z ∈ (ND r x a b).items, (compare (priority z) (priority y)).isLE := by
  intro z hz
  rcases Multiset.mem_cons.mp hz with rfl | hz
  · exact hxy
  · exact Std.TransCmp.isLE_trans (hl.1 z hz) hxy

theorem Leftist.merge [Std.TransCmp compare] {h1 h2 : Heap α} (hl1 : h1.Leftist priority compare)
    (hl2 : h2.Leftist priority compare) : (merge priority compare h1 h2).Leftist priority compare := by
  fun_induction Heap.merge priority compare h1 h2 with
  | case1 h => exact hl1
  | case2 h => exact hl2
  | case3 r1 x h11 h12 r2 y h21 h22 hgt ih =>
    have hyx : (compare (priority y) (priority x)).isLE := by
      have hswap : compare (priority y) (priority x) = (compare (priority x) (priority y)).swap := Std.OrientedCmp.eq_swap
      rw [hswap, hgt]
      rfl
    refine hl1.2.2.2.1.mkNode (ih hl1.2.2.2.2 hl2) fun z hz => ?_
    rw [items_merge] at hz
    simp only [mem_add] at hz
    rcases hz with hz | hz | hz
    · exact hl1.1 z (mem_add.mpr (.inl hz))
    · exact hl1.1 z (mem_add.mpr (.inr hz))
    · exact hl2.all_le hyx z hz
  | case4 r1 x h11 h12 r2 y h21 h22 hgt ih =>
    have hxy : (compare (priority x) (priority y)).isLE := by
      cases hc : compare (priority x) (priority y) with
      | gt => exact absurd hc hgt
      | lt | eq => rfl
    refine hl2.2.2.2.1.mkNode (ih hl1 hl2.2.2.2.2) fun z hz => ?_
    rw [items_merge] at hz
    simp only [mem_add] at hz
    rcases hz with hz | hz | hz
    · exact hl2.1 z (mem_add.mpr (.inl hz))
    · exact hl1.all_le hxy z hz
    · exact hl2.1 z (mem_add.mpr (.inr hz))

end Heap

/-! ## Runs -/

namespace Queue

def insert (x : α) (q : Queue α) : Queue α := ⟨q.n + 1, .merge priority compare (.singleton x) q.heap⟩

def next : Queue α → Option (α × Queue α)
  | ⟨_, .EMPTY⟩ => none
  | ⟨n, .ND _ x h1 h2⟩ => some (x, ⟨n - 1, .merge priority compare h1 h2⟩)

end Queue

inductive Op (α : Type) where
  | insert (x : α)
  | next

/-- The queue after a sequence of operations, and the items that were taken. -/
def run (q : Queue α) : List (Op α) → Queue α × Multiset α
  | [] => (q, 0)
  | .insert x :: ops => run (q.insert priority compare x) ops
  | .next :: ops =>
    match q.next priority compare with
    | none => run q ops
    | some (x, q') => ((run q' ops).1, x ::ₘ (run q' ops).2)

def inserted : List (Op α) → Multiset α
  | [] => 0
  | .insert x :: ops => x ::ₘ inserted ops
  | .next :: ops => inserted ops

structure Queue.Ok (q : Queue α) : Prop where
  leftist : q.heap.Leftist priority compare
  count : q.n = q.heap.items.card

variable {priority compare} [Std.TransCmp compare] {q q' : Queue α} {x : α}

theorem Queue.Ok.insert (h : q.Ok priority compare) (x : α) :
    (q.insert priority compare x).Ok priority compare ∧ (q.insert priority compare x).heap.items = x ::ₘ q.heap.items := by
  have hone : (Heap.singleton x).Leftist priority compare := ⟨by simp [Heap.items], Int.le_refl _, rfl, trivial, trivial⟩
  have hitems : (q.insert priority compare x).heap.items = x ::ₘ q.heap.items := by
    simp [Queue.insert, Heap.items_merge, Heap.singleton, Heap.items]
  refine ⟨⟨hone.merge h.leftist, ?_⟩, hitems⟩
  rw [hitems, Multiset.card_cons, Queue.insert, h.count]
  rfl

/-- What `next` takes is of greatest priority. -/
theorem Queue.Ok.next (h : q.Ok priority compare) (hx : q.next priority compare = some (x, q')) :
    q'.Ok priority compare ∧ q.heap.items = x ::ₘ q'.heap.items ∧
      ∀ y ∈ q.heap.items, (compare (priority y) (priority x)).isLE := by
  obtain ⟨n, _ | ⟨r, x, a, b⟩⟩ := q
  · cases hx
  · cases hx
    have hcount : n = (a.items + b.items).card + 1 := h.count.trans (by simp [Heap.items])
    refine ⟨⟨h.leftist.2.2.2.1.merge h.leftist.2.2.2.2, ?_⟩, ?_, h.leftist.all_le Std.ReflCmp.isLE_rfl⟩
    · show n - 1 = _
      rw [Heap.items_merge]
      omega
    · rw [Heap.items_merge]
      rfl

theorem run_ok (ops : List (Op α)) (h : q.Ok priority compare) : (run priority compare q ops).1.Ok priority compare ∧
    (run priority compare q ops).1.heap.items + (run priority compare q ops).2 = q.heap.items + inserted ops := by
  induction ops generalizing q with
  | nil => exact ⟨h, rfl⟩
  | cons op ops ih =>
    cases op with
    | insert x =>
      obtain ⟨hok, hitems⟩ := h.insert x
      obtain ⟨ihok, ihitems⟩ := ih hok
      refine ⟨ihok, ihitems.trans ?_⟩
      rw [hitems, inserted, cons_add, add_cons]
    | next =>
      rw [run, inserted]
      cases hx : q.next priority compare with
      | none => exact ih h
      | some r =>
        obtain ⟨x, q'⟩ := r
        obtain ⟨hok, hitems, -⟩ := h.next hx
        obtain ⟨ihok, ihitems⟩ := ih hok
        exact ⟨ihok, by rw [add_cons, ihitems, hitems, cons_add]⟩

/-- Every reachable queue is a leftist heap that counts its items, which are those inserted less those taken; `next`
finds nothing only where there is nothing, and takes an item of greatest priority. -/
theorem heap_runs (ops : List (Op α)) :
    let q := (run priority compare .empty ops).1
    q.Ok priority compare ∧ q.heap.items + (run priority compare .empty ops).2 = inserted ops ∧
      match q.next priority compare with
      | none => q.heap.items = 0
      | some (x, q') => q.heap.items = x ::ₘ q'.heap.items ∧ ∀ y ∈ q.heap.items, (compare (priority y) (priority x)).isLE := by
  have hempty : (Queue.empty : Queue α).Ok priority compare := ⟨trivial, rfl⟩
  obtain ⟨hok, hitems⟩ := run_ok ops hempty
  refine ⟨hok, hitems.trans (Multiset.zero_add _), ?_⟩
  split
  · next hx =>
    generalize (run priority compare Queue.empty ops).1 = q at hx
    obtain ⟨n, _ | ⟨r, x, a, b⟩⟩ := q
    · rfl
    · cases hx
  · next hx => exact (hok.next hx).2

theorem heap_runs_nat : let q := (run id (Ord.compare (α := Nat)) .empty [.insert 1, .insert 3, .next]).1
    q.Ok id Ord.compare ∧ q.heap.items + (run id (Ord.compare (α := Nat)) .empty [.insert 1, .insert 3, .next]).2 = {1, 3} :=
  ⟨(heap_runs _).1, (heap_runs _).2.1⟩

/-! ## Removals -/

namespace Queue

def merge (priority : α → P) (compare : P → P → Ordering) (q1 q2 : Queue α) : Queue α :=
  ⟨q1.n + q2.n, .merge priority compare q1.heap q2.heap⟩

def numItems (q : Queue α) : Int := q.n

def remove (priority : α → P) (compare : P → P → Ordering) : Queue α → Except String (α × Queue α)
  | ⟨_, .EMPTY⟩ => .error "LeftPriorityQ.remove"
  | ⟨n, .ND _ x h1 h2⟩ => .ok (x, ⟨n - 1, .merge priority compare h1 h2⟩)

/-- What `k` removals take. -/
def removes (priority : α → P) (compare : P → P → Ordering) : Nat → Queue α → Except String (List α)
  | 0, _ => .ok []
  | k + 1, q => do
    let (x, q) ← q.remove priority compare
    return x :: (← q.removes priority compare k)

theorem Ok.removes {k : Nat} (h : q.Ok priority compare) (hk : q.heap.items.card = k) :
    ∃ xs, q.removes priority compare k = .ok xs ∧ xs.Pairwise (fun x y => (compare (priority y) (priority x)).isLE) ∧
      xs = q.heap.items ∧ q.removes priority compare (k + 1) = .error "LeftPriorityQ.remove" := by
  induction k generalizing q with
  | zero =>
    obtain ⟨n, _ | ⟨r, x, a, b⟩⟩ := q
    · exact ⟨[], rfl, .nil, rfl, rfl⟩
    · simp [Heap.items] at hk
  | succ k ih =>
    obtain ⟨n, _ | ⟨r, x, a, b⟩⟩ := q
    · simp [Heap.items] at hk
    · obtain ⟨hok, hitems, hle⟩ := h.next rfl
      rw [hitems, Multiset.card_cons, Nat.add_right_cancel_iff] at hk
      obtain ⟨xs, hxs, hsorted, hall, hfail⟩ := ih hok hk
      rw [hitems, ← hall] at hle ⊢
      refine ⟨x :: xs, ?_, .cons (fun y hy => hle y (Multiset.mem_cons_of_mem hy)) hsorted, rfl, ?_⟩
      · simp only [Queue.removes, remove, bind, Except.bind, hxs]
        rfl
      · rw [Queue.removes, remove]
        simp only [bind, Except.bind, hfail]

end Queue

/-- Two reachable queues, merged: `numItems` removals take what is left in both by priority, and one more raises. -/
theorem merged_sorts (ops1 ops2 : List (Op α)) :
    let r1 := run priority compare .empty ops1
    let r2 := run priority compare .empty ops2
    let q := r1.1.merge priority compare r2.1
    ∃ xs, q.removes priority compare q.numItems.toNat = .ok xs ∧
      xs.Pairwise (fun x y => (compare (priority y) (priority x)).isLE) ∧
      xs + (r1.2 + r2.2) = inserted ops1 + inserted ops2 ∧
      q.removes priority compare (q.numItems.toNat + 1) = .error "LeftPriorityQ.remove" := by
  intro r1 r2 q
  have hempty : (Queue.empty : Queue α).Ok priority compare := ⟨trivial, rfl⟩
  obtain ⟨hok1, hitems1⟩ := run_ok ops1 hempty
  obtain ⟨hok2, hitems2⟩ := run_ok ops2 hempty
  have hitems : q.heap.items = r1.1.heap.items + r2.1.heap.items := Heap.items_merge ..
  have hcount : q.n = q.heap.items.card := by
    rw [hitems, Multiset.card_add, Nat.cast_add, ← hok1.count, ← hok2.count]
    rfl
  have hnum : q.heap.items.card = q.numItems.toNat := by simp [Queue.numItems, hcount]
  obtain ⟨xs, hxs, hsorted, hall, hfail⟩ := Queue.Ok.removes ⟨hok1.leftist.merge hok2.leftist, hcount⟩ hnum
  refine ⟨xs, hxs, hsorted, ?_, hfail⟩
  rw [hall, hitems, add_add_add_comm, hitems1, hitems2]
  simp [Queue.empty, Heap.items]

theorem merged_sorts_nat : ∃ xs : List Nat, xs + 0 = ({1, 2} : Multiset Nat) ∧ xs.Pairwise (fun x y => (Ord.compare y x).isLE) := by
  obtain ⟨xs, -, hsorted, hall, -⟩ := @merged_sorts Nat Nat id Ord.compare _ [.insert 1] [.insert 2]
  exact ⟨xs, hall, hsorted⟩

end Manticore.Sequential.LeftPriorityQ
