/-
  Manticore.Codegen.HeaderTable — the table that numbers the pointer masks of a program's mixed objects
  (`codegen/header-tbl-fn.sml`, `codegen/header-tbl-struct.sml`), and the numbers the C allocators put in
  their headers (`gc/alloc.c`).

  A mask is a string of 0s and 1s with the last field first. The code generator adds masks as it meets
  objects; the table only grows.
  - `Reachable.numbered`: the entries of a reachable table are numbered 3, 4, ... without a gap, so different
    masks have different numbers.
  - `allocNonUniformId_mask`: the five numbers the C allocators use are those of the same masks.
-/

import Manticore.Machine

namespace Manticore.Codegen

/-- A string of 0s and 1s. -/
abbrev Mask := List Bool

/-- `hdr_tbl`, in the order of insertion, and the counter. -/
structure HeaderTable where
  items : List (Mask × Nat)
  counter : Nat

namespace HeaderTable

/-- `HeaderTable.new`, and the counter as it starts. -/
def new : HeaderTable := ⟨[], 3⟩

def find (t : HeaderTable) (m : Mask) : Option Nat := t.items.lookup m

def addHdr (t : HeaderTable) (m : Mask) : Nat × HeaderTable :=
  match t.find m with
  | none => (t.counter, ⟨t.items ++ [(m, t.counter)], t.counter + 1⟩)
  | some id => (id, t)

/-- `HeaderTableStruct.header`. -/
def header : HeaderTable :=
  let t := (new.addHdr [false]).2
  let t := (t.addHdr [false, true]).2
  let t := (t.addHdr [true]).2
  let t := (t.addHdr [true, true, false, true, false]).2
  (t.addHdr [true, false, false]).2

/-- The tables the code generator reaches. -/
inductive Reachable : HeaderTable → Prop
  | init : Reachable header
  | add {t : HeaderTable} (m : Mask) : Reachable t → Reachable (t.addHdr m).2

/-- The table has grown. -/
def Grows (t t' : HeaderTable) : Prop := t.items <+: t'.items

/-! ## Numbers -/

/-- Different masks, numbered from 3 in the order they were added. -/
structure Numbered (t : HeaderTable) : Prop where
  nodup : (t.items.map (·.1)).Nodup
  ids : t.items.map (·.2) = List.range' 3 t.items.length
  next : t.counter = t.items.length + 3

variable {t : HeaderTable} {m : Mask} {id : Nat}

theorem find_eq_none : t.find m = none ↔ m ∉ t.items.map (·.1) := by
  unfold find
  rw [List.lookup_eq_none_iff]
  grind

theorem mem_of_find (h : t.find m = some id) : (m, id) ∈ t.items := by
  obtain ⟨l₁, l₂, hitems, -⟩ := List.lookup_eq_some_iff.mp h
  rw [hitems]
  exact List.mem_append_right _ (List.mem_cons_self ..)

theorem header_numbered : Numbered header := ⟨by decide, by decide, by decide⟩

theorem Numbered.add (h : Numbered t) (m : Mask) : Numbered (t.addHdr m).2 := by
  unfold addHdr
  split
  case h_1 hfind =>
    refine ⟨?_, ?_, ?_⟩
    · rw [List.map_append, List.nodup_append]
      refine ⟨h.nodup, by simp, ?_⟩
      grind [find_eq_none]
    · show (t.items ++ [(m, t.counter)]).map (·.2) = List.range' 3 (t.items ++ [(m, t.counter)]).length
      rw [List.map_append, h.ids, List.length_append, List.length_singleton, List.range'_concat]
      simp [h.next, Nat.add_comm]
    · show t.counter + 1 = (t.items ++ [(m, t.counter)]).length + 3
      rw [List.length_append, List.length_singleton, h.next]
  case h_2 => exact h

theorem Reachable.numbered (h : Reachable t) : Numbered t := by
  induction h with
  | init => exact header_numbered
  | add m _ ih => exact ih.add m

/-- A number belongs to one mask. -/
theorem Numbered.mask_unique (h : Numbered t) {m' : Mask} (hm : (m, id) ∈ t.items) (hm' : (m', id) ∈ t.items) :
    m = m' := by
  have hnodup : (t.items.map (·.2)).Nodup := by
    rw [h.ids]
    exact List.nodup_range'
  exact congrArg Prod.fst (List.inj_on_of_nodup_map hnodup hm hm' rfl)

/-- A mask has one number. -/
theorem Numbered.id_unique (h : Numbered t) {id' : Nat} (hm : (m, id) ∈ t.items) (hm' : (m, id') ∈ t.items) :
    id = id' :=
  congrArg Prod.snd (List.inj_on_of_nodup_map h.nodup hm hm' rfl)

/-! ## Growth -/

theorem addHdr_grows (t : HeaderTable) (m : Mask) : Grows t (t.addHdr m).2 := by
  unfold addHdr Grows
  split
  · exact List.prefix_append ..
  · exact List.prefix_rfl

theorem addHdr_mem (t : HeaderTable) (m : Mask) : (m, (t.addHdr m).1) ∈ (t.addHdr m).2.items := by
  grind [addHdr, mem_of_find]

theorem Reachable.grows_header (h : Reachable t) : Grows header t := by
  induction h with
  | init => exact List.prefix_rfl
  | add m _ ih => exact ih.trans (addHdr_grows _ m)

/-! ## The C allocators -/

/-- The number `AllocNonUniform` and `GlobalAllocNonUniform` give an object of `nElems` fields whose pointers
    are the bits of `bits`; they exit on any other object. -/
def allocNonUniformId (nElems bits : Nat) : Option Nat :=
  let predefined := 3
  if nElems = 1 ∧ bits = 0x0 then some predefined
  else if nElems = 2 ∧ bits = 0x1 then some (predefined + 1)
  else if nElems = 1 ∧ bits = 0x1 then some (predefined + 2)
  else if nElems = 5 ∧ bits = 0x1A then some (predefined + 3)
  else if nElems = 3 ∧ bits = 0x4 then some (predefined + 4)
  else none

/-- The mask of an object whose pointers are the bits of `bits`. -/
def maskOfBits (nElems bits : Nat) : Mask := ((List.range nElems).map bits.testBit).reverse

theorem allocNonUniformId_mask (h : Reachable t) {nElems bits : Nat} (hid : allocNonUniformId nElems bits = some id)
    : (maskOfBits nElems bits, id) ∈ t.items := by
  refine h.grows_header.subset ?_
  unfold allocNonUniformId at hid
  simp only at hid
  split at hid
  case isTrue hc => rw [hc.1, hc.2, ← Option.some.inj hid]; decide
  split at hid
  case isTrue hc => rw [hc.1, hc.2, ← Option.some.inj hid]; decide
  split at hid
  case isTrue hc => rw [hc.1, hc.2, ← Option.some.inj hid]; decide
  split at hid
  case isTrue hc => rw [hc.1, hc.2, ← Option.some.inj hid]; decide
  split at hid
  case isTrue hc => rw [hc.1, hc.2, ← Option.some.inj hid]; decide
  cases hid

end HeaderTable

end Manticore.Codegen
