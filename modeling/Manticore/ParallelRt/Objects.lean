/-
  Manticore.ParallelRt.Objects — stretches of memory that are a sequence of objects, each found from the one before
  by the length in its header.

  - `Objects.append`, `Objects.congr`: sequences put together, and a memory with the same headers.
  - `Objects.unique`, `Objects.apart`: there is one such sequence, and its objects do not overlap.
-/

import Manticore.ParallelRt.Heap

namespace Manticore.ParallelRt

open ByteMemory

variable {table : Nat → List Bool}

/-- A header of an object of `n` words; `table` has the masks of mixed objects. -/
structure HdrOk (table : Nat → List Bool) (hdr : Word) (n : Nat) : Prop where
  noPtr : isNoPtr hdr = true
  length : getLength hdr = n
  mask : 3 ≤ getID hdr → (table (getID hdr)).length = n

theorem HdrOk.unique {hdr : Word} {n k : Nat} (h : HdrOk table hdr n)
    (h' : HdrOk table hdr k) : n = k := by
  have := h.length.symm.trans h'.length
  omega

theorem HdrOk.not_forward {hdr : Word} {n : Nat} (h : HdrOk table hdr n) :
    isForwardPtr hdr = false := by
  have htag := h.noPtr
  unfold isNoPtr tableTag at htag
  unfold isForwardPtr fwdPtrTagMask fwdPtrTag
  by_contra hf
  simp only [Bool.not_eq_false, beq_iff_eq] at hf htag
  have hbit := congrArg (fun w => BitVec.getLsbD w 0) hf
  have hbit1 := congrArg (fun w => BitVec.getLsbD w 0) htag
  simp at hbit hbit1
  rw [hbit] at hbit1
  cases hbit1

/-- From `a` up to `b` there are objects, with headers at the addresses `hs`. -/
inductive Objects (table : Nat → List Bool) (m : Mem) : Nat → List Nat → Nat → Prop
  | nil (a : Nat) : Objects table m a [] a
  | cons {a b n : Nat} {hs : List Nat} : HdrOk table (loadWord m a) n → Objects table m (a + 8 * (n + 1)) hs b →
      Objects table m a (a :: hs) b

namespace Objects

variable {table : Nat → List Bool} {m m' : Mem} {a b c : Nat} {hs gs : List Nat}

theorem le (h : Objects table m a hs b) : a ≤ b := by
  induction h with
  | nil => exact Nat.le_refl _
  | cons _ _ ih => omega

theorem one {n : Nat} (h : HdrOk table (loadWord m a) n) : Objects table m a [a] (a + 8 * (n + 1)) := .cons h (.nil _)

theorem append (h : Objects table m a hs b) (h' : Objects table m b gs c) : Objects table m a (hs ++ gs) c := by
  induction h with
  | nil => exact h'
  | cons hhdr _ ih => exact .cons hhdr (ih h')

theorem congr (h : Objects table m a hs b) (hm : ∀ x ∈ hs, loadWord m' x = loadWord m x) :
    Objects table m' a hs b := by
  induction h with
  | nil => exact .nil _
  | @cons a b n hs hhdr _ ih =>
    have hhead := hm a List.mem_cons_self
    exact .cons (by rwa [hhead]) (ih fun x hx => hm x (List.mem_cons_of_mem _ hx))

/-- An object lies within the sequence. -/
theorem mem_bounds (h : Objects table m a hs b) {x : Nat} (hx : x ∈ hs) :
    ∃ n, HdrOk table (loadWord m x) n ∧ a ≤ x ∧ x + 8 * (n + 1) ≤ b := by
  induction h with
  | nil => cases hx
  | @cons a b n hs hhdr hrest ih =>
    rcases List.mem_cons.mp hx with rfl | hx
    · exact ⟨n, hhdr, Nat.le_refl _, hrest.le⟩
    · obtain ⟨k, hk, hle, hb⟩ := ih hx
      exact ⟨k, hk, by omega, hb⟩

theorem unique (h : Objects table m a hs b) (h' : Objects table m a gs b) : hs = gs := by
  induction h generalizing gs with
  | nil =>
    cases h' with
    | nil => rfl
    | cons _ hrest =>
      have := hrest.le
      omega
  | @cons a b n hs hhdr hrest ih =>
    cases h' with
    | nil =>
      have := hrest.le
      omega
    | @cons _ _ k gs hhdr' hrest' =>
      obtain rfl := hhdr.unique hhdr'
      rw [ih hrest']

/-- Two objects of a sequence do not overlap. -/
theorem apart (h : Objects table m a hs b) {x y n k : Nat} (hx : x ∈ hs) (hy : y ∈ hs) (hxy : x ≠ y)
    (hn : HdrOk table (loadWord m x) n) (hk : HdrOk table (loadWord m y) k) :
    x + 8 * (n + 1) ≤ y ∨ y + 8 * (k + 1) ≤ x := by
  induction h with
  | nil => cases hx
  | @cons a b l hs hhdr hrest ih =>
    rcases List.mem_cons.mp hx with rfl | hx' <;> rcases List.mem_cons.mp hy with rfl | hy'
    · exact absurd rfl hxy
    · obtain ⟨-, -, hle, -⟩ := hrest.mem_bounds hy'
      obtain rfl := hhdr.unique hn
      exact .inl hle
    · obtain ⟨-, -, hle, -⟩ := hrest.mem_bounds hx'
      obtain rfl := hhdr.unique hk
      exact .inr hle
    · exact ih hx' hy'

/-- The objects from a place that is not the end start with one there. -/
theorem head (h : Objects table m a hs b) (hlt : a < b) :
    ∃ n gs, hs = a :: gs ∧ HdrOk table (loadWord m a) n ∧ Objects table m (a + 8 * (n + 1)) gs b := by
  cases h with
  | nil => omega
  | cons hhdr hrest => exact ⟨_, _, rfl, hhdr, hrest⟩

end Objects

/-! ## Headers as the allocators write them -/

theorem isNoPtr_mixedHdr (id len : Nat) : isNoPtr (mixedHdr id len) = true := by
  unfold isNoPtr
  rw [beq_iff_eq]
  apply BitVec.eq_of_getLsbD_eq
  intro i hi
  simp only [mixedHdr, tableTagBits, tableLenId, tableTag, BitVec.getLsbD_and, BitVec.getLsbD_or,
    BitVec.getLsbD_shiftLeft]
  by_cases h0 : i = 0
  · subst h0
    simp
  simp_all

theorem getLength_mixedHdr_of_lt {id n : Nat} (hid : id < 2 ^ tableLenId) (hn : n < 2 ^ 31) :
    getLength (mixedHdr id n) = n := by
  rw [getLength_mixedHdr hid]
  exact (toInt_ofNat_eq_iff n).mpr hn

theorem HdrOk.mixed {id n : Nat} (hid : id < 2 ^ tableLenId) (hn : n < 2 ^ 31)
    (hmask : 3 ≤ id → (table id).length = n) : HdrOk table (mixedHdr id n) n where
  noPtr := isNoPtr_mixedHdr id n
  length := getLength_mixedHdr_of_lt hid hn
  mask h := by
    rw [getID_mixedHdr, Nat.mod_eq_of_lt hid] at h ⊢
    exact hmask h

theorem HdrOk.vec {n : Nat} (hn : n < 2 ^ 31) : HdrOk table (vecHdr n) n :=
  .mixed (by decide) hn fun h => absurd h (by decide)

theorem HdrOk.raw {n : Nat} (hn : n < 2 ^ 31) : HdrOk table (rawHdr n) n :=
  .mixed (by decide) hn fun h => absurd h (by decide)

end Manticore.ParallelRt
