/-
  Manticore.Library.ByteMemory — a memory of bytes, read and written by words of eight bytes.

  - `loadWord_storeWord`, `loadWord_storeWord_of_disjoint`: a word just written is read back, and a word whose bytes
    are not among those written is not changed.
  - `loadWord_storeWords_of_disjoint`: the same for a block of words.
-/

import Mathlib

namespace ByteMemory

/-- The byte at each address. -/
abbrev Mem := Nat → BitVec 8

/-- The word at `a`, the lowest byte first. -/
def loadWord (m : Mem) (a : Nat) : BitVec 64 :=
  m (a + 7) ++ m (a + 6) ++ m (a + 5) ++ m (a + 4) ++ m (a + 3) ++ m (a + 2) ++ m (a + 1) ++ m a

def storeWord (m : Mem) (a : Nat) (w : BitVec 64) : Mem :=
  fun x => if a ≤ x ∧ x < a + 8 then w.extractLsb' (8 * (x - a)) 8 else m x

/-- `ws`, one after the other from `a`. -/
def storeWords (m : Mem) (a : Nat) : List (BitVec 64) → Mem
  | [] => m
  | w :: ws => storeWords (storeWord m a w) (a + 8) ws

/-- The words of eight bytes at `a` and `b` have no byte in common. -/
def Apart (a b : Nat) : Prop := a + 8 ≤ b ∨ b + 8 ≤ a

theorem Apart.symm {a b : Nat} (h : Apart a b) : Apart b a := Or.symm h

variable {m m' : Mem} {a b : Nat}

theorem loadWord_congr (h : ∀ x, a ≤ x → x < a + 8 → m' x = m x) : loadWord m' a = loadWord m a := by
  simp [loadWord, h]

theorem storeWord_at (m : Mem) (a : Nat) (w : BitVec 64) {i : Nat} (hi : i < 8) :
    storeWord m a w (a + i) = w.extractLsb' (8 * i) 8 := by
  unfold storeWord
  rw [if_pos (by omega), Nat.add_sub_cancel_left]

theorem storeWord_of_not_mem (w : BitVec 64) {x : Nat} (h : x < a ∨ a + 8 ≤ x) : storeWord m a w x = m x := by
  unfold storeWord
  rw [if_neg (by omega)]

theorem loadWord_storeWord (m : Mem) (a : Nat) (w : BitVec 64) : loadWord (storeWord m a w) a = w := by
  have h0 : storeWord m a w a = w.extractLsb' 0 8 := storeWord_at m a w (i := 0) (by decide)
  unfold loadWord
  rw [h0, storeWord_at m a w (i := 1) (by decide), storeWord_at m a w (i := 2) (by decide),
    storeWord_at m a w (i := 3) (by decide), storeWord_at m a w (i := 4) (by decide),
    storeWord_at m a w (i := 5) (by decide), storeWord_at m a w (i := 6) (by decide),
    storeWord_at m a w (i := 7) (by decide)]
  apply BitVec.eq_of_getLsbD_eq
  intro i hi
  simp only [BitVec.getLsbD_append, BitVec.getLsbD_extractLsb']
  grind

theorem loadWord_storeWord_of_disjoint (w : BitVec 64) (h : Apart a b) :
    loadWord (storeWord m a w) b = loadWord m b := by
  apply loadWord_congr
  intro x hx hx'
  unfold Apart at h
  exact storeWord_of_not_mem w (by omega)

theorem loadWord_storeWords_of_disjoint (ws : List (BitVec 64)) (h : b + 8 ≤ a ∨ a + 8 * ws.length ≤ b) :
    loadWord (storeWords m a ws) b = loadWord m b := by
  induction ws generalizing m a with
  | nil => rfl
  | cons w ws ih =>
    rw [List.length_cons] at h
    rw [storeWords, ih (by omega), loadWord_storeWord_of_disjoint w (by unfold Apart; omega)]

theorem storeWords_of_not_mem (ws : List (BitVec 64)) {x : Nat} (h : x < a ∨ a + 8 * ws.length ≤ x) :
    storeWords m a ws x = m x := by
  induction ws generalizing m a with
  | nil => rfl
  | cons w ws ih =>
    rw [List.length_cons] at h
    rw [storeWords, ih (by omega), storeWord_of_not_mem w (by omega)]

end ByteMemory
