/-
  Manticore.Parray.Rope — ropes (`basis/parray/rope.pml`, `rope-ty.pml`; `int-rope.pml` is the same over ints):
  concatenation, splitting at an index and balancing.

  `M` is the maximum leaf size of `LeafSize`. An index is an `Int`, since callers compute `length div 2 - 1`, and a
  rope keeps its length and depth at every node (`WF`); `ropeOK` is the code's own check of them.

  - `splitAtIx2_returns`: a well-formed rope is split after any index in its bounds, and only there.
  - `balance_returns`: balancing ends under every policy, with the same elements in a well-formed rope.
-/

import Manticore.Library.Fuel
import Manticore.Parray.Seq

namespace Manticore.Parray

open Fuel (Returns ok_bind)
open Nat (log2 clog)
open Bool (and_eq_true)

inductive Rope (α : Type) where
  | leaf (s : List α)
  | cat (len depth : Int) (l r : Rope α)
  deriving DecidableEq, Repr

variable {α : Type}

namespace Rope

def length : Rope α → Int
  | leaf s => s.length
  | cat len _ _ _ => len

def depth : Rope α → Int
  | leaf _ => 0
  | cat _ d _ _ => d

def empty : Rope α := leaf []

def inBounds (rp : Rope α) (i : Int) : Bool := i < rp.length && i ≥ 0

def length' : Rope α → Int
  | leaf s => s.length
  | cat _ _ l r => length' l + length' r

def depth' : Rope α → Int
  | leaf _ => 0
  | cat _ _ l r => max (depth' l) (depth' r) + 1

/-- The check of the recorded lengths and depths. -/
def ropeOK : Rope α → Bool
  | leaf _ => true
  | cat len d l r =>
    len = length' (cat len d l r) && d = depth' (cat len d l r) && ropeOK l && ropeOK r

def toList : Rope α → List α
  | leaf s => s
  | cat _ _ l r => toList l ++ toList r

def leaves : Rope α → List (List α)
  | leaf s => [s]
  | cat _ _ l r => leaves l ++ leaves r

def toSeq (rp : Rope α) : List α := rp.leaves.flatten

/-- A rope whose lengths and depths are right, with leaves of at most `M` elements. -/
def WF (M : Int) : Rope α → Prop
  | leaf s => s.length ≤ M
  | cat len d l r => len = l.length + r.length ∧ d = max l.depth r.depth + 1 ∧ l.WF M ∧ r.WF M

end Rope

variable (M : Int)

/-- The constructor that checks the size. -/
def leaf (s : List α) : Except Exn (Rope α) :=
  if s.length > M then .error (.fail "bogus leaf size") else .ok (.leaf s)

/-- Non-coalescing concatenation. -/
def nccat2 (rp1 rp2 : Rope α) : Rope α := .cat (rp1.length + rp2.length) (max rp1.depth rp2.depth + 1) rp1 rp2

/-- Coalescing concatenation. -/
def ccat2 (rp1 rp2 : Rope α) : Rope α :=
  if rp1.length + rp2.length ≤ M then .leaf (nccat2 rp1 rp2).toSeq else nccat2 rp1 rp2

def split2 : Rope α → Except Exn (Rope α × Rope α)
  | .leaf s => do
    let (s1, s2) := Seq.split2 s
    return (← leaf M s1, ← leaf M s2)
  | .cat _ _ l r => .ok (l, r)

def seqSplitAtIx2 (s : List α) (i : Int) : List α × List α := (Seq.take s (i + 1), Seq.drop s (i + 1))

def splitAtIx2' : Rope α → Int → Except Exn (Rope α × Rope α)
  | .leaf s, i => do
    let (s1, s2) := seqSplitAtIx2 s i
    return (← leaf M s1, ← leaf M s2)
  | .cat _ _ l r, i =>
    if i = l.length - 1 then .ok (l, r)
    else if i < l.length then do
      let (l1, l2) ← splitAtIx2' l i
      return (l1, nccat2 l2 r)
    else do
      let (r1, r2) ← splitAtIx2' r (i - l.length)
      return (nccat2 l r1, r2)

def splitAtIx2 (rp : Rope α) (i : Int) : Except Exn (Rope α × Rope α) :=
  if rp.inBounds i then splitAtIx2' M rp i else .error (.fail "subscript")

def seqLast (s : List α) : Except Exn α := Seq.sub s (s.length - 1)

/-- `M_FloorLg`: the exponent of the number as a double, which for 0 is -1023. -/
def floorLg (n : Int) : Int := if n = 0 then -1023 else log2 n.toNat

/-- `M_CeilingLg`; a shift by -1023 is taken as a shift by 1. -/
def ceilingLg (n : Int) : Int :=
  let lg := floorLg n
  lg + if n - (if lg < 0 then 2 else 2 ^ lg.toNat) > 0 then 1 else 0

def isBalanced : Rope α → Bool
  | .leaf _ => true
  | rp => rp.depth ≤ 2 * ceilingLg rp.length

def balanceSequential : Nat → Rope α → Except Exn (Rope α)
  | 0, _ => .error .fuel
  | n + 1, rp =>
    if isBalanced rp then .ok rp
    else if rp.length ≤ M ∨ rp.length < 2 then leaf M rp.toSeq
    else do
      let (rp1, rp2) ← splitAtIx2 M rp (rp.length / 2 - 1)
      return nccat2 (← balanceSequential n rp1) (← balanceSequential n rp2)

def balanceETS (SST : Int) : Nat → Rope α → Except Exn (Rope α)
  | 0, _ => .error .fuel
  | n + 1, rp =>
    if isBalanced rp then .ok rp
    else if rp.length ≤ M ∨ rp.length < 2 then leaf M rp.toSeq
    else if rp.length ≤ SST then balanceSequential M n rp
    else do
      let (rp1, rp2) ← splitAtIx2 M rp (rp.length / 2 - 1)
      return nccat2 (← balanceETS SST n rp1) (← balanceETS SST n rp2)

inductive ChunkingPolicy where
  | sequential
  | ets (SST : Int)
  | lts (PPT : Int)
  deriving DecidableEq, Repr

def balance (policy : ChunkingPolicy) (n : Nat) (rp : Rope α) : Except Exn (Rope α) :=
  match policy with
  | .sequential => balanceSequential M n rp
  | .ets SST => balanceETS M SST n rp
  | .lts _ => balanceETS M 10000 n rp

def cat2 (policy : ChunkingPolicy) (n : Nat) (rp1 rp2 : Rope α) : Except Exn (Rope α) :=
  balance M policy n (nccat2 rp1 rp2)

/-! ## Lengths -/

variable {M}

theorem leaf_ok {s : List α} (h : (s.length : Int) ≤ M) : leaf M s = .ok (.leaf s) := if_neg (Int.not_lt.mpr h)

theorem leaf_inv {s : List α} {rp : Rope α} (h : leaf M s = .ok rp) : rp = .leaf s ∧ (s.length : Int) ≤ M := by
  unfold leaf at h
  by_cases hlen : (s.length : Int) > M
  · rw [if_pos hlen] at h
    cases h
  · rw [if_neg hlen] at h
    cases h
    exact ⟨rfl, Int.not_lt.mp hlen⟩

theorem seqLast_concat (s : List α) (x : α) : seqLast (s ++ [x]) = .ok x := by
  simp [seqLast, Seq.sub]

namespace Rope

variable {rp : Rope α}

theorem WF.length_eq (h : rp.WF M) : rp.length = rp.toList.length := by
  induction rp with
  | leaf s => rfl
  | cat len d l r ihl ihr =>
    obtain ⟨hlen, -, hl, hr⟩ := h
    rw [length, toList, List.length_append, hlen, ihl hl, ihr hr]
    exact (Int.natCast_add _ _).symm

theorem WF.length_nonneg (h : rp.WF M) : 0 ≤ rp.length := by
  rw [h.length_eq]
  exact Int.natCast_nonneg _

theorem toSeq_eq (rp : Rope α) : rp.toSeq = rp.toList := by
  unfold toSeq
  induction rp with
  | leaf s => exact List.append_nil s
  | cat len d l r ihl ihr => rw [leaves, List.flatten_append, ihl, ihr, toList]

theorem WF.length' (h : rp.WF M) : rp.length' = rp.length := by
  induction rp with
  | leaf s => rfl
  | cat len d l r ihl ihr =>
    obtain ⟨hlen, -, hl, hr⟩ := h
    rw [Rope.length', ihl hl, ihr hr, length, hlen]

theorem WF.depth' (h : rp.WF M) : rp.depth' = rp.depth := by
  induction rp with
  | leaf s => rfl
  | cat len d l r ihl ihr =>
    obtain ⟨-, hd, hl, hr⟩ := h
    rw [Rope.depth', ihl hl, ihr hr, depth, hd]

theorem length_of_ropeOK (h : rp.ropeOK = true) : rp.length = rp.length' ∧ rp.depth = rp.depth' := by
  cases rp with
  | leaf s => exact ⟨rfl, rfl⟩
  | cat len d l r =>
    unfold ropeOK at h
    rw [and_eq_true, and_eq_true, and_eq_true, decide_eq_true_eq, decide_eq_true_eq] at h
    exact ⟨h.1.1.1, h.1.1.2⟩

/-- The invariant is the code's check, and the bound of the leaves. -/
theorem wf_iff_ropeOK (rp : Rope α) : rp.WF M ↔ rp.ropeOK = true ∧ ∀ s ∈ rp.leaves, (s.length : Int) ≤ M := by
  induction rp with
  | leaf s => simp only [WF, ropeOK, leaves, List.mem_singleton, forall_eq, true_and]
  | cat len d l r ihl ihr =>
    rw [ropeOK, and_eq_true, and_eq_true, and_eq_true, decide_eq_true_eq, decide_eq_true_eq]
    simp only [leaves, List.forall_mem_append]
    constructor
    · intro h
      have hlen : len = Rope.length' (cat len d l r) := h.length'.symm
      have hd : d = Rope.depth' (cat len d l r) := h.depth'.symm
      obtain ⟨-, -, hl, hr⟩ := h
      grind
    · rintro ⟨⟨⟨⟨hlen, hd⟩, hl⟩, hr⟩, hsl, hsr⟩
      refine ⟨?_, ?_, ihl.mpr ⟨hl, hsl⟩, ihr.mpr ⟨hr, hsr⟩⟩
      · rw [hlen, Rope.length', (length_of_ropeOK hl).1, (length_of_ropeOK hr).1]
      · rw [hd, Rope.depth', (length_of_ropeOK hl).2, (length_of_ropeOK hr).2]

end Rope

@[simp] theorem length_nccat2 (rp1 rp2 : Rope α) : (nccat2 rp1 rp2).length = rp1.length + rp2.length := rfl

@[simp] theorem toList_nccat2 (rp1 rp2 : Rope α) : (nccat2 rp1 rp2).toList = rp1.toList ++ rp2.toList := rfl

variable {rp1 rp2 rp : Rope α} {i : Int}

theorem wf_nccat2 (h1 : rp1.WF M) (h2 : rp2.WF M) : (nccat2 rp1 rp2).WF M := ⟨rfl, rfl, h1, h2⟩

/-- A well-formed node is the concatenation of its children. -/
theorem Rope.WF.eq_nccat2 {len d : Int} {l r : Rope α} (h : (Rope.cat len d l r).WF M) : Rope.cat len d l r = nccat2 l r := by
  obtain ⟨rfl, rfl, -, -⟩ := h
  rfl

theorem toList_ccat2 (rp1 rp2 : Rope α) : (ccat2 M rp1 rp2).toList = rp1.toList ++ rp2.toList := by
  unfold ccat2
  split
  · exact Rope.toSeq_eq _
  · rfl

theorem wf_ccat2 (h1 : rp1.WF M) (h2 : rp2.WF M) : (ccat2 M rp1 rp2).WF M := by
  unfold ccat2
  split
  · rename_i hle
    show ((nccat2 rp1 rp2).toSeq.length : Int) ≤ M
    rw [Rope.toSeq_eq, ← (wf_nccat2 h1 h2).length_eq]
    exact hle
  · exact wf_nccat2 h1 h2

/-! ## Splitting -/

theorem leaf_take {s : List α} (h : (s.length : Int) ≤ M) (n : Int) : leaf M (Seq.take s n) = .ok (.leaf (s.take n.toNat)) :=
  leaf_ok (le_trans (Int.ofNat_le.mpr (List.length_take_le' _ _)) h)

theorem leaf_drop {s : List α} (h : (s.length : Int) ≤ M) (n : Int) : leaf M (Seq.drop s n) = .ok (.leaf (s.drop n.toNat)) :=
  leaf_ok (le_trans (Int.ofNat_le.mpr (by rw [Seq.drop, List.length_drop]; exact Nat.sub_le _ _)) h)

theorem splitAtIx2'_ok (h : rp.WF M) (h0 : 0 ≤ i) (hi : i < rp.length) :
    ∃ l r, splitAtIx2' M rp i = .ok (l, r) ∧ l.WF M ∧ r.WF M ∧ l.toList ++ r.toList = rp.toList ∧
      l.length = i + 1 := by
  induction rp generalizing i with
  | leaf s =>
    have hs : (s.length : Int) ≤ M := h
    refine ⟨.leaf (s.take (i + 1).toNat), .leaf (s.drop (i + 1).toNat), ?_, ?_, ?_,
      List.take_append_drop (i + 1).toNat s, ?_⟩
    · show (do return (← leaf M (Seq.take s (i + 1)), ← leaf M (Seq.drop s (i + 1)))) = _
      rw [leaf_take hs, leaf_drop hs]
      rfl
    · show ((s.take (i + 1).toNat).length : Int) ≤ M
      rw [List.length_take]
      omega
    · show ((s.drop (i + 1).toNat).length : Int) ≤ M
      rw [List.length_drop]
      omega
    · show ((s.take (i + 1).toNat).length : Int) = i + 1
      have hi' : i < s.length := hi
      rw [List.length_take]
      omega
  | cat len d l r ihl ihr =>
    obtain ⟨hlen, -, hl, hr⟩ := h
    have hi' : i < l.length + r.length := hlen ▸ hi
    unfold splitAtIx2'
    by_cases hend : i = l.length - 1
    · rw [if_pos hend]
      exact ⟨l, r, rfl, hl, hr, rfl, by omega⟩
    · rw [if_neg hend]
      by_cases hleft : i < l.length
      · rw [if_pos hleft]
        obtain ⟨l1, l2, hsplit, hl1, hl2, happ, hlen1⟩ := ihl hl h0 hleft
        refine ⟨l1, nccat2 l2 r, by rw [hsplit]; rfl, hl1, wf_nccat2 hl2 hr, ?_, hlen1⟩
        rw [toList_nccat2, ← List.append_assoc, happ]
        rfl
      · rw [if_neg hleft]
        obtain ⟨r1, r2, hsplit, hr1, hr2, happ, hlen1⟩ := ihr hr (show 0 ≤ i - l.length by omega) (by omega)
        refine ⟨nccat2 l r1, r2, by rw [hsplit]; rfl, wf_nccat2 hl hr1, hr2, ?_, ?_⟩
        · rw [toList_nccat2, List.append_assoc, happ]
          rfl
        · rw [length_nccat2, hlen1]
          omega

theorem splitAtIx2_returns (h : rp.WF M) (h0 : 0 ≤ i) (hi : i < rp.length) :
    ∃ l r, splitAtIx2 M rp i = .ok (l, r) ∧ l.WF M ∧ r.WF M ∧ l.toList ++ r.toList = rp.toList ∧ l.length = i + 1 :=
      by
  have hin : rp.inBounds i = true := by
    rw [Rope.inBounds, and_eq_true, decide_eq_true_eq, decide_eq_true_eq]
    exact ⟨hi, h0⟩
  rw [splitAtIx2, if_pos hin]
  exact splitAtIx2'_ok h h0 hi

theorem splitAtIx2_neg (rp : Rope α) (h : i < 0) : splitAtIx2 M rp i = .error (.fail "subscript") := by
  have hout : ¬ rp.inBounds i = true := by
    rw [Rope.inBounds, and_eq_true, decide_eq_true_eq, decide_eq_true_eq]
    omega
  rw [splitAtIx2, if_neg hout]

/-- Halving a rope of two elements or more. -/
theorem splitAtIx2_half (h : rp.WF M) (h2 : 2 ≤ rp.length) :
    ∃ l r, splitAtIx2 M rp (rp.length / 2 - 1) = .ok (l, r) ∧ l.WF M ∧ r.WF M ∧ l.toList ++ r.toList = rp.toList ∧
      l.length = rp.length / 2 ∧ l.length + r.length = rp.length := by
  obtain ⟨l, r, hsplit, hl, hr, happ, hlen⟩ := splitAtIx2_returns h (show 0 ≤ rp.length / 2 - 1 by omega) (by omega)
  refine ⟨l, r, hsplit, hl, hr, happ, by omega, ?_⟩
  rw [h.length_eq, ← happ, List.length_append, Int.natCast_add, hl.length_eq, hr.length_eq]

/-! ## Balancing -/

theorem Rope.WF.nonneg (h : rp.WF M) : 0 ≤ M := by
  induction rp with
  | leaf s => exact le_trans (Int.natCast_nonneg s.length) h
  | cat len d l r ihl ihr => exact ihl h.2.2.1

/-- Leaves hold elements only if they may. -/
theorem Rope.WF.pos (h : rp.WF M) (hlen : 0 < rp.length) : 1 ≤ M := by
  induction rp with
  | leaf s =>
    have hs : (s.length : Int) ≤ M := h
    have hpos : 0 < (s.length : Int) := hlen
    omega
  | cat len d l r ihl ihr =>
    obtain ⟨rfl, -, hl, hr⟩ := h
    have hsum : 0 < l.length + r.length := hlen
    by_cases hpos : 0 < l.length
    · exact ihl hl hpos
    · exact ihr hr (by omega)

theorem leaf_toSeq (h : rp.WF M) (hsmall : rp.length ≤ M ∨ rp.length < 2) :
    leaf M rp.toSeq = .ok (.leaf rp.toList) ∧ (Rope.leaf rp.toList).WF M := by
  have hle : (rp.toList.length : Int) ≤ M := by
    rw [← h.length_eq]
    rcases hsmall with hle | hlt
    · exact hle
    · have hnonneg := h.nonneg
      by_cases hpos : 0 < rp.length
      · have hM := h.pos hpos
        omega
      · omega
  rw [Rope.toSeq_eq]
  exact ⟨leaf_ok hle, hle⟩

/-- Balancing: the same elements, in a well-formed rope. -/
def Balanced (M : Int) (rp rp' : Rope α) : Prop := rp'.WF M ∧ rp'.toList = rp.toList

theorem Balanced.nccat2 {l r l' r' : Rope α} (hl : Balanced M l l') (hr : Balanced M r r')
    (happ : l.toList ++ r.toList = rp.toList) : Balanced M rp (nccat2 l' r') :=
  ⟨wf_nccat2 hl.1 hr.1, by rw [toList_nccat2, hl.2, hr.2, happ]⟩

theorem ceilingLg_eq {n : Nat} (hn : 1 ≤ n) : ceilingLg n = clog 2 n := by
  have hpow : 2 ^ log2 n ≤ n := Nat.log2_self_le (by omega)
  have hlt : n < 2 ^ (log2 n + 1) := Nat.lt_log2_self
  have hfloor : floorLg n = log2 n := by simp [floorLg, show n ≠ 0 by omega]
  have hcast : ((2 : Int) ^ log2 n) = ((2 ^ log2 n : Nat) : Int) := by push_cast; rfl
  unfold ceilingLg
  simp only [hfloor, Int.toNat_natCast, if_neg (Int.not_lt.mpr (Int.natCast_nonneg _)), hcast]
  by_cases heq : n = 2 ^ log2 n
  · rw [if_neg (by omega), Int.add_zero]
    conv_rhs => rw [heq, Nat.clog_pow 2 _ (by decide)]
  · have hle := Nat.clog_le_of_le_pow (Nat.le_of_lt hlt)
    have hge := (Nat.lt_clog_iff_pow_lt (by decide)).mpr (show 2 ^ log2 n < n by omega)
    rw [if_pos (by omega)]
    omega

theorem depth_le_of_isBalanced {n : Nat} (h : isBalanced rp = true) (hn : 1 ≤ n) (hlen : rp.length = n) :
    rp.depth ≤ 2 * clog 2 n := by
  cases rp with
  | leaf s => exact Int.mul_nonneg (by decide) (Int.natCast_nonneg _)
  | cat len d l r =>
    have hdec : decide ((Rope.cat len d l r).depth ≤ 2 * ceilingLg (Rope.cat len d l r).length) = true := h
    rwa [decide_eq_true_eq, hlen, ceilingLg_eq hn] at hdec

/-- Two balanced halves: the logarithm of each is less by 1. -/
theorem isBalanced_nccat2 {l r : Rope α} (hl : isBalanced l = true) (hr : isBalanced r = true)
    (hhalf : l.length = (l.length + r.length) / 2) (h2 : 2 ≤ l.length + r.length) : isBalanced (nccat2 l r) = true := by
  obtain ⟨n, hn⟩ : ∃ n : Nat, l.length + r.length = n := ⟨(l.length + r.length).toNat, by omega⟩
  have hlog : clog 2 n = clog 2 ((n + 1) / 2) + 1 := Nat.clog_of_two_le (by decide) (by omega)
  have hmono : clog 2 (n / 2) ≤ clog 2 ((n + 1) / 2) := Nat.clog_mono_right 2 (by omega)
  have hdl := depth_le_of_isBalanced hl (n := n / 2) (by omega) (by omega)
  have hdr := depth_le_of_isBalanced hr (n := (n + 1) / 2) (by omega) (by omega)
  show decide (max l.depth r.depth + 1 ≤ 2 * ceilingLg (l.length + r.length)) = true
  rw [decide_eq_true_eq, hn, ceilingLg_eq (by omega)]
  omega

/-- It ends with a balanced rope of the same elements. -/
def Balances (M : Int) (f : Nat → Rope α → Except Exn (Rope α)) (rp : Rope α) : Prop :=
  ∃ rp', Returns (fun n => f n rp) rp' ∧ Balanced M rp rp' ∧ isBalanced rp' = true

/-- Where the recursion is left for another function from a length on, that one is to balance too. -/
theorem balances_of_step {f g : Nat → Rope α → Except Exn (Rope α)} {SST : Int}
    (hstep : ∀ n rp, f (n + 1) rp = if isBalanced rp then .ok rp
      else if rp.length ≤ M ∨ rp.length < 2 then leaf M rp.toSeq
      else if rp.length ≤ SST then g n rp
      else do
        let (rp1, rp2) ← splitAtIx2 M rp (rp.length / 2 - 1)
        return nccat2 (← f n rp1) (← f n rp2))
    (hg : ∀ rp : Rope α, rp.WF M → 2 ≤ rp.length → rp.length ≤ SST → Balances M g rp) (h : rp.WF M) : Balances M f rp := by
  induction hk : rp.length.toNat using Nat.strong_induction_on generalizing rp with
  | _ k ih =>
    by_cases hb : isBalanced rp = true
    · refine ⟨rp, .succ ?_, ⟨h, rfl⟩, hb⟩
      simp only [hstep, if_pos hb]
      exact .pure _
    · by_cases hsmall : rp.length ≤ M ∨ rp.length < 2
      · obtain ⟨hleaf, hwf⟩ := leaf_toSeq h hsmall
        refine ⟨_, .succ ?_, ⟨hwf, rfl⟩, rfl⟩
        simp only [hstep, if_neg hb, if_pos hsmall, hleaf]
        exact .pure _
      · by_cases hSST : rp.length ≤ SST
        · obtain ⟨rp', hret, hbal⟩ := hg rp h (by omega) hSST
          refine ⟨rp', .succ ?_, hbal⟩
          simp only [hstep, if_neg hb, if_neg hsmall, if_pos hSST]
          exact hret
        · obtain ⟨l, r, hsplit, hl, hr, happ, hlen1, hlen2⟩ := splitAtIx2_half h (by omega)
          obtain ⟨l', hretl, hbl, hbal⟩ := ih l.length.toNat (by omega) hl rfl
          obtain ⟨r', hretr, hbr, hbar⟩ := ih r.length.toNat (by omega) hr rfl
          have hlenl : l'.length = l.length := by rw [hbl.1.length_eq, hbl.2, hl.length_eq]
          have hlenr : r'.length = r.length := by rw [hbr.1.length_eq, hbr.2, hr.length_eq]
          refine ⟨nccat2 l' r', .succ ?_, hbl.nccat2 hbr happ, isBalanced_nccat2 hbal hbar (by omega) (by omega)⟩
          simp only [hstep, if_neg hb, if_neg hsmall, if_neg hSST, hsplit, ok_bind]
          exact hretl.bind (hretr.bind (.pure _))

theorem balanceSequential_balances (h : rp.WF M) : Balances M (balanceSequential M) rp := by
  have hnone : ∀ rp : Rope α, rp.WF M → 2 ≤ rp.length → rp.length ≤ 1 → Balances M (balanceSequential M) rp :=
    fun rp _ h2 h1 => by omega
  refine balances_of_step (fun n rp => ?_) hnone h
  rw [balanceSequential]
  split
  · rfl
  · split
    · rfl
    · rw [if_neg (by omega)]

theorem balanceETS_balances (SST : Int) (h : rp.WF M) : Balances M (balanceETS M SST) rp :=
  balances_of_step (fun _ _ => rfl) (fun _ hwf _ _ => balanceSequential_balances hwf) h

/-- Under every policy, the elements of the rope in a balanced one with leaves of at most `M`. -/
theorem balance_balances (policy : ChunkingPolicy) (h : rp.WF M) : Balances M (balance M policy) rp := by
  cases policy with
  | sequential => exact balanceSequential_balances h
  | ets SST => exact balanceETS_balances SST h
  | lts _ => exact balanceETS_balances 10000 h

theorem balance_returns (policy : ChunkingPolicy) (h : rp.WF M) :
    ∃ rp', Returns (fun n => balance M policy n rp) rp' ∧ Balanced M rp rp' := by
  obtain ⟨rp', hret, hbal, -⟩ := balance_balances policy h
  exact ⟨rp', hret, hbal⟩

theorem cat2_returns (policy : ChunkingPolicy) (h1 : rp1.WF M) (h2 : rp2.WF M) :
    ∃ rp, Returns (fun n => cat2 M policy n rp1 rp2) rp ∧ rp.WF M ∧ rp.toList = rp1.toList ++ rp2.toList :=
  balance_returns policy (wf_nccat2 h1 h2)

end Manticore.Parray
