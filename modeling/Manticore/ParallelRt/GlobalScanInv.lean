/-
  Manticore.ParallelRt.GlobalScanInv — what holds throughout the copying phase.

  `Places`: every chunk is at one place, a list of the node or with a vproc, and has been scanned up to a mark which
  its place determines. `Control`: the count of the waiting vprocs and what `completed` says. The chunks of a vproc
  (`Local`) are touched by its own steps only (`Places.update`).
-/

import Manticore.Library.LinkedList
import Manticore.Library.Parties
import Manticore.ParallelRt.GlobalScan

namespace Manticore.ParallelRt.GlobalScan

open LinkedList Parties
open List (mem_cons_self mem_cons_of_mem count_pos_iff)

variable {n : Nat} {s s' : Node n} {i j : Fin n} {c : Nat} {vp vp' : VProc} {h : List Nat}

/-! ## Chunks -/

/-- The end of the objects of a chunk. -/
def Chunk.top (ch : Chunk) : Nat := ch.baseAddr + wordSzB * ch.objs.sum

/-- Where the next scan of the chunk starts. -/
def Chunk.mark (ch : Chunk) : Nat := max ch.baseAddr ch.scanProgress

/-- The words of the chunk's first objects have been scanned, up to the address `p`. -/
def ScannedTo (s : Node n) (c p : Nat) : Prop :=
  ∃ pre post, (s.chunks c).objs = pre ++ post ∧ p = (s.chunks c).baseAddr + wordSzB * pre.sum ∧
    s.scanned c = words (s.chunks c).baseAddr pre.sum

theorem ScannedTo.le_top {p : Nat} (hp : ScannedTo s c p) : p ≤ (s.chunks c).top := by
  obtain ⟨pre, post, hobjs, rfl, -⟩ := hp
  rw [Chunk.top, hobjs, List.sum_append]
  exact Nat.add_le_add_left (Nat.mul_le_mul_left _ (Nat.le_add_right _ _)) _

/-- Scanned up to its end, all its words have been scanned. -/
theorem ScannedTo.full (hp : ScannedTo s c (s.chunks c).top) :
    s.scanned c = words (s.chunks c).baseAddr (s.chunks c).objs.sum := by
  obtain ⟨pre, post, -, htop, hscanned⟩ := hp
  have hsum : (s.chunks c).objs.sum = pre.sum := by
    rw [Chunk.top] at htop
    exact Nat.eq_of_mul_eq_mul_left (show 0 < wordSzB by decide) (Nat.add_left_cancel htop)
  rw [hscanned, hsum]

theorem words_add (a k m : Nat) : words a (k + m) = words a k ++ words (a + wordSzB * k) m := by
  unfold words
  rw [List.range_add, List.map_append, List.map_map]
  refine congrArg _ (List.map_congr_left fun x _ => ?_)
  simp only [Function.comp]
  rw [Nat.mul_add, Nat.add_assoc]

theorem words_nodup (a k : Nat) : (words a k).Nodup :=
  List.Nodup.map (fun x y hxy => Nat.eq_of_mul_eq_mul_left (show 0 < wordSzB by decide) (Nat.add_left_cancel hxy))
    List.nodup_range

/-- The chunk and its record are the same in both states. -/
def Same (s s' : Node n) (c : Nat) : Prop := s'.chunks c = s.chunks c ∧ s'.scanned c = s.scanned c

theorem ScannedTo.congr {p : Nat} (hp : ScannedTo s c p) (hs : Same s s' c) : ScannedTo s' c p := by
  unfold ScannedTo
  rw [hs.1, hs.2]
  exact hp

/-! ## The chunks of a vproc -/

def nextOf (s : Node n) (c : Nat) : Option Nat := (s.chunks c).next

/-- The list from `c` to the allocation chunk. -/
def Private (s : Node n) (vp : VProc) (c : Nat) (h : List Nat) : Prop :=
  ∃ l, h = l ++ [vp.globAllocChunk] ∧ Linked (nextOf s) (some c) h

/-- The chunks of a vproc, as they hang together at each place of the program. -/
def Shape (s : Node n) (vp : VProc) (h : List Nat) : Prop :=
  match vp.pc with
  | .roots c | .push c | .pushing c => Private s vp c h
  | .unlinked c => ∃ h', h = c :: h' ∧ Private s vp vp.globAllocChunk h'
  | .got c => Private s vp vp.globAllocChunk h ∧ c = vp.globAllocChunk ∨
      ∃ h', h = c :: h' ∧ Private s vp vp.globAllocChunk h'
  | .scan r | .finish r => Private s vp r.origAlloc h ∧ r.handlingAlloc = true ∧ r.scanChunk = r.origAlloc ∨
      r.handlingAlloc = false ∧ ∃ h', h = r.scanChunk :: h' ∧ Private s vp r.origAlloc h'
  | .signal | .getNext | .asleep | .woken | .broadcast | .done => Private s vp vp.globAllocChunk h

/-- The mark of a chunk: the scan pointer where it is being scanned. -/
def pos (s : Node n) (vp : VProc) (c : Nat) : Nat :=
  match vp.pc with
  | .scan r | .finish r => if c = r.scanChunk then r.scanPtr else (s.chunks c).mark
  | _ => (s.chunks c).mark

/-- What the locals say about the chunk being scanned, and a waiting vproc about its allocation chunk. -/
def Bounds (s : Node n) (vp : VProc) : Prop :=
  match vp.pc with
  | .scan r => r.scanTop ≤ (s.chunks r.scanChunk).top ∧
      (r.handlingAlloc = false → r.scanTop = (s.chunks r.scanChunk).top)
  | .finish r => r.scanPtr = (s.chunks r.scanChunk).top ∧
      (r.scanChunk = vp.globAllocChunk → (s.chunks r.scanChunk).scanProgress = r.scanPtr)
  | .asleep | .woken | .broadcast | .done => (s.chunks vp.globAllocChunk).top ≤ (s.chunks vp.globAllocChunk).scanProgress
  | _ => True

/-- The chunks `h` of a vproc. -/
structure Local (s : Node n) (vp : VProc) (h : List Nat) : Prop where
  shape : Shape s vp h
  usedTop : ∀ c ∈ h, c ≠ vp.globAllocChunk → (s.chunks c).usedTop = (s.chunks c).top
  globNextW : vp.globNextW = (s.chunks vp.globAllocChunk).top + wordSzB
  scanned : ∀ c ∈ h, ScannedTo s c (pos s vp c)
  bounds : Bounds s vp

theorem Private.mem (hp : Private s vp c h) : vp.globAllocChunk ∈ h := by
  obtain ⟨l, rfl, -⟩ := hp
  exact List.mem_append_right _ mem_cons_self

theorem Private.head (hp : Private s vp c h) : ∃ t, h = c :: t := by
  obtain ⟨l, rfl, hl⟩ := hp
  cases l with
  | nil => exact ⟨[], by rw [List.nil_append, Option.some.inj hl.1]⟩
  | cons a l => exact ⟨_, by rw [List.cons_append, Option.some.inj hl.1]⟩

theorem Private.next_none (hp : Private s vp c h) : (s.chunks vp.globAllocChunk).next = none := by
  obtain ⟨l, rfl, hl⟩ := hp
  exact hl.last

theorem Private.congr (hp : Private s vp c h) (ha : vp'.globAllocChunk = vp.globAllocChunk)
    (hs : ∀ d ∈ h, nextOf s' d = nextOf s d) : Private s' vp' c h := by
  obtain ⟨l, rfl, hl⟩ := hp
  exact ⟨l, by rw [ha], hl.congr hs⟩

/-- A list that starts with the allocation chunk has no other. -/
theorem Private.alone (hp : Private s vp vp.globAllocChunk h) (hd : h.Nodup) : h = [vp.globAllocChunk] := by
  obtain ⟨l, rfl, hl⟩ := hp
  cases l with
  | nil => rfl
  | cons a l =>
    rw [List.cons_append, List.nodup_cons] at hd
    simp_all

theorem Shape.alloc_mem (hs : Shape s vp h) : vp.globAllocChunk ∈ h := by
  unfold Shape at hs
  split at hs
  all_goals first
    | exact hs.mem
    | obtain ⟨h', rfl, hp⟩ := hs
      exact mem_cons_of_mem _ hp.mem
    | rcases hs with ⟨hp, -⟩ | ⟨h', rfl, hp⟩
      · exact hp.mem
      · exact mem_cons_of_mem _ hp.mem
    | rcases hs with ⟨hp, -⟩ | ⟨-, h', rfl, hp⟩
      · exact hp.mem
      · exact mem_cons_of_mem _ hp.mem

theorem Shape.congr (hs : Shape s vp h) (hn : ∀ d ∈ h, nextOf s' d = nextOf s d) : Shape s' vp h := by
  unfold Shape at hs ⊢
  split at hs
  all_goals first
    | exact hs.congr rfl hn
    | obtain ⟨h', rfl, hp⟩ := hs
      exact ⟨h', rfl, hp.congr rfl fun d hd => hn d (mem_cons_of_mem _ hd)⟩
    | rcases hs with ⟨hp, hc⟩ | ⟨h', rfl, hp⟩
      · exact .inl ⟨hp.congr rfl hn, hc⟩
      · exact .inr ⟨h', rfl, hp.congr rfl fun d hd => hn d (mem_cons_of_mem _ hd)⟩
    | rcases hs with ⟨hp, hc⟩ | ⟨hr, h', rfl, hp⟩
      · exact .inl ⟨hp.congr rfl hn, hc⟩
      · exact .inr ⟨hr, h', rfl, hp.congr rfl fun d hd => hn d (mem_cons_of_mem _ hd)⟩

/-- The chunk being scanned. -/
theorem Shape.scanChunk_mem {r : Scan} (hs : Shape s vp h) (hr : vp.pc = .scan r ∨ vp.pc = .finish r) :
    r.scanChunk ∈ h := by
  have hs' : Private s vp r.origAlloc h ∧ r.handlingAlloc = true ∧ r.scanChunk = r.origAlloc ∨
      r.handlingAlloc = false ∧ ∃ h', h = r.scanChunk :: h' ∧ Private s vp r.origAlloc h' := by
    unfold Shape at hs
    rcases hr with hr | hr
    · rw [hr] at hs
      exact hs
    · rw [hr] at hs
      exact hs
  rcases hs' with ⟨hp, -, heq⟩ | ⟨-, h', rfl, -⟩
  · obtain ⟨t, rfl⟩ := hp.head
    rw [heq]
    exact mem_cons_self
  · exact mem_cons_self

theorem pos_congr (hc : s'.chunks c = s.chunks c) : pos s' vp c = pos s vp c := by
  unfold pos
  rw [hc]

/-- Only the chunks of the vproc matter. -/
theorem Local.congr (hl : Local s vp h) (hs : ∀ c ∈ h, Same s s' c) : Local s' vp h := by
  have halloc := hs _ hl.shape.alloc_mem
  refine ⟨hl.shape.congr fun d hd => ?_, fun c hc hne => ?_, ?_, fun c hc => ?_, ?_⟩
  · unfold nextOf
    rw [(hs d hd).1]
  · rw [(hs c hc).1]
    exact hl.usedTop c hc hne
  · rw [halloc.1]
    exact hl.globNextW
  · rw [pos_congr (hs c hc).1]
    exact (hl.scanned c hc).congr (hs c hc)
  · have hb := hl.bounds
    unfold Bounds at hb ⊢
    split at hb
    · rename_i r hr
      rw [(hs _ (hl.shape.scanChunk_mem (.inl hr))).1]
      exact hb
    · rename_i r hr
      rw [(hs _ (hl.shape.scanChunk_mem (.inr hr))).1]
      exact hb
    all_goals first
      | exact trivial
      | rw [halloc.1]
        exact hb

/-! ## Every chunk at one place -/

/-- The unscanned list, the scanned list, and the chunks of every vproc. -/
structure Places (s : Node n) (U S : List Nat) (H : Fin n → List Nat) : Prop where
  once : ∀ c, U.count c + S.count c + ∑ i, (H i).count c = if c < s.nChunks then 1 else 0
  unscannedTo : Linked (nextOf s) s.unscannedTo U
  scannedTo : Linked (nextOf s) s.scannedTo S
  unscanned : ∀ c ∈ U, (s.chunks c).usedTop = (s.chunks c).top ∧ ScannedTo s c (s.chunks c).mark
  scanned : ∀ c ∈ S, (s.chunks c).usedTop = (s.chunks c).top ∧ ScannedTo s c (s.chunks c).top
  held : ∀ i, Local s (s.vps i) (H i)
  fresh : ∀ c, s.nChunks ≤ c → s.scanned c = []

section

variable {U S U' S' h' : List Nat} {H : Fin n → List Nat}

theorem Places.count_le (hp : Places s U S H) (c : Nat) : U.count c + S.count c + ∑ i, (H i).count c ≤ 1 := by
  rw [hp.once]
  split <;> omega

theorem Places.lt_of_unscanned (hp : Places s U S H) (hc : c ∈ U) : c < s.nChunks := by
  by_contra hge
  have honce := hp.once c
  rw [if_neg hge] at honce
  have := count_pos_iff.mpr hc
  omega

theorem Places.lt_of_scanned (hp : Places s U S H) (hc : c ∈ S) : c < s.nChunks := by
  by_contra hge
  have honce := hp.once c
  rw [if_neg hge] at honce
  have := count_pos_iff.mpr hc
  omega

theorem Places.lt_of_held (hp : Places s U S H) (hc : c ∈ H i) : c < s.nChunks := by
  by_contra hge
  have honce := hp.once c
  rw [if_neg hge] at honce
  have hpos := count_pos_iff.mpr hc
  have hle := le_sum (fun j => (H j).count c) i
  omega

theorem Places.not_unscanned (hp : Places s U S H) (hc : c ∈ H i) : c ∉ U := by
  intro hU
  have hcount := hp.count_le c
  have hle := le_sum (fun j => (H j).count c) i
  have hpos := count_pos_iff.mpr hc
  have hpos' := count_pos_iff.mpr hU
  omega

theorem Places.not_scanned (hp : Places s U S H) (hc : c ∈ H i) : c ∉ S := by
  intro hS
  have hcount := hp.count_le c
  have hle := le_sum (fun j => (H j).count c) i
  have hpos := count_pos_iff.mpr hc
  have hpos' := count_pos_iff.mpr hS
  omega

theorem Places.not_other (hp : Places s U S H) (hc : c ∈ H i) (hne : j ≠ i) : c ∉ H j := by
  intro hj
  have hcount := hp.count_le c
  have hle := add_le_sum (fun j => (H j).count c) hne
  have hpos := count_pos_iff.mpr hc
  have hpos' := count_pos_iff.mpr hj
  omega

theorem Places.nodup (hp : Places s U S H) (i : Fin n) : (H i).Nodup := by
  rw [List.nodup_iff_count_le_one]
  intro c
  have hcount := hp.count_le c
  have hle := le_sum (fun j => (H j).count c) i
  omega

/-- The lists of the node are the same when only chunks of a vproc change. -/
theorem Places.keep (hp : Places s U S H) (hsame : ∀ c < s.nChunks, c ∉ H i → Same s s' c) :
    (Linked (nextOf s') s.unscannedTo U ∧ ∀ c ∈ U, (s'.chunks c).usedTop = (s'.chunks c).top ∧
      ScannedTo s' c (s'.chunks c).mark) ∧
    Linked (nextOf s') s.scannedTo S ∧ ∀ c ∈ S, (s'.chunks c).usedTop = (s'.chunks c).top ∧
      ScannedTo s' c (s'.chunks c).top := by
  have hU : ∀ c ∈ U, Same s s' c := fun c hc =>
    hsame c (hp.lt_of_unscanned hc) fun hi => hp.not_unscanned hi hc
  have hS : ∀ c ∈ S, Same s s' c := fun c hc => hsame c (hp.lt_of_scanned hc) fun hi => hp.not_scanned hi hc
  refine ⟨⟨hp.unscannedTo.congr fun c hc => ?_, fun c hc => ?_⟩, hp.scannedTo.congr fun c hc => ?_, fun c hc => ?_⟩
  · unfold nextOf
    rw [(hU c hc).1]
  · rw [(hU c hc).1]
    exact ⟨(hp.unscanned c hc).1, (hp.unscanned c hc).2.congr (hU c hc)⟩
  · unfold nextOf
    rw [(hS c hc).1]
  · rw [(hS c hc).1]
    exact ⟨(hp.scanned c hc).1, (hp.scanned c hc).2.congr (hS c hc)⟩

/-- A step of the vproc `i`: its own chunks change, and may move to the lists of the node or come from them. -/
theorem Places.update (hp : Places s U S H) (hsame : ∀ c < s.nChunks, c ∉ H i → Same s s' c)
    (hvps : ∀ j, j ≠ i → s'.vps j = s.vps j)
    (honce : ∀ c, U'.count c + S'.count c + h'.count c + (if c < s.nChunks then 1 else 0) =
      U.count c + S.count c + (H i).count c + if c < s'.nChunks then 1 else 0)
    (hU : Linked (nextOf s') s'.unscannedTo U') (hS : Linked (nextOf s') s'.scannedTo S')
    (hUm : ∀ c ∈ U', (s'.chunks c).usedTop = (s'.chunks c).top ∧ ScannedTo s' c (s'.chunks c).mark)
    (hSt : ∀ c ∈ S', (s'.chunks c).usedTop = (s'.chunks c).top ∧ ScannedTo s' c (s'.chunks c).top)
    (hlocal : Local s' (s'.vps i) h') (hfresh : ∀ c, s'.nChunks ≤ c → s'.scanned c = []) :
    Places s' U' S' (Function.update H i h') := by
  refine ⟨fun c => ?_, hU, hS, hUm, hSt, fun j => ?_, hfresh⟩
  · have h1 := honce c
    have h2 := hp.once c
    have h3 := sum_update H (fun l => l.count c) i h'
    omega
  · by_cases hj : j = i
    · rw [hj, Function.update_self]
      exact hlocal
    · rw [Function.update_of_ne hj, hvps j hj]
      exact (hp.held j).congr fun c hc => hsame c (hp.lt_of_held hc) fun hi => hp.not_other hi hj hc

/-- A step that only changes chunks of the vproc that stay with it. -/
theorem Places.update_own (hp : Places s U S H) (hsame : ∀ c < s.nChunks, c ∉ H i → Same s s' c)
    (hvps : ∀ j, j ≠ i → s'.vps j = s.vps j) (hn : s'.nChunks = s.nChunks) (hu : s'.unscannedTo = s.unscannedTo)
    (ht : s'.scannedTo = s.scannedTo) (hlocal : Local s' (s'.vps i) (H i))
    (hfresh : ∀ c, s.nChunks ≤ c → s'.scanned c = []) : Places s' U S H := by
  obtain ⟨⟨hU, hUm⟩, hS, hSt⟩ := hp.keep hsame
  have hall : Places s' U S (Function.update H i (H i)) := hp.update hsame hvps (fun c => by rw [hn]) (hu ▸ hU) (ht ▸ hS)
    hUm hSt hlocal (by rwa [hn])
  rwa [Function.update_eq_self] at hall

end

end Manticore.ParallelRt.GlobalScan
