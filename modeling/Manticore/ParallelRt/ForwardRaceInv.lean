/-
  Manticore.ParallelRt.ForwardRaceInv — what holds while the vprocs forward.

  `Inv`: a from-space object has its header or a forwarding pointer, to an object in to-space or to one that the vproc
  that has won it is still writing; an object in to-space is the copy of the one that is forwarded to it, but for the
  fields that are redirected already. `PcOk`: what the locals of a call say. `PcOk.keeps`: a vproc's steps keep that
  of the others. `Inv.write`: what a store keeps.
-/

import Manticore.ParallelRt.ForwardRace

namespace Manticore.ParallelRt.ForwardRace

open ByteMemory

variable {n : Nat} {G : Graph n} {s s' : State n} {i j : Fin n} {m m' : Mem} {c d p q x y : Nat}

/-! ## Words -/

/-- The word at `x` is in the chunk `c`. -/
structure Within (s : State n) (c x : Nat) : Prop where
  lt : c < s.nChunks
  base_le : (s.chunks c).baseAddr ≤ x
  le_top : x + 8 ≤ (s.chunks c).baseAddr + heapChunkSzB

theorem ChunksOk.within_apart (h : ChunksOk G s) (hx : Within s c x) (hy : Within s d y) (hcd : c ≠ d) : Apart x y := by
  have hap := h.apart c hx.lt d hy.lt hcd
  have hx' := hx.base_le
  have hx'' := hx.le_top
  have hy' := hy.base_le
  have hy'' := hy.le_top
  unfold Apart
  omega

theorem ChunksOk.root_apart (h : ChunksOk G s) {r : Nat} (hr : r ∈ G.roots) (hx : Within s c x) : Apart r x := by
  have hap := h.roots r hr c hx.lt
  have hx' := hx.base_le
  have hx'' := hx.le_top
  unfold wordSzB at hap
  unfold Apart
  omega

/-! ## Forwarding pointers -/

/-- The address in the forwarding pointer of the object at `p`. -/
def forwarded (m : Mem) (p : Nat) : Option Nat :=
  let hdr := loadWord m (p - wordSzB)
  if isForwardPtr hdr then some (getForwardPtr hdr).toNat else none

theorem forwarded_congr (h : loadWord m' (p - 8) = loadWord m (p - 8)) : forwarded m' p = forwarded m p := by
  unfold forwarded wordSzB
  rw [h]

theorem forwarded_of_eq (hq : q < 2 ^ 61) (h : loadWord m (p - 8) = makeForwardPtr (BitVec.ofNat 64 q)) :
    forwarded m p = some q := by
  unfold forwarded wordSzB
  dsimp only
  rw [h, if_pos (isForwardPtr_makeForwardPtr _), getForwardPtr_makeForwardPtr hq]

variable {len top : Nat} {alloc : Alloc}

theorem forwarded_eq_none (h : HdrOk G.table (loadWord m (p - 8)) len) : forwarded m p = none := by
  unfold forwarded wordSzB
  dsimp only
  rw [if_neg (by rw [h.not_forward]; decide)]

/-! ## Copies -/

/-- `w` refers to the copy of the object that `v` refers to. -/
def Redirected (G : Graph n) (m : Mem) (ptr : Bool) (v w : Word) : Prop :=
  ptr = true ∧ G.start.isFromSpacePtr v = true ∧ forwarded m v.toNat = some w.toNat

def FieldOk (G : Graph n) (m : Mem) (ptr : Bool) (v w : Word) : Prop := w = v ∨ Redirected G m ptr v w

/-- The object at `q` is a copy of that at `p`. -/
structure IsCopy (G : Graph n) (m : Mem) (p q : Nat) : Prop where
  hdr : loadWord m (q - 8) = G.hdr p
  field : ∀ k < G.len p, FieldOk G m (isPtrField G.table (G.hdr p) k) (G.field p k) (loadWord m (q + 8 * k))

/-- The vproc is writing the copy `q` of `p`. -/
def Pc.Writing (pc : Pc) (p q : Nat) : Prop :=
  match pc with
  | .header c _ newObj | .copy c _ newObj _ => p = c.v.toNat ∧ q = newObj
  | _ => False

/-- The word at `a` had the value `v` before it was redirected. -/
inductive SlotOf (G : Graph n) (s : State n) : Nat → Word → Prop
  | root {a : Nat} : a ∈ G.roots → SlotOf G s a (loadWord G.start.mem a)
  | field {p q k : Nat} : Live G p → Held G s q → forwarded s.mem p = some q → k < G.len p →
      isPtrField G.table (G.hdr p) k = true → SlotOf G s (q + 8 * k) (G.field p k)

structure CallOk (G : Graph n) (s : State n) (c : Call) : Prop where
  slot : SlotOf G s c.slot c.v
  fromSp : G.start.isFromSpacePtr c.v = true
  live : Live G c.v.toNat

/-- A chunk in to-space that no vproc allocates in any more, with its objects up to `top`. -/
structure Left (s : State n) (c top : Nat) : Prop where
  lt : c < s.nChunks
  toSp : (s.chunks c).sts = .toSp
  left : ∀ k, (s.vps k).alloc.globAllocChunk ≠ c
  usedTop : (s.chunks c).usedTop = top

/-- The fields of the vproc are those it called with, or those of a fresh chunk, with that of the call full. -/
def Untouched (s : State n) (entry alloc : Alloc) : Prop :=
  alloc = entry ∨ Left s entry.globAllocChunk (entry.globNextW - 8) ∧
    alloc.globNextW = (s.chunks alloc.globAllocChunk).baseAddr + 8 ∧
    alloc.globLimit = (s.chunks alloc.globAllocChunk).baseAddr + heapChunkSzB

/-- There is room for the copy of `p` at `q`, behind the vproc's objects. -/
structure Room (G : Graph n) (s : State n) (alloc : Alloc) (p q : Nat) : Prop where
  next : q = alloc.globNextW
  lt : q < (s.chunks alloc.globAllocChunk).baseAddr + heapChunkSzB
  le : q + 8 * G.len p ≤ (s.chunks alloc.globAllocChunk).baseAddr + heapChunkSzB

/-- What the locals of a vproc say. -/
def PcOk (G : Graph n) (s : State n) (vp : VProc) : Prop :=
  match vp.pc with
  | .scan => True
  | .call c => CallOk G s c ∧ vp.alloc = c.entry
  | .reserve c h => CallOk G s c ∧ h = G.hdr c.v.toNat ∧ vp.alloc = c.entry
  | .cas c h q => CallOk G s c ∧ h = G.hdr c.v.toNat ∧ Untouched s c.entry vp.alloc ∧ Room G s vp.alloc c.v.toNat q
  | .header c h q => CallOk G s c ∧ h = G.hdr c.v.toNat ∧ forwarded s.mem c.v.toNat = some q ∧
      Room G s vp.alloc c.v.toNat q
  | .copy c h q k => CallOk G s c ∧ h = G.hdr c.v.toNat ∧ forwarded s.mem c.v.toNat = some q ∧
      Room G s vp.alloc c.v.toNat q ∧ loadWord s.mem (q - 8) = h ∧ k ≤ G.len c.v.toNat ∧
      ∀ f < k, loadWord s.mem (q + 8 * f) = G.field c.v.toNat f
  | .ret c v copied => CallOk G s c ∧ forwarded s.mem c.v.toNat = some v.toNat ∧
      (copied = false → Untouched s c.entry vp.alloc)

structure Inv (G : Graph n) (s : State n) : Prop where
  chunks : ChunksOk G s
  fromSp : ∀ a, s.inFromSpace a = G.start.inFromSpace a
  obj : ∀ p ∈ G.objs, ∃ c < s.nChunks, (s.chunks c).sts = .fromSp ∧ (s.chunks c).baseAddr + 8 ≤ p ∧
    p + 8 * G.len p ≤ (s.chunks c).baseAddr + heapChunkSzB
  objects : ∀ c < s.nChunks, (s.chunks c).sts = .toSp → ∀ top, UsedTop s c top →
    top ≤ (s.chunks c).baseAddr + heapChunkSzB ∧ ∃ hs, Objects G.table s.mem (s.chunks c).baseAddr hs top
  copies : ∀ q, Held G s q → ∃ p, Live G p ∧ forwarded s.mem p = some q ∧ IsCopy G s.mem p q
  hdr : ∀ p ∈ G.objs, forwarded s.mem p = none → loadWord s.mem (p - 8) = G.hdr p
  placed : ∀ p ∈ G.objs, ∀ q, forwarded s.mem p = some q → s.inFromSpace q = false ∧
    (Held G s q ∨ ∃ i, (s.vps i).pc.Writing p q)
  inj : ∀ p ∈ G.objs, ∀ p' ∈ G.objs, ∀ q, forwarded s.mem p = some q → forwarded s.mem p' = some q → p = p'
  fields : ∀ p ∈ G.objs, ∀ k < G.len p, loadWord s.mem (p + 8 * k) = G.field p k
  roots : ∀ r ∈ G.roots, FieldOk G s.mem true (loadWord G.start.mem r) (loadWord s.mem r)
  pcs : ∀ i, PcOk G s (s.vps i)

/-! ## Places -/

/-- `x` is a word of the object of `len` fields at `p`. -/
structure WordOf (p len x : Nat) : Prop where
  le : p ≤ x + 8
  lt : x + 8 ≤ p + 8 * len

theorem WordOf.hdr (hp : 8 ≤ p) : WordOf p len (p - 8) := ⟨by omega, by omega⟩

theorem WordOf.field {k : Nat} (hk : k < len) : WordOf p len (p + 8 * k) := ⟨by omega, by omega⟩

theorem UsedTop.unique (h : ChunksOk G s) {top' : Nat} (ht : UsedTop s c top) (ht' : UsedTop s c top') :
    top = top' := by
  rcases ht with ⟨i, hi, rfl⟩ | ⟨hn, rfl⟩
  · rcases ht' with ⟨j, hj, rfl⟩ | ⟨hn, -⟩
    · rw [h.own i j (hi.trans hj.symm)]
    · exact absurd hi (hn i)
  · rcases ht' with ⟨j, hj, -⟩ | ⟨-, rfl⟩
    · exact absurd hj (hn j)
    · rfl

/-- Where an object of to-space is, and what it is a copy of. -/
structure Place (G : Graph n) (s : State n) (q p c top : Nat) : Prop where
  live : Live G p
  forwarded : forwarded s.mem p = some q
  copy : IsCopy G s.mem p q
  lt : c < s.nChunks
  toSp : (s.chunks c).sts = .toSp
  usedTop : UsedTop s c top
  top_le : top ≤ (s.chunks c).baseAddr + heapChunkSzB
  base_le : (s.chunks c).baseAddr + 8 ≤ q
  objects : ∃ hs, Objects G.table s.mem (s.chunks c).baseAddr hs top ∧ q - 8 ∈ hs
  le_top : q + 8 * G.len p ≤ top

theorem Inv.held (hG : G.Ok) (h : Inv G s) (hq : Held G s q) : ∃ p c top, Place G s q p c top := by
  obtain ⟨p, hp, hfwd, hcopy⟩ := h.copies q hq
  obtain ⟨c, top, hs, hc, hsts, htop, hobj, h8, hmem⟩ := hq
  obtain ⟨len, hhdr, hle, hlt⟩ := hobj.mem_bounds hmem
  have hlen : len = G.len p := by
    have hhdr' := hG.hdr p (hp.mem hG)
    rw [← hcopy.hdr] at hhdr'
    exact hhdr.unique hhdr'
  unfold wordSzB at h8 hle hlt
  subst hlen
  exact ⟨p, c, top, hp, hfwd, hcopy, hc, hsts, htop, (h.objects c hc hsts top htop).1, by omega,
    ⟨hs, hobj, hmem⟩, by omega⟩

theorem Place.within (h : Place G s q p c top) (hx : WordOf q (G.len p) x) : Within s c x := by
  have h1 := h.top_le
  have h2 := h.base_le
  have h3 := h.le_top
  have h4 := hx.le
  have h5 := hx.lt
  exact ⟨h.lt, by omega, by omega⟩

theorem Inv.obj_within (h : Inv G s) (hp : p ∈ G.objs) (hx : WordOf p (G.len p) x) :
    ∃ c, (s.chunks c).sts = .fromSp ∧ Within s c x := by
  obtain ⟨c, hc, hsts, hbase, htop⟩ := h.obj p hp
  have h1 := hx.le
  have h2 := hx.lt
  exact ⟨c, hsts, hc, by omega, by omega⟩

theorem Inv.eight_le (h : Inv G s) (hp : p ∈ G.objs) : 8 ≤ p := by
  obtain ⟨c, -, -, hbase, -⟩ := h.obj p hp
  omega

/-- From-space and to-space are apart. -/
theorem Inv.obj_apart_to (h : Inv G s) (hp : p ∈ G.objs) (hx : WordOf p (G.len p) x)
    (hsts : (s.chunks c).sts = .toSp) (hy : Within s c y) : Apart x y := by
  obtain ⟨d, hd, hx⟩ := h.obj_within hp hx
  exact h.chunks.within_apart hx hy (by rintro rfl; rw [hsts] at hd; cases hd)

theorem Graph.Ok.words_apart (hG : G.Ok) (hp : p ∈ G.objs) (hq : q ∈ G.objs) (hpq : p ≠ q)
    (hx : WordOf p (G.len p) x) (hy : WordOf q (G.len q) y) : Apart x y := by
  have hap := hG.apart p hp q hq hpq
  have h1 := hx.le
  have h2 := hx.lt
  have h3 := hy.le
  have h4 := hy.lt
  unfold wordSzB at hap
  unfold Apart
  omega

/-- What is behind the objects of a vproc's allocation chunk is apart from all objects of to-space. -/
theorem Place.free_apart (hc : ChunksOk G s) (hq : Place G s q p c top) (hx : WordOf q (G.len p) x)
    (hy : Within s (s.vps i).alloc.globAllocChunk y) (hnext : (s.vps i).alloc.globNextW ≤ y + 8) : Apart x y := by
  by_cases hci : c = (s.vps i).alloc.globAllocChunk
  · obtain rfl := hq.usedTop.unique hc (.inl ⟨i, hci.symm, rfl⟩)
    have h1 := hq.le_top
    have h2 := hx.lt
    have h3 := (hc.alloc i).base_le
    unfold wordSzB at h1 h3
    unfold Apart
    omega
  · exact hc.within_apart (hq.within hx) hy hci

theorem Place.hdrOk (hG : G.Ok) (h : Place G s q p c top) : HdrOk G.table (loadWord s.mem (q - 8)) (G.len p) := by
  rw [h.copy.hdr]
  exact hG.hdr p (h.live.mem hG)

/-- Two objects of to-space are apart. -/
theorem Place.apart {q' p' c' top' : Nat} (hG : G.Ok) (hc : ChunksOk G s) (hq : Place G s q p c top)
    (hq' : Place G s q' p' c' top') (hne : q ≠ q') (hx : WordOf q (G.len p) x) (hy : WordOf q' (G.len p') y) :
    Apart x y := by
  by_cases hcc : c = c'
  · subst hcc
    obtain rfl := hq.usedTop.unique hc hq'.usedTop
    obtain ⟨hs, hobj, hmem⟩ := hq.objects
    obtain ⟨hs', hobj', hmem'⟩ := hq'.objects
    obtain rfl := hobj.unique hobj'
    have h1 := hq.base_le
    have h2 := hq'.base_le
    have hap := hobj.apart hmem hmem' (by omega) (hq.hdrOk hG) (hq'.hdrOk hG)
    have h3 := hx.le
    have h4 := hx.lt
    have h5 := hy.le
    have h6 := hy.lt
    unfold Apart
    omega
  · exact hc.within_apart (hq.within hx) (hq'.within hy) hcc

/-! ## What the steps of a vproc keep for the others -/

/-- `s'` keeps what the locals of a vproc with the fields `alloc` say in `s`. -/
structure Keeps (G : Graph n) (s s' : State n) (alloc : Alloc) : Prop where
  held : ∀ q, Held G s q → Held G s' q
  forwarded : ∀ p ∈ G.objs, ∀ q, forwarded s.mem p = some q → forwarded s'.mem p = some q
  base : (s'.chunks alloc.globAllocChunk).baseAddr = (s.chunks alloc.globAllocChunk).baseAddr
  left : ∀ c top, Left s c top → Left s' c top
  room : ∀ x, Within s alloc.globAllocChunk x → alloc.globNextW ≤ x + 8 → loadWord s'.mem x = loadWord s.mem x

theorem SlotOf.mono (hG : G.Ok) (hheld : ∀ q, Held G s q → Held G s' q)
    (hfwd : ∀ p ∈ G.objs, ∀ q, forwarded s.mem p = some q → forwarded s'.mem p = some q) {a : Nat} {v : Word}
    (h : SlotOf G s a v) : SlotOf G s' a v := by
  cases h with
  | root ha => exact .root ha
  | field hp hq hf hlt hptr => exact .field hp (hheld _ hq) (hfwd _ (hp.mem hG) _ hf) hlt hptr

theorem CallOk.keeps (hG : G.Ok) (hk : Keeps G s s' alloc) {c : Call} (h : CallOk G s c) : CallOk G s' c :=
  ⟨h.slot.mono hG hk.held hk.forwarded, h.fromSp, h.live⟩

theorem Untouched.keeps {entry : Alloc} (hk : Keeps G s s' alloc) (h : Untouched s entry alloc) :
    Untouched s' entry alloc := by
  rcases h with rfl | ⟨hleft, hnext, hlimit⟩
  · exact .inl rfl
  · exact .inr ⟨hk.left _ _ hleft, by rw [hk.base]; exact hnext, by rw [hk.base]; exact hlimit⟩

theorem Room.keeps (hk : Keeps G s s' alloc) (h : Room G s alloc p q) : Room G s' alloc p q :=
  ⟨h.next, by rw [hk.base]; exact h.lt, by rw [hk.base]; exact h.le⟩

/-- The words of the copy are in the chunk, behind its objects. -/
theorem Room.word (ha : alloc.Ok s) (h : Room G s alloc p q) (hx : WordOf q (G.len p) x) :
    Within s alloc.globAllocChunk x ∧ alloc.globNextW ≤ x + 8 := by
  have h1 := h.next
  have h2 := h.le
  have h3 := ha.base_le
  have h4 := hx.le
  have h5 := hx.lt
  unfold wordSzB at h3
  exact ⟨⟨ha.lt, by omega, by omega⟩, by omega⟩

theorem Room.eight_le (ha : alloc.Ok s) (h : Room G s alloc p q) : 8 ≤ q := by
  have h1 := h.next
  have h3 := ha.base_le
  unfold wordSzB at h3
  omega

theorem Pc.Writing.unique {pc : Pc} {p' : Nat} (h : pc.Writing p q) (h' : pc.Writing p' q) : p = p' := by
  unfold Pc.Writing at h h'
  split at h
  · exact h.1.trans h'.1.symm
  · exact h.1.trans h'.1.symm
  · exact h.elim

theorem PcOk.room {vp : VProc} (h : PcOk G s vp) (hw : vp.pc.Writing p q) : ∃ p', Room G s vp.alloc p' q := by
  unfold PcOk at h
  grind [Pc.Writing]

theorem PcOk.keeps (hG : G.Ok) {vp : VProc} (ha : vp.alloc.Ok s) (hk : Keeps G s s' vp.alloc) (h : PcOk G s vp) :
    PcOk G s' vp := by
  unfold PcOk at h ⊢
  split at h
  · trivial
  · exact ⟨h.1.keeps hG hk, h.2⟩
  · exact ⟨h.1.keeps hG hk, h.2⟩
  · obtain ⟨hcall, hhdr, huntouched, hroom⟩ := h
    exact ⟨hcall.keeps hG hk, hhdr, huntouched.keeps hk, hroom.keeps hk⟩
  · obtain ⟨hcall, hhdr, hfwd, hroom⟩ := h
    exact ⟨hcall.keeps hG hk, hhdr, hk.forwarded _ (hcall.live.mem hG) _ hfwd, hroom.keeps hk⟩
  · obtain ⟨hcall, hhdr, hfwd, hroom, hcopied, hle, hfields⟩ := h
    have h8 := hroom.eight_le ha
    refine ⟨hcall.keeps hG hk, hhdr, hk.forwarded _ (hcall.live.mem hG) _ hfwd, hroom.keeps hk, ?_, hle, fun f hf => ?_⟩
    · obtain ⟨hin, hnext⟩ := hroom.word ha (.hdr h8)
      rw [hk.room _ hin hnext]
      exact hcopied
    · obtain ⟨hin, hnext⟩ := hroom.word ha (.field (Nat.lt_of_lt_of_le hf hle))
      rw [hk.room _ hin hnext]
      exact hfields f hf
  · obtain ⟨hcall, hfwd, huntouched⟩ := h
    exact ⟨hcall.keeps hG hk, hk.forwarded _ (hcall.live.mem hG) _ hfwd, fun hc => (huntouched hc).keeps hk⟩

end Manticore.ParallelRt.ForwardRace
