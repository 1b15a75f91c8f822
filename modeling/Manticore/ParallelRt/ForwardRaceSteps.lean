/-
  Manticore.ParallelRt.ForwardRaceSteps — the steps keep the invariant.

  - `Writes`, `Inv.write`: a step that stores a word at most, and moves a vproc on.
  - `Inv.scan`, `Inv.forwarded`, `Inv.start`, `Inv.reserve`, `Inv.win`, `Inv.lose`, `Inv.header`, `Inv.copy`,
    `Inv.ret`, `Inv.bump`: one lemma for each step.
-/

import Manticore.ParallelRt.ForwardRaceInv

namespace Manticore.ParallelRt.ForwardRace

open ByteMemory

variable {n : Nat} {G : Graph n} {s s' : State n} {i j : Fin n} {m m' : Mem} {c d p q x y : Nat} {pc : Pc}

/-! ## Steps that store a word at most -/

/-- The same chunks, which the same vprocs allocate in. -/
structure SameHeap (s s' : State n) : Prop where
  chunks : s'.chunks = s.chunks
  nChunks : s'.nChunks = s.nChunks
  freeChunks : s'.freeChunks = s.freeChunks
  alloc : ∀ j, (s'.vps j).alloc = (s.vps j).alloc

theorem SameHeap.chunksOk (h : SameHeap s s') (hc : ChunksOk G s) : ChunksOk G s' where
  size := by rw [h.chunks, h.nChunks]; exact hc.size
  apart := by rw [h.chunks, h.nChunks]; exact hc.apart
  roots := by rw [h.chunks, h.nChunks]; exact hc.roots
  free := by rw [h.chunks, h.nChunks, h.freeChunks]; exact hc.free
  nodup := by rw [h.freeChunks]; exact hc.nodup
  nodes := by rw [h.freeChunks]; exact hc.nodes
  alloc k := by
    obtain ⟨h1, h2, h3, h4, h5⟩ := hc.alloc k
    rw [h.alloc]
    exact ⟨by rw [h.nChunks]; exact h1, by rw [h.chunks]; exact h2, by rw [h.chunks]; exact h3,
      by rw [h.chunks]; exact h4, h5⟩
  own k l := by rw [h.alloc, h.alloc]; exact hc.own k l

theorem SameHeap.inFromSpace (h : SameHeap s s') (a : Nat) : s'.inFromSpace a = s.inFromSpace a := by
  unfold State.inFromSpace
  rw [h.chunks, h.nChunks]

theorem SameHeap.usedTop (h : SameHeap s s') {top : Nat} : UsedTop s' c top ↔ UsedTop s c top := by
  unfold UsedTop
  simp only [h.chunks, h.alloc]

theorem SameHeap.left (h : SameHeap s s') {top : Nat} (hl : Left s c top) : Left s' c top :=
  ⟨by rw [h.nChunks]; exact hl.lt, by rw [h.chunks]; exact hl.toSp, fun k => by rw [h.alloc]; exact hl.left k,
    by rw [h.chunks]; exact hl.usedTop⟩

/-- The vproc `i` has the memory `m'` and goes on at `pc`. -/
def State.write (s : State n) (i : Fin n) (m' : Mem) (pc : Pc) : State n := ({ s with mem := m' } : State n).setPc i pc

theorem setPc_vps (s : State n) (i : Fin n) (pc : Pc) : (s.setPc i pc).vps i = { s.vps i with pc } :=
  Function.update_self _ _ _

theorem setPc_vps_of_ne (hj : j ≠ i) : (s.setPc i pc).vps j = s.vps j := Function.update_of_ne hj _ _

theorem setPc_alloc (s : State n) (i j : Fin n) (pc : Pc) : ((s.setPc i pc).vps j).alloc = (s.vps j).alloc := by
  by_cases hj : j = i
  · rw [hj, setPc_vps]
  · rw [setPc_vps_of_ne hj]

theorem SameHeap.write (s : State n) (i : Fin n) (m' : Mem) (pc : Pc) : SameHeap s (s.write i m' pc) :=
  ⟨rfl, rfl, rfl, fun j => setPc_alloc _ i j pc⟩

/-- What a step may store: it leaves the headers of to-space and the fields of from-space alone, installs forwarding
    pointers, redirects fields and roots, and does not touch the room of the others. -/
structure Writes (G : Graph n) (s : State n) (i : Fin n) (m' : Mem) (pc : Pc) : Prop where
  held : ∀ q, Held G s q → loadWord m' (q - 8) = loadWord s.mem (q - 8)
  objs : ∀ p ∈ G.objs, ∀ k < G.len p, loadWord m' (p + 8 * k) = loadWord s.mem (p + 8 * k)
  hdr : ∀ p ∈ G.objs, loadWord m' (p - 8) = loadWord s.mem (p - 8) ∨
    forwarded s.mem p = none ∧ ∃ q, forwarded m' p = some q ∧ s.inFromSpace q = false ∧ pc.Writing p q ∧
      ∀ p' ∈ G.objs, forwarded s.mem p' ≠ some q
  field : ∀ q p c top, Place G s q p c top → ∀ k < G.len p,
    loadWord m' (q + 8 * k) = loadWord s.mem (q + 8 * k) ∨
      Redirected G m' (isPtrField G.table (G.hdr p) k) (G.field p k) (loadWord m' (q + 8 * k))
  root : ∀ r ∈ G.roots, loadWord m' r = loadWord s.mem r ∨
    Redirected G m' true (loadWord G.start.mem r) (loadWord m' r)
  others : ∀ j, j ≠ i → ∀ x, Within s (s.vps j).alloc.globAllocChunk x → (s.vps j).alloc.globNextW ≤ x + 8 →
    loadWord m' x = loadWord s.mem x
  writing : ∀ p q, (s.vps i).pc.Writing p q → pc.Writing p q

theorem Writes.forwarded (w : Writes G s i m' pc) : ∀ p ∈ G.objs, ∀ q, forwarded s.mem p = some q →
    forwarded m' p = some q := by
  intro p hp q hq
  rcases w.hdr p hp with heq | ⟨hnone, -⟩
  · rw [forwarded_congr heq, hq]
  · rw [hnone] at hq
    cases hq

theorem Writes.objects (w : Writes G s i m' pc) {top : Nat} {hs : List Nat} (hc : c < s.nChunks)
    (hsts : (s.chunks c).sts = .toSp) (htop : UsedTop s c top)
    (hobj : Objects G.table s.mem (s.chunks c).baseAddr hs top) :
    Objects G.table m' (s.chunks c).baseAddr hs top := by
  refine hobj.congr fun x hx => ?_
  have h := w.held (x + 8) ⟨c, top, hs, hc, hsts, htop, hobj, by unfold wordSzB; omega, hx⟩
  exact h

theorem Writes.held_iff (h : Inv G s) (w : Writes G s i m' pc) : Held G (s.write i m' pc) q ↔ Held G s q := by
  have hsame := SameHeap.write s i m' pc
  constructor
  · rintro ⟨c, top, hs, hc, hsts, htop, hobj, h8, hmem⟩
    rw [hsame.usedTop] at htop
    obtain ⟨-, hs', hobj'⟩ := h.objects c hc hsts top htop
    obtain rfl := hobj.unique (w.objects hc hsts htop hobj')
    exact ⟨c, top, hs, hc, hsts, htop, hobj', h8, hmem⟩
  · rintro ⟨c, top, hs, hc, hsts, htop, hobj, h8, hmem⟩
    exact ⟨c, top, hs, hc, hsts, hsame.usedTop.mpr htop, w.objects hc hsts htop hobj, h8, hmem⟩

theorem Writes.keeps (h : Inv G s) (w : Writes G s i m' pc) (hj : j ≠ i) :
    Keeps G s (s.write i m' pc) (s.vps j).alloc where
  held _ hq := (w.held_iff h).mpr hq
  forwarded := w.forwarded
  base := rfl
  left _ _ hl := (SameHeap.write s i m' pc).left hl
  room := w.others j hj

theorem Writes.callOk (hG : G.Ok) (h : Inv G s) (w : Writes G s i m' pc) {c : Call} (hc : CallOk G s c) :
    CallOk G (s.write i m' pc) c :=
  ⟨hc.slot.mono hG (fun _ hq => (w.held_iff h).mpr hq) w.forwarded, hc.fromSp, hc.live⟩

theorem Untouched.write {entry alloc : Alloc} (h : Untouched s entry alloc) (i : Fin n) (m' : Mem) (pc : Pc) :
    Untouched (s.write i m' pc) entry alloc := by
  rcases h with rfl | ⟨hleft, hrest⟩
  · exact .inl rfl
  · exact .inr ⟨(SameHeap.write s i m' pc).left hleft, hrest⟩

theorem Room.write {alloc : Alloc} (h : Room G s alloc p q) (i : Fin n) (m' : Mem) (pc : Pc) :
    Room G (s.write i m' pc) alloc p q :=
  ⟨h.next, h.lt, h.le⟩

theorem FieldOk.mono (hfwd : ∀ p ∈ G.objs, ∀ q, forwarded m p = some q → forwarded m' p = some q)
    {ptr : Bool} {v w : Word} (hv : ptr = true → G.start.isFromSpacePtr v = true → v.toNat ∈ G.objs)
    (h : FieldOk G m ptr v w) : FieldOk G m' ptr v w := by
  rcases h with rfl | ⟨hptr, hfrom, hw⟩
  · exact .inl rfl
  · exact .inr ⟨hptr, hfrom, hfwd _ (hv hptr hfrom) _ hw⟩

theorem Inv.write (hG : G.Ok) (h : Inv G s) (w : Writes G s i m' pc)
    (hpc : PcOk G (s.write i m' pc) { s.vps i with pc }) : Inv G (s.write i m' pc) where
  chunks := (SameHeap.write s i m' pc).chunksOk h.chunks
  fromSp a := ((SameHeap.write s i m' pc).inFromSpace a).trans (h.fromSp a)
  obj := h.obj
  objects c hc hsts top htop := by
    rw [(SameHeap.write s i m' pc).usedTop] at htop
    obtain ⟨hle, hs, hobj⟩ := h.objects c hc hsts top htop
    exact ⟨hle, hs, w.objects hc hsts htop hobj⟩
  copies q hq := by
    have hq := (w.held_iff h).mp hq
    obtain ⟨p, c, top, hpl⟩ := h.held hG hq
    have hp := hpl.live.mem hG
    refine ⟨p, hpl.live, w.forwarded p hp q hpl.forwarded, ⟨(w.held q hq).trans hpl.copy.hdr, fun k hk => ?_⟩⟩
    rcases w.field q p c top hpl k hk with heq | hok
    · show FieldOk G m' _ _ (loadWord m' (q + 8 * k))
      rw [heq]
      exact (hpl.copy.field k hk).mono w.forwarded fun hptr hfrom => hG.fields p hp k hk hptr hfrom
    · exact .inr hok
  hdr p hp hnone := by
    rcases w.hdr p hp with heq | ⟨-, q, hq, -⟩
    · have hnone' : forwarded s.mem p = none := by
        rw [← forwarded_congr heq]
        exact hnone
      exact heq.trans (h.hdr p hp hnone')
    · rw [show forwarded (s.write i m' pc).mem p = some q from hq] at hnone
      cases hnone
  placed p hp q hq := by
    rcases w.hdr p hp with heq | ⟨-, q', hq', hfrom, hwriting, -⟩
    · have hq : forwarded s.mem p = some q := by
        rw [← forwarded_congr heq]
        exact hq
      obtain ⟨hfrom, hheld | ⟨k, hk⟩⟩ := h.placed p hp q hq
      · exact ⟨hfrom, .inl ((w.held_iff h).mpr hheld)⟩
      · refine ⟨hfrom, .inr ⟨k, ?_⟩⟩
        by_cases hki : k = i
        · subst hki
          rw [State.write, setPc_vps]
          exact w.writing p q hk
        · rw [State.write, setPc_vps_of_ne hki]
          exact hk
    · obtain rfl : q' = q := Option.some.inj (hq'.symm.trans hq)
      refine ⟨hfrom, .inr ⟨i, ?_⟩⟩
      rw [State.write, setPc_vps]
      exact hwriting
  inj p hp p' hp' q hq hq' := by
    rcases w.hdr p hp with heq | ⟨hnone, r, hr, -, hwriting, hnew⟩
    · rcases w.hdr p' hp' with heq' | ⟨-, r, hr, -, -, hnew⟩
      · exact h.inj p hp p' hp' q ((forwarded_congr heq).symm.trans hq) ((forwarded_congr heq').symm.trans hq')
      · obtain rfl : r = q := Option.some.inj (hr.symm.trans hq')
        exact absurd ((forwarded_congr heq).symm.trans hq) (hnew p hp)
    · obtain rfl : r = q := Option.some.inj (hr.symm.trans hq)
      rcases w.hdr p' hp' with heq' | ⟨-, r', hr', -, hwriting', -⟩
      · exact absurd ((forwarded_congr heq').symm.trans hq') (hnew p' hp')
      · obtain rfl : r' = r := Option.some.inj (hr'.symm.trans hq')
        exact hwriting.unique hwriting'
  fields p hp k hk := (w.objs p hp k hk).trans (h.fields p hp k hk)
  roots r hr := by
    rcases w.root r hr with heq | hok
    · show FieldOk G m' true _ (loadWord m' r)
      rw [heq]
      exact (h.roots r hr).mono w.forwarded fun _ hfrom => hG.roots r hr hfrom
    · exact .inr hok
  pcs j := by
    by_cases hj : j = i
    · subst hj
      rw [State.write, setPc_vps]
      exact hpc
    · rw [State.write, setPc_vps_of_ne hj]
      exact (h.pcs j).keeps hG (h.chunks.alloc j) (w.keeps h hj)

/-- Nothing is stored. -/
theorem Writes.stay (hw : ∀ p q, (s.vps i).pc.Writing p q → pc.Writing p q) : Writes G s i s.mem pc where
  held _ _ := rfl
  objs _ _ _ _ := rfl
  hdr _ _ := .inl rfl
  field _ _ _ _ _ _ _ := .inl rfl
  root _ _ := .inl rfl
  others _ _ _ _ _ := rfl
  writing := hw

/-! ## One lemma for each step -/

theorem Inv.forwarded_toNat (h : Inv G s) (hp : p ∈ G.objs) (hq : forwarded s.mem p = some q) (v : Word)
    (hv : v.toNat = q) : s.isFromSpacePtr v = false := by
  unfold State.isFromSpacePtr
  rw [hv, (h.placed p hp q hq).1, Bool.and_false]

theorem Inv.isFromSpacePtr (h : Inv G s) (v : Word) : s.isFromSpacePtr v = G.start.isFromSpacePtr v := by
  unfold State.isFromSpacePtr
  rw [h.fromSp]

/-- A word that holds a pointer into from-space has not been redirected. -/
theorem Inv.not_redirected (h : Inv G s) {ptr : Bool} {v w : Word}
    (hv : ptr = true → G.start.isFromSpacePtr v = true → v.toNat ∈ G.objs) (hok : FieldOk G s.mem ptr v w)
    (hw : s.isFromSpacePtr w = true) : w = v := by
  rcases hok with rfl | ⟨hptr, hfrom, hfwd⟩
  · rfl
  · have hnot := h.forwarded_toNat (hv hptr hfrom) hfwd w rfl
    rw [hw] at hnot
    cases hnot

theorem Inv.slotOf (hG : G.Ok) (h : Inv G s) {a : Nat} (ha : IsSlot G s a)
    (hfrom : s.isFromSpacePtr (loadWord s.mem a) = true) :
    SlotOf G s a (loadWord s.mem a) ∧ Live G (loadWord s.mem a).toNat := by
  have hstart : G.start.isFromSpacePtr (loadWord s.mem a) = true := by rw [← h.isFromSpacePtr]; exact hfrom
  rcases ha with hr | ⟨q, k, len, hq, hhdr, hk, hptr, rfl⟩
  · have heq := h.not_redirected (fun _ hv => hG.roots a hr hv) (h.roots a hr) hfrom
    rw [heq] at hstart ⊢
    exact ⟨.root hr, .root hr hstart⟩
  · obtain ⟨p, hp, hfwd, hcopy⟩ := h.copies q hq
    unfold wordSzB at hhdr hptr hfrom hstart ⊢
    rw [hcopy.hdr] at hhdr hptr
    obtain rfl := hhdr.unique (hG.hdr p (hp.mem hG))
    have heq := h.not_redirected (hG.fields p (hp.mem hG) k hk) (hcopy.field k hk) hfrom
    rw [heq] at hstart ⊢
    exact ⟨.field hp hq hfwd hk hptr, .field hp hk hptr hstart⟩

theorem Inv.scan (hG : G.Ok) (h : Inv G s) {a : Nat} (hpc : (s.vps i).pc = .scan) (ha : IsSlot G s a)
    (hfrom : s.isFromSpacePtr (loadWord s.mem a) = true) :
    Inv G (s.setPc i (.call ⟨a, loadWord s.mem a, (s.vps i).alloc⟩)) := by
  have w : Writes G s i s.mem (.call ⟨a, loadWord s.mem a, (s.vps i).alloc⟩) :=
    .stay fun p q hw => by rw [hpc] at hw; exact hw
  obtain ⟨hslot, hlive⟩ := h.slotOf hG ha hfrom
  refine h.write hG w ⟨w.callOk hG h ⟨hslot, ?_, hlive⟩, rfl⟩
  rw [← h.isFromSpacePtr]
  exact hfrom

theorem forwarded_hdrOf {c : Call} (h : isForwardPtr (s.hdrOf c) = true) :
    forwarded s.mem c.v.toNat = some (getForwardPtr (s.hdrOf c)).toNat := by
  unfold forwarded
  exact if_pos h

theorem Inv.forwarded (hG : G.Ok) (h : Inv G s) {c : Call} (hpc : (s.vps i).pc = .call c)
    (hf : isForwardPtr (s.hdrOf c) = true) : Inv G (s.setPc i (.ret c (getForwardPtr (s.hdrOf c)) false)) := by
  have w : Writes G s i s.mem (.ret c (getForwardPtr (s.hdrOf c)) false) :=
    .stay fun p q hw => by rw [hpc] at hw; exact hw
  have hok := h.pcs i
  unfold PcOk at hok
  rw [hpc] at hok
  exact h.write hG w ⟨w.callOk hG h hok.1, forwarded_hdrOf hf, fun _ => .inl hok.2⟩

theorem Inv.start (hG : G.Ok) (h : Inv G s) {c : Call} (hpc : (s.vps i).pc = .call c)
    (hf : isForwardPtr (s.hdrOf c) = false) : Inv G (s.setPc i (.reserve c (s.hdrOf c))) := by
  have w : Writes G s i s.mem (.reserve c (s.hdrOf c)) := .stay fun p q hw => by rw [hpc] at hw; exact hw
  have hok := h.pcs i
  unfold PcOk at hok
  rw [hpc] at hok
  have hnone : ForwardRace.forwarded s.mem c.v.toNat = none := by
    unfold ForwardRace.forwarded
    exact if_neg (by show ¬ isForwardPtr (s.hdrOf c) = true; rw [hf]; decide)
  exact h.write hG w ⟨w.callOk hG h hok.1, h.hdr _ (hok.1.live.mem hG) hnone, hok.2⟩

theorem Graph.Ok.getLength (hG : G.Ok) (hp : p ∈ G.objs) : getLength (G.hdr p) = G.len p := (hG.hdr p hp).length

theorem Inv.reserve (hG : G.Ok) (h : Inv G s) {c : Call} {oldHdr : Word} (hpc : (s.vps i).pc = .reserve c oldHdr)
    (hfull : s.full i (getLength oldHdr) = false) :
    Inv G (s.setPc i (.cas c oldHdr (s.vps i).alloc.globNextW)) := by
  have w : Writes G s i s.mem (.cas c oldHdr (s.vps i).alloc.globNextW) :=
    .stay fun p q hw => by rw [hpc] at hw; exact hw
  have hok := h.pcs i
  unfold PcOk at hok
  rw [hpc] at hok
  obtain ⟨hcall, rfl, hentry⟩ := hok
  have hlimit := (h.chunks.alloc i).limit
  unfold State.full wordSzB at hfull
  rw [hG.getLength (hcall.live.mem hG), decide_eq_false_iff_not] at hfull
  have hroom : Room G s (s.vps i).alloc c.v.toNat (s.vps i).alloc.globNextW := ⟨rfl, by omega, by omega⟩
  exact h.write hG w ⟨w.callOk hG h hcall, rfl, .inl hentry, hroom.write i _ _⟩

theorem Inv.lose (hG : G.Ok) (h : Inv G s) {c : Call} {oldHdr : Word} {nextW : Nat}
    (hpc : (s.vps i).pc = .cas c oldHdr nextW) (hne : s.hdrOf c ≠ oldHdr) :
    Inv G (s.setPc i (.ret c (getForwardPtr (s.hdrOf c)) false)) := by
  have w : Writes G s i s.mem (.ret c (getForwardPtr (s.hdrOf c)) false) :=
    .stay fun p q hw => by rw [hpc] at hw; exact hw
  have hok := h.pcs i
  unfold PcOk at hok
  rw [hpc] at hok
  obtain ⟨hcall, rfl, huntouched, -⟩ := hok
  -- the header has changed, so another vproc has won the object
  have hf : isForwardPtr (s.hdrOf c) = true := by
    by_contra hf
    exact hne (h.hdr _ (hcall.live.mem hG) (if_neg hf))
  exact h.write hG w ⟨w.callOk hG h hcall, forwarded_hdrOf hf, fun _ => huntouched.write i _ _⟩

/-- The address of the next copy is not in from-space. -/
theorem Room.not_fromSp (hc : ChunksOk G s) (h : Room G s (s.vps i).alloc p q) : s.inFromSpace q = false := by
  have halloc := hc.alloc i
  have hbase := halloc.base_le
  have hnext := h.next
  have hlt := h.lt
  unfold wordSzB at hbase
  unfold State.inFromSpace
  rw [List.any_eq_false]
  intro d hd
  rw [List.mem_range] at hd
  simp only [Bool.and_eq_true, decide_eq_true_eq, not_and, Nat.not_lt]
  rintro ⟨hsts, hle⟩
  have hdc : d ≠ (s.vps i).alloc.globAllocChunk := by
    rintro rfl
    rw [halloc.toSp] at hsts
    cases hsts
  have hap := hc.apart d hd _ halloc.lt hdc
  have hszB := (hc.size d hd).1
  omega

/-- It is that of no copy. -/
theorem Room.fresh (hG : G.Ok) (h : Inv G s) (hroom : Room G s (s.vps i).alloc p q)
    (hi : ∀ p q, ¬ (s.vps i).pc.Writing p q) : ∀ p' ∈ G.objs, ForwardRace.forwarded s.mem p' ≠ some q := by
  intro p' hp' hq
  have halloc := h.chunks.alloc i
  have h8 := hroom.eight_le halloc
  obtain ⟨hin, hnext⟩ := hroom.word halloc (.hdr h8)
  obtain ⟨-, hheld | ⟨k, hk⟩⟩ := h.placed p' hp' q hq
  · obtain ⟨p₁, c, top, hpl⟩ := h.held hG hheld
    have hap := hpl.free_apart h.chunks (.hdr h8) hin hnext
    unfold Apart at hap
    omega
  · have hki : k ≠ i := by
      rintro rfl
      exact hi _ _ hk
    obtain ⟨p₁, hroom'⟩ := (h.pcs k).room hk
    obtain ⟨hin', -⟩ := hroom'.word (h.chunks.alloc k) (.hdr h8)
    have hap := h.chunks.within_apart hin hin' fun he => hki (h.chunks.own i k he).symm
    unfold Apart at hap
    omega

/-- The compare-and-swap succeeds: the header of an object of from-space is stored to. -/
theorem Writes.win (hG : G.Ok) (h : Inv G s) {c : Call} {nextW : Nat} (hcall : CallOk G s c)
    (hroom : Room G s (s.vps i).alloc c.v.toNat nextW) (heq : s.hdrOf c = G.hdr c.v.toNat)
    (hw : ∀ p q, ¬ (s.vps i).pc.Writing p q) :
    Writes G s i (storeWord s.mem (c.v.toNat - 8) (makeForwardPtr (BitVec.ofNat 64 nextW)))
      (.header c (G.hdr c.v.toNat) nextW) := by
  have hp := hcall.live.mem hG
  have h8 := h.eight_le hp
  have hsize := (h.chunks.size _ (h.chunks.alloc i).lt).2
  have hlt := hroom.lt
  have hword : WordOf c.v.toNat (G.len c.v.toNat) (c.v.toNat - 8) := .hdr h8
  have hnone : ForwardRace.forwarded s.mem c.v.toNat = none :=
    forwarded_eq_none (by
      rw [show loadWord s.mem (c.v.toNat - 8) = G.hdr c.v.toNat from heq]
      exact hG.hdr _ hp)
  have hfwd : ForwardRace.forwarded
      (storeWord s.mem (c.v.toNat - 8) (makeForwardPtr (BitVec.ofNat 64 nextW))) c.v.toNat = some nextW :=
    forwarded_of_eq (by omega) (loadWord_storeWord _ _ _)
  refine ⟨fun q hq => ?_, fun p hp' k hk => ?_, fun p hp' => ?_, fun q p c' top hpl k hk => .inl ?_,
    fun r hr => .inl ?_, fun j hj x hx _ => ?_, fun p q hpq => absurd hpq (hw p q)⟩
  · obtain ⟨p, c', top, hpl⟩ := h.held hG hq
    have hq8 : 8 ≤ q := by have := hpl.base_le; omega
    exact loadWord_storeWord_of_disjoint _ (h.obj_apart_to hp hword hpl.toSp (hpl.within (.hdr hq8)))
  · refine loadWord_storeWord_of_disjoint _ ?_
    by_cases hpp : p = c.v.toNat
    · subst hpp
      unfold Apart
      omega
    · exact (hG.words_apart hp' hp hpp (.field hk) hword).symm
  · by_cases hpp : p = c.v.toNat
    · subst hpp
      exact .inr ⟨hnone, nextW, hfwd, hroom.not_fromSp h.chunks, ⟨rfl, rfl⟩, hroom.fresh hG h hw⟩
    · exact .inl (loadWord_storeWord_of_disjoint _
        (hG.words_apart hp' hp hpp (.hdr (h.eight_le hp')) hword).symm)
  · exact loadWord_storeWord_of_disjoint _ (h.obj_apart_to hp hword hpl.toSp (hpl.within (.field hk)))
  · obtain ⟨d, -, hin⟩ := h.obj_within hp hword
    exact loadWord_storeWord_of_disjoint _ (h.chunks.root_apart hr hin).symm
  · exact loadWord_storeWord_of_disjoint _ (h.obj_apart_to hp hword (h.chunks.alloc j).toSp hx)

theorem Inv.win (hG : G.Ok) (h : Inv G s) {c : Call} {oldHdr : Word} {nextW : Nat}
    (hpc : (s.vps i).pc = .cas c oldHdr nextW) (heq : s.hdrOf c = oldHdr) : Inv G (s.win i c oldHdr nextW) := by
  have hok := h.pcs i
  unfold PcOk at hok
  rw [hpc] at hok
  obtain ⟨hcall, rfl, -, hroom⟩ := hok
  have hsize := (h.chunks.size _ (h.chunks.alloc i).lt).2
  have hlt := hroom.lt
  have w := Writes.win hG h hcall hroom heq fun p q hw => by rw [hpc] at hw; exact hw
  have hfwd : ForwardRace.forwarded
      (storeWord s.mem (c.v.toNat - 8) (makeForwardPtr (BitVec.ofNat 64 nextW))) c.v.toNat = some nextW :=
    forwarded_of_eq (by omega) (loadWord_storeWord _ _ _)
  exact h.write hG w ⟨w.callOk hG h hcall, rfl, hfwd, hroom.write i _ _⟩

/-- A store in the room for the copy of a vproc. -/
theorem Writes.room (hG : G.Ok) (h : Inv G s) (hroom : Room G s (s.vps i).alloc p q) (hx : WordOf q (G.len p) x)
    (v : Word) (hw : ∀ p q, (s.vps i).pc.Writing p q → pc.Writing p q) : Writes G s i (storeWord s.mem x v) pc := by
  obtain ⟨hin, hnext⟩ := hroom.word (h.chunks.alloc i) hx
  have hsts := (h.chunks.alloc i).toSp
  have hfree : ∀ q' p' c' top, Place G s q' p' c' top → ∀ y, WordOf q' (G.len p') y → Apart x y :=
    fun _ _ _ _ hpl y hy => (hpl.free_apart h.chunks hy hin hnext).symm
  refine ⟨fun q' hq => ?_, fun p' hp k hk => ?_, fun p' hp => .inl ?_, fun q' p' c' top hpl k hk => .inl ?_,
    fun r hr => .inl ?_, fun j hj y hy _ => ?_, hw⟩
  · obtain ⟨p', c', top, hpl⟩ := h.held hG hq
    have hq8 : 8 ≤ q' := by have := hpl.base_le; omega
    exact loadWord_storeWord_of_disjoint _ (hfree q' p' c' top hpl _ (.hdr hq8))
  · exact loadWord_storeWord_of_disjoint _ (h.obj_apart_to hp (.field hk) hsts hin).symm
  · exact loadWord_storeWord_of_disjoint _ (h.obj_apart_to hp (.hdr (h.eight_le hp)) hsts hin).symm
  · exact loadWord_storeWord_of_disjoint _ (hfree q' p' c' top hpl _ (.field hk))
  · exact loadWord_storeWord_of_disjoint _ (h.chunks.root_apart hr hin).symm
  · exact loadWord_storeWord_of_disjoint _
      (h.chunks.within_apart hin hy fun he => hj (h.chunks.own i j he).symm)

theorem Inv.header (hG : G.Ok) (h : Inv G s) {c : Call} {hdr : Word} {newObj : Nat}
    (hpc : (s.vps i).pc = .header c hdr newObj) :
    Inv G ((s.store (newObj - wordSzB) hdr).setPc i (.copy c hdr newObj 0)) := by
  have hok := h.pcs i
  unfold PcOk at hok
  rw [hpc] at hok
  obtain ⟨hcall, rfl, hfwd, hroom⟩ := hok
  have w : Writes G s i (storeWord s.mem (newObj - 8) (G.hdr c.v.toNat)) (.copy c (G.hdr c.v.toNat) newObj 0) :=
    .room hG h hroom (.hdr (hroom.eight_le (h.chunks.alloc i))) _ fun p q hw => by rw [hpc] at hw; exact hw
  exact h.write hG w ⟨w.callOk hG h hcall, rfl, w.forwarded _ (hcall.live.mem hG) _ hfwd, hroom.write i _ _,
    loadWord_storeWord _ _ _, Nat.zero_le _, fun f hf => absurd hf (Nat.not_lt_zero f)⟩

theorem Inv.copy (hG : G.Ok) (h : Inv G s) {c : Call} {hdr : Word} {newObj k : Nat}
    (hpc : (s.vps i).pc = .copy c hdr newObj k) (hk : k < getLength hdr) : Inv G (s.copyField i c hdr newObj k) := by
  have hok := h.pcs i
  unfold PcOk at hok
  rw [hpc] at hok
  obtain ⟨hcall, rfl, hfwd, hroom, hcopied, hle, hfields⟩ := hok
  have hp := hcall.live.mem hG
  rw [hG.getLength hp] at hk
  have hk : k < G.len c.v.toNat := by omega
  have h8 := hroom.eight_le (h.chunks.alloc i)
  have w : Writes G s i (storeWord s.mem (newObj + 8 * k) (loadWord s.mem (c.v.toNat + 8 * k)))
      (.copy c (G.hdr c.v.toNat) newObj (k + 1)) :=
    .room hG h hroom (.field hk) _ fun p q hw => by rw [hpc] at hw; exact hw
  refine h.write hG w ⟨w.callOk hG h hcall, rfl, w.forwarded _ hp _ hfwd, hroom.write i _ _, ?_, hk, fun f hf => ?_⟩
  · refine (loadWord_storeWord_of_disjoint _ ?_).trans hcopied
    unfold Apart wordSzB
    omega
  · by_cases hfk : f = k
    · subst hfk
      exact (loadWord_storeWord _ _ _).trans (h.fields _ hp f hk)
    · refine (loadWord_storeWord_of_disjoint _ ?_).trans (hfields f (by omega))
      unfold Apart wordSzB
      omega

/-- A store to a word that is scanned, of the address of the copy. -/
theorem Writes.slot (hG : G.Ok) (h : Inv G s) {a : Nat} {v w : Word} (hslot : SlotOf G s a v)
    (hfrom : G.start.isFromSpacePtr v = true) (hfwd : ForwardRace.forwarded s.mem v.toNat = some w.toNat)
    (hw : ∀ p q, (s.vps i).pc.Writing p q → pc.Writing p q) : Writes G s i (storeWord s.mem a w) pc := by
  -- the word is apart from the headers of from-space, so the pointers stay what they are
  have hok : ∀ {ptr : Bool}, ptr = true → (∀ p ∈ G.objs, Apart a (p - 8)) → v.toNat ∈ G.objs →
      Redirected G (storeWord s.mem a w) ptr v (loadWord (storeWord s.mem a w) a) := fun hptr hap hv =>
    ⟨hptr, hfrom, by
      rw [loadWord_storeWord, forwarded_congr (loadWord_storeWord_of_disjoint _ (hap _ hv))]
      exact hfwd⟩
  cases hslot with
  | root ha =>
    have hobj : ∀ p ∈ G.objs, ∀ x, WordOf p (G.len p) x → Apart a x := fun p hp x hx => by
      obtain ⟨d, -, hin⟩ := h.obj_within hp hx
      exact h.chunks.root_apart ha hin
    refine ⟨fun q hq => ?_, fun p hp k hk => ?_, fun p hp => .inl ?_, fun q p c top hpl k hk => .inl ?_,
      fun r hr => ?_, fun j hj x hx _ => ?_, hw⟩
    · obtain ⟨p, c, top, hpl⟩ := h.held hG hq
      have hq8 : 8 ≤ q := by have := hpl.base_le; omega
      exact loadWord_storeWord_of_disjoint _ (h.chunks.root_apart ha (hpl.within (.hdr hq8)))
    · exact loadWord_storeWord_of_disjoint _ (hobj p hp _ (.field hk))
    · exact loadWord_storeWord_of_disjoint _ (hobj p hp _ (.hdr (h.eight_le hp)))
    · exact loadWord_storeWord_of_disjoint _ (h.chunks.root_apart ha (hpl.within (.field hk)))
    · by_cases hra : r = a
      · subst hra
        exact .inr (hok rfl (fun p hp => hobj p hp _ (.hdr (h.eight_le hp))) (hG.roots r hr hfrom))
      · exact .inl (loadWord_storeWord_of_disjoint _ (hG.rootsApart a ha r hr fun he => hra he.symm))
    · exact loadWord_storeWord_of_disjoint _ (h.chunks.root_apart ha hx)
  | @field p q k hp hq hpq hk hptr =>
    obtain ⟨p₁, c, top, hpl⟩ := h.held hG hq
    obtain rfl := h.inj p (hp.mem hG) p₁ (hpl.live.mem hG) q hpq hpl.forwarded
    have hword : WordOf q (G.len p) (q + 8 * k) := .field hk
    have hin := hpl.within hword
    have hq8 : 8 ≤ q := by have := hpl.base_le; omega
    have hobj : ∀ p ∈ G.objs, ∀ x, WordOf p (G.len p) x → Apart (q + 8 * k) x :=
      fun p hp x hx => (h.obj_apart_to hp hx hpl.toSp hin).symm
    refine ⟨fun q' hq' => ?_, fun p' hp' k' hk' => ?_, fun p' hp' => .inl ?_, fun q' p' c' top' hpl' k' hk' => ?_,
      fun r hr => .inl ?_, fun j hj x hx hnext => ?_, hw⟩
    · obtain ⟨p', c', top', hpl'⟩ := h.held hG hq'
      have hq8' : 8 ≤ q' := by have := hpl'.base_le; omega
      refine loadWord_storeWord_of_disjoint _ ?_
      by_cases hqq : q = q'
      · subst hqq
        unfold Apart
        omega
      · exact hpl.apart hG h.chunks hpl' hqq hword (.hdr hq8')
    · exact loadWord_storeWord_of_disjoint _ (hobj p' hp' _ (.field hk'))
    · exact loadWord_storeWord_of_disjoint _ (hobj p' hp' _ (.hdr (h.eight_le hp')))
    · by_cases hqq : q = q'
      · subst hqq
        obtain rfl := h.inj p (hp.mem hG) p' (hpl'.live.mem hG) q hpq hpl'.forwarded
        by_cases hkk : k' = k
        · subst hkk
          exact .inr (hok hptr (fun p hp => hobj p hp _ (.hdr (h.eight_le hp)))
            (hG.fields p (hp.mem hG) k' hk' hptr hfrom))
        · refine .inl (loadWord_storeWord_of_disjoint _ ?_)
          unfold Apart
          omega
      · exact .inl (loadWord_storeWord_of_disjoint _ (hpl.apart hG h.chunks hpl' hqq hword (.field hk')))
    · exact loadWord_storeWord_of_disjoint _ (h.chunks.root_apart hr hin).symm
    · exact loadWord_storeWord_of_disjoint _ (hpl.free_apart h.chunks hword hx hnext)

theorem Inv.ret (hG : G.Ok) (h : Inv G s) {c : Call} {v : Word} {copied : Bool}
    (hpc : (s.vps i).pc = .ret c v copied) : Inv G ((s.store c.slot v).setPc i .scan) := by
  have hok := h.pcs i
  unfold PcOk at hok
  rw [hpc] at hok
  obtain ⟨hcall, hfwd, -⟩ := hok
  have w : Writes G s i (storeWord s.mem c.slot v) .scan :=
    .slot hG h hcall.slot hcall.fromSp hfwd fun p q hw => by rw [hpc] at hw; exact hw
  exact h.write hG w trivial

/-! ## The end of a copy -/

theorem bump_vps (c : Call) (hdr : Word) (newObj : Nat) : (s.bump i c hdr newObj).vps i =
    { s.vps i with
      alloc := { (s.vps i).alloc with globNextW := (newObj + wordSzB * (getLength hdr + 1)).toNat }
      pc := .ret c (BitVec.ofNat 64 newObj) true } := by
  unfold State.bump
  rw [setPc_vps]
  unfold State.setAlloc
  dsimp only
  rw [Function.update_self]

theorem bump_vps_of_ne (c : Call) (hdr : Word) (newObj : Nat) (hj : j ≠ i) :
    (s.bump i c hdr newObj).vps j = s.vps j := by
  unfold State.bump
  rw [setPc_vps_of_ne hj]
  exact Function.update_of_ne hj _ _

theorem bump_chunk (c : Call) (hdr : Word) (newObj : Nat) (j : Fin n) :
    ((s.bump i c hdr newObj).vps j).alloc.globAllocChunk = (s.vps j).alloc.globAllocChunk := by
  by_cases hj : j = i
  · rw [hj, bump_vps]
  · rw [bump_vps_of_ne _ _ _ hj]

/-- The objects of the other chunks end where they did. -/
theorem bump_usedTop {c : Call} {hdr : Word} {newObj d top : Nat} (hd : d ≠ (s.vps i).alloc.globAllocChunk) :
    UsedTop (s.bump i c hdr newObj) d top ↔ UsedTop s d top := by
  unfold UsedTop
  simp only [bump_chunk]
  have hvps : ∀ k, (s.vps k).alloc.globAllocChunk = d → (s.bump i c hdr newObj).vps k = s.vps k := fun k hk =>
    bump_vps_of_ne _ _ _ (by rintro rfl; exact hd hk.symm)
  constructor
  · rintro (⟨k, hk, rfl⟩ | hn)
    · exact .inl ⟨k, hk, by rw [hvps k hk]⟩
    · exact .inr hn
  · rintro (⟨k, hk, rfl⟩ | hn)
    · exact .inl ⟨k, hk, by rw [hvps k hk]⟩
    · exact .inr hn

/-- The vproc `i` has copied the object of the call to `newObj`. -/
structure Copied (G : Graph n) (s : State n) (i : Fin n) (c : Call) (newObj : Nat) : Prop where
  call : CallOk G s c
  forwarded : forwarded s.mem c.v.toNat = some newObj
  room : Room G s (s.vps i).alloc c.v.toNat newObj
  hdr : loadWord s.mem (newObj - 8) = G.hdr c.v.toNat
  field : ∀ k < G.len c.v.toNat, loadWord s.mem (newObj + 8 * k) = G.field c.v.toNat k

variable {e : Call} {newObj : Nat}

theorem Copied.next (hG : G.Ok) (h : Copied G s i e newObj) :
    ((s.bump i e (G.hdr e.v.toNat) newObj).vps i).alloc.globNextW = newObj + 8 * (G.len e.v.toNat + 1) := by
  rw [bump_vps]
  dsimp only
  rw [hG.getLength (h.call.live.mem hG)]
  unfold wordSzB
  omega

theorem Copied.chunksOk (hG : G.Ok) (hc : ChunksOk G s) (h : Copied G s i e newObj) :
    ChunksOk G (s.bump i e (G.hdr e.v.toNat) newObj) := by
  refine ⟨hc.size, hc.apart, hc.roots, hc.free, hc.nodup, hc.nodes, fun j => ?_,
    fun j l hjl => hc.own j l ((bump_chunk _ _ _ j).symm.trans (hjl.trans (bump_chunk _ _ _ l)))⟩
  · obtain ⟨hlt, hsts, hlimit, hbase, hle⟩ := hc.alloc j
    by_cases hj : j = i
    · subst hj
      have hnext := h.room.next
      have htop := h.room.le
      have hnext' := h.next hG
      rw [bump_vps] at hnext' ⊢
      dsimp only at hnext' ⊢
      refine ⟨hlt, hsts, hlimit, ?_, ?_⟩
      · rw [hnext']
        show (s.chunks (s.vps j).alloc.globAllocChunk).baseAddr + wordSzB ≤ newObj + 8 * (G.len e.v.toNat + 1)
        omega
      · rw [hnext']
        show newObj + 8 * (G.len e.v.toNat + 1) ≤ (s.vps j).alloc.globLimit + 8
        omega
    · rw [bump_vps_of_ne _ _ _ hj]
      exact ⟨hlt, hsts, hlimit, hbase, hle⟩

/-- The objects of the allocation chunk end behind the new one. -/
theorem Copied.usedTop (hG : G.Ok) (hc : ChunksOk G s) (h : Copied G s i e newObj) {top : Nat} :
    UsedTop (s.bump i e (G.hdr e.v.toNat) newObj) (s.vps i).alloc.globAllocChunk top ↔
      top = newObj + 8 * G.len e.v.toNat := by
  have hown : UsedTop (s.bump i e (G.hdr e.v.toNat) newObj) (s.vps i).alloc.globAllocChunk
      (newObj + 8 * G.len e.v.toNat) :=
    .inl ⟨i, bump_chunk _ _ _ i, by rw [h.next hG]; unfold wordSzB; omega⟩
  exact ⟨fun ht => ht.unique (h.chunksOk hG hc) hown, fun ht => ht ▸ hown⟩

theorem Copied.objects (hG : G.Ok) (hc : ChunksOk G s) (h : Copied G s i e newObj) {hs : List Nat}
    (hobjs : Objects G.table s.mem (s.chunks (s.vps i).alloc.globAllocChunk).baseAddr hs
      ((s.vps i).alloc.globNextW - wordSzB)) :
    Objects G.table s.mem (s.chunks (s.vps i).alloc.globAllocChunk).baseAddr (hs ++ [newObj - 8])
      (newObj + 8 * G.len e.v.toNat) := by
  have hone : Objects G.table s.mem (newObj - 8) [newObj - 8] (newObj - 8 + 8 * (G.len e.v.toNat + 1)) :=
    .one (by rw [h.hdr]; exact hG.hdr _ (h.call.live.mem hG))
  have h8 := h.room.eight_le (hc.alloc i)
  rw [show newObj - 8 + 8 * (G.len e.v.toNat + 1) = newObj + 8 * G.len e.v.toNat by omega] at hone
  rw [← h.room.next] at hobjs
  exact hobjs.append hone

/-- There is one more object in to-space. -/
theorem Copied.held_iff (hG : G.Ok) (h : Inv G s) (hcop : Copied G s i e newObj) :
    Held G (s.bump i e (G.hdr e.v.toNat) newObj) q ↔ Held G s q ∨ q = newObj := by
  have halloc := h.chunks.alloc i
  have h8 := hcop.room.eight_le halloc
  obtain ⟨-, hs, hobjs⟩ := h.objects _ halloc.lt halloc.toSp _ (.inl ⟨i, rfl, rfl⟩)
  have hobjs' := hcop.objects hG h.chunks hobjs
  constructor
  · rintro ⟨d, top, gs, hd, hsts, ht, hobj, hq8, hmem⟩
    by_cases hdc : d = (s.vps i).alloc.globAllocChunk
    · subst hdc
      rw [(hcop.usedTop hG h.chunks).mp ht] at hobj
      obtain rfl := hobj.unique hobjs'
      rcases List.mem_append.mp hmem with hmem | hmem
      · exact .inl ⟨_, _, hs, hd, hsts, .inl ⟨i, rfl, rfl⟩, hobjs, hq8, hmem⟩
      grind [wordSzB]
    · exact .inl ⟨d, top, gs, hd, hsts, (bump_usedTop hdc).mp ht, hobj, hq8, hmem⟩
  · rintro (⟨d, top, gs, hd, hsts, ht, hobj, hq8, hmem⟩ | rfl)
    · by_cases hdc : d = (s.vps i).alloc.globAllocChunk
      · subst hdc
        obtain rfl := ht.unique h.chunks (.inl ⟨i, rfl, rfl⟩)
        obtain rfl := hobj.unique hobjs
        exact ⟨_, _, _, hd, hsts, (hcop.usedTop hG h.chunks).mpr rfl, hobjs', hq8, List.mem_append_left _ hmem⟩
      · exact ⟨d, top, gs, hd, hsts, (bump_usedTop hdc).mpr ht, hobj, hq8, hmem⟩
    · exact ⟨_, _, _, halloc.lt, halloc.toSp, (hcop.usedTop hG h.chunks).mpr rfl, hobjs', h8,
        List.mem_append_right _ List.mem_cons_self⟩

theorem Copied.bump (hG : G.Ok) (h : Inv G s) (hcop : Copied G s i e newObj)
    (hwriting : ∀ p q, (s.vps i).pc.Writing p q → q = newObj) : Inv G (s.bump i e (G.hdr e.v.toNat) newObj) := by
  have halloc := h.chunks.alloc i
  have hheld : ∀ q, Held G s q → Held G (s.bump i e (G.hdr e.v.toNat) newObj) q :=
    fun q hq => (hcop.held_iff hG h).mpr (.inl hq)
  have hleft : ∀ d top, Left s d top → Left (s.bump i e (G.hdr e.v.toNat) newObj) d top := fun d top hl =>
    ⟨hl.lt, hl.toSp, fun j => by rw [bump_chunk]; exact hl.left j, hl.usedTop⟩
  refine ⟨hcop.chunksOk hG h.chunks, h.fromSp, h.obj, fun d hd hsts top ht => ?_, fun q hq => ?_, h.hdr,
    fun p hp q hq => ?_, h.inj, h.fields, h.roots, fun j => ?_⟩
  · by_cases hdc : d = (s.vps i).alloc.globAllocChunk
    · subst hdc
      obtain rfl := (hcop.usedTop hG h.chunks).mp ht
      obtain ⟨-, hs, hobjs⟩ := h.objects _ halloc.lt halloc.toSp _ (.inl ⟨i, rfl, rfl⟩)
      exact ⟨hcop.room.le, _, hcop.objects hG h.chunks hobjs⟩
    · exact h.objects d hd hsts top ((bump_usedTop hdc).mp ht)
  · rcases (hcop.held_iff hG h).mp hq with hq | rfl
    · exact h.copies q hq
    · exact ⟨_, hcop.call.live, hcop.forwarded, hcop.hdr, fun k hk => .inl (hcop.field k hk)⟩
  · obtain ⟨hfrom, hq' | ⟨j, hj⟩⟩ := h.placed p hp q hq
    · exact ⟨hfrom, .inl (hheld q hq')⟩
    · refine ⟨hfrom, ?_⟩
      by_cases hji : j = i
      · subst hji
        exact .inl ((hcop.held_iff hG h).mpr (.inr (hwriting p q hj)))
      · exact .inr ⟨j, by rw [bump_vps_of_ne _ _ _ hji]; exact hj⟩
  · by_cases hj : j = i
    · subst hj
      have hsize := (h.chunks.size _ halloc.lt).2
      have hlt := hcop.room.lt
      rw [bump_vps]
      refine ⟨⟨hcop.call.slot.mono hG hheld fun _ _ _ hq => hq, hcop.call.fromSp, hcop.call.live⟩, ?_,
        fun hf => nomatch hf⟩
      rw [BitVec.toNat_ofNat, Nat.mod_eq_of_lt (by omega)]
      exact hcop.forwarded
    · rw [bump_vps_of_ne _ _ _ hj]
      exact (h.pcs j).keeps hG (h.chunks.alloc j) ⟨hheld, fun _ _ _ hq => hq, rfl, hleft, fun _ _ _ => rfl⟩

theorem Inv.bump (hG : G.Ok) (h : Inv G s) {hdr : Word} {k : Nat} (hpc : (s.vps i).pc = .copy e hdr newObj k)
    (hk : getLength hdr ≤ k) : Inv G (s.bump i e hdr newObj) := by
  have hok := h.pcs i
  unfold PcOk at hok
  rw [hpc] at hok
  obtain ⟨hcall, rfl, hfwd, hroom, hcopied, hle, hfields⟩ := hok
  have hlen := hG.getLength (hcall.live.mem hG)
  have hcop : Copied G s i e newObj := ⟨hcall, hfwd, hroom, hcopied, fun f hf => hfields f (by omega)⟩
  exact hcop.bump hG h fun p q hw => by rw [hpc] at hw; exact hw.2

end Manticore.ParallelRt.ForwardRace
