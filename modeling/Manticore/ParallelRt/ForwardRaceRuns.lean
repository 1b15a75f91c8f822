/-
  Manticore.ParallelRt.ForwardRaceRuns — what forwarding comes to, in every run.

  - `reachable_inv`: the invariant, from the start on.
  - `Collected`: the graph in to-space; `Inv.collected`: it is that of from-space when no word is left to scan.
  - `step_lt`: the words left to scan and the steps left in the calls become fewer, so every run ends.
  - `forward_race`: together.
-/

import Manticore.ParallelRt.ForwardRaceChunks

namespace Manticore.ParallelRt.ForwardRace

open ByteMemory

variable {n : Nat} {G : Graph n} {s s' : State n} {i j : Fin n} {p q : Nat}

theorem Act.step (h : Act G s i s') : Step G s s' := ⟨i, h⟩

/-! ## The start -/

theorem Graph.Ok.not_held (hG : G.Ok) : ¬ Held G G.start q := by
  rintro ⟨c, top, hs, hc, hsts, htop, hobj, h8, hmem⟩
  obtain ⟨i, rfl⟩ := hG.toSp c hc hsts
  obtain rfl := htop.unique hG.chunks (.inl ⟨i, rfl, rfl⟩)
  rw [hG.empty i, Nat.add_sub_cancel] at hobj
  obtain rfl := hobj.unique (.nil _)
  exact absurd hmem List.not_mem_nil

theorem Graph.Ok.inv (hG : G.Ok) : Inv G G.start := by
  have hnone : ∀ p ∈ G.objs, forwarded G.start.mem p = none := fun p hp => forwarded_eq_none (hG.hdr p hp)
  refine ⟨hG.chunks, fun _ => rfl, hG.obj, fun c hc hsts top htop => ?_, fun q hq => absurd hq hG.not_held,
    fun _ _ _ => rfl, fun p hp q hq => ?_, fun p hp p' _ q hq _ => ?_, fun _ _ _ _ => rfl, fun _ _ => .inl rfl,
    fun i => ?_⟩
  · obtain ⟨i, rfl⟩ := hG.toSp c hc hsts
    obtain rfl := htop.unique hG.chunks (.inl ⟨i, rfl, rfl⟩)
    rw [hG.empty i, Nat.add_sub_cancel]
    exact ⟨Nat.le_add_right _ _, [], .nil _⟩
  · rw [hnone p hp] at hq
    cases hq
  · rw [hnone p hp] at hq
    cases hq
  · unfold PcOk
    rw [hG.idle i]
    trivial

theorem reachable_inv (hG : G.Ok) (h : Reachable G s) : Inv G s := by
  induction h with
  | refl => exact hG.inv
  | tail _ hstep ih => exact Step.inv hG ih hstep

/-! ## The graph in to-space -/

/-- The value `v` with the copy in place of the object. -/
def redirect (G : Graph n) (f : Nat → Nat) (v : Word) : Word :=
  if G.start.isFromSpacePtr v then BitVec.ofNat 64 (f v.toNat) else v

/-- `f` takes every reachable object to its copy, and every reference refers to the copy. -/
structure Collected (G : Graph n) (s : State n) (f : Nat → Nat) : Prop where
  held : ∀ p, Live G p → Held G s (f p)
  inj : ∀ p p', Live G p → Live G p' → f p = f p' → p = p'
  onto : ∀ q, Held G s q → ∃ p, Live G p ∧ f p = q
  hdr : ∀ p, Live G p → loadWord s.mem (f p - wordSzB) = G.hdr p
  field : ∀ p, Live G p → ∀ k < G.len p, loadWord s.mem (f p + wordSzB * k) =
    if isPtrField G.table (G.hdr p) k then redirect G f (G.field p k) else G.field p k
  roots : ∀ r ∈ G.roots, loadWord s.mem r = redirect G f (loadWord G.start.mem r)

/-- No vproc is in a call, and no word is left to scan. -/
structure Finished (G : Graph n) (s : State n) : Prop where
  idle : ∀ i, (s.vps i).pc = .scan
  scanned : ∀ a, IsSlot G s a → s.isFromSpacePtr (loadWord s.mem a) = false

/-- A word that has been scanned is redirected. -/
theorem Inv.redirected (h : Inv G s) {ptr : Bool} {v w : Word} (hok : FieldOk G s.mem ptr v w)
    (hw : s.isFromSpacePtr w = false) (hfrom : G.start.isFromSpacePtr v = true) : Redirected G s.mem ptr v w := by
  rcases hok with rfl | hred
  · rw [h.isFromSpacePtr, hfrom] at hw
    cases hw
  · exact hred

theorem Place.slot (hG : G.Ok) {c top k : Nat} (hq : Held G s q) (hpl : Place G s q p c top) (hk : k < G.len p)
    (hptr : isPtrField G.table (G.hdr p) k = true) : IsSlot G s (q + 8 * k) := by
  refine .inr ⟨q, k, G.len p, hq, hpl.hdrOk hG, hk, ?_, rfl⟩
  rw [show loadWord s.mem (q - wordSzB) = G.hdr p from hpl.copy.hdr]
  exact hptr

/-- Every reachable object is copied: by induction on how it is reached, through words that have been scanned. -/
theorem Finished.copied (hG : G.Ok) (h : Inv G s) (hfin : Finished G s) (hp : Live G p) :
    ∃ q, forwarded s.mem p = some q ∧ Held G s q := by
  have hheld : ∀ p ∈ G.objs, ∀ q, forwarded s.mem p = some q → Held G s q := fun p hp q hq => by
    obtain ⟨-, hq | ⟨i, hw⟩⟩ := h.placed p hp q hq
    · exact hq
    · rw [hfin.idle i] at hw
      exact hw.elim
  induction hp with
  | @root a ha hfrom =>
    obtain ⟨-, -, hfwd⟩ := h.redirected (h.roots a ha) (hfin.scanned a (.inl ha)) hfrom
    exact ⟨_, hfwd, hheld _ (hG.roots a ha hfrom) _ hfwd⟩
  | @field p k hp hk hptr hfrom ih =>
    obtain ⟨q, hq, hheldq⟩ := ih
    obtain ⟨p', c, top, hpl⟩ := h.held hG hheldq
    obtain rfl := h.inj p (hp.mem hG) p' (hpl.live.mem hG) q hq hpl.forwarded
    obtain ⟨-, -, hfwd⟩ := h.redirected (hpl.copy.field k hk) (hfin.scanned _ (hpl.slot hG hheldq hk hptr)) hfrom
    exact ⟨_, hfwd, hheld _ (hG.fields p (hp.mem hG) k hk hptr hfrom) _ hfwd⟩

theorem FieldOk.redirect (h : Inv G s) {f : Nat → Nat} (hf : ∀ p q, forwarded s.mem p = some q → f p = q) {v w : Word}
    (hok : FieldOk G s.mem true v w) (hw : s.isFromSpacePtr w = false) : w = redirect G f v := by
  unfold ForwardRace.redirect
  rcases hok with rfl | ⟨-, hfrom, hfwd⟩
  · rw [h.isFromSpacePtr] at hw
    rw [hw, if_neg (by decide)]
  · rw [if_pos hfrom, hf _ _ hfwd, BitVec.ofNat_toNat, BitVec.setWidth_eq]

theorem Inv.collected (hG : G.Ok) (h : Inv G s) (hfin : Finished G s) : ∃ f, Collected G s f := by
  have hf : ∀ p q, ForwardRace.forwarded s.mem p = some q → (ForwardRace.forwarded s.mem p).getD 0 = q := fun p q hq => by rw [hq]; rfl
  have hplace : ∀ p, Live G p → ∃ c top, Held G s ((ForwardRace.forwarded s.mem p).getD 0) ∧
      Place G s ((ForwardRace.forwarded s.mem p).getD 0) p c top := fun p hp => by
    obtain ⟨q, hq, hheld⟩ := hfin.copied hG h hp
    obtain ⟨p', c, top, hpl⟩ := h.held hG hheld
    obtain rfl := h.inj p (hp.mem hG) p' (hpl.live.mem hG) q hq hpl.forwarded
    rw [hf p q hq]
    exact ⟨c, top, hheld, hpl⟩
  refine ⟨fun p => (ForwardRace.forwarded s.mem p).getD 0, fun p hp => ?_, fun p p' hp hp' heq => ?_, fun q hq => ?_, fun p hp => ?_,
    fun p hp k hk => ?_, fun r hr => (h.roots r hr).redirect h hf (hfin.scanned r (.inl hr))⟩
  · obtain ⟨_, _, hheld, -⟩ := hplace p hp
    exact hheld
  · obtain ⟨_, _, -, hpl⟩ := hplace p hp
    obtain ⟨_, _, -, hpl'⟩ := hplace p' hp'
    rw [← heq] at hpl'
    exact h.inj p (hp.mem hG) p' (hp'.mem hG) _ hpl.forwarded hpl'.forwarded
  · obtain ⟨p, c, top, hpl⟩ := h.held hG hq
    exact ⟨p, hpl.live, hf p q hpl.forwarded⟩
  · obtain ⟨_, _, -, hpl⟩ := hplace p hp
    exact hpl.copy.hdr
  · obtain ⟨c, top, hheld, hpl⟩ := hplace p hp
    have hok := hpl.copy.field k hk
    cases hptr : isPtrField G.table (G.hdr p) k with
    | true =>
      rw [if_pos rfl]
      rw [hptr] at hok
      exact hok.redirect h hf (hfin.scanned _ (hpl.slot hG hheld hk hptr))
    | false =>
      rw [if_neg (by decide)]
      rcases hok with heq | ⟨hptr', -⟩
      · exact heq
      · rw [hptr] at hptr'
        cases hptr'

/-! ## Runs come to an end -/

/-- The words that may have to be scanned: roots, and pointer fields of objects. -/
inductive Slot where
  | root (a : Nat)
  | field (p k : Nat)
  deriving DecidableEq

def Graph.slots (G : Graph n) : Finset Slot :=
  (G.roots.map Slot.root ++ G.objs.flatMap fun p =>
    ((List.range (G.len p)).filter (isPtrField G.table (G.hdr p))).map (Slot.field p)).toFinset

/-- The word at `a` has a pointer into from-space, and nobody scans it. -/
def Waits (s : State n) (a : Nat) : Prop :=
  s.isFromSpacePtr (loadWord s.mem a) = true ∧ ∀ j, (s.vps j).pc.slot ≠ some a

/-- The word is left to scan, or will be when the object is copied. -/
def Pending (G : Graph n) (s : State n) : Slot → Prop
  | .root a => Waits s a
  | .field p k => ∀ q, Held G s q → forwarded s.mem p = some q → Waits s (q + 8 * k)

/-- How many steps are left in a call, at most. -/
def Pc.left : Pc → Nat
  | .scan => 0
  | .ret _ _ _ => 1
  | .copy _ _ _ k => 2 + (heapChunkSzB - k)
  | .header _ _ _ => 3 + heapChunkSzB
  | .cas _ _ _ => 4 + heapChunkSzB
  | .reserve _ _ => 5 + heapChunkSzB
  | .call _ => 6 + heapChunkSzB

open Classical in
/-- The words left to scan, and the steps left in the calls. -/
noncomputable def work (G : Graph n) (s : State n) : Nat :=
  (7 + heapChunkSzB) * (G.slots.filter (Pending G s)).card + ∑ i, (s.vps i).pc.left

theorem Graph.mem_slots_root {a : Nat} : Slot.root a ∈ G.slots ↔ a ∈ G.roots := by
  simp [Graph.slots]

theorem Graph.mem_slots_field {k : Nat} :
    Slot.field p k ∈ G.slots ↔ p ∈ G.objs ∧ k < G.len p ∧ isPtrField G.table (G.hdr p) k = true := by
  simp [Graph.slots]

/-- What is pending after a step was pending before it. -/
theorem Pending.of_step (hG : G.Ok) (h : Inv G s) (hheld : ∀ q, Held G s q → Held G s' q)
    (hfwd : ∀ p ∈ G.objs, ∀ q, forwarded s.mem p = some q → forwarded s'.mem p = some q)
    (hwaits : ∀ a v, SlotOf G s a v → Waits s' a → Waits s a) {x : Slot} (hx : x ∈ G.slots) (hp : Pending G s' x) :
    Pending G s x := by
  cases x with
  | root a => exact hwaits a _ (.root (Graph.mem_slots_root.mp hx)) hp
  | field p k =>
    obtain ⟨hobj, hk, hptr⟩ := Graph.mem_slots_field.mp hx
    intro q hq hf
    obtain ⟨p', c, top, hpl⟩ := h.held hG hq
    obtain rfl := h.inj p hobj p' (hpl.live.mem hG) q hf hpl.forwarded
    exact hwaits _ _ (.field hpl.live hq hf hk hptr) (hp q (hheld q hq) (hfwd p hobj q hf))

theorem Waits.of_step {a : Nat} (hfrom : ∀ b, s'.inFromSpace b = s.inFromSpace b)
    (hload : s'.isFromSpacePtr (loadWord s'.mem a) = true → loadWord s'.mem a = loadWord s.mem a)
    (hclaim : s'.isFromSpacePtr (loadWord s'.mem a) = true → ∀ j, (s.vps j).pc.slot = some a →
      (s'.vps j).pc.slot = some a) (hw : Waits s' a) : Waits s a := by
  refine ⟨?_, fun j hj => hw.2 j (hclaim hw.1 j hj)⟩
  rw [← hload hw.1]
  have hptr := hw.1
  unfold State.isFromSpacePtr at hptr ⊢
  rw [← hfrom]
  exact hptr

/-- A vproc goes on in a call. -/
theorem work_lt (hpend : ∀ x ∈ G.slots, Pending G s' x → Pending G s x)
    (hvps : ∀ j, j ≠ i → (s'.vps j).pc = (s.vps j).pc) (hleft : (s'.vps i).pc.left < (s.vps i).pc.left) :
    work G s' < work G s := by
  classical
  unfold work
  have hcard : (G.slots.filter (Pending G s')).card ≤ (G.slots.filter (Pending G s)).card := by
    refine Finset.card_le_card fun x hx => ?_
    rw [Finset.mem_filter] at hx ⊢
    exact ⟨hx.1, hpend x hx.1 hx.2⟩
  have hsum : ∑ j, (s'.vps j).pc.left < ∑ j, (s.vps j).pc.left := by
    refine Finset.sum_lt_sum (fun j _ => ?_) ⟨i, Finset.mem_univ i, hleft⟩
    by_cases hj : j = i
    · rw [hj]
      exact Nat.le_of_lt hleft
    · rw [hvps j hj]
  exact Nat.add_lt_add_of_le_of_lt (Nat.mul_le_mul_left _ hcard) hsum

/-- A vproc begins a call. -/
theorem work_scan (hpend : ∀ x ∈ G.slots, Pending G s' x → Pending G s x)
    (hnew : ∃ x ∈ G.slots, Pending G s x ∧ ¬ Pending G s' x)
    (hvps : ∀ j, j ≠ i → (s'.vps j).pc = (s.vps j).pc) (hleft : (s'.vps i).pc.left ≤ 6 + heapChunkSzB) :
    work G s' < work G s := by
  classical
  unfold work
  have hcard : (G.slots.filter (Pending G s')).card < (G.slots.filter (Pending G s)).card := by
    obtain ⟨x, hx, hp, hn⟩ := hnew
    refine Finset.card_lt_card ((Finset.ssubset_iff_of_subset fun y hy => ?_).mpr ⟨x, ?_, ?_⟩)
    · rw [Finset.mem_filter] at hy ⊢
      exact ⟨hy.1, hpend y hy.1 hy.2⟩
    · exact Finset.mem_filter.mpr ⟨hx, hp⟩
    · exact fun hm => hn (Finset.mem_filter.mp hm).2
  have hsum : ∑ j, (s'.vps j).pc.left ≤ (∑ j, (s.vps j).pc.left) + (6 + heapChunkSzB) := by
    rw [← Finset.add_sum_erase _ _ (Finset.mem_univ i), ← Finset.add_sum_erase _ (fun j => (s.vps j).pc.left)
      (Finset.mem_univ i)]
    have hrest : ∑ j ∈ Finset.univ.erase i, (s'.vps j).pc.left = ∑ j ∈ Finset.univ.erase i, (s.vps j).pc.left :=
      Finset.sum_congr rfl fun j hj => by rw [hvps j (Finset.ne_of_mem_erase hj)]
    rw [hrest]
    omega
  have hmul := Nat.mul_le_mul_left (7 + heapChunkSzB) hcard
  rw [Nat.succ_eq_add_one, Nat.mul_add, Nat.mul_one] at hmul
  omega

/-- The words that wait after a store waited before it. -/
theorem Writes.waits {m' : Mem} {pc : Pc} (hG : G.Ok) (h : Inv G s) (h' : Inv G (s.write i m' pc))
    (w : Writes G s i m' pc) (hclaim : ∀ a, (s.vps i).pc.slot = some a →
      (s.write i m' pc).isFromSpacePtr (loadWord m' a) = true → pc.slot = some a) {a : Nat} {v : Word}
    (hslot : SlotOf G s a v) (hw : Waits (s.write i m' pc) a) : Waits s a := by
  -- a word that is redirected has no pointer into from-space any more
  have hnot : ∀ {ptr : Bool} {v w : Word}, v.toNat ∈ G.objs → Redirected G m' ptr v w →
      (s.write i m' pc).isFromSpacePtr w = false := fun hv hred => h'.forwarded_toNat hv hred.2.2 _ rfl
  refine Waits.of_step (SameHeap.write s i m' pc).inFromSpace (fun hfrom => ?_) (fun hfrom j hj => ?_) hw
  · cases hslot with
    | root ha =>
      rcases w.root a ha with heq | hred
      · exact heq
      · have hn := hnot (hG.roots a ha hred.2.1) hred
        rw [show loadWord m' a = loadWord (s.write i m' pc).mem a from rfl, hfrom] at hn
        cases hn
    | @field p q k hp hq hf hk hptr =>
      obtain ⟨p', c, top, hpl⟩ := h.held hG hq
      obtain rfl := h.inj p (hp.mem hG) p' (hpl.live.mem hG) q hf hpl.forwarded
      rcases w.field q p c top hpl k hk with heq | hred
      · exact heq
      · have hn := hnot (hG.fields p (hp.mem hG) k hk hptr hred.2.1) hred
        rw [show loadWord m' (q + 8 * k) = loadWord (s.write i m' pc).mem (q + 8 * k) from rfl, hfrom] at hn
        cases hn
  · by_cases hji : j = i
    · subst hji
      rw [State.write, setPc_vps]
      exact hclaim a hj hfrom
    · rw [State.write, setPc_vps_of_ne hji]
      exact hj

theorem Writes.work_lt {m' : Mem} {pc : Pc} (hG : G.Ok) (h : Inv G s) (h' : Inv G (s.write i m' pc))
    (w : Writes G s i m' pc) (hclaim : ∀ a, (s.vps i).pc.slot = some a →
      (s.write i m' pc).isFromSpacePtr (loadWord m' a) = true → pc.slot = some a)
    (hleft : pc.left < (s.vps i).pc.left) : work G (s.write i m' pc) < work G s := by
  refine ForwardRace.work_lt (i := i) (fun x hx hp => hp.of_step hG h (fun q hq => (w.held_iff h).mpr hq) w.forwarded
    (fun a v hslot hw => w.waits hG h h' hclaim hslot hw) hx) (fun j hj => ?_) ?_
  · rw [State.write, setPc_vps_of_ne hj]
  · rw [State.write, setPc_vps]
    exact hleft

/-- Steps that leave the memory alone, and every vproc at the word it is scanning. -/
theorem Pending.of_same (hG : G.Ok) (h : Inv G s) (h' : Inv G s') (hmem : s'.mem = s.mem)
    (hheld : ∀ q, Held G s q → Held G s' q) (hslot : ∀ j, (s'.vps j).pc.slot = (s.vps j).pc.slot) {x : Slot}
    (hx : x ∈ G.slots) (hp : Pending G s' x) : Pending G s x := by
  refine hp.of_step hG h hheld (fun p _ q hq => by rw [hmem]; exact hq) (fun a v _ hw => ?_) hx
  exact hw.of_step (fun b => (h'.fromSp b).trans (h.fromSp b).symm) (fun _ => by rw [hmem])
    fun _ j hj => (hslot j).trans hj

theorem Inv.stay_lt (hG : G.Ok) (h : Inv G s) {pc : Pc} (h' : Inv G (s.setPc i pc))
    (hw : ∀ p q, ¬ (s.vps i).pc.Writing p q) (hslot : pc.slot = (s.vps i).pc.slot)
    (hleft : pc.left < (s.vps i).pc.left) : work G (s.setPc i pc) < work G s := by
  have w : Writes G s i s.mem pc := .stay fun p q hpq => absurd hpq (hw p q)
  exact w.work_lt hG h h' (fun a ha _ => hslot.trans ha) hleft

/-- A word that is being scanned does not wait. -/
theorem Inv.scan_lt (hG : G.Ok) (h : Inv G s) {a : Nat} (hpc : (s.vps i).pc = .scan) (ha : IsSlot G s a)
    (hfree : ∀ j, (s.vps j).pc.slot ≠ some a) (hfrom : s.isFromSpacePtr (loadWord s.mem a) = true) :
    work G (s.setPc i (.call ⟨a, loadWord s.mem a, (s.vps i).alloc⟩)) < work G s := by
  have h' := h.scan hG hpc ha hfrom
  have w : Writes G s i s.mem (.call ⟨a, loadWord s.mem a, (s.vps i).alloc⟩) :=
    .stay fun p q hw => by rw [hpc] at hw; exact hw.elim
  have hclaimed : ¬ Waits (s.setPc i (.call ⟨a, loadWord s.mem a, (s.vps i).alloc⟩)) a := fun hwait =>
    hwait.2 i (by rw [setPc_vps]; rfl)
  refine work_scan (i := i) (fun x hx hp => hp.of_step hG h (fun q hq => (w.held_iff h).mpr hq) w.forwarded
    (fun b v hslot hw => w.waits hG h h' (fun c hc _ => by rw [hpc] at hc; cases hc) hslot hw) hx) ?_
    (fun j hj => by rw [setPc_vps_of_ne hj]) (by rw [setPc_vps]; exact Nat.le_refl _)
  have hheld : ∀ q, Held G s q → Held G (s.setPc i (.call ⟨a, loadWord s.mem a, (s.vps i).alloc⟩)) q :=
    fun q hq => (w.held_iff h).mpr hq
  obtain ⟨hslot, -⟩ := h.slotOf hG ha hfrom
  generalize loadWord s.mem a = v at hslot hclaimed hheld
  cases hslot with
  | root hr => exact ⟨.root a, Graph.mem_slots_root.mpr hr, ⟨hfrom, hfree⟩, hclaimed⟩
  | @field p q k hp hq hf hk hptr =>
    refine ⟨.field p k, Graph.mem_slots_field.mpr ⟨hp.mem hG, hk, hptr⟩, fun q' _ hf' => ?_, fun hpend =>
      hclaimed (hpend q (hheld q hq) hf)⟩
    obtain rfl : q = q' := Option.some.inj (hf.symm.trans hf')
    exact ⟨hfrom, hfree⟩

/-- What is left to do becomes less. -/
theorem step_lt (hG : G.Ok) (h : Inv G s) (hstep : Step G s s') : work G s' < work G s := by
  have h' := Step.inv hG h hstep
  obtain ⟨i, hact⟩ := hstep
  have hok := h.pcs i
  unfold PcOk at hok
  cases hact with
  | scan hpc ha hfree hfrom => exact h.scan_lt hG hpc ha hfree hfrom
  | forwarded hpc hf =>
    refine h.stay_lt hG h' ?_ ?_ ?_ <;> rw [hpc]
    · exact fun _ _ hw => hw
    · rfl
    · show 1 < 6 + heapChunkSzB
      omega
  | start hpc hf =>
    refine h.stay_lt hG h' ?_ ?_ ?_ <;> rw [hpc]
    · exact fun _ _ hw => hw
    · rfl
    · show 5 + heapChunkSzB < 6 + heapChunkSzB
      omega
  | reserve hpc hfull =>
    refine h.stay_lt hG h' ?_ ?_ ?_ <;> rw [hpc]
    · exact fun _ _ hw => hw
    · rfl
    · show 4 + heapChunkSzB < 5 + heapChunkSzB
      omega
  | lose hpc hne =>
    refine h.stay_lt hG h' ?_ ?_ ?_ <;> rw [hpc]
    · exact fun _ _ hw => hw
    · rfl
    · show 1 < 4 + heapChunkSzB
      omega
  | @switch c oldHdr mapped hpc _ hmap =>
    have hsw := (h.switched i hmap).setPc (.cas c oldHdr ((s.allocToSpaceChunk i mapped).vps i).alloc.globNextW)
    have hslot : ∀ j, (((s.allocToSpaceChunk i mapped).setPc i
        (.cas c oldHdr ((s.allocToSpaceChunk i mapped).vps i).alloc.globNextW)).vps j).pc.slot =
        (s.vps j).pc.slot := fun j => by
      by_cases hj : j = i
      · rw [hj, setPc_vps, hpc]
        rfl
      · rw [hsw.vps j hj]
    refine work_lt (i := i) (fun x hx hp => hp.of_same hG h h' hsw.mem (fun q hq => (hsw.held_iff h).mpr hq) hslot hx)
      (fun j hj => by rw [hsw.vps j hj]) ?_
    rw [setPc_vps, hpc]
    show 4 + heapChunkSzB < 5 + heapChunkSzB
    omega
  | @win c oldHdr nextW hpc heq =>
    rw [hpc] at hok
    obtain ⟨hcall, rfl, -, hroom⟩ := hok
    have w := Writes.win hG h hcall hroom heq fun p q hw => by rw [hpc] at hw; exact hw
    refine w.work_lt hG h h' (fun a ha _ => by rw [hpc] at ha; exact ha) ?_
    rw [hpc]
    show 3 + heapChunkSzB < 4 + heapChunkSzB
    omega
  | @header c hdr newObj hpc =>
    rw [hpc] at hok
    obtain ⟨hcall, rfl, hfwd, hroom⟩ := hok
    have w : Writes G s i _ (.copy c (G.hdr c.v.toNat) newObj 0) := .room hG h hroom
      (.hdr (hroom.eight_le (h.chunks.alloc i))) (G.hdr c.v.toNat) fun p q hw => by rw [hpc] at hw; exact hw
    refine w.work_lt hG h h' (fun a ha _ => by rw [hpc] at ha; exact ha) ?_
    rw [hpc]
    show 2 + heapChunkSzB < 3 + heapChunkSzB
    omega
  | @copy c hdr newObj k hpc hk =>
    rw [hpc] at hok
    obtain ⟨hcall, rfl, hfwd, hroom, -⟩ := hok
    have hp := hcall.live.mem hG
    rw [hG.getLength hp] at hk
    have w : Writes G s i _ (.copy c (G.hdr c.v.toNat) newObj (k + 1)) := .room hG h hroom
      (.field (k := k) (by omega)) (loadWord s.mem (c.v.toNat + 8 * k)) fun p q hw => by rw [hpc] at hw; exact hw
    refine w.work_lt hG h h' (fun a ha _ => by rw [hpc] at ha; exact ha) ?_
    obtain ⟨d, -, -, hbase, htop⟩ := h.obj _ hp
    rw [hpc]
    show 2 + (heapChunkSzB - (k + 1)) < 2 + (heapChunkSzB - k)
    omega
  | @bump c hdr newObj k hpc hk =>
    rw [hpc] at hok
    obtain ⟨hcall, rfl, hfwd, hroom, hcopied, hle, hfields⟩ := hok
    have hlen := hG.getLength (hcall.live.mem hG)
    have hcop : Copied G s i c newObj := ⟨hcall, hfwd, hroom, hcopied, fun f hf => hfields f (by omega)⟩
    refine work_lt (i := i) (fun x hx hp => hp.of_same hG h h' rfl (fun q hq => (hcop.held_iff hG h).mpr (.inl hq))
      (fun j => ?_) hx) (fun j hj => by rw [bump_vps_of_ne _ _ _ hj]) ?_
    · by_cases hj : j = i
      · rw [hj, bump_vps, hpc]
        rfl
      · rw [bump_vps_of_ne _ _ _ hj]
    · rw [bump_vps, hpc]
      show 1 < 2 + (heapChunkSzB - k)
      omega
  | @ret c v copied hpc =>
    rw [hpc] at hok
    obtain ⟨hcall, hfwd, -⟩ := hok
    have w : Writes G s i _ .scan := .slot hG h hcall.slot hcall.fromSp hfwd fun p q hw => by rw [hpc] at hw; exact hw
    refine w.work_lt hG h h' (fun a ha hfrom => ?_) (by rw [hpc]; exact Nat.zero_lt_one)
    -- the word of the call has been redirected
    rw [hpc] at ha
    obtain rfl := Option.some.inj ha
    rw [loadWord_storeWord] at hfrom
    have hn := h'.forwarded_toNat (hcall.live.mem hG) (w.forwarded _ (hcall.live.mem hG) _ hfwd) v rfl
    rw [show ((s.store c.slot v).setPc i Pc.scan).isFromSpacePtr v = true from hfrom] at hn
    cases hn

theorem runs_end (hG : G.Ok) (h : Inv G s) : Acc (fun t' t => Step G t t') s := by
  induction hk : work G s using Nat.strongRecOn generalizing s with
  | ind k ih =>
    refine Acc.intro s fun s' hs => ?_
    exact ih _ (hk ▸ step_lt hG h hs) (Step.inv hG h hs) rfl

/-! ## Together -/

/-- The vproc needs a chunk, and there is no memory for it. -/
def NoMemory (G : Graph n) (s : State n) (i : Fin n) : Prop :=
  (∃ c oldHdr, (s.vps i).pc = .reserve c oldHdr) ∧ s.freeChunks (s.vps i).node = [] ∧ ∀ a, ¬ Unmapped G s a

theorem finished_of_stuck (hn : 0 < n) (hstuck : ∀ s', ¬ Step G s s') :
    Finished G s ∨ ∃ i, NoMemory G s i := by
  by_cases hmem : ∃ i, NoMemory G s i
  · exact .inr hmem
  · have hstep : ∀ i s', ¬ Act G s i s' := fun i s' ha => hstuck s' ⟨i, ha⟩
    have hidle : ∀ i, (s.vps i).pc = .scan := fun i => by
      cases hpc : (s.vps i).pc with
      | scan => rfl
      | call c =>
        cases hf : isForwardPtr (s.hdrOf c) with
        | true => exact absurd (.forwarded hpc hf) (hstep i _)
        | false => exact absurd (.start hpc hf) (hstep i _)
      | reserve c oldHdr =>
        cases hf : s.full i (getLength oldHdr) with
        | false => exact absurd (.reserve hpc hf) (hstep i _)
        | true =>
          by_cases hfree : s.freeChunks (s.vps i).node = []
          · have hno : ∀ a, ¬ Unmapped G s a := fun a ha => hstep i _ (.switch a hpc hf fun _ => ha)
            exact absurd ⟨i, ⟨c, oldHdr, hpc⟩, hfree, hno⟩ hmem
          · exact absurd (.switch 0 hpc hf fun he => absurd he hfree) (hstep i _)
      | cas c oldHdr nextW =>
        by_cases heq : s.hdrOf c = oldHdr
        · exact absurd (.win hpc heq) (hstep i _)
        · exact absurd (.lose hpc heq) (hstep i _)
      | header c hdr newObj => exact absurd (.header hpc) (hstep i _)
      | copy c hdr newObj k =>
        by_cases hk : (k : Int) < getLength hdr
        · exact absurd (.copy hpc hk) (hstep i _)
        · exact absurd (.bump hpc (Int.not_lt.mp hk)) (hstep i _)
      | ret c v copied => exact absurd (.ret hpc) (hstep i _)
    refine .inl ⟨hidle, fun a ha => ?_⟩
    by_contra hfrom
    exact hstep ⟨0, hn⟩ _ (.scan (hidle _) ha (fun j => by rw [hidle j]; exact fun he => nomatch he)
      (by simpa using hfrom))

/-- What the vprocs have come to, and where it leads. -/
structure Sound (G : Graph n) (s : State n) : Prop where
  /-- Every object of to-space is the copy of one object, which is reachable and forwarded to it. -/
  copies : ∀ q, Held G s q → ∃! p, Live G p ∧ forwarded s.mem p = some q
  /-- A call that has not copied leaves the fields of its vproc as they were, or in an empty chunk. -/
  loser : ∀ i c v, (s.vps i).pc = .ret c v false → Untouched s c.entry (s.vps i).alloc
  /-- Only a call that has won stores anything, before it returns. -/
  quiet : ∀ i s', Act G s i s' → s'.mem ≠ s.mem → (∃ c oldHdr nextW, (s.vps i).pc = .cas c oldHdr nextW ∧
    s.hdrOf c = oldHdr) ∨ (∃ c hdr newObj, (s.vps i).pc = .header c hdr newObj) ∨
    (∃ c hdr newObj k, (s.vps i).pc = .copy c hdr newObj k) ∨ ∃ c v copied, (s.vps i).pc = .ret c v copied
  /-- All runs end. -/
  ends : Acc (fun t' t => Step G t t') s
  /-- They end when there is no word left to scan, or no memory. -/
  stuck : 0 < n → (∀ s', ¬ Step G s s') → Finished G s ∨ ∃ i, NoMemory G s i
  /-- Then the graph has been copied. -/
  finished : Finished G s → ∃ f, Collected G s f

/-- Whatever the graph, the number of vprocs and the order of the steps. -/
theorem forward_race (hG : G.Ok) (h : Reachable G s) : Sound G s := by
  have hinv := reachable_inv hG h
  refine ⟨fun q hq => ?_, fun i c v hpc => ?_, fun i s' hact hmem => ?_, runs_end hG hinv,
    fun hn hstuck => finished_of_stuck hn hstuck, fun hfin => hinv.collected hG hfin⟩
  · obtain ⟨p, c, top, hpl⟩ := hinv.held hG hq
    exact ⟨p, ⟨hpl.live, hpl.forwarded⟩, fun p' hp' =>
      hinv.inj p' (hp'.1.mem hG) p (hpl.live.mem hG) q hp'.2 hpl.forwarded⟩
  · have hok := hinv.pcs i
    unfold PcOk at hok
    rw [hpc] at hok
    exact hok.2.2 rfl
  · cases hact with
    | win hpc heq => exact .inl ⟨_, _, _, hpc, heq⟩
    | header hpc => exact .inr (.inl ⟨_, _, _, hpc⟩)
    | copy hpc _ => exact .inr (.inr (.inl ⟨_, _, _, _, hpc⟩))
    | ret hpc => exact .inr (.inr (.inr ⟨_, _, _, hpc⟩))
    | scan _ _ _ _ | forwarded _ _ | start _ _ | reserve _ _ | lose _ _ | bump _ _ => exact absurd rfl hmem
    | switch mapped _ _ hmap => exact absurd (hinv.switched i hmap).mem hmem

/-! ## A race -/

/-- Two roots refer to one object, which refers to itself; two vprocs. -/
def oneObject : Graph 2 where
  table _ := []
  roots := [16, 32]
  objs := [heapChunkSzB + 8]
  start :=
    { mem := storeWords (storeWord (storeWord (fun _ => 0) 16 (BitVec.ofNat 64 (heapChunkSzB + 8))) 32
        (BitVec.ofNat 64 (heapChunkSzB + 8))) heapChunkSzB [vecHdr 1, BitVec.ofNat 64 (heapChunkSzB + 8)]
      chunks := fun c => ⟨heapChunkSzB * (c + 1), heapChunkSzB, 0, if c = 0 then .fromSp else .toSp⟩
      nChunks := 3
      freeChunks := fun _ => []
      vps := fun i => ⟨0, ⟨i + 1, heapChunkSzB * (i + 2) + 8, heapChunkSzB * (i + 3)⟩, .scan⟩ }

theorem oneObject_ok : oneObject.Ok where
  chunks := by
    refine ⟨?_, ?_, ?_, fun _ _ h => (nomatch h), fun _ => List.nodup_nil, fun _ _ _ h => (nomatch h), ?_, ?_⟩
    · decide
    · decide
    · decide
    · exact Fin.forall_fin_two.mpr ⟨⟨by decide, by decide, by decide, by decide, by decide⟩,
        ⟨by decide, by decide, by decide, by decide, by decide⟩⟩
    · decide
  idle := by decide
  empty := by decide
  toSp := by decide
  hdr p hp := by
    obtain rfl := List.mem_singleton.mp hp
    have hhdr : oneObject.hdr (heapChunkSzB + 8) = vecHdr 1 := by decide +kernel
    have hlen : oneObject.len (heapChunkSzB + 8) = 1 := by decide +kernel
    rw [hhdr, hlen]
    exact .vec (by decide)
  obj := by decide +kernel
  apart := by decide
  roots := by decide +kernel
  rootsApart := by
    unfold Apart
    decide
  fields := by decide +kernel

/-- Both vprocs call for the object; the second one loses the race. -/
theorem oneObject_race : ∃ s, Reachable oneObject s ∧ ∃ c v, (s.vps 1).pc = .ret c v false := by
  have h₀ : Reachable oneObject _ := .refl
  have h₁ := h₀.tail (Act.scan (i := 0) (a := 16) rfl (.inl (by decide)) (by decide) (by decide +kernel)).step
  have h₂ := h₁.tail (Act.scan (i := 1) (a := 32) rfl (.inl (by decide)) (by decide) (by decide +kernel)).step
  have h₃ := h₂.tail (Act.start (i := 0) rfl (by decide +kernel)).step
  have h₄ := h₃.tail (Act.start (i := 1) rfl (by decide +kernel)).step
  have h₅ := h₄.tail (Act.reserve (i := 0) rfl (by decide +kernel)).step
  have h₆ := h₅.tail (Act.reserve (i := 1) rfl (by decide +kernel)).step
  have h₇ := h₆.tail (Act.win (i := 0) rfl rfl).step
  exact ⟨_, h₇.tail (Act.lose (i := 1) rfl (by decide +kernel)).step, _, _, rfl⟩

theorem forward_race_one : ∃ s : State 2, (∃ c v, (s.vps 1).pc = .ret c v false) ∧ Sound oneObject s := by
  obtain ⟨s, hreach, hpc⟩ := oneObject_race
  exact ⟨s, hpc, forward_race oneObject_ok hreach⟩

end Manticore.ParallelRt.ForwardRace
