/-
  Manticore.Codegen.HeapCheckProofs — where compiled code and runtime agree about heap-limit checks.

  A check that compares with zero leaves `heapSlopSzB` bytes for what follows and the rest of `allocBufSzB`
  for the root tuple of the next check, and the runtime looks only at whether the allocation pointer has passed
  the limit. A check is `Harmless` if its roots fit that rest and if, when it fails for lack of space, the root
  tuple takes the allocation pointer past the limit. Then `Inv` holds in every run (`reach_inv`), and in each state
  compiled code and runtime agree (`harmless_checks_agree`): the loop ends after two failing checks at the latest,
  one for a signal and one for space (`Inv.ends`).

  A check that compares with its size is not harmless: `large_check_never_collects` enters the runtime for lack of
  space, and the runtime gives it the same nursery back.
-/

import Manticore.Codegen.HeapCheck
import Manticore.Codegen.ScanTable

namespace Manticore.Codegen.HeapCheck

open Cfg (Ty)
open ParallelRt (Word)
open BitVec (ofNat toNat_ofNat)

/-! ## The comparison on machine words -/

theorem toInt_ofNat_of_lt {n : Nat} (h : n < 2 ^ 62) : (ofNat 64 n).toInt = n := by
  grind [BitVec.toInt_eq_toNat_of_lt]

/-- The signed test on words is the test on addresses. -/
theorem sle_sub_iff {limit ap x : Nat} (hl : limit < 2 ^ 62) (ha : ap < 2 ^ 62) (hx : x < 2 ^ 62) :
    (ofNat 64 limit - ofNat 64 ap).sle (ofNat 64 x) = true ↔ limit ≤ ap + x := by
  rw [BitVec.sle_iff_toInt_le, BitVec.toInt_sub, toInt_ofNat_of_lt hl, toInt_ofNat_of_lt ha, toInt_ofNat_of_lt hx,
    Int.bmod_eq_of_le (by omega) (by omega)]
  omega

/-! ## Root tuples -/

theorem eight_dvd_alignedTySzB (ty : Ty) : 8 ∣ alignedTySzB ty := by
  rcases alignedTySzB_cases ty with ⟨h, -⟩ | ⟨h, -⟩ <;> omega

theorem eight_dvd_sizeOf (tys : List Ty) : 8 ∣ sizeOf tys := by
  induction tys with
  | nil => exact ⟨0, rfl⟩
  | cons ty tys ih =>
    have hty := eight_dvd_alignedTySzB ty
    simp only [sizeOf, List.map_cons, List.sum_cons] at ih ⊢
    omega

theorem eight_dvd_rootTupleSzB (roots : List Ty) : 8 ∣ rootTupleSzB roots := by
  have h := eight_dvd_sizeOf roots
  grind [rootTupleSzB, sizeOf, wordSzB]

theorem totalSize_of_alloc {V : Type} {t t' : HeaderTable} {args : List (Ty × V)} {obj : Obj V}
    (h : alloc t args = .ok (obj, t')) : obj.totalSize = sizeOf (args.map Prod.fst) := by
  have hs : (initObjs args).totalSize = sizeOf (args.map Prod.fst) := by rw [initObjs_eq]
  unfold alloc at h
  cases hc : classify false false args with
  | error e => rw [hc] at h; cases h
  | ok b =>
    rw [hc] at h
    obtain ⟨_ | _, _ | _⟩ := b
    · cases h; exact hs
    · cases h; exact hs
    · cases h; exact hs
    · simp only [allocMixedObj] at h
      split at h
      · cases h
      · cases h; exact hs

theorem heapSlopSzB_eq : heapSlopSzB = 3584 := rfl

/-- What the comparison adds to the allocation pointer. -/
def Check.margin : Check → Nat
  | .size szB => if szB ≤ heapSlopSzB then 0 else szB
  | .count n szB => szB * (4 + n.toNat)

theorem Check.tested_le (c : Check) : c.tested ≤ c.margin + heapSlopSzB := by
  cases c with
  | size szB => simp only [tested, margin]; split <;> omega
  | count n szB => simp only [tested, margin]; omega

theorem Harmless.margin_lt {c : Check} {roots : List Ty} (h : Harmless c roots) :
    c.margin < rootTupleSzB roots + wordSzB := by
  obtain ⟨-, ⟨szB, rfl, hsz⟩ | ht⟩ := h
  · simp only [Check.margin, if_pos hsz, wordSzB]; omega
  · cases c with
    | size szB => simp only [Check.margin, Check.tested] at ht ⊢; split <;> omega
    | count n szB => exact ht

/-- The product of a size and a count is taken modulo the word. -/
theorem count_product (n : BitVec 32) (szB : Nat) :
    ofNat 64 szB * (4 + n.setWidth 64) = ofNat 64 (szB * (4 + n.toNat)) := by
  have hn : (4 + n.setWidth 64 : Word) = ofNat 64 (4 + n.toNat) := by
    apply BitVec.eq_of_toNat_eq
    have hn := n.isLt
    have h4 : (4 : Word).toNat = 4 := rfl
    simp only [BitVec.toNat_add, BitVec.toNat_setWidth, toNat_ofNat, h4]
    omega
  rw [hn]
  apply BitVec.eq_of_toNat_eq
  simp only [BitVec.toNat_mul, toNat_ofNat]
  rw [← Nat.mul_mod]

/-- The branch to the collector is taken if the limit is within the margin. -/
theorem allocCheck_iff {c : Check} {vp : VProc} (hl : vp.limitPtr < 2 ^ 62) (ha : vp.allocPtr < 2 ^ 62)
    (hm : c.margin < 2 ^ 62) : allocCheck c vp = true ↔ vp.limitPtr ≤ vp.allocPtr + c.margin := by
  cases c with
  | size szB =>
    simp only [allocCheck, genAllocCheck, Check.margin] at hm ⊢
    by_cases h : szB ≤ heapSlopSzB
    · rw [if_pos h, if_pos h]
      exact sle_sub_iff hl ha (Nat.two_pow_pos 62)
    · rw [if_neg h] at hm
      rw [if_neg h, if_neg h]
      exact sle_sub_iff hl ha hm
  | count n szB =>
    simp only [allocCheck, genAllocNCheck]
    rw [count_product]
    exact sle_sub_iff hl ha hm

/-! ## The nursery after a collection -/

variable {cfg : Config} {gc : Collector} {heapBase : Nat}

variable {vp vp' : VProc} {collects : Bool} {c : Check} {roots : List Ty} {s : State}

theorem limitPtrOf_add (hcfg : cfg.OK heapBase) (hb : vp.heapBase = heapBase) :
    limitPtrOf cfg vp + allocBufSzB = top cfg vp := by
  have hs := hcfg.heapSize
  simp only [limitPtrOf, top, allocBufSzB, minNurserySzB] at hs ⊢
  omega

theorem top_lt (hcfg : cfg.OK heapBase) (hb : vp.heapBase = heapBase) : top cfg vp < 2 ^ 62 := by
  have ha := hcfg.addresses
  simp only [top, hb]
  exact ha

theorem eight_dvd_limitPtrOf (hcfg : cfg.OK heapBase) (hb : vp.heapBase = heapBase) : 8 ∣ limitPtrOf cfg vp := by
  have h1 := hcfg.alignSize
  have h2 := hcfg.alignBase
  simp only [limitPtrOf, allocBufSzB, hb, wordSzB] at h1 h2 ⊢
  omega

/-- The nursery has at least its smallest size if there is room for two. -/
theorem setAllocPtr_spec (hcfg : cfg.OK heapBase) {vp : VProc} (hb : vp.heapBase = heapBase)
    (hr : vp.oldTop + 2 * minNurserySzB ≤ top cfg vp) :
    8 ∣ (setAllocPtr cfg vp).allocPtr ∧
      (setAllocPtr cfg vp).allocPtr + minNurserySzB ≤ top cfg vp + wordSzB := by
  have hmax := hcfg.maxNursery
  have h1 := hcfg.alignMax
  have h2 := hcfg.alignSize
  have h3 := hcfg.alignBase
  have hround : roundDown ((top cfg vp - vp.oldTop) / 2) ≤ (top cfg vp - vp.oldTop) / 2 ∧
      minNurserySzB ≤ roundDown ((top cfg vp - vp.oldTop) / 2) ∧
      8 ∣ roundDown ((top cfg vp - vp.oldTop) / 2) := by
    simp only [roundDown, wordSzB, minNurserySzB] at hr ⊢
    omega
  obtain ⟨hle, hmin, hdvd⟩ := hround
  simp only [setAllocPtr]
  simp only [top, hb, wordSzB, minNurserySzB] at *
  split <;> omega

theorem minorGC_spec (hcfg : cfg.OK heapBase) (hgc : gc.OK cfg) (hb : vp.heapBase = heapBase) :
    8 ∣ (minorGC cfg gc vp).allocPtr ∧ (minorGC cfg gc vp).allocPtr + minNurserySzB ≤ top cfg vp + wordSzB := by
  have h := @setAllocPtr_spec cfg heapBase hcfg { vp with oldTop := (gc vp).1, globalGCPending := (gc vp).2 } hb (hgc vp)
  exact h

/-! ## What the runtime does -/

theorem top_congr (h : vp'.heapBase = vp.heapBase) : top cfg vp' = top cfg vp := by
  simp only [top, h]

theorem limitPtrOf_congr (h : vp'.heapBase = vp.heapBase) : limitPtrOf cfg vp' = limitPtrOf cfg vp := by
  simp only [limitPtrOf, h]

/-- Whether the runtime collects. -/
def mustCollect (cfg : Config) (vp : VProc) : Bool := limitPtrOf cfg vp ≤ vp.allocPtr || vp.globalGCPending

/-- The vproc after the runtime has restored the limit and collected if it must. -/
def afterGC (cfg : Config) (gc : Collector) (vp : VProc) : VProc :=
  if mustCollect cfg vp then minorGC cfg gc { vp with limitPtr := limitPtrOf cfg vp } else { vp with limitPtr := limitPtrOf cfg vp }

/-- The vproc after the runtime has seen to signals. -/
def afterSignal (vp : VProc) (oldLimitPtr : Nat) : VProc :=
  if oldLimitPtr = 0 then { vp with sigPending := true } else vp

/-- How the runtime goes on. -/
def deliver (collects : Bool) (vp : VProc) : Bool × Target × VProc :=
  if vp.sigPending && !vp.atomic then
    (collects, .schedCont, { vp.alloc (wordSzB * 4) with atomic := true, sigPending := false })
  else (collects, .stdCont, vp)

theorem deliver_fst (collects : Bool) (vp : VProc) : (deliver collects vp).1 = collects := by
  unfold deliver
  split <;> rfl

theorem deliver_resumes {b : Bool} {oldLimitPtr : Nat}
    (h : deliver b (afterSignal vp oldLimitPtr) = (collects, .stdCont, vp')) :
    ∃ sigPending, vp' = { vp with sigPending := sigPending } := by
  unfold deliver at h
  split at h
  · cases h
  · cases h
    unfold afterSignal
    split
    · exact ⟨true, rfl⟩
    · exact ⟨vp.sigPending, rfl⟩

theorem deliver_signals {b : Bool} {oldLimitPtr : Nat}
    (h : deliver b (afterSignal vp oldLimitPtr) = (collects, .schedCont, vp')) :
    vp' = { vp.alloc (wordSzB * 4) with atomic := true, sigPending := false } := by
  unfold deliver at h
  split at h
  · cases h
    unfold afterSignal
    split <;> rfl
  · cases h

theorem runManticore_eq (cfg : Config) (gc : Collector) (vp : VProc) :
    runManticore cfg gc vp = deliver (mustCollect cfg vp) (afterSignal (afterGC cfg gc vp) vp.limitPtr) := by
  have hl : limitPtrOf cfg { vp with limitPtr := limitPtrOf cfg vp } = limitPtrOf cfg vp := limitPtrOf_congr rfl
  have hm : (decide (limitPtrOf cfg vp ≤ vp.allocPtr) || vp.globalGCPending) = mustCollect cfg vp := rfl
  simp only [runManticore, hl, hm]
  rfl

theorem runManticore_collects (cfg : Config) (gc : Collector) (vp : VProc) :
    (runManticore cfg gc vp).1 = mustCollect cfg vp := by
  rw [runManticore_eq, deliver_fst]

theorem afterGC_eq (cfg : Config) (gc : Collector) (vp : VProc) :
    (afterGC cfg gc vp).heapBase = vp.heapBase ∧ (afterGC cfg gc vp).limitPtr = limitPtrOf cfg vp := by
  unfold afterGC
  by_cases h : mustCollect cfg vp = true
  · rw [if_pos h]
    exact ⟨rfl, rfl⟩
  · rw [if_neg h]
    exact ⟨rfl, rfl⟩

theorem runManticore_resumes (h : runManticore cfg gc vp = (collects, .stdCont, vp')) :
    ∃ sigPending, vp' = { afterGC cfg gc vp with sigPending := sigPending } :=
  deliver_resumes ((runManticore_eq cfg gc vp).symm.trans h)

theorem limitPtr_of_resumed {w : VProc} {sigPending : Bool} (hv : vp' = { w with sigPending := sigPending })
    (hb : w.heapBase = vp.heapBase) (hl : w.limitPtr = limitPtrOf cfg vp) : vp'.limitPtr = limitPtrOf cfg vp' := by
  grind [limitPtrOf_congr]

theorem runManticore_limitPtr (h : runManticore cfg gc vp = (collects, .stdCont, vp')) :
    vp'.limitPtr = limitPtrOf cfg vp' := by
  grind [afterGC_eq, runManticore_resumes, limitPtr_of_resumed]

theorem runManticore_signals (h : runManticore cfg gc vp = (collects, .schedCont, vp')) :
    vp' = { (afterGC cfg gc vp).alloc (wordSzB * 4) with atomic := true, sigPending := false } :=
  deliver_signals ((runManticore_eq cfg gc vp).symm.trans h)

/-- After the runtime the limit is the real one, and there is space below it. -/
theorem afterGC_spec (hcfg : cfg.OK heapBase) (hgc : gc.OK cfg) (hb : vp.heapBase = heapBase) (ha : 8 ∣ vp.allocPtr)
    :
    (afterGC cfg gc vp).heapBase = heapBase ∧ 8 ∣ (afterGC cfg gc vp).allocPtr ∧ (afterGC cfg gc vp).limitPtr =
      limitPtrOf cfg (afterGC cfg gc vp) ∧ (afterGC cfg gc vp).allocPtr < limitPtrOf cfg (afterGC cfg gc vp) := by
  obtain ⟨hb', hl'⟩ := afterGC_eq cfg gc vp
  rw [hl', limitPtrOf_congr hb']
  refine ⟨hb'.trans hb, ?_⟩
  unfold afterGC
  by_cases h : mustCollect cfg vp = true
  · rw [if_pos h]
    have hlim := limitPtrOf_add hcfg hb
    grind [minorGC_spec, top_congr, allocBufSzB, minNurserySzB, wordSzB]
  · rw [if_neg h]
    simp only [mustCollect, Bool.or_eq_true, decide_eq_true_eq, not_or] at h
    exact ⟨ha, rfl, Nat.lt_of_not_le h.1⟩

/-! ## The invariant -/

/-- What holds of the allocation pointer in a phase, for the real limit. -/
def PhaseOK (cfg : Config) (vp : VProc) : Phase → Prop
  | .test c roots => Harmless c roots ∧ vp.allocPtr < limitPtrOf cfg vp + heapSlopSzB
  | .code budget => vp.allocPtr + budget < limitPtrOf cfg vp + heapSlopSzB
  | .gc c roots lacks => Harmless c roots ∧ vp.allocPtr ≤ top cfg vp + wordSzB ∧
      (lacks = true → mustCollect cfg vp = true)

structure Inv (cfg : Config) (heapBase : Nat) (s : State) : Prop where
  base : s.vp.heapBase = heapBase
  aligned : 8 ∣ s.vp.allocPtr
  limit : s.vp.limitPtr = 0 ∨ s.vp.limitPtr = limitPtrOf cfg s.vp
  phase : PhaseOK cfg s.vp s.phase

/-- A harmless check lacks space if the limit is within its margin. -/
theorem lacksSpace_iff (hcfg : cfg.OK heapBase) (hc : Harmless c roots) (hb : vp.heapBase = heapBase)
    (ha : vp.allocPtr < limitPtrOf cfg vp + heapSlopSzB) :
    lacksSpace cfg c vp = true ↔ limitPtrOf cfg vp ≤ vp.allocPtr + c.margin := by
  have htop := top_lt hcfg hb
  have hlim := limitPtrOf_add hcfg hb
  have hm := hc.margin_lt
  have hroots := hc.1
  simp only [wordSzB, allocBufSzB, heapSlopSzB_eq] at hm hlim ha
  exact @allocCheck_iff c { vp with limitPtr := limitPtrOf cfg vp } (by dsimp only; omega) (by dsimp only; omega)
    (by omega)

theorem limit_le_of_lacksSpace (hcfg : cfg.OK heapBase) (hc : Harmless c roots) (hb : vp.heapBase = heapBase)
    (ha : 8 ∣ vp.allocPtr) (hlt : vp.allocPtr < limitPtrOf cfg vp + heapSlopSzB) (h : lacksSpace cfg c vp = true) :
    limitPtrOf cfg vp ≤ vp.allocPtr + rootTupleSzB roots := by
  have hle := (lacksSpace_iff hcfg hc hb hlt).mp h
  have hm := hc.margin_lt
  have h1 := eight_dvd_limitPtrOf hcfg hb
  have h2 := eight_dvd_rootTupleSzB roots
  -- the limit and what the root tuple leaves are at most a word apart, and both are aligned
  simp only [wordSzB] at hm
  omega

/-- A check that does not fail leaves the tested bytes below the slop of the next check. -/
theorem tested_of_pass (hcfg : cfg.OK heapBase) (hc : Harmless c roots) (hb : vp.heapBase = heapBase)
    (hl : vp.limitPtr = 0 ∨ vp.limitPtr = limitPtrOf cfg vp) (ha : vp.allocPtr < limitPtrOf cfg vp + heapSlopSzB)
    (h : allocCheck c vp = false) : vp.allocPtr + c.tested < limitPtrOf cfg vp + heapSlopSzB := by
  have htop := top_lt hcfg hb
  have hlim := limitPtrOf_add hcfg hb
  have hm := hc.margin_lt
  have hroots := hc.1
  have ht := c.tested_le
  grind [wordSzB, allocBufSzB, heapSlopSzB_eq, allocCheck_iff]

theorem start_inv (hcfg : cfg.OK heapBase) : Inv cfg heapBase (start cfg heapBase) := by
  have hs := hcfg.heapSize
  have hb : (start cfg heapBase).vp.heapBase = heapBase := rfl
  have hlim := limitPtrOf_add hcfg hb
  have htop : top cfg (start cfg heapBase).vp = heapBase + cfg.vpHeapSzB := by simp only [top, hb]
  obtain ⟨hdvd, hle⟩ := @setAllocPtr_spec cfg heapBase hcfg
    ⟨heapBase, heapBase, 0, 0, heapBase + cfg.vpHeapSzB - allocBufSzB, false, false, true⟩ rfl
    (by simp only [top]; omega)
  have hap : (start cfg heapBase).vp.allocPtr = (setAllocPtr cfg
      ⟨heapBase, heapBase, 0, 0, heapBase + cfg.vpHeapSzB - allocBufSzB, false, false, true⟩).allocPtr + 32 := by
    simp only [start, VProc.alloc, wordSzB]
  refine ⟨hb, by omega, Or.inr ?_, ?_⟩
  · simp only [start, VProc.alloc, setAllocPtr, limitPtrOf]
  grind [start, PhaseOK, top, allocBufSzB, minNurserySzB, wordSzB]

theorem PhaseOK.congr {p : Phase} (hb : vp'.heapBase = vp.heapBase) (ha : vp'.allocPtr = vp.allocPtr)
    (hg : vp.globalGCPending = true → vp'.globalGCPending = true) (h : PhaseOK cfg vp p) : PhaseOK cfg vp' p := by
  have hl : limitPtrOf cfg vp' = limitPtrOf cfg vp := limitPtrOf_congr hb
  have ht : top cfg vp' = top cfg vp := top_congr hb
  cases p with
  | test c roots => exact ⟨h.1, by rw [hl, ha]; exact h.2⟩
  | code budget =>
    simp only [PhaseOK] at h ⊢
    rw [hl, ha]
    exact h
  | gc c roots lacks =>
    obtain ⟨hc, hin, hm⟩ := h
    refine ⟨hc, by rw [ht, ha]; exact hin, ?_⟩
    intro hlacks
    have hcol := hm hlacks
    simp only [mustCollect, Bool.or_eq_true, decide_eq_true_eq] at hcol ⊢
    rw [hl, ha]
    exact hcol.imp_right hg

/-- The tuple of the roots of a harmless check fits, and it makes the runtime collect if space lacks. -/
theorem fail_inv (hcfg : cfg.OK heapBase) (hi : Inv cfg heapBase ⟨vp, .test c roots⟩) :
    Inv cfg heapBase ⟨vp.alloc (rootTupleSzB roots), .gc c roots (lacksSpace cfg c vp)⟩ := by
  obtain ⟨hb, ha, hl, hc, hlt⟩ := hi
  dsimp only at hb ha hl hlt
  have hroot := eight_dvd_rootTupleSzB roots
  have hfits := hc.1
  have hlim := limitPtrOf_add hcfg hb
  have hdvd := eight_dvd_limitPtrOf hcfg hb
  have hb' : (vp.alloc (rootTupleSzB roots)).heapBase = vp.heapBase := rfl
  have hap : (vp.alloc (rootTupleSzB roots)).allocPtr = vp.allocPtr + rootTupleSzB roots := rfl
  have hl' : limitPtrOf cfg (vp.alloc (rootTupleSzB roots)) = limitPtrOf cfg vp := limitPtrOf_congr hb'
  have ht' : top cfg (vp.alloc (rootTupleSzB roots)) = top cfg vp := top_congr hb'
  refine ⟨hb'.trans hb, by dsimp only; omega, ?_, hc, ?_, ?_⟩
  · dsimp only
    rw [hl']
    exact hl
  · rw [ht', hap]
    simp only [heapSlopSzB_eq, allocBufSzB, wordSzB] at hlt hlim ⊢
    omega
  · intro hlacks
    have hle := limit_le_of_lacksSpace hcfg hc hb ha hlt hlacks
    simp only [mustCollect, hl', hap, decide_eq_true hle, Bool.true_or]

theorem resumed_inv {sigPending : Bool} (hb : vp.heapBase = heapBase) (ha : 8 ∣ vp.allocPtr)
    (hl : vp.limitPtr = limitPtrOf cfg vp) (hc : Harmless c roots) (hlt : vp.allocPtr < limitPtrOf cfg vp) :
    Inv cfg heapBase ⟨{ vp with sigPending := sigPending }, .test c roots⟩ := by
  have hp : PhaseOK cfg vp (.test c roots) := ⟨hc, Nat.lt_of_lt_of_le hlt (Nat.le_add_right _ _)⟩
  have hl' : limitPtrOf cfg { vp with sigPending := sigPending } = limitPtrOf cfg vp := limitPtrOf_congr rfl
  exact ⟨hb, ha, Or.inr (by rw [hl']; exact hl), hp.congr rfl rfl id⟩

/-- The object that a signal adds is small. -/
theorem signalled_inv (hb : vp.heapBase = heapBase) (ha : 8 ∣ vp.allocPtr) (hl : vp.limitPtr = limitPtrOf cfg vp)
    (hlt : vp.allocPtr < limitPtrOf cfg vp) :
    Inv cfg heapBase ⟨{ vp.alloc (wordSzB * 4) with atomic := true, sigPending := false }, .code 0⟩ := by
  have hp : PhaseOK cfg (vp.alloc (wordSzB * 4)) (.code 0) := by
    have hl' : limitPtrOf cfg (vp.alloc (wordSzB * 4)) = limitPtrOf cfg vp := limitPtrOf_congr rfl
    have hap : (vp.alloc (wordSzB * 4)).allocPtr = vp.allocPtr + 32 := rfl
    simp only [PhaseOK, hl', hap, heapSlopSzB_eq]
    omega
  have hl' : limitPtrOf cfg { vp.alloc (wordSzB * 4) with atomic := true, sigPending := false } = limitPtrOf cfg vp :=
    limitPtrOf_congr rfl
  refine ⟨hb, ?_, Or.inr (by rw [hl']; exact hl), hp.congr rfl rfl id⟩
  simp only [VProc.alloc, wordSzB]
  omega

theorem step_inv (hcfg : cfg.OK heapBase) (hgc : gc.OK cfg) {s' : State} (hi : Inv cfg heapBase s)
    (h : Step cfg gc Harmless s s') : Inv cfg heapBase s' := by
  obtain ⟨hb, ha, hl, hp⟩ := hi
  cases h with
  | pass hc => exact ⟨hb, ha, hl, tested_of_pass hcfg hp.1 hb hl hp.2 hc⟩
  | fail hc => exact fail_inv hcfg ⟨hb, ha, hl, hp⟩
  | @alloc vp budget k hk hw =>
    have hap : (vp.alloc k).allocPtr = vp.allocPtr + k := rfl
    have hlim : limitPtrOf cfg (vp.alloc k) = limitPtrOf cfg vp := limitPtrOf_congr rfl
    simp only [PhaseOK, wordSzB] at ha hp hw
    refine ⟨hb, by dsimp only; omega, ?_, ?_⟩
    · dsimp only
      rw [hlim]
      exact hl
    · simp only [PhaseOK, hap, hlim]
      omega
  | next hc => exact ⟨hb, ha, hl, hc, Nat.lt_of_le_of_lt (Nat.le_add_right _ _) hp⟩
  | @retry vp vp' c roots lacks collects hr =>
    obtain ⟨hb', ha', hl', hlt⟩ := afterGC_spec hcfg hgc hb ha
    obtain ⟨sigPending, rfl⟩ := runManticore_resumes hr
    exact resumed_inv hb' ha' hl' hp.1 hlt
  | @signal vp vp' c roots lacks collects hr =>
    obtain ⟨hb', ha', hl', hlt⟩ := afterGC_spec hcfg hgc hb ha
    have h := signalled_inv hb' ha' hl' hlt
    rw [← runManticore_signals hr] at h
    exact h
  | preempt => exact ⟨hb, ha, Or.inl rfl, hp.congr rfl rfl id⟩
  | startGlobal =>
    have hlim : limitPtrOf cfg { s.vp with globalGCPending := true } = limitPtrOf cfg s.vp := limitPtrOf_congr rfl
    refine ⟨hb, ha, ?_, ?_⟩
    · dsimp only
      rw [hlim]
      exact hl
    grind [PhaseOK.congr]
  | mask => exact ⟨hb, ha, hl, hp⟩

theorem reach_inv (hcfg : cfg.OK heapBase) (hgc : gc.OK cfg) (h : Reach cfg gc Harmless heapBase s) :
    Inv cfg heapBase s := by
  induction h with
  | start => exact start_inv hcfg
  | step _ hs ih => exact step_inv hcfg hgc ih hs

/-! ## Agreement -/

theorem Inv.inside (hcfg : cfg.OK heapBase) (hi : Inv cfg heapBase s) : s.vp.allocPtr ≤ top cfg s.vp + wordSzB := by
  have hlim := limitPtrOf_add hcfg hi.base
  have hp := hi.phase
  simp only [allocBufSzB, wordSzB] at hlim ⊢
  cases h : s.phase with
  | test c roots =>
    rw [h] at hp
    have hlt := hp.2
    rw [heapSlopSzB_eq] at hlt
    omega
  | code budget =>
    rw [h] at hp
    simp only [PhaseOK, heapSlopSzB_eq] at hp
    omega
  | gc c roots lacks =>
    rw [h] at hp
    exact hp.2.1

theorem allocCheck_congr (hl : vp'.limitPtr = vp.limitPtr) (ha : vp'.allocPtr = vp.allocPtr) :
    allocCheck c vp' = allocCheck c vp := by
  cases c <;> simp only [allocCheck, hl, ha]

/-- After a collection a check of a size that fits does not fail. -/
theorem passes_after_collection {w : VProc} (hfits : FitsEmpty cfg gc c vp) (hb : w.heapBase = vp.heapBase)
    (hm : mustCollect cfg w = true) (sigPending : Bool) :
    allocCheck c { afterGC cfg gc w with sigPending := sigPending } = false := by
  have h := hfits { w with limitPtr := limitPtrOf cfg w } hb
  have hl : limitPtrOf cfg (minorGC cfg gc { w with limitPtr := limitPtrOf cfg w }) = limitPtrOf cfg w :=
    limitPtrOf_congr rfl
  have hw : afterGC cfg gc w = minorGC cfg gc { w with limitPtr := limitPtrOf cfg w } := by
    rw [afterGC, if_pos hm]
  rw [hw, ← h, lacksSpace]
  exact allocCheck_congr hl.symm rfl

/-- A failing check ends its loop if the runtime collects. -/
theorem ends_of_collects {v : VProc} (hfits : FitsEmpty cfg gc c v) (hb : vp.heapBase = v.heapBase)
    (hc : allocCheck c vp = true) (hm : mustCollect cfg (vp.alloc (rootTupleSzB roots)) = true) :
    RetryEnds cfg gc c roots vp := by
  obtain ⟨⟨collects, target, vp'⟩, hr⟩ : ∃ r, runManticore cfg gc (vp.alloc (rootTupleSzB roots)) = r := ⟨_, rfl⟩
  cases target with
  | schedCont => exact .signal hc hr
  | stdCont =>
    obtain ⟨sigPending, hv⟩ := runManticore_resumes hr
    have hb' : (vp.alloc (rootTupleSzB roots)).heapBase = vp.heapBase := rfl
    refine .retry hc hr (.pass ?_)
    rw [hv]
    exact passes_after_collection hfits (hb'.trans hb) hm sigPending

/-- The loop ends after two failing checks at the latest: one for a signal and one for space. -/
theorem Inv.ends (hcfg : cfg.OK heapBase) (hgc : gc.OK cfg) (hi : Inv cfg heapBase ⟨vp, .test c roots⟩)
    (hfits : FitsEmpty cfg gc c vp) : RetryEnds cfg gc c roots vp := by
  cases hc : allocCheck c vp with
  | false => exact .pass hc
  | true =>
    cases hm : mustCollect cfg (vp.alloc (rootTupleSzB roots)) with
    | true => exact ends_of_collects hfits rfl hc hm
    | false =>
      obtain ⟨⟨collects, target, vp'⟩, hr⟩ : ∃ r, runManticore cfg gc (vp.alloc (rootTupleSzB roots)) = r := ⟨_, rfl⟩
      cases target with
      | schedCont => exact .signal hc hr
      | stdCont =>
        have hi' := step_inv hcfg hgc (fail_inv hcfg hi) (.retry hr)
        have hb' : vp'.heapBase = vp.heapBase := hi'.base.trans hi.base.symm
        refine .retry hc hr ?_
        cases hc' : allocCheck c vp' with
        | false => exact .pass hc'
        | true =>
          have hlacks : lacksSpace cfg c vp' = true := by
            rw [lacksSpace, ← runManticore_limitPtr hr]
            exact hc'
          obtain ⟨htest, hlt⟩ := hi'.phase
          have hle := limit_le_of_lacksSpace hcfg htest hi'.base hi'.aligned hlt hlacks
          refine ends_of_collects hfits hb' hc' ?_
          have hl'' : limitPtrOf cfg (vp'.alloc (rootTupleSzB roots)) = limitPtrOf cfg vp' := limitPtrOf_congr rfl
          have hap : (vp'.alloc (rootTupleSzB roots)).allocPtr = vp'.allocPtr + rootTupleSzB roots := rfl
          simp only [mustCollect, hl'', hap, decide_eq_true hle, Bool.true_or]

theorem Inv.agrees (hcfg : cfg.OK heapBase) (hgc : gc.OK cfg) (hi : Inv cfg heapBase s) :
    Agrees cfg gc s where
  inside := hi.inside hcfg
  budget := by
    intro b hs
    have hlim := limitPtrOf_add hcfg hi.base
    have hp := hi.phase
    rw [hs] at hp
    simp only [PhaseOK, heapSlopSzB_eq] at hp
    simp only [allocBufSzB, wordSzB] at hlim ⊢
    omega
  collects := by
    intro c roots hs
    have hp := hi.phase
    rw [hs] at hp
    rw [runManticore_collects]
    exact hp.2.2 rfl
  ends := by
    obtain ⟨vp, p⟩ := s
    intro c roots hs
    cases hs
    exact hi.ends hcfg hgc

/-- In a run whose checks are harmless, root tuples fit, checks that fail for lack of space are followed by a
    collection, what is allocated after a check stays in the nursery, and the loop of check and retry ends. -/
theorem harmless_checks_agree (hcfg : cfg.OK heapBase) (hgc : gc.OK cfg) {s : State}
    (h : Reach cfg gc Harmless heapBase s) : Agrees cfg gc s :=
  (reach_inv hcfg hgc h).agrees hcfg hgc

/-! ## A check that is not harmless -/

/-- The loop never ends if the runtime gives a failing check its vproc back. -/
theorem not_ends_of_same (hc : allocCheck c vp = true)
    (hr : runManticore cfg gc (vp.alloc (rootTupleSzB roots)) = (collects, .stdCont, vp)) :
    ¬ RetryEnds cfg gc c roots vp := by
  intro h
  induction h with
  | pass hpass => exact Bool.noConfusion (hpass.symm.trans hc)
  | signal _ hs => cases hs.symm.trans hr
  | retry _ hr' _ ih =>
    cases hr'.symm.trans hr
    exact ih hc hr

/-- A heap of a megabyte, with nurseries of the smallest size. -/
def smallHeap : Config := ⟨2 ^ 20, minNurserySzB⟩

/-- A collector that empties the heap. -/
def emptied : Collector := fun vp => (vp.heapBase, false)

theorem smallHeap_ok : smallHeap.OK (2 ^ 20) :=
  ⟨by decide, by decide, by decide, by decide, by decide, by decide, by decide⟩

theorem emptied_ok : emptied.OK smallHeap := by
  intro vp
  simp only [emptied, top, smallHeap, minNurserySzB]
  omega

theorem lacksSpace_emptied_congr (hb : vp'.heapBase = vp.heapBase) :
    lacksSpace cfg c (minorGC cfg emptied vp') = lacksSpace cfg c (minorGC cfg emptied vp) := by
  apply allocCheck_congr
  · simp only [limitPtrOf, minorGC, setAllocPtr, hb]
  · have hs : ∀ v : VProc, (minorGC cfg emptied v).allocPtr =
        (setAllocPtr cfg ⟨v.heapBase, v.heapBase, 0, 0, 0, false, false, false⟩).allocPtr := fun _ => rfl
    rw [hs, hs, hb]

/-- A check for a pair, with a root, after a preemption. -/
theorem preempted_check_agrees :
    Agrees smallHeap emptied ⟨{ (start smallHeap (2 ^ 20)).vp with limitPtr := 0 }, .test (.size 24) [.any]⟩ :=
  harmless_checks_agree smallHeap_ok emptied_ok
    (.step (.step .start (.next ⟨by decide, Or.inl ⟨24, rfl, by decide⟩⟩)) (.preempt _))

/-- A check of more bytes than are left but fewer than an empty nursery has. -/
theorem large_check_never_collects : smallHeap.OK (2 ^ 20) ∧ emptied.OK smallHeap ∧
    ¬ ∀ s, Reach smallHeap emptied (fun _ _ => True) (2 ^ 20) s → Agrees smallHeap emptied s := by
  refine ⟨smallHeap_ok, emptied_ok, ?_⟩
  intro hall
  have hagree := hall ⟨(start smallHeap (2 ^ 20)).vp, .test (.size 12248) []⟩ (.step .start (.next trivial))
  have hfits : FitsEmpty smallHeap emptied (.size 12248) (start smallHeap (2 ^ 20)).vp := by
    intro vp' hb
    rw [lacksSpace_emptied_congr hb]
    decide +kernel
  have hrun : runManticore smallHeap emptied ((start smallHeap (2 ^ 20)).vp.alloc (rootTupleSzB [])) =
      (false, .stdCont, (start smallHeap (2 ^ 20)).vp) := by decide +kernel
  exact not_ends_of_same (by decide +kernel) hrun (hagree.ends _ _ rfl hfits)

end Manticore.Codegen.HeapCheck
