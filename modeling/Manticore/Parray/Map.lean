/-
  Manticore.Parray.Map — `Rope.map` (`basis/parray/rope.pml`) under the three chunking policies.

  `map_returns`: lazy splitting takes one threshold only; otherwise, with an eager threshold of one or more, the mapped
  elements in order, in a well-formed rope. (With a smaller one `mapETS` halves a leaf of one element for ever.)
-/

import Manticore.Parray.RopeCursor

namespace Manticore.Parray

open Fuel (Returns ok_bind)
open Pieces

variable {α β : Type} (M : Int)

def mapSequential (f : α → β) : Rope α → Except Exn (Rope β)
  | .leaf s => leaf M (s.map f)
  | .cat len d l r => do return .cat len d (← mapSequential f l) (← mapSequential f r)

def mapETS (SST : Int) (f : α → β) : Nat → Rope α → Except Exn (Rope β)
  | 0, _ => .error .fuel
  | n + 1, rp =>
    if rp.length ≤ SST then mapSequential M f rp
    else do
      let (l, r) ← split2 M rp
      return nccat2 (← mapETS SST f n l) (← mapETS SST f n r)

def numUnprocessedMap (f : Rope α) (c : GenCtx (Rope α) (Rope β)) : Int := numUnprocessed Rope.length Rope.length f c

def finishMap (cur : Rope α × GenCtx (Rope α) (Rope α)) : Rope α := finish nccat2 cur.1 cur.2

def nextMap (f : Rope β) (c : GenCtx (Rope α) (Rope β)) : Progress (List α × GenCtx (Rope α) (Rope β)) (Rope β) :=
  next leftmostLeaf nccat2 f c

/-- A leaf of `mapUntil`. -/
def mapLeaf (f : α → β) (σ : Answers) (_ : Unit) (s : List α) (c : GenCtx (Rope α) (Rope β)) :
    Except Exn (Progress (Rope α × GenCtx (Rope α) (Rope β)) (Unit × Rope β) × Answers) :=
  match Seq.mapUntil σ f s with
  | (.more (us, ps), σ) => do
    if numUnprocessedMap (← leaf M us) c < 2 then return (.done ((), ← leaf M (ps ++ us.map f)), σ)
    else return (← more (fun ps : List β => (ps.length : Int)) (leaf M) (leaf M) us ps c, σ)
  | (.done ps, σ) => do return (.done ((), ← leaf M ps), σ)

def mapUntil (f : α → β) (n : Nat) (σ : Answers) (cur : Rope α × GenCtx (Rope α) (Rope β)) :
    Except Exn (Progress (Rope α × GenCtx (Rope α) (Rope β)) (Rope β)) :=
  let (s, c) := leftmostLeaf cur.1 cur.2
  sweepUntil (mapLeaf M f) nextMap n σ () s c

def mapLTS (PPT : Int) (f : α → β) (n : Nat) (σ : Schedule) (rp : Rope α) : Except Exn (Rope β) :=
  if PPT ≠ 1 then .error (.fail "PPT != 1 currently unsupported")
  else do
    let cur ← start M rp
    lazySplit (mapUntil M f) (fun _ => splitRopes .rope M Rope.length) (joinRopes .rope decodeRope finishMap) n σ cur

def map (policy : ChunkingPolicy) (f : α → β) (n : Nat) (σ : Schedule) (rp : Rope α) : Except Exn (Rope β) :=
  match policy with
  | .sequential => mapSequential M f rp
  | .ets SST => mapETS M SST f n rp
  | .lts PPT => mapLTS M PPT f n σ rp

variable {M}

/-! ## Sequential and eager -/

variable {rp : Rope α} {SST : Int}

theorem length_eq_of_toList {rp' : Rope β} {f : α → β} (h : rp.WF M) (h' : rp'.WF M)
    (hmap : rp'.toList = rp.toList.map f) : rp'.length = rp.length := by
  rw [h'.length_eq, hmap, List.length_map, h.length_eq]

theorem mapSequential_ok (f : α → β) (h : rp.WF M) :
    ∃ rp', mapSequential M f rp = .ok rp' ∧ rp'.WF M ∧ rp'.toList = rp.toList.map f ∧ rp'.depth = rp.depth := by
  induction rp with
  | leaf s =>
    have hs : ((s.map f).length : Int) ≤ M := by
      rw [List.length_map]
      exact h
    exact ⟨.leaf (s.map f), leaf_ok hs, hs, rfl, rfl⟩
  | cat len d l r ihl ihr =>
    obtain ⟨hlen, hd, hl, hr⟩ := h
    obtain ⟨l', hretl, hl', htol, hdl⟩ := ihl hl
    obtain ⟨r', hretr, hr', htor, hdr⟩ := ihr hr
    refine ⟨.cat len d l' r', ?_, ⟨?_, ?_, hl', hr'⟩, ?_, rfl⟩
    · rw [mapSequential, hretl, hretr]
      rfl
    · rw [hlen, length_eq_of_toList hl hl' htol, length_eq_of_toList hr hr' htor]
    · rw [hd, hdl, hdr]
    · rw [Rope.toList, htol, htor, Rope.toList, List.map_append]

/-- Halving a leaf of two elements or more. -/
theorem split2_leaf {s : List α} (h : (Rope.leaf s).WF M) :
    split2 M (.leaf s) = .ok (.leaf (s.take (s.length / 2)), .leaf (s.drop (s.length / 2))) ∧
      (Rope.leaf (s.take (s.length / 2))).WF M ∧ (Rope.leaf (s.drop (s.length / 2))).WF M := by
  have hs : (s.length : Int) ≤ M := h
  have htake : ((s.take (s.length / 2)).length : Int) ≤ M := by
    rw [List.length_take]
    omega
  have hdrop : ((s.drop (s.length / 2)).length : Int) ≤ M := by
    rw [List.length_drop]
    omega
  refine ⟨?_, htake, hdrop⟩
  show (do return (← leaf M (s.take (s.length / 2)), ← leaf M (s.drop (s.length / 2)))) = _
  rw [leaf_ok htake, leaf_ok hdrop]
  rfl

/-- Halving as long as a rope is longer than a positive threshold: a leaf gets shorter, and a concatenation is taken
    apart. -/
theorem split2_induction {P : Rope α → Prop} (hSST : 1 ≤ SST) (small : ∀ rp, rp.WF M → rp.length ≤ SST → P rp)
    (split : ∀ rp l r, ¬ rp.length ≤ SST → split2 M rp = .ok (l, r) → l.WF M → r.WF M → l.toList ++ r.toList = rp.toList → P l → P r → P rp)
    (h : rp.WF M) : P rp := by
  induction rp with
  | leaf s =>
    induction hk : s.length using Nat.strong_induction_on generalizing s with
    | _ k ih =>
      by_cases hle : (Rope.leaf s).length ≤ SST
      · exact small _ h hle
      · have hlen : (Rope.leaf s).length = s.length := rfl
        obtain ⟨hsplit, hl, hr⟩ := split2_leaf h
        have hPl := ih _ (by rw [List.length_take]; omega) _ hl rfl
        have hPr := ih _ (by rw [List.length_drop]; omega) _ hr rfl
        exact split _ _ _ hle hsplit hl hr (List.take_append_drop _ s) hPl hPr
  | cat len d l r ihl ihr =>
    by_cases hle : (Rope.cat len d l r).length ≤ SST
    · exact small _ h hle
    · obtain ⟨-, -, hl, hr⟩ := h
      exact split _ l r hle rfl hl hr rfl (ihl hl) (ihr hr)

theorem mapETS_small (f : α → β) (h : rp.WF M) (hle : rp.length ≤ SST) :
    ∃ rp', Returns (fun n => mapETS M SST f n rp) rp' ∧ rp'.WF M ∧ rp'.toList = rp.toList.map f := by
  obtain ⟨rp', hret, hwf, hto, -⟩ := mapSequential_ok f h
  refine ⟨rp', .succ ?_, hwf, hto⟩
  simp only [mapETS, if_pos hle, hret]
  exact .pure _

theorem mapETS_returns (f : α → β) (hSST : 1 ≤ SST) (h : rp.WF M) :
    ∃ rp', Returns (fun n => mapETS M SST f n rp) rp' ∧ rp'.WF M ∧ rp'.toList = rp.toList.map f := by
  refine split2_induction hSST (fun rp h hle => mapETS_small f h hle) ?_ h
  intro rp l r hgt hsplit hl hr happ hPl hPr
  obtain ⟨l', hretl, hl', htol⟩ := hPl
  obtain ⟨r', hretr, hr', htor⟩ := hPr
  refine ⟨nccat2 l' r', .succ ?_, wf_nccat2 hl' hr', ?_⟩
  · simp only [mapETS, if_neg hgt, hsplit, ok_bind]
    exact hretl.bind (hretr.bind (.pure _))
  · rw [toList_nccat2, htol, htor, ← happ, List.map_append]

/-! ## Lazy -/

/-- The results of a rope: a concatenation keeps its shape, and a leaf may become any rope. -/
def Mapped (M : Int) (f : α → β) : Rope α → Rope β → Prop
  | .leaf s, b => b.WF M ∧ b.toList = s.map f
  | .cat _ _ l r, b => ∃ bl br, b = nccat2 bl br ∧ Mapped M f l bl ∧ Mapped M f r br

def mapWork (M : Int) (f : α → β) : Work Unit (Rope α) (Rope β) := ⟨fun _ => Mapped M f, fun s _ => s, nccat2⟩

theorem mapped_spec {f : α → β} {b : Rope β} (h : Mapped M f rp b) : b.WF M ∧ b.toList = rp.toList.map f := by
  induction rp generalizing b with
  | leaf s => exact h
  | cat len d l r ihl ihr =>
    obtain ⟨bl, br, rfl, hl, hr⟩ := h
    grind [wf_nccat2, toList_nccat2, Rope.toList]

theorem mapWork_ropeWork (f : α → β) : RopeWork (mapWork M f) where
  cat _ _ _ _ _ bl br hl hr := ⟨bl, br, rfl, hl, hr⟩
  adv_cat _ _ _ _ _ := rfl
  leaf _ xs ys bl br hl hr := by
    refine ⟨wf_nccat2 hl.1 hr.1, ?_⟩
    show bl.toList ++ br.toList = _
    rw [hl.2, hr.2, List.map_append]
  adv_leaf _ _ _ := rfl

theorem mapLeaf_treats (f : α → β) : TreatsLeaf (mapWork M f) M (mapLeaf M f) := by
  intro Q η xs c hgood hwf
  have hxs : (xs.length : Int) ≤ M := hwf.focus
  unfold mapLeaf
  rcases Seq.mapUntil_cases η f xs with ⟨η', hdone⟩ | ⟨ps, us, η', rfl, hne, hmore⟩
  · have hleaf : ((xs.map f).length : Int) ≤ M := by
      rw [List.length_map]
      exact hxs
    rw [hdone]
    exact ⟨.done ((), .leaf (xs.map f)), η', by simp only [leaf_ok hleaf]; rfl, hleaf, rfl⟩
  · rw [hmore]
    rw [List.length_append] at hxs
    have hus : (us.length : Int) ≤ M := by omega
    have hps : ((ps.map f).length : Int) ≤ M := by
      rw [List.length_map]
      omega
    have hnu : numUnprocessedMap (.leaf us) c = remaining (.leaf us) c := numUnprocessed_remaining _
    by_cases hlast : remaining (.leaf us) c < 2
    · have hall : ((ps.map f ++ us.map f).length : Int) ≤ M := by
        rw [List.length_append, List.length_map, List.length_map]
        omega
      refine ⟨.done ((), .leaf (ps.map f ++ us.map f)), η', ?_, hall, List.map_append.symm⟩
      simp only [leaf_ok hus, ok_bind, hnu, if_pos hlast, leaf_ok hall]
      rfl
    · have hdone : (mapWork M f).done () (.leaf ps) (.leaf (ps.map f)) := ⟨hps, rfl⟩
      have hlen : ((ps.map f).length : Int) = 0 ↔ ps = [] := by
        rw [Int.natCast_eq_zero, List.length_eq_zero_iff, List.map_eq_nil_iff]
      refine ⟨.more (.leaf us, if ((ps.map f).length : Int) = 0 then c else .right (.leaf (ps.map f)) c), η', ?_,
        more_stopped (mapWork_ropeWork f) hgood hwf hdone hlen hlast⟩
      simp only [leaf_ok hus, ok_bind, hnu, if_neg hlast, more, leaf_ok hps]
      split <;> rfl

theorem mapLTS_returns (f : α → β) (h : rp.WF M) (σ : Schedule) :
    ∃ rp', Returns (fun n => mapLTS M 1 f n σ rp) rp' ∧ rp'.WF M ∧ rp'.toList = rp.toList.map f := by
  obtain ⟨x, c, hstart, hgood, hwf, -⟩ :=
    start_good (mapWork_ropeWork f) (Q := fun rp' : Rope β => rp'.WF M ∧ rp'.toList = rp.toList.map f) (s := ()) h
      fun b hb => mapped_spec hb
  obtain ⟨rp', hret, hspec⟩ := lazySplit_ropes .rope Rope.length decodeRope finishMap (mapWork_ropeWork f)
    (mapLeaf_treats f) (fun _ _ _ _ _ _ h => h) (fun _ => rfl) decodeRope_one decodeRope_nccat2 (.leaf x, c) ⟨hgood, hwf⟩ σ
  refine ⟨rp', hret.congr fun n => ?_, hspec⟩
  rw [mapLTS, if_neg (by decide), hstart]
  rfl

/-! ## Every policy -/

/-- Lazy splitting takes no threshold but 1. Otherwise the run ends without an exception, and every node of the result
    records the right length and depth. -/
theorem map_returns (policy : ChunkingPolicy) (f : α → β) (rp : Rope α) (σ : Schedule) (h : rp.WF M) :
    (∀ PPT, policy = .lts PPT → PPT ≠ 1 → ∀ n, map M policy f n σ rp = .error (.fail "PPT != 1 currently unsupported")) ∧
    ((∀ SST, policy = .ets SST → 1 ≤ SST ∨ rp.length ≤ SST) → (∀ PPT, policy = .lts PPT → PPT = 1) →
      ∃ rp', Returns (fun n => map M policy f n σ rp) rp' ∧ rp'.ropeOK = true ∧ (∀ s ∈ rp'.leaves, (s.length : Int) ≤ M) ∧
        rp'.toList = rp.toList.map f) := by
  refine ⟨?_, fun hets hlts => ?_⟩
  · rintro PPT rfl hne n
    exact if_pos hne
  · have hall : ∃ rp', Returns (fun n => map M policy f n σ rp) rp' ∧ rp'.WF M ∧ rp'.toList = rp.toList.map f := by
      cases policy with
      | sequential =>
        obtain ⟨rp', hret, hwf, hto, -⟩ := mapSequential_ok f h
        exact ⟨rp', ⟨0, fun _ _ => hret⟩, hwf, hto⟩
      | ets SST =>
        rcases hets SST rfl with hSST | hle
        · exact mapETS_returns f hSST h
        · exact mapETS_small f h hle
      | lts PPT =>
        obtain rfl := hlts PPT rfl
        exact mapLTS_returns f h σ
    grind [Rope.wf_iff_ropeOK]

/-- Two leaves, and an answer that interrupts the first. -/
theorem map_returns_pair :
    ∃ rp', Returns (fun n => map 2 (.lts 1) (· + 1) n (fun _ n => n = 1) (.cat 3 1 (.leaf [5, 6]) (.leaf [7]))) rp' ∧
      rp'.ropeOK = true ∧ (∀ s ∈ rp'.leaves, (s.length : Int) ≤ 2) ∧ rp'.toList = [6, 7, 8] :=
  (map_returns (.lts 1) (· + 1) (.cat 3 1 (.leaf [5, 6]) (.leaf [7])) (fun _ n => n = 1)
    ⟨by decide, by decide, by show ((2 : Nat) : Int) ≤ 2; decide, by show ((1 : Nat) : Int) ≤ 2; decide⟩).2 nofun
    (fun PPT hPPT => by cases hPPT; rfl)

theorem map_unsupported : ¬ ∃ rp', Returns (fun n => map 512 (.lts 2) (· + 1) n (fun _ _ => false) (.leaf [5])) rp' := by
  rintro ⟨rp', N, hN⟩
  cases hN N (Nat.le_refl N)

end Manticore.Parray
