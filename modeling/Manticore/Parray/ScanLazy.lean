/-
  Manticore.Parray.ScanLazy — lazy `scan` (`basis/parray/rope.pml`, `int-rope.pml`).

  - `upsweepLTS_returns`: the upsweep labels a rope with the same elements.
  - `downsweepLTS_returns`: the downsweep returns the prefixes, in `Rope` under every schedule. The pieces left of the
    element that `IntRope` splits at get their accumulators in the wrong order, unless at most one has elements.
  - `scan_returns`: `Rope.scan` returns the prefixes under every schedule, but for empty leaves in `scanSequential`
    and an eager threshold that is not positive.
  - `scan_intRope`: so does lazy `IntRope.scan`, if all its splits are straight.
-/

import Manticore.Parray.Scan

namespace Manticore.Parray

open Fuel (Returns ok_bind)
open Pieces

variable {α : Type} {M : Int} {f : α → α → α} {b : α} {rp : Rope α}

/-! ## The upsweep -/

/-- The results of a rope: a concatenation keeps its shape, and a leaf may become any labelled rope. -/
def Upswept (M : Int) (f : α → α → α) (b : α) : Rope α → MCRope α → Prop
  | .leaf s, mcrp => ∃ rp', mcrp = label f b rp' ∧ rp'.WF M ∧ rp'.toList = s
  | .cat _ _ l r, mcrp => ∃ ml mr, mcrp = mcnccat2 f ml mr ∧ Upswept M f b l ml ∧ Upswept M f b r mr

def upsweepWork (M : Int) (f : α → α → α) (b : α) : Work Unit (Rope α) (MCRope α) :=
  ⟨fun _ => Upswept M f b, fun s _ => s, mcnccat2 f⟩

theorem upswept_spec {mcrp : MCRope α} (h : Upswept M f b rp mcrp) :
    ∃ rp', mcrp = label f b rp' ∧ rp'.WF M ∧ rp'.toList = rp.toList := by
  induction rp generalizing mcrp with
  | leaf s => exact h
  | cat len d l r ihl ihr =>
    obtain ⟨ml, mr, rfl, hl, hr⟩ := h
    grind [mcnccat2_label, wf_nccat2, toList_nccat2, Rope.toList]

theorem upsweepWork_ropeWork (M : Int) (f : α → α → α) (b : α) : RopeWork (upsweepWork M f b) where
  cat _ _ _ _ _ ml mr hl hr := ⟨ml, mr, rfl, hl, hr⟩
  adv_cat _ _ _ _ _ := rfl
  leaf _ xs ys ml mr hl hr := by
    obtain ⟨l', rfl, hwl, htol⟩ := hl
    obtain ⟨r', rfl, hwr, htor⟩ := hr
    exact ⟨nccat2 l' r', mcnccat2_label l' r', wf_nccat2 hwl hwr, by rw [toList_nccat2, htol, htor]⟩
  adv_leaf _ _ _ := rfl

theorem upswept_leaf {s : List α} (h : (s.length : Int) ≤ M) : Upswept M f b (.leaf s) (label f b (.leaf s)) :=
  ⟨.leaf s, rfl, h, rfl⟩

section
variable (hassoc : ∀ x y z, f (f x y) z = f x (f y z)) (hcomm : ∀ x y, f x y = f y x) (hleft : ∀ x, f b x = x)
include hassoc hcomm hleft

/-- A leaf is put together again. -/
theorem mcccat2_leaf {ps us : List α} (h : ((ps ++ us).length : Int) ≤ M) :
    mcccat2 M f (label f b (.leaf ps)) (label f b (.leaf us)) = .ok (label f b (.leaf (ps ++ us))) := by
  have hright : ∀ x, f x b = x := fun x => (hcomm x b).trans (hleft x)
  have hlen : (Rope.leaf ps).length + (Rope.leaf us).length = ((ps ++ us).length : Int) := by
    rw [List.length_append]
    exact (Int.natCast_add _ _).symm
  have hval : f (mcval (label f b (.leaf ps))) (mcval (label f b (.leaf us))) = (ps ++ us).foldl f b :=
    (foldl_append_assoc hassoc hleft hright ps us).symm
  rw [mcccat2, mclength_label, mclength_label, hlen, if_pos h, mcnccat2_label, mcToSeq_label, hval]
  exact mcleaf'_ok h _

theorem upsweepLeaf_treats : TreatsLeaf (upsweepWork M f b) M (upsweepLeaf M f b) := by
  intro Q η xs c hgood hwf
  have hxs : (xs.length : Int) ≤ M := hwf.focus
  unfold upsweepLeaf Seq.reduceUntil
  rcases Seq.loopUntil_cases (fun acc x => f acc x) xs b η with ⟨η', hdone⟩ | ⟨ps, us, η', rfl, hne, hmore⟩
  · rw [hdone]
    exact ⟨.done ((), label f b (.leaf xs)), η', by simp only [mcleaf'_ok hxs]; rfl, upswept_leaf hxs⟩
  · rw [hmore]
    have happ := hxs
    rw [List.length_append] at happ
    have hps : (ps.length : Int) ≤ M := by omega
    have hus : (us.length : Int) ≤ M := by omega
    have htake : Seq.take (ps ++ us) ((ps ++ us).length - us.length) = ps := by
      have hidx : (((ps ++ us).length : Int) - us.length).toNat = ps.length := by
        rw [List.length_append]
        omega
      rw [Seq.take, hidx, List.take_left]
    have hleaf : mcleaf' M (ps.foldl f b) ps = .ok (label f b (.leaf ps)) := mcleaf'_ok hps _
    have hnu : numUnprocessedUpsweep (.leaf us) c = remaining (.leaf us) c := numUnprocessed_remaining _
    by_cases hlast : remaining (.leaf us) c < 2
    · refine ⟨.done ((), label f b (.leaf (ps ++ us))), η', ?_, upswept_leaf hxs⟩
      simp only [htake, hleaf, leaf_ok hus, ok_bind, hnu, if_pos hlast, mcleaf_ok hcomm hus,
        mcccat2_leaf hassoc hcomm hleft hxs]
      rfl
    · have hlen : mclength (label f b (.leaf ps)) = 0 ↔ ps = [] := by
        rw [mclength_label, Rope.length, Int.natCast_eq_zero, List.length_eq_zero_iff]
      refine ⟨.more (.leaf us, if mclength (label f b (.leaf ps)) = 0 then c else .right (label f b (.leaf ps)) c), η', ?_,
        more_stopped (upsweepWork_ropeWork M f b) hgood hwf (upswept_leaf hps) hlen hlast⟩
      simp only [htake, hleaf, leaf_ok hus, ok_bind, hnu, if_neg hlast, more]
      split <;> rfl

theorem upsweepLTS_returns (lib : Lib) (PPT : Int) (h : rp.WF M) (σ : Schedule) :
    ∃ rp', Returns (fun n => upsweepLTS M lib PPT f b n σ rp) (label f b rp') ∧ rp'.WF M ∧ rp'.toList = rp.toList := by
  have hone : ∀ mcrp : MCRope α, decodeMCRope mcrp 1 = .ok [mcrp] := by
    intro mcrp
    cases mcrp <;> rfl
  have hopen : RopeOpen (upsweepWork M f b) M (Upswept M f b rp) (rp, .top) :=
    ⟨good_top fun _ hmcrp => hmcrp, wfCursor_cons h nofun⟩
  obtain ⟨mcrp, hret, hup⟩ := lazySplit_ropes lib mclength decodeMCRope (finishUpsweep f) (upsweepWork_ropeWork M f b)
    (upsweepLeaf_treats hassoc hcomm hleft) (fun _ _ _ _ _ _ h => h) (fun _ => rfl) hone (fun _ _ _ => rfl) (rp, .top) hopen σ
  obtain ⟨rp', rfl, hwf, hto⟩ := upswept_spec hup
  exact ⟨rp', hret, hwf, hto⟩

end

/-! ## The downsweep -/

/-- The results of a rope from an accumulator. -/
def Downswept (M : Int) (f : α → α → α) : Rope α → α → Rope α → Prop
  | .leaf s, a, rp' => Scanned M f a (.leaf s) rp'
  | .cat _ _ l r, a, rp' => ∃ bl br, rp' = nccat2 bl br ∧ Downswept M f l a bl ∧ Downswept M f r (l.toList.foldl f a) br

/-- The state is the accumulator. -/
def downsweepWork (M : Int) (f : α → α → α) : Work α (Rope α) (Rope α) :=
  ⟨fun a rp => Downswept M f rp a, fun a rp => rp.toList.foldl f a, nccat2⟩

theorem downswept_spec {rp' : Rope α} {a : α} (h : Downswept M f rp a rp') : Scanned M f a rp rp' := by
  induction rp generalizing a rp' with
  | leaf s => exact h
  | cat len d l r ihl ihr =>
    obtain ⟨bl, br, rfl, hl, hr⟩ := h
    obtain ⟨hwl, htol⟩ := ihl hl
    obtain ⟨hwr, htor⟩ := ihr hr
    exact ⟨wf_nccat2 hwl hwr, by rw [toList_nccat2, htol, htor, Rope.toList, prefixes_append]⟩

theorem downsweepWork_ropeWork (M : Int) (f : α → α → α) : RopeWork (downsweepWork M f) where
  cat _ _ _ _ _ bl br hl hr := ⟨bl, br, rfl, hl, hr⟩
  adv_cat _ _ _ _ _ := List.foldl_append
  leaf a xs ys bl br hl hr := by
    refine ⟨wf_nccat2 hl.1 hr.1, ?_⟩
    show bl.toList ++ br.toList = _
    rw [hl.2, hr.2]
    exact (prefixes_append a xs ys).symm
  adv_leaf _ _ _ := List.foldl_append

/-- What an empty rope gets as accumulator does not matter. -/
theorem downswept_empty {rp' : Rope α} {a : α} (h : Downswept M f rp a rp') (hnil : rp.toList = []) (a' : α) :
    Downswept M f rp a' rp' := by
  induction rp generalizing a a' rp' with
  | leaf s =>
    obtain rfl : s = [] := hnil
    exact h
  | cat len d l r ihl ihr =>
    obtain ⟨bl, br, rfl, hl, hr⟩ := h
    obtain ⟨hnl, hnr⟩ := List.append_eq_nil_iff.mp hnil
    exact ⟨bl, br, rfl, ihl hl hnl a', ihr hr hnr _⟩

theorem downswept_swap {x y : Rope α} (hx : x.WF M) (hy : y.WF M) (h : x.length = 0 ∨ y.length = 0) :
    (downsweepWork M f).Swap x y := by
  have hnil : ∀ {z : Rope α}, z.WF M → z.length = 0 → z.toList = [] := by
    intro z hz h0
    rw [hz.length_eq] at h0
    exact List.eq_nil_of_length_eq_zero (Int.natCast_eq_zero.mp h0)
  have hstill : ∀ {z : Rope α}, z.toList = [] → ∀ a, (downsweepWork M f).adv a z = a := by
    intro z hz a
    show z.toList.foldl f a = a
    rw [hz]
    rfl
  intro a
  rcases h with h0 | h0
  · have hx0 := hnil hx h0
    rw [hstill hx0, hstill hx0]
    exact ⟨rfl, fun b b' hb hb' => ⟨hb', downswept_empty hb hx0 _⟩⟩
  · have hy0 := hnil hy h0
    rw [hstill hy0, hstill hy0]
    exact ⟨rfl, fun b b' hb hb' => ⟨downswept_empty hb' hy0 _, hb⟩⟩

/-- A cursor that makes up a whole with `Q`, labelled. -/
def DownOpen (M : Int) (f : α → α → α) (b : α) (Q : Rope α → Prop) (cur : DownCur α) : Prop :=
  ∃ rp c, cur.2 = (label f b rp, labelCtx f b c) ∧ Good (downsweepWork M f) Q cur.1 rp c ∧ WFCursor M rp c

def downLeft (cur : DownCur α) : Int := numUnprocessedDownsweep cur.2.1 cur.2.2

/-- An interrupted one, with at most `n` elements left. -/
def DownStopped (M : Int) (f : α → α → α) (b : α) (Q : Rope α → Prop) (n : Int) (cur : DownCur α) : Prop :=
  DownOpen M f b Q cur ∧ 2 ≤ downLeft cur ∧ downLeft cur ≤ n

/-- The leaves right of a labelled cursor. -/
def unvisitedMC (c : GenCtx (MCRope α) (Rope α)) : Nat := (c.rights.map fun mcrp => (mcleaves mcrp).length).sum

theorem unvisitedMC_label (c : GenCtx (Rope α) (Rope α)) : unvisitedMC (labelCtx f b c) = unvisited c := by
  have hlen : (fun mcrp => (mcleaves mcrp).length) ∘ label f b = fun rp : Rope α => rp.leaves.length :=
    funext fun rp => congrArg List.length (mcleaves_label rp)
  rw [unvisitedMC, rights_label, List.map_map, hlen]
  rfl

theorem numUnprocessedDownsweep_label (rp : Rope α) (c : GenCtx (Rope α) (Rope α)) :
    numUnprocessedDownsweep (label f b rp) (labelCtx f b c) = remaining rp c :=
  (numUnprocessed_label Rope.length rp c).trans (numUnprocessed_remaining _)

/-- A leaf is finished, or interrupted with two elements left or more. -/
theorem downsweepLeaf_ok (hcomm : ∀ x y, f x y = f y x) {Q : Rope α → Prop} (η : Answers) {a : α} {xs : List α}
    {c : GenCtx (Rope α) (Rope α)} (hgood : Good (downsweepWork M f) Q a (.leaf xs) c) (hwf : WFCursor M (.leaf xs) c) :
    ∃ res η', downsweepLeaf M f b η a xs (labelCtx f b c) = .ok (res, η') ∧
      Swept (fun tb => tb.1 = xs.foldl f a ∧ Downswept M f (.leaf xs) a tb.2)
        (DownStopped M f b Q (remaining (.leaf xs) c)) res := by
  have hxs : (xs.length : Int) ≤ M := hwf.focus
  unfold downsweepLeaf
  rcases scanUntil_cases hcomm η a xs with ⟨η', hdone⟩ | ⟨ps, us, η', rfl, hne, hmore⟩
  · obtain ⟨hleaf, hscan⟩ := scanned_leaf hcomm a hxs
    rw [seq_scan_eq hcomm] at hleaf
    rw [hdone]
    exact ⟨.done (xs.foldl f a, .leaf (prefixes f a xs)), η', by simp only [hleaf]; rfl, rfl, hscan⟩
  · have happ := hxs
    rw [List.length_append] at happ
    have hps : (ps.length : Int) ≤ M := by omega
    have hus : (us.length : Int) ≤ M := by omega
    have hnu : numUnprocessedDownsweep (.leaf b us) (labelCtx f b c) = remaining (.leaf us) c := by
      rw [← numUnprocessedDownsweep_label (f := f) (b := b)]
      rfl
    rw [hmore]
    by_cases hlast : remaining (.leaf us) c < 2
    · -- what is left of the leaf is scanned here
      have hall : ((prefixes f a ps ++ prefixes f (ps.foldl f a) us).length : Int) ≤ M := by
        rw [← prefixes_append, length_prefixes]
        exact hxs
      refine ⟨.done (us.foldl f (ps.foldl f a), .leaf (prefixes f a ps ++ prefixes f (ps.foldl f a) us)), η', ?_, ?_, hall, ?_⟩
      · simp only [mcleaf'_ok hus, ok_bind, hnu, if_pos hlast, scanUntil_never hcomm, leaf_ok hall]
        rfl
      · exact List.foldl_append.symm
      · exact (prefixes_append a ps us).symm
    · have hstop : ∀ c', Good (downsweepWork M f) Q (ps.foldl f a) (.leaf us) c' → c'.rights = c.rights →
          DownStopped M f b Q (remaining (.leaf (ps ++ us)) c) (ps.foldl f a, label f b (.leaf us), labelCtx f b c') := by
        intro c' hgood' hrights
        have hrem : remaining (.leaf us) c' = remaining (.leaf us) c := by
          rw [remaining, hrights, remaining]
        have hnum : downLeft (ps.foldl f a, label f b (.leaf us), labelCtx f b c') = remaining (.leaf us) c :=
          (numUnprocessedDownsweep_label _ _).trans hrem
        refine ⟨⟨.leaf us, c', rfl, hgood', wfCursor_cons hus ?_⟩, ?_, ?_⟩
        · rw [hrights]
          exact hwf.rights
        · rw [hnum]
          exact Int.not_lt.mp hlast
        · rw [hnum, remaining_eq, remaining_eq]
          show (us.length : Int) + _ ≤ ((ps ++ us).length : Int) + _
          rw [List.length_append]
          omega
      by_cases hnil : ps = []
      · subst hnil
        refine ⟨.more (a, label f b (.leaf us), labelCtx f b c), η', ?_, hstop c hgood rfl⟩
        simp only [mcleaf'_ok hus, ok_bind, hnu, if_neg hlast, mcleaf_ok hcomm hus]
        rfl
      · obtain ⟨hleaf, hscan⟩ := scanned_leaf hcomm a (s := ps) hps
        rw [seq_scan_eq hcomm] at hleaf
        have hlen : (prefixes f a ps).length ≠ 0 := by
          rw [length_prefixes]
          exact fun h0 => hnil (List.eq_nil_of_length_eq_zero h0)
        have hps' : (downsweepWork M f).done a (.leaf ps) (.leaf (prefixes f a ps)) := hscan
        have hgood' := hgood.right (fun br hbr => (downsweepWork_ropeWork M f).leaf a ps us _ br hps' hbr)
          ((downsweepWork_ropeWork M f).adv_leaf a ps us)
        refine ⟨.more (ps.foldl f a, label f b (.leaf us), labelCtx f b (.right (.leaf (prefixes f a ps)) c)), η', ?_,
          hstop _ hgood' rfl⟩
        simp only [mcleaf'_ok hus, ok_bind, hnu, if_neg hlast, if_neg hlen, hleaf, mcleaf_ok hcomm hus]
        rfl

theorem downsweepUntil_returns (hcomm : ∀ x y, f x y = f y x) {Q : Rope α → Prop} {cur : DownCur α}
    (h : DownOpen M f b Q cur) (η : Answers) :
    ∃ res, Returns (fun n => downsweepUntil M f b n η cur) res ∧ Swept Q (DownStopped M f b Q (downLeft cur)) res := by
  obtain ⟨a, mcrp, mcc⟩ := cur
  obtain ⟨rp, c₀, hcur, hgood, hwf⟩ := h
  cases hcur
  have hnum : downLeft (a, label f b rp, labelCtx f b c₀) = remaining rp c₀ := numUnprocessedDownsweep_label rp c₀
  obtain ⟨x, c', hleft, hgood', hwf', -, hrem⟩ := leftmostLeaf_good (downsweepWork_ropeWork M f) hgood hwf
  rw [hnum]
  dsimp only [downsweepUntil]
  rw [leftmostMCLeaf_label, hleft]
  refine sweepUntil_returns
    (fun a s mcc => ∃ c, mcc = labelCtx f b c ∧ Good (downsweepWork M f) Q a (.leaf s) c ∧ WFCursor M (.leaf s) c ∧
      remaining (.leaf s) c ≤ remaining rp c₀)
    (fun a b' mcc => ∃ c, mcc = labelCtx f b c ∧ Ready (downsweepWork M f) Q c a b' ∧ (∀ x ∈ c.rights, x.WF M) ∧
      (c.rights.map Rope.length).sum ≤ remaining rp c₀)
    unvisitedMC ?_ ?_ ⟨c', rfl, hgood', hwf', Int.le_of_eq hrem⟩ η
  · intro η a xs mcc hopen
    obtain ⟨c, rfl, hgood, hwf, hle⟩ := hopen
    obtain ⟨res, η', hwork, hres⟩ := downsweepLeaf_ok (b := b) hcomm η hgood hwf
    refine ⟨res, η', hwork, ?_⟩
    cases res with
    | done tb =>
      obtain ⟨hstate, hdone⟩ := hres
      refine ⟨c, rfl, hstate ▸ hgood _ hdone, hwf.rights, ?_⟩
      rw [remaining_eq] at hle
      have hxs := hwf.focus.length_nonneg
      omega
    | more cur' => exact ⟨hres.1, hres.2.1, Int.le_trans hres.2.2 hle⟩
  · intro a b' mcc hclosed
    obtain ⟨c, rfl, hready, hrights, hle⟩ := hclosed
    rw [nextDownsweep, next_label]
    rcases next_leaf (downsweepWork_ropeWork M f) hready hrights with ⟨rp', hdone, hQ⟩ | ⟨x, c', hmore, hgood', hwf', hlt, hrem'⟩
    · rw [show next leftmostLeaf nccat2 b' c = _ from hdone]
      exact .inl ⟨rp', rfl, hQ⟩
    · rw [show next leftmostLeaf nccat2 b' c = _ from hmore]
      grind [unvisitedMC_label]

/-- At a split of this cursor, at most one piece left of the element has elements. -/
def StraightCursor (M : Int) (f : α → α → α) (b : α) (cur : DownCur α) : Prop :=
  StraightSplit mclength (cursorAtIxMC M f b) (cur.2.1 :: cur.2.2.rights) (downLeft cur / 2)

theorem straightCursor_label (hcomm : ∀ x y, f x y = f y x) {a : α} {c : GenCtx (Rope α) (Rope α)}
    (h : StraightCursor M f b (a, label f b rp, labelCtx f b c)) :
    StraightSplit Rope.length (cursorAtIx M) (rp :: c.rights) (remaining rp c / 2) := by
  intro rps1 m k rps2 mn u hdiv hat
  have hnum : downLeft (a, label f b rp, labelCtx f b c) = remaining rp c := numUnprocessedDownsweep_label rp c
  unfold StraightCursor at h
  rw [hnum] at h
  dsimp only at h
  rw [rights_label, ← List.map_cons] at h
  have hpair := h _ _ _ _ _ _ (divide_label hdiv) (cursorAtIxMC_label hcomm hat)
  refine (List.pairwise_map.mp hpair).imp ?_
  intro x y hxy
  rwa [mclength_label, mclength_label] at hxy

section
variable (hassoc : ∀ x y z, f (f x y) z = f x (f y z)) (hcomm : ∀ x y, f x y = f y x) (hleft : ∀ x, f b x = x)
include hassoc hcomm hleft

theorem splitDownsweep_ok (lib : Lib) {Q : Rope α → Prop} {cur : DownCur α} (h : DownOpen M f b Q cur)
    (h2 : 2 ≤ downLeft cur) (hlib : lib = .rope ∨ StraightCursor M f b cur) :
    ∃ cur1 cur2 reb Q1 Q2, splitDownsweep M lib f b cur = .ok (cur1, cur2, reb) ∧ DownOpen M f b Q1 cur1 ∧
      DownOpen M f b Q2 cur2 ∧ downLeft cur1 = downLeft cur / 2 ∧ downLeft cur2 = downLeft cur - downLeft cur / 2 ∧
      ∀ b1 b2, Q1 b1 → Q2 b2 → ∃ rp', joinRopes lib decodeRope finishDownsweep b1 b2 reb = .ok rp' ∧ Q rp' := by
  obtain ⟨a, mcrp, mcc⟩ := cur
  obtain ⟨rp, c, hcur, hgood, hwf⟩ := h
  cases hcur
  have hw := downsweepWork_ropeWork M f
  have hnum : ∀ a (rp : Rope α) (c : GenCtx (Rope α) (Rope α)), downLeft (a, label f b rp, labelCtx f b c) = remaining rp c :=
    fun _ rp c => numUnprocessedDownsweep_label rp c
  rw [hnum] at h2
  have hord : lib = .rope ∨
      Exchanges (downsweepWork M f) Rope.length (Rope.WF M) (cursorAtIx M) (rp :: c.rights) (remaining rp c / 2) :=
    hlib.imp_right fun hstraight =>
      (straightCursor_label hcomm hstraight).exchanges fun x y hx hy hempty => downswept_swap hx hy hempty
  obtain ⟨e1, e2, reb, hsplit, hwf1, hwf2, hlen1, hlen2, -, hjoin⟩ := splitAt_ropes lib finishDownsweep hw
    (fun _ _ _ _ _ _ h => h) (fun _ => rfl) decodeRope_one decodeRope_nccat2 hgood hwf (by omega) (by omega) hord
  obtain ⟨x1, c1, hstart1, hgood1, hwfc1, hrem1⟩ := start_good hw (Q := (downsweepWork M f).done a e1) (s := a) hwf1
    fun _ hb => hb
  obtain ⟨x2, c2, hstart2, hgood2, hwfc2, hrem2⟩ := start_good hw (s := e1.toList.foldl f a)
    (Q := (downsweepWork M f).done (e1.toList.foldl f a) e2) hwf2 fun _ hb => hb
  refine ⟨(a, label f b (.leaf x1), labelCtx f b c1), (e1.toList.foldl f a, label f b (.leaf x2), labelCtx f b c2), reb, _, _,
    ?_, ⟨_, c1, rfl, hgood1, hwfc1⟩, ⟨_, c2, rfl, hgood2, hwfc2⟩, ?_, ?_, hjoin⟩
  · have hmid : numUnprocessedDownsweep (label f b rp) (labelCtx f b c) = remaining rp c := numUnprocessedDownsweep_label rp c
    simp only [splitDownsweep, hmid, splitAt_label hcomm lib hsplit, ok_bind, startMC_label hstart1, startMC_label hstart2,
      advance_label hassoc hcomm hleft]
    rfl
  · rw [hnum, hnum, hrem1, hlen1]
  · rw [hnum, hnum, hrem2, hlen2]

/-- The downsweep of a labelled rope, under a schedule whose splits are straight where the order matters. -/
theorem downsweepLTS_returns (lib : Lib) (PPT : Int) (h : rp.WF M) (σ : Schedule)
    (hstraight : ∀ x, Interrupted (downsweepUntil M f b) (fun _ => splitDownsweep M lib f b) σ (b, label f b rp, .top) x →
      lib = .rope ∨ StraightCursor M f b x) :
    ∃ rp', Returns (fun n => downsweepLTS M lib PPT f b n σ (label f b rp)) rp' ∧ Scanned M f b rp rp' := by
  have hopen : DownOpen M f b (Scanned M f b rp) (b, label f b rp, .top) :=
    ⟨rp, .top, rfl, good_top fun _ hb => downswept_spec hb, wfCursor_cons h nofun⟩
  refine lazySplit_returns (fun cur => lib = .rope ∨ StraightCursor M f b cur) (DownOpen M f b)
    (fun Q cur => DownOpen M f b Q cur ∧ 2 ≤ downLeft cur) (fun cur => (downLeft cur).toNat) ?_ ?_ hopen σ hstraight
  · intro Q cur η hopen
    obtain ⟨res, hret, hres⟩ := downsweepUntil_returns hcomm hopen η
    refine ⟨res, hret, ?_⟩
    cases res with
    | done rp' => exact hres
    | more cur' =>
      obtain ⟨hopen', h2, hle⟩ := hres
      exact ⟨⟨hopen', h2⟩, by omega⟩
  · intro Q cur hopen hlib
    obtain ⟨hopen, h2⟩ := hopen
    obtain ⟨cur1, cur2, reb, Q1, Q2, hsplit, hopen1, hopen2, hlen1, hlen2, hjoin⟩ :=
      splitDownsweep_ok hassoc hcomm hleft lib hopen h2 hlib
    exact ⟨cur1, cur2, reb, Q1, Q2, ⟨0, fun _ _ => hsplit⟩, hopen1, hopen2, by omega, by omega, hjoin⟩

theorem scanLTS_returns (lib : Lib) (PPT : Int) (h : rp.WF M) (σ σ' : Schedule)
    (hstraight : ∀ mcrp, Returns (fun n => upsweepLTS M lib PPT f b n σ rp) mcrp →
      ∀ x, Interrupted (downsweepUntil M f b) (fun _ => splitDownsweep M lib f b) σ' (b, mcrp, .top) x →
        lib = .rope ∨ StraightCursor M f b x) :
    ∃ rp', Returns (fun n => scanLTS M lib PPT f b n σ σ' rp) rp' ∧ Scanned M f b rp rp' := by
  obtain ⟨rp1, hret1, hwf1, hto1⟩ := upsweepLTS_returns hassoc hcomm hleft lib PPT h σ
  obtain ⟨rp', hret2, hwf, hto⟩ :=
    downsweepLTS_returns hassoc hcomm hleft lib PPT hwf1 σ' (hstraight _ hret1)
  exact ⟨rp', hret1.bind hret2, hwf, hto1 ▸ hto⟩

end

/-! ## Every policy -/

theorem scanSequential_returns (hcomm : ∀ x y, f x y = f y x) (h : rp.WF M) (b : α) :
    (∃ rp', scanSequential f b rp = .ok rp' ∧ Scanned M f b rp rp') ↔ ∀ s ∈ rp.leaves, s ≠ [] := by
  constructor
  · rintro ⟨rp', hok, -⟩ s hs rfl
    obtain ⟨res, hret, -⟩ := Fuel.of_bind_ok hok
    exact scanSequential'_fails hs b res hret
  · intro hne
    obtain ⟨rp', hret, hscan, -⟩ := scanSequential'_ok hcomm h hne b
    refine ⟨rp', ?_, hscan⟩
    rw [scanSequential, hret]
    rfl

/-- The exclusive prefixes of every well-formed rope, in a rope with right lengths and depths, under every schedule, if and
    only if a sequential scan meets no empty leaf, and an eager threshold is positive or not less than the length. -/
theorem scan_returns (policy : ChunkingPolicy) (f : α → α → α) (b : α) (hassoc : ∀ x y z, f (f x y) z = f x (f y z))
    (hcomm : ∀ x y, f x y = f y x) (hleft : ∀ x, f b x = x) (rp : Rope α) (h : rp.WF M) (σ σ' : Schedule) :
    (∃ rp', Returns (fun n => scan M .rope policy f b n σ σ' rp) rp' ∧ rp'.toList = prefixes f b rp.toList ∧
      rp'.length = rp.length ∧ rp'.ropeOK = true ∧ ∀ s ∈ rp'.leaves, (s.length : Int) ≤ M) ↔
    (policy = .sequential → ∀ s ∈ rp.leaves, s ≠ []) ∧ ∀ SST, policy = .ets SST → 1 ≤ SST ∨ rp.length ≤ SST := by
  constructor
  · rintro ⟨rp', ⟨N, hN⟩, hto, -, hok, hleaves⟩
    have hret := hN N (Nat.le_refl N)
    refine ⟨?_, ?_⟩
    · rintro rfl
      have hwf : rp'.WF M := (Rope.wf_iff_ropeOK rp').mpr ⟨hok, hleaves⟩
      exact (scanSequential_returns hcomm h b).mp ⟨rp', hret, hwf, hto⟩
    · rintro SST rfl
      by_contra hno
      obtain ⟨mcrp, hup, -⟩ := Fuel.of_bind_ok hret
      exact upsweepETS_fails (by omega) N h (by omega) mcrp hup
  · rintro ⟨hseq, hets⟩
    have hall : ∃ rp', Returns (fun n => scan M .rope policy f b n σ σ' rp) rp' ∧ Scanned M f b rp rp' := by
      cases policy with
      | sequential =>
        obtain ⟨rp', hret, hscan⟩ := (scanSequential_returns hcomm h b).mpr (hseq rfl)
        exact ⟨rp', ⟨0, fun _ _ => hret⟩, hscan⟩
      | ets SST => exact scanETS_returns hassoc hcomm hleft h (hets SST rfl)
      | lts PPT => exact scanLTS_returns hassoc hcomm hleft .rope PPT h σ σ' fun _ _ _ _ => .inl rfl
    obtain ⟨rp', hret, hscan⟩ := hall
    obtain ⟨hok, hleaves⟩ := (Rope.wf_iff_ropeOK rp').mp hscan.1
    exact ⟨rp', hret, hscan.2, hscan.length_eq h, hok, hleaves⟩

/-- An empty leaf under the smallest eager threshold. -/
theorem scan_returns_empty :
    (∃ rp', Returns (fun n => scan 2 .rope (.ets 1) (· + ·) (0 : Nat) n (fun _ _ => false) (fun _ _ => false)
        (.cat 3 2 (.cat 2 1 (.leaf []) (.leaf [4, 5])) (.leaf [6]))) rp' ∧ rp'.toList = [0, 4, 9] ∧ rp'.length = 3 ∧
      rp'.ropeOK = true ∧ ∀ s ∈ rp'.leaves, (s.length : Int) ≤ 2) ↔
    (ChunkingPolicy.ets 1 = .sequential → ∀ s ∈ [[], [4, 5], [6]], s ≠ []) ∧
      ∀ SST, ChunkingPolicy.ets 1 = .ets SST → 1 ≤ SST ∨ (3 : Int) ≤ SST :=
  scan_returns (.ets 1) (· + ·) (0 : Nat) Nat.add_assoc Nat.add_comm Nat.zero_add
    (.cat 3 2 (.cat 2 1 (.leaf []) (.leaf [4, 5])) (.leaf [6]))
    ⟨rfl, rfl, ⟨rfl, rfl, by show ((0 : Nat) : Int) ≤ 2; decide, by show ((2 : Nat) : Int) ≤ 2; decide⟩,
      by show ((1 : Nat) : Int) ≤ 2; decide⟩ (fun _ _ => false) (fun _ _ => false)

/-- The sequential scan of the same rope. -/
theorem scan_sequential_fails :
    ¬ ∃ rp', Returns (fun n => scan 2 .rope .sequential (· + ·) (0 : Nat) n (fun _ _ => false) (fun _ _ => false)
        (.cat 3 2 (.cat 2 1 (.leaf []) (.leaf [4, 5])) (.leaf [6]))) rp' ∧ rp'.toList = [0, 4, 9] := by
  rintro ⟨rp', ⟨N, hN⟩, -⟩
  cases hN N (Nat.le_refl N)

/-- Lazy `IntRope.scan` with addition: the exclusive prefix sums, in every run all of whose splits in the downsweep are
    straight; the sequential scan agrees unless it fails, on an empty leaf. -/
theorem scan_intRope (PPT : Int) (rp : Rope (BitVec 32)) (h : rp.WF M) (σ σ' : Schedule)
    (hstraight : ∀ mcrp, Returns (fun n => upsweepLTS M .intRope PPT (· + ·) 0 n σ rp) mcrp →
      ∀ x, Interrupted (downsweepUntil M (· + ·) 0) (fun _ => splitDownsweep M .intRope (· + ·) 0) σ' (0, mcrp, .top) x →
        StraightCursor M (· + ·) 0 x) :
    ∃ rp', Returns (fun n => scan M .intRope (.lts PPT) (· + ·) 0 n σ σ' rp) rp' ∧
      rp'.toList = prefixes (· + ·) 0 rp.toList ∧ rp'.ropeOK = true ∧ (∀ s ∈ rp'.leaves, (s.length : Int) ≤ M) ∧
      ((∃ rp'', Returns (fun n => scan M .intRope .sequential (· + ·) 0 n σ σ' rp) rp'' ∧ rp''.toList = rp'.toList) ↔
        ∀ s ∈ rp.leaves, s ≠ []) := by
  obtain ⟨rp', hret, hwf, hto⟩ := scanLTS_returns BitVec.add_assoc BitVec.add_comm BitVec.zero_add .intRope PPT h σ σ'
    fun mcrp hup x hx => .inr (hstraight mcrp hup x hx)
  obtain ⟨hok, hleaves⟩ := (Rope.wf_iff_ropeOK rp').mp hwf
  refine ⟨rp', hret, hto, hok, hleaves, ?_⟩
  constructor
  · rintro ⟨rp'', hseq, -⟩ s hs rfl
    obtain ⟨res, hret', -⟩ := Fuel.of_bind_ok hseq.of_const
    exact scanSequential'_fails hs 0 res hret'
  · intro hne
    obtain ⟨rp'', hseq, hscan⟩ := (scanSequential_returns BitVec.add_comm h 0).mpr hne
    exact ⟨rp'', ⟨0, fun _ _ => hseq⟩, hscan.2.trans hto.symm⟩

/-- One split, at the first element, with no piece left of it. -/
theorem scan_intRope_pair :
    ∃ rp', Returns (fun n => scan 2 .intRope (.lts 1) (· + ·) 0 n (fun _ _ => false) (fun path n => path = [] ∧ n = 0)
        (.cat 3 1 (.leaf [1]) (.leaf [2, 3]))) rp' ∧
      rp'.toList = prefixes (· + ·) (0 : BitVec 32) [1, 2, 3] ∧ rp'.ropeOK = true ∧ (∀ s ∈ rp'.leaves, (s.length : Int) ≤ 2) ∧
      ((∃ rp'', Returns (fun n => scan 2 .intRope .sequential (· + ·) 0 n (fun _ _ => false) (fun path n => path = [] ∧ n = 0)
        (.cat 3 1 (.leaf [1]) (.leaf [2, 3]))) rp'' ∧ rp''.toList = rp'.toList) ↔ ∀ s ∈ [[1], [2, 3]], s ≠ ([] : List (BitVec 32))) := by
  refine scan_intRope 1 (.cat 3 1 (.leaf [1]) (.leaf [2, 3]))
    ⟨rfl, rfl, by show ((1 : Nat) : Int) ≤ 2; decide, by show ((2 : Nat) : Int) ≤ 2; decide⟩ (fun _ _ => false)
    (fun path n => path = [] ∧ n = 0) ?_
  have returns : ∀ {β : Type} {g : Nat → Except Exn β} {r : β}, (∀ m, g (m + 4) = .ok r) → Returns g r := by
    intro β g r h
    refine ⟨4, fun n hn => ?_⟩
    obtain ⟨m, rfl⟩ : ∃ m, n = m + 4 := ⟨n - 4, by omega⟩
    exact h m
  intro mcrp hmcrp x hx
  obtain rfl := hmcrp.unique (returns (r := label (· + ·) 0 (.cat 3 1 (.leaf [1]) (.leaf [2, 3]))) fun m => rfl)
  cases hx with
  | here hret =>
    cases hret.unique (returns fun m => rfl)
    intro rps1 m k rps2 mn u hdiv hat
    cases hdiv
    cases hat
    exact List.Pairwise.nil
  | fst hret hsplit hint | snd hret hsplit hint =>
    cases hret.unique (returns fun m => rfl)
    cases hsplit.unique (returns fun m => rfl)
    cases hint with
    | here hret' | fst hret' | snd hret' => cases hret'.unique (returns fun m => rfl)

/-- Three leaves. -/
def threeLeaves : Rope (BitVec 32) := .cat 8 2 (.leaf [1]) (.cat 7 1 (.leaf [2]) (.leaf [3, 4, 5, 6, 7, 8]))

/-- Interrupted before the first element, the downsweep of three leaves splits at the fourth, with two pieces of the
    second part left of it: the third element is passed before the second. -/
theorem scan_intRope_swapped :
    Returns (fun n => (scan 512 .intRope (.lts 1) (· + ·) 0 n (fun _ _ => false) (fun path n => path = [] ∧ n = 0) threeLeaves).map
      Rope.toList) [0, 4, 1, 6, 10, 15, 21, 28] := by
  refine ⟨8, fun n hn => ?_⟩
  obtain ⟨m, rfl⟩ : ∃ m, n = m + 8 := ⟨n - 8, by omega⟩
  rfl

theorem scan_intRope_wrong : ¬ ∃ rp',
    Returns (fun n => scan 512 .intRope (.lts 1) (· + ·) 0 n (fun _ _ => false) (fun path n => path = [] ∧ n = 0) threeLeaves) rp' ∧
    rp'.toList = prefixes (· + ·) 0 threeLeaves.toList := by
  rintro ⟨rp', ⟨N, hN⟩, hto⟩
  have hmap : Returns (fun n => (scan 512 .intRope (.lts 1) (· + ·) 0 n (fun _ _ => false)
      (fun path n => path = [] ∧ n = 0) threeLeaves).map Rope.toList) rp'.toList :=
    ⟨N, fun n hn => congrArg (Except.map Rope.toList) (hN n hn)⟩
  have heq := scan_intRope_swapped.unique hmap
  rw [hto] at heq
  revert heq
  decide

end Manticore.Parray
