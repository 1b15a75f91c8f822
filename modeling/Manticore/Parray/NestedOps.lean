/-
  Manticore.Parray.NestedOps — flattened arrays do what nested lists do (see `Manticore.Parray.Nested`).

  Not always: a subscript of a segment is checked against the whole rope, a shape without a first or last leaf has no
  span, and an empty interval at the end of a leaf is refused.

  - `length_eq`, `nestedSub_right`: these are right of every array that holds a nested list.
  - `flatSub_right_iff`, `cleanWith_right_iff`: these just when the subscript or the interval is none of those above.
-/

import Manticore.Parray.Nested

namespace Manticore.Parray

open Fuel (Returns ok_bind)
open Shape (InOrder leavesAll values)

variable {α : Type}

/-! ## Arrays that hold a nested list -/

namespace FArray

structure Holds (M : Int) (a : FArray α) (v : Nested α) : Prop where
  wf : a.data.WF M
  inOrder : InOrder a.data.length a.shape.leaves
  value : a.shape.value a.data.toList = v

variable {M : Int} {a : FArray α} {v : Nested α}

variable {data : Rope α} {lo hi : Int} {t : Shape}

theorem Holds.flat (hwf : data.WF M) (hlo : 0 ≤ lo) (hle : lo ≤ hi) (hhi : hi ≤ data.length) :
    Holds M ⟨data, .lf lo hi⟩ (.flat (segment data.toList lo hi)) := by
  refine ⟨hwf, ⟨fun p hp => ?_, List.pairwise_singleton _ _⟩, rfl⟩
  rw [List.mem_singleton.mp hp]
  exact ⟨hlo, hle, hhi⟩

theorem segment_all (xs : List α) : segment xs 0 xs.length = xs := by
  rw [segment, Int.sub_zero, Int.toNat_natCast]
  exact List.take_length

/-- Another array joins at the end of the data. -/
theorem Holds.snoc {d : Rope α} {ts : List Shape} {vs : List (Nested α)} (h : Holds M ⟨data, .nd ts⟩ (.nest vs))
    (hd : Holds M ⟨d, t⟩ v) : Holds M ⟨ccat2 M data d, .nd (ts ++ [t.incrBy data.length])⟩ (.nest (vs ++ [v])) := by
  obtain ⟨hwf, hin, hvalue⟩ := h
  obtain ⟨hwf', hin', hvalue'⟩ := hd
  have hwf'' : (ccat2 M data d).WF M := wf_ccat2 hwf hwf'
  have hlen : (ccat2 M data d).length = data.length + d.length := by
    rw [hwf''.length_eq, toList_ccat2, List.length_append, hwf.length_eq, hwf'.length_eq]
    exact Int.natCast_add _ _
  have hnonneg : 0 ≤ data.length := hwf.length_nonneg
  have hnonneg' : 0 ≤ d.length := hwf'.length_nonneg
  have hshift : InOrder (ccat2 M data d).length (t.incrBy data.length).leaves :=
    hin'.shift data.length (by rw [hlen]; exact Int.le_of_eq (Int.add_comm _ _)) fun p hp => by
      have hp0 : 0 ≤ p.1 := (hin'.within p hp).1
      omega
  have hleaves : (Shape.nd (ts ++ [t.incrBy data.length])).leaves =
      (Shape.nd ts).leaves ++ (t.incrBy data.length).leaves := by
    show leavesAll (ts ++ [t.incrBy data.length]) = _
    rw [Shape.leavesAll_append, leavesAll, leavesAll, List.append_nil]
    rfl
  refine ⟨hwf'', ⟨fun p hp => ?_, ?_⟩, ?_⟩
  · rw [hleaves] at hp
    rcases List.mem_append.mp hp with hp | hp
    · have hp' := hin.within p hp
      grind
    · exact hshift.within p hp
  · rw [hleaves]
    refine List.pairwise_append.mpr ⟨hin.ordered, hshift.ordered, fun p hp q hq => ?_⟩
    have hp' : p.2 ≤ data.length := (hin.within p hp).2.2
    rw [Shape.leaves_incrBy] at hq
    obtain ⟨q', hq', rfl⟩ := List.mem_map.mp hq
    have hq0 := (hin'.within q' hq').1
    show p.2 ≤ q'.1 + data.length
    omega
  · have hin : InOrder data.toList.length (Shape.nd ts).leaves := hwf.length_eq ▸ hin
    have hin' : InOrder d.toList.length t.leaves := hwf'.length_eq ▸ hin'
    have hold : values (data.toList ++ d.toList) ts = vs :=
      Nested.nest.inj ((Shape.value_append d.toList (.nd ts) hin).trans hvalue)
    have hnew : Shape.value (data.toList ++ d.toList) (t.incrBy data.length) = v := by
      rw [hwf.length_eq, Shape.value_shift data.toList d.toList t hin']
      exact hvalue'
    show Nested.nest (values (ccat2 M data d).toList (ts ++ [t.incrBy data.length])) = _
    rw [toList_ccat2, Shape.values_append, hold, values, hnew, values]

/-! ## Length and subscripts -/

theorem length_eq (h : a.Holds M v) : a.length = v.length := by
  obtain ⟨data, shape⟩ := a
  obtain ⟨hwf, hin, rfl⟩ := h
  cases shape with
  | lf lo hi =>
    obtain ⟨h0, hle, hlen⟩ := hin.within (lo, hi) List.mem_cons_self
    have hlen' : data.length = data.toList.length := hwf.length_eq
    show hi - lo = ((segment data.toList lo hi).length : Int)
    rw [segment, List.length_take, List.length_drop]
    have hhi : hi ≤ data.length := hlen
    have hlo : 0 ≤ lo := h0
    have hlohi : lo ≤ hi := hle
    omega
  | nd ts =>
    show (ts.length : Int) = ((values data.toList ts).length : Int)
    rw [Shape.values_eq_map, List.length_map]

/-- The element at the subscript, or an error. -/
def SubRight (a : FArray α) (v : Nested α) (i : Int) : Prop := match v.flatSub i with
  | some x => a.flatSub i = .ok x
  | none => ∃ e, a.flatSub i = .error e

/-- A subscript outside the segment is also one outside the data. -/
def SubChecked (a : FArray α) (i : Int) : Prop := match a.shape with
  | .lf lo hi => (0 ≤ i ∧ i < hi - lo) ∨ lo + i < 0 ∨ a.data.length ≤ lo + i
  | .nd _ => True

theorem sub_in (hwf : data.WF M) {i : Int} (h0 : 0 ≤ i) (hi : i < data.length) :
    ∃ x, data.toList[i.toNat]? = some x ∧ sub data i = .ok x := by
  have hlen := hwf.length_eq
  have hget := List.getElem?_eq_getElem (l := data.toList) (i := i.toNat) (by omega)
  refine ⟨_, hget, ?_⟩
  rw [sub_eq hwf, if_pos h0, hget]

theorem sub_out (hwf : data.WF M) {i : Int} (h : i < 0 ∨ data.length ≤ i) : ∃ e, sub data i = .error e := by
  have hlen := hwf.length_eq
  rw [sub_eq hwf]
  by_cases h0 : 0 ≤ i
  · rw [if_pos h0, List.getElem?_eq_none (by omega)]
    exact ⟨_, rfl⟩
  · rw [if_neg h0]
    exact ⟨_, rfl⟩

theorem flatSub_right_iff (h : a.Holds M v) (i : Int) : SubRight a v i ↔ SubChecked a i := by
  obtain ⟨data, shape⟩ := a
  obtain ⟨hwf, hin, rfl⟩ := h
  cases shape with
  | nd ts => exact ⟨fun _ => trivial, fun _ => ⟨_, rfl⟩⟩
  | lf lo hi =>
    obtain ⟨h0, hle, hhi⟩ : 0 ≤ lo ∧ lo ≤ hi ∧ hi ≤ data.length := hin.within (lo, hi) List.mem_cons_self
    have hwf : data.WF M := hwf
    have hlen := hwf.length_eq
    by_cases hseg : 0 ≤ i ∧ i < hi - lo
    · refine ⟨fun _ => .inl hseg, fun _ => ?_⟩
      obtain ⟨x, hget, hsub⟩ := sub_in hwf (i := lo + i) (by omega) (by omega)
      have hsome : (Shape.value data.toList (.lf lo hi)).flatSub i = some x := by
        show (if 0 ≤ i then (segment data.toList lo hi)[i.toNat]? else none) = some x
        have hidx : lo.toNat + i.toNat = (lo + i).toNat := by omega
        rw [if_pos hseg.1, segment, List.getElem?_take_of_lt (by omega), List.getElem?_drop, hidx, hget]
      rw [SubRight]
      grind [flatSub]
    · have hnone : (Shape.value data.toList (.lf lo hi)).flatSub i = none := by
        show (if 0 ≤ i then (segment data.toList lo hi)[i.toNat]? else none) = none
        by_cases hi0 : 0 ≤ i
        · rw [if_pos hi0, segment, List.getElem?_eq_none]
          rw [List.length_take]
          omega
        · rw [if_neg hi0]
      have hright : SubRight ⟨data, .lf lo hi⟩ (Shape.value data.toList (.lf lo hi)) i ↔
          ∃ e, sub data (lo + i) = .error e := by
        rw [SubRight]
        grind [flatSub]
      show SubRight ⟨data, .lf lo hi⟩ (Shape.value data.toList (.lf lo hi)) i ↔ _
      rw [hright]
      refine ⟨fun he => ?_, fun hc => sub_out hwf (hc.resolve_left hseg)⟩
      obtain ⟨e, he⟩ := he
      by_cases hout : lo + i < 0 ∨ data.length ≤ lo + i
      · exact .inr hout
      · obtain ⟨x, -, hsub⟩ := sub_in hwf (i := lo + i) (by omega) (by omega)
        cases he.symm.trans hsub

theorem nth_eq (ts : List Shape) (n : Nat) : match ts[n]? with
    | some t => nth ts n = .ok t
    | none => ∃ e, nth ts n = .error e := by
  induction ts generalizing n with
  | nil => cases n <;> exact ⟨_, rfl⟩
  | cons t ts ih =>
    cases n with
    | zero => rfl
    | succ n => exact ih n

/-- The array at the subscript, or an error. -/
def NestedSubRight (M : Int) (a : FArray α) (v : Nested α) (i : Int) : Prop := match v.nestedSub i with
  | some v' => ∃ a', a.nestedSub i = .ok a' ∧ Holds M a' v'
  | none => ∃ e, a.nestedSub i = .error e

theorem nestedSub_right (h : a.Holds M v) (i : Int) : NestedSubRight M a v i := by
  obtain ⟨data, shape⟩ := a
  obtain ⟨hwf, hin, rfl⟩ := h
  cases shape with
  | lf lo hi => exact ⟨_, rfl⟩
  | nd ts =>
    have hvalue : (Shape.value data.toList (.nd ts)).nestedSub i =
        if 0 ≤ i then (ts[i.toNat]?).map (Shape.value data.toList) else none := by
      show (if 0 ≤ i then (values data.toList ts)[i.toNat]? else none) = _
      rw [Shape.values_eq_map, List.getElem?_map]
    show match (Shape.value data.toList (.nd ts)).nestedSub i with
      | some v' => ∃ a', (⟨data, .nd ts⟩ : FArray α).nestedSub i = .ok a' ∧ Holds M a' v'
      | none => ∃ e, (⟨data, .nd ts⟩ : FArray α).nestedSub i = .error e
    rw [hvalue]
    by_cases h0 : 0 ≤ i
    · have hsub : (⟨data, .nd ts⟩ : FArray α).nestedSub i = nth ts i.toNat >>= fun t => .ok ⟨data, t⟩ := by
        simp only [nestedSub, if_pos (show i ≥ 0 from h0)]
        rfl
      rw [if_pos h0, hsub]
      have hnth := nth_eq ts i.toNat
      cases hget : ts[i.toNat]? with
      | none =>
        rw [hget] at hnth
        obtain ⟨e, he⟩ := hnth
        exact ⟨e, by rw [he]; rfl⟩
      | some t =>
        rw [hget] at hnth
        have hleaves := Shape.leaves_sublist (List.mem_of_getElem? hget)
        exact ⟨⟨data, t⟩, by rw [hnth]; rfl, hwf, hin.sublist hleaves, rfl⟩
    simp [nestedSub, h0]

/-! ## Clean -/

/-- The interval is not an empty one at the end of a leaf. -/
def Readable (data : Rope α) (lo hi : Int) : Prop := lo < hi ∨ lo ∉ data.ends

def Cleanable (a : FArray α) : Prop := match a.shape with
  | .lf lo hi => (lo = 0 ∧ hi = a.data.length) ∨ Readable a.data lo hi
  | .nd ts => ∃ lo hi, (Shape.nd ts).span = .ok (lo, hi) ∧ Readable a.data lo hi

/-- The data are what the shape spans. -/
structure Cleaned (M : Int) (a : FArray α) (v : Nested α) : Prop extends Holds M a v where
  span : a.shape.span = .ok (0, a.data.length)

theorem partialSeq_right {rp : Rope α} (h : rp.WF M) (hlo : 0 ≤ lo) (hle : lo ≤ hi) (hhi : hi ≤ rp.length) :
    (Readable rp lo hi → partialSeq rp lo hi = .ok (segment rp.toList lo hi)) ∧
      (¬ Readable rp lo hi → ∃ e, partialSeq rp lo hi = .error e) := by
  rcases Int.lt_or_eq_of_le hle with hlt | rfl
  · exact ⟨fun _ => partialSeq_eq h hlo hlt hhi, fun hn => absurd (.inl hlt) hn⟩
  · obtain ⟨hok, herr⟩ := partialSeq_empty h hlo hhi
    refine ⟨fun hr => ?_, fun hn => herr (Classical.not_not.mp fun he => hn (.inr he))⟩
    rw [hok (hr.resolve_left (Int.lt_irrefl lo)), segment, Int.sub_self]
    rfl

/-- The array on the data that its shape spans. -/
theorem Holds.cut {rp : Rope α} (h : Holds M ⟨data, t⟩ v) (hspan : t.span = .ok (lo, hi)) (hwf : rp.WF M)
    (hrp : rp.toList = segment data.toList lo hi) : Cleaned M ⟨rp, t.incrBy (-lo)⟩ v := by
  obtain ⟨hdata, hin, hvalue⟩ := h
  have hin : InOrder data.length t.leaves := hin
  obtain ⟨⟨h0, hle, hhi⟩, hbounds⟩ := Shape.span_bounds hin hspan
  have hdlen : data.length = data.toList.length := Rope.WF.length_eq hdata
  have hlen : rp.length = hi - lo := by
    rw [hwf.length_eq, hrp, segment, List.length_take, List.length_drop]
    omega
  have hin' : InOrder hi t.leaves := ⟨fun p hp => ⟨(hin.within p hp).1, (hbounds p hp).2⟩, hin.ordered⟩
  refine ⟨⟨hwf, ?_, ?_⟩, ?_⟩
  · refine hin'.shift (-lo) (by show hi + -lo ≤ rp.length; omega) fun p hp => ?_
    have hp0 := (hbounds p hp).1
    omega
  · grind [Shape.value_segment]
  · show (t.incrBy (-lo)).span = .ok (0, rp.length)
    rw [Shape.span_incrBy (-lo) hspan, Int.add_right_neg, hlen]
    rfl

/-- What `clean` does when it does not return the array as it is. -/
theorem cleanWith_cut (hspan : t.span = .ok (lo, hi)) (h0 : 0 ≤ lo)
    (hcut : ∀ lo hi, t = .lf lo hi → ¬ (lo = 0 ∧ hi = data.length)) (fromSeq : List α → Except Exn (Rope α))
    (bug : String) :
    cleanWith fromSeq bug ⟨data, t⟩ = partialSeq data lo hi >>= fun s => fromSeq s >>= fun rp => .ok
      ⟨rp, t.incrBy (-lo)⟩ := by
  unfold cleanWith
  cases t with
  | lf lo' hi' =>
    cases hspan
    show (if lo = 0 ∧ hi = data.length then _ else _) = _
    rw [if_neg (hcut lo hi rfl)]
    rw [Shape.incrBy, Int.add_right_neg]
    rfl
  | nd ts =>
    show ((Shape.nd ts).span >>= _) = _
    rw [hspan, ok_bind]
    by_cases hlo : lo = 0
    · subst hlo
      rw [Int.neg_zero, Shape.incrBy_zero]
      rfl
    · simp only [if_neg hlo, if_pos (show lo > 0 by omega)]
      rfl

theorem cleanWith_right_iff (h : a.Holds M v) {fromSeq : Nat → List α → Except Exn (Rope α)} {bug : String}
    (hseq : ∀ s, ∃ rp, Returns (fun n => fromSeq n s) rp ∧ rp.WF M ∧ rp.toList = s) :
    (∃ a', Returns (fun n => cleanWith (fromSeq n) bug a) a' ∧ Cleaned M a' v) ↔ Cleanable a := by
  obtain ⟨data, t⟩ := a
  have hin : InOrder data.length t.leaves := h.inOrder
  -- every array but the one that covers its data is cut out of them, when it has a span
  have hcutting : ∀ lo hi, t.span = .ok (lo, hi) → (∀ lo hi, t = .lf lo hi → ¬ (lo = 0 ∧ hi = data.length)) →
      ((∃ a', Returns (fun n => cleanWith (fromSeq n) bug ⟨data, t⟩) a' ∧ Cleaned M a' v) ↔ Readable data lo hi) := by
    intro lo hi hspan hcut
    obtain ⟨⟨h0, hle, hhi⟩, -⟩ := Shape.span_bounds hin hspan
    have heq := fun n => cleanWith_cut hspan h0 hcut (fromSeq n) bug
    obtain ⟨hok, herr⟩ := partialSeq_right h.wf h0 hle hhi
    refine ⟨fun hret => Classical.not_not.mp fun hn => ?_, fun hr => ?_⟩
    · obtain ⟨a', ⟨N, hN⟩, -⟩ := hret
      obtain ⟨e, he⟩ := herr hn
      have hcontra : cleanWith (fromSeq N) bug ⟨data, t⟩ = .ok a' := hN N (Nat.le_refl N)
      rw [heq, he] at hcontra
      cases hcontra
    · obtain ⟨rp, hrp, hrpwf, hlist⟩ := hseq (segment data.toList lo hi)
      refine ⟨⟨rp, t.incrBy (-lo)⟩, ?_, h.cut hspan hrpwf hlist⟩
      refine (hrp.bind (g := fun _ rp => .ok ⟨rp, t.incrBy (-lo)⟩) (.pure _)).congr fun n => ?_
      rw [heq, hok hr]
      rfl
  cases t with
  | nd ts =>
    show _ ↔ ∃ lo hi, (Shape.nd ts).span = .ok (lo, hi) ∧ Readable data lo hi
    cases hspan : (Shape.nd ts).span with
    | error e =>
      refine ⟨fun hret => ?_, fun ⟨_, _, he, _⟩ => nomatch he⟩
      obtain ⟨a', ⟨N, hN⟩, -⟩ := hret
      have hcontra := hN N (Nat.le_refl N)
      unfold cleanWith at hcontra
      simp only [hspan] at hcontra
      cases hcontra
    | ok p =>
      rw [hcutting p.1 p.2 hspan nofun]
      grind
  | lf lo hi =>
    show _ ↔ (lo = 0 ∧ hi = data.length) ∨ Readable data lo hi
    by_cases hall : lo = 0 ∧ hi = data.length
    · refine ⟨fun _ => .inl hall, fun _ => ⟨⟨data, .lf lo hi⟩, ⟨0, fun n _ => if_pos hall⟩, h, ?_⟩⟩
      obtain ⟨rfl, rfl⟩ := hall
      rfl
    · rw [hcutting lo hi rfl fun lo' hi' he => by cases he; exact hall]
      exact ⟨.inr, fun hc => hc.resolve_left hall⟩

end FArray

end Manticore.Parray
