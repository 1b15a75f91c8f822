/-
  Manticore.Parray.Nested — the nested list for which a flattened array stands (see `Manticore.Parray.FArray`).

  The leaves of the shape are intervals of the data, from left to right. An array holds a nested list when its rope is
  well formed, its intervals are within the data and in order, and the nested list is what they read.

  - `value_incrBy`: a shifted shape reads the same from data that have the same segments there.
  - `span_bounds`: the span of a shape, where it has one, covers its leaves.
  - `partialSeq_eq`, `partialSeq_empty`: the elements of an interval; an empty one is refused at the end of a leaf.
-/

import Manticore.Parray.FArray

namespace Manticore.Parray

open List (cons_append mem_cons_self mem_append_right length_drop drop_drop mem_map mem_append mem_singleton)

variable {α : Type}

inductive Nested (α : Type) where
  | flat (xs : List α)
  | nest (vs : List (Nested α))

namespace Nested

def length : Nested α → Int
  | flat xs => xs.length
  | nest vs => vs.length

def flatSub : Nested α → Int → Option α
  | flat xs, i => if 0 ≤ i then xs[i.toNat]? else none
  | nest _, _ => none

def nestedSub : Nested α → Int → Option (Nested α)
  | nest vs, i => if 0 ≤ i then vs[i.toNat]? else none
  | flat _, _ => none

end Nested

/-- The elements from `lo` inclusive to `hi` exclusive. -/
def segment (data : List α) (lo hi : Int) : List α := (data.drop lo.toNat).take (hi - lo).toNat

namespace Shape

mutual

/-- The intervals, from left to right. -/
def leaves : Shape → List (Int × Int)
  | lf lo hi => [(lo, hi)]
  | nd ts => leavesAll ts

def leavesAll : List Shape → List (Int × Int)
  | [] => []
  | t :: ts => leaves t ++ leavesAll ts

end

mutual

def value (data : List α) : Shape → Nested α
  | lf lo hi => .flat (segment data lo hi)
  | nd ts => .nest (values data ts)

def values (data : List α) : List Shape → List (Nested α)
  | [] => []
  | t :: ts => value data t :: values data ts

end

/-- The intervals lie in the data, in order. -/
structure InOrder (len : Int) (l : List (Int × Int)) : Prop where
  within : ∀ p ∈ l, 0 ≤ p.1 ∧ p.1 ≤ p.2 ∧ p.2 ≤ len
  ordered : l.Pairwise fun p q => p.2 ≤ q.1

/-! ## Children -/

theorem leavesAll_append (ts us : List Shape) : leavesAll (ts ++ us) = leavesAll ts ++ leavesAll us := by
  induction ts with
  | nil => rfl
  | cons t ts ih => rw [cons_append, leavesAll, leavesAll, ih, List.append_assoc]

theorem values_append (data : List α) (ts us : List Shape) : values data (ts ++ us) = values data ts ++ values data us := by
  induction ts with
  | nil => rfl
  | cons t ts ih => rw [cons_append, values, values, ih, cons_append]

theorem values_eq_map (data : List α) (ts : List Shape) : values data ts = ts.map (value data) := by
  induction ts with
  | nil => rfl
  | cons t ts ih => rw [values, ih, List.map_cons]

theorem leaves_sublist {t : Shape} {ts : List Shape} (h : t ∈ ts) : t.leaves.Sublist (leavesAll ts) := by
  induction ts with
  | nil => cases h
  | cons u ts ih =>
    rw [leavesAll]
    grind

theorem InOrder.sublist {len : Int} {l l' : List (Int × Int)} (h : InOrder len l) (hl : l'.Sublist l) : InOrder len l' :=
  ⟨fun p hp => h.within p (hl.subset hp), h.ordered.sublist hl⟩

/-! ## Shifting -/

mutual

theorem leaves_incrBy (i : Int) (t : Shape) : (t.incrBy i).leaves = t.leaves.map fun p => (p.1 + i, p.2 + i) := by
  cases t with
  | lf lo hi => rfl
  | nd ts => exact leavesAll_incrBys i ts

theorem leavesAll_incrBys (i : Int) (ts : List Shape) :
    leavesAll (incrBys i ts) = (leavesAll ts).map fun p => (p.1 + i, p.2 + i) := by
  cases ts with
  | nil => rfl
  | cons t ts => rw [incrBys, leavesAll, leavesAll, List.map_append, leaves_incrBy i t, leavesAll_incrBys i ts]

end

mutual

/-- A shifted shape reads what the shape does where the segments are the same. -/
theorem value_incrBy {data data' : List α} (i : Int) (t : Shape)
    (h : ∀ p ∈ t.leaves, segment data' (p.1 + i) (p.2 + i) = segment data p.1 p.2) :
    value data' (t.incrBy i) = value data t := by
  cases t with
  | lf lo hi => exact congrArg Nested.flat (h (lo, hi) mem_cons_self)
  | nd ts => exact congrArg Nested.nest (values_incrBys i ts h)

theorem values_incrBys {data data' : List α} (i : Int) (ts : List Shape)
    (h : ∀ p ∈ leavesAll ts, segment data' (p.1 + i) (p.2 + i) = segment data p.1 p.2) :
    values data' (incrBys i ts) = values data ts := by
  cases ts with
  | nil => rfl
  | cons t ts =>
    rw [incrBys, values, values, value_incrBy i t fun p hp => h p (List.mem_append_left _ hp),
      values_incrBys i ts fun p hp => h p (mem_append_right _ hp)]

end

mutual

theorem incrBy_zero (t : Shape) : t.incrBy 0 = t := by
  cases t with
  | lf lo hi => rw [incrBy, Int.add_zero, Int.add_zero]
  | nd ts => rw [incrBy, incrBys_zero ts]

theorem incrBys_zero (ts : List Shape) : incrBys 0 ts = ts := by
  cases ts with
  | nil => rfl
  | cons t ts => rw [incrBys, incrBy_zero t, incrBys_zero ts]

end

/-- The same shape on data that begin as these do. -/
theorem value_append {data : List α} (data' : List α) (t : Shape) (h : InOrder data.length t.leaves) :
    value (data ++ data') t = value data t := by
  have hsame : value (data ++ data') (t.incrBy 0) = value data t := value_incrBy 0 t fun p hp => by
    obtain ⟨h0, hle, hlen⟩ := h.within p hp
    rw [segment, segment, Int.add_zero, Int.add_zero, List.drop_append_of_le_length (by omega),
      List.take_append_of_le_length (by rw [length_drop]; omega)]
  rw [incrBy_zero] at hsame
  exact hsame

/-- The shape on data that end as these do. -/
theorem value_shift (pre : List α) (data : List α) (t : Shape) (h : InOrder data.length t.leaves) :
    value (pre ++ data) (t.incrBy pre.length) = value data t := by
  refine value_incrBy _ t fun p hp => ?_
  obtain ⟨h0, hle, hlen⟩ := h.within p hp
  have hdrop : (p.1 + pre.length).toNat = pre.length + p.1.toNat := by omega
  grind [segment, drop_drop, List.drop_left]

/-- The shape on a segment of the data that covers it. -/
theorem value_segment (data : List α) (t : Shape) {lo hi : Int} (hlo : 0 ≤ lo)
    (h : ∀ p ∈ t.leaves, lo ≤ p.1 ∧ p.1 ≤ p.2 ∧ p.2 ≤ hi) : value (segment data lo hi) (t.incrBy (-lo)) = value data t := by
  refine value_incrBy _ t fun p hp => ?_
  obtain ⟨h0, hle, hlen⟩ := h p hp
  have hdrop : lo.toNat + (p.1 + -lo).toNat = p.1.toNat := by omega
  have htake : (p.2 + -lo - (p.1 + -lo)).toNat = (p.2 - p.1).toNat := by omega
  rw [segment, segment, segment, htake, List.drop_take, drop_drop, hdrop, List.take_take, Nat.min_eq_left (by omega)]

theorem InOrder.shift {len : Int} {t : Shape} (i : Int) (h : InOrder len t.leaves) {len' : Int} (hlen : len + i ≤ len')
    (h0 : ∀ p ∈ t.leaves, 0 ≤ p.1 + i) : InOrder len' (t.incrBy i).leaves := by
  rw [leaves_incrBy]
  refine ⟨fun p hp => ?_, ?_⟩
  · obtain ⟨q, hq, rfl⟩ := mem_map.mp hp
    obtain ⟨hq0, hqle, hqlen⟩ := h.within q hq
    have hpos := h0 q hq
    exact ⟨hpos, by omega, by omega⟩
  · refine List.pairwise_map.mpr (h.ordered.imp fun hpq => ?_)
    omega

/-! ## Spans -/

mutual

theorem minIdx_leaves {t : Shape} {m : Int} (h : t.minIdx = .ok m) : ∃ p l, t.leaves = (m, p) :: l := by
  cases t with
  | lf lo hi =>
    cases h
    exact ⟨hi, [], rfl⟩
  | nd ts => exact minIdxHd_leaves h

theorem minIdxHd_leaves {ts : List Shape} {m : Int} (h : minIdxHd ts = .ok m) : ∃ p l, leavesAll ts = (m, p) :: l := by
  cases ts with
  | nil => cases h
  | cons t ts =>
    obtain ⟨p, l, hl⟩ := minIdx_leaves (t := t) h
    exact ⟨p, l ++ leavesAll ts, by rw [leavesAll, hl, cons_append]⟩

end

mutual

theorem maxIdx_leaves {t : Shape} {m : Int} (h : t.maxIdx = .ok m) : ∃ p l, t.leaves = l ++ [(p, m)] := by
  cases t with
  | lf lo hi =>
    cases h
    exact ⟨lo, [], rfl⟩
  | nd ts => exact maxIdxLast_leaves h

theorem maxIdxLast_leaves {ts : List Shape} {m : Int} (h : maxIdxLast ts = .ok m) :
    ∃ p l, leavesAll ts = l ++ [(p, m)] := by
  cases ts with
  | nil => cases h
  | cons t ts =>
    cases ts with
    | nil =>
      obtain ⟨p, l, hl⟩ := maxIdx_leaves (t := t) h
      exact ⟨p, l, by rw [leavesAll, hl, leavesAll, List.append_nil]⟩
    | cons u us =>
      have hlast : maxIdxLast (u :: us) = .ok m := h
      obtain ⟨p, l, hl⟩ := maxIdxLast_leaves hlast
      exact ⟨p, t.leaves ++ l, by rw [leavesAll, hl, List.append_assoc]⟩

end

mutual

theorem minIdx_incrBy {t : Shape} {m : Int} (i : Int) (h : t.minIdx = .ok m) : (t.incrBy i).minIdx = .ok (m + i) := by
  cases t with
  | lf lo hi =>
    cases h
    rfl
  | nd ts => exact minIdxHd_incrBys i h

theorem minIdxHd_incrBys {ts : List Shape} {m : Int} (i : Int) (h : minIdxHd ts = .ok m) :
    minIdxHd (incrBys i ts) = .ok (m + i) := by
  cases ts with
  | nil => cases h
  | cons t ts => exact minIdx_incrBy (t := t) i h

end

mutual

theorem maxIdx_incrBy {t : Shape} {m : Int} (i : Int) (h : t.maxIdx = .ok m) : (t.incrBy i).maxIdx = .ok (m + i) := by
  cases t with
  | lf lo hi =>
    cases h
    rfl
  | nd ts => exact maxIdxLast_incrBys i h

theorem maxIdxLast_incrBys {ts : List Shape} {m : Int} (i : Int) (h : maxIdxLast ts = .ok m) :
    maxIdxLast (incrBys i ts) = .ok (m + i) := by
  cases ts with
  | nil => cases h
  | cons t ts =>
    cases ts with
    | nil => exact maxIdx_incrBy (t := t) i h
    | cons u us =>
      have hlast : maxIdxLast (u :: us) = .ok m := h
      have hincr := maxIdxLast_incrBys i hlast
      exact hincr

end

theorem span_ok {t : Shape} {lo hi : Int} (h : t.span = .ok (lo, hi)) : t.minIdx = .ok lo ∧ t.maxIdx = .ok hi := by
  unfold span at h
  cases hmin : t.minIdx with
  | error e =>
    rw [hmin] at h
    cases h
  | ok lo' =>
    cases hmax : t.maxIdx with
    | error e =>
      rw [hmin, hmax] at h
      cases h
    | ok hi' =>
      rw [hmin, hmax] at h
      cases h
      exact ⟨rfl, rfl⟩

theorem span_incrBy {t : Shape} {lo hi : Int} (i : Int) (h : t.span = .ok (lo, hi)) :
    (t.incrBy i).span = .ok (lo + i, hi + i) := by
  obtain ⟨hmin, hmax⟩ := span_ok h
  unfold span
  rw [minIdx_incrBy i hmin, maxIdx_incrBy i hmax]
  rfl

/-- The span covers the leaves. -/
theorem span_bounds {len : Int} {t : Shape} {lo hi : Int} (h : InOrder len t.leaves) (hspan : t.span = .ok (lo, hi)) :
    (0 ≤ lo ∧ lo ≤ hi ∧ hi ≤ len) ∧ ∀ p ∈ t.leaves, lo ≤ p.1 ∧ p.1 ≤ p.2 ∧ p.2 ≤ hi := by
  obtain ⟨hmin, hmax⟩ := span_ok hspan
  obtain ⟨p, l, hl⟩ := minIdx_leaves hmin
  obtain ⟨q, l', hl'⟩ := maxIdx_leaves hmax
  have hall : ∀ r ∈ t.leaves, lo ≤ r.1 ∧ r.1 ≤ r.2 ∧ r.2 ≤ hi := fun r hr => by
    have hr' := h.within r hr
    refine ⟨?_, hr'.2.1, ?_⟩
    · have hord := h.ordered
      rw [hl] at hord hr
      rcases List.mem_cons.mp hr with rfl | hr
      · exact Int.le_refl _
      · have hfirst := (List.pairwise_cons.mp hord).1 r hr
        have hp := h.within (lo, p) (by rw [hl]; exact mem_cons_self)
        omega
    · have hord := h.ordered
      rw [hl'] at hord hr
      rcases mem_append.mp hr with hr | hr
      · have hlast := (List.pairwise_append.mp hord).2.2 r hr (q, hi) mem_cons_self
        have hq := h.within (q, hi) (by rw [hl']; exact mem_append_right _ mem_cons_self)
        omega
      · rw [mem_singleton.mp hr]
  have hfirst := hall (lo, p) (by rw [hl]; exact mem_cons_self)
  have hp := h.within (lo, p) (by rw [hl]; exact mem_cons_self)
  have hq := h.within (q, hi) (by rw [hl']; exact mem_append_right _ mem_cons_self)
  exact ⟨⟨hp.1, by omega, hq.2.2⟩, hall⟩

end Shape

/-! ## Intervals of a rope -/

/-- Where the leaves of the rope end. -/
def Rope.ends : Rope α → List Int
  | .leaf s => [s.length]
  | .cat _ _ l r => l.ends ++ r.ends.map (l.length + ·)

variable {M : Int}

theorem partialSeq_eq {rp : Rope α} (h : rp.WF M) {lo hi : Int} (hlo : 0 ≤ lo) (hlt : lo < hi) (hhi : hi ≤ rp.length) :
    partialSeq rp lo hi = .ok (segment rp.toList lo hi) := by
  induction rp generalizing lo hi with
  | leaf s =>
    have hhi : hi ≤ s.length := hhi
    rw [partialSeq, if_neg (by omega)]
    rfl
  | cat len d l r ihl ihr =>
    obtain ⟨hlen, -, hl, hr⟩ := h
    have hl' := hl.length_eq
    have hr' := hr.length_eq
    have hhi : hi ≤ len := hhi
    unfold partialSeq
    by_cases hleft : hi ≤ l.length
    · rw [if_pos hleft, ihl hl hlo hlt hleft]
      have hle : (hi - lo).toNat ≤ (l.toList.drop lo.toNat).length := by
        rw [length_drop]
        omega
      rw [segment, segment, Rope.toList, List.drop_append_of_le_length (by omega), List.take_append_of_le_length hle]
    · rw [if_neg hleft]
      by_cases hright : lo ≥ l.length
      · rw [if_pos hright, ihr hr (by omega) (by omega) (by omega)]
        have hdrop : lo.toNat = l.toList.length + (lo - l.length).toNat := by omega
        grind [segment, Rope.toList, drop_drop, List.drop_left]
      · rw [if_neg hright, ihl hl hlo (by omega) (Int.le_refl _), ihr hr (Int.le_refl _) (by omega) (by omega)]
        show Except.ok (segment l.toList lo l.length ++ segment r.toList 0 (hi - l.length)) = _
        have hsplit : (hi - lo).toNat = (l.toList.drop lo.toNat).length + (hi - l.length).toNat := by
          rw [length_drop]
          omega
        have hall : (l.toList.drop lo.toNat).length ≤ (l.length - lo).toNat := by
          rw [length_drop]
          omega
        rw [segment, segment, segment, Rope.toList, List.drop_append_of_le_length (by omega), hsplit,
          List.take_length_add_append, List.take_of_length_le hall, Int.sub_zero]
        rfl

theorem length_mem_ends {rp : Rope α} (h : rp.WF M) : rp.length ∈ rp.ends := by
  induction rp with
  | leaf s => exact mem_cons_self
  | cat len d l r _ ihr =>
    obtain ⟨hlen, -, -, hr⟩ := h
    exact mem_append_right _ (mem_map.mpr ⟨r.length, ihr hr, hlen.symm⟩)

theorem ends_bounds {rp : Rope α} (h : rp.WF M) {e : Int} (he : e ∈ rp.ends) : 0 ≤ e ∧ e ≤ rp.length := by
  induction rp generalizing e with
  | leaf s =>
    rw [mem_singleton.mp he]
    exact ⟨Int.natCast_nonneg _, Int.le_refl _⟩
  | cat len d l r ihl ihr =>
    obtain ⟨hlen, -, hl, hr⟩ := h
    have hnonneg := hr.length_nonneg
    show 0 ≤ e ∧ e ≤ len
    rcases mem_append.mp he with he | he
    · have hbound := ihl hl he
      omega
    · obtain ⟨e', he', rfl⟩ := mem_map.mp he
      have hbound := ihr hr he'
      have hnonneg' := hl.length_nonneg
      omega

/-- An empty interval. -/
theorem partialSeq_empty {rp : Rope α} (h : rp.WF M) {lo : Int} (hlo : 0 ≤ lo) (hhi : lo ≤ rp.length) :
    (lo ∉ rp.ends → partialSeq rp lo lo = .ok []) ∧ (lo ∈ rp.ends → ∃ e, partialSeq rp lo lo = .error e) := by
  induction rp generalizing lo with
  | leaf s =>
    have hhi : lo ≤ s.length := hhi
    rw [partialSeq]
    refine ⟨fun hne => ?_, fun he => ?_⟩
    · have hne : lo ≠ s.length := fun he => hne (mem_singleton.mpr he)
      rw [if_neg (by omega), Int.sub_self]
      rfl
    · have he : lo = s.length := mem_singleton.mp he
      exact ⟨_, if_pos (by omega)⟩
  | cat len d l r ihl ihr =>
    obtain ⟨hlen, -, hl, hr⟩ := h
    have hhi : lo ≤ len := hhi
    unfold partialSeq
    by_cases hleft : lo ≤ l.length
    · have hends : lo ∈ (Rope.cat len d l r).ends ↔ lo ∈ l.ends := by
        refine ⟨fun he => ?_, List.mem_append_left _⟩
        rcases mem_append.mp he with he | he
        · exact he
        grind [ends_bounds, length_mem_ends]
      rw [if_pos hleft, hends]
      exact ihl hl hlo hleft
    · have hends : lo ∈ (Rope.cat len d l r).ends ↔ lo - l.length ∈ r.ends := by
        refine ⟨fun he => ?_, fun he => ?_⟩
        · rcases mem_append.mp he with he | he
          · have hbound := ends_bounds hl he
            omega
          grind
        · refine mem_append_right _ (mem_map.mpr ⟨_, he, ?_⟩)
          omega
      rw [if_neg hleft, if_pos (by omega), hends]
      exact ihr hr (by omega) (by omega)

end Manticore.Parray
