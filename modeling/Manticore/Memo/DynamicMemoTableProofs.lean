/-
  Manticore.Memo.DynamicMemoTableProofs — what `find` answers (see
  `Manticore.Memo.DynamicMemoTable`).

  `Inv` holds along the runs that meet the conditions: each entry is in its key's bucket,
  the slots of a bucket fill from the first one on, and what counts is what the slots hold.
  Under the conditions `initBucket` changes uninitialised slots only (`Table.Inits`), and an
  insertion fills one slot of the key's bucket and nothing else (`Puts`). In every run what `find` answers has been
  inserted (`find_inserted`).
-/

import Manticore.Memo.DynamicMemoTableSlots

namespace Manticore.Memo.DynamicMemoTable

variable {α : Type}

/-! ## The invariant -/

open Table

/-- Every entry is in its key's bucket and has the value that counts, and each value that
counts has an entry. -/
structure Inv (s : St α) : Prop where
  segs : 1 ≤ s.table.segments ∧ s.table.segments ≤ maxSegments
  alloc : ∀ i < s.table.segments, s.table.allSegments i ≠ none
  proper : ∀ j < capacity s.table.segments, ∀ i < buckets, ∀ age k v, s.table.slot j i = some (.entry age k v) →
    s.table.bucketOf k = j ∧ s.latest k = some v
  found : ∀ k v, s.latest k = some v → ∃ i < buckets, ∃ age, s.table.slot (s.table.bucketOf k) i = some (.entry age k v)
  packed : ∀ j < capacity s.table.segments, s.table.Packed j
  distinct : ∀ j < capacity s.table.segments, ∀ i < buckets, ∀ i' < buckets, ∀ k,
    s.table.keyAt j i = some k → s.table.keyAt j i' = some k → i = i'
  inserted : ∀ k v, s.latest k = some v → (k, v) ∈ s.inserted

variable {s : St α}

theorem slot_init {j : Nat} (hj : j < capacity 1) (i : Nat) : (mkTable : Table α).slot j i = some .uninit := by
  have hj0 : j / bucketSize = 0 := Nat.lt_one_iff.1 (div_lt hj)
  simp only [mkTable, slot, hj0, if_true, Option.map_some]

theorem inv_init : Inv (St.init : St α) := by
  have hkey : ∀ j < capacity 1, ∀ i, (mkTable : Table α).keyAt j i = none := fun j hj i => by rw [keyAt, slot_init hj]
  refine ⟨⟨Nat.le_refl 1, show 1 ≤ maxSegments by decide⟩, fun i hi => ?_, fun j hj i _ age k v h => ?_, (by rintro _ _ ⟨⟩),
    fun j hj i i' _ _ _ => hkey j hj i', fun j hj i _ i' _ k h => ?_, (by rintro _ _ ⟨⟩)⟩
  · have hi0 : i = 0 := Nat.lt_one_iff.1 hi
    subst hi0
    exact Option.some_ne_none _
  · have := (slot_init hj i).symm.trans h
    cases this
  · have := (hkey j hj i).symm.trans h
    cases this

theorem bucketOf_lt (h : Inv s) (key : Int) : s.table.bucketOf key < capacity s.table.segments := by
  refine Nat.mod_lt _ ?_
  rw [capacity_eq]
  exact Nat.mul_pos (by decide) h.segs.1

theorem Inv.slots (h : Inv s) {j : Nat} (hj : j < capacity s.table.segments) (i : Nat) : ∃ e, s.table.slot j i = some e :=
  slot_some h.alloc hj i

theorem Inv.below (h : Inv s) {j : Nat} (hj : j < capacity s.table.segments) : j / bucketSize < maxSegments :=
  Nat.lt_of_lt_of_le (div_lt hj) h.segs.2

/-- What counts has not changed, nor have the keys and values of the slots. -/
theorem Inv.same (h : Inv s) {t : Table α} (hseg : t.segments = s.table.segments)
    (halloc : ∀ i, t.allSegments i = none ↔ s.table.allSegments i = none)
    (hentry : ∀ j < capacity s.table.segments, ∀ i < buckets, ∀ k v,
      (∃ age, t.slot j i = some (.entry age k v)) ↔ ∃ age, s.table.slot j i = some (.entry age k v)) :
    Inv { s with table := t } := by
  have hbucket : ∀ k, t.bucketOf k = s.table.bucketOf k := fun k => by rw [bucketOf, bucketOf, hseg]
  have hkey : ∀ j < capacity s.table.segments, ∀ i < buckets, ∀ k, t.keyAt j i = some k ↔ s.table.keyAt j i = some k := by
    intro j hj i hi k
    rw [keyAt_some, keyAt_some]
    constructor
    · rintro ⟨age, v, hs⟩
      obtain ⟨age', hs'⟩ := (hentry j hj i hi k v).1 ⟨age, hs⟩
      exact ⟨age', v, hs'⟩
    · rintro ⟨age, v, hs⟩
      obtain ⟨age', hs'⟩ := (hentry j hj i hi k v).2 ⟨age, hs⟩
      exact ⟨age', v, hs'⟩
  have hnone : ∀ j < capacity s.table.segments, ∀ i < buckets, t.keyAt j i = none ↔ s.table.keyAt j i = none := by
    intro j hj i hi
    rw [Option.eq_none_iff_forall_ne_some, Option.eq_none_iff_forall_ne_some]
    exact forall_congr' fun k => not_congr (hkey j hj i hi k)
  refine ⟨by rw [hseg]; exact h.segs, fun i hi => ?_, ?_, ?_, ?_, ?_, h.inserted⟩
  · rw [hseg] at hi
    exact fun hno => h.alloc i hi ((halloc i).1 hno)
  · intro j hj i hi age k v hs
    rw [hseg] at hj
    obtain ⟨age', hs'⟩ := (hentry j hj i hi k v).1 ⟨age, hs⟩
    obtain ⟨hb, hl⟩ := h.proper j hj i hi age' k v hs'
    exact ⟨(hbucket k).trans hb, hl⟩
  · intro k v hl
    obtain ⟨i, hi, hs⟩ := h.found k v hl
    refine ⟨i, hi, ?_⟩
    show ∃ age, t.slot (t.bucketOf k) i = _
    rw [hbucket]
    exact (hentry _ (bucketOf_lt h k) i hi k v).2 hs
  · intro j hj i i' hii hi' hno
    rw [hseg] at hj
    rw [hnone j hj i' hi']
    exact h.packed j hj i i' hii hi' ((hnone j hj i (by omega)).1 hno)
  · intro j hj i hi i' hi' k hk hk'
    rw [hseg] at hj
    exact h.distinct j hj i hi i' hi' k ((hkey j hj i hi k).1 hk) ((hkey j hj i' hi' k).1 hk')

theorem Inv.inits (h : Inv s) {t : Table α} (hi : Inits s.table t) : Inv { s with table := t } := by
  refine h.same hi.segments hi.alloc fun j _ i hi' k v => ?_
  exact exists_congr fun age => hi.entry hi'

/-- A lookup answers with the value that counts. -/
theorem Inv.find (h : Inv s) {key : Int} (hok : FindOk s.table key) (now : Int) :
    ∃ t, s.table.find now key = .ok (t, s.latest key) ∧ Inv { s with table := t } := by
  have hj := bucketOf_lt h key
  obtain ⟨t₁, hinit, hinits, -⟩ := initBucket_quiet h.segs.1 h.segs.2 h.alloc hj hok
  have h₁ := h.inits hinits
  have hseg : t₁.segments = s.table.segments := hinits.segments
  have hj₁ : s.table.bucketOf key < capacity t₁.segments := by rwa [hseg]
  have hb₁ : t₁.bucketOf key = s.table.bucketOf key := by rw [bucketOf, bucketOf, hseg]
  have hfind : s.table.find now key = findEntry (s.table.bucketOf key / bucketSize)
      (s.table.bucketOf key % bucketSize * buckets) now key buckets t₁ 0 := by
    unfold Table.find
    simp only [findSegment_eq]
    show (do let t ← initBucket (hashOf key) s.table.segments s.table (s.table.bucketOf key); findEntry _ _ _ _ _ t _) = _
    rw [hinit]
    rfl
  rcases findEntry_spec now (h₁.below hj₁) (h₁.slots hj₁) (h₁.packed _ hj₁) (Nat.zero_add _)
    (fun i hi => absurd hi (Nat.not_lt_zero i)) with ⟨i, hi, age, v, hslot, hres⟩ | ⟨hno, hres⟩
  · have hv : s.latest key = some v := (h₁.proper _ hj₁ i hi age key v hslot).2
    have hres' := hfind.trans hres
    rw [← hv] at hres'
    refine ⟨_, hres', h₁.same rfl (store_alloc _ _ _) ?_⟩
    grind [slot_store]
  · refine ⟨t₁, hfind.trans ?_, h₁⟩
    rw [hres]
    cases hl : s.latest key with
    | none => rfl
    | some v =>
      obtain ⟨i, hi, age, hs⟩ := h₁.found key v hl
      exact absurd (keyAt_some.2 ⟨age, v, by rwa [hb₁] at hs⟩) (hno i hi)

/-- Slot `target` of the bucket takes the entry; nothing else changes, but for an empty segment. -/
structure Puts (t t' : Table α) (j target : Nat) (e : Entry α) : Prop where
  grown : t'.segments = t.segments ∨ maxCollisions < t.itemCount ∧ t.segments < maxSegments ∧ t'.segments = t.segments + 1
  alloc : ∀ i < t'.segments, t'.allSegments i ≠ none
  small : target < buckets
  fills : t.Fills j target
  stored : t'.slot j target = some e
  kept : ∀ j' < capacity t.segments, ∀ i < buckets, ¬ (j' = j ∧ i = target) → ∀ age k v,
    t'.slot j' i = some (.entry age k v) ↔ t.slot j' i = some (.entry age k v)
  empty : ∀ j', capacity t.segments ≤ j' → j' < capacity t'.segments → ∀ i < buckets, t'.keyAt j' i = none

/-- Entries decide which slot an insertion fills. -/
theorem Fills.congr {t t' : Table α} {j target : Nat} (htarget : target < buckets)
    (hsame : ∀ i < buckets, ∀ age k v, t'.slot j i = some (.entry age k v) ↔ t.slot j i = some (.entry age k v))
    (h : t'.Fills j target) : t.Fills j target := by
  have hkey : ∀ i < buckets, t'.keyAt j i = none ↔ t.keyAt j i = none := by
    intro i hi
    rw [Option.eq_none_iff_forall_ne_some, Option.eq_none_iff_forall_ne_some]
    refine forall_congr' fun k => not_congr ?_
    rw [keyAt_some, keyAt_some]
    exact exists_congr fun age => exists_congr fun v => hsame i hi age k v
  have hevicts : ∀ i, t'.evicts j = some i → t.evicts j = some i := by
    intro i hev
    unfold evicts at hev ⊢
    split at hev
    · next age₀ k₀ v₀ age₁ k₁ v₁ h₀ h₁ =>
      rw [(hsame 0 (by decide) _ _ _).1 h₀, (hsame 1 (by decide) _ _ _).1 h₁]
      exact hev
    · cases hev
  rcases h with ⟨hnone, hbefore, hev⟩ | ⟨hev, hall⟩
  · refine .inl ⟨(hkey target htarget).1 hnone, fun i hi hno => hbefore i hi ((hkey i (by omega)).2 hno), ?_⟩
    grind [evicts, buckets]
  · exact .inr ⟨hevicts target hev, fun i hi hno => hall i hi ((hkey i hi).2 hno)⟩

theorem insert_puts (h : Inv s) {key : Int} (hquiet : FindOk s.table key) (now : Int) (item : α) :
    ∃ t target, s.table.insert now key item = .ok t ∧ Puts s.table t (s.table.bucketOf key) target (.entry now key item) := by
  have hj := bucketOf_lt h key
  obtain ⟨t₁, hinit, hinits, -⟩ := initBucket_quiet h.segs.1 h.segs.2 h.alloc hj hquiet
  have hseg : t₁.segments = s.table.segments := hinits.segments
  have halloc₁ : ∀ i < s.table.segments, t₁.allSegments i ≠ none := fun i hi hno => h.alloc i hi ((hinits.alloc i).1 hno)
  obtain ⟨-, hold, hnew⟩ := grow_slots t₁
  rw [hseg] at hold hnew
  have hslot : ∀ i, ∃ e, t₁.growIfNeeded.slot (s.table.bucketOf key) i = some e := fun i => by
    rw [hold _ hj]
    exact slot_some halloc₁ hj i
  obtain ⟨count, target, htarget, hfills, hres⟩ := insertEntry_spec (.entry now key item) (h.below hj) hslot
  have hsame : ∀ j' < capacity s.table.segments, ∀ i < buckets, ∀ age k v,
      t₁.growIfNeeded.slot j' i = some (.entry age k v) ↔ s.table.slot j' i = some (.entry age k v) := fun j' hj' i hi age k v => by
    rw [hold j' hj']
    exact hinits.entry hi
  let t : Table α := Table.store { t₁.growIfNeeded with itemCount := count } (s.table.bucketOf key / bucketSize)
    (s.table.bucketOf key % bucketSize * buckets + target) (.entry now key item)
  have hstore : ∀ j' i, i < buckets → t.slot j' i =
        if j' = s.table.bucketOf key ∧ i = target then (t₁.growIfNeeded.slot j' i).map fun _ => .entry now key item
        else t₁.growIfNeeded.slot j' i := fun j' i hi => slot_store (t := { t₁.growIfNeeded with itemCount := count }) _ htarget hi
  refine ⟨t, target, ?_, ?grown, ?alloc, htarget, Fills.congr htarget (hsame _ hj) hfills, ?stored, ?kept, ?empty⟩
  · unfold Table.insert
    simp only [findSegment_eq]
    show (do let t ← initBucket (hashOf key) s.table.segments s.table (s.table.bucketOf key); insertEntry _ _ _ _ t.growIfNeeded _ _ _ _) = _
    rw [hinit]
    exact hres
  case grown =>
    have hsegs : t.segments = t₁.growIfNeeded.segments := rfl
    rw [hsegs, ← hseg, ← hinits.itemCount]
    grind [growIfNeeded]
  case alloc =>
    intro i hi hno
    have hno' : t₁.growIfNeeded.allSegments i = none := (store_alloc _ _ _ i).1 hno
    have hi' : i < t₁.growIfNeeded.segments := hi
    unfold growIfNeeded at hno' hi'
    split at hno'
    · grind
    · next hcond =>
      rw [if_neg hcond] at hi'
      exact halloc₁ i (by omega) hno'
  case stored =>
    rw [hstore _ _ htarget, if_pos ⟨rfl, rfl⟩]
    obtain ⟨e, he⟩ := hslot target
    rw [he]
    rfl
  case kept =>
    intro j' hj' i hi hne age k v
    rw [hstore _ _ hi, if_neg hne]
    exact hsame j' hj' i hi age k v
  case empty =>
    intro j' hge hlt i hi
    have hne : ¬ (j' = s.table.bucketOf key ∧ i = target) := by
      rintro ⟨rfl, -⟩
      omega
    have hu := hnew j' hlt hge i
    rw [keyAt, hstore _ _ hi, if_neg hne, hu]

/-- An insertion makes the new value count, and the entry it overwrites counts no more. -/
theorem Inv.insert (h : Inv s) {key : Int} (hok : InsertOk s.table key) (now : Int) (item : α) :
    ∃ t, s.table.insert now key item = .ok t ∧
      Inv { table := t, latest := s.afterInsert key item, inserted := (key, item) :: s.inserted } := by
  obtain ⟨t, target, hres, hp⟩ := insert_puts h hok.quiet now item
  have hj := bucketOf_lt h key
  have hseg : s.table.segments ≤ t.segments := by
    rcases hp.grown with heq | ⟨-, -, heq⟩ <;> omega
  have hcap : capacity s.table.segments ≤ capacity t.segments := by
    rw [capacity_eq, capacity_eq]
    exact Nat.mul_le_mul_left _ hseg
  -- the key whose entry is overwritten is the one evicted
  have hover : ∀ k, s.table.keyAt (s.table.bucketOf key) target = some k →
      s.table.evicted (s.table.bucketOf key) = some k := by
    intro k hk
    rcases hp.fills with ⟨hnone, -, -⟩ | ⟨hev, -⟩
    · rw [hk] at hnone
      cases hnone
    · rw [evicted, hev]
      exact hk
  have hevict : ∀ k, s.table.evicted (s.table.bucketOf key) = some k →
      s.table.keyAt (s.table.bucketOf key) target = some k := by
    intro k hk
    rcases hp.fills with ⟨-, -, hev⟩ | ⟨hev, -⟩
    · rw [evicted, hev] at hk
      cases hk
    · rwa [evicted, hev] at hk
  -- the key itself is at the slot that is filled, if anywhere
  have hself : ∀ i < buckets, s.table.keyAt (s.table.bucketOf key) i = some key → i = target := by
    intro i hi hk
    have hev := hok.absent i hi hk
    rcases hp.fills with ⟨-, -, hno⟩ | ⟨hev', -⟩
    · rw [hno] at hev
      cases hev
    · rw [hev] at hev'
      exact Option.some.inj hev'
  have hkeyBucket : t.bucketOf key = s.table.bucketOf key := by
    rcases hp.grown with heq | ⟨hc, hm, heq⟩
    · rw [bucketOf, bucketOf, heq]
    · have := (hok.settled hc hm).1
      rwa [Settled, ← heq] at this
  have hbucket : ∀ j' < capacity s.table.segments, ∀ i < buckets, ∀ k, s.table.keyAt j' i = some k →
      ¬ (j' = s.table.bucketOf key ∧ i = target) → t.bucketOf k = s.table.bucketOf k := by
    intro j' hj' i hi k hk hne
    rcases hp.grown with heq | ⟨hc, hm, heq⟩
    · rw [bucketOf, bucketOf, heq]
    · have hset := (hok.settled hc hm).2 j' hj' i hi k hk fun hjeq hev => hne ⟨hjeq, ?_⟩
      · rwa [Settled, ← heq] at hset
      · rcases hp.fills with ⟨-, -, hno⟩ | ⟨hev', -⟩
        · rw [hjeq, hno] at hev
          cases hev
        · rw [hjeq, hev'] at hev
          exact (Option.some.inj hev).symm
  have hkey : ∀ j' < capacity s.table.segments, ∀ i < buckets, ¬ (j' = s.table.bucketOf key ∧ i = target) → ∀ k,
      t.keyAt j' i = some k ↔ s.table.keyAt j' i = some k := by
    intro j' hj' i hi hne k
    rw [keyAt_some, keyAt_some]
    exact exists_congr fun age => exists_congr fun v => hp.kept j' hj' i hi hne age k v
  have hnone : ∀ j' < capacity s.table.segments, ∀ i < buckets, ¬ (j' = s.table.bucketOf key ∧ i = target) →
      (t.keyAt j' i = none ↔ s.table.keyAt j' i = none) := by
    intro j' hj' i hi hne
    rw [Option.eq_none_iff_forall_ne_some, Option.eq_none_iff_forall_ne_some]
    exact forall_congr' fun k => not_congr (hkey j' hj' i hi hne k)
  have hput : t.keyAt (s.table.bucketOf key) target = some key := keyAt_some.2 ⟨now, item, hp.stored⟩
  refine ⟨t, hres, ?segs, hp.alloc, ?proper, ?found, ?packed, ?distinct, ?inserted⟩
  case segs =>
    have := h.segs
    show 1 ≤ t.segments ∧ t.segments ≤ maxSegments
    rcases hp.grown with heq | ⟨-, hm, heq⟩ <;> omega
  case proper =>
    intro j' hj' i hi age k v hs
    show t.bucketOf k = j' ∧ s.afterInsert key item k = some v
    rcases Nat.lt_or_ge j' (capacity s.table.segments) with hlt | hge
    · by_cases hpos : j' = s.table.bucketOf key ∧ i = target
      · obtain ⟨rfl, rfl⟩ := hpos
        rw [hp.stored] at hs
        cases hs
        exact ⟨hkeyBucket, if_pos rfl⟩
      · have hs' := (hp.kept j' hlt i hi hpos age k v).1 hs
        have hk' : s.table.keyAt j' i = some k := keyAt_some.2 ⟨age, v, hs'⟩
        obtain ⟨hb, hl⟩ := h.proper j' hlt i hi age k v hs'
        have hne : k ≠ key := by
          rintro rfl
          exact hpos ⟨hb.symm, hself i hi (by rwa [hb])⟩
        have hstay : ¬ s.table.evicted (s.table.bucketOf key) = some k := by
          intro hev
          have hk := hevict k hev
          obtain ⟨age', v', hs''⟩ := keyAt_some.1 hk
          have hb' := (h.proper _ hj target hp.small age' k v' hs'').1
          rw [← hb', hb] at hk
          have hi' := h.distinct j' hlt i hi target hp.small k hk' hk
          exact hpos ⟨by rw [← hb', hb], hi'⟩
        refine ⟨(hbucket j' hlt i hi k hk' hpos).trans hb, ?_⟩
        simp only [St.afterInsert, if_neg hne, if_neg hstay]
        exact hl
    · have := hp.empty j' hge hj' i hi
      rw [keyAt, hs] at this
      cases this
  case found =>
    intro k v hl
    show ∃ i < buckets, ∃ age, t.slot (t.bucketOf k) i = _
    have hl' : s.afterInsert key item k = some v := hl
    unfold St.afterInsert at hl'
    split at hl'
    · next heq =>
      subst heq
      cases hl'
      exact ⟨target, hp.small, now, by rw [hkeyBucket]; exact hp.stored⟩
    · split at hl'
      · cases hl'
      · next hstay =>
        obtain ⟨i, hi, age, hs⟩ := h.found k v hl'
        have hk : s.table.keyAt (s.table.bucketOf k) i = some k := keyAt_some.2 ⟨age, v, hs⟩
        have hne : ¬ (s.table.bucketOf k = s.table.bucketOf key ∧ i = target) := by
          rintro ⟨hb, rfl⟩
          rw [hb] at hk
          exact hstay (hover k hk)
        have hb := bucketOf_lt h k
        refine ⟨i, hi, age, ?_⟩
        rw [hbucket _ hb i hi k hk hne]
        exact (hp.kept _ hb i hi hne age k v).2 hs
  case packed =>
    intro j' hj' i i' hii hi' hno
    rcases Nat.lt_or_ge j' (capacity s.table.segments) with hlt | hge
    · have hne : ¬ (j' = s.table.bucketOf key ∧ i = target) := by
        rintro ⟨rfl, rfl⟩
        have := hput.symm.trans hno
        cases this
      have hold := (hnone j' hlt i (by omega) hne).1 hno
      by_cases hpos : j' = s.table.bucketOf key ∧ i' = target
      · obtain ⟨rfl, rfl⟩ := hpos
        rcases hp.fills with ⟨-, hbefore, -⟩ | ⟨-, hall⟩
        · exact absurd hold (hbefore i hii)
        · exact absurd hold (hall i (by omega))
      · exact (hnone j' hlt i' hi' hpos).2 (h.packed j' hlt i i' hii hi' hold)
    · exact hp.empty j' hge hj' i' hi'
  case distinct =>
    intro j' hj' i hi i' hi' k hk hk'
    rcases Nat.lt_or_ge j' (capacity s.table.segments) with hlt | hge
    · have hone : ∀ i₁ < buckets, ∀ i₂ < buckets, j' = s.table.bucketOf key ∧ i₁ = target → t.keyAt j' i₁ = some k →
          t.keyAt j' i₂ = some k → i₁ = i₂ := by
        grind
      by_cases hpos : j' = s.table.bucketOf key ∧ i = target
      · exact hone i hi i' hi' hpos hk hk'
      · by_cases hpos' : j' = s.table.bucketOf key ∧ i' = target
        · exact (hone i' hi' i hi hpos' hk' hk).symm
        · exact h.distinct j' hlt i hi i' hi' k ((hkey j' hlt i hi hpos k).1 hk) ((hkey j' hlt i' hi' hpos' k).1 hk')
    · have := (hp.empty j' hge hj' i hi).symm.trans hk
      cases this
  grind [inserted, St.afterInsert]

/-! ## The table answers with what was inserted last -/

/-- A lookup answers with the value inserted last for its key, while its entry has not been evicted,
which has been inserted under that key; an insertion succeeds; no key has two entries. -/
structure Correct (s : St α) : Prop where
  find : ∀ now key, FindOk s.table key → ∃ t, s.table.find now key = .ok (t, s.latest key)
  insert : ∀ now key item, InsertOk s.table key → ∃ t, s.table.insert now key item = .ok t
  inserted : ∀ key value, s.latest key = some value → (key, value) ∈ s.inserted
  unique : ∀ j < capacity s.table.segments, ∀ i < buckets, ∀ j' < capacity s.table.segments, ∀ i' < buckets, ∀ key,
    s.table.keyAt j i = some key → s.table.keyAt j' i' = some key → j = j' ∧ i = i'

theorem Inv.correct (h : Inv s) : Correct s where
  find := fun now _ hok => by
    obtain ⟨t, hres, -⟩ := h.find hok now
    exact ⟨t, hres⟩
  insert := fun now _ item hok => by
    obtain ⟨t, hres, -⟩ := h.insert hok now item
    exact ⟨t, hres⟩
  inserted := h.inserted
  unique := fun j hj i hi j' hj' i' hi' key hk hk' => by
    obtain ⟨age, v, hs⟩ := keyAt_some.1 hk
    obtain ⟨age', v', hs'⟩ := keyAt_some.1 hk'
    have hb := (h.proper j hj i hi age key v hs).1
    have hb' := (h.proper j' hj' i' hi' age' key v' hs').1
    have hjj : j = j' := hb.symm.trans hb'
    subst hjj
    exact ⟨rfl, h.distinct j hj i hi i' hi' key hk hk'⟩

/-- In a run whose steps meet the conditions, the table is correct in every state. -/
theorem memo_correct (h : Run s) : Correct s := by
  have hinv : Inv s := by
    induction h with
    | init => exact inv_init
    | insert now key item _ hok hres ih =>
      obtain ⟨t, hres', hinv⟩ := ih.insert hok now item
      rw [hres] at hres'
      cases hres'
      exact hinv
    | find now key _ hok hres ih =>
      obtain ⟨t, hres', hinv⟩ := ih.find hok now
      rw [hres] at hres'
      cases hres'
      exact hinv
  exact hinv.correct

/-- A key is inserted into the fresh table. -/
theorem memo_correct_one : ∃ s : St Nat, Correct s ∧ s.latest 1 = some 10 := by
  have hok : InsertOk (mkTable : Table Nat) 1 := by
    refine ⟨.inr (.inl rfl), fun i _ h => ?_, fun h => absurd h (Nat.not_lt_zero _)⟩
    rw [keyAt, slot_init (by decide)] at h
    cases h
  have h1 := Run.init.insert 1000 1 10 hok rfl
  exact ⟨_, memo_correct h1, rfl⟩

/-- A key inserted twice has two entries, and the first value is found. -/
theorem insert_twice : ∃ s : St Nat, Reach s ∧ s.latest 1 = some 20 ∧ FindOk s.table 1 ∧
    (∃ t, s.table.find 1002 1 = .ok (t, some 10)) ∧ s.table.keyAt (s.table.bucketOf 1) 0 = some 1 ∧
    s.table.keyAt (s.table.bucketOf 1) 1 = some 1 ∧ ¬ Correct s := by
  have h1 : Reach _ := (Reach.init (α := Nat)).step (.insert 1000 1 10 rfl)
  have h2 := h1.step (.insert 1001 1 20 rfl)
  refine ⟨_, h2, rfl, .inl fun e he hu => ?_, ⟨_, rfl⟩, rfl, rfl, fun h => ?_⟩
  · rw [hu] at he
    cases he
  · have hbucket : 114159 < capacity 1 := by decide
    have hone := (h.unique 114159 hbucket 0 (by decide) 114159 hbucket 1 (by decide) 1 rfl rfl).2
    cases hone

/-! ## What a lookup answers in any run -/

/-- The value of an entry has been inserted under its key. -/
@[grind] def Entry.Ok (l : List (Int × α)) : Entry α → Prop
  | .entry _ key value => (key, value) ∈ l
  | _ => True

def Sound (l : List (Int × α)) (t : Table α) : Prop := ∀ i seg o, t.allSegments i = some seg → (seg o).Ok l

section

variable {t t' : Table α} {l : List (Int × α)} {e : Entry α} {i o i' o' index index' n k next : Nat} {now key : Int}

theorem Sound.store (h : Sound l t) (he : e.Ok l) (i o : Nat) : Sound l (t.store i o e) := by
  intro j seg p hseg
  simp only [Table.store, Function.update_apply] at hseg
  split at hseg
  · obtain ⟨seg₀, hseg₀, rfl⟩ := Option.map_eq_some_iff.1 hseg
    rw [Function.update_apply]
    split
    · exact he
    · exact h i seg₀ p hseg₀
  · exact h j seg p hseg

theorem Sound.sub (h : Sound l t) (hsub : t.sub i o = .ok e) : e.Ok l := by
  obtain ⟨seg, hseg, hget⟩ := Fuel.of_bind_ok hsub
  have hok := h i seg o
  unfold Table.segment at hseg
  grind

theorem Sound.moved (h : Sound l t) (hres : maybeMoveItems i o index i' o' n k t index' next = .ok t') : Sound l t' := by
  induction k generalizing t index' next with
  | zero =>
    cases hres
    exact h.store (e := .init) trivial _ _
  | succ k ih =>
    obtain ⟨e, hsub, hres⟩ := Fuel.of_bind_ok hres
    have he := h.sub hsub
    grind [Sound.store]

theorem Sound.inited {hash : Nat} (h : Sound l t) (hres : initBucket hash n t index = .ok t') : Sound l t' := by
  induction n generalizing index t' with
  | zero => cases hres
  | succ n ih =>
    obtain ⟨e, -, hres⟩ := Fuel.of_bind_ok hres
    cases e with
    | init | entry =>
      cases hres
      exact h
    | uninit =>
      dsimp only at hres
      split at hres
      · cases hres
        exact h.store (e := .init) trivial _ _
      · obtain ⟨t₁, hrec, hres⟩ := Fuel.of_bind_ok hres
        exact (ih hrec).moved hres

theorem Sound.grown (h : Sound l t) : Sound l t.growIfNeeded := by
  unfold growIfNeeded
  split
  · intro i seg o hseg
    have hok := h i seg o
    grind [Function.update_apply]
  · exact h

theorem Sound.inserted {b : Bool} (h : Sound l t) (he : e.Ok l)
    (hres : insertEntry i o e k t index now o' b = .ok t') : Sound l t' := by
  induction k generalizing index now o' b with
  | zero =>
    cases hres
    exact Sound.store (t := { t with itemCount := _ }) h he _ _
  | succ k ih =>
    obtain ⟨e', -, hres⟩ := Fuel.of_bind_ok hres
    grind [Sound.store]

theorem Sound.found {r : Option α} (h : Sound l t) (hres : findEntry i o now key k t index = .ok (t', r)) :
    Sound l t' ∧ ∀ value ∈ r, (key, value) ∈ l := by
  induction k generalizing index with
  | zero =>
    cases hres
    exact ⟨h, by rintro _ ⟨⟩⟩
  | succ k ih =>
    obtain ⟨e, hsub, hres⟩ := Fuel.of_bind_ok hres
    have he := h.sub hsub
    grind [Sound.store]

end

/-- What is in the table has been inserted, and so has what a lookup answers. -/
theorem Reach.sound (h : Reach s) : Sound s.inserted s.table := by
  induction h with
  | init =>
    intro i seg o hseg
    grind [St.init, mkTable]
  | @step s _ _ hs ih =>
    cases hs with
    | insert now key item hres =>
      obtain ⟨t₁, hinit, hres⟩ := Fuel.of_bind_ok hres
      have hweak : Sound ((key, item) :: s.inserted) s.table := fun i seg o hseg => by
        have hok := ih i seg o hseg
        cases ho : seg o <;> grind
      exact (hweak.inited hinit).grown.inserted List.mem_cons_self hres
    | find now key hres =>
      obtain ⟨t₁, hinit, hres⟩ := Fuel.of_bind_ok hres
      exact ((ih.inited hinit).found hres).1

/-- In every run, whatever is moved or evicted, a lookup answers only with a value inserted under its key. -/
theorem find_inserted (h : Reach s) {t : Table α} {now key : Int} {value : α}
    (hres : s.table.find now key = .ok (t, some value)) : (key, value) ∈ s.inserted := by
  obtain ⟨t₁, hinit, hres⟩ := Fuel.of_bind_ok hres
  exact ((h.sound.inited hinit).found hres).2 value rfl

theorem find_inserted_one : ∃ s : St Nat, Reach s ∧ (1, 10) ∈ s.inserted := by
  have h := (Reach.init (α := Nat)).step (.insert 1000 1 10 rfl)
  exact ⟨_, h, @find_inserted Nat _ h _ 1001 1 10 rfl⟩

end Manticore.Memo.DynamicMemoTable
