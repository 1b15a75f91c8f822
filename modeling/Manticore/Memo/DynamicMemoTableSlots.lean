/-
  Manticore.Memo.DynamicMemoTableSlots — the slots of the memo table and what the loops over
  a bucket do to them (see `Manticore.Memo.DynamicMemoTable`).

  `slot_store`: a store changes one slot. `initBucket_quiet`: initialising a bucket changes
  uninitialised slots only, when no entry satisfies its test. `findEntry_spec` and
  `insertEntry_spec`: the slot a lookup finds and the one an insertion fills.
  `grow_slots`: growth adds an empty segment.
-/

import Manticore.Memo.DynamicMemoTable

namespace Manticore.Memo.DynamicMemoTable

open Function (update update_self update_of_ne)

variable {α : Type}

/-! ## Slots -/

theorem capacity_eq (n : Nat) : capacity n = bucketSize * n := by
  cases n <;> rfl

theorem check_eq {fuel s i : Nat} (hs : 1 ≤ s) (hlow : capacity (s - 1) ≤ i) (hfuel : i / bucketSize < s + fuel) :
    check fuel s i = (i / bucketSize, i % bucketSize) := by
  have hdiv := Nat.div_add_mod i bucketSize
  have hmod := Nat.mod_lt i (show 0 < bucketSize by decide)
  rw [capacity_eq] at hlow
  have hge : s - 1 ≤ i / bucketSize := (Nat.le_div_iff_mul_le (by decide)).2 (by rwa [Nat.mul_comm])
  have hlast : i / bucketSize < s → (s - 1, i - capacity (s - 1)) = (i / bucketSize, i % bucketSize) := by
    grind [capacity_eq]
  induction fuel generalizing s with
  | zero => exact hlast (by omega)
  | succ fuel ih =>
    unfold check
    split
    · next hcap =>
      rw [capacity_eq] at hcap
      have hge' : s ≤ i / bucketSize := (Nat.le_div_iff_mul_le (by decide)).2 (by rwa [Nat.mul_comm])
      refine ih (by omega) (by simpa using hcap) (by omega) (by simpa using hge') fun hlt => ?_
      have heq : i / bucketSize = s := by omega
      rw [Nat.add_sub_cancel, capacity_eq, ← heq]
      congr 1
      omega
    grind [capacity_eq, Nat.div_lt_iff_lt_mul, Nat.mul_comm]

theorem findSegment_eq (i : Nat) : findSegment i = (i / bucketSize, i % bucketSize) := by
  refine check_eq (Nat.le_refl 1) (Nat.zero_le i) ?_
  have := Nat.div_le_self i bucketSize
  omega

theorem div_lt {j n : Nat} (h : j < capacity n) : j / bucketSize < n := by
  rw [capacity_eq] at h
  rwa [Nat.div_lt_iff_lt_mul (by decide), Nat.mul_comm]

namespace Table

variable {t t' : Table α}

/-- Storing into one slot changes that slot only. -/
theorem slot_store {j₀ i₀ j i : Nat} (e : Entry α) (hi₀ : i₀ < buckets) (hi : i < buckets) :
    (t.store (j₀ / bucketSize) (j₀ % bucketSize * buckets + i₀) e).slot j i =
      if j = j₀ ∧ i = i₀ then (t.slot j i).map fun _ => e else t.slot j i := by
  unfold slot store
  have hdiv := Nat.div_add_mod j bucketSize
  have hdiv₀ := Nat.div_add_mod j₀ bucketSize
  simp only [buckets] at hi hi₀ ⊢
  by_cases hs : j / bucketSize = j₀ / bucketSize
  · rw [hs, update_self]
    cases hseg : t.allSegments (j₀ / bucketSize) with
    | none => simp
    | some seg =>
      by_cases hpos : j % bucketSize * 2 + i = j₀ % bucketSize * 2 + i₀
      · grind
      grind
  grind

theorem sub_slot {j i : Nat} {e : Entry α} (h : t.slot j i = some e) (hj : j / bucketSize < maxSegments) (hi : i < buckets) :
    t.sub (j / bucketSize) (j % bucketSize * buckets + i) = .ok e := by
  have hmod := Nat.mod_lt j (show 0 < bucketSize by decide)
  unfold slot at h
  cases hseg : t.allSegments (j / bucketSize) with
  | none =>
    rw [hseg] at h
    cases h
  | some seg =>
    rw [hseg] at h
    have hin : j % bucketSize * buckets + i < bucketSize * buckets := by
      simp only [buckets] at hi ⊢
      omega
    unfold sub segment
    rw [if_pos hj, hseg]
    show (if _ < _ then Except.ok (seg _) else _) = _
    rw [if_pos hin]
    exact congrArg Except.ok (Option.some.inj h)

/-- The bucket of an allocated segment has its slots. -/
theorem slot_some {n j : Nat} (halloc : ∀ i < n, t.allSegments i ≠ none) (hj : j < capacity n) (i : Nat) :
    ∃ e, t.slot j i = some e := by
  unfold slot
  obtain ⟨seg, hseg⟩ := Option.ne_none_iff_exists'.1 (halloc _ (div_lt hj))
  rw [hseg]
  exact ⟨_, rfl⟩

/-! ## Initialising a bucket -/

/-- Only uninitialised slots have changed, to initialised ones. -/
structure Inits (t t' : Table α) : Prop where
  segments : t'.segments = t.segments
  itemCount : t'.itemCount = t.itemCount
  alloc : ∀ i, t'.allSegments i = none ↔ t.allSegments i = none
  slots : ∀ j, ∀ i < buckets, t'.slot j i = t.slot j i ∨ (t.slot j i = some .uninit ∧ t'.slot j i = some .init)

theorem Inits.refl (t : Table α) : Inits t t := ⟨rfl, rfl, fun _ => .rfl, fun _ _ _ => .inl rfl⟩

theorem Inits.trans {t'' : Table α} (h : Inits t t') (h' : Inits t' t'') : Inits t t'' := by
  refine ⟨h'.segments.trans h.segments, h'.itemCount.trans h.itemCount, fun i => (h'.alloc i).trans (h.alloc i),
    fun j i hi => ?_⟩
  rcases h.slots j i hi with h1 | ⟨h1, h2⟩
  · rw [← h1]
    exact h'.slots j i hi
  · rcases h'.slots j i hi with h3 | ⟨h3, -⟩
    · exact .inr ⟨h1, h3.trans h2⟩
    · rw [h2] at h3
      cases h3

/-- The entries are the same. -/
theorem Inits.entry (h : Inits t t') {j i : Nat} (hi : i < buckets) {age key : Int} {value : α} :
    t'.slot j i = some (.entry age key value) ↔ t.slot j i = some (.entry age key value) := by
  rcases h.slots j i hi with h1 | ⟨h1, h2⟩
  · rw [h1]
  · rw [h1, h2]
    exact ⟨nofun, nofun⟩

theorem store_alloc (s o : Nat) (e : Entry α) (i : Nat) : (t.store s o e).allSegments i = none ↔ t.allSegments i = none := by
  show update t.allSegments s _ i = none ↔ _
  by_cases his : i = s
  · subst his
    rw [update_self]
    exact Option.map_eq_none_iff
  · rw [update_of_ne his]

theorem store_init {j : Nat} (h : t.slot j 0 = some .uninit ∨ t.slot j 0 = some .init) :
    Inits t (t.store (j / bucketSize) (j % bucketSize * buckets + 0) .init) := by
  refine ⟨rfl, rfl, store_alloc _ _ _, fun j' i hi => ?_⟩
  rw [slot_store _ (by decide) hi]
  grind

/-- Nothing is moved when no entry of the old bucket satisfies the test. -/
theorem maybeMoveItems_quiet {segmentIndex startIndex index j' M' : Nat} (hj' : j' / bucketSize < maxSegments)
    (hslot : ∀ i, ∃ e, t.slot j' i = some e)
    (hquiet : ∀ i < buckets, ∀ age key value, t.slot j' i = some (.entry age key value) → Int.tmod key M' ≠ index)
    {k i : Nat} (hk : i + k = buckets) :
    maybeMoveItems segmentIndex startIndex index (j' / bucketSize) (j' % bucketSize * buckets) M' k t i 0 =
      .ok (t.store segmentIndex (startIndex + 0) .init) := by
  induction k generalizing i with
  | zero => rfl
  | succ k ih =>
    have hi : i < buckets := by omega
    obtain ⟨e, he⟩ := hslot i
    unfold maybeMoveItems
    rw [sub_slot he hj' hi]
    cases e with
    | init => rfl
    | uninit => rfl
    | entry age key value =>
      show (if _ then _ else _) = _
      rw [if_neg (hquiet i hi age key value he)]
      exact ih (by omega)

theorem initBucket_quiet {hash n j : Nat} (hn : 1 ≤ n) (hmax : n ≤ maxSegments) (halloc : ∀ i < n, t.allSegments i ≠ none)
    (hj : j < capacity n) (hquiet : Quiet t hash n j) :
    ∃ t', initBucket hash n t j = .ok t' ∧ Inits t t' ∧ t'.slot j 0 ≠ some .uninit := by
  induction n generalizing j with
  | zero => omega
  | succ n ih =>
    have hjmax : j / bucketSize < maxSegments := Nat.lt_of_lt_of_le (div_lt hj) hmax
    obtain ⟨e, he⟩ := slot_some halloc hj 0
    have hsub := sub_slot he hjmax (by decide)
    unfold initBucket
    rw [findSegment_eq]
    simp only
    rw [Nat.add_zero] at hsub
    rw [hsub]
    have hdone : ∀ t₁ : Table α, Inits t t₁ → e = .uninit →
        Inits t (t₁.store (j / bucketSize) (j % bucketSize * buckets + 0) .init) ∧
          (t₁.store (j / bucketSize) (j % bucketSize * buckets + 0) .init).slot j 0 ≠ some .uninit := by
      rintro t₁ hinits rfl
      have hslot : t₁.slot j 0 = some .uninit ∨ t₁.slot j 0 = some .init := by
        rcases hinits.slots j 0 (by decide) with h1 | ⟨-, h2⟩
        · exact .inl (h1.trans he)
        · exact .inr h2
      refine ⟨hinits.trans (store_init hslot), ?_⟩
      rw [slot_store _ (by decide) (by decide), if_pos ⟨rfl, rfl⟩]
      rcases hslot with h | h <;> rw [h] <;> exact nofun
    cases e with
    | init | entry => exact ⟨t, rfl, .refl t, by rw [he]; exact nofun⟩
    | uninit =>
      show ∃ t', (if n = 0 then _ else _) = _ ∧ _
      by_cases hn0 : n = 0
      · rw [if_pos hn0]
        exact ⟨_, rfl, hdone t (.refl t) rfl⟩
      · rw [if_neg hn0, findSegment_eq]
        obtain ⟨hq, hmove⟩ := (hquiet.resolve_left fun hne => hne _ he rfl).resolve_left hn0
        have hpos : 0 < capacity n := by
          rw [capacity_eq]
          exact Nat.mul_pos (by decide) (by omega)
        have hj' := Nat.mod_lt hash hpos
        obtain ⟨t₁, hrec, hinits, -⟩ := ih (by omega) (by omega) (fun i hi => halloc i (by omega)) hj' hq
        have halloc₁ : ∀ i < n, t₁.allSegments i ≠ none := fun i hi hnone => halloc i (by omega) ((hinits.alloc i).1 hnone)
        rw [hrec]
        refine ⟨_, ?_, hdone t₁ hinits rfl⟩
        refine maybeMoveItems_quiet (Nat.lt_of_lt_of_le (div_lt hj') (by omega)) (slot_some halloc₁ hj') ?_ (by decide)
        intro i hi age key value hentry
        exact hmove i hi age key value ((hinits.entry hi).1 hentry)

/-! ## The slots a lookup and an insertion reach -/

theorem keyAt_some {j i : Nat} {key : Int} : t.keyAt j i = some key ↔ ∃ age value, t.slot j i = some (.entry age key value) := by
  grind [keyAt]

/-- An empty slot is followed by empty slots. -/
def Packed (t : Table α) (j : Nat) : Prop := ∀ i i', i < i' → i' < buckets → t.keyAt j i = none → t.keyAt j i' = none

theorem findEntry_spec (now : Int) {j k i : Nat} {key : Int} (hj : j / bucketSize < maxSegments) (hslot : ∀ i, ∃ e, t.slot j i = some e)
    (hpacked : t.Packed j) (hk : i + k = buckets) (hbefore : ∀ i' < i, t.keyAt j i' ≠ some key) :
    (∃ i' < buckets, ∃ age value, t.slot j i' = some (.entry age key value) ∧
      findEntry (j / bucketSize) (j % bucketSize * buckets) now key k t i =
        .ok (t.store (j / bucketSize) (j % bucketSize * buckets + i') (.entry now key value), some value)) ∨
    (∀ i' < buckets, t.keyAt j i' ≠ some key) ∧
      findEntry (j / bucketSize) (j % bucketSize * buckets) now key k t i = .ok (t, none) := by
  induction k generalizing i with
  | zero => exact .inr ⟨fun i' hi' => hbefore i' (by omega), rfl⟩
  | succ k ih =>
    have hi : i < buckets := by omega
    obtain ⟨e, he⟩ := hslot i
    have hrest : t.keyAt j i = none → ∀ i' < buckets, t.keyAt j i' ≠ some key := by
      intro hnone i' hi'
      rcases Nat.lt_trichotomy i' i with hlt | rfl | hgt
      · exact hbefore i' hlt
      · rw [hnone]
        exact nofun
      · rw [hpacked i i' hgt hi' hnone]
        exact nofun
    unfold findEntry
    rw [sub_slot he hj hi]
    cases e with
    | init | uninit => exact .inr ⟨hrest (by simp only [keyAt, he]), rfl⟩
    | entry age key' value =>
      simp only [Fuel.ok_bind]
      by_cases hkey : key' = key
      · subst hkey
        exact .inl ⟨i, hi, age, value, he, if_pos rfl⟩
      · simp only [if_neg hkey]
        refine ih (by omega) fun i' hi' => ?_
        grind [keyAt]

/-- The slot an insertion fills: the first one without an entry, or the one it evicts. -/
def Fills (t : Table α) (j target : Nat) : Prop :=
  (t.keyAt j target = none ∧ (∀ i < target, t.keyAt j i ≠ none) ∧ t.evicts j = none) ∨
    (t.evicts j = some target ∧ ∀ i < buckets, t.keyAt j i ≠ none)

theorem insertEntry_spec (new : Entry α) {j : Nat} (hj : j / bucketSize < maxSegments) (hslot : ∀ i, ∃ e, t.slot j i = some e) :
    ∃ count target, target < buckets ∧ t.Fills j target ∧
      insertEntry (j / bucketSize) (j % bucketSize * buckets) new buckets t 0 maxInt 0 false =
        .ok (Table.store { t with itemCount := count } (j / bucketSize) (j % bucketSize * buckets + target) new) := by
  obtain ⟨e₀, h₀⟩ := hslot 0
  obtain ⟨e₁, h₁⟩ := hslot 1
  have hsub₀ := sub_slot h₀ hj (by decide)
  have hsub₁ := sub_slot h₁ hj (by decide)
  have hzero : ∀ i < 0, t.keyAt j i ≠ none := fun _ hi => absurd hi (Nat.not_lt_zero _)
  have hfirst : t.keyAt j 0 = none → t.Fills j 0 := fun hnone =>
    .inl ⟨hnone, hzero, by unfold evicts; unfold keyAt at hnone; split at hnone <;> simp_all⟩
  simp only [buckets, insertEntry, Nat.zero_add] at hsub₀ hsub₁ ⊢
  simp only [hsub₀, Fuel.ok_bind]
  cases e₀ with
  | init | uninit => exact ⟨t.itemCount, 0, by decide, hfirst (by rw [keyAt, h₀]), rfl⟩
  | entry age₀ key₀ value₀ =>
    have hkey₀ : t.keyAt j 0 = some key₀ := by rw [keyAt, h₀]
    have hsecond : t.keyAt j 1 = none → t.Fills j 1 := fun hnone => by
      refine .inl ⟨hnone, fun i hi => ?_, ?_⟩
      · rw [show i = 0 by omega, hkey₀]
        exact Option.some_ne_none _
      · unfold evicts
        unfold keyAt at hnone
        split at hnone <;> simp_all
    simp only [hsub₁, Fuel.ok_bind]
    cases e₁ with
    | init | uninit =>
      refine ⟨t.itemCount, 1, by decide, hsecond (by rw [keyAt, h₁]), ?_⟩
      split <;> rfl
    | entry age₁ key₁ value₁ =>
      have hkey₁ : t.keyAt j 1 = some key₁ := by rw [keyAt, h₁]
      have hall : ∀ i < buckets, t.keyAt j i ≠ none := by
        intro i hi
        have : i = 0 ∨ i = 1 := by
          simp only [buckets] at hi
          omega
        grind
      have hfull : ∀ target, t.evicts j = some target → t.Fills j target := fun _ h => .inr ⟨h, hall⟩
      simp only [evicts, h₀, h₁] at hfull
      by_cases hold₀ : age₀ < maxInt
      · by_cases hold₁ : age₁ < age₀
        · exact ⟨t.itemCount, 1, by decide, hfull 1 (by simp [hold₀, hold₁]), by simp [hold₀, hold₁]⟩
        · exact ⟨t.itemCount + 1, 0, by decide, hfull 0 (by simp [hold₀, hold₁]), by simp [hold₀, hold₁]⟩
      · by_cases hold₁ : age₁ < maxInt
        · exact ⟨t.itemCount + 1, 1, by decide, hfull 1 (by simp [hold₀, hold₁]), by simp [hold₀, hold₁]⟩
        · exact ⟨t.itemCount + 1, 0, by decide, hfull 0 (by simp [hold₀, hold₁]), by simp [hold₀, hold₁]⟩

/-- The next segment is there, with nothing in it, and the others are the same. -/
theorem grow_slots (t : Table α) : t.growIfNeeded.segments ≥ t.segments ∧
    (∀ j < capacity t.segments, ∀ i, t.growIfNeeded.slot j i = t.slot j i) ∧
    ∀ j < capacity t.growIfNeeded.segments, capacity t.segments ≤ j → ∀ i, t.growIfNeeded.slot j i = some .uninit := by
  unfold growIfNeeded
  split
  · refine ⟨Nat.le_succ _, fun j hj i => ?_, fun j hj hge i => ?_⟩
    · have hne : j / bucketSize ≠ t.segments := Nat.ne_of_lt (div_lt hj)
      simp only [slot, update_of_ne hne]
    · have heq : j / bucketSize = t.segments := by
        have h1 : j / bucketSize < t.segments + 1 := div_lt hj
        rw [capacity_eq] at hge
        have h2 : t.segments ≤ j / bucketSize :=
          (Nat.le_div_iff_mul_le (show 0 < bucketSize by decide)).2 (by rwa [Nat.mul_comm])
        omega
      simp only [slot, heq, update_self, Option.map_some]
  · exact ⟨Nat.le_refl _, fun _ _ _ => rfl, fun j hj hge => absurd hj (by omega)⟩

end Table

end Manticore.Memo.DynamicMemoTable
