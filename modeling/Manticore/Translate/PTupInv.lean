/-
  Manticore.Translate.PTupInv — what every move of a flat parallel tuple keeps.

  (1) What is stored stays, and a handler that goes on has waited for values other than nil (`Handles`).
  (2) The count is the number of elements whose clones have counted them (`Tallied`).
  (3) At most one result, and what it says (`Outcomes`).
-/

import Manticore.Translate.PTupSteps

namespace Manticore.Translate.PTup

open Code
open Function (update_self update_of_ne)
open Finset (range card_range mem_range)
open View (stored slot concrete)
open Fast (stores)

variable {n : Nat} {hf hs : Nat → Code} {out : Nat → Outcome}

/-! ## (1) Stores and handlers -/

variable {v v' : View} {j i : Nat} {e : Val}

theorem stored_mono (hv : Shape n out v) (hm : Move n hf hs out v v') (j : Nat) (hj : v.stored j = true) :
    v'.stored j = true := by
  have slow : ∀ i x, ((v.slow i).stores = true → x.stores = true) → (v.slow j).stores = true →
      (Function.update v.slow i x j).stores = true := by
    grind
  simp only [stored, Bool.or_eq_true] at hj ⊢
  cases hm with
  | spawn k h =>
    rcases hj with hj | hj
    · simp [h, stores] at hj
    · exact .inr (slow _ _ (by simp [hv.spawns h, Slow.stores]) hj)
  | take i h hi hq =>
    grind [stores, Slow.stores]
  | start i h | value i h u hu | exn i h e he | handOver i h hi hq | ret h us hu | handler i k k' h hk | throw i h e he =>
    rcases hj with hj | hj
    · simp [h, stores] at hj
    · exact .inr hj
  | store i k h =>
    rcases hj with hj | hj
    · left
      simp only [h, stores, Bool.and_eq_true, decide_eq_true_eq] at hj ⊢
      omega
    · exact .inr hj
  | add i h | finish i last h =>
    grind [stores]
  | steal i h | slowStart i h | slowValue i h u hu | slowExn i h e he | slowStore i h | slowAdd i h
  | slowFinish i last h | slowHandler i k k' h hk | slowThrow i h e he =>
    rcases hj with hj | hj
    · exact .inl hj
    · exact .inr (slow _ _ (by simp [h, Slow.stores]) hj)

theorem passed_mono (hv : Shape n out v) (hm : Move n hf hs out v v') (j : Nat) (hj : v.Passed out j) :
    v'.Passed out j := by
  have hst := stored_mono hv hm j hj.1
  refine ⟨hst, ?_⟩
  rw [slot, if_pos hst, ← hj.2, slot, if_pos hj.1]

/-- Only what is stored differs from nil. -/
theorem passed_of_not_nil (h : isNil (v.slot out j) = false) : v.Passed out j := by
  cases hst : v.stored j with
  | true => exact ⟨hst, h⟩
  | false =>
    rw [slot, hst] at h
    exact absurd h (by simp [isNil, nilVal])

theorem HandlerCode.le {w p : Nat} {k : Code} (h : HandlerCode w p k) : p ≤ w := by
  induction h with
  | cancel _ _ ih => exact ih
  | waitOn hp _ _ => omega
  | throw => exact Nat.le_refl _

/-- A handler's step keeps what is known of it. -/
theorem HandlerCode.step {v : View} {w p : Nat} {k k' : Code} (h : HandlerCode w p k) (hk : HandlerStep out v k k')
    (hp : ∀ j < p, v.Passed out j) : ∃ p', HandlerCode w p' k' ∧ ∀ j < p', v.Passed out j := by
  cases hk with
  | cancel i =>
    cases h with
    | cancel _ h => exact ⟨p, h, hp⟩
  | waitOn i _ hnil =>
    cases h with
    | waitOn hlt h =>
      grind [passed_of_not_nil]

/-- The handlers of the elements that raise: those of the fast clone do not wait, those of a slow clone wait for all
    to the left. -/
def Handlers (hf hs : Nat → Code) (out : Nat → Outcome) : Prop :=
  ∀ i e, out i = .error e → HandlerCode 0 0 (hf i) ∧ HandlerCode i 0 (hs i)

theorem handles_init : Handles out (View.init n) where
  fast := by
    intro i k h
    cases h
  slow := by
    intro i k h
    cases h
  raised := by
    intro i h
    cases h

/-- The fast clone has moved on, and is not in a handler. -/
theorem Handles.setFast  (h : Handles out v) (hslow : v'.slow = v.slow)
    (hmono : ∀ j, v.Passed out j → v'.Passed out j) (hf : ∀ i k, v'.fast = .raising i k → HandlerCode 0 0 k) :
    Handles out v' where
  fast := hf
  slow := by
    intro i k hk
    rw [hslow] at hk
    obtain ⟨p, hp, hpass⟩ := h.slow i k hk
    exact ⟨p, hp, fun j hj => hmono j (hpass j hj)⟩
  raised := by
    intro i hi j hj
    rw [hslow] at hi
    exact hmono j (h.raised i hi j hj)

/-- Slow clone `i` has moved on. -/
theorem Handles.setSlow  (h : Handles out v) (i : Nat) (x : Slow)
    (hslow : v'.slow = Function.update v.slow i x) (hmono : ∀ j, v.Passed out j → v'.Passed out j)
    (hf : ∀ i k, v'.fast = .raising i k → HandlerCode 0 0 k)
    (hx : ∀ k, x = .raising k → ∃ p, HandlerCode i p k ∧ ∀ j < p, v.Passed out j)
    (hx' : x = .raised → ∀ j < i, v.Passed out j) : Handles out v' where
  fast := hf
  slow := by
    intro i' k hk
    have hp : ∃ p, HandlerCode i' p k ∧ ∀ j < p, v.Passed out j := by
      rw [hslow] at hk
      by_cases hi : i' = i
      · subst hi
        rw [update_self] at hk
        exact hx k hk
      · rw [update_of_ne hi] at hk
        exact h.slow i' k hk
    obtain ⟨p, hp, hpass⟩ := hp
    exact ⟨p, hp, fun j hj => hmono j (hpass j hj)⟩
  raised := by
    intro i' hi' j hj
    rw [hslow] at hi'
    by_cases hi : i' = i
    · subst hi
      rw [update_self] at hi'
      exact hmono j (hx' hi' j hj)
    · rw [update_of_ne hi] at hi'
      exact hmono j (h.raised i' hi' j hj)

theorem handles_move (hv : Shape n out v) (hH : Handlers hf hs out) (h : Handles out v) (hm : Move n hf hs out v v')
    : Handles out v' := by
  have hmono := passed_mono hv hm
  cases hm with
  | spawn k _ =>
    refine h.setSlow (k + 1) .queued rfl hmono ?_ (by simp) (by simp)
    intro i e he
    cases k <;> cases he
  | take i _ _ _ => exact h.setSlow i .removed rfl hmono (by simp) (by simp) (by simp)
  | start | value | handOver | store | add | finish | ret | throw => exact h.setFast rfl hmono (by simp)
  | exn i _ e he =>
    refine h.setFast rfl hmono ?_
    intro j k hk
    cases hk
    exact (hH i e he).1
  | handler i k k' hi hk =>
    refine h.setFast rfl hmono ?_
    intro j k'' hk''
    cases hk''
    obtain ⟨p, hp, -⟩ := (h.fast i k hi).step hk (by simp)
    obtain rfl : p = 0 := Nat.le_zero.mp hp.le
    exact hp
  | steal i _ | slowStart i _ | slowValue i _ _ _ | slowStore i _ | slowAdd i _ | slowFinish i _ _ => exact h.setSlow i _ rfl hmono h.fast (by simp) (by simp)
  | slowExn i _ e he =>
    refine h.setSlow i _ rfl hmono h.fast ?_ (by simp)
    intro k hk
    cases hk
    exact ⟨0, (hH i e he).2, by simp⟩
  | slowHandler i k k' hi hk =>
    refine h.setSlow i _ rfl hmono h.fast ?_ (by simp)
    intro k'' hk''
    cases hk''
    obtain ⟨p, hp, hpass⟩ := h.slow i k hi
    exact hp.step hk hpass
  | slowThrow i hi e he =>
    refine h.setSlow i _ rfl hmono h.fast (by simp) ?_
    intro _
    obtain ⟨p, hp, hpass⟩ := h.slow i _ hi
    cases hp
    exact hpass

/-! ## (2) The count -/

/-- The fast clone has counted element `j`. -/
def Fast.counts : Fast → Nat → Bool
  | .ending h _, j | .ended h, j => decide (j < h)
  | _, _ => false

def Slow.counts : Slow → Bool
  | .ending _ | .ended => true
  | _ => false

def View.counted (v : View) (j : Nat) : Bool := v.fast.counts j || (v.slow j).counts

/-- The count is the number of elements counted. -/
def Tallied (n : Nat) (v : View) : Prop := v.count = ((range n).filter fun j => v.counted j = true).card

theorem tallied_init : Tallied n (View.init n) := by
  simp [Tallied, View.init, View.counted, Fast.counts, Slow.counts]

theorem Tallied.le (h : Tallied n v) : v.count ≤ n := by
  rw [h]
  exact (Finset.card_filter_le _ _).trans (by rw [card_range])

theorem Tallied.eq_iff (h : Tallied n v) : v.count = n ↔ ∀ j < n, v.counted j = true := by
  have hcard := Finset.card_filter_eq_iff (s := range n) (p := fun j => v.counted j = true)
  rw [card_range] at hcard
  rw [h, hcard]
  simp

/-- The elements that `new` has counted are added. -/
theorem Tallied.add {v v' : View} (h : Tallied n v) (new : Finset Nat) (hnew : ∀ j ∈ new, j < n)
    (hdis : ∀ j ∈ new, v.counted j = false) (hc : v'.count = v.count + new.card)
    (hcnt : ∀ j, v'.counted j = (v.counted j || decide (j ∈ new))) : Tallied n v' := by
  have hsplit : ((range n).filter fun j => v'.counted j = true) =
      ((range n).filter fun j => v.counted j = true) ∪ new := by
    grind
  grind [Disjoint, range, Finset.disjoint_left, Tallied, Finset.card_union_of_disjoint]

theorem Tallied.frame (h : Tallied n v) (hc : v'.count = v.count) (hcnt : ∀ j, v'.counted j = v.counted j) :
    Tallied n v' := by
  refine h.add ∅ (by simp) (by simp) (by simpa using hc) ?_
  intro j
  simpa using hcnt j

/-- Slow clone `i` has moved on without being counted. -/
theorem counted_update {x : Slow} (hslow : v'.slow = Function.update v.slow i x)
    (hfast : ∀ j, v'.fast.counts j = v.fast.counts j) (hx : x.counts = (v.slow i).counts) (j : Nat) :
    v'.counted j = v.counted j := by
  rw [View.counted, View.counted, hfast, hslow]
  by_cases hj : j = i
  · subst hj
    rw [update_self, hx]
  · rw [update_of_ne hj]

/-- What the fast clone counts has no slow clone. -/
theorem Shape.slow_of_taken (h : Shape n out v) (hj : j < v.fast.taken n) :
    v.slow j = .removed ∨ v.slow j = .unspawned := by
  cases j with
  | zero => exact .inr h.first
  | succ j => exact .inl ((h.removed (j + 1)).mpr ⟨by omega, hj⟩)

theorem counts_taken (hj : v.fast.counts j = true) : j < v.fast.taken n := by
  cases hv : v.fast <;> simp_all [Fast.counts]

theorem tallied_move (hv : Shape n out v) (h : Tallied n v) (hm : Move n hf hs out v v') : Tallied n v' := by
  cases hm with
  | spawn k hk =>
    refine h.frame rfl (counted_update rfl ?_ (by rw [hv.spawns hk]; rfl))
    intro j
    cases k <;> simp [afterSpawn, Fast.counts, hk]
  | take i hi _ hq => exact h.frame rfl (counted_update rfl (by simp [hi, Fast.counts]) (by rw [hq]; rfl))
  | add i hi =>
    have hb := hv.bounds
    rw [hi] at hb
    refine h.add (range i) ?_ ?_ (by simp) ?_
    · intro j hj
      exact (mem_range.mp hj).trans hb.2.1
    · intro j hj
      have hlt : j < v.fast.taken n := by
        rw [hi]
        exact mem_range.mp hj
      rcases hv.slow_of_taken hlt with hj | hj
      · simp [View.counted, hi, Fast.counts, hj, Slow.counts]
      · simp [View.counted, hi, Fast.counts, hj, Slow.counts]
    · intro j
      simp [View.counted, hi, Fast.counts, Bool.or_comm]
  | slowAdd i hi =>
    have hin : i < n := by
      by_contra hge
      rw [hv.outside i (by omega)] at hi
      cases hi
    have hc : v.counted i = false := by
      cases hfc : v.fast.counts i with
      | true =>
        rcases hv.slow_of_taken (counts_taken hfc) with hr | hr
        · rw [hr] at hi
          cases hi
        · rw [hr] at hi
          cases hi
      | false => simp [View.counted, hfc, hi, Slow.counts]
    refine h.add {i} (by simpa using hin) (by simpa using hc) (by simp) ?_
    grind [View.counted, Slow.counts]
  | start i hi | value i hi _ _ | exn i hi _ _ | handOver i hi _ _ | store i _ hi | finish i _ hi | ret hi | handler i _ _ hi
  | throw i hi =>
    refine h.frame rfl ?_
    intro j
    simp [View.counted, hi, Fast.counts]
  | steal i hi | slowStart i hi | slowValue i hi | slowExn i hi | slowStore i hi | slowFinish i _ hi | slowHandler i _ _ hi
  | slowThrow i hi => exact h.frame rfl (counted_update rfl (fun _ => rfl) (by rw [hi]; rfl))

/-- An element that is counted has a value. -/
theorem counted_ok (hv : Shape n out v) (hj : v.counted j = true) : ∃ u, out j = .ok u := by
  rw [View.counted, Bool.or_eq_true] at hj
  rcases hj with hj | hj
  · refine hv.done j ?_
    cases hf : v.fast <;> simp_all [Fast.counts]
  · have ha := hv.agrees j
    cases hs : v.slow j <;> simp_all [Slow.counts]

/-! ## (3) The results -/

/-- Element `i` is the leftmost to raise an exception. -/
def Leftmost (out : Nat → Outcome) (i : Nat) (e : Val) : Prop := out i = .error e ∧ ∀ j < i, ∃ u, out j = .ok u

theorem Leftmost.unique {e' : Val} (h : Leftmost out i e) (h' : Leftmost out j e') : i = j := by
  rcases Nat.lt_trichotomy i j with hlt | heq | hgt
  · obtain ⟨u, hu⟩ := h'.2 i hlt
    rw [h.1] at hu
    cases hu
  · exact heq
  · obtain ⟨u, hu⟩ := h.2 j hgt
    rw [h'.1] at hu
    cases hu

/-- Some clone was the last to count, and is about to return the shared tuple. -/
def View.Returning (v : View) : Prop := (∃ i, v.fast = .ending i true) ∨ ∃ i, v.slow i = .ending true

structure Outcomes (n : Nat) (out : Nat → Outcome) (v : View) : Prop where
  returning : v.Returning → v.count = n ∧ v.results = []
  fastAlone : ∀ i j, v.fast = .ending i true → v.slow j ≠ .ending true
  slowAlone : ∀ i j, v.slow i = .ending true → v.slow j = .ending true → i = j
  full : v.count = n → v.Returning ∨ v.results = [.shared]
  results : v.results = [] ∨ (v.results = [.shared] ∧ v.count = n) ∨
    (∃ us, v.results = [.tuple us] ∧ (List.range n).mapM (envTo out n) = some us ∧ v.fast = .returned) ∨
    ∃ i e, v.results = [.raised e] ∧ i < n ∧ Leftmost out i e ∧ (v.fast = .raised i ∨ v.slow i = .raised)
  returned : v.fast = .returned → v.results ≠ []
  fastRaised : ∀ i, v.fast = .raised i → v.results ≠ []
  slowRaised : ∀ i, v.slow i = .raised → v.results ≠ []

theorem outcomes_init (hn : 2 ≤ n) : Outcomes n out (View.init n) where
  returning := by
    rintro (⟨i, hi⟩ | ⟨i, hi⟩) <;> cases hi
  fastAlone := by
    intro i j hi
    cases hi
  slowAlone := by
    intro i j hi
    cases hi
  full := by
    intro h
    have h0 : 0 = n := h
    omega
  results := .inl rfl
  returned := by
    intro h
    cases h
  fastRaised := by
    intro i h
    cases h
  slowRaised := by
    intro i h
    cases h

/-- The phases that the results depend on are the same. -/
theorem Outcomes.frame (h : Outcomes n out v) (hc : v'.count = v.count) (hr : v'.results = v.results)
    (hfe : ∀ i, v'.fast = .ending i true ↔ v.fast = .ending i true) (hfd : v'.fast = .returned ↔ v.fast = .returned)
    (hfr : ∀ i, v'.fast = .raised i ↔ v.fast = .raised i)
    (hse : ∀ i, v'.slow i = .ending true ↔ v.slow i = .ending true)
    (hsr : ∀ i, v'.slow i = .raised ↔ v.slow i = .raised) : Outcomes n out v' := by
  have hret : v'.Returning ↔ v.Returning := by simp only [View.Returning, hfe, hse]
  obtain ⟨h1, h2, h3, h4, h5, h6, h7, h8⟩ := h
  constructor
  · rwa [hret, hc, hr]
  · simpa only [hfe, hse, ne_eq] using h2
  · simpa only [hse] using h3
  · rwa [hret, hc, hr]
  · simpa only [hr, hc, hfd, hfr, hsr] using h5
  · rwa [hfd, hr]
  · simpa only [hfr, hr] using h7
  · simpa only [hsr, hr] using h8

/-- An update of a slow clone between phases that are not `x`. -/
theorem update_eq_iff {slow : Nat → Slow} {x y : Slow} (h : slow i ≠ x) (hy : y ≠ x) (j : Nat) :
    Function.update slow i y j = x ↔ slow j = x := by
  by_cases hj : j = i
  · subst hj
    rw [update_self]
    exact iff_of_false hy h
  · rw [update_of_ne hj]

/-- Slow clone `i` has moved on between phases that the results do not depend on. -/
theorem Outcomes.setSlow (h : Outcomes n out v) (i : Nat) (x : Slow) (hfast : v'.fast = v.fast)
    (hslow : v'.slow = Function.update v.slow i x) (hc : v'.count = v.count) (hr : v'.results = v.results)
    (he : v.slow i ≠ .ending true) (he' : x ≠ .ending true) (hx : v.slow i ≠ .raised) (hx' : x ≠ .raised) :
    Outcomes n out v' := by
  refine h.frame hc hr ?_ ?_ ?_ ?_ ?_
  · simp [hfast]
  · simp [hfast]
  · simp [hfast]
  · rw [hslow]
    exact update_eq_iff he he'
  · rw [hslow]
    exact update_eq_iff hx hx'

/-- An element that raises an exception keeps the count from being full. -/
theorem count_ne_of_error (hv : Shape n out v) (ht : Tallied n v) (hi : i < n) (he : out i = .error e) :
    v.count ≠ n := by
  intro hc
  obtain ⟨u, hu⟩ := counted_ok hv (ht.eq_iff.mp hc i hi)
  rw [he] at hu
  cases hu

/-- A slow clone that runs is not one of the fast clone's elements. -/
theorem Shape.taken_le (hv : Shape n out v) (hr : v.slow i ≠ .removed) (hu : v.slow i ≠ .unspawned) :
    v.fast.taken n ≤ i ∧ i < n := by
  constructor
  · by_contra hlt
    rcases hv.slow_of_taken (Nat.lt_of_not_le hlt) with h | h
    · exact hr h
    · exact hu h
  · by_contra hge
    exact hu (hv.outside i (Nat.le_of_not_lt hge))

/-- While the count is not full, and neither the fast clone has returned nor an exception was delivered, there
    is no result. -/
theorem Outcomes.none (h : Outcomes n out v) (hc : v.count ≠ n) (hd : v.fast ≠ .returned)
    (hr : ∀ i e, i < n → Leftmost out i e → v.fast ≠ .raised i ∧ v.slow i ≠ .raised) : v.results = [] := by
  rcases h.results with hnil | ⟨-, hfull⟩ | ⟨us, -, -, hdone⟩ | ⟨i, e, -, hin, hl, hf | hs⟩
  · exact hnil
  · exact absurd hfull hc
  · exact absurd hdone hd
  · exact absurd hf (hr i e hin hl).1
  · exact absurd hs (hr i e hin hl).2

/-- A clone has counted `w` elements; it is about to return if the count is full now. -/
theorem Outcomes.add {v v' : View} (h : Outcomes n out v) (hv' : Shape n out v') (ht' : Tallied n v') {w : Nat}
    (hw : 1 ≤ w) (hc : v'.count = v.count + w) (hr : v'.results = v.results)
    (hret : ¬ v.Returning → (v'.Returning ↔ v'.count = n))
    (hfa : ¬ v.Returning → ∀ i j, v'.fast = .ending i true → v'.slow j ≠ .ending true)
    (hsa : ¬ v.Returning → ∀ i j, v'.slow i = .ending true → v'.slow j = .ending true → i = j)
    (hd : v.fast ≠ .returned) (hd' : v'.fast ≠ .returned) (hfr : ∀ i, v'.fast = .raised i ↔ v.fast = .raised i)
    (hsr : ∀ i, v'.slow i = .raised ↔ v.slow i = .raised) : Outcomes n out v' := by
  have hle := ht'.le
  have hcn : v.count ≠ n := by omega
  have hnr : ¬ v.Returning := fun hret => hcn (h.returning hret).1
  constructor
  · intro hret'
    have hfull : v'.count = n := (hret hnr).mp hret'
    refine ⟨hfull, hr.trans (h.none hcn hd ?_)⟩
    intro i e hin hl
    exact absurd hfull (count_ne_of_error hv' ht' hin hl.1)
  · exact hfa hnr
  · exact hsa hnr
  · intro hfull
    exact .inl ((hret hnr).mpr hfull)
  · rcases h.results with hnil | ⟨-, hfull⟩ | ⟨us, -, -, hdone⟩ | ⟨i, e, hres, hin, hl, hf⟩
    · exact .inl (hr.trans hnil)
    · exact absurd hfull hcn
    · exact absurd hdone hd
    · exact .inr (.inr (.inr ⟨i, e, hr.trans hres, hin, hl, by rwa [hfr, hsr]⟩))
  · intro hdone
    exact absurd hdone hd'
  · intro i hi
    rw [hr]
    exact h.fastRaised i ((hfr i).mp hi)
  · intro i hi
    rw [hr]
    exact h.slowRaised i ((hsr i).mp hi)

/-- The last clone to count has returned the shared tuple. -/
theorem Outcomes.share (h : Outcomes n out v) (hret : v.Returning) (hnot : ¬ v'.Returning) (hc : v'.count = v.count)
    (hr : v'.results = .shared :: v.results) : Outcomes n out v' := by
  obtain ⟨hfull, hnil⟩ := h.returning hret
  have hres : v'.results = [.shared] := by rw [hr, hnil]
  have hne : v'.results ≠ [] := by simp [hres]
  constructor
  · intro hret'
    exact absurd hret' hnot
  · intro i j hi
    exact absurd (.inl ⟨i, hi⟩) hnot
  · intro i j hi
    exact absurd (.inr ⟨i, hi⟩) hnot
  · intro _
    exact .inr hres
  · exact .inr (.inl ⟨hres, hc.trans hfull⟩)
  · intro _
    exact hne
  · intro _ _
    exact hne
  · intro _ _
    exact hne

/-- The first result that is not the shared tuple. -/
theorem Outcomes.deliver {v' : View} (hcn : v'.count ≠ n) (hne : v'.results ≠ []) (hfe : ∀ i, v'.fast ≠ .ending i true)
    (hse : ∀ i, v'.slow i ≠ .ending true)
    (hres : (∃ us, v'.results = [.tuple us] ∧ (List.range n).mapM (envTo out n) = some us ∧ v'.fast = .returned) ∨
      ∃ i e, v'.results = [.raised e] ∧ i < n ∧ Leftmost out i e ∧ (v'.fast = .raised i ∨ v'.slow i = .raised)) :
    Outcomes n out v' := by
  have hnot : ¬ v'.Returning := by
    rintro (⟨i, hi⟩ | ⟨i, hi⟩)
    · exact hfe i hi
    · exact hse i hi
  constructor
  · intro hret'
    exact absurd hret' hnot
  · intro i j hi
    exact absurd hi (hfe i)
  · intro i j hi
    exact absurd hi (hse i)
  · intro hfull
    exact absurd hfull hcn
  · exact .inr (.inr hres)
  · intro _
    exact hne
  · intro _ _
    exact hne
  · intro _ _
    exact hne

/-- No slow clone returns while the count is not full. -/
theorem Outcomes.not_ending (h : Outcomes n out v) (hcn : v.count ≠ n) (i : Nat) : v.slow i ≠ .ending true :=
  fun hi => hcn (h.returning (.inr ⟨i, hi⟩)).1

theorem Outcomes.not_fast_ending (h : Outcomes n out v) (hcn : v.count ≠ n) (i : Nat) : v.fast ≠ .ending i true :=
  fun hi => hcn (h.returning (.inl ⟨i, hi⟩)).1

/-- A slow clone at the end of its handler has waited for all elements to its left. -/
theorem leftmost_of_throw (hv : Shape n out v) (hh : Handles out v) (hi : v.slow i = .raising .throw)
    (he : exnOf (out i) = some e) : Leftmost out i e := by
  obtain ⟨e', he'⟩ : ∃ e, out i = .error e := by
    have ha := hv.agrees i
    rwa [hi] at ha
  rw [he'] at he
  obtain rfl := Option.some.inj he
  refine ⟨he', ?_⟩
  obtain ⟨p, hp, hpass⟩ := hh.slow i _ hi
  cases hp
  intro j hj
  obtain ⟨hst, hnil⟩ := hpass j hj
  cases hu : out j with
  | ok u => exact ⟨u, rfl⟩
  | error e' =>
    rw [slot, if_pos hst, hu] at hnil
    exact absurd hnil (by simp [isNil, nilVal])

theorem outcomes_move (hn : n ≤ 2 ^ 32) (hv : Shape n out v) (hh : Handles out v) (ht : Tallied n v)
    (h : Outcomes n out v) (hm : Move n hf hs out v v') : Outcomes n out v' := by
  have hv' := shape_move hv hm
  have ht' := tallied_move hv ht hm
  have hb := hv.bounds
  cases hm with
  | spawn k hk =>
    refine h.frame rfl rfl ?_ ?_ ?_ ?_ ?_
    · cases k <;> simp [afterSpawn, hk]
    · cases k <;> simp [afterSpawn, hk]
    · cases k <;> simp [afterSpawn, hk]
    · exact update_eq_iff (by simp [hv.spawns hk]) (by simp)
    · exact update_eq_iff (by simp [hv.spawns hk]) (by simp)
  | take i hi _ hq =>
    refine h.frame rfl rfl (by simp [hi]) (by simp [hi]) (by simp [hi]) ?_ ?_
    · exact update_eq_iff (by simp [hq]) (by simp)
    · exact update_eq_iff (by simp [hq]) (by simp)
  | start i hi | value i hi | exn i hi | handOver i hi | store i k hi | handler i k k' hi =>
    exact h.frame rfl rfl (by simp [hi]) (by simp [hi]) (by simp [hi]) (by simp) (by simp)
  | add i hi =>
    rw [hi] at hb
    have hle := ht'.le
    have hlast := isLast_iff hn hb.1 hle
    refine h.add hv' ht' hb.1 rfl rfl ?_ ?_ ?_ (by simp [hi]) (by simp) (by simp [hi]) (by simp)
    · intro hnr
      rw [← hlast]
      constructor
      · rintro (⟨j, hj⟩ | ⟨j, hj⟩)
        · exact (Fast.ending.inj hj).2
        · exact absurd (.inr ⟨j, hj⟩) hnr
      · intro hl
        exact .inl ⟨i, by rw [hl]⟩
    · intro hnr _ j _ hj
      exact hnr (.inr ⟨j, hj⟩)
    · intro hnr j _ hj _
      exact absurd (.inr ⟨j, hj⟩) hnr
  | slowAdd i hi =>
    have hle := ht'.le
    have hlast := isLast_iff hn (Nat.le_refl 1) hle
    have htk := hv.taken_le (i := i) (by simp [hi]) (by simp [hi])
    have hfd : v.fast ≠ .returned := by
      intro hd
      rw [hd] at htk
      exact absurd htk.1 (Nat.not_le_of_lt htk.2)
    have hothers : ¬ v.Returning → ∀ j, Function.update v.slow i (.ending (isLast n 1 v.count)) j = .ending true →
        j = i := by
      intro hnr j hj
      by_contra hji
      rw [update_of_ne hji] at hj
      exact hnr (.inr ⟨j, hj⟩)
    refine h.add hv' ht' (Nat.le_refl 1) rfl rfl ?_ ?_ ?_ hfd hfd (by simp) ?_
    · intro hnr
      rw [← hlast]
      constructor
      · rintro (⟨j, hj⟩ | ⟨j, hj⟩)
        · exact absurd (.inl ⟨j, hj⟩) hnr
        · obtain rfl := hothers hnr j hj
          simpa using hj
      · intro hl
        exact .inr ⟨i, by simp [hl]⟩
    · intro hnr j _ hj
      exact absurd (.inl ⟨j, hj⟩) hnr
    · intro hnr j k hj hk
      rw [hothers hnr j hj, hothers hnr k hk]
    · exact update_eq_iff (by simp [hi]) (by simp)
  | finish i last hi =>
    cases last with
    | false => exact h.frame rfl rfl (by simp [hi]) (by simp [hi]) (by simp [hi]) (by simp) (by simp)
    | true =>
      refine h.share (.inl ⟨i, hi⟩) ?_ rfl rfl
      rintro (⟨j, hj⟩ | ⟨j, hj⟩)
      · cases hj
      · exact h.fastAlone i j hi hj
  | slowFinish i last hi =>
    cases last with
    | false => exact h.setSlow i _ rfl rfl rfl rfl (by simp [hi]) (by simp) (by simp [hi]) (by simp)
    | true =>
      refine h.share (.inr ⟨i, hi⟩) ?_ rfl rfl
      rintro (⟨j, hj⟩ | ⟨j, hj⟩)
      · exact h.fastAlone j i hj hi
      · by_cases hji : j = i
        · subst hji
          simp at hj
        · simp only [update_of_ne hji] at hj
          exact hji (h.slowAlone j i hj hi)
  | ret hi us hu =>
    have hcn : v.count ≠ n := by
      intro hc
      rw [hi] at hb
      have h0 := ht.eq_iff.mp hc 0 hb.1
      simp [View.counted, hi, Fast.counts, hv.first, Slow.counts] at h0
    have hnil : v.results = [] := by
      refine h.none hcn (by simp [hi]) ?_
      intro i e hin _
      refine ⟨by simp [hi], ?_⟩
      intro hr
      have htk := (hv.taken_le (i := i) (by simp [hr]) (by simp [hr])).1
      rw [hi] at htk
      exact absurd htk (Nat.not_le_of_lt hin)
    refine Outcomes.deliver hcn (by simp) (by simp) (h.not_ending hcn) (.inl ⟨us, ?_, hu, rfl⟩)
    rw [hnil]
  | throw i hi e he =>
    rw [hi] at hb
    obtain ⟨hin, e', he'⟩ := hb
    rw [he'] at he
    obtain rfl := Option.some.inj he
    have hcn := count_ne_of_error hv ht hin he'
    have hl : Leftmost out i e' := ⟨he', fun j hj => hv.done j (by rw [hi]; exact hj)⟩
    have hnil : v.results = [] := by
      refine h.none hcn (by simp [hi]) ?_
      intro i' e' _ hl'
      refine ⟨by simp [hi], ?_⟩
      intro hr
      have htk := (hv.taken_le (i := i') (by simp [hr]) (by simp [hr])).1
      rw [hi, hl.unique hl'] at htk
      exact absurd htk (Nat.not_succ_le_self i')
    refine Outcomes.deliver hcn (by simp) (by simp) (h.not_ending hcn) (.inr ⟨i, e', ?_, hin, hl, .inl rfl⟩)
    rw [hnil]
  | slowThrow i hi e he =>
    have hl := leftmost_of_throw hv hh hi he
    obtain ⟨htk, hin⟩ := hv.taken_le (i := i) (by simp [hi]) (by simp [hi])
    have hcn := count_ne_of_error hv ht hin hl.1
    have hnil : v.results = [] := by
      refine h.none hcn ?_ ?_
      · intro hd
        rw [hd] at htk
        exact absurd htk (Nat.not_le_of_lt hin)
      · intro i' e' _ hl'
        obtain rfl := hl.unique hl'
        refine ⟨?_, by simp [hi]⟩
        intro hr
        rw [hr] at htk
        exact absurd htk (Nat.not_succ_le_self i)
    refine Outcomes.deliver hcn (by simp) (h.not_fast_ending hcn) ?_
      (.inr ⟨i, e, ?_, hin, hl, .inr (update_self _ _ _)⟩)
    · intro j
      rw [ne_eq, update_eq_iff (by simp [hi]) (by simp)]
      exact h.not_ending hcn j
    · rw [hnil]
  | steal i hi | slowStart i hi | slowValue i hi | slowExn i hi | slowStore i hi | slowHandler i k k' hi =>
    exact h.setSlow i _ rfl rfl rfl rfl (by simp [hi]) (by simp) (by simp [hi]) (by simp)

/-! ## All of it -/

structure Valid (n : Nat) (out : Nat → Outcome) (v : View) : Prop where
  shape : Shape n out v
  handles : Handles out v
  tallied : Tallied n v
  outcomes : Outcomes n out v

theorem valid_init (hn : 2 ≤ n) : Valid n out (View.init n) :=
  ⟨shape_init n out hn, handles_init, tallied_init, outcomes_init hn⟩

theorem valid_move (hn : n ≤ 2 ^ 32) (hH : Handlers hf hs out) (h : Valid n out v) (hm : Move n hf hs out v v') :
    Valid n out v' :=
  ⟨shape_move h.shape hm, handles_move h.shape hH h.handles hm, tallied_move h.shape h.tallied hm,
    outcomes_move hn h.shape h.handles h.tallied h.outcomes hm⟩

theorem concrete_init (hn : 2 ≤ n) : (View.init n).concrete n hf hs out = init (clones n hf hs) := by
  ext1
  · funext j
    by_cases hj : j = 0
    · have hk : n - 2 + 1 = n - 1 := by omega
      have henv : envTo out 0 = fun _ => none := rfl
      simp only [concrete, View.init, init, clones, hj, if_pos, Fast.worker, hk, tuple, fastFrom, henv,
        update_self]
      rfl
    · simp [concrete, View.init, init, hj, Slow.worker]
  · rfl
  · funext j
    simp [concrete, View.init, init, slot, stored, stores, Slow.stores]
  · rfl
  · rfl
  · rfl

/-- Every reachable state is that of a valid view. -/
theorem reach_view (h2 : 2 ≤ n) (hn : n ≤ 2 ^ 32) (hH : Handlers hf hs out) {s : State}
    (h : Reach (clones n hf hs) out s) : ∃ v, Valid n out v ∧ s = v.concrete n hf hs out := by
  induction h with
  | init => exact ⟨View.init n, valid_init h2, (concrete_init h2).symm⟩
  | step _ hst ih =>
    obtain ⟨v, hv, rfl⟩ := ih
    rcases step_move hv.shape hv.handles hst with rfl | ⟨v', hm, rfl⟩
    · exact ⟨v, hv, rfl⟩
    · exact ⟨v', valid_move hn hH hv hm, rfl⟩

end Manticore.Translate.PTup
