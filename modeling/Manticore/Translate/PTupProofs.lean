/-
  Manticore.Translate.PTupProofs — flat parallel tuples without exceptions (`trWithoutExh`).

  Runs end (`step_rank`), and at the end each clone is through or waits for an element that is not there
  (`quiescent_fast`, `quiescent_slow`). So each element is evaluated once, and one worker returns, with the
  complete tuple (`trWithoutExh_evaluatesOnce`).
-/

import Manticore.Translate.PTupInv

namespace Manticore.Translate.PTup

open Code
open Fast (starts counts)
open View (counted concrete)
open State (setWorker)
open Worker (goto)

variable {n : Nat} {hf hs : Nat → Code} {out : Nat → Outcome}

/-! ## Runs end -/

/-- The operations of a handler. -/
def handlerSize : Code → Nat
  | .cancel _ k | .waitOn _ k => handlerSize k + 1
  | _ => 1

/-- More than the fast clone has to do after its last evaluation. -/
def tailRank (n : Nat) (hf : Nat → Code) : Nat := n + 3 + ∑ i ∈ Finset.range n, handlerSize (hf i)

def Fast.rank (n : Nat) (hf : Nat → Code) : Fast → Nat
  | .spawning k => tailRank n hf + 3 * n + 2 + k
  | .evaluating i false => tailRank n hf + 3 * (n - i) + 1
  | .evaluating i true => tailRank n hf + 3 * (n - i)
  | .next i => tailRank n hf + 3 * (n - i) + 2
  | .storing _ k => k + 3
  | .ending _ _ => 1
  | .raising _ k => handlerSize k
  | .ended _ | .returned | .raised _ => 0

def Slow.rank (handler : Code) : Slow → Nat
  | .unspawned => handlerSize handler + 7
  | .queued => handlerSize handler + 6
  | .evaluating false => handlerSize handler + 5
  | .evaluating true => handlerSize handler + 4
  | .valued => 3
  | .stored => 2
  | .ending _ => 1
  | .raising k => handlerSize k
  | .removed | .ended | .raised => 0

/-- What is left to do. -/
def View.rank (n : Nat) (hf hs : Nat → Code) (v : View) : Nat :=
  v.fast.rank n hf + ∑ i ∈ Finset.range n, (v.slow i).rank (hs i)

variable {i : Nat} {v v' : View} {s : State} {j : Nat} {w : Worker}

theorem handlerSize_le (hi : i < n) : handlerSize (hf i) + n + 3 ≤ tailRank n hf := by
  have hle : handlerSize (hf i) ≤ ∑ i ∈ Finset.range n, handlerSize (hf i) :=
    Finset.single_le_sum (f := fun i => handlerSize (hf i)) (fun _ _ => Nat.zero_le _) (Finset.mem_range.mpr hi)
  rw [tailRank]
  omega

theorem sum_rank_update {slow : Nat → Slow} {x : Slow} (hi : i < n) (hx : x.rank (hs i) < (slow i).rank (hs i)) :
    ∑ j ∈ Finset.range n, (Function.update slow i x j).rank (hs j) < ∑ j ∈ Finset.range n, (slow j).rank (hs j) :=
      by
  refine Finset.sum_lt_sum ?_ ⟨i, Finset.mem_range.mpr hi, by rwa [Function.update_self]⟩
  grind

theorem handlerSize_step {k k' : Code} (h : HandlerStep out v k k') : handlerSize k' < handlerSize k := by
  cases h with
  | cancel | waitOn => exact Nat.lt_succ_self _

/-- A move of the fast clone alone. -/
theorem rank_setFast (hslow : v'.slow = v.slow) (h : v'.fast.rank n hf < v.fast.rank n hf) :
    v'.rank n hf hs < v.rank n hf hs := by
  rw [View.rank, View.rank, hslow]
  exact Nat.add_lt_add_right h _

/-- A move of slow clone `i` alone. -/
theorem rank_setSlow (hv : Shape n out v) {x : Slow} (hfast : v'.fast = v.fast)
    (hslow : v'.slow = Function.update v.slow i x) (hu : v.slow i ≠ .unspawned)
    (h : x.rank (hs i) < (v.slow i).rank (hs i)) : v'.rank n hf hs < v.rank n hf hs := by
  have hin : i < n := by
    by_contra hge
    exact hu (hv.outside i (Nat.le_of_not_lt hge))
  rw [View.rank, View.rank, hslow, hfast]
  exact Nat.add_lt_add_left (sum_rank_update hin h) _

theorem move_rank (hv : Shape n out v) (hm : Move n hf hs out v v') : v'.rank n hf hs < v.rank n hf hs := by
  have hb := hv.bounds
  cases hm with
  | spawn k hk =>
    rw [hk] at hb
    refine Nat.add_lt_add ?_ (sum_rank_update hb (by simp [hv.spawns hk, Slow.rank]))
    rw [hk]
    cases k with
    | zero | succ => simp only [afterSpawn, Fast.rank]; omega
  | take i hi hin hq =>
    refine Nat.add_lt_add ?_ (sum_rank_update hin (by simp [hq, Slow.rank]))
    simp only [hi, Fast.rank]
    omega
  | start _ hi | store _ _ hi | add _ hi | finish _ _ hi => exact rank_setFast rfl (by simp [hi, Fast.rank])
  | value i hi u hu =>
    rw [hi] at hb
    refine rank_setFast rfl ?_
    simp only [hi, Fast.rank]
    have hlt : i < n := hb
    omega
  | exn i hi e he =>
    rw [hi] at hb
    have hle := @handlerSize_le n hf i hb
    refine rank_setFast rfl ?_
    simp only [hi, Fast.rank]
    omega
  | handOver i hi hin hq =>
    have hle := @handlerSize_le n hf i hin
    refine rank_setFast rfl ?_
    simp only [hi, Fast.rank]
    omega
  | ret hi us hu =>
    refine rank_setFast rfl ?_
    simp only [hi, Fast.rank]
    omega
  | handler i k k' hi hk =>
    refine rank_setFast rfl ?_
    simpa only [hi, Fast.rank] using handlerSize_step hk
  | throw i hi e he => exact rank_setFast rfl (by simp [hi, Fast.rank, handlerSize])
  | slowHandler i k k' hi hk =>
    refine rank_setSlow hv rfl rfl (by simp [hi]) ?_
    simpa only [hi, Slow.rank] using handlerSize_step hk
  | slowExn _ hi _ _ | slowValue _ hi _ _ =>
    refine rank_setSlow hv rfl rfl (by simp [hi]) ?_
    simp only [hi, Slow.rank]
    omega
  | slowThrow i hi e he => exact rank_setSlow hv rfl rfl (by simp [hi]) (by simp [hi, Slow.rank, handlerSize])
  | steal i hi | slowStart i hi | slowStore i hi | slowAdd i hi | slowFinish i last hi =>
    exact rank_setSlow hv rfl rfl (by simp [hi]) (by simp [hi, Slow.rank])

/-! ## The end of a run -/

/-- What a worker that cannot go on is at. -/
def Stuck (s : State) (w : Worker) : Prop :=
  match w.code with
  | .update _ v _ => w.env v = none
  | .retTuple vs => vs.mapM w.env = none
  | .throw => w.exn = none
  | .waitOn i _ => isNil (s.slots i) = true
  | _ => False

theorem stuck_of_none (h : stepWorker out s j w = none) : Stuck s w := by
  obtain ⟨code, started, env, exn⟩ := w
  cases code with
  | eval i k handler =>
    grind [stepWorker]
  | remove i k k' =>
    simp only [stepWorker] at h
    by_cases hq : s.threads i = .queued <;> simp [hq] at h
  | waitOn i k =>
    simp only [stepWorker] at h
    cases hnil : isNil (s.slots i) <;> simp [hnil] at h
  | update | retTuple | throw => simpa [stepWorker, Stuck] using h
  | spawn | fetchAdd | retShared | stop | cancel => simp [stepWorker] at h

/-- A step that leaves the worker as it is waits on. -/
theorem stuck_of_same {s' : State} (h : stepWorker out s j w = some s') (hw : s'.workers j = some w) :
    Stuck s w := by
  obtain ⟨code, started, env, exn⟩ := w
  cases code with
  | eval i k handler =>
    simp only [stepWorker] at h
    cases started with
    | false =>
      obtain rfl := Option.some.inj h
      simp [setWorker] at hw
    | true =>
      cases ho : out i with
      | ok | error =>
        simp only [ho, if_true] at h
        obtain rfl := Option.some.inj h
        simp [setWorker] at hw
  | spawn | cancel =>
    obtain rfl := Option.some.inj h
    simp [setWorker, goto] at hw
    cases hw
  | remove i k k' =>
    simp only [stepWorker] at h
    by_cases hq : s.threads i = .queued
    · rw [if_pos hq] at h
      obtain rfl := Option.some.inj h
      simp [setWorker, goto] at hw
      cases hw
    · rw [if_neg hq] at h
      obtain rfl := Option.some.inj h
      simp [setWorker, goto] at hw
      cases hw
  | update i v k =>
    obtain ⟨u, -, rfl⟩ := Option.map_eq_some_iff.mp h
    simp [setWorker, goto] at hw
    cases hw
  | fetchAdd wV nV last rest =>
    obtain rfl := Option.some.inj h
    by_cases hc : nV = s.counter <;> simp [setWorker, goto, hc] at hw <;> cases hw
  | retTuple vs =>
    obtain ⟨us, -, rfl⟩ := Option.map_eq_some_iff.mp h
    simp [setWorker] at hw
  | retShared | stop =>
    obtain rfl := Option.some.inj h
    simp [setWorker] at hw
  | waitOn i k =>
    simp only [stepWorker] at h
    cases hnil : isNil (s.slots i) with
    | true => exact hnil
    | false =>
      rw [hnil, if_neg (by decide)] at h
      obtain rfl := Option.some.inj h
      simp [setWorker, goto] at hw
      cases hw
  | throw =>
    obtain ⟨e, -, rfl⟩ := Option.map_eq_some_iff.mp h
    simp [setWorker] at hw

theorem Quiescent.stuck {c : Clones} (hq : Quiescent c out s) (hw : s.workers j = some w) : Stuck s w := by
  cases hst : stepWorker out s j w with
  | none => exact stuck_of_none hst
  | some s' =>
    have heq := hq s' (.worker j hw hst)
    exact stuck_of_same hst (by rw [heq]; exact hw)

theorem mapM_some {f : Nat → Option Val} {g : Nat → Val} {l : List Nat} (h : ∀ j ∈ l, f j = some (g j)) :
    l.mapM f = some (l.map g) := by
  induction l with
  | nil => rfl
  | cons j l ih =>
    rw [List.mapM_cons, h j (by simp), ih fun j' hj' => h j' (by simp [hj'])]
    rfl

theorem envTo_some (hj : j < i) {u : Val} (hu : out j = .ok u) : envTo out i j = some u := by
  rw [envTo, if_pos hj, hu, valOf_ok]

/-- The variables of elements that have values. -/
theorem mapM_envTo (h : ∀ j < n, ∃ u, out j = .ok u) :
    (List.range n).mapM (envTo out n) = some ((List.range n).map fun j => (valOf (out j)).getD nilVal) := by
  grind [mapM_some, envTo_some, valOf_ok]

/-- The fast clone is never stuck. -/
theorem not_stuck_fast (hv : Valid n out v) (hw : v.fast.worker n hf out = some w) :
    ¬ Stuck (v.concrete n hf hs out) w := by
  intro hs'
  have hb := hv.shape.bounds
  have hdone := hv.shape.done
  cases hf' : v.fast with
  | ended | returned | raised =>
    rw [hf'] at hw
    cases hw
  | spawning | evaluating =>
    rw [hf'] at hw
    obtain rfl := Option.some.inj hw
    exact hs'
  | ending h last =>
    rw [hf'] at hw
    obtain rfl := Option.some.inj hw
    cases last <;> exact hs'
  | next i =>
    rw [hf'] at hb hdone hw
    obtain rfl := Option.some.inj hw
    rcases Nat.lt_or_eq_of_le hb.2 with hlt | rfl
    · rw [fastFrom_lt hf hlt] at hs'
      exact hs'
    · rw [fastFrom_self] at hs'
      have hall : ∀ j < i, ∃ u, out j = .ok u := hdone
      have hnone : (List.range i).mapM (envTo out i) = none := hs'
      rw [mapM_envTo hall] at hnone
      cases hnone
  | storing h k =>
    rw [hf'] at hb hdone hw
    obtain rfl := Option.some.inj hw
    cases k with
    | zero => exact hs'
    | succ k =>
      rw [storeAll_range] at hs'
      have hlt : k < h := hb.2.2
      obtain ⟨u, hu⟩ := hdone k hlt
      have hnone : envTo out h k = none := hs'
      rw [envTo_some hlt hu] at hnone
      cases hnone
  | raising i k =>
    rw [hf'] at hb hw
    obtain rfl := Option.some.inj hw
    have hk := hv.handles.fast i k hf'
    cases hk with
    | cancel => exact hs'
    | waitOn hlt => exact absurd hlt (Nat.not_lt_zero _)
    | throw =>
      obtain ⟨-, e, he⟩ := hb
      have hnone : exnOf (out i) = none := hs'
      rw [he] at hnone
      cases hnone

/-- A slow clone is stuck only where it waits for an element to its left that is nil. -/
theorem stuck_slow (hv : Valid n out v) (hw : (v.slow i).worker n hs out i = some w)
    (hs' : Stuck (v.concrete n hf hs out) w) :
    ∃ p k, v.slow i = .raising (.waitOn p k) ∧ p < i ∧ isNil (v.slot out p) = true := by
  have ha := hv.shape.agrees i
  cases hx : v.slow i with
  | removed | ended | raised | unspawned | queued =>
    rw [hx] at hw
    cases hw
  | evaluating | stored =>
    rw [hx] at hw
    obtain rfl := Option.some.inj hw
    exact hs'.elim
  | ending last =>
    rw [hx] at hw
    obtain rfl := Option.some.inj hw
    cases last <;> exact hs'.elim
  | valued =>
    rw [hx] at ha hw
    obtain rfl := Option.some.inj hw
    obtain ⟨u, hu⟩ := ha
    have hnone : Function.update (fun _ => none) i (valOf (out i)) i = none := hs'
    rw [Function.update_self, hu] at hnone
    cases hnone
  | raising k =>
    rw [hx] at ha hw
    obtain rfl := Option.some.inj hw
    obtain ⟨p, hk, -⟩ := hv.handles.slow i k hx
    cases hk with
    | cancel => exact hs'.elim
    | @waitOn _ k hlt _ => exact ⟨p, k, rfl, hlt, hs'⟩
    | throw =>
      obtain ⟨e, he⟩ := ha
      have hnone : exnOf (out i) = none := hs'
      rw [he] at hnone
      cases hnone

/-- The fast clone gets to its end. -/
theorem quiescent_fast (hv : Valid n out v) (hq : Quiescent (clones n hf hs) out (v.concrete n hf hs out)) :
    (∃ h, v.fast = .ended h) ∨ v.fast = .returned ∨ ∃ i, v.fast = .raised i := by
  have hnone : v.fast.worker n hf out = none := by
    cases hw : v.fast.worker n hf out with
    | none => rfl
    | some w => exact absurd (hq.stuck (j := 0) hw) (not_stuck_fast hv hw)
  cases hf' : v.fast <;> simp [hf', Fast.worker] at hnone ⊢

/-- A slow clone gets to its end, or waits for an element to its left that is nil. -/
theorem quiescent_slow (hv : Valid n out v) (hq : Quiescent (clones n hf hs) out (v.concrete n hf hs out))
    (hi : 1 ≤ i) (hin : i < n) :
    v.slow i = .removed ∨ v.slow i = .ended ∨ v.slow i = .raised ∨ ∃ p k, v.slow i = .raising (.waitOn p k) ∧ p < i
      ∧ isNil (v.slot out p) = true := by
  have hi0 : i ≠ 0 := by omega
  cases hw : (v.slow i).worker n hs out i with
  | some w =>
    have hst : Stuck (v.concrete n hf hs out) w := by
      refine hq.stuck (j := i) ?_
      rw [← hw]
      exact if_neg hi0
    exact .inr (.inr (.inr (stuck_slow hv hw hst)))
  | none =>
    cases hx : v.slow i with
    | removed => exact .inl rfl
    | ended => exact .inr (.inl rfl)
    | raised => exact .inr (.inr (.inl rfl))
    | unspawned =>
      obtain ⟨k, hk, -⟩ := (hv.shape.unspawned i hi hin).mp hx
      have hend := quiescent_fast hv hq
      simp [hk] at hend
    | queued =>
      have hth : (v.concrete n hf hs out).threads i = .queued := threads_queued.mpr hx
      have heq := congrArg (fun s => s.threads i) (hq _ (.steal i hth))
      simp only [Function.update_self, hth] at heq
      cases heq
    | evaluating | valued | stored | ending | raising =>
      rw [hx] at hw
      cases hw

/-! ## Without exceptions -/

/-- A result is the complete tuple of the values. -/
def Result.Complete (n : Nat) (vals : Nat → Val) (s : State) : Result → Prop
  | .shared => ∀ i < n, s.slots i = vals i
  | .tuple us => us = (List.range n).map vals
  | .raised _ => False

/-- What holds at every moment. -/
structure EvaluatesOnce (n : Nat) (vals : Nat → Val) (s : State) : Prop where
  once : ∀ i, s.starts i ≤ 1
  alone : s.results.length ≤ 1
  complete : ∀ r ∈ s.results, r.Complete n vals s
  /-- A worker about to return the shared tuple finds all elements stored. -/
  stored : ∀ j w, s.workers j = some w → w.code = .retShared → ∀ i < n, s.slots i = vals i

/-- What holds when nothing is left to do. -/
structure Finished (n : Nat) (s : State) : Prop where
  started : ∀ i < n, s.starts i = 1
  returned : s.results.length = 1

theorem Fast.starts_le (f : Fast) (j : Nat) : f.starts n j ≤ 1 := by
  cases f with
  | spawning => exact Nat.zero_le 1
  | _ =>
    simp only [starts]
    split <;> omega

/-- The fast clone starts only the elements it has taken. -/
theorem Fast.starts_of_not_taken {f : Fast} (hj : ¬ j < f.taken n) : f.starts n j = 0 := by
  cases f with
  | spawning => rfl
  | _ =>
    simp only [Fast.taken] at hj
    simp only [starts]
    split <;> omega

theorem Slow.starts_le (x : Slow) : x.starts ≤ 1 := by
  cases x with
  | evaluating started => cases started <;> decide
  | unspawned | queued | removed => exact Nat.zero_le 1
  | valued | stored | ending | ended | raising | raised => exact Nat.le_refl 1

theorem starts_le (hv : Valid n out v) (i : Nat) : v.fast.starts n i + (v.slow i).starts ≤ 1 := by
  have hfast := v.fast.starts_le (n := n) i
  have hslow := (v.slow i).starts_le
  by_cases hi : i < v.fast.taken n
  · rcases hv.shape.slow_of_taken hi with h | h
    · have h0 : (v.slow i).starts = 0 := by rw [h]; rfl
      omega
    · have h0 : (v.slow i).starts = 0 := by rw [h]; rfl
      omega
  · have h0 := Fast.starts_of_not_taken hi
    omega

/-- With the count full, every element is in the shared tuple. -/
theorem slot_of_full (hv : Valid n out v) (hc : v.count = n) (hi : i < n) :
    ∃ u, out i = .ok u ∧ v.slot out i = u := by
  have hcnt := hv.tallied.eq_iff.mp hc i hi
  obtain ⟨u, hu⟩ := counted_ok hv.shape hcnt
  have hst : v.stored i = true := by
    rw [counted, Bool.or_eq_true] at hcnt
    rw [View.stored, Bool.or_eq_true]
    rcases hcnt with hf' | hs'
    · left
      cases hx : v.fast <;> simp_all [counts, Fast.stores]
    · right
      cases hx : v.slow i <;> simp_all [Slow.counts, Slow.stores]
  exact ⟨u, hu, by rw [View.slot, if_pos hst, hu, valOf_ok, Option.getD_some]⟩

/-- At most one result, at any time. -/
theorem results_le (hv : Valid n out v) : v.results.length ≤ 1 := by
  rcases hv.outcomes.results with h | ⟨h, -⟩ | ⟨us, h, -⟩ | ⟨i, e, h, -⟩
  · rw [h]
    exact Nat.zero_le 1
  · rw [h]
    exact Nat.le_refl 1
  · rw [h]
    exact Nat.le_refl 1
  · rw [h]
    exact Nat.le_refl 1

/-- A result other than an exception is the complete tuple. -/
theorem results_complete (hv : Valid n out v) {vals : Nat → Val} (hvals : ∀ i < n, out i = .ok (vals i))
    {r : Result} (hr : r ∈ v.results) : r.Complete n vals (v.concrete n hf hs out) := by
  rcases hv.outcomes.results with h | ⟨h, hc⟩ | ⟨us, h, hus, -⟩ | ⟨i, e, -, hin, hl, -⟩
  · rw [h] at hr
    cases hr
  · rw [h, List.mem_singleton] at hr
    subst hr
    intro i hi
    obtain ⟨u, hu, hslot⟩ := slot_of_full hv hc hi
    rw [hvals i hi] at hu
    exact hslot.trans (Except.ok.inj hu).symm
  · rw [h, List.mem_singleton] at hr
    grind [mapM_envTo, Result.Complete, List.map_congr_left, valOf_ok]
  · have hv' := hvals i hin
    rw [hl.1] at hv'
    cases hv'

theorem fast_retShared (hv : Valid n out v) (hw : v.fast.worker n hf out = some w) (hc : w.code = .retShared) :
    v.Returning := by
  have hb := hv.shape.bounds
  cases hf' : v.fast with
  | ended | returned | raised =>
    rw [hf'] at hw
    cases hw
  | spawning | evaluating =>
    rw [hf'] at hw
    obtain rfl := Option.some.inj hw
    cases hc
  | ending h last =>
    rw [hf'] at hw
    obtain rfl := Option.some.inj hw
    cases last with
    | true => exact .inl ⟨h, hf'⟩
    | false => cases hc
  | next i =>
    rw [hf'] at hb hw
    obtain rfl := Option.some.inj hw
    rcases Nat.lt_or_eq_of_le hb.2 with hlt | rfl
    · rw [fastFrom_lt hf hlt] at hc
      cases hc
    · rw [fastFrom_self] at hc
      cases hc
  | storing h k =>
    rw [hf'] at hw
    obtain rfl := Option.some.inj hw
    cases k with
    | zero => cases hc
    | succ k =>
      rw [storeAll_range] at hc
      cases hc
  | raising i k =>
    rw [hf'] at hw
    obtain rfl := Option.some.inj hw
    have hk := hv.handles.fast i k hf'
    obtain rfl : k = .retShared := hc
    cases hk

theorem slow_retShared (hv : Valid n out v) (hw : (v.slow i).worker n hs out i = some w) (hc : w.code = .retShared)
    : v.Returning := by
  cases hx : v.slow i with
  | unspawned | queued | removed | ended | raised =>
    rw [hx] at hw
    cases hw
  | evaluating | valued | stored =>
    rw [hx] at hw
    obtain rfl := Option.some.inj hw
    cases hc
  | ending last =>
    rw [hx] at hw
    obtain rfl := Option.some.inj hw
    cases last with
    | true => exact .inr ⟨i, hx⟩
    | false => cases hc
  | raising k =>
    rw [hx] at hw
    obtain rfl := Option.some.inj hw
    obtain ⟨p, hk, -⟩ := hv.handles.slow i k hx
    obtain rfl : k = .retShared := hc
    cases hk

/-- A worker at the return of the shared tuple: the count is full. -/
theorem full_of_retShared (hv : Valid n out v) (hw : (v.concrete n hf hs out).workers j = some w)
    (hc : w.code = .retShared) : v.count = n := by
  have hret : v.Returning := by
    by_cases hj : j = 0
    · exact fast_retShared hv (by simpa [concrete, hj] using hw) hc
    · exact slow_retShared hv (by simpa [concrete, hj] using hw) hc
  exact (hv.outcomes.returning hret).1

/-- A run of clones none of which waits gets on with every step. -/
theorem step_rank (hv : Valid n out v) (hok : ∀ i, ∃ u, out i = .ok u) {s' : State}
    (hst : Step (clones n hf hs) out (v.concrete n hf hs out) s') :
    ∃ v', Move n hf hs out v v' ∧ s' = v'.concrete n hf hs out := by
  rcases step_move hv.shape hv.handles hst with heq | hm
  · exfalso
    cases hst with
    | @worker _ j w hw hstep =>
      subst heq
      have hstuck := stuck_of_same hstep hw
      by_cases hj : j = 0
      · exact not_stuck_fast hv (by simpa [concrete, hj] using hw) hstuck
      · obtain ⟨p, k, hx, -⟩ := stuck_slow hv (by simpa [concrete, hj] using hw) hstuck
        have ha := hv.shape.agrees j
        rw [hx] at ha
        obtain ⟨e, he⟩ := ha
        obtain ⟨u, hu⟩ := hok j
        rw [he] at hu
        cases hu
    | steal i hi =>
      have hth := congrArg (fun s => s.threads i) heq
      simp only [Function.update_self, hi] at hth
      cases hth
  · exact hm

/-- Without exceptions, every run ends. -/
theorem acc_step (hn : n ≤ 2 ^ 32) (hok : ∀ i, ∃ u, out i = .ok u) (hv : Valid n out v) :
    Acc (fun s' s => Step (clones n hf hs) out s s') (v.concrete n hf hs out) := by
  have hH : Handlers hf hs out := by
    intro i e he
    obtain ⟨u, hu⟩ := hok i
    rw [he] at hu
    cases hu
  induction hr : v.rank n hf hs using Nat.strong_induction_on generalizing v with
  | _ r ih =>
    refine .intro _ ?_
    intro s' hst
    obtain ⟨v', hm, rfl⟩ := step_rank hv hok hst
    exact ih _ (hr ▸ move_rank hv.shape hm) (valid_move hn hH hv hm) rfl

/-- When nothing is left to do, every element has been started, and there is a result. -/
theorem finished (hv : Valid n out v) (hok : ∀ i < n, ∃ u, out i = .ok u)
    (hq : Quiescent (clones n hf hs) out (v.concrete n hf hs out)) : Finished n (v.concrete n hf hs out) := by
  have noerr : ∀ {i : Nat} {P : Prop}, i < n → (∃ e, out i = .error e) → P := by
    grind
  have hslow : ∀ i, 1 ≤ i → i < n → v.slow i = .removed ∨ v.slow i = .ended := by
    intro i hi hin
    have ha := hv.shape.agrees i
    rcases quiescent_slow hv hq hi hin with h | h | h | ⟨p, k, h, -⟩
    · exact .inl h
    · exact .inr h
    · rw [h] at ha
      exact noerr hin ha
    · rw [h] at ha
      exact noerr hin ha
  have hb := hv.shape.bounds
  rcases quiescent_fast hv hq with ⟨h, hf'⟩ | hf' | ⟨i, hf'⟩
  · rw [hf'] at hb
    have h1 : 1 ≤ h := hb.1
    have hstart : ∀ i < n, v.counted i = true ∧ v.fast.starts n i + (v.slow i).starts = 1 := by
      intro i hin
      by_cases hih : i < h
      · have hs' : (v.slow i).starts = 0 := by
          rcases hv.shape.slow_of_taken (j := i) (by rw [hf']; exact hih) with hx | hx <;> rw [hx] <;> rfl
        simp [counted, hf', counts, hih, hs', starts]
      · have hx : v.slow i = .ended := by
          rcases hslow i (by omega) hin with hx | hx
          · have hlt := ((hv.shape.removed i).mp hx).2
            rw [hf'] at hlt
            exact absurd hlt hih
          · exact hx
        simp [counted, hx, Slow.counts, hf', starts, Slow.starts, hih]
    refine ⟨fun i hi => (hstart i hi).2, ?_⟩
    have hfull := hv.tallied.eq_iff.mpr fun i hi => (hstart i hi).1
    show v.results.length = 1
    rcases hv.outcomes.full hfull with (⟨i, hi⟩ | ⟨i, hi⟩) | hres
    · rw [hf'] at hi
      cases hi
    · by_cases hi0 : 1 ≤ i ∧ i < n
      · rcases hslow i hi0.1 hi0.2 with hx | hx <;> rw [hx] at hi <;> cases hi
      · have htk := hv.shape.taken_le (i := i) (by simp [hi]) (by simp [hi])
        rw [hf'] at htk
        exact absurd ⟨h1.trans htk.1, htk.2⟩ hi0
    · rw [hres]
      rfl
  · constructor
    · intro i hi
      have hs' : (v.slow i).starts = 0 := by
        rcases hv.shape.slow_of_taken (j := i) (by rw [hf']; exact hi) with hx | hx <;> rw [hx] <;> rfl
      show v.fast.starts n i + (v.slow i).starts = 1
      rw [hs', hf']
      simp [starts, hi]
    · have hne := hv.outcomes.returned hf'
      have hle := results_le hv
      show v.results.length = 1
      cases hres : v.results with
      | nil => exact absurd hres hne
      | cons r rs =>
        rw [hres] at hle
        simp only [List.length_cons] at hle ⊢
        omega
  · rw [hf'] at hb
    exact noerr hb.1 hb.2

/-- A flat parallel tuple of elements that raise no exception: every run ends, each element is evaluated once, and
    one worker returns, with the complete tuple. (`tr` makes flat tuples of at most four elements; the counter
    is good for up to `2 ^ 32`.) -/
theorem trWithoutExh_evaluatesOnce {n : Nat} (h2 : 2 ≤ n) (hn : n ≤ 2 ^ 32) (vals : Nat → Val) :
    Acc (fun s' s => Step (trWithoutExh n) (fun i => .ok (vals i)) s s') (init (trWithoutExh n)) ∧
      ∀ s, Reach (trWithoutExh n) (fun i => .ok (vals i)) s → EvaluatesOnce n vals s ∧
        (Quiescent (trWithoutExh n) (fun i => .ok (vals i)) s → Finished n s) := by
  have hclones : trWithoutExh n = clones n (fun _ => .throw) (fun _ => .throw) := rfl
  have hok : ∀ i, ∃ u, (fun i => Except.ok (vals i) : Nat → Outcome) i = .ok u := fun i => ⟨vals i, rfl⟩
  have hH : Handlers (fun _ => .throw) (fun _ => .throw) (fun i => .ok (vals i)) := by
    intro i e he
    cases he
  rw [hclones]
  constructor
  · rw [← @concrete_init n _ _ (fun i => .ok (vals i)) h2]
    exact acc_step hn hok (valid_init h2)
  · intro s hs
    obtain ⟨v, hv, rfl⟩ := reach_view h2 hn hH hs
    refine ⟨⟨starts_le hv, results_le hv, ?_, ?_⟩, finished hv fun i _ => hok i⟩
    · intro r hr
      exact results_complete hv (fun _ _ => rfl) hr
    · intro j w hw hc i hi
      obtain ⟨u, hu, hslot⟩ := slot_of_full hv (full_of_retShared hv hw hc) hi
      exact hslot.trans (Except.ok.inj hu).symm

/-- A pair. -/
theorem trWithoutExh_pair :
    Acc (fun s' s => Step (trWithoutExh 2) (fun _ => .ok nilVal) s s') (init (trWithoutExh 2)) ∧
      ∀ s, Reach (trWithoutExh 2) (fun _ => .ok nilVal) s → EvaluatesOnce 2 (fun _ => nilVal) s ∧
        (Quiescent (trWithoutExh 2) (fun _ => .ok nilVal) s → Finished 2 s) :=
  trWithoutExh_evaluatesOnce (by decide) (by decide) fun _ => nilVal

end Manticore.Translate.PTup
