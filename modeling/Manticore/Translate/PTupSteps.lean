/-
  Manticore.Translate.PTupSteps — the clones of a flat parallel tuple move as its views do (`step_move`).

  A step of a worker is a move of the view it is at, or leaves the state as it is: a clone whose handler waits
  for an element that is not there. One lemma for each way a state can change brings the state in the form of
  a view again (`setFast_concrete`, `setSlow_concrete`, `setThread_concrete`, the stores).
-/

import Manticore.Translate.PTupView

namespace Manticore.Translate.PTup

open Code
open Function (update update_eq_self)
open View (concrete slot)
open State (setWorker)
open Fast (starts stores)

variable {n : Nat} {hf hs : Nat → Code} {out : Nat → Outcome}

/-! ## The clones move as the views do -/

variable {v v' : View} {s' : State} {i : Nat} {x : Slow} {u : Val}

/-- The state when the fast clone has moved on, without a store. -/
theorem setFast_concrete (hslow : v'.slow = v.slow) (hst : ∀ j, v'.fast.stores j = v.fast.stores j)
    (hw : s'.workers = update (v.concrete n hf hs out).workers 0 (v'.fast.worker n hf out))
    (hth : s'.threads = (v.concrete n hf hs out).threads) (hsl : s'.slots = (v.concrete n hf hs out).slots)
    (hc : s'.counter = BitVec.ofNat 32 (1 + v'.count))
    (hsta : ∀ j, s'.starts j = v'.fast.starts n j + (v.slow j).starts) (hr : s'.results = v'.results) :
    s' = v'.concrete n hf hs out := by
  ext1
  · rw [hw]
    funext j
    by_cases hj : j = 0
    · simp [concrete, hj]
    · simp [concrete, hj, hslow]
  · simp [hth, concrete, hslow]
  · simp [hsl, concrete, slot, View.stored, hslow, hst]
  · exact hc
  · funext j
    simp [hsta, concrete, hslow]
  · exact hr

/-- The state when slow clone `i` has moved on, without a store. -/
theorem setSlow_concrete (i : Nat) (x : Slow) (hfast : v'.fast = v.fast)
    (hslow : v'.slow = update v.slow i x) (hi : i ≠ 0) (hst : x.stores = (v.slow i).stores)
    (hw : s'.workers = update (v.concrete n hf hs out).workers i (x.worker n hs out i))
    (hth : s'.threads = update (v.concrete n hf hs out).threads i x.thread)
    (hsl : s'.slots = (v.concrete n hf hs out).slots) (hc : s'.counter = BitVec.ofNat 32 (1 + v'.count))
    (hsta : s'.starts = update (v.concrete n hf hs out).starts i (v.fast.starts n i + x.starts))
    (hr : s'.results = v'.results) : s' = v'.concrete n hf hs out := by
  ext1
  · rw [hw]
    funext j
    by_cases hj : j = i
    · simp [concrete, hj, hi, hslow]
    · simp [concrete, hj, hslow, hfast]
  · rw [hth]
    funext j
    by_cases hj : j = i
    · simp [concrete, hj, hslow]
    · simp [concrete, hj, hslow]
  · rw [hsl]
    funext j
    by_cases hj : j = i
    · simp [concrete, slot, View.stored, hj, hslow, hfast, hst]
    · simp [concrete, slot, View.stored, hj, hslow, hfast]
  · exact hc
  · rw [hsta]
    funext j
    by_cases hj : j = i
    · simp [concrete, hj, hslow, hfast]
    · simp [concrete, hj, hslow, hfast]
  · exact hr

theorem threads_keep (hx : x.thread = (v.slow i).thread) :
    (v.concrete n hf hs out).threads = update (v.concrete n hf hs out).threads i x.thread := by
  rw [hx]
  exact (update_eq_self i _).symm

theorem starts_keep (hx : x.starts = (v.slow i).starts) :
    (v.concrete n hf hs out).starts = update (v.concrete n hf hs out).starts i
      (v.fast.starts n i + x.starts) := by
  rw [hx]
  exact (update_eq_self i _).symm

/-- The fast clone has only moved on. -/
theorem goFast_concrete (hslow : v'.slow = v.slow) (hst : ∀ j, v'.fast.stores j = v.fast.stores j)
    (hc : v'.count = v.count) (hsta : ∀ j, v'.fast.starts n j = v.fast.starts n j) (hr : v'.results = v.results)
    (hs' : s' = (v.concrete n hf hs out).setWorker 0 (v'.fast.worker n hf out)) : s' = v'.concrete n hf hs out := by
  subst hs'
  refine setFast_concrete hslow hst rfl rfl rfl ?_ ?_ ?_
  · rw [hc]
    rfl
  · intro j
    rw [hsta]
    rfl
  · rw [hr]
    rfl

/-- Slow clone `i` has only moved on. -/
theorem goSlow_concrete (i : Nat) (x : Slow) (hfast : v'.fast = v.fast)
    (hslow : v'.slow = update v.slow i x) (hi : i ≠ 0) (hst : x.stores = (v.slow i).stores)
    (hth : x.thread = (v.slow i).thread) (hc : v'.count = v.count) (hsta : x.starts = (v.slow i).starts)
    (hr : v'.results = v.results) (hs' : s' = (v.concrete n hf hs out).setWorker i (x.worker n hs out i)) :
    s' = v'.concrete n hf hs out := by
  subst hs'
  refine setSlow_concrete i x hfast hslow hi hst rfl (threads_keep hth) rfl ?_ (starts_keep hsta) ?_
  · rw [hc]
    rfl
  · rw [hr]
    rfl

/-- The fast clone has moved on with the thread of slow clone `i`, which is not running. -/
theorem setThread_concrete (i : Nat) (x : Slow) (hslow : v'.slow = update v.slow i x)
    (hw : x.worker n hs out i = (v.slow i).worker n hs out i) (hst : x.stores = (v.slow i).stores)
    (hsta : x.starts = (v.slow i).starts) (hfst : ∀ j, v'.fast.stores j = v.fast.stores j)
    (hfsta : ∀ j, v'.fast.starts n j = v.fast.starts n j) (hc : v'.count = v.count) (hr : v'.results = v.results)
    (hs' : s' = { (v.concrete n hf hs out).setWorker 0 (v'.fast.worker n hf out) with threads := update (v.concrete n hf hs out).threads i x.thread })
    : s' = v'.concrete n hf hs out := by
  rw [hs']
  ext1
  · funext j
    by_cases hj : j = 0
    · simp [concrete, setWorker, hj]
    · by_cases hji : j = i
      · subst hji
        simp [concrete, setWorker, hj, hslow, hw]
      · simp [concrete, setWorker, hj, hji, hslow]
  · funext j
    by_cases hj : j = i
    · simp [concrete, hj, hslow]
    · simp [concrete, hj, hslow]
  · funext j
    by_cases hj : j = i
    · simp [concrete, slot, View.stored, setWorker, hj, hslow, hst, hfst]
    · simp [concrete, slot, View.stored, setWorker, hj, hslow, hfst]
  · simp [concrete, setWorker, hc]
  · funext j
    by_cases hj : j = i
    · simp [concrete, setWorker, hj, hslow, hsta, hfsta]
    · simp [concrete, setWorker, hj, hslow, hfsta]
  · simp [concrete, setWorker, hr]

theorem thread_queued : x.thread = .queued ↔ x = .queued := by
  cases x <;> simp [Slow.thread]

theorem threads_queued : (v.concrete n hf hs out).threads i = .queued ↔ v.slow i = .queued :=
  thread_queued

theorem starts_next (i j : Nat) : (Fast.next (i + 1)).starts n j = (Fast.evaluating i true).starts n j := by
  have h : j < i + 1 ↔ j < i ∨ j = i := by omega
  simp only [starts, h, and_true]

theorem starts_raising (i j : Nat) (k : Code) : (Fast.raising i k).starts n j = (Fast.evaluating i true).starts n j := by
  have h : j ≤ i ↔ j < i ∨ j = i := by omega
  simp only [starts, h, and_true]

theorem starts_afterSpawn (k j : Nat) : (afterSpawn k).starts n j = 0 := by
  cases k with
  | zero => simp [afterSpawn, starts]
  | succ k => rfl

theorem worker_afterSpawn (k : Nat) : (afterSpawn k).worker n hf out =
    some ⟨mkSlowClones k (.eval 0 (fastFrom n hf 1) (hf 0)), false, envTo out 0, none⟩ := by
  cases k <;> rfl

theorem stores_afterSpawn (k j : Nat) : (afterSpawn k).stores j = false := by
  cases k <;> rfl

/-- The variables so far, and that of the next element. -/
theorem envTo_succ (hu : out i = .ok u) : update (envTo out i) i (some u) = envTo out (i + 1) := by
  funext j
  by_cases hj : j = i
  · simp [envTo, hj, hu]
  · rw [Function.update_of_ne hj, envTo, envTo]
    congr 1
    simp only [eq_iff_iff]
    omega

theorem counter_add (w count : Nat) :
    BitVec.ofNat 32 (1 + count) + intRhs w = BitVec.ofNat 32 (1 + (count + w)) := by
  rw [intRhs, BitVec.ofInt_natCast, ← BitVec.ofNat_add, Nat.add_assoc]

theorem isLast_iff {w count : Nat} (hn : n ≤ 2 ^ 32) (hw : 1 ≤ w) (h : count + w ≤ n) :
    isLast n w count = true ↔ count + w = n := by
  have hcast : ((n : Int) - w + 1) = ((n - w + 1 : Nat) : Int) := by omega
  rw [isLast, decide_eq_true_iff, intRhs, hcast, BitVec.ofInt_natCast, ← BitVec.toNat_inj, BitVec.toNat_ofNat,
    BitVec.toNat_ofNat]
  constructor
  · intro e
    omega
  · intro e
    congr 1
    omega

/-- A store of the fast clone. -/
theorem fast_store {k : Nat} (hv : v.fast = .storing i (k + 1)) (hk : k < i) (hu : valOf (out k) = some u)
    (hw : s'.workers = update (v.concrete n hf hs out).workers 0 ((Fast.storing i k).worker n hf out))
    (hth : s'.threads = (v.concrete n hf hs out).threads)
    (hsl : s'.slots = update (v.concrete n hf hs out).slots k u)
    (hc : s'.counter = (v.concrete n hf hs out).counter) (hsta : s'.starts = (v.concrete n hf hs out).starts)
    (hr : s'.results = v.results) : s' = { v with fast := .storing i k }.concrete n hf hs out := by
  ext1
  · rw [hw]
    funext j
    by_cases hj : j = 0
    · simp [concrete, hj]
    · simp [concrete, hj]
  · exact hth
  · rw [hsl]
    funext j
    by_cases hj : j = k
    · subst hj
      simp [concrete, slot, View.stored, stores, hk, hu]
    grind [concrete, slot, View.stored, stores]
  · exact hc
  · rw [hsta]
    funext j
    simp [concrete, hv, starts]
  · exact hr

/-- The store of slow clone `i`. -/
theorem slow_store (hi : i ≠ 0) (hv : v.slow i = .valued) (hu : valOf (out i) = some u)
    (hw : s'.workers = update (v.concrete n hf hs out).workers i (Slow.stored.worker n hs out i))
    (hth : s'.threads = (v.concrete n hf hs out).threads)
    (hsl : s'.slots = update (v.concrete n hf hs out).slots i u)
    (hc : s'.counter = (v.concrete n hf hs out).counter) (hsta : s'.starts = (v.concrete n hf hs out).starts)
    (hr : s'.results = v.results) :
    s' = { v with slow := update v.slow i .stored }.concrete n hf hs out := by
  ext1
  · rw [hw]
    funext j
    by_cases hj : j = i
    · simp [concrete, hj, hi]
    · simp [concrete, hj]
  · rw [hth]
    funext j
    by_cases hj : j = i
    · simp [concrete, hj, hv, Slow.thread]
    · simp [concrete, hj]
  · rw [hsl]
    funext j
    by_cases hj : j = i
    · simp [concrete, slot, View.stored, hj, Slow.stores, hu]
    · simp [concrete, slot, View.stored, hj]
  · exact hc
  · rw [hsta]
    funext j
    by_cases hj : j = i
    · simp [concrete, hj, hv, Slow.starts]
    · simp [concrete, hj]
  · exact hr

/-- A step of a handler is one of its code: it waits on, goes on, or throws. -/
theorem handler_step {j : Nat} {k : Code} {w p : Nat} (hk : HandlerCode w p k) {env : Nat → Option Val}
    {exn : Option Val} (hs' : stepWorker out (v.concrete n hf hs out) j ⟨k, false, env, exn⟩ = some s') :
    s' = v.concrete n hf hs out ∨
      (∃ k', HandlerStep out v k k' ∧ s' = (v.concrete n hf hs out).setWorker j (some ⟨k', false, env, exn⟩)) ∨
      (k = .throw ∧ ∃ e, exn = some e ∧ s' = {
        (v.concrete n hf hs out).setWorker j none with results := .raised e :: v.results }) := by
  cases hk with
  | @cancel p k i hk => exact .inr (.inl ⟨k, .cancel i k, (Option.some.inj hs').symm⟩)
  | @waitOn p k hp hk =>
    simp only [stepWorker] at hs'
    cases hnil : isNil ((v.concrete n hf hs out).slots p) with
    | true =>
      rw [hnil, if_pos rfl] at hs'
      exact .inl (Option.some.inj hs').symm
    | false =>
      rw [hnil, if_neg (by decide)] at hs'
      exact .inr (.inl ⟨k, .waitOn p k hnil, (Option.some.inj hs').symm⟩)
  | throw =>
    simp only [stepWorker, Option.map_eq_some_iff] at hs'
    obtain ⟨e, he, rfl⟩ := hs'
    exact .inr (.inr ⟨rfl, e, he, rfl⟩)

/-- The fast clone's step is a move. -/
theorem fast_step (h : Shape n out v) (hh : Handles out v) {w : Worker} (hw : v.fast.worker n hf out = some w)
    (hs' : stepWorker out (v.concrete n hf hs out) 0 w = some s') :
    s' = v.concrete n hf hs out ∨ ∃ v', Move n hf hs out v v' ∧ s' = v'.concrete n hf hs out := by
  have hb := h.bounds
  cases hv : v.fast with
  | spawning k =>
    rw [hv] at hw
    obtain rfl := Option.some.inj hw
    refine .inr ⟨_, .spawn k hv, ?_⟩
    have hq := h.spawns hv
    refine setThread_concrete (v := v) (k + 1) .queued rfl (by simp [hq, Slow.worker]) (by simp [hq, Slow.stores])
      (by simp [hq, Slow.starts]) ?_ ?_ rfl rfl ?_
    · intro j
      rw [stores_afterSpawn, hv, stores]
      all_goals simp
    · intro j
      rw [starts_afterSpawn, hv, starts]
    · rw [← Option.some.inj hs', worker_afterSpawn]
      rfl
  | evaluating i started =>
    rw [hv] at hw
    obtain rfl := Option.some.inj hw
    cases started with
    | false =>
      obtain rfl := Option.some.inj hs'
      refine .inr ⟨_, .start i hv, setFast_concrete (v := v) rfl (by simp [hv, stores]) rfl rfl rfl rfl ?_ rfl⟩
      grind [concrete, starts]
    | true =>
      simp only [stepWorker, if_true] at hs'
      cases ho : out i with
      | ok u =>
        rw [ho] at hs'
        refine .inr ⟨_, .value i hv u ho, goFast_concrete (v := v) rfl (by simp [hv, stores]) rfl
          (by simp only [hv, starts_next, implies_true]) rfl ?_⟩
        rw [← Option.some.inj hs', envTo_succ ho]
        rfl
      | error e =>
        rw [ho] at hs'
        refine .inr ⟨_, .exn i hv e ho, goFast_concrete (v := v) rfl (by simp [hv, stores]) rfl
          (by simp only [hv, starts_raising, implies_true]) rfl ?_⟩
        rw [← Option.some.inj hs', Fast.worker, ho, exnOf_error]
  | next i =>
    rw [hv] at hw hb
    obtain rfl := Option.some.inj hw
    rcases Nat.lt_or_eq_of_le hb.2 with hin | rfl
    · simp only [fastFrom_lt hf hin, stepWorker] at hs'
      by_cases hq : v.slow i = .queued
      · rw [if_pos (threads_queued.mpr hq)] at hs'
        refine .inr ⟨_, .take i hv hin hq, ?_⟩
        refine setThread_concrete (v := v) i .removed rfl (by simp [hq, Slow.worker]) (by simp [hq, Slow.stores])
          (by simp [hq, Slow.starts]) (by simp [hv, stores]) (by simp [hv, starts]) rfl rfl ?_
        rw [← Option.some.inj hs']
        rfl
      · rw [if_neg (fun e => hq (threads_queued.mp e))] at hs'
        refine .inr ⟨_, .handOver i hv hin hq, goFast_concrete (v := v) rfl ?_ rfl (by simp [hv, starts]) rfl ?_⟩
        · intro j
          simp [hv, stores]
        · rw [← Option.some.inj hs']
          rfl
    · simp only [fastFrom_self, stepWorker] at hs'
      obtain ⟨us, hu, rfl⟩ := Option.map_eq_some_iff.mp hs'
      refine .inr ⟨_, .ret hv us hu, setFast_concrete (v := v) rfl (by simp [hv, stores]) rfl rfl rfl rfl ?_ rfl⟩
      simp [concrete, hv, starts, setWorker]
  | storing i k =>
    rw [hv] at hw hb
    obtain rfl := Option.some.inj hw
    cases k with
    | zero =>
      obtain rfl := Option.some.inj hs'
      refine .inr ⟨_, .add i hv, setFast_concrete (v := v) rfl (by simp [hv, stores]) ?_ rfl rfl ?_ ?_ rfl⟩
      · simp only [setWorker, Worker.goto, Fast.worker, endCode, isLast, Bool.cond_decide]
        rfl
      · exact counter_add i v.count
      · simp [concrete, hv, starts, setWorker]
    | succ k =>
      simp only [storeAll_range, stepWorker] at hs'
      obtain ⟨u, hu, rfl⟩ := Option.map_eq_some_iff.mp hs'
      have hk : k < i := hb.2.2
      rw [envTo, if_pos hk] at hu
      exact .inr ⟨_, .store i k hv, fast_store hv hk hu rfl rfl rfl rfl rfl rfl⟩
  | ending i last =>
    rw [hv] at hw
    obtain rfl := Option.some.inj hw
    cases last with
    | false | true =>
      obtain rfl := Option.some.inj hs'
      refine .inr ⟨_, .finish i _ hv, setFast_concrete (v := v) rfl (by simp [hv, stores]) rfl rfl rfl rfl ?_ rfl⟩
      simp [concrete, hv, starts, setWorker]
  | ended | returned | raised =>
    rw [hv] at hw
    cases hw
  | raising i k =>
    rw [hv] at hw
    obtain rfl := Option.some.inj hw
    rcases handler_step (hh.fast i k hv) hs' with rfl | ⟨k', hk, rfl⟩ | ⟨rfl, e, he, rfl⟩
    · exact .inl rfl
    · exact .inr ⟨_, .handler i k k' hv hk, goFast_concrete (v := v) rfl (by simp [hv, stores]) rfl
        (by simp [hv, starts]) rfl rfl⟩
    · refine .inr ⟨_, .throw i hv e he, ?_⟩
      refine setFast_concrete (v := v) rfl (by simp [hv, stores]) rfl rfl rfl rfl ?_ rfl
      simp [concrete, hv, starts, setWorker, Fast.worker]

/-- A slow clone's step is a move. -/
theorem slow_step (hh : Handles out v) (hi : i ≠ 0) {w : Worker} (hw : (v.slow i).worker n hs out i = some w)
    (hs' : stepWorker out (v.concrete n hf hs out) i w = some s') :
    s' = v.concrete n hf hs out ∨ ∃ v', Move n hf hs out v v' ∧ s' = v'.concrete n hf hs out := by
  cases hv : v.slow i with
  | evaluating started =>
    rw [hv] at hw
    obtain rfl := Option.some.inj hw
    cases started with
    | false =>
      obtain rfl := Option.some.inj hs'
      refine .inr ⟨_, .slowStart i hv, ?_⟩
      refine setSlow_concrete (v := v) i (.evaluating true) rfl rfl hi (by rw [hv]; rfl) rfl ?_ rfl rfl ?_ rfl
      · exact threads_keep (by rw [hv]; rfl)
      · simp [concrete, hv, Slow.starts]
    | true =>
      simp only [slowClone, stepWorker, if_true] at hs'
      cases ho : out i with
      | ok u =>
        rw [ho] at hs'
        obtain rfl := Option.some.inj hs'
        refine .inr ⟨_, .slowValue i hv u ho, ?_⟩
        refine goSlow_concrete (v := v) i .valued rfl rfl hi ?_ ?_ rfl ?_ rfl ?_
        · rw [hv]; rfl
        · rw [hv]; rfl
        · rw [hv]; rfl
        · rw [Slow.worker, ho, valOf_ok]
      | error e =>
        rw [ho] at hs'
        obtain rfl := Option.some.inj hs'
        refine .inr ⟨_, .slowExn i hv e ho, ?_⟩
        refine goSlow_concrete (v := v) i (.raising (hs i)) rfl rfl hi ?_ ?_ rfl ?_ rfl ?_
        · rw [hv]; rfl
        · rw [hv]; rfl
        · rw [hv]; rfl
        · rw [Slow.worker, ho, exnOf_error]
  | valued =>
    rw [hv] at hw
    obtain rfl := Option.some.inj hw
    simp only [store, stepWorker, Function.update_self] at hs'
    obtain ⟨u, hu, rfl⟩ := Option.map_eq_some_iff.mp hs'
    exact .inr ⟨_, .slowStore i hv, slow_store hi hv hu rfl rfl rfl rfl rfl rfl⟩
  | stored =>
    rw [hv] at hw
    obtain rfl := Option.some.inj hw
    obtain rfl := Option.some.inj hs'
    refine .inr ⟨_, .slowAdd i hv, ?_⟩
    refine setSlow_concrete (v := v) i (.ending (isLast n 1 v.count)) rfl rfl hi ?_ ?_ ?_ rfl ?_ ?_ rfl
    · rw [hv]; rfl
    · simp only [setWorker, Worker.goto, Slow.worker, endCode, isLast, Bool.cond_decide]
      rfl
    · exact threads_keep (by rw [hv]; rfl)
    · exact counter_add 1 v.count
    · exact starts_keep (by rw [hv]; rfl)
  | ending last =>
    rw [hv] at hw
    obtain rfl := Option.some.inj hw
    cases last with
    | false | true =>
      obtain rfl := Option.some.inj hs'
      refine .inr ⟨_, .slowFinish i _ hv, ?_⟩
      exact setSlow_concrete (v := v) i .ended rfl rfl hi (by rw [hv]; rfl) rfl (threads_keep (by rw [hv]; rfl)) rfl rfl
        (starts_keep (by rw [hv]; rfl)) rfl
  | raising k =>
    rw [hv] at hw
    obtain rfl := Option.some.inj hw
    obtain ⟨p, hk, -⟩ := hh.slow i k hv
    rcases handler_step hk hs' with rfl | ⟨k', hk', rfl⟩ | ⟨rfl, e, he, rfl⟩
    · exact .inl rfl
    · refine .inr ⟨_, .slowHandler i k k' hv hk', ?_⟩
      refine goSlow_concrete (v := v) i (.raising k') rfl rfl hi ?_ ?_ rfl ?_ rfl rfl
      · rw [hv]; rfl
      · rw [hv]; rfl
      · rw [hv]; rfl
    · refine .inr ⟨_, .slowThrow i hv e he, ?_⟩
      refine setSlow_concrete (v := v) i .raised rfl rfl hi (by rw [hv]; rfl) rfl ?_ rfl rfl ?_ rfl
      · exact threads_keep (by rw [hv]; rfl)
      · exact starts_keep (by rw [hv]; rfl)
  | unspawned | queued | removed | ended | raised =>
    rw [hv] at hw
    cases hw

/-- The clones move as the view does, or wait on. -/
theorem step_move (h : Shape n out v) (hh : Handles out v)
    (hs' : Step (clones n hf hs) out (v.concrete n hf hs out) s') :
    s' = v.concrete n hf hs out ∨ ∃ v', Move n hf hs out v v' ∧ s' = v'.concrete n hf hs out := by
  cases hs' with
  | @worker s' j w hw hst =>
    by_cases hj : j = 0
    · subst hj
      exact fast_step h hh (by simpa [concrete] using hw) hst
    · exact slow_step hh hj (by simpa [concrete, hj] using hw) hst
  | steal i hi =>
    have hq : v.slow i = .queued := threads_queued.mp hi
    have hi0 : i ≠ 0 := by
      intro e
      rw [e, h.first] at hq
      cases hq
    refine .inr ⟨_, .steal i hq, ?_⟩
    exact setSlow_concrete (v := v) i (.evaluating false) rfl rfl hi0 (by rw [hq]; rfl) rfl rfl rfl rfl
      (starts_keep (by rw [hq]; rfl)) rfl

end Manticore.Translate.PTup
