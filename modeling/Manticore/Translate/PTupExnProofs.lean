/-
  Manticore.Translate.PTupExnProofs — flat parallel tuples with exceptions (`trWithExh`).

  Whatever is delivered is right: the exception of the leftmost element that raises one, or the complete tuple
  when none does, and only once. But a slow clone that has raised takes an element whose value is the unit
  enumeration for one that is not there, and waits for it for ever; so the exception is sure to be delivered
  only where the elements to the left have other values (`delivers_iff`).
-/

import Manticore.Translate.PTupProofs

namespace Manticore.Translate.PTup

open Code

variable {n : Nat} {out : Nat → Outcome}

/-! ## The handlers -/

variable {e : Code} {i : Nat} {hf hs : Nat → Code} {v : View}

theorem handlerCode_cancelAll {w p : Nat} (he : HandlerCode w p e) (i left : Nat) :
    HandlerCode w p (mkCancelAll i left e) := by
  induction left generalizing i e with
  | zero => exact he
  | succ left ih => exact ih (.cancel i he) (i + 1)

theorem handlerCode_waitOns {w : Nat} (hi : i ≤ w) (he : HandlerCode w i e) : HandlerCode w 0 (waitOns i e) := by
  induction i generalizing e with
  | zero => exact he
  | succ i ih => exact ih (by omega) (.waitOn hi he)

theorem handlers_exh : Handlers (fastHandler n) (slowHandler n) out := by
  intro i e _
  exact ⟨handlerCode_cancelAll .throw _ _, handlerCode_cancelAll (handlerCode_waitOns (Nat.le_refl i) .throw) _ _⟩

theorem trWithExh_eq : trWithExh n = clones n (fastHandler n) (slowHandler n) := rfl

/-! ## What is delivered -/

/-- The result that the tuple should come to. -/
def Expected (n : Nat) (out : Nat → Outcome) (s : State) (r : Result) : Prop :=
  (∃ i e, i < n ∧ Leftmost out i e ∧ r = .raised e) ∨
    ∃ vals : Nat → Val, (∀ i < n, out i = .ok (vals i)) ∧ r.Complete n vals s

/-- The tuple is delivered: never more than one result, never another than expected, and one at the end. -/
def Delivers (n : Nat) (out : Nat → Outcome) : Prop :=
  ∀ s, Reach (trWithExh n) out s → s.results.length ≤ 1 ∧ (∀ r ∈ s.results, Expected n out s r) ∧
    (Quiescent (trWithExh n) out s → s.results ≠ [])

/-- No element to the left of the first that raises an exception has the value nil. -/
def NoNilLeft (n : Nat) (out : Nat → Outcome) : Prop :=
  ∀ i e, i < n → Leftmost out i e → ∀ j < i, ∀ u, out j = .ok u → isNil u = false

/-- All elements have values, or one is the leftmost to raise an exception. -/
theorem ok_or_leftmost (m : Nat) (out : Nat → Outcome) :
    (∀ i < m, ∃ u, out i = .ok u) ∨ ∃ i e, i < m ∧ Leftmost out i e := by
  induction m with
  | zero => exact .inl fun i hi => absurd hi (Nat.not_lt_zero i)
  | succ m ih =>
    rcases ih with hok | ⟨i, e, hi, hl⟩
    · cases hm : out m with
      | ok u =>
        grind [Nat.lt_succ_iff_lt_or_eq]
      | error e => exact .inr ⟨m, e, Nat.lt_succ_self m, hm, hok⟩
    · exact .inr ⟨i, e, by omega, hl⟩

theorem expected (hv : Valid n out v) {r : Result} (hr : r ∈ v.results) :
    Expected n out (v.concrete n hf hs out) r := by
  rcases ok_or_leftmost n out with hok | ⟨i, e, hi, hl⟩
  · right
    refine ⟨fun i => (valOf (out i)).getD nilVal, ?_, ?_⟩
    · grind [valOf_ok]
    grind [results_complete, valOf_ok]
  · left
    rcases hv.outcomes.results with h | ⟨-, hc⟩ | ⟨us, -, -, hd⟩ | ⟨i', e', h, hi', hl', -⟩
    · rw [h] at hr
      cases hr
    · exact absurd hc (count_ne_of_error hv.shape hv.tallied hi hl.1)
    · obtain ⟨u, hu⟩ := hv.shape.done i (by rw [hd]; exact hi)
      rw [hl.1] at hu
      cases hu
    · rw [h, List.mem_singleton] at hr
      exact ⟨i', e', hi', hl', hr⟩

/-- At the end, an element to the left of a slow clone that waits for it is there, if the fast clone has
    handed over. -/
theorem value_of_waiting (hv : Valid n out v) (hq : Quiescent (clones n hf hs) out (v.concrete n hf hs out))
    {h : Nat} (hov : v.fast = .ended h) {p : Nat} (hp : p < n) {u : Val} (hu : out p = .ok u) :
    v.slot out p = u := by
  have hst : v.stored p = true := by
    rw [View.stored, Bool.or_eq_true]
    by_cases hph : p < h
    · left
      rw [hov]
      simpa [Fast.stores] using hph
    · right
      have hb := hv.shape.bounds
      rw [hov] at hb
      have h1 : 1 ≤ h := hb.1
      have ha := hv.shape.agrees p
      rcases quiescent_slow hv hq (i := p) (by omega) hp with hx | hx | hx | ⟨q, k, hx, -⟩
      · have hlt := ((hv.shape.removed p).mp hx).2
        rw [hov] at hlt
        exact absurd hlt hph
      · rw [hx]
        rfl
      · rw [hx, hu] at ha
        obtain ⟨e, he⟩ := ha
        cases he
      · rw [hx, hu] at ha
        obtain ⟨e, he⟩ := ha
        cases he
  rw [View.slot, if_pos hst, hu, valOf_ok, Option.getD_some]

/-- With values other than nil to the left of the leftmost exception, something is delivered in the end. -/
theorem delivered (hv : Valid n out v) (hnn : NoNilLeft n out)
    (hq : Quiescent (clones n hf hs) out (v.concrete n hf hs out)) : v.results ≠ [] := by
  rcases ok_or_leftmost n out with hok | ⟨i, e, hi, hl⟩
  · intro hnil
    have hlen : v.results.length = 1 := (finished hv hok hq).returned
    rw [hnil] at hlen
    cases hlen
  · rcases quiescent_fast hv hq with ⟨h, hov⟩ | hd | ⟨i', hr⟩
    · have hb := hv.shape.bounds
      rw [hov] at hb
      have h1 : 1 ≤ h := hb.1
      have hhi : h ≤ i := by
        by_contra hlt
        obtain ⟨u, hu⟩ := hv.shape.done i (by rw [hov]; exact Nat.lt_of_not_le hlt)
        rw [hl.1] at hu
        cases hu
      have ha := hv.shape.agrees i
      rcases quiescent_slow hv hq (i := i) (by omega) hi with hx | hx | hx | ⟨p, k, hx, hpi, hnil⟩
      · have hlt := ((hv.shape.removed i).mp hx).2
        rw [hov] at hlt
        exact absurd hhi (Nat.not_le_of_lt hlt)
      · rw [hx, hl.1] at ha
        obtain ⟨u, hu⟩ := ha
        cases hu
      · exact hv.outcomes.slowRaised i hx
      · obtain ⟨u, hu⟩ := hl.2 p hpi
        rw [value_of_waiting hv hq hov (by omega) hu, hnn i e hi hl p hpi u hu] at hnil
        cases hnil
    · exact hv.outcomes.returned hd
    · exact hv.outcomes.fastRaised i' hr

theorem delivers_of_noNil (h2 : 2 ≤ n) (hn : n ≤ 2 ^ 32) (hnn : NoNilLeft n out) : Delivers n out := by
  intro s hs
  rw [trWithExh_eq] at hs ⊢
  obtain ⟨v, hv, rfl⟩ := reach_view h2 hn handlers_exh hs
  exact ⟨results_le hv, fun r hr => expected hv hr, delivered hv hnn⟩

/-! ## The exception that is never delivered -/

/-- A stolen thread stays stolen. -/
theorem stolen_move {v' : View} (hv : Shape n out v) (hm : Move n hf hs out v v') (hi : (v.slow i).thread = .stolen)
    : (v'.slow i).thread = .stolen := by
  have update : ∀ j x, (j = i → x.thread = .stolen) → (Function.update v.slow j x i).thread = .stolen := by
    grind
  cases hm with
  | spawn k hk =>
    refine update _ _ ?_
    rintro rfl
    rw [hv.spawns hk] at hi
    cases hi
  | take j _ _ hq =>
    refine update _ _ ?_
    rintro rfl
    rw [hq] at hi
    cases hi
  | start | value | exn | handOver | store | add | finish | ret | handler | throw => exact hi
  | steal | slowStart | slowValue | slowExn | slowStore | slowAdd | slowFinish | slowHandler | slowThrow =>
    exact update _ _ fun _ => rfl

/-- From every state, a run comes to a state where nothing is left to do; a stolen thread stays stolen. -/
theorem settles (hn : n ≤ 2 ^ 32) (hH : Handlers hf hs out) (hv : Valid n out v)
    (hr : Reach (clones n hf hs) out (v.concrete n hf hs out)) (hi : (v.slow i).thread = .stolen) :
    ∃ v', Valid n out v' ∧ Reach (clones n hf hs) out (v'.concrete n hf hs out) ∧ Quiescent (clones n hf hs) out
      (v'.concrete n hf hs out) ∧ (v'.slow i).thread = .stolen := by
  induction hrk : v.rank n hf hs using Nat.strong_induction_on generalizing v with
  | _ r ih =>
    by_cases hq : Quiescent (clones n hf hs) out (v.concrete n hf hs out)
    · exact ⟨v, hv, hr, hq, hi⟩
    · simp only [Quiescent, not_forall] at hq
      obtain ⟨s', hst, hne⟩ := hq
      rcases step_move hv.shape hv.handles hst with heq | ⟨v', hm, rfl⟩
      · exact absurd heq hne
      · exact ih _ (hrk ▸ move_rank hv.shape hm) (valid_move hn hH hv hm) (.step hr hst) (stolen_move hv.shape hm hi) rfl

/-- The fast clone spawns every slow clone. -/
theorem queued_reachable {c : Clones} {s : State} (hr : Reach c out s) {w : Worker} (hw : s.workers 0 = some w)
    {k : Nat} (hc : w.code = mkSlowClones k e) (hi : 1 ≤ i) (hik : i ≤ k) :
    ∃ s', Reach c out s' ∧ s'.threads i = .queued := by
  induction k generalizing s w with
  | zero => omega
  | succ k ih =>
    have hst : stepWorker out s 0 w = some { s.setWorker 0 (some (w.goto (mkSlowClones k e))) with
        threads := Function.update s.threads (k + 1) .queued } := by
      simp only [stepWorker, hc, mkSlowClones]
    have hr' := Reach.step hr (.worker 0 hw hst)
    rcases Nat.lt_or_eq_of_le hik with hlt | rfl
    · exact ih hr' (w := w.goto (mkSlowClones k e)) (by simp [State.setWorker]) rfl (by omega)
    · exact ⟨_, hr', Function.update_self _ _ _⟩

theorem stolen_reachable (hi : 1 ≤ i) (hin : i < n) : ∃ s, Reach (trWithExh n) out s ∧ s.threads i = .stolen := by
  obtain ⟨s, hr, hq⟩ : ∃ s, Reach (trWithExh n) out s ∧ s.threads i = .queued :=
    queued_reachable .init rfl rfl hi (by omega)
  exact ⟨_, .step hr (.steal i hq), Function.update_self _ _ _⟩

/-- The leftmost exception is stuck in its slow clone behind an element to its left that is nil. -/
theorem not_delivers_of_nil (h2 : 2 ≤ n) (hn : n ≤ 2 ^ 32) {e : Val} (hin : i < n) (hl : Leftmost out i e) {j : Nat}
    (hji : j < i) {u : Val} (hu : out j = .ok u) (hnil : isNil u = true) : ¬ Delivers n out := by
  intro hd
  obtain ⟨s, hr, hst⟩ : ∃ s, Reach (trWithExh n) out s ∧ s.threads i = .stolen := stolen_reachable (by omega) hin
  rw [trWithExh_eq] at hr
  obtain ⟨v, hv, rfl⟩ := reach_view h2 hn handlers_exh hr
  obtain ⟨v, hv, hr, hq, hst⟩ := settles hn handlers_exh hv hr hst
  -- the slow clone has not got past its wait for element `j`
  have hraised : v.slow i ≠ .raised := by
    intro hx
    obtain ⟨hsto, hne⟩ := hv.handles.raised i hx j hji
    rw [View.slot, if_pos hsto, hu, valOf_ok, Option.getD_some, hnil] at hne
    cases hne
  have htk := hv.shape.taken_le (i := i) (by intro hx; rw [hx] at hst; cases hst) (by intro hx; rw [hx] at hst; cases hst)
  refine (hd _ hr).2.2 hq ?_
  refine hv.outcomes.none (count_ne_of_error hv.shape hv.tallied hin hl.1) ?_ ?_
  · intro hx
    rw [hx] at htk
    exact absurd htk.1 (Nat.not_le_of_lt hin)
  · intro i' e' _ hl'
    obtain rfl := hl.unique hl'
    refine ⟨?_, hraised⟩
    intro hx
    rw [hx] at htk
    exact absurd htk.1 (Nat.not_succ_le_self i)

/-- The tuple is delivered in every run exactly when no element to the left of the first that raises an exception
    has the value nil. -/
theorem delivers_iff {n : Nat} (h2 : 2 ≤ n) (hn : n ≤ 2 ^ 32) (out : Nat → Outcome) :
    Delivers n out ↔ NoNilLeft n out := by
  constructor
  · intro hd i e hin hl j hji u hu
    grind [not_delivers_of_nil]
  · exact delivers_of_noNil h2 hn

/-- Two elements with values other than nil. -/
theorem delivers_pair : Delivers 2 (fun _ => .ok (.lit (.enum 1))) ↔ NoNilLeft 2 (fun _ => .ok (.lit (.enum 1))) :=
  delivers_iff (by decide) (by decide) _

/-- A unit value, and an element that raises an exception: the exception is not always delivered. -/
theorem unit_then_raise_not_delivers :
    ¬ Delivers 2 (fun i => if i = 0 then .ok (.lit (.enum 0)) else .error (.lit (.enum 1))) :=
  not_delivers_of_nil (i := 1) (j := 0) (by decide) (by decide) (by decide)
    ⟨rfl, fun j hj => ⟨.lit (.enum 0), if_pos (by omega)⟩⟩ (by decide) rfl rfl

end Manticore.Translate.PTup
