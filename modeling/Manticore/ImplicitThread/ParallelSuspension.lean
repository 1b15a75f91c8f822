/-
  Manticore.ImplicitThread.ParallelSuspension — suspensions that forces and a spawned task evaluate
  (`implicit-thread/parallel-suspensions.pml`).

  A step is one access to the thunk's slot, the end of the thunk, or a step of the result's ivar. A thread is a force,
  or a task that may be removed before it has claimed the thunk. The thunk returns a value of the language, which
  `EMPTY_VAL` is not, or it raises.
  - `suspension_sound`: where the thunk returns, it is applied at most once and is not the black hole, every force that
    returns has its value, and after the put no force is about to block and who is blocked is to be resumed.
  - `raise_blocks`: where it raises nothing is put, and a force that has found the black hole stays blocked.
  - `raises_once`: it is applied at most once there too.
-/

import Manticore.ImplicitThread.IVar

namespace Manticore.ImplicitThread.ParallelSuspension

open Function (update update_self update_of_ne)
open IVar.State (goto returns first)

/-- The thunk, or `BLACK_HOLE`. -/
inductive Slot where
  | thunk
  | blackHole

/-- What applying the thunk does. -/
inductive Thunk (α : Type) where
  | value (x : α)
  | raises

/-- Where a thread is in `@access-eval-update`, and after it. -/
inductive Pc where
  | lp
  | cas (t : Slot)
  | apply
  | put
  | exit
  | get
  | returned
  | raised
  | removed

structure State (n : Nat) (α : Type) where
  thunk : Slot
  result : IVar.State n α
  pcs : Fin n → Pc
  /-- What has been applied, the last first. -/
  applied : List Slot
  /-- The thunk has raised, or its value has been put. -/
  ended : Bool

variable {n : Nat} {α : Type}

def State.goto (s : State n α) (i : Fin n) (pc : Pc) : State n α := { s with pcs := update s.pcs i pc }

def new (n : Nat) (α : Type) : State n α := ⟨.thunk, IVar.ivar n none, fun _ => .lp, [], false⟩

inductive Act (forces : Fin n → Prop) (thunk : Thunk α) (s : State n α) (i : Fin n) : State n α → Prop
  | read : s.pcs i = .lp → s.thunk = .thunk → Act forces thunk s i (s.goto i (.cas .thunk))
  | blackHole : s.pcs i = .lp → s.thunk = .blackHole → Act forces thunk s i (s.goto i .exit)
  | claim {t : Slot} : s.pcs i = .cas t → s.thunk = t →
      Act forces thunk s i ({ s with thunk := .blackHole, applied := t :: s.applied }.goto i .apply)
  | retry {t : Slot} : s.pcs i = .cas t → s.thunk ≠ t → Act forces thunk s i (s.goto i .lp)
  | value {x : α} : s.pcs i = .apply → thunk = .value x →
      Act forces thunk s i ({ s with result := s.result.goto i (.putCas x) }.goto i .put)
  | raise : s.pcs i = .apply → thunk = .raises → Act forces thunk s i ({ s with ended := true }.goto i .raised)
  | putDone : s.pcs i = .put → s.result.pcs i = .idle → Act forces thunk s i ({ s with ended := true }.goto i .exit)
  | get : s.pcs i = .exit → forces i →
      Act forces thunk s i ({ s with result := s.result.goto i .getLock }.goto i .get)
  | stop : s.pcs i = .exit → ¬ forces i → Act forces thunk s i (s.goto i .returned)
  | ivar {r : IVar.State n α} : s.pcs i = .put ∨ s.pcs i = .get → s.result.pcs i ≠ .idle → IVar.Act s.result i r →
      Act forces thunk s i { s with result := r }
  | getDone : s.pcs i = .get → s.result.pcs i = .idle → Act forces thunk s i (s.goto i .returned)
  | removeTask : s.pcs i = .lp → ¬ forces i → Act forces thunk s i (s.goto i .removed)

def Reachable (forces : Fin n → Prop) (thunk : Thunk α) (s : State n α) : Prop :=
  Relation.ReflTransGen (fun s s' => ∃ i, Act forces thunk s i s') (new n α) s

/-- What is promised of a suspension. -/
structure Meets (thunk : Thunk α) (s : State n α) : Prop where
  once : s.applied.length ≤ 1
  applied : ∀ t ∈ s.applied, t = .thunk
  value : ∀ r ∈ s.result.returned, ∃ x, thunk = .value x ∧ r.2 = some x
  resumed : s.ended = true → ∀ i, (s.result.pcs i).blocking = false ∧ (s.result.pcs i = .blocked → i ∈ s.result.ready)

/-! ## Threads that do not execute the thunk -/

def getting : IVar.Pc n α → Bool
  | .getLock | .getValue | .getUnlock _ | .blockRead | .blockCas _ | .blockUnlock | .blocked => true
  | _ => false

/-- A thread that neither executes the thunk nor puts its value. -/
def Outside (pc : Pc) (r : IVar.Pc n α) : Prop :=
  (r = .idle ∨ pc = .get ∧ getting r = true) ∧ (pc ≠ .apply ∧ pc ≠ .put) ∧ ∀ t, pc = .cas t → t = .thunk

variable {forces : Fin n → Prop} {thunk : Thunk α} {s s' : State n α} {i k : Fin n} {r r' : IVar.State n α} {x : α}

/-- What the steps of thread `i` leave alone. -/
structure Frame (s s' : State n α) (i : Fin n) : Prop where
  pcs : ∀ j, j ≠ i → s'.pcs j = s.pcs j ∧ s'.result.pcs j = s.result.pcs j
  result : s'.result = s.result ∨ IVar.Act s.result i s'.result

theorem getting_act (hg : getting (r.pcs i) = true) (ha : IVar.Act r i r') :
    r'.puts = r.puts ∧ r'.drained = r.drained ∧ (r'.pcs i = .idle ∨ getting (r'.pcs i) = true) := by
  cases ha with
  | callGet hpc | callPut hpc | putWin hpc _ | putLose hpc _ | putSpin hpc _ | putBlocked hpc | putResume hpc
  | putDone hpc => simp [hpc, getting] at hg
  | getLock | getSome | getEmpty | blockRead | blockCas | blockRetry | blockUnlock =>
    exact ⟨rfl, rfl, .inr (by simp [goto, getting])⟩
  | getUnlock | resumed => exact ⟨rfl, rfl, .inl (by simp [goto, returns])⟩

theorem act_others (ha : IVar.Act r i r') {j : Fin n} (hj : j ≠ i) : r'.pcs j = r.pcs j := by
  cases ha <;> exact update_of_ne hj ..

theorem frame_goto (s : State n α) (i : Fin n) (pc : Pc) : Frame s (s.goto i pc) i :=
  ⟨fun _ hj => ⟨update_of_ne hj .., rfl⟩, .inl rfl⟩

/-- A thread outside claims the thunk, or it stays outside. -/
theorem Act.outside (h : Outside (s.pcs i) (s.result.pcs i)) (ha : Act forces thunk s i s') :
    Frame s s' i ∧ s'.ended = s.ended ∧ s'.result.puts = s.result.puts ∧ s'.result.drained = s.result.drained ∧
      (s.thunk = .thunk ∧ s'.thunk = .blackHole ∧ s'.applied = .thunk :: s.applied ∧ s'.pcs i = .apply ∧
          s'.result.pcs i = .idle ∨
        s'.thunk = s.thunk ∧ s'.applied = s.applied ∧ Outside (s'.pcs i) (s'.result.pcs i)) := by
  obtain ⟨hr, ⟨hna, hnp⟩, hcas⟩ := h
  have hidle (hpc : s.pcs i ≠ .get) : s.result.pcs i = .idle := hr.resolve_right fun h => hpc h.1
  have hstay {pc : Pc} (hg : pc ≠ .apply ∧ pc ≠ .put) (ht : ∀ t, pc = .cas t → t = .thunk)
      (hi : s.result.pcs i = .idle) : Outside ((s.goto i pc).pcs i) (s.result.pcs i) := by
    show Outside (update s.pcs i pc i) _
    rw [update_self]
    exact ⟨.inl hi, hg, ht⟩
  cases ha with
  | read hpc =>
    refine ⟨frame_goto .., rfl, rfl, rfl, .inr ⟨rfl, rfl, hstay (by simp) ?_ (hidle (by simp [hpc]))⟩⟩
    rintro t ⟨⟩
    rfl
  | blackHole hpc | retry hpc | removeTask hpc | stop hpc =>
    exact ⟨frame_goto .., rfl, rfl, rfl, .inr ⟨rfl, rfl, hstay (by simp) nofun (hidle (by simp [hpc]))⟩⟩
  | getDone hpc hi => exact ⟨frame_goto .., rfl, rfl, rfl, .inr ⟨rfl, rfl, hstay (by simp) nofun hi⟩⟩
  | @claim t hpc ht =>
    obtain rfl := hcas t hpc
    exact ⟨⟨fun j hj => ⟨update_of_ne hj .., rfl⟩, .inl rfl⟩, rfl, rfl, rfl, .inl ⟨ht, rfl, rfl, update_self .., hidle (by simp [hpc])⟩⟩
  | value hpc | raise hpc => exact absurd hpc hna
  | putDone hpc => exact absurd hpc hnp
  | get hpc =>
    have hi := hidle (by simp [hpc])
    refine ⟨⟨fun j hj => ⟨update_of_ne hj .., update_of_ne hj ..⟩, .inr (.callGet hi)⟩, rfl, rfl, rfl, .inr ⟨rfl, rfl, ?_⟩⟩
    simp [Outside, State.goto, goto, getting]
  | ivar hpc hne hact =>
    have hget := hpc.resolve_left hnp
    obtain ⟨hputs, hdrained, hnext⟩ := getting_act (hr.resolve_left hne).2 hact
    refine ⟨⟨fun j hj => ⟨rfl, act_others hact hj⟩, .inr hact⟩, rfl, hputs, hdrained, .inr ⟨rfl, rfl, ?_⟩⟩
    exact ⟨hnext.imp_right fun h => ⟨hget, h⟩, ⟨hna, hnp⟩, hcas⟩

/-! ## The thread that executes the thunk -/

/-- How far the put of `x` by `k` is. -/
def PutStage (x : α) (r : IVar.State n α) (k : Fin n) : Prop :=
  r.pcs k = .putCas x ∧ r.puts = [] ∨ r.puts = [x] ∧ (r.pcs k = .putSpin ∨ r.pcs k = .putBlocked ∨
    r.drained = true ∧ (r.pcs k = .idle ∨ ∃ l, r.pcs k = .putResume l))

theorem PutStage.act (h : PutStage x r k) (hr : IVar.Reachable none r) (hne : r.pcs k ≠ .idle) (ha : IVar.Act r k r') :
    PutStage x r' k := by
  have hself (r : IVar.State n α) (pc : IVar.Pc n α) : (r.goto k pc).pcs k = pc := update_self ..
  rcases h with ⟨hpc, hputs⟩ | ⟨hputs, hpc | hpc | ⟨hd, hpc | ⟨l, hpc⟩⟩⟩
  · have hv : r.value = none := by rw [hr.first.value, first, hputs]; rfl
    cases ha with
    | putWin hpc' =>
      cases hpc.symm.trans hpc'
      exact .inr ⟨by rw [goto, hputs]; rfl, .inl (hself ..)⟩
    | putLose _ hsome => exact absurd hv hsome
    | _ => simp_all
  · cases ha with
    | putSpin => exact .inr ⟨hputs, .inr (.inl (hself ..))⟩
    | _ => simp_all
  · cases ha with
    | putBlocked => exact .inr ⟨hputs, .inr (.inr ⟨rfl, .inr ⟨_, hself ..⟩⟩)⟩
    | _ => simp_all
  · exact absurd hpc hne
  · cases ha with
    | putResume => exact .inr ⟨hputs, .inr (.inr ⟨hd, .inr ⟨_, hself ..⟩⟩)⟩
    | putDone => exact .inr ⟨hputs, .inr (.inr ⟨hd, .inl (hself ..)⟩)⟩
    | _ => simp_all

/-- Before the claim, from the claim to the end of the put, and after it. -/
inductive Phase (x : α) (s : State n α) : Prop
  | unclaimed (ht : s.thunk = .thunk) (ha : s.applied = []) (hp : s.result.puts = []) (he : s.ended = false)
      (ho : ∀ i, Outside (s.pcs i) (s.result.pcs i))
  | executing (k : Fin n) (ht : s.thunk = .blackHole) (ha : s.applied = [.thunk]) (he : s.ended = false)
      (hk : s.pcs k = .apply ∧ s.result.pcs k = .idle ∧ s.result.puts = [] ∨ s.pcs k = .put ∧ PutStage x s.result k)
      (ho : ∀ i, i ≠ k → Outside (s.pcs i) (s.result.pcs i))
  | ended (ht : s.thunk = .blackHole) (ha : s.applied = [.thunk]) (hp : s.result.puts = [x])
      (hd : s.result.drained = true) (ho : ∀ i, Outside (s.pcs i) (s.result.pcs i))

structure Inv (x : α) (s : State n α) : Prop where
  result : IVar.Reachable none s.result
  phase : Phase x s

theorem new_inv (x : α) : Inv x (new n α) :=
  ⟨.refl, .unclaimed rfl rfl rfl rfl fun _ => ⟨.inl rfl, by simp [new], nofun⟩⟩

theorem Frame.outside (hf : Frame s s' i) {P : Fin n → Prop} (h : ∀ j, P j → Outside (s.pcs j) (s.result.pcs j))
    (hi : P i → Outside (s'.pcs i) (s'.result.pcs i)) (j : Fin n) (hj : P j) :
    Outside (s'.pcs j) (s'.result.pcs j) := by
  by_cases hji : j = i
  · subst hji
    exact hi hj
  · obtain ⟨h1, h2⟩ := hf.pcs j hji
    rw [h1, h2]
    exact h j hj

theorem Outside.resumes {pc : Pc} {r : IVar.Pc n α} (h : Outside pc r) (j : Fin n) : r.resumes j = 0 := by
  rcases h.1 with rfl | ⟨-, hg⟩
  · rfl
  · cases r with
    | putResume => cases hg
    | _ => rfl

theorem Act.phase (h : Phase x s) (hr : IVar.Reachable none s.result) (ha : Act forces (.value x) s i s') :
    Phase x s' ∧ Frame s s' i := by
  cases h with
  | unclaimed ht hap hp he ho =>
    obtain ⟨hf, he', hp', -, ⟨-, ht', ha', hpc, hi⟩ | ⟨ht', ha', hout⟩⟩ := ha.outside (ho i)
    · exact ⟨.executing i ht' (by rw [ha', hap]) (he'.trans he) (.inl ⟨hpc, hi, hp'.trans hp⟩)
        (hf.outside (fun j _ => ho j) fun h => absurd rfl h), hf⟩
    · exact ⟨.unclaimed (ht'.trans ht) (ha'.trans hap) (hp'.trans hp) (he'.trans he) fun j =>
        hf.outside (fun j (_ : True) => ho j) (fun _ => hout) j trivial, hf⟩
  | ended ht hap hp hd ho =>
    obtain ⟨hf, -, hp', hd', ⟨ht', -⟩ | ⟨ht', ha', hout⟩⟩ := ha.outside (ho i)
    · cases ht.symm.trans ht'
    · exact ⟨.ended (ht'.trans ht) (ha'.trans hap) (hp'.trans hp) (hd'.trans hd) fun j =>
        hf.outside (fun j (_ : True) => ho j) (fun _ => hout) j trivial, hf⟩
  | executing k ht hap he hk ho =>
    by_cases hik : i = k
    · subst hik
      rcases hk with ⟨hpc, hi, hp⟩ | ⟨hpc, hput⟩
      · cases ha with
        | value _ hx =>
          cases hx
          have hf : Frame s ({ s with result := s.result.goto i (.putCas x) }.goto i .put) i :=
            ⟨fun j hj => ⟨update_of_ne hj .., update_of_ne hj ..⟩, .inr (.callPut hi)⟩
          exact ⟨.executing i ht hap he (.inr ⟨update_self .., .inl ⟨update_self .., hp⟩⟩)
            (hf.outside ho fun h => absurd rfl h), hf⟩
        | raise _ hx => cases hx
        | _ => simp_all
      · cases ha with
        | putDone _ hi =>
          have hf := frame_goto s i .exit
          rcases hput with ⟨hc, -⟩ | ⟨hp, hc | hc | ⟨hd, -⟩⟩
          · cases hi.symm.trans hc
          · cases hi.symm.trans hc
          · cases hi.symm.trans hc
          · refine ⟨.ended ht hap hp hd fun j => ?_, hf.pcs, hf.result⟩
            by_cases hj : j = i
            · subst hj
              simp [Outside, State.goto, hi]
            · exact hf.outside ho (fun h => absurd rfl h) j hj
        | @ivar r _ hne hact =>
          have hf : Frame s { s with result := r } i := ⟨fun j hj => ⟨rfl, act_others hact hj⟩, .inr hact⟩
          exact ⟨.executing i ht hap he (.inr ⟨hpc, hput.act hr hne hact⟩) (hf.outside ho fun h => absurd rfl h), hf⟩
        | _ => simp_all
    · obtain ⟨hf, he', hp', hd', ⟨ht', -⟩ | ⟨ht', ha', hout⟩⟩ := ha.outside (ho i hik)
      · cases ht.symm.trans ht'
      · obtain ⟨h1, h2⟩ := hf.pcs k (Ne.symm hik)
        refine ⟨.executing k (ht'.trans ht) (ha'.trans hap) (he'.trans he) ?_ (hf.outside ho fun _ => hout), hf⟩
        unfold PutStage at hk ⊢
        rwa [h1, h2, hp', hd']

theorem Reachable.inv (h : Reachable forces (.value x) s) : Inv x s := by
  induction h with
  | refl => exact new_inv x
  | tail _ hstep ih =>
    obtain ⟨i, ha⟩ := hstep
    obtain ⟨hp, hf⟩ := ha.phase ih.phase ih.result
    refine ⟨?_, hp⟩
    rcases hf.result with h | h
    · rw [h]
      exact ih.result
    · exact ih.result.tail ⟨i, h⟩

theorem suspension_sound (h : Reachable forces (.value x) s) : Meets (.value x) s := by
  obtain ⟨hr, hphase⟩ := h.inv
  have hap : s.applied = [] ∨ s.applied = [.thunk] := by cases hphase <;> simp_all
  have hputs : s.result.puts = [] ∨ s.result.puts = [x] := by
    cases hphase with
    | executing k _ _ _ hk _ => rcases hk with ⟨-, -, hp⟩ | ⟨-, ⟨-, hp⟩ | ⟨hp, -⟩⟩ <;> simp [hp]
    | _ => simp_all
  refine ⟨by rcases hap with h | h <;> simp [h], by rcases hap with h | h <;> simp [h], fun r hmem => ?_, fun he i => ?_⟩
  · obtain ⟨hval, hsome⟩ := hr.first.returned r hmem
    rw [hr.first.value, first] at hval hsome
    rcases hputs with hp | hp
    · simp [hp] at hsome
    · exact ⟨x, rfl, by simp [hval, hp]⟩
  · cases hphase with
    | unclaimed _ _ _ hn | executing _ _ _ hn => cases he.symm.trans hn
    | ended _ _ _ hd ho =>
      refine ⟨hr.drain.waits (.inl hd) i, fun hb => ?_⟩
      have hres := hr.resumed i
      have hsum : ∑ j, (s.result.pcs j).resumes i = 0 := Finset.sum_eq_zero fun j _ => (ho j).resumes i
      rw [IVar.State.resumptions, hd, hsum, hb] at hres
      exact Multiset.one_le_count_iff_mem.mp (by simpa [IVar.Pc.waits] using hres.ge)

/-- A task executes the thunk, and a force gets its value. -/
theorem suspension_sound_forced : ∃ s : State 2 Nat, (1, some 7) ∈ s.result.returned ∧ Meets (.value 7) s := by
  have h₀ : Reachable (· = 1) (.value 7) (new 2 Nat) := .refl
  have h₁ := h₀.tail ⟨0, .read rfl rfl⟩
  have h₂ := h₁.tail ⟨0, .claim rfl rfl⟩
  have h₃ := h₂.tail ⟨0, .value rfl rfl⟩
  have h₄ := h₃.tail ⟨0, .ivar (.inl rfl) nofun (.putWin rfl rfl)⟩
  have h₅ := h₄.tail ⟨1, .blackHole rfl rfl⟩
  have h₆ := h₅.tail ⟨1, .get rfl rfl⟩
  have h₇ := h₆.tail ⟨1, .ivar (.inr rfl) nofun (.getLock rfl)⟩
  have h₈ := h₇.tail ⟨1, .ivar (.inr rfl) nofun (.getSome rfl rfl)⟩
  have h₉ := h₈.tail ⟨1, .ivar (.inr rfl) nofun (.getUnlock rfl)⟩
  exact ⟨_, Multiset.mem_cons_self (1, some 7) 0, suspension_sound h₉⟩

/-- The thunk raises, and a force that comes after blocks. -/
theorem raise_blocks : ∃ s : State 2 Nat, Reachable (fun _ => True) .raises s ∧ ¬ Meets .raises s := by
  have h₀ : Reachable (fun _ => True) .raises (new 2 Nat) := .refl
  have h₁ := h₀.tail ⟨0, .read rfl rfl⟩
  have h₂ := h₁.tail ⟨0, .claim rfl rfl⟩
  have h₃ := h₂.tail ⟨0, .raise rfl rfl⟩
  have h₄ := h₃.tail ⟨1, .blackHole rfl rfl⟩
  have h₅ := h₄.tail ⟨1, .get rfl trivial⟩
  have h₆ := h₅.tail ⟨1, .ivar (.inr rfl) nofun (.getLock rfl)⟩
  have h₇ := h₆.tail ⟨1, .ivar (.inr rfl) nofun (.getEmpty rfl rfl)⟩
  have h₈ := h₇.tail ⟨1, .ivar (.inr rfl) nofun (.blockRead rfl)⟩
  have h₉ := h₈.tail ⟨1, .ivar (.inr rfl) nofun (.blockCas rfl rfl)⟩
  have h₁₀ := h₉.tail ⟨1, .ivar (.inr rfl) nofun (.blockUnlock rfl)⟩
  exact ⟨_, h₁₀, fun h => absurd ((h.resumed rfl 1).2 rfl) (Multiset.notMem_zero _)⟩

/-! ## A thunk that raises -/

/-- Nothing is put, and at most one thread has claimed the thunk. -/
structure Barren (s : State n α) : Prop where
  result : IVar.Reachable none s.result
  puts : s.result.puts = []
  applied : s.thunk = .thunk ∧ s.applied = [] ∨ s.thunk = .blackHole ∧ s.applied = [.thunk]
  threads : ∀ i, s.pcs i = .apply ∧ s.result.pcs i = .idle ∨ Outside (s.pcs i) (s.result.pcs i)

theorem Act.barren (h : Barren s) (ha : Act forces .raises s i s') : Barren s' := by
  obtain ⟨hf, hp, hap, hi⟩ : Frame s s' i ∧ s'.result.puts = s.result.puts ∧
      (s'.thunk = .thunk ∧ s'.applied = [] ∨ s'.thunk = .blackHole ∧ s'.applied = [.thunk]) ∧
      (s'.pcs i = .apply ∧ s'.result.pcs i = .idle ∨ Outside (s'.pcs i) (s'.result.pcs i)) := by
    rcases h.threads i with ⟨hpc, hi⟩ | hout
    · cases ha with
      | value _ hx => cases hx
      | raise =>
        exact ⟨⟨fun _ hj => ⟨update_of_ne hj .., rfl⟩, .inl rfl⟩, rfl, h.applied,
          .inr (by simp [Outside, State.goto, hi])⟩
      | _ => simp_all
    · obtain ⟨hf, -, hp, -, ⟨ht, ht', ha', hclaim⟩ | ⟨ht', ha', ho⟩⟩ := ha.outside hout
      · have hnone := h.applied
        exact ⟨hf, hp, .inr (by simp_all), .inl hclaim⟩
      · exact ⟨hf, hp, by rw [ht', ha']; exact h.applied, .inr ho⟩
  refine ⟨?_, hp.trans h.puts, hap, fun j => ?_⟩
  · rcases hf.result with he | he
    · rw [he]
      exact h.result
    · exact h.result.tail ⟨i, he⟩
  · by_cases hji : j = i
    · exact hji ▸ hi
    · rw [(hf.pcs j hji).1, (hf.pcs j hji).2]
      exact h.threads j

/-- A thunk that raises is applied once at most, nothing is put, and no force returns. -/
theorem raises_once (h : Reachable forces .raises s) :
    s.applied.length ≤ 1 ∧ s.result.puts = [] ∧ s.result.returned = 0 := by
  have hb : Barren s := by
    induction h with
    | refl => exact ⟨.refl, rfl, .inl ⟨rfl, rfl⟩, fun _ => .inr ⟨.inl rfl, by simp [new], by simp [new]⟩⟩
    | tail _ hstep ih =>
      obtain ⟨i, ha⟩ := hstep
      exact ha.barren ih
  refine ⟨by rcases hb.applied with ⟨-, h⟩ | ⟨-, h⟩ <;> simp [h], hb.puts, ?_⟩
  refine Multiset.eq_zero_of_forall_notMem fun r hr => ?_
  obtain ⟨-, hsome⟩ := hb.result.first.returned r hr
  simp [hb.result.first.value, first, hb.puts] at hsome

theorem raises_once_claimed : ∃ s : State 1 Nat, s.applied = [.thunk] ∧ s.result.returned = 0 := by
  have h₀ : Reachable (fun _ => True) .raises (new 1 Nat) := .refl
  have h₁ := h₀.tail ⟨0, .read rfl rfl⟩
  have h₂ := h₁.tail ⟨0, .claim rfl rfl⟩
  exact ⟨_, rfl, (raises_once (h₂.tail ⟨0, .raise rfl rfl⟩)).2.2⟩

end Manticore.ImplicitThread.ParallelSuspension
