/-
  Manticore.Library.Transition — deterministic systems that step silently or with one
  event, their behaviours, and forward simulation.

  A system maps a state to its next move: a step, a halt with a result, or going wrong.
  The behaviours of a state are the traces with which it halts or goes wrong and the
  traces it emits along the way. A simulation matches every step of the first system by
  at least one step of the second, or by none while a rank falls; determinism of the
  second system then gives both inclusions (`Simulation.same`).
-/

import Mathlib

namespace Transition

/-- What a state does next. -/
inductive Move (σ ε ρ : Type) where
  | next (s : σ) (e : Option ε)
  | halt (r : ρ)
  | wrong

abbrev System (σ ε ρ : Type) := σ → Move σ ε ρ

variable {σ τ υ ε ρ : Type}

/-- `Run M n s es s'`: `n` steps lead from `s` to `s'` and emit `es`. -/
inductive Run (M : System σ ε ρ) : Nat → σ → List ε → σ → Prop
  | refl (s : σ) : Run M 0 s [] s
  | step {n : Nat} {s s' s'' : σ} {e : Option ε} {es : List ε} :
      M s = .next s' e → Run M n s' es s'' → Run M (n + 1) s (e.toList ++ es) s''

def Emits (M : System σ ε ρ) (s : σ) (es : List ε) : Prop := ∃ n s', Run M n s es s'

def Halts (M : System σ ε ρ) (s : σ) (es : List ε) (r : ρ) : Prop :=
  ∃ n s', Run M n s es s' ∧ M s' = .halt r

def GoesWrong (M : System σ ε ρ) (s : σ) (es : List ε) : Prop :=
  ∃ n s', Run M n s es s' ∧ M s' = .wrong

def Diverges (M : System σ ε ρ) (s : σ) : Prop := ∀ n, ∃ es s', Run M n s es s'

/-- Two states have the same behaviours: the same results, failures and event traces. -/
structure SameBehaviour (M : System σ ε ρ) (N : System τ ε ρ) (s : σ) (t : τ) : Prop where
  halts : ∀ es r, Halts M s es r ↔ Halts N t es r
  wrong : ∀ es, GoesWrong M s es ↔ GoesWrong N t es
  emits : ∀ es, Emits M s es ↔ Emits N t es

/-! ## Runs -/

variable {M : System σ ε ρ} {N : System τ ε ρ}

theorem Run.one {s s' : σ} {e : Option ε} (h : M s = .next s' e) : Run M 1 s e.toList s' := by
  simpa using Run.step h (.refl s')

theorem Run.append {n m : Nat} {s s' s'' : σ} {es fs : List ε} (h : Run M n s es s') (g : Run M m s' fs s'') :
    Run M (n + m) s (es ++ fs) s'' := by
  induction h with
  | refl => simpa using g
  | @step n _ _ _ e es hs _ ih =>
    have := Run.step hs (ih g)
    rwa [Nat.add_right_comm, List.append_assoc]

variable {s s' : σ} {n : Nat} {s'' : σ} {es : List ε}

/-- Runs of a deterministic system from one state are prefixes of each other. -/
theorem Run.split {m : Nat} {fs : List ε} (h : Run M n s es s') (g : Run M m s fs s'') (hnm : n ≤ m) :
    ∃ gs, fs = es ++ gs ∧ Run M (m - n) s' gs s'' := by
  induction h generalizing m fs with
  | refl => exact ⟨fs, rfl, by simpa using g⟩
  | step hs _ ih =>
    cases g with
    | refl => omega
    | step ht g =>
      rw [hs] at ht
      simp_all

theorem Run.stuck (h : Run M n s es s') (hs : ∀ t e, M s ≠ .next t e) : n = 0 ∧ es = [] ∧ s' = s := by
  cases h with
  | refl => exact ⟨rfl, rfl, rfl⟩
  | step h _ => exact absurd h (hs _ _)

/-- A run that ends without a next step is the longest one. -/
theorem Run.le_of_stuck {m : Nat} {fs : List ε} (h : Run M n s es s') (g : Run M m s fs s'')
    (hs : ∀ t e, M s'' ≠ .next t e) : n ≤ m := by
  by_contra hlt
  obtain ⟨gs, -, hg⟩ := g.split h (by omega)
  have := (hg.stuck hs).1
  omega

/-- Some steps that emit nothing. -/
def Silent (M : System σ ε ρ) (s s' : σ) : Prop := ∃ n, Run M n s [] s'

theorem Silent.refl (M : System σ ε ρ) (s : σ) : Silent M s s := ⟨0, .refl s⟩

theorem Silent.one {s s' : σ} (h : M s = .next s' none) : Silent M s s' := ⟨1, .one h⟩

theorem Silent.trans (h : Silent M s s') (g : Silent M s' s'') : Silent M s s'' := by
  obtain ⟨n, h⟩ := h
  obtain ⟨m, g⟩ := g
  exact ⟨n + m, h.append g⟩

/-- A silent step in front. -/
theorem Silent.step {s s' s'' : σ} (h : M s = .next s' none) (g : Silent M s' s'') : Silent M s s'' :=
  (Silent.one h).trans g

theorem Emits.cons {s s' : σ} {e : Option ε} {es : List ε} (hs : M s = .next s' e) (h : Emits M s' es) :
    Emits M s (e.toList ++ es) := by
  obtain ⟨n, t, h⟩ := h
  exact ⟨n + 1, t, .step hs h⟩

/-- A deterministic state diverges exactly when it neither halts nor goes wrong. -/
theorem diverges_iff (s : σ) : Diverges M s ↔ (∀ es r, ¬ Halts M s es r) ∧ ∀ es, ¬ GoesWrong M s es := by
  constructor
  · intro h
    refine ⟨fun es r ⟨n, t, hn, ht⟩ => ?_, fun es ⟨n, t, hn, ht⟩ => ?_⟩ <;>
    · obtain ⟨fs, u, hu⟩ := h (n + 1)
      have := hu.le_of_stuck hn (by simp [ht])
      omega
  · rintro ⟨hh, hw⟩ n
    induction n with
    | zero => exact ⟨[], s, .refl s⟩
    | succ n ih =>
      obtain ⟨es, t, hn⟩ := ih
      cases ht : M t with
      | next t' e => exact ⟨_, t', hn.append (.one ht)⟩
      | halt r => exact absurd ⟨n, t, hn, ht⟩ (hh es r)
      | wrong => exact absurd ⟨n, t, hn, ht⟩ (hw es)

theorem SameBehaviour.refl (M : System σ ε ρ) (s : σ) : SameBehaviour M M s s :=
  ⟨fun _ _ => .rfl, fun _ => .rfl, fun _ => .rfl⟩

theorem SameBehaviour.symm {t : τ} (h : SameBehaviour M N s t) : SameBehaviour N M t s :=
  ⟨fun es r => (h.halts es r).symm, fun es => (h.wrong es).symm, fun es => (h.emits es).symm⟩

theorem SameBehaviour.trans {O : System υ ε ρ} {t : τ} {u : υ} (h : SameBehaviour M N s t)
    (g : SameBehaviour N O t u) : SameBehaviour M O s u :=
  ⟨fun es r => (h.halts es r).trans (g.halts es r), fun es => (h.wrong es).trans (g.wrong es),
    fun es => (h.emits es).trans (g.emits es)⟩

/-! ## Simulation -/

/-- A forward simulation: a step is matched by one or more steps, or by none while the rank falls. -/
structure Simulation (M : System σ ε ρ) (N : System τ ε ρ) (R : σ → τ → Prop) (rank : σ → τ → Nat) : Prop where
  next : ∀ {s t s' e}, R s t → M s = .next s' e →
    (∃ n t', Run N (n + 1) t e.toList t' ∧ R s' t') ∨ (e = none ∧ R s' t ∧ rank s' t < rank s t)
  halt : ∀ {s t r}, R s t → M s = .halt r → ∃ n t', Run N n t [] t' ∧ N t' = .halt r

/-- A state that goes wrong is matched by one that does. -/
def MatchesWrong (M : System σ ε ρ) (N : System τ ε ρ) (R : σ → τ → Prop) : Prop :=
  ∀ {s t}, R s t → M s = .wrong → ∃ n t', Run N n t [] t' ∧ N t' = .wrong

variable {R : σ → τ → Prop} {rank : σ → τ → Nat}

variable {s : σ} {es : List ε} {t : τ}

theorem Simulation.run (S : Simulation M N R rank) {n : Nat} {s' : σ} (h : Run M n s es s') :
    ∀ {t}, R s t → ∃ m t', Run N m t es t' ∧ R s' t' := by
  induction h with
  | refl => exact fun {t} hR => ⟨0, t, .refl t, hR⟩
  | step hs _ ih =>
    intro t hR
    rcases S.next hR hs with ⟨n, t', hn, hR'⟩ | ⟨rfl, hR', -⟩
    · obtain ⟨m, t'', hm, hR''⟩ := ih hR'
      exact ⟨_, t'', hn.append hm, hR''⟩
    simp_all

/-- Every run of the second system is followed by the first, until the first has emitted the
    run's trace or is wrong. -/
theorem Simulation.follow (S : Simulation M N R rank) (n : Nat) {t' : τ} (hR : R s t) (h : Run N n t es t') :
    Emits M s es ∨ ∃ fs gs m s₁ t₁, es = fs ++ gs ∧ Emits M s fs ∧ M s₁ = .wrong ∧ R s₁ t₁ ∧ Run N m t₁ gs t' := by
  induction n using Nat.strongRecOn generalizing s t es with
  | ind n ihn =>
    induction hk : rank s t using Nat.strongRecOn generalizing s with
    | ind k ihk =>
      cases hs : M s with
      | next s' e =>
        rcases S.next hR hs with ⟨m, t₁, hm, hR'⟩ | ⟨rfl, hR', hlt⟩
        · by_cases hle : m + 1 ≤ n
          · obtain ⟨gs, rfl, hg⟩ := hm.split h hle
            rcases ihn _ (by omega) hR' hg with he | ⟨f, g, p, s₁, t₂, rfl, he, h1, h2, h3⟩
            · exact .inl (he.cons hs)
            · exact .inr ⟨_, g, p, s₁, t₂, by simp, he.cons hs, h1, h2, h3⟩
          · -- the run stops inside the steps that match this one
            obtain ⟨gs, hgs, -⟩ := h.split hm (by omega)
            left
            cases e with
            | none =>
              have : es = [] := (List.append_eq_nil_iff.mp (by simpa using hgs.symm)).1
              exact this ▸ ⟨0, s, .refl s⟩
            | some e =>
              rcases es with _ | ⟨x, xs⟩
              · exact ⟨0, s, .refl s⟩
              · simp only [Option.toList_some, List.cons_append, List.cons.injEq] at hgs
                obtain ⟨rfl, hnil⟩ := hgs
                obtain ⟨rfl, -⟩ := List.append_eq_nil_iff.mp hnil.symm
                exact ⟨1, s', .one hs⟩
        · rcases ihk _ (hk ▸ hlt) hR' rfl with he | ⟨f, g, p, s₁, t₂, rfl, he, h1, h2, h3⟩
          · exact .inl (by simpa using he.cons hs)
          · exact .inr ⟨f, g, p, s₁, t₂, rfl, by simpa using he.cons hs, h1, h2, h3⟩
      | halt r =>
        obtain ⟨m, t₁, hm, ht₁⟩ := S.halt hR hs
        have hle : n ≤ m := h.le_of_stuck hm (by simp [ht₁])
        obtain ⟨gs, hgs, -⟩ := h.split hm hle
        obtain ⟨rfl, -⟩ := List.append_eq_nil_iff.mp hgs.symm
        exact .inl ⟨0, s, .refl s⟩
      | wrong => exact .inr ⟨[], es, n, s, t, rfl, ⟨0, s, .refl s⟩, hs, hR, h⟩

theorem Simulation.halts (S : Simulation M N R rank) (hR : R s t) {r : ρ} (h : Halts M s es r) :
    Halts N t es r := by
  obtain ⟨n, s', hn, hs'⟩ := h
  obtain ⟨m, t', hm, hR'⟩ := S.run hn hR
  obtain ⟨k, t'', hk, ht''⟩ := S.halt hR' hs'
  exact ⟨_, t'', by simpa using hm.append hk, ht''⟩

theorem Simulation.emits (S : Simulation M N R rank) (hR : R s t) (h : Emits M s es) : Emits N t es := by
  obtain ⟨n, s', hn⟩ := h
  obtain ⟨m, t', hm, -⟩ := S.run hn hR
  exact ⟨m, t', hm⟩

theorem Simulation.goesWrong (S : Simulation M N R rank) (W : MatchesWrong M N R) (hR : R s t)
    (h : GoesWrong M s es) : GoesWrong N t es := by
  obtain ⟨n, s', hn, hs'⟩ := h
  obtain ⟨m, t', hm, hR'⟩ := S.run hn hR
  obtain ⟨k, t'', hk, ht''⟩ := W hR' hs'
  exact ⟨_, t'', by simpa using hm.append hk, ht''⟩

/-- The first system does not diverge when the second one stops. -/
theorem Simulation.not_diverges (S : Simulation M N R rank) (n : Nat) {t' : τ} (hR : R s t) (h : Run N n t es t')
    (ht' : ∀ u e, N t' ≠ .next u e) : ¬ Diverges M s := by
  induction n using Nat.strongRecOn generalizing s t es with
  | ind n ihn =>
    induction hk : rank s t using Nat.strongRecOn generalizing s with
    | ind k ihk =>
      intro hd
      have hnext : ∀ {s' e}, M s = .next s' e → Diverges M s' := by
        intro s' e hs m
        obtain ⟨fs, u, hu⟩ := hd (m + 1)
        obtain ⟨gs, -, hg⟩ := (Run.one hs).split hu (by omega)
        exact ⟨gs, u, by simpa using hg⟩
      cases hs : M s with
      | next s' e =>
        rcases S.next hR hs with ⟨m, t₁, hm, hR'⟩ | ⟨-, hR', hlt⟩
        · have hle := hm.le_of_stuck h ht'
          obtain ⟨gs, -, hg⟩ := hm.split h hle
          exact ihn _ (by omega) hR' hg (hnext hs)
        · exact ihk _ (hk ▸ hlt) hR' rfl (hnext hs)
      | halt | wrong =>
        obtain ⟨fs, u, hu⟩ := hd 1
        have := (hu.stuck (by simp [hs])).1
        omega

/-- Two stopping runs of a deterministic system are the same run. -/
theorem Run.stop_unique {n m : Nat} {s' s'' : σ} {fs : List ε} (h : Run M n s es s') (g : Run M m s fs s'')
    (hs' : ∀ t e, M s' ≠ .next t e) (hs'' : ∀ t e, M s'' ≠ .next t e) : es = fs ∧ s' = s'' := by
  have hle := h.le_of_stuck g hs''
  obtain ⟨gs, rfl, hg⟩ := h.split g hle
  obtain ⟨-, rfl, rfl⟩ := hg.stuck hs'
  exact ⟨by simp, rfl⟩

theorem Simulation.same (S : Simulation M N R rank) (W : MatchesWrong M N R) (hR : R s t) :
    SameBehaviour M N s t := by
  -- a stopping run of the second system is the image of a stopping run of the first
  have stop : ∀ {n es t'}, Run N n t es t' → (∀ u e, N t' ≠ .next u e) →
      (∃ r, Halts M s es r ∧ N t' = .halt r) ∨ (GoesWrong M s es ∧ N t' = .wrong) := by
    intro n es t' hn ht'
    have hnd := S.not_diverges n hR hn ht'
    rw [diverges_iff] at hnd
    by_cases hh : ∃ fs r, Halts M s fs r
    · obtain ⟨fs, r, hh⟩ := hh
      obtain ⟨m, u, hm, hu⟩ := S.halts hR hh
      obtain ⟨rfl, rfl⟩ := hn.stop_unique hm ht' (by simp [hu])
      exact .inl ⟨r, hh, hu⟩
    · by_cases hw : ∃ fs, GoesWrong M s fs
      · obtain ⟨fs, hw⟩ := hw
        obtain ⟨m, u, hm, hu⟩ := S.goesWrong W hR hw
        obtain ⟨rfl, rfl⟩ := hn.stop_unique hm ht' (by simp [hu])
        exact .inr ⟨hw, hu⟩
      · exact absurd ⟨fun fs r h => hh ⟨fs, r, h⟩, fun fs h => hw ⟨fs, h⟩⟩ hnd
  refine ⟨fun es r => ⟨S.halts hR, ?_⟩, fun es => ⟨S.goesWrong W hR, ?_⟩, fun es => ⟨S.emits hR, ?_⟩⟩
  · rintro ⟨n, t', hn, ht'⟩
    grind
  · rintro ⟨n, t', hn, ht'⟩
    grind
  · rintro ⟨n, t', hn⟩
    rcases S.follow n hR hn with he | ⟨fs, gs, m, s₁, t₁, rfl, he, h1, h2, h3⟩
    · exact he
    · obtain ⟨k, u, hk, hu⟩ := W h2 h1
      have hle := h3.le_of_stuck hk (by simp [hu])
      obtain ⟨hs, hgs, -⟩ := h3.split hk hle
      obtain ⟨rfl, -⟩ := List.append_eq_nil_iff.mp hgs.symm
      simpa using he

/-- Two moves go to related states with the same event, halt with the same result, or both go wrong. -/
inductive MoveRel (R : σ → τ → Prop) : Move σ ε ρ → Move τ ε ρ → Prop
  | next {s : σ} {t : τ} {e : Option ε} : R s t → MoveRel R (.next s e) (.next t e)
  | halt (r : ρ) : MoveRel R (.halt r) (.halt r)
  | wrong : MoveRel R .wrong .wrong

/-- Systems that move together, but for silent steps of the first one that lower a rank. -/
theorem same_of_lockstep (h : ∀ s t, R s t → MoveRel R (M s) (N t) ∨
    ∃ s', M s = .next s' none ∧ R s' t ∧ rank s' t < rank s t) {s : σ} {t : τ} (hR : R s t) :
    SameBehaviour M N s t := by
  have S : Simulation M N R rank := by
    refine ⟨fun {s t s' e} hR hs => ?_, fun {s t r} hR hs => ?_⟩
    · rcases h s t hR with hm | ⟨s₁, hs₁, hR₁, hlt⟩
      · rw [hs] at hm
        cases ht : N t with
        | next t' e' =>
          rw [ht] at hm
          cases hm with
          | next hR' => exact .inl ⟨0, t', .one ht, hR'⟩
        | halt | wrong => rw [ht] at hm; cases hm
      · rw [hs] at hs₁
        cases hs₁
        exact .inr ⟨rfl, hR₁, hlt⟩
    · rcases h s t hR with hm | ⟨s₁, hs₁, -, -⟩
      · rw [hs] at hm
        cases ht : N t <;> rw [ht] at hm <;> cases hm
        exact ⟨0, t, .refl t, ht⟩
      · rw [hs] at hs₁
        cases hs₁
  have W : MatchesWrong M N R := by
    intro s t hR hs
    rcases h s t hR with hm | ⟨s₁, hs₁, -, -⟩
    · rw [hs] at hm
      cases ht : N t <;> rw [ht] at hm <;> cases hm
      exact ⟨0, t, .refl t, ht⟩
    · rw [hs] at hs₁
      cases hs₁
  exact S.same W hR

end Transition
