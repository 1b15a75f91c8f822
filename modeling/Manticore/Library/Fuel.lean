/-
  Manticore.Library.Fuel — functions that recurse on fuel and the result they settle on.

  `Returns f r`: from some amount of fuel on, `f` answers `r`. Results compose
  (`Returns.bind`, `Returns.succ`) and are unique (`Returns.unique`), so a specification of
  a fuelled function is proved without counting fuel. `anyM`, `allM` and `allEq` are the
  short-circuiting list traversals of a stateful test, `mapM` and `mapRightM` the maps of a
  stateful function; their rules follow the list.
-/

import Mathlib

namespace Fuel

open List (mem_cons_self mem_cons_of_mem)

variable {ε α β σ : Type}

theorem ok_bind (a : α) (f : α → Except ε β) : (Except.ok a >>= f) = f a := rfl

theorem of_bind_ok {x : Except ε α} {f : α → Except ε β} {b : β} (h : (x >>= f) = .ok b) : ∃ a, x = .ok a ∧ f a = .ok b := by
  cases x with
  | error e => cases h
  | ok a => exact ⟨a, rfl, h⟩

/-- With enough fuel `f` answers `r`. -/
def Returns (f : Nat → Except ε α) (r : α) : Prop := ∃ N, ∀ n, N ≤ n → f n = .ok r

variable {f : Nat → Except ε α} {r : α}

theorem Returns.unique {r' : α} (h : Returns f r) (h' : Returns f r') : r = r' := by
  obtain ⟨N, hN⟩ := h
  obtain ⟨N', hN'⟩ := h'
  have h1 := hN (max N N') (Nat.le_max_left _ _)
  rw [hN' (max N N') (Nat.le_max_right _ _)] at h1
  exact (Except.ok.inj h1).symm

theorem Returns.pure (r : α) : Returns (ε := ε) (fun _ => .ok r) r := ⟨0, fun _ _ => rfl⟩

theorem Returns.of_const {x : Except ε α} (h : Returns (fun _ => x) r) : x = .ok r := by
  obtain ⟨N, hN⟩ := h
  exact hN N (Nat.le_refl N)

theorem Returns.ite (p : Prop) [Decidable p] (a b : α) :
    Returns (ε := ε) (fun _ => if p then .ok a else .ok b) (if p then a else b) :=
  ⟨0, fun _ _ => by split <;> rfl⟩

theorem Returns.bind {f : Nat → Except ε α} {g : Nat → α → Except ε β} {a : α} {b : β} (hf : Returns f a)
    (hg : Returns (fun n => g n a) b) : Returns (fun n => f n >>= g n) b := by
  obtain ⟨N, hN⟩ := hf
  obtain ⟨N', hN'⟩ := hg
  refine ⟨max N N', fun n hn => ?_⟩
  show (f n >>= g n) = .ok b
  rw [hN n (by omega)]
  exact hN' n (by omega)

/-- What is left when the first part has answered. -/
theorem Returns.of_bind {g : Nat → α → Except ε β} {a : α} {b : β} (hf : Returns f a)
    (h : Returns (fun n => f n >>= g n) b) : Returns (fun n => g n a) b := by
  obtain ⟨N, hN⟩ := hf
  obtain ⟨N', hN'⟩ := h
  refine ⟨max N N', fun n hn => ?_⟩
  have h1 : (f n >>= g n) = .ok b := hN' n (by omega)
  rwa [hN n (by omega)] at h1

/-- One unit of fuel is spent on entry. -/
theorem Returns.succ (h : Returns (fun n => f (n + 1)) r) : Returns f r := by
  obtain ⟨N, hN⟩ := h
  refine ⟨N + 1, fun n hn => ?_⟩
  obtain ⟨m, rfl⟩ : ∃ m, n = m + 1 := ⟨n - 1, by omega⟩
  exact hN m (by omega)

theorem Returns.congr {g : Nat → Except ε α} (h : Returns f r) (he : ∀ n, g n = f n) : Returns g r := by
  obtain ⟨N, hN⟩ := h
  exact ⟨N, fun n hn => (he n).trans (hN n hn)⟩

/-! ## List traversals -/

/-- `List.exists` of a test that may change the state. -/
def anyM (f : σ → α → Except ε (σ × Bool)) : σ → List α → Except ε (σ × Bool)
  | s, [] => .ok (s, false)
  | s, x :: xs => do
    let (s, b) ← f s x
    if b then .ok (s, true) else anyM f s xs

/-- `List.all` of a test that may change the state. -/
def allM (f : σ → α → Except ε (σ × Bool)) : σ → List α → Except ε (σ × Bool)
  | s, [] => .ok (s, true)
  | s, x :: xs => do
    let (s, b) ← f s x
    if b then allM f s xs else .ok (s, false)

/-- `List.app`. -/
def appM (f : σ → α → Except ε σ) : σ → List α → Except ε σ
  | s, [] => .ok s
  | s, x :: xs => do
    let s ← f s x
    appM f s xs

/-- `List.map`, from the left. -/
def mapM (f : σ → α → Except ε (σ × β)) : σ → List α → Except ε (σ × List β)
  | s, [] => .ok (s, [])
  | s, x :: xs => do
    let (s, y) ← f s x
    let (s, ys) ← mapM f s xs
    .ok (s, y :: ys)

/-- `List.foldr` that collects its results: from the right. -/
def mapRightM (f : σ → α → Except ε (σ × β)) : σ → List α → Except ε (σ × List β)
  | s, [] => .ok (s, [])
  | s, x :: xs => do
    let (s, ys) ← mapRightM f s xs
    let (s, y) ← f s x
    .ok (s, y :: ys)

/-- `ListPair.allEq`: the lengths are compared last. -/
def allEq (f : σ → α → β → Except ε (σ × Bool)) : σ → List α → List β → Except ε (σ × Bool)
  | s, [], [] => .ok (s, true)
  | s, x :: xs, y :: ys => do
    let (s, b) ← f s x y
    if b then allEq f s xs ys else .ok (s, false)
  | s, _, _ => .ok (s, false)

section
variable {I : σ → Prop} {P : α → Prop} {xs : List α}

theorem anyM_returns {f : Nat → σ → α → Except ε (σ × Bool)}
    (h : ∀ x ∈ xs, ∀ s, I s → ∃ s' b, Returns (fun n => f n s x) (s', b) ∧ I s' ∧ (b = true ↔ P x)) {s : σ} (hs : I s) :
    ∃ s' b, Returns (fun n => anyM (f n) s xs) (s', b) ∧ I s' ∧ (b = true ↔ ∃ x ∈ xs, P x) := by
  induction xs generalizing s with
  | nil => exact ⟨s, false, .pure _, hs, by simp⟩
  | cons x xs ih =>
    obtain ⟨s1, b, hret, hI, hb⟩ := h x mem_cons_self s hs
    cases b with
    | true => exact ⟨s1, true, hret.bind (.pure _), hI, by simp [hb.1 rfl]⟩
    | false =>
      obtain ⟨s2, b2, hret2, hI2, hb2⟩ := ih (fun y hy => h y (mem_cons_of_mem _ hy)) hI
      have hx : ¬ P x := fun hP => Bool.noConfusion (hb.2 hP)
      exact ⟨s2, b2, hret.bind hret2, hI2, by rw [hb2]; simp [hx]⟩

/-- The search of a list for a passing test. -/
theorem exists_returns {f : Nat → α → Except ε Bool} (h : ∀ x ∈ xs, ∃ b, Returns (fun n => f n x) b ∧ (b = true ↔ P x)) :
    ∃ b, Returns (fun n => xs.anyM (f n)) b ∧ (b = true ↔ ∃ x ∈ xs, P x) := by
  induction xs with
  | nil => exact ⟨false, .pure _, by simp⟩
  | cons x xs ih =>
    obtain ⟨b, hret, hb⟩ := h x mem_cons_self
    cases b with
    | true => exact ⟨true, hret.bind (.pure _), by simp [hb.1 rfl]⟩
    | false =>
      obtain ⟨b', hret', hb'⟩ := ih fun y hy => h y (mem_cons_of_mem _ hy)
      have hx : ¬ P x := fun hP => Bool.noConfusion (hb.2 hP)
      exact ⟨b', hret.bind hret', by rw [hb']; simp [hx]⟩

theorem allM_returns {f : Nat → σ → α → Except ε (σ × Bool)}
    (h : ∀ x ∈ xs, ∀ s, I s → ∃ s' b, Returns (fun n => f n s x) (s', b) ∧ I s' ∧ (b = true ↔ P x)) {s : σ} (hs : I s) :
    ∃ s' b, Returns (fun n => allM (f n) s xs) (s', b) ∧ I s' ∧ (b = true ↔ ∀ x ∈ xs, P x) := by
  induction xs generalizing s with
  | nil => exact ⟨s, true, .pure _, hs, by simp⟩
  | cons x xs ih =>
    obtain ⟨s1, b, hret, hI, hb⟩ := h x mem_cons_self s hs
    cases b with
    | false =>
      have hx : ¬ P x := fun hP => Bool.noConfusion (hb.2 hP)
      exact ⟨s1, false, hret.bind (.pure _), hI, by simp [hx]⟩
    | true =>
      obtain ⟨s2, b2, hret2, hI2, hb2⟩ := ih (fun y hy => h y (mem_cons_of_mem _ hy)) hI
      exact ⟨s2, b2, hret.bind hret2, hI2, by rw [hb2]; simp [hb.1 rfl]⟩

/-- The answers need only be known under `C`, which may be false. -/
theorem allEq_returns {C : Prop} {R : α → β → Prop} {ys : List β} {f : Nat → σ → α → β → Except ε (σ × Bool)}
    (h : ∀ p ∈ xs.zip ys, ∀ s, I s →
      ∃ s' b, Returns (fun n => f n s p.1 p.2) (s', b) ∧ I s' ∧ (C → (b = true ↔ R p.1 p.2))) {s : σ} (hs : I s) :
    ∃ s' b, Returns (fun n => allEq (f n) s xs ys) (s', b) ∧ I s' ∧ (C → (b = true ↔ List.Forall₂ R xs ys)) := by
  induction xs generalizing ys s with
  | nil =>
    cases ys with
    | nil => exact ⟨s, true, .pure _, hs, by simp⟩
    | cons y ys => exact ⟨s, false, .pure _, hs, fun _ => ⟨nofun, nofun⟩⟩
  | cons x xs ih =>
    cases ys with
    | nil => exact ⟨s, false, .pure _, hs, fun _ => ⟨nofun, nofun⟩⟩
    | cons y ys =>
      obtain ⟨s1, b, hret, hI, hb⟩ := h (x, y) mem_cons_self s hs
      cases b with
      | false =>
        refine ⟨s1, false, hret.bind (.pure _), hI, fun hC => ?_⟩
        have hx : ¬ R x y := fun hR => Bool.noConfusion ((hb hC).2 hR)
        simp [hx]
      | true =>
        obtain ⟨s2, b2, hret2, hI2, hb2⟩ := ih (fun p hp => h p (mem_cons_of_mem _ hp)) hI
        exact ⟨s2, b2, hret.bind hret2, hI2, fun hC => by rw [hb2 hC]; simp [(hb hC).1 rfl]⟩

theorem appM_returns {f : Nat → σ → α → Except ε σ}
    (h : ∀ x ∈ xs, ∀ s, I s → ∃ s', Returns (fun n => f n s x) s' ∧ I s') {s : σ} (hs : I s) :
    ∃ s', Returns (fun n => appM (f n) s xs) s' ∧ I s' := by
  induction xs generalizing s with
  | nil => exact ⟨s, .pure _, hs⟩
  | cons x xs ih =>
    obtain ⟨s1, hret, hI⟩ := h x mem_cons_self s hs
    obtain ⟨s2, hret2, hI2⟩ := ih (fun y hy => h y (mem_cons_of_mem _ hy)) hI
    exact ⟨s2, hret.bind hret2, hI2⟩

theorem mapM_returns {R : α → β → Prop} {f : Nat → σ → α → Except ε (σ × β)}
    (h : ∀ x ∈ xs, ∀ s, I s → ∃ s' y, Returns (fun n => f n s x) (s', y) ∧ I s' ∧ R x y) {s : σ} (hs : I s) :
    ∃ s' ys, Returns (fun n => mapM (f n) s xs) (s', ys) ∧ I s' ∧ List.Forall₂ R xs ys := by
  induction xs generalizing s with
  | nil => exact ⟨s, [], .pure _, hs, .nil⟩
  | cons x xs ih =>
    obtain ⟨s1, y, hret, hI, hy⟩ := h x mem_cons_self s hs
    obtain ⟨s2, ys, hret2, hI2, hys⟩ := ih (fun z hz => h z (mem_cons_of_mem _ hz)) hI
    exact ⟨s2, y :: ys, hret.bind (hret2.bind (.pure _)), hI2, .cons hy hys⟩

end

end Fuel
