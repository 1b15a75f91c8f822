/-
  Manticore.Parray.LazySplit — what the six lazy operations on ropes (`basis/parray/rope.pml`) have in common: a sweep
  over the leaves of a cursor that an answer of `hungryProcs` interrupts, and the split of an interrupted cursor into
  two tasks whose results are joined. `tabulateUntil`, `mapUntil`, … are `sweepUntil` of their own treatment of a leaf,
  and `tabulateLTS`, `mapLTS`, … are `lazySplit` of their own split.

  A schedule gives every task its answers; a task is named by the branches of `par2` that lead to it.

  - `sweepUntil_returns`: a sweep ends, with a result or an interrupted cursor.
  - `lazySplit_returns`: so does the whole operation, with a result that has what the cursor was to make up. Here it
    may be asked that every interrupted cursor of the run have a property (`Interrupted`).
-/

import Manticore.Parray.Cursor

namespace Manticore.Parray

open Fuel (Returns ok_bind)

variable {τ α β κ ρ L : Type}

abbrev Schedule := List Bool → Answers

def Schedule.here (σ : Schedule) : Answers := σ []

def Schedule.fst (σ : Schedule) : Schedule := fun path => σ (false :: path)

def Schedule.snd (σ : Schedule) : Schedule := fun path => σ (true :: path)

/-- The treatment `work` of a leaf ends with a finished piece and a new state, or with the cursor to return. -/
def sweepUntil (work : Answers → τ → L → GenCtx α β → Except Exn (Progress κ (τ × β) × Answers))
    (next : β → GenCtx α β → Progress (L × GenCtx α β) β) :
    Nat → Answers → τ → L → GenCtx α β → Except Exn (Progress κ β)
  | 0, _, _, _, _ => .error .fuel
  | n + 1, σ, t, s, c => do
    match ← work σ t s c with
    | (.more cur, _) => return .more cur
    | (.done (t', b), σ') =>
      match next b c with
      | .done p' => return .done p'
      | .more (s', c') => sweepUntil work next n σ' t' s' c'

def lazySplit (sweep : Nat → Answers → κ → Except Exn (Progress κ β)) (split : Nat → κ → Except Exn (κ × κ × ρ))
    (join : β → β → ρ → Except Exn β) : Nat → Schedule → κ → Except Exn β
  | 0, _, _ => .error .fuel
  | n + 1, σ, cur => do
    match ← sweep n σ.here cur with
    | .done b => return b
    | .more cur' =>
      let (cur1, cur2, reb) ← split n cur'
      let b1 ← lazySplit sweep split join n σ.fst cur1
      let b2 ← lazySplit sweep split join n σ.snd cur2
      join b1 b2 reb

/-- The interrupted cursors of a run from `cur`. -/
inductive Interrupted (sweep : Nat → Answers → κ → Except Exn (Progress κ β)) (split : Nat → κ → Except Exn (κ × κ × ρ)) :
    Schedule → κ → κ → Prop
  | here {η : Schedule} {cur cur' : κ} : Returns (fun n => sweep n η.here cur) (.more cur') → Interrupted sweep split η cur cur'
  | fst {η : Schedule} {cur cur' cur1 cur2 x : κ} {reb : ρ} : Returns (fun n => sweep n η.here cur) (.more cur') →
      Returns (fun n => split n cur') (cur1, cur2, reb) → Interrupted sweep split η.fst cur1 x → Interrupted sweep split η cur x
  | snd {η : Schedule} {cur cur' cur1 cur2 x : κ} {reb : ρ} : Returns (fun n => sweep n η.here cur) (.more cur') →
      Returns (fun n => split n cur') (cur1, cur2, reb) → Interrupted sweep split η.snd cur2 x → Interrupted sweep split η cur x

/-! ## A sweep -/

section
variable {Q : β → Prop} {J : κ → Prop}

/-- What a sweep ends with: a whole, or a cursor with `J`. -/
def Swept (Q : β → Prop) (J : κ → Prop) : Progress κ β → Prop
  | .done b => Q b
  | .more cur => J cur

/-- A sweep over leaves that keeps `Open` at a leaf and `Closed` at a finished piece; `left` counts the leaves to come. -/
theorem sweepUntil_returns {work : Answers → τ → L → GenCtx α β → Except Exn (Progress κ (τ × β) × Answers)}
    {next : β → GenCtx α β → Progress (L × GenCtx α β) β} (Open : τ → L → GenCtx α β → Prop)
    (Closed : τ → β → GenCtx α β → Prop) (left : GenCtx α β → Nat)
    (hwork : ∀ η t s c, Open t s c → ∃ res η', work η t s c = .ok (res, η') ∧ Swept (fun tb => Closed tb.1 tb.2 c) J res)
    (hnext : ∀ t b c, Closed t b c → (∃ b', next b c = .done b' ∧ Q b') ∨
      ∃ x c', next b c = .more (x, c') ∧ Open t x c' ∧ left c' < left c)
    {t : τ} {s : L} {c : GenCtx α β} (hopen : Open t s c) (η : Answers) :
    ∃ res, Returns (fun n => sweepUntil work next n η t s c) res ∧ Swept Q J res := by
  induction hk : left c using Nat.strong_induction_on generalizing η t s c with
  | _ k ih =>
    obtain ⟨res, η', hw, hres⟩ := hwork η t s c hopen
    cases res with
    | more cur =>
      refine ⟨.more cur, .succ ?_, hres⟩
      simp only [sweepUntil, hw, ok_bind]
      exact .pure _
    | done tb =>
      obtain ⟨t', b⟩ := tb
      rcases hnext t' b c hres with ⟨b', hdone, hQ⟩ | ⟨x, c', hmore, hopen', hlt⟩
      · refine ⟨.done b', .succ ?_, hQ⟩
        simp only [sweepUntil, hw, ok_bind, hdone]
        exact .pure _
      · obtain ⟨res, hret, hpost⟩ := ih (left c') (hk ▸ hlt) hopen' η' rfl
        refine ⟨res, .succ ?_, hpost⟩
        simp only [sweepUntil, hw, ok_bind, hmore]
        exact hret

end

/-! ## The whole -/

section
variable {sweep : Nat → Answers → κ → Except Exn (Progress κ β)} {split : Nat → κ → Except Exn (κ × κ × ρ)}
  {join : β → β → ρ → Except Exn β}

theorem lazySplit_returns (P : κ → Prop) (I J : (β → Prop) → κ → Prop) (size : κ → Nat)
    (hsweep : ∀ Q cur η, I Q cur → ∃ res, Returns (fun n => sweep n η cur) res ∧
      Swept Q (fun cur' => J Q cur' ∧ size cur' ≤ size cur) res)
    (hsplit : ∀ Q cur, J Q cur → P cur → ∃ cur1 cur2 reb Q1 Q2, Returns (fun n => split n cur) (cur1, cur2, reb) ∧
      I Q1 cur1 ∧ I Q2 cur2 ∧ size cur1 < size cur ∧ size cur2 < size cur ∧
      ∀ b1 b2, Q1 b1 → Q2 b2 → ∃ b, join b1 b2 reb = .ok b ∧ Q b)
    {Q : β → Prop} {cur : κ} (hI : I Q cur) (η : Schedule) (hP : ∀ x, Interrupted sweep split η cur x → P x) :
    ∃ b, Returns (fun n => lazySplit sweep split join n η cur) b ∧ Q b := by
  induction hk : size cur using Nat.strong_induction_on generalizing Q cur η with
  | _ k ih =>
    obtain ⟨res, hret, hres⟩ := hsweep Q cur η.here hI
    cases res with
    | done b =>
      refine ⟨b, .succ ?_, hres⟩
      simp only [lazySplit]
      exact hret.bind (.pure b)
    | more cur' =>
      obtain ⟨hJ, hle⟩ := hres
      obtain ⟨cur1, cur2, reb, Q1, Q2, hsp, hI1, hI2, hlt1, hlt2, hjoin⟩ := hsplit Q cur' hJ (hP cur' (.here hret))
      obtain ⟨b1, hret1, hb1⟩ := ih _ (by omega) hI1 η.fst (fun x hx => hP x (.fst hret hsp hx)) rfl
      obtain ⟨b2, hret2, hb2⟩ := ih _ (by omega) hI2 η.snd (fun x hx => hP x (.snd hret hsp hx)) rfl
      obtain ⟨b, hb, hQ⟩ := hjoin b1 b2 hb1 hb2
      refine ⟨b, .succ ?_, hQ⟩
      simp only [lazySplit]
      exact hret.bind (hsp.bind (hret1.bind (hret2.bind ⟨0, fun _ _ => hb⟩)))

end

end Manticore.Parray
