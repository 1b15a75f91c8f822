/-
  Manticore.CfgOpt.ContractRounds — the rounds of contraction come to an end where chains of
  empty blocks do (`loop_returns`).

  A round is paid for: each tick takes one from the weight of the code, the number of its
  blocks and expressions and, for each jump, how many empty blocks can still follow
  (`Spent`). A round without a tick leaves the counts alone and finds nothing to do
  (`Spent.still`), and is the same when done again (`round_still`).
-/

import Manticore.CfgOpt.Contract

namespace Manticore.CfgOpt.Contract

open Manticore.Cfg
open List (mem_singleton not_mem_nil map_cons map_nil sum_singleton mem_cons_self mem_cons_of_mem length_cons mem_cons)

/-! ## Runs -/

section

variable {α β : Type} {st : St}

/-- With enough fuel the computation returns with a result and a state that `Q` holds of. -/
def Runs (f : Nat → Pass α) (st : St) (Q : α → St → Prop) : Prop :=
  ∃ a st', Fuel.Returns (fun n => f n st) (a, st') ∧ Q a st'

variable {a : α} {Q : α → St → Prop} {f : Nat → Pass α} {st' : St} {x : Pass α}

theorem Runs.pure (h : Q a st) : Runs (fun _ => (return a : Pass α)) st Q :=
  ⟨a, st, Fuel.Returns.pure _, h⟩

theorem Runs.of_eq (h : ∀ n, f n st = .ok (a, st')) (hQ : Q a st') : Runs f st Q :=
  ⟨a, st', (Fuel.Returns.pure (a, st')).congr h, hQ⟩

theorem Runs.mono {P : α → St → Prop} (h : Runs f st P) (hPQ : ∀ a st', P a st' → Q a st') : Runs f st Q := by
  obtain ⟨a, st', hr, hP⟩ := h
  exact ⟨a, st', hr, hPQ a st' hP⟩

theorem Runs.bind {g : Nat → α → Pass β} {P : α → St → Prop} {Q : β → St → Prop} (h : Runs f st P)
    (hg : ∀ a st', P a st' → Runs (fun n => g n a) st' Q) : Runs (fun n => f n >>= g n) st Q := by
  obtain ⟨a, st', hr, hP⟩ := h
  obtain ⟨b, st'', hr', hQ⟩ := hg a st' hP
  have hb := @Fuel.Returns.bind Failure (α × St) (β × St) (fun n => f n st) (fun n p => g n p.1 p.2) _ _ hr hr'
  exact ⟨b, st'', hb, hQ⟩

/-- A step without fuel in front. -/
theorem Runs.step {g : Nat → α → Pass β} {Q : β → St → Prop} (h : x st = .ok (a, st'))
    (hg : Runs (fun n => g n a) st' Q) : Runs (fun n => x >>= g n) st Q :=
  Runs.bind (f := fun _ => x) (Runs.of_eq (Q := fun b t => b = a ∧ t = st') (fun _ => h) ⟨rfl, rfl⟩) fun b t hb => by
    obtain ⟨rfl, rfl⟩ := hb
    exact hg

theorem bind_ok {f : α → Pass β} {r : β × St} (h : (x >>= f) st = .ok r) :
    ∃ a st', x st = .ok (a, st') ∧ f a st' = .ok r := by
  obtain ⟨⟨a, st'⟩, hx, hf⟩ := Fuel.of_bind_ok (f := fun p : α × St => f p.1 p.2) h
  exact ⟨a, st', hx, hf⟩

theorem bind_error (f : α → Pass β) {e : Failure} (h : x st = .error e) : (x >>= f) st = .error e := by
  show (x st >>= fun p => f p.1 p.2) = _
  rw [h]
  rfl

theorem bind_eq {f : α → Pass β} (h : x st = .ok (a, st')) : (x >>= f) st = f a st' := by
  show (x st >>= fun p => f p.1 p.2) = _
  rw [h]
  rfl

end

/-- Work that takes the weight from `a` to `b`: no tick is free, and without a tick the state stays and there
    was nothing to do. -/
structure Spent (todo : St → Prop) (a : Nat) (st : St) (b : Nat) (st' : St) : Prop where
  mono : st.sum ≤ st'.sum
  paid : st'.sum + b ≤ st.sum + a
  still : st'.sum = st.sum → st' = st ∧ todo st

section

variable {st st' st'' : St} {S S' T : St → Prop} {a b a' b' : Nat}

theorem Spent.refl (h : S st) (a : Nat) : Spent S a st a st :=
  ⟨Nat.le_refl _, Nat.le_refl _, fun _ => ⟨rfl, h⟩⟩

theorem Spent.of_tick (h : st.sum < st'.sum) (hp : st'.sum + b ≤ st.sum + a) : Spent S a st b st' :=
  ⟨by omega, hp, fun hs => by omega⟩

theorem Spent.mono_todo (h : Spent S a st b st') (hST : S st → T st) : Spent T a st b st' :=
  ⟨h.mono, h.paid, fun hs => ⟨(h.still hs).1, hST (h.still hs).2⟩⟩

theorem Spent.trans (h : Spent S a st b st') (g : Spent S' a' st' b' st'') :
    Spent (fun s => S s ∧ S' s) (a + a') st (b + b') st'' := by
  refine ⟨h.mono.trans g.mono, ?_, fun hs => ?_⟩
  · have h₁ := h.paid
    have h₂ := g.paid
    omega
  · have h₁ := h.mono
    have h₂ := g.mono
    obtain ⟨rfl, hS⟩ := h.still (by omega)
    obtain ⟨rfl, hS'⟩ := g.still (by omega)
    exact ⟨rfl, hS, hS'⟩

end

/-! ## Chains of jumps -/

/-- A jump to a block, with as many arguments as it has parameters. -/
def JumpOK (bs : List Block) (jmp : Jump) : Prop := ∃ b ∈ bs, b.lab = jmp.1 ∧ b.args.length = jmp.2.length

/-- The empty block that only jumps on. -/
def Passes (b : Block) (l : Label) : Prop := b.body = [] ∧ ∃ args, b.exit = .goto (l, args)

/-- The blocks that the labels were made with, and how long a chain can still get from each label. -/
structure Table (kindOf : Label → LabelKind) (bs : List Block) (rank : Label → Nat) : Prop where
  blocks : ∀ b ∈ bs, kindOf b.lab = .block b
  jumps : ∀ b ∈ bs, ∀ jmp ∈ jumps b.exit, JumpOK bs jmp
  falls : ∀ b ∈ bs, ∀ l, Passes b l → rank l < rank b.lab

/-- The block with the label does not only jump on. -/
def Ends (kindOf : Label → LabelKind) (l : Label) : Prop := ∃ b, kindOf l = .block b ∧ ∀ l', ¬ Passes b l'

theorem bindParams_ok {ps as : List Var} (h : ps.length = as.length) (s : Env) :
    ∃ s', ∀ st, bindParams s ps as st = .ok (s', st) := by
  induction ps generalizing as s with
  | nil =>
    cases as with
    | nil => exact ⟨s, fun _ => rfl⟩
    | cons a as => cases h
  | cons p ps ih =>
    cases as with
    | nil => cases h
    | cons a as => exact ih (Nat.succ.inj h) _

/-- The state after one link of a chain. -/
def link (lab labOut : Label) (st : St) : St :=
  let labCount := Function.update st.labCount lab (st.labCount lab + -1)
  { st with sum := st.sum + 1, labCount := Function.update labCount labOut (labCount labOut + 1) }

theorem chainElim_ends {kindOf : Label → LabelKind} {lab : Label} (h : Ends kindOf lab) (n : Nat) (args : List Var)
    (st : St) : chainElim kindOf (n + 1) (lab, args) st = .ok ((lab, args), st) := by
  obtain ⟨b, hb, hp⟩ := h
  have hl : lookupBlock kindOf lab st = .ok (b, st) := by
    rw [lookupBlock, hb]
    rfl
  rw [chainElim, bind_eq hl]
  obtain ⟨bl, params, body, exit⟩ := b
  cases body with
  | nil =>
    cases exit with
    | goto jmp => exact absurd ⟨rfl, jmp.2, rfl⟩ (hp jmp.1)
    | _ => rfl
  | cons e es => rfl

theorem chainElim_passes {kindOf : Label → LabelKind} {lab labOut : Label} {b : Block} {argsOut args : List Var}
    (hb : kindOf lab = .block b) (hbody : b.body = []) (hexit : b.exit = .goto (labOut, argsOut))
    (hargs : b.args.length = args.length) : ∃ s : Env, ∀ n st, chainElim kindOf (n + 1) (lab, args) st =
      chainElim kindOf n (labOut, applySubst' s argsOut) (link lab labOut st) := by
  obtain ⟨bl, params, body, exit⟩ := b
  obtain ⟨s, hs⟩ := bindParams_ok hargs emptyEnv
  refine ⟨s, fun n st => ?_⟩
  have hl : lookupBlock kindOf lab st = .ok (⟨bl, params, body, exit⟩, st) := by
    rw [lookupBlock, hb]
    rfl
  obtain rfl : body = [] := hbody
  obtain rfl : exit = .goto (labOut, argsOut) := hexit
  rw [chainElim, bind_eq hl]
  exact bind_eq (hs st)

section

variable {kindOf : Label → LabelKind} {bs : List Block} {rank : Label → Nat}

theorem chainElim_runs (hT : Table kindOf bs rank) {jmp : Jump} (hjmp : JumpOK bs jmp) (st : St) :
    Runs (fun n => chainElim kindOf n jmp) st fun jmp' st' =>
      JumpOK bs jmp' ∧ Spent (fun _ => Ends kindOf jmp.1) (rank jmp.1) st (rank jmp'.1) st' := by
  induction hk : rank jmp.1 using Nat.strongRecOn generalizing jmp st with
  | ind k ih =>
    obtain ⟨lab, args⟩ := jmp
    obtain ⟨b, hb, hlab, hargs⟩ := hjmp
    have hlab : b.lab = lab := hlab
    have hkind : kindOf lab = .block b := hlab ▸ hT.blocks b hb
    by_cases hp : ∃ l, Passes b l
    · obtain ⟨labOut, hbody, argsOut, hexit⟩ := hp
      have hrank : rank labOut < k := by
        have := hT.falls b hb labOut ⟨hbody, argsOut, hexit⟩
        rwa [hlab, hk] at this
      obtain ⟨s, hs⟩ := chainElim_passes hkind hbody hexit hargs
      have hout : JumpOK bs (labOut, applySubst' s argsOut) := by
        obtain ⟨b', hb', hl, ha⟩ := hT.jumps b hb (labOut, argsOut) (by rw [hexit]; exact mem_singleton.2 rfl)
        exact ⟨b', hb', hl, ha.trans (List.length_map ..).symm⟩
      obtain ⟨jmp', st', hr, hok, hsp⟩ := ih _ hrank hout (link lab labOut st) rfl
      refine ⟨jmp', st', Fuel.Returns.succ (hr.congr fun n => hs n st), hok, .of_tick ?_ ?_⟩
      · have := hsp.mono
        exact Nat.lt_of_lt_of_le (Nat.lt_succ_self _) this
      · have hpaid := hsp.paid
        have hsum : (link lab labOut st).sum = st.sum + 1 := rfl
        rw [hsum] at hpaid
        omega
    · have hends : Ends kindOf lab := ⟨b, hkind, fun l hl => hp ⟨l, hl⟩⟩
      refine ⟨(lab, args), st, Fuel.Returns.succ ?_, ⟨b, hb, hlab, hargs⟩, ?_⟩
      · exact (Fuel.Returns.pure _).congr fun n => chainElim_ends hends n args st
      · subst hk
        exact .refl hends _

theorem contractJump_runs (hT : Table kindOf bs rank) {jmp : Jump} (hjmp : JumpOK bs jmp) (env : Env) (st : St) :
    Runs (fun n => contractJump kindOf n env jmp) st fun jmp' st' =>
      JumpOK bs jmp' ∧ Spent (fun _ => Ends kindOf jmp.1) (rank jmp.1) st (rank jmp'.1) st' := by
  refine chainElim_runs hT ?_ st
  obtain ⟨b, hb, hl, ha⟩ := hjmp
  exact ⟨b, hb, hl, ha.trans (List.length_map ..).symm⟩

/-- How many empty blocks can still follow the jumps. -/
def weightJumps (rank : Label → Nat) (jmps : List Jump) : Nat := (jmps.map fun jmp => rank jmp.1).sum

/-- All jumps are to blocks. -/
def JumpsOK (bs : List Block) (jmps : List Jump) : Prop := ∀ jmp ∈ jmps, JumpOK bs jmp

/-- No jump is to an empty block that only jumps on. -/
def AllEnd (kindOf : Label → LabelKind) (jmps : List Jump) : Prop := ∀ jmp ∈ jmps, Ends kindOf jmp.1

/-- What a contraction of jumps does. -/
def JumpsDone (kindOf : Label → LabelKind) (bs : List Block) (rank : Label → Nat) (st : St) (jmps jmps' : List Jump)
    (st' : St) : Prop :=
  JumpsOK bs jmps' ∧ Spent (fun _ => AllEnd kindOf jmps) (weightJumps rank jmps) st (weightJumps rank jmps') st'

theorem JumpsDone.nil (st : St) : JumpsDone kindOf bs rank st [] [] st :=
  ⟨fun _ h => absurd h not_mem_nil, .refl (fun _ h => absurd h not_mem_nil) _⟩

theorem JumpsDone.append {st st' st'' : St} {js₁ js₂ js₁' js₂' : List Jump}
    (h₁ : JumpsDone kindOf bs rank st js₁ js₁' st') (h₂ : JumpsDone kindOf bs rank st' js₂ js₂' st'') :
    JumpsDone kindOf bs rank st (js₁ ++ js₂) (js₁' ++ js₂') st'' := by
  refine ⟨fun jmp h => (List.mem_append.1 h).elim (h₁.1 jmp) (h₂.1 jmp), ?_⟩
  have h := h₁.2.trans h₂.2
  simp only [weightJumps, List.map_append, List.sum_append]
  exact h.mono_todo fun hs jmp hjmp => (List.mem_append.1 hjmp).elim (hs.1 jmp) (hs.2 jmp)

theorem jump_done (hT : Table kindOf bs rank) {jmp : Jump} (hjmp : JumpOK bs jmp) (env : Env) (st : St) :
    Runs (fun n => contractJump kindOf n env jmp) st fun jmp' st' => JumpsDone kindOf bs rank st [jmp] [jmp'] st' := by
  refine (contractJump_runs hT hjmp env st).mono fun jmp' st' h => ⟨?_, ?_⟩
  · intro j hj
    exact mem_singleton.1 hj ▸ h.1
  · simp only [weightJumps, map_cons, map_nil, sum_singleton]
    exact h.2.mono_todo fun hs j hj => mem_singleton.1 hj ▸ hs

theorem contractCases_runs (hT : Table kindOf bs rank) (env : Env) {cases : List (Nat × Jump)}
    (h : JumpsOK bs (cases.map (·.2))) (st : St) :
    Runs (fun n => contractCases kindOf n env cases) st fun cases' st' =>
      JumpsDone kindOf bs rank st (cases.map (·.2)) (cases'.map (·.2)) st' := by
  induction cases generalizing st with
  | nil => exact .pure (.nil st)
  | cons c cases ih =>
    refine Runs.bind (jump_done hT (h c.2 mem_cons_self) env st) fun jmp' st₁ h₁ => ?_
    refine Runs.bind (ih (fun j hj => h j (mem_cons_of_mem _ hj)) st₁) fun cases' st₂ h₂ => ?_
    exact .pure (h₁.append h₂)

theorem contractDflt_runs (hT : Table kindOf bs rank) (env : Env) {dflt : Option Jump} (h : JumpsOK bs dflt.toList)
    (st : St) : Runs (fun n => contractDflt kindOf n env dflt) st fun dflt' st' =>
      JumpsDone kindOf bs rank st dflt.toList dflt'.toList st' := by
  cases dflt with
  | none => exact .pure (.nil st)
  | some jmp => exact Runs.bind (jump_done hT (h jmp mem_cons_self) env st) fun jmp' st₁ h₁ => .pure h₁

/-- The exit is no `HeapCheckN`. -/
def Plain (exit : Transfer) : Prop := ∀ hck x szb nogc, exit ≠ .heapCheckN hck x szb nogc

theorem contractExit_runs (hT : Table kindOf bs rank) (env : Env) {exit : Transfer} (h : JumpsOK bs (jumps exit))
    (hp : Plain exit) (st : St) : Runs (fun n => contractExit kindOf n env exit) st fun exit' st' =>
      Plain exit' ∧ JumpsDone kindOf bs rank st (jumps exit) (jumps exit') st' := by
  cases exit with
  | stdApply | stdThrow | apply => exact .pure ⟨nofun, .nil st⟩
  | goto jmp | heapCheck _ _ jmp | allocCCall _ _ _ jmp =>
    exact Runs.bind (jump_done hT (h jmp mem_cons_self) env st) fun jmp' st₁ h₁ => .pure ⟨nofun, h₁⟩
  | if_ c jmp₁ jmp₂ =>
    refine Runs.bind (jump_done hT (h jmp₁ (by simp [jumps])) env st) fun jmp₁' st₁ h₁ => ?_
    refine Runs.bind (jump_done hT (h jmp₂ (by simp [jumps])) env st₁) fun jmp₂' st₂ h₂ => ?_
    exact .pure ⟨nofun, h₁.append h₂⟩
  | switch x cases dflt =>
    have hcases : JumpsOK bs (cases.map (·.2)) := fun j hj => h j (List.mem_append_left _ hj)
    have hdflt : JumpsOK bs dflt.toList := fun j hj => h j (List.mem_append_right _ hj)
    refine Runs.bind (contractCases_runs hT env hcases st) fun cases' st₁ h₁ => ?_
    refine Runs.bind (contractDflt_runs hT env hdflt st₁) fun dflt' st₂ h₂ => ?_
    exact .pure ⟨nofun, h₁.append h₂⟩
  | heapCheckN hck x szb nogc => exact absurd rfl (hp hck x szb nogc)

end

/-! ## Expressions -/

/-- The expression binds a variable without uses, and can be left out. -/
def Useless (st : St) : Exp → Prop
  | .const x _ _ | .cast x _ _ | .label x _ | .select x _ _ | .addrOf x _ _ | .alloc x _ _ | .galloc x _ _
  | .promote x _ | .hostVProc x | .vpLoad x _ _ | .vpAddr x _ _ => st.useCount x = 0
  | .prim x p _ => st.useCount x = 0 ∧ BomOpt.PrimContract.isPure p = true
  | .var _ _ | .update _ _ _ | .prim0 _ _ | .ccall _ _ _ | .vpStore _ _ _ => False

/-- What becomes of an expression in front of the contracted rest: it is kept, renamed, or left out. -/
inductive ExpDone (env : Env) (e : Exp) (r : List Exp × Transfer) (st : St) : List Exp × Transfer → St → Prop
  | kept (e' : Exp) : ¬ Useless st e → (∀ xs ys, e' ≠ .var xs ys) → (env = emptyEnv → e' = e) →
      ExpDone env e r st (e' :: r.1, r.2) st
  | removed (st' : St) : Useless st e → st'.sum = st.sum + 1 →
      (∀ l, st'.labCount l = st.labCount l - (labelIn e).count l) → ExpDone env e r st r st'

theorem unused_apply (x : Var) (st : St) : unused x st = .ok (st.useCount x == 0, st) := rfl

/-- The computation lowers use counts of variables, if anything. -/
def OnlyUses (lower : Pass Unit) : Prop := ∀ st, ∃ u, lower st = .ok ((), { st with useCount := u })

theorem onlyUses_return : OnlyUses (return) := fun st => ⟨st.useCount, rfl⟩

theorem onlyUses_dec (x : Var) : OnlyUses (dec x) := fun _ => ⟨_, rfl⟩

theorem onlyUses_dec' (xs : List Var) : OnlyUses (dec' xs) := by
  induction xs with
  | nil => exact onlyUses_return
  | cons x xs ih =>
    intro st
    obtain ⟨u, hu⟩ := onlyUses_dec x st
    obtain ⟨u', hu'⟩ := ih { st with useCount := u }
    refine ⟨u', ?_⟩
    rw [dec', app, bind_eq hu]
    exact hu'

theorem removeIf_useless {lower : Pass Unit} {e : Exp} {r : List Exp × Transfer} {st st' : St}
    (h : lower { st with sum := st.sum + 1 } = .ok ((), st')) : removeIf true lower e r st = .ok (r, st') := by
  rw [removeIf, if_pos rfl, bind_eq (show tick st = .ok ((), { st with sum := st.sum + 1 }) from rfl), bind_eq h]
  rfl

/-- An expression that is left out when its variable has no uses. -/
theorem removeIf_done {env : Env} {e e' : Exp} {x : Var} {lower : Pass Unit} (r : List Exp × Transfer) {st : St}
    (hx : Useless st e ↔ st.useCount x = 0) (hlab : labelIn e = []) (hvar : ∀ xs ys, e' ≠ .var xs ys)
    (heq : env = emptyEnv → e' = e) (hl : OnlyUses lower) :
    ∃ r' st', (unused x >>= fun u => removeIf u lower e' r) st = .ok (r', st') ∧ ExpDone env e r st r' st' := by
  rw [bind_eq (unused_apply x st)]
  by_cases h : st.useCount x = 0
  · obtain ⟨u, hu⟩ := hl { st with sum := st.sum + 1 }
    refine ⟨r, _, ?_, .removed { st with useCount := u, sum := st.sum + 1 } (hx.2 h) rfl fun l => ?_⟩
    · rw [h]
      exact removeIf_useless hu
    · simp [hlab]
  · refine ⟨_, st, ?_, .kept e' (fun hu => h (hx.1 hu)) hvar heq⟩
    rw [beq_false_of_ne h]
    rfl

theorem applySubst_empty (x : Var) : applySubst emptyEnv x = x := rfl

theorem applySubst'_empty (xs : List Var) : applySubst' emptyEnv xs = xs := List.map_id xs

theorem contractExp_done (env : Env) {e : Exp} (he : ∀ xs ys, e ≠ .var xs ys) (r : List Exp × Transfer) (st : St) :
    ∃ r' st', contractExp env e r st = .ok (r', st') ∧ ExpDone env e r st r' st' := by
  cases e with
  | var xs ys => exact absurd rfl (he xs ys)
  | const | hostVProc => exact removeIf_done r Iff.rfl rfl nofun (fun _ => rfl) onlyUses_return
  | cast | select | addrOf | promote | vpLoad | vpAddr =>
    refine removeIf_done r Iff.rfl rfl nofun (fun h => ?_) (onlyUses_dec _)
    rw [h, applySubst_empty]
  | label x lab =>
    rw [contractExp, bind_eq (unused_apply x st)]
    by_cases h : st.useCount x = 0
    · have hdec : decLab lab { st with sum := st.sum + 1 } = .ok ((),
          { st with sum := st.sum + 1, labCount := Function.update st.labCount lab (st.labCount lab + -1) }) := rfl
      refine ⟨r, { st with sum := st.sum + 1, labCount := Function.update st.labCount lab (st.labCount lab + -1) },
        ?_, .removed _ h rfl fun l => ?_⟩
      · rw [h]
        exact removeIf_useless hdec
      · by_cases hl : l = lab
        · subst hl
          simp [labelIn, Int.sub_eq_add_neg]
        · simp [labelIn, Function.update_of_ne hl, Ne.symm hl]
    · refine ⟨_, st, ?_, .kept _ h he fun _ => rfl⟩
      rw [beq_false_of_ne h]
      rfl
  | update | vpStore =>
    refine ⟨_, st, rfl, .kept _ id nofun fun h => ?_⟩
    rw [h, applySubst_empty, applySubst_empty]
  | alloc | galloc =>
    refine removeIf_done r Iff.rfl rfl nofun (fun h => ?_) (onlyUses_dec' _)
    rw [h, applySubst'_empty]
  | prim0 p ys => exact ⟨_, st, rfl, .kept (.prim0 p ys) id nofun fun _ => rfl⟩
  | prim x p ys =>
    have heq : env = emptyEnv → Exp.prim x p (applySubst' env ys) = .prim x p ys := by
      intro h
      rw [h, applySubst'_empty]
    rw [contractExp]
    cases hp : BomOpt.PrimContract.isPure p with
    | true =>
      simp only [Bool.and_true]
      exact removeIf_done r (by simp [Useless, hp]) rfl nofun heq (onlyUses_dec' _)
    | false =>
      refine ⟨_, st, ?_, .kept (.prim x p (applySubst' env ys)) (by simp [Useless, hp]) nofun heq⟩
      simp only [Bool.and_false]
      exact bind_eq (unused_apply x st)
  | ccall xs f ys =>
    refine ⟨_, st, rfl, .kept _ id nofun fun h => ?_⟩
    rw [h, applySubst_empty, applySubst'_empty]

theorem mergeAll_ok {xs ys : List Var} (h : xs.length = ys.length) (st : St) :
    ∃ u, mergeAll xs ys st = .ok ((), { st with useCount := u }) := by
  induction xs generalizing ys st with
  | nil =>
    cases ys with
    | nil => exact ⟨st.useCount, rfl⟩
    | cons y ys => cases h
  | cons x xs ih =>
    cases ys with
    | nil => cases h
    | cons y ys =>
      obtain ⟨u, hu⟩ := ih (Nat.succ.inj h)
        { st with useCount := Function.update st.useCount y (st.useCount y + (st.useCount x - 1)) }
      exact ⟨u, hu⟩

theorem rename'_ok {xs ys : List Var} (h : xs.length = ys.length) (env : Env) :
    ∃ env', ∀ st, rename' env xs ys st = .ok (env', st) := by
  induction xs generalizing ys env with
  | nil =>
    cases ys with
    | nil => exact ⟨env, fun _ => rfl⟩
    | cons y ys => cases h
  | cons x xs ih =>
    cases ys with
    | nil => cases h
    | cons y ys => exact ih (Nat.succ.inj h) _

/-- An expression that contraction keeps. -/
def Kept (st : St) (e : Exp) : Prop := (∀ xs ys, e ≠ .var xs ys) ∧ ¬ Useless st e

/-- The code is well-formed for the table. -/
structure CodeOK (bs : List Block) (es : List Exp) (exit : Transfer) : Prop where
  vars : ∀ xs ys, .var xs ys ∈ es → xs.length = ys.length
  jumps : JumpsOK bs (jumps exit)
  plain : Plain exit

section

variable {kindOf : Label → LabelKind} {bs : List Block} {rank : Label → Nat}

/-- Nothing is to be done in the code. -/
def StillCode (kindOf : Label → LabelKind) (es : List Exp) (exit : Transfer) (st : St) : Prop :=
  (∀ e ∈ es, Kept st e) ∧ AllEnd kindOf (jumps exit)

def weightCode (rank : Label → Nat) (es : List Exp) (exit : Transfer) : Nat := es.length + weightJumps rank (jumps exit)

theorem contractExps_cons (n : Nat) (env : Env) {e : Exp} (he : ∀ xs ys, e ≠ .var xs ys) (es : List Exp)
    (exit : Transfer) : contractExps kindOf n env (e :: es) exit =
      (contractExps kindOf n env es exit >>= fun r => contractExp env e r) := by
  cases e with
  | var xs ys => exact absurd rfl (he xs ys)
  | _ => rfl

variable {exit : Transfer} {b : Block} {α : Type} {xs : List α} {f : Func} {code : List Func} {st : St}

theorem contractExps_runs (hT : Table kindOf bs rank) {es : List Exp} (h : CodeOK bs es exit) (env : Env) (st : St)
    :
    Runs (fun n => contractExps kindOf n env es exit) st fun r st' => CodeOK bs r.1 r.2 ∧
      (∀ xs ys, .var xs ys ∉ r.1) ∧ Spent (StillCode kindOf es exit) (weightCode rank es exit) st
      (weightCode rank r.1 r.2) st' := by
  induction es generalizing env st with
  | nil =>
    refine Runs.bind (contractExit_runs hT env h.jumps h.plain st) fun exit' st₁ h₁ => .pure ⟨?_, nofun, ?_⟩
    · exact ⟨nofun, h₁.2.1, h₁.1⟩
    · simp only [weightCode, List.length_nil, Nat.zero_add]
      exact h₁.2.2.mono_todo fun hs => ⟨fun _ he => absurd he not_mem_nil, hs⟩
  | cons e es ih =>
    have hrest : CodeOK bs es exit := ⟨fun xs ys hv => h.vars xs ys (mem_cons_of_mem _ hv), h.jumps, h.plain⟩
    by_cases he : ∃ xs ys, e = .var xs ys
    · obtain ⟨xs, ys, rfl⟩ := he
      have hlen := h.vars xs ys mem_cons_self
      obtain ⟨u, hu⟩ := mergeAll_ok hlen { st with sum := st.sum + 1 }
      obtain ⟨env', henv⟩ := rename'_ok hlen env
      have htick : tick st = .ok ((), { st with sum := st.sum + 1 }) := rfl
      refine Runs.step htick (Runs.step hu (Runs.step (henv _) ?_))
      refine (ih hrest env' { st with useCount := u, sum := st.sum + 1 }).mono fun r st' hr => ⟨hr.1, hr.2.1, ?_⟩
      have hmono := hr.2.2.mono
      have hpaid := hr.2.2.paid
      refine .of_tick ?_ ?_
      · exact Nat.lt_of_lt_of_le (Nat.lt_succ_self _) hmono
      · simp only [weightCode, length_cons] at hpaid ⊢
        omega
    · have he : ∀ xs ys, e ≠ .var xs ys := fun xs ys hv => he ⟨xs, ys, hv⟩
      simp only [contractExps_cons _ _ he]
      refine Runs.bind (ih hrest env st) fun r st₁ hr => ?_
      obtain ⟨r', st₂, hdone, hd⟩ := contractExp_done env he r st₁
      refine Runs.of_eq (fun _ => hdone) ?_
      obtain ⟨hok, hnv, hsp⟩ := hr
      have hmono := hsp.mono
      have hpaid := hsp.paid
      cases hd with
      | kept e' hu hv heq =>
        refine ⟨⟨?_, hok.jumps, hok.plain⟩, ?_, ⟨hmono, ?_, fun hs => ?_⟩⟩
        · grind
        · grind
        · simp only [weightCode, length_cons] at hpaid ⊢
          omega
        · obtain ⟨rfl, hst⟩ := hsp.still hs
          refine ⟨rfl, fun e₁ h₁ => ?_, hst.2⟩
          rcases mem_cons.1 h₁ with h₁ | h₁
          · exact h₁ ▸ ⟨he, hu⟩
          · exact hst.1 e₁ h₁
      | removed st₂ hu hsum hlab =>
        refine ⟨hok, hnv, .of_tick (by omega) ?_⟩
        simp only [weightCode, length_cons] at hpaid ⊢
        omega

/-! ## Blocks -/

def BlockOK (bs : List Block) (b : Block) : Prop := CodeOK bs b.body b.exit

def StillBlock (kindOf : Label → LabelKind) (b : Block) (st : St) : Prop := StillCode kindOf b.body b.exit st

def weight (rank : Label → Nat) (b : Block) : Nat := 1 + weightCode rank b.body b.exit

theorem contractBlock_runs (hT : Table kindOf bs rank) (hb : BlockOK bs b) (st : St) :
    Runs (fun n => contractBlock kindOf n b) st fun b' st' => BlockOK bs b' ∧ Spent (StillBlock kindOf b)
      (weight rank b) st (weight rank b') st' := by
  refine Runs.bind (contractExps_runs hT hb emptyEnv st) fun r st₁ hr => .pure ⟨hr.1, ?_⟩
  have h := hr.2.2
  refine ⟨h.mono, ?_, h.still⟩
  have hpaid := h.paid
  simp only [weight]
  omega

theorem app_sum {f : α → Pass Unit} (h : ∀ x ∈ xs, ∀ st, ∃ st', f x st = .ok ((), st') ∧ st'.sum = st.sum) (st : St)
    : ∃ st', app f xs st = .ok ((), st') ∧ st'.sum = st.sum := by
  induction xs generalizing st with
  | nil => exact ⟨st, rfl, rfl⟩
  | cons x xs ih =>
    obtain ⟨st₁, h₁, hs₁⟩ := h x mem_cons_self st
    obtain ⟨st₂, h₂, hs₂⟩ := ih (fun y hy => h y (mem_cons_of_mem _ hy)) st₁
    exact ⟨st₂, (bind_eq h₁).trans h₂, hs₂.trans hs₁⟩

theorem deleteJump_sum (jmp : Jump) (st : St) : ∃ st', deleteJump jmp st = .ok ((), st') ∧ st'.sum = st.sum :=
  ⟨_, rfl, rfl⟩

theorem deleteExit_sum (hp : Plain exit) (st : St) :
    ∃ st', deleteExit exit st = .ok ((), st') ∧ st'.sum = st.sum := by
  cases exit with
  | heapCheckN hck x szb nogc => exact absurd rfl (hp hck x szb nogc)
  | if_ c jmp₁ jmp₂ => exact ⟨_, rfl, rfl⟩
  | switch x cases dflt =>
    obtain ⟨st₁, h₁, hs₁⟩ := app_sum (f := fun c : Nat × Jump => deleteJump c.2) (fun c _ st => deleteJump_sum c.2 st) st
    obtain ⟨st₂, h₂, hs₂⟩ := app_sum (f := deleteJump) (fun j _ st => deleteJump_sum j st) st₁
    exact ⟨st₂, (bind_eq h₁).trans h₂, hs₂.trans hs₁⟩
  | _ => exact ⟨_, rfl, rfl⟩

theorem deleteBlock_sum (hp : Plain b.exit) (st : St) :
    ∃ st', deleteBlock b st = .ok ((), st') ∧ st'.sum = st.sum + 1 := by
  have hexp : ∀ e ∈ b.body, ∀ st, ∃ st', deleteExp e st = .ok ((), st') ∧ st'.sum = st.sum := by
    intro e _ st
    cases e <;> exact ⟨_, rfl, rfl⟩
  obtain ⟨st₁, h₁, hs₁⟩ := app_sum hexp { st with sum := st.sum + 1 }
  obtain ⟨st₂, h₂, hs₂⟩ := deleteExit_sum hp st₁
  have htick : tick st = .ok ((), { st with sum := st.sum + 1 }) := rfl
  refine ⟨st₂, ?_, hs₂.trans hs₁⟩
  rw [deleteBlock, bind_eq htick, bind_eq h₁]
  exact h₂

/-- The block is used, and there is nothing to do in it. -/
def StillBody (kindOf : Label → LabelKind) (b : Block) (st : St) : Prop :=
  st.labCount b.lab ≠ 0 ∧ StillBlock kindOf b st

theorem contractBodyBlock_runs (hT : Table kindOf bs rank) (hb : BlockOK bs b) (st : St) :
    Runs (fun n => contractBodyBlock kindOf n b) st fun o st' => (∀ b' ∈ o, BlockOK bs b') ∧ Spent
      (StillBody kindOf b) (weight rank b) st (o.toList.map (weight rank)).sum st' := by
  refine Runs.step (show labCountOf b.lab st = .ok (st.labCount b.lab, st) from rfl) ?_
  by_cases h0 : st.labCount b.lab = 0
  · obtain ⟨st₁, h₁, hs⟩ := deleteBlock_sum hb.plain st
    rw [h0]
    refine Runs.step h₁ (.pure ⟨nofun, .of_tick (by omega) ?_⟩)
    simp only [weight, Option.toList_none, map_nil, List.sum_nil]
    omega
  · rw [beq_false_of_ne h0]
    refine Runs.bind (contractBlock_runs hT hb st) fun b' st₁ h₁ => .pure ⟨?_, ?_⟩
    · intro b₁ hb₁
      cases hb₁
      exact h₁.1
    · simp only [Option.toList_some, map_cons, map_nil, sum_singleton]
      exact h₁.2.mono_todo fun hs => ⟨h0, hs⟩

theorem mapPartial_runs {β : Type} {f : Nat → α → Pass (Option β)} {P : β → Prop} {todo : α → St → Prop}
    {w : α → Nat} {w' : β → Nat}
    (h : ∀ x ∈ xs, ∀ st, Runs (fun n => f n x) st fun o st' => (∀ y ∈ o, P y) ∧ Spent (todo x) (w x) st (o.toList.map w').sum st')
    (st : St) :
    Runs (fun n => mapPartial (f n) xs) st fun ys st' => (∀ y ∈ ys, P y) ∧ Spent (fun s => ∀ x ∈ xs, todo x s)
      (xs.map w).sum st (ys.map w').sum st' := by
  induction xs generalizing st with
  | nil => exact .pure ⟨fun _ hy => absurd hy not_mem_nil, .refl (fun _ hx => absurd hx not_mem_nil) _⟩
  | cons x xs ih =>
    refine Runs.bind (h x mem_cons_self st) fun o st₁ h₁ => ?_
    refine Runs.bind (ih (fun y hy => h y (mem_cons_of_mem _ hy)) st₁) fun ys st₂ h₂ => .pure ⟨?_, ?_⟩
    · grind
    · simp only [map_cons, List.sum_cons, List.map_append, List.sum_append]
      exact (h₁.2.trans h₂.2).mono_todo fun hs y hy => by
        rcases mem_cons.1 hy with rfl | hy
        · exact hs.1
        · exact hs.2 y hy

/-! ## Functions and rounds -/

structure FuncOK (kindOf : Label → LabelKind) (bs : List Block) (f : Func) : Prop where
  kind : kindOf f.lab = .func
  start : BlockOK bs f.start
  body : ∀ b ∈ f.body, BlockOK bs b

def StillFunc (kindOf : Label → LabelKind) (f : Func) (st : St) : Prop :=
  StillBlock kindOf f.start st ∧ ∀ b ∈ f.body, StillBody kindOf b st

def weightFunc (rank : Label → Nat) (f : Func) : Nat := weight rank f.start + (f.body.map (weight rank)).sum

theorem contractFunc_eq (h : kindOf f.lab = .func) (n : Nat) (st : St) :
    contractFunc kindOf n f st =
      (contractBlock kindOf n f.start >>= fun start => mapPartial (contractBodyBlock kindOf n) f.body >>= fun body => return some ⟨f.lab, f.entry, start, body⟩)
      st := by
  have hl : isLocalLabel kindOf f.lab = false := by
    rw [isLocalLabel, h]
  rw [contractFunc, hl]
  rfl

theorem contractFunc_runs (hT : Table kindOf bs rank) (hf : FuncOK kindOf bs f) (st : St) :
    Runs (fun n => contractFunc kindOf n f) st fun o st' => (∀ f' ∈ o, FuncOK kindOf bs f') ∧ Spent
      (StillFunc kindOf f) (weightFunc rank f) st (o.toList.map (weightFunc rank)).sum st' := by
  have hrun : Runs (fun n => contractBlock kindOf n f.start >>= fun start =>
      mapPartial (contractBodyBlock kindOf n) f.body >>= fun body =>
        (return some ⟨f.lab, f.entry, start, body⟩ : Pass (Option Func))) st fun o st' =>
      (∀ f' ∈ o, FuncOK kindOf bs f') ∧
        Spent (StillFunc kindOf f) (weightFunc rank f) st (o.toList.map (weightFunc rank)).sum st' := by
    refine Runs.bind (contractBlock_runs hT hf.start st) fun start st₁ h₁ => ?_
    refine Runs.bind (mapPartial_runs (fun b hb st => contractBodyBlock_runs hT (hf.body b hb) st) st₁) fun body st₂ h₂ =>
      .pure ⟨?_, ?_⟩
    · intro f' hf'
      cases hf'
      exact ⟨hf.kind, h₁.1, h₂.1⟩
    · simp only [Option.toList_some, map_cons, map_nil, sum_singleton]
      exact h₁.2.trans h₂.2
  obtain ⟨o, st', hr, hQ⟩ := hrun
  exact ⟨o, st', hr.congr fun n => contractFunc_eq hf.kind n st, hQ⟩

def weightAll (rank : Label → Nat) (code : List Func) : Nat := (code.map (weightFunc rank)).sum

theorem round_runs (hT : Table kindOf bs rank) (h : ∀ f ∈ code, FuncOK kindOf bs f) (st : St) :
    Runs (fun n => round kindOf n code) st fun code' st' => (∀ f ∈ code', FuncOK kindOf bs f) ∧ Spent
      (fun s => ∀ f ∈ code, StillFunc kindOf f s) (weightAll rank code) st (weightAll rank code') st' :=
  mapPartial_runs (fun f hf st => contractFunc_runs hT (h f hf) st) st

/-! ## A round with nothing to do -/

/-- An exit is rebuilt with the condition that `CondUtil.map` makes. -/
def rebuilt : Transfer → Transfer
  | .if_ c jmp₁ jmp₂ => .if_ (c.map (applySubst emptyEnv)) jmp₁ jmp₂
  | exit => exit

def rebuiltBlock (b : Block) : Block := { b with exit := rebuilt b.exit }

def rebuiltFunc (f : Func) : Func := { f with start := rebuiltBlock f.start, body := f.body.map rebuiltBlock }

theorem jumps_rebuilt (exit : Transfer) : jumps (rebuilt exit) = jumps exit := by
  cases exit <;> rfl

theorem rebuilt_rebuilt (exit : Transfer) : rebuilt (rebuilt exit) = rebuilt exit := by
  cases exit with
  | if_ c jmp₁ jmp₂ =>
    have hop : c.op.explode.explode = c.op.explode := by
      cases c.op <;> rfl
    simp [rebuilt, Cond.map, applySubst_empty, hop]
  | _ => rfl

theorem rebuiltFunc_rebuiltFunc (f : Func) : rebuiltFunc (rebuiltFunc f) = rebuiltFunc f := by
  simp [rebuiltBlock, rebuilt_rebuilt, rebuiltFunc]

theorem stillFunc_rebuilt (h : StillFunc kindOf f st) : StillFunc kindOf (rebuiltFunc f) st := by
  have hb : ∀ b, StillBlock kindOf b st → StillBlock kindOf (rebuiltBlock b) st := by
    intro b hb
    refine ⟨hb.1, ?_⟩
    show AllEnd kindOf (jumps (rebuilt b.exit))
    rw [jumps_rebuilt]
    exact hb.2
  refine ⟨hb _ h.1, fun b' hb' => ?_⟩
  obtain ⟨b, hb₁, rfl⟩ := List.mem_map.1 hb'
  exact ⟨(h.2 b hb₁).1, hb b (h.2 b hb₁).2⟩

theorem contractJump_still {jmp : Jump} (h : Ends kindOf jmp.1) (n : Nat) (st : St) :
    contractJump kindOf (n + 1) emptyEnv jmp st = .ok (jmp, st) := by
  rw [contractJump, applySubst'_empty]
  exact chainElim_ends h n jmp.2 st

theorem contractCases_still {cases : List (Nat × Jump)} (h : AllEnd kindOf (cases.map (·.2))) (n : Nat) (st : St) :
    contractCases kindOf (n + 1) emptyEnv cases st = .ok (cases, st) := by
  induction cases with
  | nil => rfl
  | cons c cases ih =>
    obtain ⟨tag, jmp⟩ := c
    have hrest := ih fun j hj => h j (mem_cons_of_mem _ hj)
    rw [contractCases, bind_eq (contractJump_still (h jmp mem_cons_self) n st), bind_eq hrest]
    rfl

theorem contractDflt_still {dflt : Option Jump} (h : AllEnd kindOf dflt.toList) (n : Nat) (st : St) :
    contractDflt kindOf (n + 1) emptyEnv dflt st = .ok (dflt, st) := by
  cases dflt with
  | none => rfl
  | some jmp => exact bind_eq (contractJump_still (h jmp mem_cons_self) n st)

theorem contractExit_still (h : AllEnd kindOf (jumps exit)) (hp : Plain exit) (n : Nat) (st : St) :
    contractExit kindOf (n + 1) emptyEnv exit st = .ok (rebuilt exit, st) := by
  cases exit with
  | stdApply | stdThrow | apply =>
    simp only [contractExit, applySubst_empty, applySubst'_empty]
    rfl
  | goto jmp | heapCheck _ _ jmp => exact bind_eq (contractJump_still (h jmp (by simp [jumps])) n st)
  | if_ c jmp₁ jmp₂ =>
    rw [contractExit, bind_eq (contractJump_still (h jmp₁ (by simp [jumps])) n st)]
    exact bind_eq (contractJump_still (h jmp₂ (by simp [jumps])) n st)
  | switch x cases dflt =>
    have hcases : AllEnd kindOf (cases.map (·.2)) := fun j hj => h j (List.mem_append_left _ hj)
    have hdflt : AllEnd kindOf dflt.toList := fun j hj => h j (List.mem_append_right _ hj)
    rw [contractExit, bind_eq (contractCases_still hcases n st)]
    exact bind_eq (contractDflt_still hdflt n st)
  | heapCheckN hck x szb nogc => exact absurd rfl (hp hck x szb nogc)
  | allocCCall lhs f args ret =>
    simp only [contractExit, applySubst_empty, applySubst'_empty]
    exact bind_eq (contractJump_still (h ret (by simp [jumps])) n st)

theorem contractExps_still {es : List Exp} (h : StillCode kindOf es exit st) (hp : Plain exit) (n : Nat) :
    contractExps kindOf (n + 1) emptyEnv es exit st = .ok ((es, rebuilt exit), st) := by
  induction es with
  | nil => exact bind_eq (contractExit_still h.2 hp n st)
  | cons e es ih =>
    obtain ⟨hv, hu⟩ := h.1 e mem_cons_self
    have hrest := ih ⟨fun e' he' => h.1 e' (mem_cons_of_mem _ he'), h.2⟩
    rw [contractExps_cons _ _ hv, bind_eq hrest]
    obtain ⟨r', st', hdone, hd⟩ := contractExp_done emptyEnv hv (es, rebuilt exit) st
    rw [hdone]
    cases hd with
    | kept e' _ _ heq => rw [heq rfl]
    | removed st' hu' => exact absurd hu' hu

theorem contractBlock_still (h : StillBlock kindOf b st) (hp : Plain b.exit) (n : Nat) :
    contractBlock kindOf (n + 1) b st = .ok (rebuiltBlock b, st) :=
  bind_eq (contractExps_still h hp n)

theorem contractBodyBlock_still (h : StillBody kindOf b st) (hp : Plain b.exit) (n : Nat) :
    contractBodyBlock kindOf (n + 1) b st = .ok (some (rebuiltBlock b), st) := by
  rw [contractBodyBlock, bind_eq (show labCountOf b.lab st = .ok (st.labCount b.lab, st) from rfl),
    beq_false_of_ne h.1]
  exact bind_eq (contractBlock_still h.2 hp n)

theorem mapPartial_still {f : α → Pass (Option α)} {g : α → α} (h : ∀ x ∈ xs, f x st = .ok (some (g x), st)) :
    mapPartial f xs st = .ok (xs.map g, st) := by
  induction xs with
  | nil => rfl
  | cons x xs ih =>
    rw [mapPartial, bind_eq (h x mem_cons_self), bind_eq (ih fun y hy => h y (mem_cons_of_mem _ hy))]
    rfl

theorem round_still (h : ∀ f ∈ code, StillFunc kindOf f st) (hok : ∀ f ∈ code, FuncOK kindOf bs f) (n : Nat) :
    round kindOf (n + 1) code st = .ok (code.map rebuiltFunc, st) := by
  refine mapPartial_still fun f hf => ?_
  have hbody : mapPartial (contractBodyBlock kindOf (n + 1)) f.body st = .ok (f.body.map rebuiltBlock, st) :=
    mapPartial_still fun b hb => contractBodyBlock_still ((h f hf).2 b hb) ((hok f hf).body b hb).plain n
  rw [contractFunc_eq (hok f hf).kind, bind_eq (contractBlock_still (h f hf).1 (hok f hf).start.plain n), bind_eq hbody]
  rfl

/-! ## The loop -/

/-- The rounds come to an end, on code that one more round leaves alone. -/
theorem loop_returns (hT : Table kindOf bs rank) (h : ∀ f ∈ code, FuncOK kindOf bs f) (st : St) :
    ∃ code' st', (∃ N, ∀ n k, N ≤ n → N ≤ k → loop kindOf n k code st.sum st = .ok (code', st')) ∧ ∀ n, round kindOf
      (n + 1) code' st' = .ok (code', st') := by
  induction hw : weightAll rank code using Nat.strongRecOn generalizing code st with
  | ind w ih =>
    obtain ⟨code₁, st₁, ⟨N, hN⟩, hok, hsp⟩ := round_runs hT h st
    by_cases hs : st₁.sum = st.sum
    · obtain ⟨rfl, hstill⟩ := hsp.still hs
      have hcode : code₁ = code.map rebuiltFunc := by
        have h₁ : round kindOf (N + 1) code st₁ = .ok (code₁, st₁) := hN (N + 1) (by omega)
        rw [round_still hstill h N] at h₁
        cases h₁
        rfl
      refine ⟨code₁, st₁, ⟨N + 1, fun n k hn hk => ?_⟩, fun n => ?_⟩
      · obtain ⟨k, rfl⟩ : ∃ j, k = j + 1 := ⟨k - 1, by omega⟩
        have h₁ : round kindOf n code st₁ = .ok (code₁, st₁) := hN n (by omega)
        rw [loop, bind_eq h₁, bind_eq (show ticks st₁ = .ok (st₁.sum, st₁) from rfl), if_neg (by simp)]
        rfl
      · have hstill' : ∀ f ∈ code₁, StillFunc kindOf f st₁ := by
          rw [hcode]
          grind [stillFunc_rebuilt]
        have hfix : code₁.map rebuiltFunc = code₁ := by
          rw [hcode, List.map_map]
          exact List.map_congr_left fun f _ => rebuiltFunc_rebuiltFunc f
        rw [round_still hstill' hok n, hfix]
    · have hlt : weightAll rank code₁ < w := by
        have hmono := hsp.mono
        have hpaid := hsp.paid
        omega
      obtain ⟨code₂, st₂, ⟨N₂, hN₂⟩, hfix⟩ := ih _ hlt hok st₁ rfl
      refine ⟨code₂, st₂, ⟨max N N₂ + 1, fun n k hn hk => ?_⟩, hfix⟩
      obtain ⟨k, rfl⟩ : ∃ j, k = j + 1 := ⟨k - 1, by omega⟩
      have h₁ : round kindOf n code st = .ok (code₁, st₁) := hN n (by omega)
      rw [loop, bind_eq h₁, bind_eq (show ticks st₁ = .ok (st₁.sum, st₁) from rfl), if_pos (Ne.symm hs)]
      exact hN₂ n k (by omega) (by omega)

end

theorem transform_eq (kindOf : Label → LabelKind) (n : Nat) (m : Module) (st : St) : transform kindOf n m st =
    (loop kindOf n n m.code st.sum >>= fun code => (return { m with code := code } : Pass Module)) st := rfl

end Manticore.CfgOpt.Contract
