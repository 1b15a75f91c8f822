/-
  Manticore.Match.Shape — the form of the automata that `genDFA` builds (match-dfa.sml).

  `Shape` follows a state from the root: a test looks at a path that is in scope and its
  arcs bring the paths of the components into scope, a bind or cond state binds the
  variables of a rule and goes on to the rule's final state. The final state of rule `i` has
  the id `i + 1` and the error state the id 0, so the ids of the other states are above
  `rules.length`; `Inner` says that these states are referenced at most once.
-/

import Manticore.Match.Matrix

namespace Manticore.Match

open Typechecker (Ty)

variable {E : Type} {D : Data} {rules : List (Rule E)}

/-! ## Paths -/

mutual

/-- The paths inside a cell. -/
def SPat.paths : SPat → List Path
  | .conApp _ _ path p => path :: p.paths
  | .tuple ps => ps.map Prod.fst ++ SPat.pathsL ps
  | _ => []

def SPat.pathsL : List (Path × SPat) → List Path
  | [] => []
  | (_, p) :: ps => p.paths ++ SPat.pathsL ps

end

def cellPaths (cells : List SPat) : List Path := cells.flatMap SPat.paths

theorem pathsL_eq (ps : List (Path × SPat)) : SPat.pathsL ps = cellPaths (ps.map Prod.snd) := by
  induction ps with
  | nil => rfl
  | cons p ps ih => simp [SPat.pathsL, cellPaths, ih]

/-- The paths of an arc of a column are those of the components. -/
def ArcPaths (arg : Path) : SimplePat → Prop
  | .any => True
  | .lit _ => True
  | .tpl paths => ∃ n, paths = (List.range n).map arg.extend
  | .con _ _ paths => paths = [] ∨ paths = [arg.extend 0]

theorem Key.arcPaths {π : Path} {t : Ty} {k : SimplePat} (h : Key D π t k) : ArcPaths π k := by
  cases h with
  | lit => trivial
  | con => exact .inl rfl
  | conApp => exact .inr rfl
  | tpl => exact ⟨_, rfl⟩

/-- Taking an arc leaves no path of a cell behind. -/
theorem paths_expand {π : Path} {t : Ty} {k : SimplePat} (hk : Key D π t k) {c : SPat} (hc : Fits D π c t)
    (hh : hits c k = true) {p : Path} (hp : p ∈ c.paths) : p ∈ k.pathsOf ∨ p ∈ cellPaths (expand k c) := by
  cases hc with
  | wild | lit | con => simp [SPat.paths] at hp
  | conApp hl hcl hs hp' =>
    cases hk with
    | lit => simp [hits, isCon] at hh
    | con hl' hcl' hn =>
      rw [hl] at hl'
      cases hl'
      cases eq_of_same hl hcl hcl' hh
      rw [hs] at hn
      cases hn
    | conApp =>
      grind [SPat.paths, SimplePat.pathsOf, cellPaths, expand]
  | tuple hlen hpath hall =>
    cases hk with
    | lit => simp [hits] at hh
    | tpl =>
      rw [SPat.paths, hpath, pathsL_eq] at hp
      exact List.mem_append.1 hp

theorem mem_cellPaths {cells : List SPat} {p : Path} : p ∈ cellPaths cells ↔ ∃ c ∈ cells, p ∈ c.paths :=
  List.mem_flatMap

theorem cellPaths_splice {cells : List SPat} {i : Nat} {c : SPat} (h : cells[i]? = some c) (new : List SPat) {p : Path}
    (hp : p ∈ cellPaths cells) : p ∈ c.paths ∨ p ∈ cellPaths (splice i new cells) := by
  obtain ⟨hi, rfl⟩ := List.getElem?_eq_some_iff.1 h
  have hsplit : cells.take i ++ cells[i] :: cells.drop (i + 1) = cells := by simp
  rw [← hsplit] at hp
  simp only [cellPaths, List.flatMap_append, List.flatMap_cons, List.mem_append, splice] at hp ⊢
  tauto

/-! ## The rows -/

/-- The bindings, the condition and the final state of a rule. -/
def FromRule (rules : List (Rule E)) (vmap : VarMap) (c : Option E) (q : State E) : Prop :=
  ∃ i rule, rules[i]? = some rule ∧ q = .final (i + 1) rule.pat.vars rule.act ∧
    vmap.map Prod.fst = rule.pat.vars ∧ c = rule.cond

/-- A row of a rule, or the default row. The variables are in scope or inside the cells. -/
structure RowOk (D : Data) (rules : List (Rule E)) (S : List Path) (cols : List Col) (row : Row E) : Prop where
  fits : RowFits D cols row.cells
  act : FromRule rules row.vmap (row.optCond.map Prod.snd) row.act ∨
    (row.act = .error 0 ∧ row.optCond = none ∧ row.vmap = [])
  scope : ∀ b ∈ row.vmap, b.2 ∈ S ∨ b.2 ∈ cellPaths row.cells

section

variable {S : List Path} {cols : List Col} {i : Nat} {π : Path} {t : Ty}

/-- The sub-matrix of an arc. -/
theorem expandRows_ok {rows : List (Row E)} (hr : ∀ row ∈ rows, RowOk D rules S cols row)
    (hc : cols[i]? = some (π, t)) {k : SimplePat} (hk : Key D π t k) :
    ∀ row ∈ expandRows k i rows, RowOk D rules (k.pathsOf ++ S) (splice i (k.cols D π t) cols) row := by
  intro row hrow
  obtain ⟨r, hmem, hx⟩ := List.mem_filterMap.1 hrow
  rw [expandRow] at hx
  split at hx
  next hh =>
    cases hx
    have hok := hr r hmem
    obtain ⟨hi, hf⟩ := hok.fits.cell hc
    refine ⟨hok.fits.expand hc hk hh, hok.act, fun b hb => ?_⟩
    obtain hb | hb := hok.scope b hb
    · exact .inl (List.mem_append_right _ hb)
    grind [cellPaths_splice, getElem?_cell, paths_expand, mem_cellPaths, splice]
  · cases hx

/-- When the cells are wildcards every variable is in scope. -/
theorem RowOk.scope_wild {row : Row E} (h : RowOk D rules S cols row) (hw : ∀ c ∈ row.cells, c = .wild) :
    ∀ b ∈ row.vmap, b.2 ∈ S := by
  intro b hb
  refine (h.scope b hb).resolve_right fun hp => ?_
  obtain ⟨c, hc, hp⟩ := mem_cellPaths.1 hp
  rw [hw c hc] at hp
  cases hp

end

/-! ## The states -/

inductive Shape (rules : List (Rule E)) : List Path → State E → Prop
  | test {S : List Path} {id : Nat} {arg : Path} {arcs : List (SimplePat × State E)} : arg ∈ S →
      (∀ arc ∈ arcs, ArcPaths arg arc.1) → (∀ arc ∈ arcs, Shape rules (arc.1.pathsOf ++ S) arc.2) →
      Shape rules S (.test id arg arcs)
  | bind {S : List Path} {id : Nat} {vmap : VarMap} {q : State E} : (∀ b ∈ vmap, b.2 ∈ S) →
      FromRule rules vmap none q → Shape rules S (.bind id vmap q)
  | cond {S : List Path} {id : Nat} {vmap : VarMap} {e : E} {t f : State E} : (∀ b ∈ vmap, b.2 ∈ S) →
      FromRule rules vmap (some e) t → Shape rules S f → Shape rules S (.cond id vmap e t f)
  | error {S : List Path} : Shape rules S (.error 0)

/-- The test, bind and cond states have ids between `m` and the counter and are referenced
    at most once. -/
inductive Inner (m : Nat) (dfa : Dfa E) : State E → Prop
  | test {id : Nat} {arg : Path} {arcs : List (SimplePat × State E)} : m < id → id < dfa.idCnt → dfa.refCnt id ≤ 1 →
      (∀ arc ∈ arcs, Inner m dfa arc.2) → Inner m dfa (.test id arg arcs)
  | bind {id : Nat} {vmap : VarMap} {q : State E} : m < id → id < dfa.idCnt → dfa.refCnt id ≤ 1 →
      Inner m dfa (.bind id vmap q)
  | cond {id : Nat} {vmap : VarMap} {e : E} {t f : State E} : m < id → id < dfa.idCnt → dfa.refCnt id ≤ 1 →
      Inner m dfa f → Inner m dfa (.cond id vmap e t f)
  | error : Inner m dfa (.error 0)

/-- No state has an id from the counter on. -/
structure Counted (m : Nat) (dfa : Dfa E) : Prop where
  lt : m < dfa.idCnt
  unused : ∀ id, dfa.idCnt ≤ id → dfa.refCnt id = 0

/-- Ids in use keep their counts, those of final states and the error state apart. -/
structure Later (m : Nat) (dfa dfa' : Dfa E) : Prop where
  arg : dfa'.arg = dfa.arg
  err : dfa'.err = dfa.err
  final : dfa'.final = dfa.final
  le : dfa.idCnt ≤ dfa'.idCnt
  same : ∀ id, m < id → id < dfa.idCnt → dfa'.refCnt id = dfa.refCnt id

/-- A state that was just made: nothing refers to it yet. -/
def Unused (m lo : Nat) (dfa : Dfa E) (q : State E) : Prop := m < q.id → lo ≤ q.id ∧ dfa.refCnt q.id = 0

variable {m : Nat}

theorem Later.refl (dfa : Dfa E) : Later m dfa dfa := ⟨rfl, rfl, rfl, Nat.le_refl _, fun _ _ _ => rfl⟩

variable {dfa dfa' : Dfa E} {q : State E}

theorem Later.trans {dfa'' : Dfa E} (h : Later m dfa dfa') (h' : Later m dfa' dfa'') : Later m dfa dfa'' where
  arg := h'.arg.trans h.arg
  err := h'.err.trans h.err
  final := h'.final.trans h.final
  le := Nat.le_trans h.le h'.le
  same id hm hlt := (h'.same id hm (Nat.lt_of_lt_of_le hlt h.le)).trans (h.same id hm hlt)

theorem Inner.id_lt (h : Inner m dfa q) (hm : m < q.id) : q.id < dfa.idCnt := by
  cases h with
  | test _ h | bind _ h | cond _ h => exact h
  | error => cases hm

/-- A state keeps its form when only counts of final states change, and its own to 1. -/
theorem Inner.later (h : Inner m dfa q) (hle : dfa.idCnt ≤ dfa'.idCnt)
    (hrc : ∀ id, m < id → id < dfa.idCnt → dfa.refCnt id ≤ 1 → dfa'.refCnt id ≤ 1) : Inner m dfa' q := by
  induction h with
  | test hm hlt hone _ ih => exact .test hm (Nat.lt_of_lt_of_le hlt hle) (hrc _ hm hlt hone) ih
  | bind hm hlt hone => exact .bind hm (Nat.lt_of_lt_of_le hlt hle) (hrc _ hm hlt hone)
  | cond hm hlt hone _ ih => exact .cond hm (Nat.lt_of_lt_of_le hlt hle) (hrc _ hm hlt hone) ih
  | error => exact .error

theorem Later.inner (h : Later m dfa dfa') (hq : Inner m dfa q) : Inner m dfa' q :=
  hq.later h.le fun id hm hlt hone => by rwa [h.same id hm hlt]

theorem FromRule.id_le {vmap : VarMap} {c : Option E} (h : FromRule rules vmap c q) :
    0 < q.id ∧ q.id ≤ rules.length := by
  obtain ⟨i, rule, hi, rfl, -, -⟩ := h
  exact ⟨Nat.succ_pos i, (List.getElem?_eq_some_iff.1 hi).1⟩

end Manticore.Match
