/-
  Manticore.Match.Generate — the automaton of a matrix (match-to-dfa.sml, `genDFA`).

  A column is split where the first row has a constructor, so every matrix that `genDFA`
  recurses on weighs less (`rowsWeight`) and the recursion settles. `genDFA_returns` follows
  that order: the state it answers runs as the rows of the matrix stand for, and has the
  form and the reference counts of `Shape` and `Inner`.
-/

import Manticore.Match.Split
import Manticore.Match.Shape

namespace Manticore.Match

open Fuel
open Typechecker (Ty Failure)
open List (map_cons mem_cons_of_mem mem_cons_self forall_mem_cons mem_map Forall₂ length_map)

variable {E : Type} {D : Data} {π : Path} {t : Ty} {i : Nat} {cols : List Col}

/-! ## The weight of a matrix -/

mutual

/-- The constructors of a cell. -/
def SPat.weight : SPat → Nat
  | .wild => 0
  | .lit _ _ => 1
  | .con _ _ => 1
  | .conApp _ _ _ p => p.weight + 1
  | .tuple ps => SPat.weightL ps + 1

def SPat.weightL : List (Path × SPat) → Nat
  | [] => 0
  | (_, p) :: ps => p.weight + SPat.weightL ps

end

def cellsWeight (cells : List SPat) : Nat := (cells.map SPat.weight).sum

def rowsWeight (rows : List (Row E)) : Nat := (rows.map fun row => cellsWeight row.cells + 1).sum

theorem weightL_eq (ps : List (Path × SPat)) : SPat.weightL ps = cellsWeight (ps.map Prod.snd) := by
  induction ps with
  | nil => rfl
  | cons p ps ih => simp [SPat.weightL, cellsWeight, ih]

theorem rowsWeight_cons (row : Row E) (rows : List (Row E)) :
    rowsWeight (row :: rows) = cellsWeight row.cells + 1 + rowsWeight rows := by
  simp [rowsWeight]

theorem cellsWeight_wild {α : Type} (l : List α) : cellsWeight (l.map fun _ => .wild) = 0 := by
  induction l with
  | nil => rfl
  | cons x l ih => exact (Nat.zero_add _).trans ih

variable {c : SPat} {k : SimplePat} {row : Row E}

theorem cellsWeight_splice {cells : List SPat} (h : cells[i]? = some c) (new : List SPat) :
    cellsWeight (splice i new cells) + c.weight = cellsWeight cells + cellsWeight new := by
  obtain ⟨hi, rfl⟩ := List.getElem?_eq_some_iff.1 h
  have h1 : cells.take i ++ cells[i] :: cells.drop (i + 1) = cells := by simp
  have h2 := congrArg cellsWeight h1
  simp only [cellsWeight, splice, List.map_append, List.sum_append, map_cons, List.sum_cons] at h2 ⊢
  omega

theorem weight_pos (h : c ≠ .wild) : 0 < c.weight := by
  cases c with
  | wild => exact absurd rfl h
  | lit | con => exact Nat.one_pos
  | conApp | tuple => exact Nat.succ_pos _

/-- Taking an arc removes a constructor from a cell that is no wildcard. -/
theorem weight_expand (h : c ≠ .wild) : cellsWeight (expand k c) < c.weight := by
  cases c with
  | wild => exact absurd rfl h
  | lit | con => exact Nat.one_pos
  | conApp c tys path p => simp [expand, cellsWeight, SPat.weight]
  | tuple ps =>
    rw [expand, SPat.weight, weightL_eq]
    exact Nat.lt_succ_self _

theorem weight_expandRows_le {rows : List (Row E)} (hr : ∀ row ∈ rows, i < row.cells.length) :
    rowsWeight (expandRows k i rows) ≤ rowsWeight rows := by
  induction rows with
  | nil => exact Nat.le_refl _
  | cons row rows ih =>
    specialize ih fun r h => hr r (mem_cons_of_mem _ h)
    by_cases hh : hits (row.cell i) k = true
    · have hs := cellsWeight_splice (getElem?_cell (hr row mem_cons_self)) (expand k (row.cell i))
      have he : cellsWeight (expand k (row.cell i)) ≤ (row.cell i).weight := by
        by_cases hw : row.cell i = .wild
        · rw [hw, expand, cellsWeight_wild]
          exact Nat.zero_le _
        · exact Nat.le_of_lt (weight_expand hw)
      rw [expandRows_pos hh, rowsWeight_cons, rowsWeight_cons]
      simp only
      omega
    · rw [expandRows_neg hh, rowsWeight_cons]
      omega

theorem weight_expandRows {rows : List (Row E)} (hw : row.cell i ≠ .wild)
    (hr : ∀ r ∈ row :: rows, i < r.cells.length) :
    rowsWeight (expandRows k i (row :: rows)) < rowsWeight (row :: rows) := by
  have hle := weight_expandRows_le (k := k) fun r h => hr r (mem_cons_of_mem row h)
  by_cases hh : hits (row.cell i) k = true
  · have hs := cellsWeight_splice (getElem?_cell (hr row mem_cons_self)) (expand k (row.cell i))
    have he := weight_expand (k := k) hw
    rw [expandRows_pos hh, rowsWeight_cons, rowsWeight_cons]
    simp only
    omega
  · rw [expandRows_neg hh, rowsWeight_cons]
    omega

theorem weight_wildRows_le (i : Nat) (rows : List (Row E)) : rowsWeight (wildRows i rows) ≤ rowsWeight rows := by
  induction rows with
  | nil => exact Nat.le_refl _
  | cons row rows ih =>
    by_cases hw : row.cell i = .wild
    · rw [wildRows_pos hw, rowsWeight_cons, rowsWeight_cons]
      omega
    · rw [wildRows_neg hw, rowsWeight_cons]
      omega

theorem weight_wildRows (hw : row.cell i ≠ .wild) (rows : List (Row E)) :
    rowsWeight (wildRows i (row :: rows)) < rowsWeight (row :: rows) := by
  rw [wildRows_neg hw, rowsWeight_cons]
  have := weight_wildRows_le i rows
  omega

theorem one_lt_rowsWeight (hw : row.cell i ≠ .wild) (hi : i < row.cells.length) (rows : List (Row E)) :
    1 < rowsWeight (row :: rows) := by
  have hpos := weight_pos hw
  have hsp := cellsWeight_splice (getElem?_cell hi) []
  rw [rowsWeight_cons]
  have hnil : cellsWeight [] = 0 := rfl
  omega

theorem rowsWeight_errorMatrix (dfa : Dfa E) (vars : List Path) : rowsWeight (errorMatrix dfa vars).rows = 1 := by
  rw [errorMatrix, rowsWeight_cons, cellsWeight_wild]
  rfl

/-! ## The states -/

/-- The state runs as the rows stand for. -/
def Runs (D : Data) (cols : List Col) (rows : List (Row E)) (q : State E) : Prop :=
  ∀ truth v vals, Holds D v cols vals → q.run truth v = rowsRun truth v vals rows

/-- What is known of a state made from rows, with the automaton before and after. -/
structure Gen (D : Data) (rules : List (Rule E)) (S : List Path) (cols : List Col) (rows : List (Row E))
    (dfa dfa' : Dfa E) (q : State E) : Prop where
  runs : Runs D cols rows q
  shape : Shape rules S q
  later : Later rules.length dfa dfa'
  counted : Counted rules.length dfa'
  inner : Inner rules.length dfa' q
  unused : Unused rules.length dfa.idCnt dfa' q

variable {rules : List (Rule E)} {S : List Path}

theorem rowFits_wild (cols : List Col) : RowFits D cols (cols.map fun _ => .wild) := by
  induction cols with
  | nil => exact .nil
  | cons col cols ih => exact .cons .wild ih

variable {row : Row E} {v : Value} {id m : Nat} {dfa : Dfa E} {arcs : List (SimplePat × State E)} {k : SimplePat}
  {keys : List SimplePat}

theorem cells_wild (hr : RowFits D cols row.cells) (h : ∀ c ∈ row.cells, c = .wild) {vals : List Value}
    (hv : Holds D v cols vals) : CellsMatch row.cells vals := by
  have hrep : row.cells = vals.map fun _ => .wild := by
    rw [List.map_const', ← hr.length_eq.trans hv.length_eq.symm]
    exact List.eq_replicate_iff.2 ⟨rfl, h⟩
  rw [hrep]
  exact cellsMatch_wild rfl

theorem inc_self (dfa : Dfa E) (q : State E) : (inc dfa q).refCnt q.id = dfa.refCnt q.id + 1 :=
  Function.update_self ..

theorem inc_ne (dfa : Dfa E) {q : State E} (h : id ≠ q.id) : (inc dfa q).refCnt id = dfa.refCnt id :=
  Function.update_of_ne h ..

theorem inc_refCnt (dfa : Dfa E) {q : State E} (hq : q.id ≤ m) (hid : m < id) :
    (inc dfa q).refCnt id = dfa.refCnt id :=
  inc_ne dfa (by omega)

/-- A first row of wildcards without a condition ends the run. -/
theorem mkBind_gen (hcnt : Counted rules.length dfa) (hok : RowOk D rules S cols row)
    (hw : ∀ c ∈ row.cells, c = .wild) (hcond : row.optCond = none) (rows : List (Row E)) :
    ∃ q dfa', mkBind dfa row.vmap row.act = .ok (q, dfa') ∧ Gen D rules S cols (row :: rows) dfa dfa' q := by
  have hm : ∀ {v vals}, Holds D v cols vals → CellsMatch row.cells vals := fun hv => cells_wild hok.fits hw hv
  obtain hact | ⟨hact, -, hvmap⟩ := hok.act
  · have hid := hact.id_le
    have hf := hact
    rw [hcond] at hf
    obtain ⟨i, rule, -, heq, -⟩ := hact
    refine ⟨.bind dfa.idCnt row.vmap row.act, { inc dfa row.act with idCnt := dfa.idCnt + 1 }, ?_, ?_⟩
    · rw [heq]
      rfl
    · have hlt := hcnt.lt
      have hun := hcnt.unused
      constructor
      case runs =>
        intro truth v vals hv
        rw [rowsRun, if_pos (hm hv), hcond]
        cases hb : bindings v row.vmap <;> simp [State.run, hb]
      case shape => exact .bind (hok.scope_wild hw) hf
      case later => exact ⟨rfl, rfl, rfl, Nat.le_succ _, fun id hm _ => inc_refCnt dfa hid.2 hm⟩
      case counted =>
        refine ⟨Nat.lt_succ_of_lt hlt, fun id hge => ?_⟩
        have hge' : dfa.idCnt + 1 ≤ id := hge
        exact (inc_refCnt dfa hid.2 (by omega)).trans (hun id (by omega))
      case inner =>
        refine .bind hlt (Nat.lt_succ_self _) ?_
        show (inc dfa row.act).refCnt dfa.idCnt ≤ 1
        rw [inc_refCnt dfa hid.2 hlt, hun _ (Nat.le_refl _)]
        exact Nat.zero_le _
      case unused =>
        exact fun _ => ⟨Nat.le_refl _, (inc_refCnt dfa hid.2 hlt).trans (hun _ (Nat.le_refl _))⟩
  · refine ⟨.error 0, dfa, by rw [hact]; rfl, fun truth v vals hv => ?_, .error, .refl dfa, hcnt, .error,
      fun h => absurd h (Nat.not_lt_zero _)⟩
    rw [rowsRun, if_pos (hm hv), hcond, hact, hvmap]
    rfl

/-- A first row of wildcards with a condition falls through to the other rows. -/
theorem mkCond_gen {dfa1 : Dfa E} {q' : State E} {rows : List (Row E)} (hok : RowOk D rules S cols row)
    (hw : ∀ c ∈ row.cells, c = .wild) {bvs : List Var} {e : E} (hcond : row.optCond = some (bvs, e))
    (hg : Gen D rules S cols rows dfa dfa1 q') :
    ∃ q dfa', mkCond dfa1 row.vmap e row.act q' = .ok (q, dfa') ∧ Gen D rules S cols (row :: rows) dfa dfa' q := by
  have hm : ∀ {v vals}, Holds D v cols vals → CellsMatch row.cells vals := fun hv => cells_wild hok.fits hw hv
  obtain hact | ⟨-, hnone, -⟩ := hok.act
  · have hid := hact.id_le
    have hf := hact
    rw [hcond] at hf
    obtain ⟨i, rule, -, heq, -⟩ := hact
    obtain ⟨hruns, hshape, hlater, hcnt, hinner, hunused⟩ := hg
    have hlt := hcnt.lt
    have hun := hcnt.unused
    -- the count of `q'` goes to 1, that of no other state of its kind changes
    have hrc : ∀ id, rules.length < id → (inc (inc dfa1 row.act) q').refCnt id =
        if id = q'.id then dfa1.refCnt id + 1 else dfa1.refCnt id := by
      intro id hid'
      by_cases h : id = q'.id
      · subst h
        rw [if_pos rfl, inc_self, inc_refCnt dfa1 hid.2 hid']
      · rw [if_neg h, inc_ne _ h, inc_refCnt dfa1 hid.2 hid']
    have hne : dfa1.idCnt ≠ q'.id := fun h => absurd (hinner.id_lt (by omega)) (by omega)
    refine ⟨.cond dfa1.idCnt row.vmap e row.act q', { inc (inc dfa1 row.act) q' with idCnt := dfa1.idCnt + 1 }, ?_, ?_⟩
    · rw [heq]
      rfl
    · constructor
      case runs =>
        intro truth v vals hv
        rw [rowsRun, if_pos (hm hv), hcond]
        cases hb : bindings v row.vmap <;> simp [State.run, hb, hruns truth v vals hv]
      case shape => exact .cond (hok.scope_wild hw) hf hshape
      case later =>
        refine ⟨hlater.arg, hlater.err, hlater.final, Nat.le_succ_of_le hlater.le, fun id hid' hlo => ?_⟩
        refine (hrc id hid').trans ?_
        rw [if_neg, hlater.same id hid' hlo]
        rintro rfl
        exact absurd (hunused hid').1 (by omega)
      case counted =>
        refine ⟨Nat.lt_succ_of_lt hlt, fun id hge => ?_⟩
        have hge' : dfa1.idCnt + 1 ≤ id := hge
        refine (hrc id (by omega)).trans ?_
        rw [if_neg, hun id (by omega)]
        rintro rfl
        exact absurd (hinner.id_lt (by omega)) (by omega)
      case inner =>
        refine .cond hlt (Nat.lt_succ_self _) ?_ (hinner.later (Nat.le_succ _) fun id hid' hlt' hone => ?_)
        · grind
        · refine (hrc id hid').trans_le ?_
          split
          next h =>
            subst h
            rw [(hunused hid').2]
          · exact hone
      case unused =>
        refine fun _ => ⟨hlater.le, (hrc _ hlt).trans ?_⟩
        rw [if_neg hne, hun _ (Nat.le_refl _)]
  · rw [hcond] at hnone
    cases hnone

/-! ## The arcs -/

/-- The states of arcs: nothing refers to them yet, and they differ. -/
structure ArcsOk (m lo : Nat) (dfa : Dfa E) (arcs : List (SimplePat × State E)) : Prop where
  inner : ∀ arc ∈ arcs, Inner m dfa arc.2
  unused : ∀ arc ∈ arcs, Unused m lo dfa arc.2
  nodup : ((arcs.map (·.2.id)).filter (m < ·)).Nodup

theorem ArcsOk.cons {m lo : Nat} {dfa dfa' : Dfa E} {arcs : List (SimplePat × State E)} (h : ArcsOk m lo dfa arcs)
    (hl : Later m dfa dfa') (hlo : lo ≤ dfa.idCnt) {k : SimplePat} {q : State E} (hq : Inner m dfa' q)
    (hu : Unused m dfa.idCnt dfa' q) : ArcsOk m lo dfa' ((k, q) :: arcs) where
  inner := forall_mem_cons.2 ⟨hq, fun arc harc => hl.inner (h.inner arc harc)⟩
  unused := forall_mem_cons.2 ⟨fun hm => ⟨Nat.le_trans hlo (hu hm).1, (hu hm).2⟩, fun arc harc hm =>
    ⟨(h.unused arc harc hm).1,
      (hl.same _ hm ((h.inner arc harc).id_lt hm)).trans (h.unused arc harc hm).2⟩⟩
  nodup := by
    rw [map_cons]
    by_cases hm : m < q.id
    · rw [List.filter_cons_of_pos (by simpa using hm), List.nodup_cons]
      refine ⟨fun hmem => ?_, h.nodup⟩
      obtain ⟨arc, harc, heq⟩ := mem_map.1 (List.mem_filter.1 hmem).1
      have heq : arc.2.id = q.id := heq
      have hlt := (h.inner arc harc).id_lt (heq ▸ hm)
      have hge := (hu hm).1
      omega
    · rw [List.filter_cons_of_neg (by simpa using hm)]
      exact h.nodup

theorem foldl_inc (arcs : List (SimplePat × State E)) (dfa : Dfa E) :
    (∀ id, (arcs.foldl (fun dfa arc => inc dfa arc.2) dfa).refCnt id = dfa.refCnt id + (arcs.map (·.2.id)).count id) ∧
      (arcs.foldl (fun dfa arc => inc dfa arc.2) dfa).arg = dfa.arg ∧
      (arcs.foldl (fun dfa arc => inc dfa arc.2) dfa).err = dfa.err ∧
      (arcs.foldl (fun dfa arc => inc dfa arc.2) dfa).final = dfa.final ∧
      (arcs.foldl (fun dfa arc => inc dfa arc.2) dfa).idCnt = dfa.idCnt := by
  induction arcs generalizing dfa with
  | nil => exact ⟨fun _ => rfl, rfl, rfl, rfl, rfl⟩
  | cons arc arcs ih =>
    obtain ⟨hrc, harg, herr, hfinal, hcnt⟩ := ih (inc dfa arc.2)
    refine ⟨fun id => (hrc id).trans ?_, harg, herr, hfinal, hcnt⟩
    rw [map_cons, List.count_cons, inc]
    by_cases h : arc.2.id = id
    · subst h
      simp only [Function.update_self, beq_self_eq_true, if_true]
      omega
    · simp [h, Function.update_of_ne (Ne.symm h)]

theorem count_arcs {lo : Nat} (h : ArcsOk m lo dfa arcs) (hm : m < id) :
    dfa.refCnt id + (arcs.map (·.2.id)).count id ≤ 1 ∨ (1 < dfa.refCnt id ∧ (arcs.map (·.2.id)).count id = 0) := by
  have hc : (arcs.map (·.2.id)).count id ≤ 1 := by
    have := List.nodup_iff_count_le_one.1 h.nodup id
    rwa [List.count_filter (by simpa using hm)] at this
  by_cases hmem : id ∈ arcs.map (·.2.id)
  · obtain ⟨arc, harc, rfl⟩ := mem_map.1 hmem
    have := (h.unused arc harc hm).2
    omega
  · have := List.count_eq_zero.2 hmem
    omega

/-- A test state over new arcs. -/
theorem mkTest_gen {dfa1 : Dfa E} (hl : Later m dfa dfa1) (hcnt : Counted m dfa1)
    (ha : ArcsOk m dfa.idCnt dfa1 arcs) (arg : Path) :
    Later m dfa (mkTest dfa1 arg arcs).2 ∧ Counted m (mkTest dfa1 arg arcs).2 ∧ Inner m (mkTest dfa1 arg arcs).2
      (mkTest dfa1 arg arcs).1 ∧ Unused m dfa.idCnt (mkTest dfa1 arg arcs).2 (mkTest dfa1 arg arcs).1 := by
  obtain ⟨hrc, harg, herr, hfinal, hid⟩ := foldl_inc arcs dfa1
  have hlt := hcnt.lt
  -- ids that the arcs do not have
  have hout : ∀ id, m < id → (∀ arc ∈ arcs, m < arc.2.id → arc.2.id ≠ id) →
      (mkTest dfa1 arg arcs).2.refCnt id = dfa1.refCnt id := by
    intro id hm hno
    refine (hrc id).trans ?_
    rw [List.count_eq_zero.2, Nat.add_zero]
    grind
  have hcur : (mkTest dfa1 arg arcs).2.refCnt dfa1.idCnt = 0 := by
    refine (hout _ hlt fun arc harc hm heq => ?_).trans (hcnt.unused _ (Nat.le_refl _))
    exact absurd ((ha.inner arc harc).id_lt hm) (by omega)
  have hnew : (mkTest dfa1 arg arcs).2.idCnt = dfa1.idCnt + 1 := congrArg (· + 1) hid
  refine ⟨⟨harg.trans hl.arg, herr.trans hl.err, hfinal.trans hl.final, ?_, fun id hm hlo => ?_⟩, ⟨?_, fun id hge => ?_⟩, ?_, ?_⟩
  · rw [hnew]
    exact Nat.le_succ_of_le hl.le
  · refine (hout id hm fun arc harc hm' heq => ?_).trans (hl.same id hm hlo)
    exact absurd (ha.unused arc harc hm').1 (by omega)
  · omega
  · refine (hout id (by omega) fun arc harc hm' heq => ?_).trans (hcnt.unused id (by omega))
    exact absurd ((ha.inner arc harc).id_lt hm') (by omega)
  · have hst : (mkTest dfa1 arg arcs).1 = .test dfa1.idCnt arg arcs := congrArg (State.test · arg arcs) hid
    rw [hst]
    refine .test hlt (by omega) (by omega) fun arc harc => (ha.inner arc harc).later (by omega) fun id hm _ hone => ?_
    refine (hrc id).trans_le ?_
    obtain h | h := count_arcs ha hm
    · exact h
    · omega
  · have hst : (mkTest dfa1 arg arcs).1.id = dfa1.idCnt := hid
    rw [Unused, hst]
    exact fun _ => ⟨hl.le, hcur⟩

theorem mkTest_run (dfa : Dfa E) {arg : Path} (truth : E → Env → Bool) {w : Value} (hw : valueAt v arg = some w) :
    (mkTest dfa arg arcs).1.run truth v = runArcs truth v w arcs := by
  simp only [mkTest, mkState, State.run, hw]

/-- What is known of an arc. -/
structure ArcGen (rules : List (Rule E)) (S : List Path) (R : SimplePat → State E → Prop) (k : SimplePat)
    (arc : SimplePat × State E) : Prop where
  key : arc.1 = k
  runs : R k arc.2
  shape : Shape rules (k.pathsOf ++ S) arc.2

theorem mkArcs_returns {gen : Nat → Matrix E → Dfa E → Except Failure (State E × Dfa E)} {f : SimplePat → Matrix E}
    {rows : SimplePat → List (Row E)} {colsOf : SimplePat → List Col} {dfa0 : Dfa E}
    (h : ∀ k ∈ keys, ∀ dfa : Dfa E, dfa.err = dfa0.err → Counted rules.length dfa → ∃ q dfa', Returns (fun n => gen n (f k) dfa) (q, dfa') ∧ Gen D rules (k.pathsOf ++ S) (colsOf k) (rows k) dfa dfa' q)
    (hl : Later rules.length dfa0 dfa) (hcnt : Counted rules.length dfa) {lastArc : List (SimplePat × State E)}
    (hlast : ArcsOk rules.length dfa0.idCnt dfa lastArc) :
    ∃ arcs dfa', Returns (fun n => mkArcs (gen n) dfa lastArc (keys.map fun k => (k, f k))) (arcs ++ lastArc, dfa')
      ∧ Later rules.length dfa0 dfa' ∧ Counted rules.length dfa' ∧ ArcsOk rules.length dfa0.idCnt dfa'
      (arcs ++ lastArc) ∧ Forall₂ (ArcGen rules S fun k q => Runs D (colsOf k) (rows k) q) keys arcs := by
  induction keys with
  | nil => exact ⟨[], dfa, .pure _, hl, hcnt, hlast, .nil⟩
  | cons k keys ih =>
    obtain ⟨arcs, dfa1, hret1, hl1, hcnt1, hok1, harcs⟩ := ih fun k' hk' => h k' (mem_cons_of_mem _ hk')
    obtain ⟨q, dfa2, hret2, hq⟩ := h k mem_cons_self dfa1 hl1.err hcnt1
    refine ⟨(k, q) :: arcs, dfa2, ?_, hl1.trans hq.later, hq.counted, hok1.cons hq.later hl1.le hq.inner hq.unused,
      .cons ⟨rfl, hq.runs, hq.shape⟩ harcs⟩
    simp only [map_cons, mkArcs]
    exact hret1.bind (hret2.bind (.pure _))

/-- A run takes the first arc that the value takes. -/
theorem runArcs_append {R : SimplePat → State E → Prop} (h : Forall₂ (ArcGen rules S R) keys arcs)
    (truth : E → Env → Bool) (v w : Value) (lastArc : List (SimplePat × State E)) :
    (∃ k ∈ keys, k.accepts w = true ∧ ∃ q, R k q ∧ runArcs truth v w (arcs ++ lastArc) = q.run truth v) ∨
      ((∀ k ∈ keys, k.accepts w = false) ∧ runArcs truth v w (arcs ++ lastArc) = runArcs truth v w lastArc) := by
  induction h with
  | nil => exact .inr ⟨by simp, rfl⟩
  | @cons k arc keys arcs harc _ ih =>
    obtain ⟨p, q⟩ := arc
    obtain ⟨rfl, hq, -⟩ := harc
    by_cases ha : p.accepts w = true
    · refine .inl ⟨p, mem_cons_self, ha, q, hq, ?_⟩
      rw [List.cons_append, runArcs, if_pos ha]
    · rw [List.cons_append, runArcs, if_neg ha]
      simp_all

theorem shape_arcs {R : SimplePat → State E → Prop} (hk : ∀ k ∈ keys, Key D π t k)
    (h : Forall₂ (ArcGen rules S R) keys arcs) :
    ∀ arc ∈ arcs, ArcPaths π arc.1 ∧ Shape rules (arc.1.pathsOf ++ S) arc.2 := by
  induction h with
  | nil => simp
  | @cons k arc keys arcs harc _ ih =>
    refine forall_mem_cons.2 ⟨?_, ih fun k' hk' => hk k' (mem_cons_of_mem _ hk')⟩
    rw [harc.key]
    exact ⟨(hk k mem_cons_self).arcPaths, harc.shape⟩

/-! ## The automaton -/

theorem rowsRun_nil_of_default {cells : List SPat} {vals : List Value} (h : CellsMatch cells vals)
    (truth : E → Env → Bool) : rowsRun truth v vals [⟨[], cells, none, .error id⟩] = .error := by
  rw [rowsRun, if_pos h]
  rfl

theorem errorMatrix_ok (rules : List (Rule E)) (S : List Path) (cols : List Col) (h : dfa.err = .error 0) :
    ∀ row ∈ (errorMatrix dfa (cols.map Prod.fst)).rows, RowOk D rules S cols row := by
  simp only [errorMatrix, List.mem_singleton, List.map_map, forall_eq]
  exact ⟨rowFits_wild cols, .inr ⟨h, rfl, rfl⟩, by simp⟩

theorem expandRows_ne_nil {mat : Matrix E} (hkeys : Keys D π t (mat.col i) keys) (hk : k ∈ keys) :
    expandRows k i mat.rows ≠ [] := by
  obtain ⟨c, hc, -, hh⟩ := hkeys.used k hk
  obtain ⟨row, hrow, rfl⟩ := mem_map.1 hc
  refine List.ne_nil_of_mem (List.mem_filterMap.2 ⟨row, hrow, if_pos hh⟩)

theorem map_fst_splice (hk : Key D π t k) :
    splice i k.pathsOf (cols.map Prod.fst) = (splice i (k.cols D π t) cols).map Prod.fst := by
  simp only [splice, List.map_append, List.map_take, List.map_drop, hk.pathsOf]

/-- The paths of the columns of a sub-matrix are in scope. -/
theorem scope_splice (hk : Key D π t k) (hS : ∀ col ∈ cols, col.1 ∈ S) :
    ∀ col ∈ splice i (k.cols D π t) cols, col.1 ∈ k.pathsOf ++ S := by
  intro col hcol
  simp only [splice, List.mem_append] at hcol ⊢
  obtain (h | h) | h := hcol
  · exact .inr (hS col (List.mem_of_mem_take h))
  · exact .inl (hk.pathsOf ▸ List.mem_map_of_mem h)
  · exact .inr (hS col (List.mem_of_mem_drop h))

/-- When no column is chosen the first row is of wildcards. -/
theorem cells_of_chooseCol {rows : List (Row E)} (hfit : RowFits D cols row.cells)
    (h : chooseCol ⟨row :: rows, cols.map Prod.fst⟩ = none) : ∀ c ∈ row.cells, c = .wild := by
  intro c hc
  obtain ⟨i, hi, rfl⟩ := List.mem_iff_getElem.1 hc
  have hcell := getElem?_cell hi
  have hlt : i < (cols.map Prod.fst).length := by rw [length_map, ← hfit.length_eq]; exact hi
  rw [chooseCol_none h rfl i hlt] at hcell
  exact (List.getElem?_eq_some_iff.1 hcell).2

theorem genDFA_returns {mat : Matrix E} {dfa : Dfa E} (hvars : mat.vars = cols.map Prod.fst)
    (hS : ∀ col ∈ cols, col.1 ∈ S) (hr : ∀ row ∈ mat.rows, RowOk D rules S cols row) (hne : mat.rows ≠ [])
    (herr : dfa.err = .error 0) (hcnt : Counted rules.length dfa) :
    ∃ q dfa', Returns (fun n => genDFA D n mat dfa) (q, dfa') ∧ Gen D rules S cols mat.rows dfa dfa' q := by
  induction hw : rowsWeight mat.rows using Nat.strong_induction_on generalizing cols mat dfa S with
  | _ m ih =>
    subst hw
    obtain ⟨rows, vars⟩ := mat
    subst hvars
    cases rows with
    | nil => exact absurd rfl hne
    | cons row1 rrows =>
      have hok := hr row1 mem_cons_self
      cases hch : chooseCol ⟨row1 :: rrows, cols.map Prod.fst⟩ with
      | none =>
        have hwild := cells_of_chooseCol hok.fits hch
        cases hcond : row1.optCond with
        | none =>
          obtain ⟨q, dfa', hq, hgen⟩ := mkBind_gen hcnt hok hwild hcond rrows
          refine ⟨q, dfa', .succ ?_, hgen⟩
          simp only [genDFA, hcond, hch, hq]
          exact .pure _
        | some c =>
          obtain ⟨bvs, e⟩ := c
          cases rrows with
          | nil =>
            have herrGen : Gen D rules S cols [] dfa dfa dfa.err := by
              rw [herr]
              exact ⟨fun _ _ _ _ => rfl, .error, .refl dfa, hcnt, .error, fun h => absurd h (Nat.not_lt_zero _)⟩
            obtain ⟨q, dfa', hq, hgen⟩ := mkCond_gen hok hwild hcond herrGen
            refine ⟨q, dfa', .succ ?_, hgen⟩
            simp only [genDFA, hcond, hch, hq]
            exact .pure _
          | cons row2 rrows =>
            obtain ⟨q', dfa1, hret, hgen1⟩ := @ih (rowsWeight (row2 :: rrows))
              (by rw [rowsWeight_cons row1]; omega) cols S ⟨row2 :: rrows, _⟩ dfa rfl hS
              (fun r h => hr r (mem_cons_of_mem _ h)) (by simp) herr hcnt rfl
            obtain ⟨q, dfa', hq, hgen⟩ := mkCond_gen hok hwild hcond hgen1
            refine ⟨q, dfa', .succ ?_, hgen⟩
            simp only [genDFA, hcond, hch]
            refine hret.bind ?_
            simp only [hq]
            exact .pure _
      | some i =>
        obtain ⟨hi, row, rows, heq, hnw⟩ := chooseCol_some hch
        cases heq
        simp only [length_map] at hi
        obtain ⟨⟨π, t⟩, hc⟩ : ∃ col, cols[i]? = some col := ⟨cols[i], List.getElem?_eq_getElem hi⟩
        have hπ : π ∈ S := hS _ (List.mem_of_getElem? hc)
        have hr1 : ∀ row ∈ row1 :: rrows, RowFits D cols row.cells := fun row h => (hr row h).fits
        have hlen : ∀ row ∈ row1 :: rrows, i < row.cells.length := fun row h => ((hr1 row h).cell hc).1
        obtain ⟨keys, cov, hsplit, hkeys, hall⟩ := splitAtCol_spec ⟨row1 :: rrows, cols.map Prod.fst⟩ rfl hc hr1
        -- the sub-matrix of an arc
        have hgen : ∀ k ∈ keys, ∀ dfa1 : Dfa E, dfa1.err = dfa.err → Counted rules.length dfa1 → ∃ q dfa',
            Returns (fun n => genDFA D n ⟨expandRows k i (row1 :: rrows), splice i k.pathsOf (cols.map Prod.fst)⟩ dfa1)
              (q, dfa') ∧
              Gen D rules (k.pathsOf ++ S) (splice i (k.cols D π t) cols) (expandRows k i (row1 :: rrows)) dfa1 dfa' q := by
          intro k hk dfa1 herr1 hcnt1
          exact @ih _ (weight_expandRows hnw hlen) _ _
            ⟨expandRows k i (row1 :: rrows), splice i k.pathsOf (cols.map Prod.fst)⟩ dfa1
            (map_fst_splice (hkeys.key k hk)) (scope_splice (hkeys.key k hk) hS) (expandRows_ok hr hc (hkeys.key k hk))
            (expandRows_ne_nil hkeys hk) (herr1.trans herr) hcnt1 rfl
        -- the default arc
        obtain ⟨lastArc, dfa1, hlast, hl1, hcnt1, hlok, hdef⟩ : ∃ lastArc dfa1, Returns
            (fun n => (cov.casesOn (.ok ([], dfa)) (genDFA D n (if (wildRows i (row1 :: rrows)).isEmpty then
                errorMatrix dfa (cols.map Prod.fst) else ⟨wildRows i (row1 :: rrows), cols.map Prod.fst⟩) dfa >>=
              fun x => .ok ([(.any, x.1)], x.2)) : Except Failure (List (SimplePat × State E) × Dfa E)))
            (lastArc, dfa1) ∧ Later rules.length dfa dfa1 ∧ Counted rules.length dfa1 ∧
            ArcsOk rules.length dfa.idCnt dfa1 lastArc ∧
            ((cov = .all ∧ lastArc = []) ∨ ∃ q, lastArc = [(.any, q)] ∧ Shape rules S q ∧
              Runs D cols (wildRows i (row1 :: rrows)) q) := by
          have hnil : ArcsOk (E := E) rules.length dfa.idCnt dfa [] := ⟨by simp, by simp, by simp⟩
          cases cov with
          | all => exact ⟨[], dfa, .pure _, .refl dfa, hcnt, hnil, .inl ⟨rfl, rfl⟩⟩
          | partial_ =>
            by_cases hempty : wildRows i (row1 :: rrows) = []
            · obtain ⟨q, dfa', hret, hg⟩ := @ih (rowsWeight (errorMatrix dfa (cols.map Prod.fst)).rows) (by
                rw [rowsWeight_errorMatrix]
                exact one_lt_rowsWeight hnw (hlen row1 mem_cons_self) rrows)
                cols S (errorMatrix dfa (cols.map Prod.fst)) dfa rfl hS (errorMatrix_ok rules S cols herr)
                (by simp [errorMatrix]) herr hcnt rfl
              refine ⟨[(.any, q)], dfa', ?_, hg.later, hg.counted,
                hnil.cons hg.later (Nat.le_refl _) hg.inner hg.unused,
                .inr ⟨q, rfl, hg.shape, fun truth v vals hv => ?_⟩⟩
              · simp only [hempty, List.isEmpty_nil, if_true]
                exact hret.bind (.pure _)
              · rw [hg.runs truth v vals hv, hempty, errorMatrix, herr]
                refine rowsRun_nil_of_default ?_ truth
                exact cellsMatch_wild ((length_map _).trans hv.length_eq.symm)
            · obtain ⟨q, dfa', hret, hg⟩ := @ih _ (weight_wildRows hnw rrows) cols S
                ⟨wildRows i (row1 :: rrows), cols.map Prod.fst⟩ dfa rfl hS
                (fun r h => hr r (List.mem_filter.1 h).1) hempty herr hcnt rfl
              refine ⟨[(.any, q)], dfa', ?_, hg.later, hg.counted,
                hnil.cons hg.later (Nat.le_refl _) hg.inner hg.unused, .inr ⟨q, rfl, hg.shape, hg.runs⟩⟩
              simp only [List.isEmpty_iff, hempty, if_false]
              exact hret.bind (.pure _)
        obtain ⟨arcs, dfa2, harcs, hl2, hcnt2, hok2, hgood⟩ := mkArcs_returns hgen hl1 hcnt1 hlok
        obtain ⟨hl3, hcnt3, hinner3, hunused3⟩ := mkTest_gen hl2 hcnt2 hok2 π
        refine ⟨(mkTest dfa2 π (arcs ++ lastArc)).1, (mkTest dfa2 π (arcs ++ lastArc)).2, .succ ?_, ?_, ?_, hl3, hcnt3,
          hinner3, hunused3⟩
        · simp only [genDFA, hch, hsplit, ok_bind]
          cases cov <;> exact hlast.bind (harcs.bind (.pure _))
        · intro truth v vals hv
          have hi' : i < vals.length := hv.length_eq ▸ hi
          obtain ⟨w, hw⟩ : ∃ w, vals[i]? = some w := ⟨vals[i], List.getElem?_eq_getElem hi'⟩
          obtain ⟨hval, hty⟩ := hv.at hc hw
          rw [mkTest_run _ _ hval]
          obtain ⟨k, hk, hacc, q, hq, hrun⟩ | ⟨hno, hrun⟩ := runArcs_append hgood truth v w lastArc
          · rw [hrun, hq truth v _ (hv.expand hc hw (hkeys.key k hk) hacc)]
            exact (rowsRun_expand hv hc hw (hkeys.key k hk) hacc truth hr1).symm
          · obtain ⟨hcov, -⟩ | ⟨q, rfl, -, hq⟩ := hdef
            · obtain ⟨k, hk, hacc⟩ := hall hcov w hty
              rw [hno k hk] at hacc
              cases hacc
            · rw [hrun, runArcs, if_pos (show SimplePat.any.accepts w = true from rfl), hq truth v vals hv]
              refine (rowsRun_default hv hc hw truth hr1 fun row hrow hne => ?_).symm
              obtain ⟨k, hk, hh⟩ := hkeys.covers _ (List.mem_map_of_mem hrow) hne
              exact ⟨k, hkeys.key k hk, hh, hno k hk⟩
        · have hlastShape : ∀ arc ∈ lastArc, ArcPaths π arc.1 ∧ Shape rules (arc.1.pathsOf ++ S) arc.2 := by
            obtain ⟨-, rfl⟩ | ⟨q, rfl, hshape, -⟩ := hdef
            · simp
            · exact forall_mem_cons.2 ⟨⟨trivial, hshape⟩, by simp⟩
          have hboth : ∀ arc ∈ arcs ++ lastArc, ArcPaths π arc.1 ∧ Shape rules (arc.1.pathsOf ++ S) arc.2 := fun arc harc =>
            (List.mem_append.1 harc).elim (shape_arcs hkeys.key hgood arc) (hlastShape arc)
          exact .test hπ (fun arc harc => (hboth arc harc).1) fun arc harc => (hboth arc harc).2

end Manticore.Match
