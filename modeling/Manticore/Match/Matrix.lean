/-
  Manticore.Match.Matrix — the meaning of a pattern matrix, and what splitting it does.

  `rowsRun` is what a matrix stands for: the first row whose cells match and whose
  condition holds. A column is a path with its type; `Fits` types a cell at a column and
  `Holds` says that the argument has well-typed values at the columns' paths.
  Every entry of the constructor map gets the rows that its constructor keeps (`expandRow`),
  the default matrix those with a wildcard. `rowsRun_expand` and `rowsRun_default` say that
  neither changes what the rows stand for on the values that lead there.
-/

import Manticore.Match.MatchToDFA

namespace Manticore.Match

open Fuel
open Typechecker (Ty TyCon)
open SimplePat (pathsOf accepts)

variable {E : Type} {D : Data} {k : SimplePat} {vals : List Value} {row : Row E}

/-! ## Lists -/

theorem forall₂_append {α β : Type} {R : α → β → Prop} {a a' : List α} {b b' : List β} (h : a.length = b.length) :
    List.Forall₂ R (a ++ a') (b ++ b') ↔ List.Forall₂ R a b ∧ List.Forall₂ R a' b' := by
  induction a generalizing b with
  | nil =>
    cases b with
    | nil => simp
    | cons y b => cases h
  | cons x a ih =>
    cases b with
    | nil => cases h
    | cons y b =>
      simp only [List.cons_append, List.forall₂_cons, ih (Nat.succ.inj h), and_assoc]

/-- A list with the element at `i` replaced. -/
def splice {α : Type} (i : Nat) (new l : List α) : List α := l.take i ++ new ++ l.drop (i + 1)

theorem replaceAt_eq {α : Type} (new : List α) {l : List α} {i : Nat} (h : i < l.length) :
    replaceAt new l i = .ok (splice i new l) := by
  induction l generalizing i with
  | nil => cases h
  | cons x l ih =>
    cases i with
    | zero => simp [replaceAt, splice]
    | succ i =>
      rw [replaceAt, ih (Nat.lt_of_succ_lt_succ h)]
      rfl

/-! ## What a matrix stands for -/

mutual

/-- A cell matches a value; what it binds is recorded in the row. -/
def SPat.matches : SPat → Value → Bool
  | .wild, _ => true
  | .lit l _, .lit l' => l == l'
  | .con c _, .con c' => c.same c'
  | .conApp c _ _ p, .conApp c' v => c.same c' && p.matches v
  | .tuple ps, .tuple vs => SPat.matchesL ps vs
  | _, _ => false

def SPat.matchesL : List (Path × SPat) → List Value → Bool
  | [], [] => true
  | (_, p) :: ps, v :: vs => p.matches v && SPat.matchesL ps vs
  | _, _ => false

end

def CellsMatch (cells : List SPat) (vals : List Value) : Prop := List.Forall₂ (fun c w => c.matches w = true) cells vals

instance (cells : List SPat) (vals : List Value) : Decidable (CellsMatch cells vals) :=
  inferInstanceAs (Decidable (List.Forall₂ _ cells vals))

/-- The first row that matches the values and whose condition holds. -/
def rowsRun (truth : E → Env → Bool) (v : Value) (vals : List Value) : List (Row E) → Outcome E
  | [] => .error
  | row :: rows =>
    if CellsMatch row.cells vals then
      match bindings v row.vmap with
      | some ρ => if row.optCond.all fun c => truth c.2 ρ then finish row.act ρ else rowsRun truth v vals rows
      | none => .stuck
    else rowsRun truth v vals rows

/-! ## Typing -/

/-- A column: its path and the type of the values there. -/
abbrev Col := Path × Ty

inductive Fits (D : Data) : Path → SPat → Ty → Prop
  | wild {π : Path} {t : Ty} : Fits D π .wild t
  | lit {π : Path} {l : Literal} {ty t : Ty} : D.Flat t → Fits D π (.lit l ty) t
  | con {π : Path} {c : DCon} {tys args : List Ty} {tyc : TyCon} {l : List DCon} : D.cons tyc = some l → c ∈ l →
      D.argTypeOf c args = none → Fits D π (.con c tys) (.conTy args tyc)
  | conApp {π : Path} {c : DCon} {tys args : List Ty} {tyc : TyCon} {l : List DCon} {t : Ty} {p : SPat} :
      D.cons tyc = some l → c ∈ l → D.argTypeOf c args = some t → Fits D (π.extend 0) p t →
      Fits D π (.conApp c tys (π.extend 0) p) (.conTy args tyc)
  | tuple {π : Path} {ps : List (Path × SPat)} {ts : List Ty} : ps.length = ts.length →
      ps.map Prod.fst = (List.range ts.length).map π.extend →
      (∀ q ∈ ps.zip ts, Fits D q.1.1 q.1.2 q.2) → Fits D π (.tuple ps) (.tupleTy ts)

def RowFits (D : Data) (cols : List Col) (cells : List SPat) : Prop :=
  List.Forall₂ (fun c col => Fits D col.1 c col.2) cells cols

/-- The values of the argument at the columns. -/
def Holds (D : Data) (v : Value) (cols : List Col) (vals : List Value) : Prop :=
  List.Forall₂ (fun w col => valueAt v col.1 = some w ∧ HasTy D w col.2) vals cols

/-- An arc of a column: its paths are those of the components. -/
inductive Key (D : Data) (π : Path) : Ty → SimplePat → Prop
  | lit {l : Literal} {t : Ty} : D.Flat t → Key D π t (.lit l)
  | con {c : DCon} {tys args : List Ty} {tyc : TyCon} {l : List DCon} : D.cons tyc = some l → c ∈ l →
      D.argTypeOf c args = none → Key D π (.conTy args tyc) (.con c tys [])
  | conApp {c : DCon} {tys args : List Ty} {tyc : TyCon} {l : List DCon} {t : Ty} : D.cons tyc = some l → c ∈ l →
      D.argTypeOf c args = some t → Key D π (.conTy args tyc) (.con c tys [π.extend 0])
  | tpl {ts : List Ty} : Key D π (.tupleTy ts) (.tpl ((List.range ts.length).map π.extend))

/-- The columns of the components that an arc leads to. -/
def SimplePat.cols (D : Data) (π : Path) : SimplePat → Ty → List Col
  | .con c _ [_], .conTy args _ => (D.argTypeOf c args).toList.map (π.extend 0, ·)
  | .tpl _, .tupleTy ts => ((List.range ts.length).map π.extend).zip ts
  | _, _ => []

/-- The components of a value. -/
def Value.parts : Value → List Value
  | .conApp _ v => [v]
  | .tuple vs => vs
  | _ => []

theorem DCon.same_refl (c : DCon) : c.same c = true := by simp [DCon.same]

theorem DCon.same_comm (c c' : DCon) : c.same c' = c'.same c := by
  simp only [DCon.same, Bool.beq_comm]

/-- Constructors of one datatype with the same id are the same. -/
theorem eq_of_same {tyc : TyCon} {l : List DCon} (hl : D.cons tyc = some l) {c c' : DCon} (hc : c ∈ l) (hc' : c' ∈ l)
    (h : c.same c' = true) : c = c' := by
  obtain ⟨i, hi, rfl⟩ := List.mem_iff_getElem.1 hc
  obtain ⟨j, hj, rfl⟩ := List.mem_iff_getElem.1 hc'
  simp only [DCon.same, Bool.and_eq_true, beq_iff_eq] at h
  have h1 := (D.ids tyc l hl i hi).1
  have h2 := (D.ids tyc l hl j hj).1
  have : i = j := by omega
  subst this
  rfl

theorem same_iff {tyc : TyCon} {l : List DCon} (hl : D.cons tyc = some l) {c c' : DCon} (hc : c ∈ l) (hc' : c' ∈ l) :
    c.same c' = true ↔ c = c' :=
  ⟨eq_of_same hl hc hc', fun h => h ▸ c.same_refl⟩

/-! ## One cell -/

/-- A cell keeps its row when the arc is taken. -/
def hits : SPat → SimplePat → Bool
  | .wild, _ => true
  | .lit l _, k => isLit l k
  | .con c _, k => isCon c k
  | .conApp c _ _ _, k => isCon c k
  | .tuple _, .tpl _ => true
  | .tuple _, _ => false

/-- What a cell becomes when the arc is taken. -/
def expand (k : SimplePat) : SPat → List SPat
  | .wild => k.pathsOf.map fun _ => .wild
  | .conApp _ _ _ p => [p]
  | .tuple ps => ps.map Prod.snd
  | _ => []

theorem Key.pathsOf {π : Path} {t : Ty} (h : Key D π t k) : (k.cols D π t).map Prod.fst = k.pathsOf := by
  cases h with
  | lit => rfl
  | con => rfl
  | conApp _ _ ha => simp [SimplePat.cols, pathsOf, ha]
  | tpl => simp [SimplePat.cols, pathsOf, List.map_fst_zip]

theorem valueAt_extend {v w : Value} {π : Path} (h : valueAt v π = some w) (i : Nat) :
    valueAt v (π.extend i) =
      match w with | .conApp _ u => if i = 0 then some u else none | .tuple vs => vs[i]? | _ => none := by
  cases w <;> simp only [Path.extend, valueAt, h]

theorem Data.Flat.not_datatype {args : List Ty} {tyc : TyCon} {l : List DCon} (h : D.Flat (.conTy args tyc))
    (hl : D.cons tyc = some l) : False := by
  have hn : D.cons tyc = none := h
  rw [hl] at hn
  cases hn

/-- The components of a value that takes the arc are well typed. -/
theorem Key.holds {π : Path} {t : Ty} (h : Key D π t k) {v w : Value} (hv : valueAt v π = some w)
    (hw : HasTy D w t) (ha : k.accepts w = true) : Holds D v (k.cols D π t) w.parts := by
  cases h with
  | lit | con =>
    cases w <;> simp_all [accepts, Value.parts, SimplePat.cols, Holds]
  | @conApp c tys args tyc l t hl hc hat =>
    cases w with
    | conApp c' u =>
      cases hw with
      | conApp hl' hc' hat' hu =>
        rw [hl] at hl'
        cases hl'
        have hcc := eq_of_same hl hc hc' ha
        subst hcc
        rw [hat] at hat'
        cases hat'
        have hu' := valueAt_extend hv 0
        simp only [SimplePat.cols, hat, Holds, Value.parts, Option.toList_some, List.map_cons, List.map_nil]
        exact .cons ⟨hu', hu⟩ .nil
      | flat hf => exact (hf.not_datatype hl).elim
    | _ => cases ha
  | @tpl ts =>
    cases w with
    | tuple vs =>
      cases hw with
      | tuple hlen hall =>
        rw [SimplePat.cols, Holds, Value.parts, List.forall₂_iff_zip]
        refine ⟨by simp [hlen], fun {a b} hab => ?_⟩
        obtain ⟨i, hi, he⟩ := List.mem_iff_getElem.1 hab
        simp only [List.length_zip, List.length_map, List.length_range] at hi
        simp only [List.getElem_zip, List.getElem_map, List.getElem_range, Prod.mk.injEq] at he
        obtain ⟨rfl, rfl⟩ := he
        refine ⟨?_, hall (vs[i], ts[i]) (List.mem_iff_getElem.2 ⟨i, by simp; omega, by simp⟩)⟩
        rw [valueAt_extend hv]
        exact List.getElem?_eq_getElem (by omega)
      | flat hf => exact hf.elim
    | _ => cases ha

/-- The cells of the components are well typed. -/
theorem Key.fits {π : Path} {t : Ty} (h : Key D π t k) {c : SPat} (hc : Fits D π c t)
    (hh : hits c k = true) : RowFits D (k.cols D π t) (expand k c) := by
  cases hc with
  | wild =>
    rw [expand, ← h.pathsOf, List.map_map]
    induction k.cols D π t with
    | nil => exact .nil
    | cons col cols ih => exact .cons .wild ih
  | lit =>
    cases h with
    | lit => exact .nil
    | con | conApp | tpl => simp [hits, isLit] at hh
  | con hl hcl hn =>
    cases h with
    | lit => simp [hits, isCon] at hh
    | con => exact .nil
    | conApp hl' hcl' hs =>
      rw [hl] at hl'
      cases hl'
      cases eq_of_same hl hcl hcl' hh
      rw [hn] at hs
      cases hs
  | conApp hl hcl hs hp =>
    cases h with
    | lit => simp [hits, isCon] at hh
    | con hl' hcl' hn =>
      rw [hl] at hl'
      cases hl'
      cases eq_of_same hl hcl hcl' hh
      rw [hn] at hs
      cases hs
    | conApp hl' hcl' hs' =>
      rw [hl] at hl'
      cases hl'
      cases eq_of_same hl hcl hcl' hh
      rw [expand, SimplePat.cols, hs]
      exact .cons hp .nil
  | @tuple π ps ts hlen hpath hall =>
    cases h with
    | lit => simp [hits] at hh
    | tpl =>
      rw [expand, SimplePat.cols, RowFits, List.forall₂_iff_zip]
      refine ⟨by simp [hlen], fun {a b} hab => ?_⟩
      obtain ⟨i, hi, he⟩ := List.mem_iff_getElem.1 hab
      simp only [List.length_zip, List.length_map, List.length_range] at hi
      simp only [List.getElem_zip, List.getElem_map, List.getElem_range, Prod.mk.injEq] at he
      obtain ⟨rfl, rfl⟩ := he
      have hi' : i < ps.length := by omega
      have hpi : ps[i].1 = π.extend i := by
        have h1 : (ps.map Prod.fst)[i]? = ((List.range ts.length).map π.extend)[i]? := by rw [hpath]
        simpa [hi', hlen ▸ hi'] using h1
      have := hall (ps[i], ts[i]) (List.mem_iff_getElem.2 ⟨i, by simp; omega, by simp⟩)
      rwa [hpi] at this

theorem cellsMatch_wild {α : Type} {l : List α} (h : l.length = vals.length) :
    CellsMatch (l.map fun _ => .wild) vals := by
  induction l generalizing vals with
  | nil =>
    cases vals with
    | nil => exact .nil
    | cons => cases h
  | cons x l ih =>
    cases vals with
    | nil => cases h
    | cons w vals => exact .cons rfl (ih (Nat.succ.inj h))

theorem matchesL_iff {ps : List (Path × SPat)} {vs : List Value} :
    SPat.matchesL ps vs = true ↔ CellsMatch (ps.map Prod.snd) vs := by
  induction ps generalizing vs with
  | nil => cases vs <;> simp [SPat.matchesL, CellsMatch]
  | cons p ps ih =>
    obtain ⟨π, p⟩ := p
    cases vs with
    | nil => simp [SPat.matchesL, CellsMatch]
    | cons w vs =>
      rw [SPat.matchesL, Bool.and_eq_true, ih]
      simp [CellsMatch]

/-- On a value that takes the arc, a cell matches exactly when it keeps its row and its
    components match. -/
theorem matches_expand {π : Path} {t : Ty} (h : Key D π t k) {c : SPat} (hc : Fits D π c t) {w : Value}
    (hw : HasTy D w t) (ha : k.accepts w = true) :
    c.matches w = true ↔ hits c k = true ∧ CellsMatch (expand k c) w.parts := by
  cases hc with
  | wild =>
    refine ⟨fun _ => ⟨rfl, cellsMatch_wild ?_⟩, fun _ => rfl⟩
    cases h with
    | lit | con | conApp | tpl => cases w <;> simp_all [accepts, pathsOf, Value.parts]
  | @lit _ l ty _ hf =>
    cases h with
    | @lit l' _ =>
      cases w with
      | lit l'' =>
        simp only [accepts, beq_iff_eq] at ha
        subst ha
        simp only [SPat.matches, hits, isLit, expand, Value.parts, beq_iff_eq]
        exact ⟨fun h => ⟨h.symm, .nil⟩, fun h => h.1.symm⟩
      | _ => cases ha
    | con hl | conApp hl => exact (hf.not_datatype hl).elim
    | tpl => exact hf.elim
  | @con _ c tys args tyc l hl hcl hn =>
    cases h with
    | lit hf => exact (hf.not_datatype hl).elim
    | @con c' _ _ _ l' hl' hcl' hn' =>
      rw [hl] at hl'
      cases hl'
      cases w with
      | con c'' =>
        cases hw with
        | con hl'' hcl'' =>
          rw [hl] at hl''
          cases hl''
          cases eq_of_same hl hcl' hcl'' ha
          simp only [SPat.matches, hits, isCon, expand, Value.parts]
          exact ⟨fun h => ⟨h, .nil⟩, fun h => h.1⟩
        | flat hf => exact (hf.not_datatype hl).elim
      | _ => cases ha
    | @conApp c' _ _ _ l' t' hl' hcl' hs' =>
      rw [hl] at hl'
      cases hl'
      cases w with
      | conApp c'' u =>
        simp only [SPat.matches, hits, isCon, Bool.false_eq_true, false_iff, not_and]
        grind [eq_of_same]
      | _ => cases ha
  | @conApp _ c tys args tyc l t' p hl hcl hs hp =>
    cases h with
    | lit hf => exact (hf.not_datatype hl).elim
    | @con c' _ _ _ l' hl' hcl' hn' =>
      rw [hl] at hl'
      cases hl'
      cases w with
      | con c'' =>
        simp only [SPat.matches, hits, isCon, Bool.false_eq_true, false_iff, not_and]
        grind [eq_of_same]
      | _ => cases ha
    | @conApp c' _ _ _ l' t'' hl' hcl' hs' =>
      rw [hl] at hl'
      cases hl'
      cases w with
      | conApp c'' u =>
        cases hw with
        | conApp hl'' hcl'' =>
          rw [hl] at hl''
          cases hl''
          cases eq_of_same hl hcl' hcl'' ha
          simp [SPat.matches, hits, isCon, expand, Value.parts, CellsMatch]
        | flat hf => exact (hf.not_datatype hl).elim
      | _ => cases ha
  | tuple hlen hpath hall =>
    cases h with
    | lit hf => exact hf.elim
    | tpl =>
      cases w with
      | tuple vs => simp [SPat.matches, hits, expand, Value.parts, matchesL_iff]
      | _ => cases ha

/-- A cell that is no wildcard only matches values that take its arc. -/
theorem accepts_of_matches {π : Path} {t : Ty} (h : Key D π t k) {c : SPat} (hc : Fits D π c t)
    (hne : c ≠ .wild) (hh : hits c k = true) {w : Value} (hw : HasTy D w t) (hm : c.matches w = true) :
    k.accepts w = true := by
  cases hc with
  | wild => exact absurd rfl hne
  | lit =>
    cases h with
    | lit => cases w <;> simp_all [SPat.matches, hits, isLit, accepts]
    | con | conApp | tpl => simp [hits, isLit] at hh
  | con hl hcl hn =>
    cases h with
    | lit => simp [hits, isCon] at hh
    | con hl' hcl' =>
      rw [hl] at hl'
      cases hl'
      cases eq_of_same hl hcl hcl' hh
      cases w <;> simp_all [SPat.matches, accepts]
    | conApp hl' hcl' hs =>
      rw [hl] at hl'
      cases hl'
      cases eq_of_same hl hcl hcl' hh
      rw [hn] at hs
      cases hs
  | conApp hl hcl hs hp =>
    cases h with
    | lit => simp [hits, isCon] at hh
    | con hl' hcl' hn =>
      rw [hl] at hl'
      cases hl'
      cases eq_of_same hl hcl hcl' hh
      rw [hs] at hn
      cases hn
    | conApp hl' hcl' =>
      rw [hl] at hl'
      cases hl'
      cases eq_of_same hl hcl hcl' hh
      cases w <;> simp_all [SPat.matches, accepts]
  | tuple hlen hpath hall =>
    cases h with
    | lit => simp [hits] at hh
    | tpl =>
      cases w with
      | tuple vs =>
        cases hw with
        | tuple hlen' => simp [accepts, hlen']
        | flat hf => exact hf.elim
      | _ => simp [SPat.matches] at hm

/-! ## Rows -/

theorem length_splice {α : Type} {i : Nat} {l : List α} (h : i < l.length) (new : List α) :
    (splice i new l).length + 1 = l.length + new.length := by
  simp only [splice, List.length_append, List.length_take, List.length_drop]
  omega

theorem forall₂_at {α β : Type} {R : α → β → Prop} {l : List α} {l' : List β} {i : Nat} {x : α} {y : β}
    (hx : l[i]? = some x) (hy : l'[i]? = some y) :
    List.Forall₂ R l l' ↔ List.Forall₂ R (l.take i) (l'.take i) ∧ R x y ∧
      List.Forall₂ R (l.drop (i + 1)) (l'.drop (i + 1)) := by
  obtain ⟨hi, rfl⟩ := List.getElem?_eq_some_iff.1 hx
  obtain ⟨hi', rfl⟩ := List.getElem?_eq_some_iff.1 hy
  have h1 : l.take i ++ l[i] :: l.drop (i + 1) = l := by simp
  have h2 : l'.take i ++ l'[i] :: l'.drop (i + 1) = l' := by simp
  have hlen : (l.take i).length = (l'.take i).length := by simp; omega
  grind [forall₂_append, List.forall₂_cons]

theorem forall₂_splice {α β : Type} {R : α → β → Prop} {l new : List α} {l' new' : List β} {i : Nat}
    (hi : i < l.length) (hi' : i < l'.length) (hn : new.length = new'.length) :
    List.Forall₂ R (splice i new l) (splice i new' l') ↔ List.Forall₂ R (l.take i) (l'.take i) ∧
      List.Forall₂ R new new' ∧ List.Forall₂ R (l.drop (i + 1)) (l'.drop (i + 1)) := by
  have hlen : (l.take i).length = (l'.take i).length := by simp; omega
  rw [splice, splice, forall₂_append (by simp [hlen, hn]), forall₂_append hlen, and_assoc]

def SPat.isWild : SPat → Bool
  | .wild => true
  | _ => false

theorem SPat.isWild_iff {c : SPat} : c.isWild = true ↔ c = .wild := by
  cases c <;> simp [SPat.isWild]

def Row.cell (row : Row E) (i : Nat) : SPat := row.cells.getD i .wild

/-- The row that an arc keeps. -/
def expandRow (k : SimplePat) (i : Nat) (row : Row E) : Option (Row E) :=
  if hits (row.cell i) k then some { row with cells := splice i (expand k (row.cell i)) row.cells } else none

/-- The rows of the sub-matrix of an arc. -/
def expandRows (k : SimplePat) (i : Nat) (rows : List (Row E)) : List (Row E) := rows.filterMap (expandRow k i)

/-- The rows of the default matrix. -/
def wildRows (i : Nat) (rows : List (Row E)) : List (Row E) := rows.filter fun row => (row.cell i).isWild

theorem expandRows_pos {i : Nat} (h : hits (row.cell i) k = true) (rows : List (Row E)) :
    expandRows k i (row :: rows) =
      { row with cells := splice i (expand k (row.cell i)) row.cells } :: expandRows k i rows :=
  List.filterMap_cons_some (if_pos h)

theorem expandRows_neg {i : Nat} (h : hits (row.cell i) k ≠ true) (rows : List (Row E)) :
    expandRows k i (row :: rows) = expandRows k i rows :=
  List.filterMap_cons_none (if_neg h)

theorem wildRows_pos {i : Nat} (h : row.cell i = .wild) (rows : List (Row E)) :
    wildRows i (row :: rows) = row :: wildRows i rows := by
  simp [wildRows, SPat.isWild_iff.2 h]

theorem wildRows_neg {i : Nat} (h : row.cell i ≠ .wild) (rows : List (Row E)) :
    wildRows i (row :: rows) = wildRows i rows := by
  simp [wildRows, mt SPat.isWild_iff.1 h]

section

variable {cols : List Col} {i : Nat} {π : Path} {t : Ty}

theorem getElem?_cell (h : i < row.cells.length) : row.cells[i]? = some (row.cell i) := by
  simp [Row.cell, List.getD, List.getElem?_eq_getElem h]

theorem RowFits.cell (h : RowFits D cols row.cells) (hc : cols[i]? = some (π, t)) :
    i < row.cells.length ∧ Fits D π (row.cell i) t := by
  have hi := (List.getElem?_eq_some_iff.1 hc).1
  have hi' : i < row.cells.length := h.length_eq ▸ hi
  exact ⟨hi', ((forall₂_at (getElem?_cell hi') hc).1 h).2.1⟩

theorem RowFits.expand (h : RowFits D cols row.cells) (hc : cols[i]? = some (π, t))
    (hk : Key D π t k) (hh : hits (row.cell i) k = true) :
    RowFits D (splice i (k.cols D π t) cols) (splice i (Match.expand k (row.cell i)) row.cells) := by
  obtain ⟨hi', hf⟩ := h.cell hc
  obtain ⟨h1, -, h2⟩ := (forall₂_at (getElem?_cell hi') hc).1 h
  have hx := hk.fits hf hh
  exact (forall₂_splice hi' (h.length_eq ▸ hi') hx.length_eq).2 ⟨h1, hx, h2⟩

theorem Holds.at {v w : Value} (h : Holds D v cols vals) (hc : cols[i]? = some (π, t))
    (hw : vals[i]? = some w) : valueAt v π = some w ∧ HasTy D w t :=
  ((forall₂_at hw hc).1 h).2.1

theorem Holds.expand {v w : Value} (h : Holds D v cols vals) (hc : cols[i]? = some (π, t))
    (hw : vals[i]? = some w) (hk : Key D π t k) (ha : k.accepts w = true) :
    Holds D v (splice i (k.cols D π t) cols) (splice i w.parts vals) := by
  obtain ⟨h1, ⟨hv, ht⟩, h2⟩ := (forall₂_at hw hc).1 h
  have hx := hk.holds hv ht ha
  exact (forall₂_splice (List.getElem?_eq_some_iff.1 hw).1 (List.getElem?_eq_some_iff.1 hc).1 hx.length_eq).2
    ⟨h1, hx, h2⟩

theorem cellsMatch_expand {v w : Value} (h : Holds D v cols vals) (hc : cols[i]? = some (π, t))
    (hw : vals[i]? = some w) (hk : Key D π t k) (ha : k.accepts w = true)
    (hr : RowFits D cols row.cells) :
    CellsMatch row.cells vals ↔ hits (row.cell i) k = true ∧
      CellsMatch (splice i (Match.expand k (row.cell i)) row.cells) (splice i w.parts vals) := by
  obtain ⟨hi', hf⟩ := hr.cell hc
  obtain ⟨hv, ht⟩ := h.at hc hw
  rw [CellsMatch, forall₂_at (getElem?_cell hi') hw, matches_expand hk hf ht ha]
  constructor
  · rintro ⟨h1, ⟨hh, hm⟩, h2⟩
    exact ⟨hh, (forall₂_splice hi' (List.getElem?_eq_some_iff.1 hw).1 hm.length_eq).2 ⟨h1, hm, h2⟩⟩
  · rintro ⟨hh, hm⟩
    have hlen : (Match.expand k (row.cell i)).length = w.parts.length :=
      (hk.fits hf hh).length_eq.trans (hk.holds hv ht ha).length_eq.symm
    obtain ⟨h1, h2, h3⟩ := (forall₂_splice hi' (List.getElem?_eq_some_iff.1 hw).1 hlen).1 hm
    exact ⟨h1, ⟨hh, h2⟩, h3⟩

/-- On a value that takes the arc, the sub-matrix stands for what the matrix does. -/
theorem rowsRun_expand {v w : Value} (h : Holds D v cols vals) (hc : cols[i]? = some (π, t))
    (hw : vals[i]? = some w) (hk : Key D π t k) (ha : k.accepts w = true) (truth : E → Env → Bool)
    {rows : List (Row E)} (hr : ∀ row ∈ rows, RowFits D cols row.cells) :
    rowsRun truth v vals rows = rowsRun truth v (splice i w.parts vals) (expandRows k i rows) := by
  induction rows with
  | nil => rfl
  | cons row rows ih =>
    specialize ih fun r h => hr r (List.mem_cons_of_mem row h)
    have hm := cellsMatch_expand h hc hw hk ha (hr row List.mem_cons_self)
    by_cases hh : hits (row.cell i) k = true
    · rw [expandRows_pos hh]
      simp only [hh, true_and] at hm
      simp only [rowsRun, ← ih, hm]
    · rw [expandRows_neg hh, rowsRun, if_neg fun hc => hh (hm.1 hc).1, ih]

/-- On a value that takes none of the arcs, the default matrix does. -/
theorem rowsRun_default {v w : Value} (h : Holds D v cols vals) (hc : cols[i]? = some (π, t))
    (hw : vals[i]? = some w) (truth : E → Env → Bool) {rows : List (Row E)}
    (hr : ∀ row ∈ rows, RowFits D cols row.cells)
    (hk : ∀ row ∈ rows, row.cell i ≠ .wild → ∃ k, Key D π t k ∧ hits (row.cell i) k = true ∧ k.accepts w = false) :
    rowsRun truth v vals rows = rowsRun truth v vals (wildRows i rows) := by
  induction rows with
  | nil => rfl
  | cons row rows ih =>
    specialize ih (fun r h => hr r (List.mem_cons_of_mem row h)) fun r h => hk r (List.mem_cons_of_mem row h)
    by_cases hwild : row.cell i = .wild
    · rw [wildRows_pos hwild, rowsRun, rowsRun, ih]
    · rw [wildRows_neg hwild, rowsRun, if_neg, ih]
      intro hm
      obtain ⟨k, hkey, hh, ha⟩ := hk row List.mem_cons_self hwild
      obtain ⟨hi', hf⟩ := (hr row List.mem_cons_self).cell hc
      have hcell := ((forall₂_at (getElem?_cell hi') hw).1 hm).2.1
      rw [accepts_of_matches hkey hf hwild hh (h.at hc hw).2 hcell] at ha
      cases ha

end

end Manticore.Match
