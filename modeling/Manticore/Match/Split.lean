/-
  Manticore.Match.Split — what `splitAtCol` answers (match-to-dfa.sml).

  `Keys` is what the constructor map of a column is good for: its arcs are typed, no cell
  but a wildcard keeps its row on two of them, every cell that is no wildcard keeps its row
  on one, and every arc is there for a cell. `coverage_spec` is the code's test for
  exhaustive arcs: when it says `all`, every well-typed value takes one.
-/

import Manticore.Match.Matrix

namespace Manticore.Match

open Fuel
open Typechecker (Ty TyCon Failure)
open List (forall_mem_cons mem_cons_of_mem mem_cons_self range map_nil map_cons length_map map_map mem_range
  mem_iff_getElem)

variable {E : Type} {D : Data} {π : Path} {t : Ty} {vars : List Path} {i : Nat} {keys : List SimplePat}
variable {col : List SPat} {cols : List (List SPat)}

/-! ## Arcs -/

theorem isCon_congr {c c' : DCon} (h : c.same c' = true) (k : SimplePat) : isCon c k = isCon c' k := by
  simp only [DCon.same, Bool.and_eq_true, beq_iff_eq] at h
  cases k <;> simp [isCon, DCon.same, h.1, h.2]

/-- Two arcs that one cell takes are taken by the same cells. -/
def Apart (k k' : SimplePat) : Prop := ∀ c : SPat, c ≠ .wild → hits c k = true → hits c k' = false

theorem apart_lit {l : Literal} {k : SimplePat} (h : isLit l k = false) : Apart (.lit l) k := by
  intro c hne hc
  cases c with
  | wild => exact absurd rfl hne
  | lit l' ty =>
    have hl : l = l' := by simpa [hits, isLit] using hc
    subst hl
    exact h
  | con | conApp => simp [hits, isCon] at hc
  | tuple => simp [hits] at hc

theorem apart_con {c : DCon} {tys : List Ty} {paths : List Path} {k : SimplePat} (h : isCon c k = false) :
    Apart (.con c tys paths) k := by
  intro c' hne hc
  cases c' with
  | wild => exact absurd rfl hne
  | lit => simp [hits, isLit] at hc
  | con | conApp => exact (isCon_congr hc k).trans h
  | tuple => simp [hits] at hc

structure Keys (D : Data) (π : Path) (t : Ty) (col : List SPat) (keys : List SimplePat) : Prop where
  key : ∀ k ∈ keys, Key D π t k
  apart : keys.Pairwise Apart
  covers : ∀ c ∈ col, c ≠ .wild → ∃ k ∈ keys, hits c k = true
  used : ∀ k ∈ keys, ∃ c ∈ col, c ≠ .wild ∧ hits c k = true

namespace Keys

variable {c : SPat} {k : SimplePat}

theorem nil : Keys D π t [] [] := ⟨by simp, .nil, by simp, by simp⟩

/-- A cell that needs no new arc. -/
theorem keep (h : Keys D π t col keys) (hc : c ≠ .wild → ∃ k ∈ keys, hits c k = true) : Keys D π t (c :: col) keys where
  key := h.key
  apart := h.apart
  covers := forall_mem_cons.2 ⟨hc, h.covers⟩
  used k hk :=
    let ⟨c', hc', h'⟩ := h.used k hk
    ⟨c', mem_cons_of_mem _ hc', h'⟩

/-- A cell with a new arc. -/
theorem add (h : Keys D π t col keys) (hk : Key D π t k) (hne : c ≠ .wild) (hc : hits c k = true)
    (hnew : ∀ k' ∈ keys, Apart k k') : Keys D π t (c :: col) (k :: keys) where
  key := forall_mem_cons.2 ⟨hk, h.key⟩
  apart := .cons hnew h.apart
  covers := forall_mem_cons.2 ⟨fun _ => ⟨k, mem_cons_self, hc⟩, fun c' hc' hne' =>
    let ⟨k', hk', h'⟩ := h.covers c' hc' hne'
    ⟨k', mem_cons_of_mem _ hk', h'⟩⟩
  used := forall_mem_cons.2 ⟨⟨c, mem_cons_self, hne, hc⟩, fun k' hk' =>
    let ⟨c', hc', h'⟩ := h.used k' hk'
    ⟨c', mem_cons_of_mem _ hc', h'⟩⟩

/-- A tuple column has at most one arc. -/
theorem tuple {ts : List Ty} (h : Keys D π (.tupleTy ts) col keys) :
    keys = [] ∨ keys = [.tpl ((range ts.length).map π.extend)] := by
  have hall : ∀ k ∈ keys, k = .tpl ((range ts.length).map π.extend) := by
    intro k hk
    cases h.key k hk with
    | lit hf => exact hf.elim
    | tpl => rfl
  match keys, hall, h.apart with
  | [], _, _ => exact .inl rfl
  | [k], hall, _ => exact .inr (by rw [hall k (by simp)])
  | k :: k' :: _, hall, hap =>
    have hkk := (List.pairwise_cons.1 hap).1 k' (by simp) (.tuple []) (by simp)
    rw [hall k (by simp), hall k' (by simp)] at hkk
    cases hkk rfl

end Keys

/-- The entry of an arc before the rows are added. -/
def nilEntry (vars : List Path) (i : Nat) (k : SimplePat) : SimplePat × Matrix E :=
  (k, mkNilMat (splice i k.pathsOf vars))

theorem expandVars_eq (hi : i < vars.length) (new : List Path) : expandVars vars i new = .ok (splice i new vars) :=
  replaceAt_eq new hi

theorem find_none {p : SimplePat → Bool} {f : SimplePat → Matrix E}
    (h : (((keys.map fun k => (k, f k)).find? fun e => p e.1).map Prod.snd) = none) : ∀ k ∈ keys, p k = false := by
  simp_all

theorem find_some {p : SimplePat → Bool} {f : SimplePat → Matrix E} {mat : Matrix E}
    (h : (((keys.map fun k => (k, f k)).find? fun e => p e.1).map Prod.snd) = some mat) : ∃ k ∈ keys, p k = true := by
  grind [Option.map_eq_some_iff]

theorem mkConMap_spec (hi : i < vars.length) (hcol : ∀ c ∈ col, Fits D π c t) :
    ∃ keys, mkConMap (E := E) vars i col = .ok (keys.map (nilEntry vars i)) ∧ Keys D π t col keys := by
  induction col with
  | nil => exact ⟨[], rfl, .nil⟩
  | cons pat down ih =>
    obtain ⟨keys, heq, hkeys⟩ := ih fun c hc => hcol c (mem_cons_of_mem _ hc)
    have hpat := hcol pat mem_cons_self
    simp only [mkConMap, heq, ok_bind]
    cases hpat with
    | wild => exact ⟨keys, rfl, hkeys.keep fun h => absurd rfl h⟩
    | @lit _ l ty _ hf =>
      cases hfind : findLit (keys.map (nilEntry (E := E) vars i)) l with
      | none =>
        simp only [hfind, expandVars_eq hi, ok_bind]
        exact ⟨.lit l :: keys, rfl, hkeys.add (.lit hf) (by simp) (by simp [hits, isLit]) fun k hk =>
          apart_lit (find_none hfind k hk)⟩
      | some mat => exact ⟨keys, by simp only [hfind], hkeys.keep fun _ => find_some hfind⟩
    | @con _ c tys args tyc l hl hcl hn =>
      cases hfind : findCon (keys.map (nilEntry (E := E) vars i)) c with
      | none =>
        simp only [hfind, expandVars_eq hi, ok_bind]
        exact ⟨.con c tys [] :: keys, rfl, hkeys.add (.con hl hcl hn) (by simp) c.same_refl fun k hk =>
          apart_con (find_none hfind k hk)⟩
      | some mat => exact ⟨keys, by simp only [hfind], hkeys.keep fun _ => find_some hfind⟩
    | @conApp _ c tys args tyc l t' p hl hcl hs hp =>
      cases hfind : findCon (keys.map (nilEntry (E := E) vars i)) c with
      | none =>
        simp only [hfind, expandVars_eq hi, ok_bind]
        exact ⟨.con c tys [π.extend 0] :: keys, rfl, hkeys.add (.conApp hl hcl hs) (by simp) c.same_refl fun k hk =>
          apart_con (find_none hfind k hk)⟩
      | some mat => exact ⟨keys, by simp only [hfind], hkeys.keep fun _ => find_some hfind⟩
    | @tuple _ ps ts hlen hpath hall =>
      obtain rfl | rfl := hkeys.tuple
      · simp only [map_nil, findTpl, ok_bind, expandVars_eq hi]
        exact ⟨[.tpl (ps.map Prod.fst)], rfl, hkeys.add (hpath ▸ .tpl) (by simp) rfl (by simp)⟩
      · simp only [map_cons, map_nil, nilEntry, findTpl, ok_bind]
        exact ⟨_, rfl, hkeys.keep fun _ => ⟨_, List.mem_singleton.2 rfl, rfl⟩⟩

/-! ## Rows -/

/-- The entry of an arc once the rows are added. -/
def rowsEntry (rows : List (Row E)) (vars : List Path) (i : Nat) (k : SimplePat) : SimplePat × Matrix E :=
  (k, ⟨expandRows k i rows, splice i k.pathsOf vars⟩)

theorem length_expand {k : SimplePat} (hk : Key D π t k) {c : SPat} (hc : Fits D π c t) (hh : hits c k = true) :
    (expand k c).length = k.pathsOf.length := by
  rw [← hk.pathsOf, length_map]
  exact (hk.fits hc hh).length_eq

theorem addRow_eq {rows : List (Row E)} {row : Row E} (h : row.cells.length = vars.length) :
    addRow ⟨rows, vars⟩ row = .ok ⟨row :: rows, vars⟩ := if_pos h

theorem addVarRow_eq {row : Row E} (hlen : row.cells.length = vars.length) (hi : i < vars.length)
    (hw : row.cell i = .wild) (rows : List (Row E)) (keys : List SimplePat) :
    addVarRow row i (keys.map (rowsEntry rows vars i)) = .ok (keys.map (rowsEntry (row :: rows) vars i)) := by
  induction keys with
  | nil => rfl
  | cons k keys ih =>
    have hx : expandCols row i (k.pathsOf.map fun v => (v, .wild)) =
        .ok { row with cells := splice i (expand k .wild) row.cells } := by
      simp only [expandCols, map_map, replaceAt_eq _ (hlen ▸ hi), ok_bind]
      rfl
    have hl : (splice i (expand k .wild) row.cells).length = (splice i k.pathsOf vars).length := by
      have h1 := length_splice (hlen ▸ hi) (expand k .wild)
      have h2 := length_splice hi k.pathsOf
      have h3 : (expand k .wild).length = k.pathsOf.length := length_map _
      omega
    have hrow : expandRows k i (row :: rows) =
        { row with cells := splice i (expand k .wild) row.cells } :: expandRows k i rows := by
      rw [expandRows_pos (by rw [hw]; rfl), hw]
    simp only [map_cons, rowsEntry, addVarRow, hx, ok_bind]
    rw [addRow_eq hl, ok_bind]
    simp only [hrow]
    exact congrArg (· >>= _) ih

/-- A row whose cell is no wildcard goes to the one arc that it takes. -/
theorem addTo_eq {p : SimplePat → Bool} {row row' : Row E} {rows : List (Row E)}
    (hp : ∀ k ∈ keys, p k = hits (row.cell i) k) (hap : keys.Pairwise Apart) (hne : row.cell i ≠ .wild)
    (hex : ∃ k ∈ keys, hits (row.cell i) k = true)
    (hrow : ∀ k ∈ keys, hits (row.cell i) k = true →
      { row with cells := splice i (expand k (row.cell i)) row.cells } = row' ∧
        row'.cells.length = (splice i k.pathsOf vars).length) :
    addTo p row' (keys.map (rowsEntry rows vars i)) = .ok (keys.map (rowsEntry (row :: rows) vars i)) := by
  induction keys with
  | nil => simp at hex
  | cons k keys ih =>
    obtain ⟨hk, hap'⟩ := List.pairwise_cons.1 hap
    simp only [map_cons, rowsEntry, addTo]
    rw [hp k mem_cons_self]
    by_cases hh : hits (row.cell i) k = true
    · obtain ⟨heq, hlen⟩ := hrow k mem_cons_self hh
      rw [if_pos hh, addRow_eq hlen, ok_bind, expandRows_pos hh, heq]
      refine congrArg (fun l => Except.ok (_ :: l)) (List.map_congr_left fun k' hk' => ?_)
      have hno : hits (row.cell i) k' ≠ true := by
        rw [hk k' hk' _ hne hh]
        exact Bool.false_ne_true
      rw [rowsEntry, rowsEntry, expandRows_neg hno]
    · rw [if_neg hh, expandRows_neg hh]
      have hex' : ∃ k ∈ keys, hits (row.cell i) k = true := by
        grind
      specialize ih (fun k' h => hp k' (mem_cons_of_mem _ h)) hap' hex' fun k' h =>
        hrow k' (mem_cons_of_mem _ h)
      exact congrArg (· >>= _) ih

theorem populate_eq (hkeys : Keys D π t col keys) (hi : i < vars.length)
    {rows : List (Row E)} (hr : ∀ row ∈ rows, row.cells.length = vars.length ∧ Fits D π (row.cell i) t ∧
      row.cell i ∈ col) :
    populate vars i (keys.map (nilEntry vars i)) rows =
      .ok (keys.map (rowsEntry rows vars i), ⟨wildRows i rows, vars⟩) := by
  induction rows with
  | nil => rfl
  | cons row rows ih =>
    obtain ⟨hlen, hfit, hmem⟩ := hr row mem_cons_self
    specialize ih fun r h => hr r (mem_cons_of_mem _ h)
    have hi' : i < row.cells.length := hlen ▸ hi
    -- the row of a cell that is no wildcard, for each of the arcs
    have hrow : ∀ new, (∀ k ∈ keys, hits (row.cell i) k = true → expand k (row.cell i) = new) → ∀ k ∈ keys,
        hits (row.cell i) k = true →
        { row with cells := splice i (expand k (row.cell i)) row.cells } = { row with cells := splice i new row.cells } ∧
          (splice i new row.cells).length = (splice i k.pathsOf vars).length := by
      intro new hnew k hk hh
      rw [hnew k hk hh]
      refine ⟨rfl, ?_⟩
      have h1 := length_splice hi' new
      have h2 := length_splice hi k.pathsOf
      have h3 := length_expand (hkeys.key k hk) hfit hh
      rw [hnew k hk hh] at h3
      omega
    simp only [populate, ih, ok_bind, getElem?_cell hi']
    cases hcell : row.cell i with
    | wild =>
      rw [addVarRow_eq hlen hi hcell, wildRows_pos hcell]
      simp only [ok_bind, addRow_eq hlen]
    | lit | con =>
      have hne : row.cell i ≠ .wild := by simp [hcell]
      rw [wildRows_neg hne]
      simp only [expandCols, map_nil, replaceAt_eq _ hi', ok_bind]
      rw [addTo_eq (fun k _ => by rw [hcell]; rfl) hkeys.apart hne (hkeys.covers _ hmem hne)
        (hrow [] fun k _ _ => by rw [hcell]; rfl), ok_bind]
    | conApp c tys path p =>
      have hne : row.cell i ≠ .wild := by simp [hcell]
      rw [wildRows_neg hne]
      simp only [expandCols, map_cons, map_nil, replaceAt_eq _ hi', ok_bind]
      rw [addTo_eq (fun k _ => by rw [hcell]; rfl) hkeys.apart hne (hkeys.covers _ hmem hne)
        (hrow [p] fun k _ _ => by rw [hcell]; rfl), ok_bind]
    | tuple ps =>
      have hne : row.cell i ≠ .wild := by simp [hcell]
      rw [wildRows_neg hne]
      obtain ⟨k, hk, hh⟩ := hkeys.covers _ hmem hne
      rw [hcell] at hfit
      cases hfit with
      | @tuple _ _ ts =>
        obtain rfl | rfl := hkeys.tuple
        · cases hk
        · have hp : ∀ k ∈ [SimplePat.tpl ((range ts.length).map π.extend)], true = hits (row.cell i) k := by
            intro k hk
            rw [hcell, List.mem_singleton.1 hk]
            rfl
          have hx : addTo (fun _ => true) _ (List.map (rowsEntry rows vars i) [_]) = _ :=
            addTo_eq hp hkeys.apart hne ⟨k, hk, hh⟩ (hrow (ps.map Prod.snd) fun k _ _ => by rw [hcell]; rfl)
          simp only [map_cons, map_nil] at hx ⊢
          simp only [expandCols, replaceAt_eq _ hi', ok_bind]
          exact congrArg (· >>= _) hx

/-! ## Coverage -/

/-- The constructor ids that `chkSet` collects. -/
def conIds : List Nat → List SimplePat → List Nat
  | s, .con c _ _ :: r => conIds (s.insert c.id) r
  | s, _ => s

def SimplePat.IsCon : SimplePat → Prop
  | .con _ _ _ => True
  | _ => False

theorem chkSet_eq (f : List Nat → Except Failure Bool) {s : List Nat} {l : List SimplePat} (h : ∀ k ∈ l, k.IsCon) :
    chkSet f s l = (do
      let b ← f (conIds s l)
      .ok (if b then .all else .partial_)) := by
  induction l generalizing s with
  | nil => rfl
  | cons k l ih =>
    cases k with
    | con c tys paths => exact ih fun k hk => h k (mem_cons_of_mem _ hk)
    | any | lit | tpl => exact (h _ mem_cons_self).elim

theorem nodup_conIds {s : List Nat} (hs : s.Nodup) (l : List SimplePat) : (conIds s l).Nodup := by
  induction l generalizing s with
  | nil => exact hs
  | cons k l ih =>
    cases k with
    | con c tys paths => exact ih (hs.insert)
    | any | lit | tpl => exact hs

theorem mem_conIds {s : List Nat} {l : List SimplePat} {n : Nat} (h : n ∈ conIds s l) :
    n ∈ s ∨ ∃ c tys paths, SimplePat.con c tys paths ∈ l ∧ c.id = n := by
  induction l generalizing s with
  | nil => exact .inl h
  | cons k l ih =>
    cases k with
    | con c tys paths =>
      obtain h | ⟨c', tys', paths', hm, rfl⟩ := ih h
      · grind
      · exact .inr ⟨c', tys', paths', mem_cons_of_mem _ hm, rfl⟩
    | any | lit | tpl => exact .inl h

/-- A duplicate-free list of `n` numbers below `n` has them all. -/
theorem mem_of_nodup_lt {s : List Nat} {n m : Nat} (hs : s.Nodup) (hlt : ∀ x ∈ s, x < n) (hlen : s.length = n)
    (hm : m < n) : m ∈ s := by
  have hsub : s ⊆ range n := fun x hx => mem_range.2 (hlt x hx)
  have hperm := hs.subperm hsub |>.perm_of_length_le (by simp [hlen])
  exact hperm.mem_iff.2 (mem_range.2 hm)

theorem chkForAny_eq {l : List SimplePat} (h : ∀ k ∈ l, k ≠ .any) : chkForAny l = .partial_ := by
  refine if_neg fun hany => ?_
  grind

/-- The constructor arcs of a datatype that has as many constructors as there are arcs. -/
theorem conCoverage {args : List Ty} {tyc : TyCon}
    (hkeys : Keys D π (.conTy args tyc) col keys) {l : List DCon} (hl : D.cons tyc = some l) :
    ∃ cov, chkSet (coverDataty D tyc) [] keys = .ok cov ∧
      (cov = .all → ∀ w, HasTy D w (.conTy args tyc) → ∃ k ∈ keys, k.accepts w = true) := by
  have hcon : ∀ k ∈ keys, k.IsCon := by
    intro k hk
    cases hkeys.key k hk with
    | lit hf => exact (hf.not_datatype hl).elim
    | con | conApp => trivial
  refine ⟨_, chkSet_eq _ hcon |>.trans (by rw [coverDataty, hl]; rfl), fun hall w hw => ?_⟩
  have hlen : (conIds [] keys).length = l.length := by
    by_contra hne
    simp [hne] at hall
  -- an id in the set is that of an arc, with the arity of its constructor
  have harc : ∀ n ∈ conIds [] keys, ∃ c ∈ l, c.id = n ∧
      ((D.argTypeOf c args = none ∧ ∃ tys, SimplePat.con c tys [] ∈ keys) ∨
        (D.argTypeOf c args ≠ none ∧ ∃ tys p, SimplePat.con c tys [p] ∈ keys)) := by
    intro n hn
    obtain h | ⟨c, tys, paths, hm, rfl⟩ := mem_conIds hn
    · cases h
    · cases hkeys.key _ hm with
      | con hl' hc hnone =>
        rw [hl] at hl'
        cases hl'
        exact ⟨c, hc, rfl, .inl ⟨hnone, tys, hm⟩⟩
      | conApp hl' hc hsome =>
        rw [hl] at hl'
        cases hl'
        exact ⟨c, hc, rfl, .inr ⟨by simp [hsome], tys, _, hm⟩⟩
  have hlt : ∀ n ∈ conIds [] keys, n < l.length := by
    intro n hn
    obtain ⟨c, hc, rfl, -⟩ := harc n hn
    obtain ⟨j, hj, rfl⟩ := mem_iff_getElem.1 hc
    rw [(D.ids tyc l hl j hj).1]
    exact hj
  -- so the constructor of the value has an arc
  have hall : ∀ c ∈ l, ((D.argTypeOf c args = none ∧ ∃ tys, SimplePat.con c tys [] ∈ keys) ∨
      (D.argTypeOf c args ≠ none ∧ ∃ tys p, SimplePat.con c tys [p] ∈ keys)) := by
    intro c hc
    obtain ⟨j, hj, rfl⟩ := mem_iff_getElem.1 hc
    have hin : (l[j]).id ∈ conIds [] keys := by
      rw [(D.ids tyc l hl j hj).1]
      exact mem_of_nodup_lt (nodup_conIds .nil keys) hlt hlen hj
    obtain ⟨c', hc', hid, h⟩ := harc _ hin
    have : c' = l[j] := eq_of_same hl hc' hc (by
      obtain ⟨j', hj', rfl⟩ := mem_iff_getElem.1 hc'
      simp [DCon.same, hid, (D.ids tyc l hl j hj).2, (D.ids tyc l hl j' hj').2])
    rwa [this] at h
  cases hw with
  | @con c _ _ l' hl' hc hnone =>
    rw [hl] at hl'
    cases hl'
    obtain ⟨-, tys, hm⟩ | ⟨hsome, -⟩ := hall c hc
    · exact ⟨_, hm, c.same_refl⟩
    · exact absurd hnone hsome
  | @conApp c u _ _ l' t' hl' hc hsome hu =>
    rw [hl] at hl'
    cases hl'
    obtain ⟨hnone, -⟩ | ⟨-, tys, p, hm⟩ := hall c hc
    · rw [hnone] at hsome
      cases hsome
    · exact ⟨_, hm, c.same_refl⟩
  | flat hf => exact (hf.not_datatype hl).elim

theorem owner_eq {tyc : TyCon} {l : List DCon} (hl : D.cons tyc = some l) {c : DCon} (hc : c ∈ l) : c.owner = tyc := by
  obtain ⟨j, hj, rfl⟩ := mem_iff_getElem.1 hc
  exact (D.ids tyc l hl j hj).2

/-- `coverage` answers, and when it says `all` every well-typed value takes an arc. -/
theorem coverage_spec (hkeys : Keys D π t col keys) :
    ∃ cov, coverage D keys = .ok cov ∧ (cov = .all → ∀ w, HasTy D w t → ∃ k ∈ keys, k.accepts w = true) := by
  cases keys with
  | nil => exact ⟨.partial_, rfl, by simp⟩
  | cons k keys =>
    cases hkeys.key k mem_cons_self with
    | @lit l _ hf =>
      refine ⟨.partial_, congrArg _ (chkForAny_eq fun k hk hany => ?_), by simp⟩
      cases hany ▸ hkeys.key k (mem_cons_of_mem _ hk)
    | tpl =>
      refine ⟨.all, rfl, fun _ w hw => ⟨_, mem_cons_self, ?_⟩⟩
      cases hw with
      | tuple hlen => simp [SimplePat.accepts, hlen]
      | flat hf => exact hf.elim
    | con hl hc | conApp hl hc =>
      rw [coverage, owner_eq hl hc]
      exact conCoverage hkeys hl

theorem splitAtCol_spec {cols : List Col} (mat : Matrix E) (hvars : mat.vars = cols.map Prod.fst)
    (hc : cols[i]? = some (π, t)) (hr : ∀ row ∈ mat.rows, RowFits D cols row.cells) :
    ∃ keys cov, splitAtCol D mat i =
        .ok (π, keys.map (rowsEntry mat.rows mat.vars i), ⟨wildRows i mat.rows, mat.vars⟩, cov) ∧
      Keys D π t (mat.col i) keys ∧ (cov = .all → ∀ w, HasTy D w t → ∃ k ∈ keys, k.accepts w = true) := by
  have hi : i < mat.vars.length := by
    rw [hvars, length_map]
    exact (List.getElem?_eq_some_iff.1 hc).1
  have hcol : ∀ c ∈ mat.col i, Fits D π c t := by
    intro c hmem
    obtain ⟨row, hrow, rfl⟩ := List.mem_map.1 hmem
    exact ((hr row hrow).cell hc).2
  obtain ⟨keys, hmk, hkeys⟩ := mkConMap_spec (E := E) hi hcol
  have hpop : populate mat.vars i _ mat.rows = _ := populate_eq hkeys hi fun row hrow =>
    ⟨by rw [(hr row hrow).length_eq, hvars, length_map], ((hr row hrow).cell hc).2, List.mem_map_of_mem hrow⟩
  obtain ⟨cov, hcov, hall⟩ := coverage_spec hkeys
  have hfst : (keys.map (rowsEntry mat.rows mat.vars i)).map Prod.fst = keys := by
    rw [map_map]
    exact List.map_id _
  have hv : mat.vars[i]? = some π := by rw [hvars, List.getElem?_map, hc]; rfl
  refine ⟨keys, cov, ?_, hkeys, hall⟩
  simp only [splitAtCol, hmk, hpop, hfst, hcov, hv, ok_bind]

/-! ## The chosen column -/

/-- The first cell of a column. -/
def StartsWith (p : SPat → Prop) (col : List SPat) : Prop := ∃ c r, col = c :: r ∧ p c

theorem maxRow_cons {curMax : Option Nat} {curCnt j : Nat} (h : ¬ StartsWith (· = .wild) col)
    (cols : List (List SPat)) : maxRow curMax curCnt j (col :: cols) =
      if count col > curCnt then maxRow (some j) (count col) (j + 1) cols else maxRow curMax curCnt (j + 1) cols := by
  cases col with
  | nil => rfl
  | cons c r =>
    cases c with
    | wild => exact absurd ⟨_, r, rfl, rfl⟩ h
    | lit | con | conApp | tuple => rfl

theorem maxRow_some {curMax : Option Nat} {curCnt j m : Nat}
    (h : maxRow curMax curCnt j cols = some m) :
    curMax = some m ∨ ∃ col, cols[m - j]? = some col ∧ j ≤ m ∧ StartsWith (· ≠ .wild) col := by
  induction cols generalizing curMax curCnt j with
  | nil => exact .inl h
  | cons col cols ih =>
    have hstep : ∀ {curMax curCnt}, maxRow curMax curCnt (j + 1) cols = some m → curMax = some m ∨
        ∃ col', (col :: cols)[m - j]? = some col' ∧ j ≤ m ∧ StartsWith (· ≠ .wild) col' := by
      grind
    by_cases hw : StartsWith (· = .wild) col
    · obtain ⟨c, r, rfl, rfl⟩ := hw
      exact hstep h
    · rw [maxRow_cons hw] at h
      split at h
      next hcnt =>
        obtain h | h := hstep h
        · cases h
          refine .inr ⟨col, by simp, Nat.le_refl _, ?_⟩
          cases col with
          | nil => exact absurd hcnt (Nat.not_lt_zero _)
          | cons c r => exact ⟨c, r, rfl, fun h => hw ⟨c, r, rfl, h⟩⟩
        · exact .inr h
      · exact hstep h

theorem maxRow_none {curMax : Option Nat} {curCnt j : Nat}
    (h : maxRow curMax curCnt j cols = none) :
    curMax = none ∧ ∀ col ∈ cols, StartsWith (· = .wild) col ∨ count col ≤ curCnt := by
  induction cols generalizing curMax curCnt j with
  | nil => exact ⟨h, by simp⟩
  | cons col cols ih =>
    by_cases hw : StartsWith (· = .wild) col
    · obtain ⟨c, r, rfl, rfl⟩ := id hw
      obtain ⟨hnone, hall⟩ := ih h
      exact ⟨hnone, forall_mem_cons.2 ⟨.inl hw, hall⟩⟩
    · rw [maxRow_cons hw] at h
      grind

theorem findTuple_cons {j : Nat} (h : ∀ ps r, col ≠ .tuple ps :: r) (cols : List (List SPat)) :
    findTuple j (col :: cols) = findTuple (j + 1) cols := by
  cases col with
  | nil => rfl
  | cons c r =>
    cases c with
    | tuple ps => exact absurd rfl (h ps r)
    | wild | lit | con | conApp => rfl

theorem findTuple_some {j m : Nat} (h : findTuple j cols = some m) :
    ∃ col, cols[m - j]? = some col ∧ j ≤ m ∧ StartsWith (· ≠ .wild) col := by
  induction cols generalizing j with
  | nil => cases h
  | cons col cols ih =>
    by_cases ht : ∀ ps r, col ≠ .tuple ps :: r
    · rw [findTuple_cons ht] at h
      grind
    · simp only [ne_eq, not_forall, not_not] at ht
      obtain ⟨ps, r, rfl⟩ := ht
      cases h
      exact ⟨_, by simp, Nat.le_refl _, .tuple ps, r, rfl, by simp⟩

theorem findTuple_none {j : Nat} (h : findTuple j cols = none) :
    ∀ col ∈ cols, ∀ ps r, col ≠ .tuple ps :: r := by
  induction cols generalizing j with
  | nil => simp
  | cons col cols ih =>
    by_cases ht : ∀ ps r, col ≠ .tuple ps :: r
    · rw [findTuple_cons ht] at h
      exact forall_mem_cons.2 ⟨ht, ih h⟩
    · simp only [ne_eq, not_forall, not_not] at ht
      obtain ⟨ps, r, rfl⟩ := ht
      cases h

theorem getElem?_cols {mat : Matrix E}
    (h : ((range mat.vars.length).map mat.col)[i]? = some col) : i < mat.vars.length ∧ col = mat.col i := by
  rw [List.getElem?_map] at h
  grind

/-- The chosen column is one whose first cell is no wildcard. -/
theorem chooseCol_some {mat : Matrix E} (h : chooseCol mat = some i) :
    i < mat.vars.length ∧ ∃ row rows, mat.rows = row :: rows ∧ row.cell i ≠ .wild := by
  have hcol : ∃ col, ((range mat.vars.length).map mat.col)[i - 0]? = some col ∧ 0 ≤ i ∧
      StartsWith (· ≠ .wild) col := by
    grind [chooseCol, findTuple_some, maxRow_some]
  obtain ⟨col, hc, -, c, r, hcr, hne⟩ := hcol
  obtain ⟨hi, rfl⟩ := getElem?_cols hc
  refine ⟨hi, ?_⟩
  cases hrows : mat.rows with
  | nil => simp [Matrix.col, hrows] at hcr
  | cons row rows =>
    simp only [Matrix.col, hrows, map_cons, List.cons.injEq] at hcr
    exact ⟨row, rows, rfl, fun hw => hne (hcr.1.symm.trans hw)⟩

theorem count_pos {c : SPat} (h1 : c ≠ .wild) (h2 : ∀ ps, c ≠ .tuple ps) (r : List SPat) : 0 < count (c :: r) := by
  have hins : ∀ x : ConOrLit, 0 < ((conSet r).insert x).length := fun x =>
    List.length_pos_of_mem (List.mem_insert_self)
  cases c with
  | wild => exact absurd rfl h1
  | tuple ps => exact absurd rfl (h2 ps)
  | lit | con | conApp => exact hins _

/-- When no column is chosen the first row is of wildcards. -/
theorem chooseCol_none {mat : Matrix E} (h : chooseCol mat = none) {row : Row E} {rows : List (Row E)}
    (hrows : mat.rows = row :: rows) : ∀ i < mat.vars.length, row.cell i = .wild := by
  intro i hi
  unfold chooseCol at h
  simp only at h
  split at h
  next hm =>
    have hmem : mat.col i ∈ (range mat.vars.length).map mat.col := List.mem_map_of_mem (mem_range.2 hi)
    have hcol : mat.col i = row.cell i :: rows.map (·.cell i) := by simp [Matrix.col, hrows, Row.cell]
    have htup := findTuple_none h _ hmem
    by_contra hne
    obtain ⟨c, r, heq, hw⟩ | hcnt := (maxRow_none hm).2 _ hmem
    · rw [hcol] at heq
      cases heq
      exact hne hw
    grind [count_pos]
  · cases h

end Manticore.Match
