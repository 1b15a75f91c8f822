/-
  Manticore.Match.Rules — the automaton of a rule list is its first-match semantics
  (match-to-dfa.sml).

  `DoesPat` is what `doPat` answers for a pattern: a cell and the paths of its variables,
  which together match and bind as the pattern does. `rulesToDFA_correct` puts the rows of
  the rules together with `genDFA_returns`.
-/

import Manticore.Match.Generate

namespace Manticore.Match

open Fuel
open Typechecker (Ty TyCon intTyc)

variable {E : Type} {D : Data}

/-! ## Patterns -/

/-- The cell and the bindings of a pattern at a path. -/
structure DoesPat (D : Data) (π : Path) (p : Pat) (t : Ty) (sp : SPat) (vm : VarMap) : Prop where
  fits : Fits D π sp t
  vars : vm.map Prod.fst = p.vars
  scope : ∀ b ∈ vm, b.2 = π ∨ b.2 ∈ sp.paths
  hit : ∀ v w, valueAt v π = some w → HasTy D w t → sp.matches w = true →
    ∃ ρ, bindings v vm = some ρ ∧ patMatch p w = some ρ
  miss : ∀ w, HasTy D w t → sp.matches w = false → patMatch p w = none

/-- The cells and the bindings of a tuple's components, from position `i`. -/
structure DoesPats (D : Data) (π : Path) (i : Nat) (ps : List Pat) (ts : List Ty) (sps : List (Path × SPat)) (vm : VarMap) :
    Prop where
  length : sps.length = ts.length
  paths : sps.map Prod.fst = (List.range' i ts.length).map π.extend
  fits : ∀ q ∈ sps.zip ts, Fits D q.1.1 q.1.2 q.2
  vars : vm.map Prod.fst = Pat.varsL ps
  scope : ∀ b ∈ vm, b.2 ∈ sps.map Prod.fst ∨ b.2 ∈ SPat.pathsL sps
  hit : ∀ v ws, List.Forall₂ (HasTy D) ws ts → (∀ j (h : j < ws.length), valueAt v (π.extend (i + j)) = some ws[j]) →
    SPat.matchesL sps ws = true → ∃ ρ, bindings v vm = some ρ ∧ patMatches ps ws = some ρ
  miss : ∀ ws, List.Forall₂ (HasTy D) ws ts → SPat.matchesL sps ws = false → patMatches ps ws = none

theorem bindings_append (v : Value) (vm vm' : VarMap) :
    bindings v (vm ++ vm') = (do
      let ρ ← bindings v vm
      let ρ' ← bindings v vm'
      some (ρ ++ ρ')) :=
  List.mapM_append

theorem union_eq {vm vm' : VarMap} (h : (vm.map Prod.fst ++ vm'.map Prod.fst).Nodup) : union vm vm' = .ok (vm ++ vm') := by
  refine if_neg fun hany => ?_
  obtain ⟨b, hb, hx⟩ := List.any_eq_true.1 hany
  obtain ⟨b', hb', heq⟩ := List.any_eq_true.1 hx
  have hd := (List.nodup_append.1 h).2.2 _ (List.mem_map_of_mem hb) _ (List.mem_map_of_mem hb')
  exact hd (of_decide_eq_true heq)

theorem doSubPats_spec {π : Path} {i : Nat} {ps : List Pat} {ts : List Ty} (hlen : ps.length = ts.length)
    (h : ∀ q ∈ ps.zip ts, q.1.vars.Nodup → ∀ π, ∃ sp vm, doPat D π q.1 = .ok (sp, vm) ∧ DoesPat D π q.1 q.2 sp vm)
    (hnd : (Pat.varsL ps).Nodup) :
    ∃ sps vm, doSubPats D π i ps = .ok (sps, vm) ∧ DoesPats D π i ps ts sps vm := by
  induction ps generalizing ts i with
  | nil =>
    cases ts with
    | cons => cases hlen
    | nil =>
      refine ⟨[], [], rfl, rfl, rfl, by simp, rfl, by simp, fun v ws hws _ _ => ?_, fun ws hws hm => ?_⟩
      · cases hws
        exact ⟨[], rfl, rfl⟩
      · cases hws
        cases hm
  | cons p ps ih =>
    cases ts with
    | nil => cases hlen
    | cons t ts =>
      obtain ⟨hp, hps, hdisj⟩ := List.nodup_append.1 hnd
      obtain ⟨sps, vm', heq', hd'⟩ := ih (i := i + 1) (Nat.succ.inj hlen) (fun q hq => h q (List.mem_cons_of_mem _ hq)) hps
      obtain ⟨sp, vm, heq, hd⟩ := h (p, t) List.mem_cons_self hp (π.extend i)
      have hu : union vm vm' = .ok (vm ++ vm') := union_eq (by rwa [hd.vars, hd'.vars])
      refine ⟨(π.extend i, sp) :: sps, vm ++ vm', ?_, ?_⟩
      · simp only [doSubPats, heq', heq, hu, ok_bind]
      · constructor
        case length => simp [hd'.length]
        case paths => simp [List.range'_succ, hd'.paths]
        case fits => exact List.forall_mem_cons.2 ⟨hd.fits, hd'.fits⟩
        case vars => simp [Pat.varsL, hd.vars, hd'.vars]
        case scope =>
          intro b hb
          simp only [List.map_cons, List.mem_cons, SPat.pathsL, List.mem_append]
          obtain hb | hb := List.mem_append.1 hb
          · exact (hd.scope b hb).imp .inl .inl
          · exact (hd'.scope b hb).imp .inr .inr
        case hit =>
          intro v ws hws hval hm
          cases hws with
          | @cons w _ ws _ hw hws =>
            rw [SPat.matchesL, Bool.and_eq_true] at hm
            obtain ⟨ρ, hb, hpm⟩ := hd.hit v w (hval 0 (Nat.succ_pos _)) hw hm.1
            obtain ⟨ρ', hb', hpm'⟩ := hd'.hit v ws hws (fun j hj => by
              have := hval (j + 1) (Nat.succ_lt_succ hj)
              rwa [show i + (j + 1) = i + 1 + j by omega] at this) hm.2
            exact ⟨ρ ++ ρ', by rw [bindings_append, hb, hb']; rfl, by rw [patMatches, hpm, hpm']; rfl⟩
        case miss =>
          intro ws hws hm
          cases hws with
          | @cons w _ ws _ hw hws =>
            rw [SPat.matchesL, Bool.and_eq_false_iff] at hm
            obtain hm | hm := hm
            · rw [patMatches, hd.miss w hw hm]
              rfl
            · rw [patMatches, hd'.miss ws hws hm]
              cases patMatch p w <;> rfl

theorem doPat_spec {p : Pat} {t : Ty} (hp : PatTy D p t) (hnd : p.vars.Nodup) (π : Path) :
    ∃ sp vm, doPat D π p = .ok (sp, vm) ∧ DoesPat D π p t sp vm := by
  induction hp generalizing π with
  | @conPat c tys p tyc l t hl hc hs hp ih =>
    obtain ⟨sp, vm, heq, hd⟩ := ih hnd (π.extend 0)
    refine ⟨.conApp c tys (π.extend 0) sp, vm, by simp only [doPat, hs, heq, ok_bind],
      .conApp hl hc hs hd.fits, hd.vars, fun b hb => .inr (List.mem_cons.2 (hd.scope b hb)), fun v w hv hw hm => ?_,
      fun w hw hm => ?_⟩
    · cases w with
      | conApp c' u =>
        simp only [SPat.matches, Bool.and_eq_true] at hm
        cases hw with
        | conApp hl' hc' hs' hu =>
          rw [hl] at hl'
          cases hl'
          cases eq_of_same hl hc hc' hm.1
          rw [hs] at hs'
          cases hs'
          obtain ⟨ρ, hb, hpm⟩ := hd.hit v u (valueAt_extend hv 0) hu hm.2
          exact ⟨ρ, hb, by rw [patMatch, if_pos hm.1, hpm]⟩
        | flat hf => exact (hf.not_datatype hl).elim
      | _ => cases hm
    · cases w with
      | conApp c' u =>
        simp only [SPat.matches, Bool.and_eq_false_iff] at hm
        rw [patMatch]
        by_cases hsame : c.same c' = true
        · rw [if_pos hsame]
          cases hw with
          | conApp hl' hc' hs' hu =>
            rw [hl] at hl'
            cases hl'
            cases eq_of_same hl hc hc' hsame
            rw [hs] at hs'
            cases hs'
            exact hd.miss u hu (hm.resolve_left (by simp [hsame]))
          | flat hf => exact (hf.not_datatype hl).elim
        · rw [if_neg hsame]
      | con | tuple | lit | other => simp [patMatch]
  | @tuplePat ps ts hlen hall ih =>
    obtain ⟨sps, vm, heq, hd⟩ := doSubPats_spec (π := π) (i := 0) hlen ih hnd
    refine ⟨.tuple sps, vm, by simp only [doPat, heq, ok_bind],
      .tuple hd.length (by rw [hd.paths, List.range_eq_range']) hd.fits, hd.vars,
      fun b hb => .inr (List.mem_append.2 (hd.scope b hb)), fun v w hv hw hm => ?_,
      fun w hw hm => ?_⟩
    · cases w with
      | tuple ws =>
        cases hw with
        | tuple hlen' hall' =>
          refine hd.hit v ws (List.forall₂_iff_zip.2 ⟨hlen', fun hab => hall' _ hab⟩) (fun j hj => ?_) hm
          rw [valueAt_extend hv, Nat.zero_add]
          exact List.getElem?_eq_getElem hj
        | flat hf => exact hf.elim
      | _ => cases hm
    · cases w with
      | tuple ws =>
        cases hw with
        | tuple hlen' hall' => exact hd.miss ws (List.forall₂_iff_zip.2 ⟨hlen', fun hab => hall' _ hab⟩) hm
        | flat hf => exact hf.elim
      | con | conApp | lit | other => simp [patMatch]
  | varPat x t =>
    refine ⟨.wild, [(x, π)], rfl, .wild, rfl, by simp, fun v w hv _ _ => ⟨[(x, w)], ?_, by rw [patMatch]⟩,
      fun w _ hm => by cases hm⟩
    simp [bindings, hv]
  | wildPat ty t =>
    exact ⟨.wild, [], rfl, .wild, rfl, by simp, fun v w _ _ _ => ⟨[], rfl, by rw [patMatch]⟩, fun w _ hm => by cases hm⟩
  | @dConst c tys tyc l hl hc hn =>
    refine ⟨.con c tys, [], rfl, .con hl hc hn, rfl, by simp, fun v w _ _ hm => ⟨[], rfl, ?_⟩, fun w _ hm => ?_⟩
    · cases w with
      | con c' =>
        rw [patMatch]
        exact if_pos hm
      | _ => cases hm
    · cases w with
      | con c' =>
        rw [patMatch]
        exact if_neg (Bool.eq_false_iff.1 hm)
      | conApp | tuple | lit | other => simp [patMatch]
  | @lConst l ty t hf =>
    refine ⟨.lit l ty, [], rfl, .lit hf, rfl, by simp, fun v w _ _ hm => ⟨[], rfl, ?_⟩, fun w _ hm => ?_⟩
    · cases w with
      | lit l' =>
        rw [patMatch]
        exact if_pos (of_decide_eq_true hm)
      | _ => cases hm
    · cases w with
      | lit l' =>
        rw [patMatch]
        exact if_neg (of_decide_eq_false hm)
      | con | conApp | tuple | other => simp [patMatch]

/-! ## Rules -/

/-- The outcome of the first-match semantics; rule `i` has the final state with id `i + 1`. -/
def Outcome.ofSelect : Option (Nat × E × Env) → Outcome E
  | some (i, e, ρ) => .final (i + 1) e ρ
  | none => .error

theorem doRule_spec (dfa : Dfa E) {rule : Rule E} {t : Ty} (hp : PatTy D rule.pat t) (hnd : rule.pat.vars.Nodup) :
    ∃ sp vm, doRule D dfa rule = .ok (⟨vm, [sp], rule.cond.map (rule.pat.vars, ·),
        .final dfa.idCnt rule.pat.vars rule.act⟩, (mkFinal dfa rule.pat.vars rule.act).2) ∧
      DoesPat D (.root dfa.arg) rule.pat t sp vm := by
  obtain ⟨sp, vm, heq, hd⟩ := doPat_spec hp hnd (.root dfa.arg)
  refine ⟨sp, vm, ?_, hd⟩
  simp only [doRule, heq, ok_bind]
  rfl

/-- The rows of the rules from `i` on, in a list of rules. -/
structure DoesRules (D : Data) (arg : Var) (t : Ty) (all : List (Rule E)) (i : Nat) (rules : List (Rule E))
    (rows : List (Row E)) : Prop where
  length : rows.length = rules.length
  ok : ∀ row ∈ rows, RowOk D all [.root arg] [(.root arg, t)] row
  run : ∀ truth v, HasTy D v t → rowsRun truth v [v] rows = .ofSelect (select truth i rules v)

theorem DoesRules.cons {arg : Var} {t : Ty} {all : List (Rule E)} {i : Nat} {rule : Rule E} {rules : List (Rule E)}
    {rows : List (Row E)} {sp : SPat} {vm : VarMap} (hi : all[i]? = some rule)
    (hd : DoesPat D (.root arg) rule.pat t sp vm) (h : DoesRules D arg t all (i + 1) rules rows) :
    DoesRules D arg t all i (rule :: rules) (⟨vm, [sp], rule.cond.map (rule.pat.vars, ·),
      .final (i + 1) rule.pat.vars rule.act⟩ :: rows) where
  length := congrArg (· + 1) h.length
  ok := by
    refine List.forall_mem_cons.2 ⟨⟨.cons hd.fits .nil, .inl ⟨i, rule, hi, rfl, hd.vars, ?_⟩, fun b hb => ?_⟩, h.ok⟩
    · cases rule.cond <;> rfl
    · exact (hd.scope b hb).imp (by simp [·]) (by simpa [cellPaths] using ·)
  run truth v hv := by
    rw [rowsRun, select]
    cases hm : sp.matches v with
    | true =>
      obtain ⟨ρ, hb, hp⟩ := hd.hit v v rfl hv hm
      rw [if_pos (show CellsMatch [sp] [v] from .cons hm .nil), hb, hp]
      have hcond : (rule.cond.map (rule.pat.vars, ·)).all (fun c => truth c.2 ρ) = rule.cond.all (truth · ρ) := by
        cases rule.cond <;> rfl
      simp only [hcond]
      split
      · rfl
      · exact h.run truth v hv
    | false =>
      rw [if_neg fun hx => by cases hx with | cons hx _ => rw [hm] at hx; cases hx]
      rw [hd.miss v hv hm]
      exact h.run truth v hv

theorem doRules_spec {t : Ty} {all : List (Rule E)} {i : Nat} {rules : List (Rule E)} (hall : all.drop i = rules)
    (hr : ∀ rule ∈ rules, PatTy D rule.pat t ∧ rule.pat.vars.Nodup) (dfa : Dfa E) (hi : dfa.idCnt = i + 1) :
    ∃ rows dfa', doRules D dfa rules = .ok (rows, dfa') ∧ dfa'.arg = dfa.arg ∧ dfa'.err = dfa.err ∧
      dfa'.refCnt = dfa.refCnt ∧ dfa'.idCnt = i + rules.length + 1 ∧ DoesRules D dfa.arg t all i rules rows := by
  induction rules generalizing dfa i with
  | nil => exact ⟨[], dfa, rfl, rfl, rfl, rfl, hi, rfl, by simp, fun _ _ _ => rfl⟩
  | cons rule rules ih =>
    obtain ⟨hp, hnd⟩ := hr rule List.mem_cons_self
    obtain ⟨sp, vm, heq, hd⟩ := doRule_spec dfa hp hnd
    have hget : all[i]? = some rule := by rw [← Nat.add_zero i, ← List.getElem?_drop, hall]; rfl
    have hdrop : all.drop (i + 1) = rules := by rw [← List.tail_drop, hall]; rfl
    obtain ⟨rows, dfa', heq', harg, herr, hrc, hcnt, hrows⟩ := @ih (i + 1) hdrop
      (fun r h => hr r (List.mem_cons_of_mem _ h)) (mkFinal dfa rule.pat.vars rule.act).2 (by rw [← hi]; rfl)
    exact ⟨_, dfa', by simp only [doRules, heq, heq', ok_bind], harg, herr, hrc, by rw [hcnt, List.length_cons]; omega,
      hi ▸ hrows.cons hget hd⟩

/-- The automaton of a rule list. -/
structure Built (D : Data) (x : Var) (t : Ty) (rules : List (Rule E)) (dfa : Dfa E) : Prop where
  arg : dfa.arg = x
  run : ∀ truth v, HasTy D v t → dfa.root.run truth v = .ofSelect (select truth 0 rules v)
  shape : Shape rules [.root x] dfa.root
  inner : Inner rules.length dfa dfa.root

theorem rulesToDFA_built {arg : Var} {t : Ty} {rules : List (Rule E)} (hne : rules ≠ [])
    (hr : ∀ rule ∈ rules, PatTy D rule.pat t ∧ rule.pat.vars.Nodup) :
    ∃ dfa, Returns (fun n => rulesToDFA D n arg rules) dfa ∧ Built D arg t rules dfa := by
  obtain ⟨rows, dfa, heq, harg, herr, hrc, hcnt, hd⟩ := doRules_spec (i := 0) (List.drop_zero (l := rules)) hr (mkDFA arg) rfl
  have hrows : rows ≠ [] := by
    rintro rfl
    exact hne (List.length_eq_zero_iff.1 hd.length.symm)
  have hstep : step1 D (mkDFA arg) rules = .ok (⟨rows, [.root arg]⟩, dfa) := by
    rw [step1, heq, ok_bind]
    cases rows with
    | nil => exact absurd rfl hrows
    | cons row rows => simp only [harg]; rfl
  have hcounted : Counted rules.length dfa := ⟨by omega, fun id _ => by rw [hrc]; rfl⟩
  obtain ⟨q, dfa', hret, hg⟩ := @genDFA_returns E D [(.root arg, t)] rules [.root arg] ⟨rows, [.root arg]⟩ dfa rfl
    (by simp) hd.ok hrows herr hcounted
  refine ⟨setInitialState dfa' q, ?_, hg.later.arg.trans harg, fun truth v hv => ?_, hg.shape,
    hg.inner.later (Nat.le_refl _) fun id hm _ hone => ?_⟩
  · simp only [rulesToDFA, hstep, ok_bind, step2]
    exact hret.bind (.pure _)
  · exact (hg.runs truth v [v] (.cons ⟨rfl, hv⟩ .nil)).trans (hd.run truth v hv)
  · by_cases h : id = q.id
    · subst h
      exact (inc_self dfa' q).trans_le (by rw [(hg.unused hm).2])
    · exact (inc_ne dfa' h).trans_le hone

/-- On every argument the automaton ends in the final state of the first rule that applies,
    with its bindings, and in the error state when there is none. -/
theorem rulesToDFA_correct (D : Data) (arg : Var) (t : Ty) (rules : List (Rule E)) (hne : rules ≠ [])
    (hr : ∀ rule ∈ rules, PatTy D rule.pat t ∧ rule.pat.vars.Nodup) :
    ∃ dfa, Returns (fun n => rulesToDFA D n arg rules) dfa ∧
      ∀ truth v, HasTy D v t → dfa.root.run truth v = .ofSelect (select truth 0 rules v) :=
  let ⟨dfa, hret, hb⟩ := rulesToDFA_built hne hr
  ⟨dfa, hret, hb.run⟩

/-! ## An option type -/

def optionTyc : TyCon := ⟨20⟩
def noneCon : DCon := ⟨0, optionTyc, none⟩
def someCon : DCon := ⟨1, optionTyc, some (.varTy ⟨0⟩)⟩

def optionData : Data where
  params _ := [⟨0⟩]
  cons tyc := if tyc = optionTyc then some [noneCon, someCon] else none
  ids tyc l hl := by
    split at hl
    next h =>
      cases hl
      subst h
      intro i hi
      match i, hi with
      | 0, _ => exact ⟨rfl, rfl⟩
      | 1, _ => exact ⟨rfl, rfl⟩
    · cases hl

/-- `of (SOME x, 1) where c => a | (NONE, _) => b | (SOME y, _) => d`, with the guard and
    the actions numbered. -/
def optionRules : List (Rule Nat) :=
  [.condMatch (.tuplePat [.conPat someCon [intTy] (.varPat ⟨1⟩), .constPat (.lConst (.int 1) intTy)]) 0 1,
    .patMatch (.tuplePat [.constPat (.dConst noneCon [intTy]), .wildPat intTy]) 2,
    .patMatch (.tuplePat [.conPat someCon [intTy] (.varPat ⟨2⟩), .wildPat intTy]) 3]
where
  intTy : Ty := .conTy [] intTyc

theorem rulesToDFA_correct_option :
    ∃ dfa, Returns (fun n => rulesToDFA optionData n ⟨0⟩ optionRules) dfa ∧ ∀ truth v,
      HasTy optionData v (.tupleTy [.conTy [.conTy [] intTyc] optionTyc, .conTy [] intTyc]) →
        dfa.root.run truth v = .ofSelect (select truth 0 optionRules v) := by
  have hcons : optionData.cons optionTyc = some [noneCon, someCon] := rfl
  have hsome : ∀ x, PatTy optionData (.conPat someCon [.conTy [] intTyc] (.varPat x))
      (.conTy [.conTy [] intTyc] optionTyc) := fun x => .conPat hcons (by simp) rfl (.varPat x _)
  refine rulesToDFA_correct optionData ⟨0⟩ _ optionRules (by simp [optionRules]) ?_
  simp only [optionRules, List.forall_mem_cons, Rule.pat, Pat.vars, Pat.varsL]
  refine ⟨⟨.tuplePat rfl ?_, by simp⟩, ⟨.tuplePat rfl ?_, by simp⟩, ⟨.tuplePat rfl ?_, by simp⟩, by simp⟩
  · exact List.forall_mem_cons.2 ⟨hsome _, List.forall_mem_cons.2 ⟨.lConst rfl, by simp⟩⟩
  · exact List.forall_mem_cons.2 ⟨.dConst hcons (by simp) rfl, List.forall_mem_cons.2 ⟨.wildPat _ _, by simp⟩⟩
  · exact List.forall_mem_cons.2 ⟨hsome _, List.forall_mem_cons.2 ⟨.wildPat _ _, by simp⟩⟩

end Manticore.Match
