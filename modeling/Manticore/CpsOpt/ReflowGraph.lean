/-
  Manticore.CpsOpt.ReflowGraph — the neighbour map that `addNeighbors` leaves.

  `Does` says what a part of the traversal does to the state: which points it touches, which
  entries it completes and which scopes it adds. One lemma for each function of the pass gives
  its `Does`, and `does_doExp` puts them together: after the traversal every expression of the
  module has the entry its form calls for (`EntryOk`).
-/

import Manticore.CpsOpt.Reflow

namespace Manticore.Cps.Reflow

open List (mem_singleton mem_append mem_cons foldr_cons mem_cons_self map_append mem_map_of_mem)

variable {pts : List Ppt}

/-! ## Maps -/

theorem get_insert {α : Type} (m : PMap α) (k a : Ppt) (v : α) :
    (m.insert k v)[a]? = if k = a then some v else m[a]? := by
  rw [Std.TreeMap.getElem?_insert]
  simp only [Nat.compare_eq_eq]

@[simp] theorem get_empty {α : Type} (a : Ppt) : (∅ : PMap α)[a]? = none := Std.TreeMap.getElem?_emptyc

/-! ## Locations -/

/-- The lambdas bound in a list of expressions. -/
def lams (es : List Exp) : List Lambda := es.flatMap Exp.fbs

@[simp] theorem mem_lams {fb : Lambda} {es : List Exp} : fb ∈ lams es ↔ ∃ e ∈ es, fb ∈ e.fbs := by
  simp [lams]

/-- The body locations after a traversal that meets the lambdas `fbs`; the rest of the graph state
    is as before. -/
structure Located (s s' : St) (fbs : List Lambda) : Prop where
  map : s'.map = s.map
  ptlist : s'.ptlist = s.ptlist
  next : s'.next = s.next
  body : ∀ g, (∃ fb ∈ fbs, fb.f = g ∧ s'.body g = some fb.body.ppt) ∨
    ((∀ fb ∈ fbs, fb.f ≠ g) ∧ s'.body g = s.body g)

theorem Located.refl (s : St) : Located s s [] := ⟨rfl, rfl, rfl, fun _ => .inr ⟨by simp, rfl⟩⟩

theorem Located.trans {s s' s'' : St} {fbs fbs' : List Lambda} (h : Located s s' fbs) (g : Located s' s'' fbs') :
    Located s s'' (fbs ++ fbs') where
  map := g.map.trans h.map
  ptlist := g.ptlist.trans h.ptlist
  next := g.next.trans h.next
  body x := by
    rcases g.body x with ⟨fb, hfb, hx, hb⟩ | ⟨hx', hb'⟩
    · exact .inl ⟨fb, List.mem_append_right _ hfb, hx, hb⟩
    · rcases h.body x with ⟨fb, hfb, hx, hb⟩ | ⟨hx, hb⟩
      · exact .inl ⟨fb, List.mem_append_left _ hfb, hx, hb'.trans hb⟩
      grind

theorem Located.perm {s s' : St} {fbs fbs' : List Lambda} (h : Located s s' fbs) (hp : ∀ fb, fb ∈ fbs ↔ fb ∈ fbs') :
    Located s s' fbs' := by
  refine ⟨h.map, h.ptlist, h.next, fun g => ?_⟩
  rcases h.body g with ⟨fb, hfb, hb⟩ | ⟨hx, hb⟩
  · exact .inl ⟨fb, (hp fb).mp hfb, hb⟩
  · exact .inr ⟨fun fb hfb => hx fb ((hp fb).mpr hfb), hb⟩

theorem located_bindings (loc : Ppt) : ∀ (xs : List Var) (s : St),
    Located s (xs.foldl (fun s x => setBindingLocation s x loc) s) []
  | [], s => .refl s
  | x :: xs, s => by
    have h : Located s (setBindingLocation s x loc) [] := ⟨rfl, rfl, rfl, fun _ => .inr ⟨by simp, rfl⟩⟩
    exact h.trans (located_bindings loc xs _)

/-- Entering a lambda records its body. -/
theorem located_lambda (s : St) (pt : Ppt) (f : Var) (ps rs : List Var) (body : Exp) :
    Located s (rs.foldl (fun s x => setBindingLocation s x body.ppt) (ps.foldl (fun s x => setBindingLocation s x body.ppt)
      (setBodyLocation (setBindingLocation s f pt) f body.ppt))) [.fb f ps rs body] := by
  have h : Located s (setBodyLocation (setBindingLocation s f pt) f body.ppt) [.fb f ps rs body] := by
    refine ⟨rfl, rfl, rfl, fun g => ?_⟩
    by_cases hg : g = f
    · exact .inl ⟨_, mem_singleton.mpr rfl, hg.symm, by simp [setBodyLocation, hg]⟩
    simp [setBodyLocation, setBindingLocation, setRebindingLocation, hg, Ne.symm]
  simpa using (h.trans (located_bindings body.ppt ps _)).trans (located_bindings body.ppt rs _)

namespace SetLocations

mutual

theorem located_exp : ∀ (e : Exp) (s : St), Located s (doExp s e) (lams e.subs)
  | .let_ pt xs rhs e, s => by
    have h := (located_bindings pt xs s).trans (located_exp e _)
    simpa [doExp, Exp.subs, lams, Exp.fbs] using h
  | .fun_ pt fbs e, s => by
    have h := (located_lambdas fbs s pt).trans (located_exp e (doLambdas s pt fbs))
    rw [doExp]
    refine h.perm fun fb => ?_
    simp only [mem_append, mem_lams, Exp.subs, mem_cons]
    grind [Exp.fbs]
  | .cont pt fb e, s => by
    have h := (located_lambda' fb s pt).trans (located_exp e (doLambda s pt fb))
    rw [doExp]
    refine h.perm fun fb' => ?_
    simp only [mem_append, mem_lams, Exp.subs, mem_cons]
    grind [Exp.fbs]
  | .if_ pt c e₁ e₂, s => by
    have h := (located_exp e₁ s).trans (located_exp e₂ (doExp s e₁))
    rw [doExp]
    refine h.perm fun fb => ?_
    simp only [mem_append, mem_lams, Exp.subs, mem_cons]
    grind [Exp.fbs]
  | .switch pt x cases dflt, s => by
    have h := (located_cases cases s).trans (located_dflt dflt (doCases s cases))
    rw [doExp]
    refine h.perm fun fb => ?_
    simp only [mem_append, mem_lams, Exp.subs, mem_cons]
    grind [Exp.fbs]
  | .apply pt f xs rs, s => by simpa [doExp, Exp.subs, lams, Exp.fbs] using Located.refl s
  | .throw pt k xs, s => by simpa [doExp, Exp.subs, lams, Exp.fbs] using Located.refl s

theorem located_lambda' : ∀ (fb : Lambda) (s : St) (pt : Ppt), Located s (doLambda s pt fb) (fb :: lams fb.subs)
  | .fb f ps rs body, s, pt => (located_lambda s pt f ps rs body).trans (located_exp body _)

theorem located_lambdas : ∀ (fbs : List Lambda) (s : St) (pt : Ppt),
    Located s (doLambdas s pt fbs) (fbs ++ lams (subsFBs fbs))
  | [], s, pt => by simpa [doLambdas, subsFBs, lams] using Located.refl s
  | fb :: fbs, s, pt => by
    have h := (located_lambda' fb s pt).trans (located_lambdas fbs (doLambda s pt fb) pt)
    rw [doLambdas]
    refine h.perm fun fb' => ?_
    simp only [mem_append, mem_lams, subsFBs, mem_cons]
    grind

theorem located_cases : ∀ (cases : List (Nat × Exp)) (s : St), Located s (doCases s cases) (lams (subsCases cases))
  | [], s => by simpa [doCases, subsCases, lams] using Located.refl s
  | (n, e) :: cases, s => by
    have h := (located_exp e s).trans (located_cases cases (doExp s e))
    rw [doCases]
    refine h.perm fun fb => ?_
    simp only [mem_append, mem_lams, subsCases]
    grind

theorem located_dflt : ∀ (dflt : Option Exp) (s : St), Located s (doDflt s dflt) (lams (subsDflt dflt))
  | none, s => by simpa [doDflt, subsDflt, lams] using Located.refl s
  | some e, s => located_exp e s

end

end SetLocations

/-- Two lambdas of one name are the same. -/
theorem eq_of_name {fbs : List Lambda} (hn : (fbs.map Lambda.f).Nodup) {fb fb' : Lambda} (h : fb ∈ fbs) (h' : fb' ∈ fbs)
    (hf : fb.f = fb'.f) : fb = fb' := List.inj_on_of_nodup_map hn h h' hf

/-- After the first traversal the body locations are those of the module's lambdas. -/
theorem body_setLocations {m : Module} (hm : m.UniquePoints) (n : Ppt) (g : Var) (p : Ppt) :
    (setLocations (.start n) m).body g = some p ↔ ∃ fb ∈ m.lambdas, fb.f = g ∧ fb.body.ppt = p := by
  have h := SetLocations.located_lambda' m.body { St.start n with next := (St.start n).next + 1 } (St.start n).next
  have hl : m.body :: lams m.body.subs = m.lambdas := rfl
  rw [hl] at h
  constructor
  · intro hp
    rcases h.body g with ⟨fb, hfb, hf, hb⟩ | ⟨-, hb⟩
    · refine ⟨fb, hfb, hf, ?_⟩
      exact Option.some.inj (hb.symm.trans hp)
    · cases hb.symm.trans hp
  · rintro ⟨fb, hfb, hf, hp⟩
    rcases h.body g with ⟨fb', hfb', hf', hb⟩ | ⟨hne, -⟩
    · rw [eq_of_name hm.names hfb hfb' (hf.trans hf'.symm)] at hp
      exact hb.trans (congrArg some hp)
    · exact absurd hf (hne fb hfb)

/-! ## Neighbours -/

/-- The scope of a binding of functions or continuations with unknown callers. -/
def unknownScope (cfa : Cfa) : Exp → Option Ppt
  | .fun_ _ fbs e => if fbs.any (isUnknown cfa) then some e.ppt else none
  | .cont _ fb e => if isUnknown cfa fb then some e.ppt else none
  | _ => none

/-- The targets of a call that the pass visits: those up to the first closure. -/
def visited (env : Var → List Var) (orig : Var) : List Var → List Var
  | [] => []
  | f :: fs => if f = orig ∨ env f = [] then f :: visited env orig fs else [f]

def Edge (s : St) (p q : Ppt) : Prop := ∃ ps, s.map[p]? = some (.reaches ps) ∧ q ∈ ps

/-- The successors recorded for a point. -/
def HasOut (s : St) (p : Ppt) (ps : PSet) : Prop := s.map[p]? = if ps = ∅ then none else some (.reaches ps)

variable {s : St} {p : Ppt} {ps : PSet}

theorem HasOut.edge_iff {q : Ppt} (h : HasOut s p ps) : Edge s p q ↔ q ∈ ps := by
  unfold HasOut at h
  constructor
  · rintro ⟨qs, hqs, hq⟩
    rw [hqs] at h
    split at h
    · cases h
    · cases h
      exact hq
  · intro hq
    rw [if_neg (Finset.ne_empty_of_mem hq)] at h
    exact ⟨ps, h, hq⟩

theorem HasOut.not_top (h : HasOut s p ps) : s.map[p]? ≠ some .top := by
  unfold HasOut at h
  rw [h]
  split <;> simp

theorem HasOut.congr {s' : St} (h : HasOut s p ps) (hp : s'.map[p]? = s.map[p]?) : HasOut s' p ps := hp.trans h

theorem addInfo_frame (s : St) {q a : Ppt} (h : a ≠ p) : (addInfo s p q).map[a]? = s.map[a]? := by
  unfold addInfo
  split <;> simp [get_insert, Ne.symm h]

theorem HasOut.addInfo (h : HasOut s p ps) (q : Ppt) : HasOut (Reflow.addInfo s p q) p (insert q ps) := by
  unfold HasOut at h ⊢
  unfold Reflow.addInfo
  rw [if_neg (Finset.insert_ne_empty q ps)]
  by_cases hps : ps = ∅
  · rw [if_pos hps] at h
    simp [h, hps]
  · rw [if_neg hps] at h
    simp [h]

@[simp] theorem addInfo_next (s : St) (p q : Ppt) : (addInfo s p q).next = s.next := by
  unfold addInfo
  split <;> rfl

@[simp] theorem addInfo_body (s : St) (p q : Ppt) : (addInfo s p q).body = s.body := by
  unfold addInfo
  split <;> rfl

@[simp] theorem addInfo_ptlist (s : St) (p q : Ppt) : (addInfo s p q).ptlist = s.ptlist := by
  unfold addInfo
  split <;> rfl

section

variable (cfa : Cfa) (env : Var → List Var) (n : Ppt)

/-- A successor of a call: the body of a visited target, or a fabricated point before it. -/
def Target (s : St) (gs : List Var) (q : Ppt) : Prop :=
  (∃ g ∈ gs, s.body g = some q) ∨
    n ≤ q ∧ q < s.next ∧ s.map[q]? ≠ some .top ∧ ∃ g ∈ gs, ∀ r, Edge s q r → s.body g = some r

/-- The body of `g` is reached from `p`, at once or through a fabricated point. -/
def Reaching (s : St) (p : Ppt) (g : Var) : Prop :=
  ∃ b, s.body g = some b ∧ (Edge s p b ∨ ∃ x, n ≤ x ∧ x < s.next ∧ Edge s p x ∧ Edge s x b)

/-- The map has the right entry for an expression. -/
structure EntryOk (s : St) (e : Exp) : Prop where
  top : s.map[e.ppt]? = some .top ↔ ∃ f, e.called = some f ∧ cfa.valueOf f = .top
  next : ∀ q ∈ e.next, Edge s e.ppt q
  only : ∀ q, Edge s e.ppt q → q ∈ e.next ∨
    ∃ f fs, e.called = some f ∧ cfa.valueOf f = .lambdas fs ∧ Target n s (visited env f fs) q
  calls : ∀ f fs, e.called = some f → cfa.valueOf f = .lambdas fs → ∀ g ∈ visited env f fs, Reaching n s e.ppt g

/-- Points from `n` on are fabricated; those from `next` on are unused. -/
structure Good (s : St) : Prop where
  le : n ≤ s.next
  unused : ∀ x, s.next ≤ x → s.map[x]? = none
  bodies : ∀ g p, s.body g = some p → p < s.next

/-- What a part of the traversal does: it touches the points `pts`, completes the entries of `es`
    and adds the scopes `qs`. -/
structure Does (pts : List Ppt) (es : List Exp) (qs : List Ppt) (s s' : St) : Prop where
  good : Good n s'
  next : s.next ≤ s'.next
  frame : ∀ p, p < s.next → p ∉ pts → s'.map[p]? = s.map[p]?
  body : ∀ g p, s.body g = some p → s'.body g = some p
  junk : ∀ g p, s'.body g = some p → s.body g = some p ∨ n ≤ p ∧ p < s'.next ∧ s'.map[p]? = none
  entries : ∀ e ∈ es, EntryOk cfa env n s' e
  ptlist : ∀ q, q ∈ s'.ptlist ↔ q ∈ s.ptlist ∨ q ∈ qs

end

section

variable {cfa : Cfa} {env : Var → List Var} {n : Ppt} {s s' s'' : St}

theorem Edge.congr {p q : Ppt} (hp : s'.map[p]? = s.map[p]?) : Edge s' p q ↔ Edge s p q := by
  unfold Edge
  rw [hp]

/-- An entry survives later steps that leave its point and the fabricated points alone. -/
theorem EntryOk.mono {e : Exp} (h : EntryOk cfa env n s e) (hp : s'.map[e.ppt]? = s.map[e.ppt]?)
    (hx : ∀ x, n ≤ x → x < s.next → s'.map[x]? = s.map[x]?) (hb : ∀ g p, s.body g = some p → s'.body g = some p)
    (hn : s.next ≤ s'.next) : EntryOk cfa env n s' e where
  top := hp ▸ h.top
  next q hq := (Edge.congr hp).mpr (h.next q hq)
  only q hq := by
    rcases h.only q ((Edge.congr hp).mp hq) with hq | ⟨f, fs, hf, hfs, ht⟩
    · exact .inl hq
    · refine .inr ⟨f, fs, hf, hfs, ?_⟩
      rcases ht with ⟨g, hg, hgb⟩ | ⟨h₁, h₂, h₃, g, hg, hr⟩
      · exact .inl ⟨g, hg, hb g q hgb⟩
      · refine .inr ⟨h₁, by lia, by rwa [hx q h₁ h₂], g, hg, fun r hr' => ?_⟩
        exact hb g r (hr r ((Edge.congr (hx q h₁ h₂)).mp hr'))
  calls f fs hf hfs g hg := by
    obtain ⟨b, hgb, hr⟩ := h.calls f fs hf hfs g hg
    refine ⟨b, hb g b hgb, ?_⟩
    rcases hr with hr | ⟨x, h₁, h₂, hr, hr'⟩
    · exact .inl ((Edge.congr hp).mpr hr)
    · exact .inr ⟨x, h₁, by lia, (Edge.congr hp).mpr hr, (Edge.congr (hx x h₁ h₂)).mpr hr'⟩

variable (cfa env) in
theorem Does.refl (h : Good n s) : Does cfa env n [] [] [] s s :=
  ⟨h, Nat.le_refl _, fun _ _ _ => rfl, fun _ _ h => h, fun _ _ h => .inl h, by simp, by simp⟩

theorem Does.trans {pts' : List Ppt} {es es' : List Exp} {qs qs' : List Ppt} (h : Does cfa env n pts es qs s s')
    (g : Does cfa env n pts' es' qs' s' s'') (hpts : ∀ p ∈ pts', p < n) (hes : ∀ e ∈ es, e.ppt < n ∧ e.ppt ∉ pts') :
    Does cfa env n (pts ++ pts') (es ++ es') (qs ++ qs') s s'' where
  good := g.good
  next := h.next.trans g.next
  frame p hp hnp := by
    rw [mem_append, not_or] at hnp
    rw [g.frame p (by have := h.next; lia) hnp.2, h.frame p hp hnp.1]
  body f p hp := g.body f p (h.body f p hp)
  junk f p hp := by
    rcases g.junk f p hp with hp | hp
    · rcases h.junk f p hp with hp | ⟨h₁, h₂, h₃⟩
      · exact .inl hp
      · refine .inr ⟨h₁, by have := g.next; lia, ?_⟩
        rw [g.frame p h₂ fun hm => by have := hpts p hm; lia, h₃]
    · exact .inr hp
  entries e he := by
    rcases mem_append.mp he with he | he
    · have hlt := (hes e he).1
      have hle := h.good.le
      refine (h.entries e he).mono (g.frame _ (by lia) (hes e he).2) (fun x hx hx' => ?_) g.body g.next
      exact g.frame x hx' fun hm => by have := hpts x hm; lia
    · exact g.entries e he
  ptlist q := by rw [g.ptlist, h.ptlist, mem_append, or_assoc]

/-- The entry of the expression itself is complete. -/
theorem Does.finish {es : List Exp} {qs : List Ppt} {e : Exp} (h : Does cfa env n pts es qs s s')
    (he : EntryOk cfa env n s' e) : Does cfa env n pts (e :: es) qs s s' :=
  { h with
    entries := fun e' he' => by
      rcases mem_cons.mp he' with rfl | he'
      · exact he
      · exact h.entries e' he' }

theorem Does.congr {pts' : List Ppt} {es es' : List Exp} {qs qs' : List Ppt} (h : Does cfa env n pts es qs s s')
    (hp : ∀ p, p ∈ pts → p ∈ pts') (he : ∀ e, e ∈ es' → e ∈ es) (hq : ∀ q, q ∈ qs ↔ q ∈ qs') :
    Does cfa env n pts' es' qs' s s' :=
  { h with
    frame := fun p hlt hn => h.frame p hlt fun hm => hn (hp p hm)
    entries := fun e hm => h.entries e (he e hm)
    ptlist := fun q => by rw [h.ptlist, hq] }

variable (cfa env) in
theorem does_addInfo (h : Good n s) {p : Ppt} (hp : p < s.next) (q : Ppt) : Does cfa env n [p] [] [] s (addInfo s p q) where
  good := ⟨by simpa using h.le, fun x hx => by
    rw [addInfo_next] at hx
    rw [addInfo_frame s (by lia), h.unused x hx], by simpa using h.bodies⟩
  next := by simp
  frame a _ ha := addInfo_frame s (by simpa using ha)
  body g b hb := by simpa using hb
  junk g b hb := .inl (by simpa using hb)
  entries := by simp
  ptlist := by simp

variable (cfa env) in
/-- Taking a new point. -/
theorem does_newPoint (h : Good n s) : Does cfa env n [] [] [] s { s with next := s.next + 1 } where
  good := ⟨Nat.le_succ_of_le h.le, fun x hx => h.unused x (by have : s.next + 1 ≤ x := hx; lia),
    fun g p hp => Nat.lt_succ_of_lt (h.bodies g p hp)⟩
  next := Nat.le_succ _
  frame _ _ _ := rfl
  body _ _ hp := hp
  junk _ _ hp := .inl hp
  entries := by simp
  ptlist := by simp

variable (cfa env) in
theorem does_bodyLocation (h : Good n s) (f : Var) : Does cfa env n [] [] [] s (bodyLocation s f).2 ∧
    (bodyLocation s f).2.body f = some (bodyLocation s f).1 ∧ (bodyLocation s f).2.map = s.map ∧
    ∀ g p, (bodyLocation s f).2.body g = some p → s.body g = some p ∨ s.next ≤ p := by
  unfold bodyLocation
  cases hb : s.body f with
  | some p => exact ⟨.refl cfa env h, hb, rfl, fun _ _ h => .inl h⟩
  | none =>
    have hnew := does_newPoint cfa env h
    have hbody : ∀ g p, (if g = f then some s.next else s.body g) = some p → s.body g = some p ∨ p = s.next := by
      grind
    refine ⟨⟨⟨hnew.good.le, hnew.good.unused, fun g p hp => ?_⟩, hnew.next, hnew.frame, fun g p hp => ?_,
      fun g p hp => ?_, by simp, by simp [setBodyLocation]⟩, by simp [setBodyLocation], rfl, fun g p hp => ?_⟩
    · show p < s.next + 1
      rcases hbody g p hp with hp | rfl
      · exact Nat.lt_succ_of_lt (h.bodies g p hp)
      · exact Nat.lt_succ_self _
    · have hg : g ≠ f := fun hg => by rw [hg, hb] at hp; cases hp
      simpa [setBodyLocation, hg] using hp
    · rcases hbody g p hp with hp | rfl
      · exact .inl hp
      · exact .inr ⟨h.le, Nat.lt_succ_self _, h.unused _ (Nat.le_refl _)⟩
    · rcases hbody g p hp with hp | rfl
      · exact .inl hp
      · exact .inr (Nat.le_refl _)

/-- Recording the successor of a point fabricated on the way. -/
theorem Does.fabricated {qs : List Ppt} {x : Ppt} (h : Does cfa env n pts [] qs s s') (hx : s.next ≤ x)
    (hx' : x < s'.next) (hb : ∀ g, s'.body g ≠ some x) (p : Ppt) : Does cfa env n pts [] qs s (addInfo s' x p) where
  good := (does_addInfo cfa env h.good hx' p).good
  next := by simpa using h.next
  frame a ha hna := by rw [addInfo_frame s' (by lia), h.frame a ha hna]
  body g q hq := by simpa using h.body g q hq
  junk g q hq := by
    rw [addInfo_body] at hq
    rcases h.junk g q hq with hq' | ⟨h₁, h₂, h₃⟩
    · exact .inl hq'
    · have hne : q ≠ x := fun hqx => hb g (hqx ▸ hq)
      exact .inr ⟨h₁, by simpa using h₂, by rw [addInfo_frame s' hne, h₃]⟩
  entries := by simp
  ptlist := by simpa using h.ptlist

variable (cfa env) in
theorem does_setRebinding (h : Good n s) (v : Var) (x : Ppt) :
    Does cfa env n [] [] [] s (setRebindingLocation s v x) :=
  ⟨⟨h.le, h.unused, h.bodies⟩, Nat.le_refl _, fun _ _ _ => rfl, fun _ _ h => h, fun _ _ h => .inl h, by simp,
    by simp [setRebindingLocation]⟩

theorem rebind_body (src x : Ppt) (s : St) : ∀ fvs : List Var,
    (fvs.foldr (fun fv s => addInfo (setRebindingLocation s fv x) src x) s).body = s.body
  | [] => rfl
  | fv :: fvs => by
    rw [foldr_cons, addInfo_body]
    exact rebind_body src x s fvs

theorem rebind_next (src x : Ppt) (s : St) : ∀ fvs : List Var,
    (fvs.foldr (fun fv s => addInfo (setRebindingLocation s fv x) src x) s).next = s.next
  | [] => rfl
  | fv :: fvs => by
    rw [foldr_cons, addInfo_next]
    exact rebind_next src x s fvs

variable (cfa env) in
/-- Binding the variables of a closure again at a fabricated point. -/
theorem does_rebind {src : Ppt} (x : Ppt) (hsrc : src < n) : ∀ (fvs : List Var) {s : St} {ps : PSet}, Good n s →
    HasOut s src ps → Does cfa env n [src] [] [] s (fvs.foldr (fun fv s => addInfo (setRebindingLocation s fv x) src x) s) ∧
      HasOut (fvs.foldr (fun fv s => addInfo (setRebindingLocation s fv x) src x) s) src
        (if fvs = [] then ps else insert x ps)
  | [], s, ps, hg, ho => ⟨(Does.refl cfa env hg).congr (by simp) (by simp) (by simp), by simpa using ho⟩
  | fv :: fvs, s, ps, hg, ho => by
    obtain ⟨hd, ho'⟩ := does_rebind x hsrc fvs hg ho
    rw [foldr_cons]
    set s₁ := fvs.foldr (fun fv s => addInfo (setRebindingLocation s fv x) src x) s
    have h₁ := does_setRebinding cfa env hd.good fv x
    have h₂ := does_addInfo cfa env h₁.good (p := src) (by have := h₁.good.le; lia) x
    refine ⟨?_, ?_⟩
    · refine ((hd.trans h₁ (by simp) (by simp)).trans h₂ (by simpa using hsrc) (by simp)).congr ?_ ?_ ?_ <;> simp
    · have h₃ : HasOut (setRebindingLocation s₁ fv x) src (if fvs = [] then ps else insert x ps) := ho'
      have h₄ := h₃.addInfo x
      rw [if_neg (List.cons_ne_nil fv fvs)]
      split at h₄
      · exact h₄
      · simpa using h₄

theorem Target.mono {gs gs' : List Var} {q : Ppt} (h : Target n s gs q) (hgs : ∀ g ∈ gs, g ∈ gs') :
    Target n s gs' q := by
  rcases h with ⟨g, hg, hb⟩ | ⟨h₁, h₂, h₃, g, hg, hr⟩
  · exact .inl ⟨g, hgs g hg, hb⟩
  · exact .inr ⟨h₁, h₂, h₃, g, hgs g hg, hr⟩

variable (cfa env) in
/-- The targets of a call: what its point gets as successors, and that each visited body is reached. -/
theorem does_foldChainVars {src : Ppt} (orig : Var) (hsrc : src < n) : ∀ (fs : List Var) {s : St} {ps : PSet}, Good n s →
    HasOut s src ps → ∃ s', foldChainVars env src orig fs s = s' ∧ Does cfa env n [src] [] [] s s' ∧
      ∃ ps', HasOut s' src ps' ∧ ps ⊆ ps' ∧ (∀ q ∈ ps', q ∈ ps ∨ Target n s' (visited env orig fs) q) ∧
        ∀ g ∈ visited env orig fs, Reaching n s' src g
  | [], s, ps, hg, ho => by
    have hd : Does cfa env n [src] [] [] s s := (Does.refl cfa env hg).congr (by simp) (by simp) (by simp)
    exact ⟨s, rfl, hd, ps, ho, Finset.Subset.refl _, fun q hq => .inl hq, by simp [visited]⟩
  | f :: fs, s, ps, hg, ho => by
    by_cases hf : f = orig ∨ env f = []
    · -- the body itself, and on to the next target
      obtain ⟨hd, hb, hm, -⟩ := does_bodyLocation cfa env hg f
      have ho₁ : HasOut (bodyLocation s f).2 src ps := ho.congr (by rw [hm])
      have hlt := hd.good.le
      have hd₂ := does_addInfo cfa env hd.good (p := src) (by lia) (bodyLocation s f).1
      obtain ⟨s', hs', hd', ps', ho', hsub, hall, hreach⟩ :=
        does_foldChainVars orig hsrc fs hd₂.good (ho₁.addInfo (bodyLocation s f).1)
      have hb' : s'.body f = some (bodyLocation s f).1 := hd'.body f _ (by rw [addInfo_body, hb])
      have hv : visited env orig (f :: fs) = f :: visited env orig fs := by rw [visited, if_pos hf]
      refine ⟨s', by rw [foldChainVars, if_pos hf, ← hs'], ?_, ps', ho', ?_, fun q hq => ?_, fun g hg => ?_⟩
      · refine ((hd.trans hd₂ (by simpa using hsrc) (by simp)).trans hd' (by simpa using hsrc) (by simp)).congr ?_ ?_ ?_ <;>
          simp
      · exact (Finset.subset_insert _ _).trans hsub
      · rw [hv]
        rcases hall q hq with hq | ht
        · rcases Finset.mem_insert.mp hq with rfl | hq
          · exact .inr (.inl ⟨f, mem_cons_self, hb'⟩)
          · exact .inl hq
        · exact .inr (ht.mono fun g hg => List.mem_cons_of_mem _ hg)
      · rw [hv] at hg
        rcases mem_cons.mp hg with rfl | hg
        · exact ⟨_, hb', .inl (ho'.edge_iff.mpr (hsub (Finset.mem_insert_self _ _)))⟩
        · exact hreach g hg
    · -- a closure: through a fabricated point, and no further
      have hv : visited env orig (f :: fs) = [f] := by rw [visited, if_neg hf]
      have hne : env f ≠ [] := fun h => hf (.inr h)
      have hle := hg.le
      have h₁ := does_newPoint cfa env hg
      obtain ⟨h₂, ho₂⟩ := does_rebind cfa env s.next hsrc (env f) h₁.good ho
      rw [if_neg hne] at ho₂
      set s₂ := (env f).foldr (fun fv s' => addInfo (setRebindingLocation s' fv s.next) src s.next)
        { s with next := s.next + 1 } with hs₂
      have hb₂ : s₂.body = s.body := rebind_body src s.next { s with next := s.next + 1 } (env f)
      have hn₂ : s₂.next = s.next + 1 := rebind_next src s.next { s with next := s.next + 1 } (env f)
      obtain ⟨h₃, hb₃, hm₃, hnew⟩ := does_bodyLocation cfa env h₂.good f
      set b := (bodyLocation s₂ f).1
      set s₃ := (bodyLocation s₂ f).2
      have h₁₃ := ((h₁.trans h₂ (by simpa using hsrc) (by simp)).trans h₃ (by simp) (by simp))
      have hx₃ : s.next < s₃.next := by
        have := h₃.next
        lia
      have hxb : ∀ g, s₃.body g ≠ some s.next := by
        intro g hgx
        rcases hnew g _ hgx with hgx | hle
        · rw [hb₂] at hgx
          exact Nat.lt_irrefl _ (hg.bodies g _ hgx)
        · lia
      have hd := h₁₃.fabricated (Nat.le_refl _) hx₃ hxb b
      have hx : HasOut s₃ s.next ∅ := by
        show s₃.map[s.next]? = none
        rw [hm₃, h₂.frame s.next (Nat.lt_succ_self _) (by simp; lia)]
        exact hg.unused _ (Nat.le_refl _)
      have hx' := hx.addInfo b
      have ho' : HasOut (addInfo s₃ s.next b) src (insert s.next ps) :=
        ho₂.congr (by rw [addInfo_frame s₃ (by lia : src ≠ s.next), hm₃])
      have hb' : (addInfo s₃ s.next b).body f = some b := by rw [addInfo_body, hb₃]
      have hxn : s.next < (addInfo s₃ s.next b).next := by rwa [addInfo_next]
      refine ⟨addInfo s₃ s.next b, by rw [foldChainVars, if_neg hf], ?_, _, ho', Finset.subset_insert _ _, fun q hq => ?_,
        fun g hg => ?_⟩
      · exact hd.congr (by simp) (by simp) (by simp)
      · rcases Finset.mem_insert.mp hq with rfl | hq
        · refine .inr (.inr ⟨hle, hxn, hx'.not_top, f, by rw [hv]; exact mem_singleton.mpr rfl, fun r hr => ?_⟩)
          have : r = b := by simpa using hx'.edge_iff.mp hr
          rw [this, hb']
        · exact .inl hq
      · rw [hv, mem_singleton] at hg
        rw [hg]
        refine ⟨b, hb', .inr ⟨s.next, hle, hxn, ho'.edge_iff.mpr (Finset.mem_insert_self _ _), ?_⟩⟩
        exact hx'.edge_iff.mpr (Finset.mem_insert_self _ _)

/-- The expressions to come have points of their own that the map does not know yet. -/
structure Ready (n : Ppt) (es : List Exp) (s : St) : Prop where
  lt : ∀ e ∈ es, e.ppt < n
  nodup : (es.map Exp.ppt).Nodup
  new : ∀ e ∈ es, s.map[e.ppt]? = none

variable {es : List Exp} {pts qs : List Ppt}

theorem Ready.cons {e : Exp} (h : Ready n (e :: es) s) :
    e.ppt < n ∧ HasOut s e.ppt ∅ ∧ e.ppt ∉ es.map Exp.ppt ∧ Ready n es s := by
  have hn := List.nodup_cons.mp h.nodup
  exact ⟨h.lt e mem_cons_self, h.new e mem_cons_self, hn.1,
    fun e' he' => h.lt e' (List.mem_cons_of_mem _ he'), hn.2, fun e' he' => h.new e' (List.mem_cons_of_mem _ he')⟩

theorem Ready.append {es' : List Exp} (h : Ready n (es ++ es') s) :
    Ready n es s ∧ Ready n es' s ∧ ∀ p ∈ es.map Exp.ppt, p ∉ es'.map Exp.ppt := by
  have hn := h.nodup
  rw [map_append, List.nodup_append] at hn
  exact ⟨⟨fun e he => h.lt e (List.mem_append_left _ he), hn.1, fun e he => h.new e (List.mem_append_left _ he)⟩,
    ⟨fun e he => h.lt e (List.mem_append_right _ he), hn.2.1, fun e he => h.new e (List.mem_append_right _ he)⟩,
    fun p hp hp' => hn.2.2 p hp p hp' rfl⟩

/-- What was new is new after steps that touch other points. -/
theorem Ready.after {es' : List Exp} (h : Ready n es' s) (hg : Good n s) (hd : Does cfa env n pts es qs s s')
    (hpts : ∀ p ∈ pts, p ∉ es'.map Exp.ppt) : Ready n es' s' := by
  refine ⟨h.lt, h.nodup, fun e he => ?_⟩
  have hlt := h.lt e he
  have hle := hg.le
  rw [hd.frame e.ppt (by lia) fun hm => hpts _ hm (mem_map_of_mem he), h.new e he]

theorem Ready.points_lt (h : Ready n es s) : ∀ p ∈ es.map Exp.ppt, p < n := by
  intro p hp
  obtain ⟨e, he, rfl⟩ := List.mem_map.mp hp
  exact h.lt e he

theorem Ready.lt_ne (h : Ready n es s) {p : Ppt} (hp : p ∉ es.map Exp.ppt) : ∀ e ∈ es, e.ppt < n ∧ e.ppt ≠ p := by
  refine fun e he => ⟨h.lt e he, fun heq => hp ?_⟩
  rw [← heq]
  exact mem_map_of_mem he

theorem entryOk_of_hasOut {e : Exp} (hc : e.called = none) (h : HasOut s e.ppt e.next.toFinset) :
    EntryOk cfa env n s e where
  top := ⟨fun ht => absurd ht h.not_top, fun ⟨f, hf, _⟩ => by rw [hc] at hf; cases hf⟩
  next q hq := h.edge_iff.mpr (List.mem_toFinset.mpr hq)
  only q hq := .inl (List.mem_toFinset.mp (h.edge_iff.mp hq))
  calls f fs hf := by rw [hc] at hf; cases hf

/-- The scopes of bindings with unknown callers. -/
def scopes (cfa : Cfa) (es : List Exp) : List Ppt := es.filterMap (unknownScope cfa)

/-- All that visiting expressions does. -/
abbrev Visits (cfa : Cfa) (env : Var → List Var) (n : Ppt) (es : List Exp) (s s' : St) : Prop :=
  Does cfa env n (es.map Exp.ppt) es (scopes cfa es) s s'

/-- One more successor for the point of the expression being visited. -/
theorem Does.addInfo {p : Ppt} (h : Does cfa env n pts es qs s s') (hp : p < n)
    (hes : ∀ e ∈ es, e.ppt < n ∧ e.ppt ≠ p) (q : Ppt) :
    Does cfa env n (pts ++ [p]) es qs s (Reflow.addInfo s' p q) := by
  have hle := h.good.le
  have hd := does_addInfo cfa env h.good (p := p) (by lia) q
  refine (h.trans hd (by simpa using hp) fun e he => ?_).congr (fun _ h => h) (by simp) (by simp)
  simpa using hes e he

theorem Does.push (h : Does cfa env n pts es qs s s') (q : Ppt) :
    Does cfa env n pts es (qs ++ [q]) s { s' with ptlist := q :: s'.ptlist } :=
  { h with
    good := ⟨h.good.le, h.good.unused, h.good.bodies⟩
    ptlist := fun r => by
      simp only [mem_cons, h.ptlist, mem_append]
      grind
    entries := fun e he => (h.entries e he).mono rfl (fun _ _ _ => rfl) (fun _ _ h => h) (Nat.le_refl _) }

variable (cfa env) in
theorem does_foldr_addInfo {pt : Ppt} (hpt : pt < n) (hg : Good n s) {ps : PSet} (ho : HasOut s pt ps) :
    ∀ qs : List Ppt, Does cfa env n [pt] [] [] s (qs.foldr (fun q s => addInfo s pt q) s) ∧
      HasOut (qs.foldr (fun q s => addInfo s pt q) s) pt (ps ∪ qs.toFinset)
  | [] => ⟨(Does.refl cfa env hg).congr (by simp) (by simp) (by simp), by simpa using ho⟩
  | q :: qs => by
    obtain ⟨hd, ho'⟩ := does_foldr_addInfo hpt hg ho qs
    rw [foldr_cons]
    refine ⟨(hd.addInfo hpt (by simp) q).congr (by simp) (by simp) (by simp), ?_⟩
    have h := ho'.addInfo q
    rwa [← Finset.union_insert, ← List.toFinset_cons] at h

variable (cfa env) in
theorem does_setTop (hg : Good n s) {pt : Ppt} (hpt : pt < n) :
    Does cfa env n [pt] [] [] s (setTop s pt) where
  good := ⟨hg.le, fun x hx => by
    have hle := hg.le
    have hx' : s.next ≤ x := hx
    show (s.map.insert pt Reaches.top)[x]? = none
    rw [get_insert, if_neg (by lia), hg.unused x hx'], hg.bodies⟩
  next := Nat.le_refl _
  frame p _ hp := by
    show (s.map.insert pt Reaches.top)[p]? = s.map[p]?
    rw [get_insert, if_neg fun h => hp (by simp [h])]
  body _ _ h := h
  junk _ _ h := .inl h
  entries := by simp
  ptlist := by simp [setTop]

/-- A call completes the entry of its point. -/
theorem does_call {e : Exp} {f : Var} (hf : e.called = some f) (hnext : e.next = []) (hsc : unknownScope cfa e = none)
    (hg : Good n s) (hr : Ready n [e] s) (h : doCall cfa env e.ppt f s = some s') : Visits cfa env n [e] s s' := by
  obtain ⟨hlt, ho, -, -⟩ := hr.cons
  have fin : ∀ {s' : St}, Does cfa env n [e.ppt] [] [] s s' → EntryOk cfa env n s' e → Visits cfa env n [e] s s' :=
    fun hd he => (hd.finish he).congr (by simp) (by simp) (by simp [scopes, hsc])
  unfold doCall at h
  cases hv : cfa.valueOf f with
  | top =>
    rw [hv] at h
    cases h
    refine fin (does_setTop cfa env hg hlt) ⟨?_, by simp [hnext], fun q hq => ?_, fun f' fs hf' hfs => ?_⟩
    · refine ⟨fun _ => ⟨f, hf, hv⟩, fun _ => ?_⟩
      show (s.map.insert e.ppt Reaches.top)[e.ppt]? = some .top
      rw [get_insert, if_pos rfl]
    · obtain ⟨ps, hps, -⟩ := hq
      have : (s.map.insert e.ppt Reaches.top)[e.ppt]? = some (.reaches ps) := hps
      rw [get_insert, if_pos rfl] at this
      cases this
    · rw [hf] at hf'
      cases hf'
      rw [hv] at hfs
      cases hfs
  | lambdas fs =>
    rw [hv] at h
    cases h
    obtain ⟨s', hs', hd, ps', ho', -, hall, hreach⟩ :=
      does_foldChainVars cfa env f hlt fs hg ho
    rw [hs']
    refine fin hd ⟨⟨fun ht => absurd ht ho'.not_top, ?_⟩, by simp [hnext], fun q hq => ?_, fun f' fs' hf' hfs' => ?_⟩
    · simp [hf, hv]
    · rcases hall q (ho'.edge_iff.mp hq) with hq | ht
      · cases hq
      · exact .inr ⟨f, fs, hf, hv, ht⟩
    simp_all
  | bot =>
    rw [hv] at h
    cases h
    refine fin ((Does.refl cfa env hg).congr (by simp) (by simp) (by simp)) ⟨⟨fun ht => absurd ht ho.not_top, ?_⟩,
      by simp [hnext], fun q hq => ?_, fun f' fs' hf' hfs' => ?_⟩
    · simp [hf, hv]
    · cases ho.edge_iff.mp hq
    · rw [hf] at hf'
      cases hf'
      rw [hv] at hfs'
      cases hfs'
  | tuple | bool =>
    rw [hv] at h
    cases h

/-- An expression that is no call has been visited when its parts have and its point has its
    successors. -/
theorem visits_of {e : Exp} {qs : List Ppt} {es es' : List Exp} (hd : Does cfa env n pts es' qs s s')
    (hc : e.called = none) (ho : HasOut s' e.ppt e.next.toFinset) (hp : ∀ p ∈ pts, p = e.ppt ∨ p ∈ es.map Exp.ppt)
    (he : ∀ x ∈ es, x ∈ es') (hq : ∀ q, q ∈ qs ↔ unknownScope cfa e = some q ∨ q ∈ scopes cfa es) :
    Visits cfa env n (e :: es) s s' := by
  refine (hd.finish (entryOk_of_hasOut hc ho)).congr (fun p h => ?_) (fun x h => ?_) fun q => ?_
  · rw [List.map_cons, mem_cons]
    exact hp p h
  · grind
  simp [hq, scopes]

theorem does_scope {es : List Exp} {qs : List Ppt} (h : Does cfa env n pts es qs s s') (b : Bool) (q : Ppt) :
    Does cfa env n pts es (qs ++ if b then [q] else []) s (if b then { s' with ptlist := q :: s'.ptlist } else s') := by
  cases b with
  | true => exact h.push q
  | false => simpa using h

mutual

theorem does_doExp : ∀ {e : Exp} {s s' : St}, Good n s → Ready n e.subs s → doExp cfa env e s = some s' →
    Visits cfa env n e.subs s s'
  | .let_ pt xs rhs e, s, s', hg, hr, h => by
    obtain ⟨hlt : pt < n, ho : HasOut s pt ∅, hni : pt ∉ e.subs.map Exp.ppt, hr'⟩ := hr.cons
    have h₁ := (Does.refl cfa env hg).addInfo hlt (by simp) e.ppt
    have hv := does_doExp h₁.good (hr'.after hg h₁ (by simpa using hni)) h
    have hout : HasOut s' pt {e.ppt} := (ho.addInfo e.ppt).congr (hv.frame pt (by have := h₁.good.le; lia) hni)
    refine visits_of (h₁.trans hv hr'.points_lt (by simp)) rfl (by simpa [Exp.next, Exp.ppt] using hout) ?_ ?_ ?_ <;>
      simp [Exp.ppt, unknownScope]
  | .fun_ pt fbs e, s, s', hg, hr, h => by
    obtain ⟨hlt : pt < n, ho : HasOut s pt ∅, hni : pt ∉ (subsFBs fbs ++ e.subs).map Exp.ppt, hr'⟩ := hr.cons
    obtain ⟨hr₁, hr₂, hap⟩ := hr'.append
    rw [map_append, mem_append, not_or] at hni
    obtain ⟨s₁, hs₁, h⟩ := Option.bind_eq_some_iff.mp h
    have hv₁ := does_doLambdas hg hr₁ hs₁
    have h₁ := does_scope (hv₁.addInfo hlt (hr₁.lt_ne hni.1) e.ppt) (fbs.any (isUnknown cfa)) e.ppt
    have hv₂ := does_doExp h₁.good (hr₂.after hg h₁ (by
      grind)) h
    have hout : HasOut s' pt {e.ppt} := by
      refine HasOut.congr ?_ (hv₂.frame pt (by have := h₁.good.le; lia) hni.2)
      have := (ho.congr (hv₁.frame pt (by have := hg.le; lia) hni.1)).addInfo e.ppt
      cases fbs.any (isUnknown cfa) <;> exact this
    refine visits_of (h₁.trans hv₂ hr₂.points_lt fun x hx => ⟨hr₁.lt x hx, hap _ (mem_map_of_mem hx)⟩) rfl
      (by simpa [Exp.next, Exp.ppt] using hout) ?_ ?_ ?_
    · simp [Exp.ppt]
      grind
    · simp
    · simp [unknownScope, scopes]
      grind
  | .cont pt fb e, s, s', hg, hr, h => by
    obtain ⟨hlt : pt < n, ho : HasOut s pt ∅, hni : pt ∉ (fb.subs ++ e.subs).map Exp.ppt, hr'⟩ := hr.cons
    obtain ⟨hr₁, hr₂, hap⟩ := hr'.append
    rw [map_append, mem_append, not_or] at hni
    obtain ⟨s₁, hs₁, h⟩ := Option.bind_eq_some_iff.mp h
    have hv₁ := does_doLambda hg hr₁ hs₁
    have h₁ := does_scope (hv₁.addInfo hlt (hr₁.lt_ne hni.1) e.ppt) (isUnknown cfa fb) e.ppt
    have hv₂ := does_doExp h₁.good (hr₂.after hg h₁ (by
      grind)) h
    have hout : HasOut s' pt {e.ppt} := by
      refine HasOut.congr ?_ (hv₂.frame pt (by have := h₁.good.le; lia) hni.2)
      have := (ho.congr (hv₁.frame pt (by have := hg.le; lia) hni.1)).addInfo e.ppt
      cases isUnknown cfa fb <;> exact this
    refine visits_of (h₁.trans hv₂ hr₂.points_lt fun x hx => ⟨hr₁.lt x hx, hap _ (mem_map_of_mem hx)⟩) rfl
      (by simpa [Exp.next, Exp.ppt] using hout) ?_ ?_ ?_
    · simp [Exp.ppt]
      grind
    · simp
    · simp [unknownScope, scopes]
      grind
  | .if_ pt c e₁ e₂, s, s', hg, hr, h => by
    obtain ⟨hlt : pt < n, ho : HasOut s pt ∅, hni : pt ∉ (e₁.subs ++ e₂.subs).map Exp.ppt, hr'⟩ := hr.cons
    obtain ⟨hr₁, hr₂, hap⟩ := hr'.append
    rw [map_append, mem_append, not_or] at hni
    obtain ⟨s₁, hs₁, h⟩ := Option.bind_eq_some_iff.mp h
    have h₀ := ((Does.refl cfa env hg).addInfo hlt (by simp) e₁.ppt).addInfo hlt (by simp) e₂.ppt
    have hv₁ := does_doExp h₀.good (hr₁.after hg h₀ (by simpa using hni.1)) hs₁
    have h₁ := h₀.trans hv₁ hr₁.points_lt (by simp)
    have hv₂ := does_doExp h₁.good (hr₂.after hg h₁ (by
      simp_all)) h
    have hout : HasOut s' pt {e₁.ppt, e₂.ppt} := by
      have h' := (ho.addInfo e₁.ppt).addInfo e₂.ppt
      have hle₀ := h₀.good.le
      have hle₁ := h₁.good.le
      have h'' := (h'.congr (hv₁.frame pt (by lia) hni.1)).congr (hv₂.frame pt (by lia) hni.2)
      rwa [Finset.insert_empty, Finset.pair_comm] at h''
    have hother : ∀ x ∈ [] ++ e₁.subs, x.ppt < n ∧ x.ppt ∉ e₂.subs.map Exp.ppt := fun x hx =>
      ⟨hr₁.lt x (by simpa using hx), hap _ (mem_map_of_mem (by simpa using hx))⟩
    refine visits_of (h₁.trans hv₂ hr₂.points_lt hother) rfl
      (by simpa [Exp.next, Exp.ppt] using hout) ?_ ?_ ?_
    · simp [Exp.ppt]
    · simp
    · simp [unknownScope, scopes]
  | .switch pt x cases dflt, s, s', hg, hr, h => by
    obtain ⟨hlt : pt < n, ho : HasOut s pt ∅, hni : pt ∉ (subsCases cases ++ subsDflt dflt).map Exp.ppt, hr'⟩ := hr.cons
    obtain ⟨hr₁, hr₂, hap⟩ := hr'.append
    rw [map_append, mem_append, not_or] at hni
    obtain ⟨s₁, hs₁, h⟩ := Option.bind_eq_some_iff.mp h
    obtain ⟨h₀, ho₀⟩ := does_foldr_addInfo cfa env hlt hg ho (cases.map fun c => c.2.ppt)
    have hle₀ := h₀.good.le
    have hv₁ := does_doCases h₀.good (hr₁.after hg h₀ (by simpa using hni.1)) hs₁
    have h₁ := h₀.trans hv₁ hr₁.points_lt (by simp)
    have hle₁ := h₁.good.le
    have ho₁ := ho₀.congr (hv₁.frame pt (by lia) hni.1)
    have hapt : ∀ p ∈ [pt] ++ (subsCases cases).map Exp.ppt, p ∉ (subsDflt dflt).map Exp.ppt := by
      grind
    cases dflt with
    | none =>
      cases h
      refine visits_of h₁ rfl (by simpa [Exp.next, Exp.ppt] using ho₁) ?_ ?_ ?_
      · simp [Exp.ppt, subsDflt]
      · simp [subsDflt]
      · simp [unknownScope, scopes, subsDflt]
    | some e =>
      have h₂ := h₁.addInfo hlt (by simpa using hr₁.lt_ne hni.1) e.ppt
      have hv₂ := does_doExp h₂.good (hr₂.after hg h₂ (by
        grind)) h
      have hle₂ := h₂.good.le
      have hout := (ho₁.addInfo e.ppt).congr (hv₂.frame pt (by lia) hni.2)
      have hother : ∀ x ∈ [] ++ subsCases cases, x.ppt < n ∧ x.ppt ∉ e.subs.map Exp.ppt := fun x hx =>
        ⟨hr₁.lt x (by simpa using hx), hap _ (mem_map_of_mem (by simpa using hx))⟩
      refine visits_of (h₂.trans hv₂ hr₂.points_lt hother) rfl ?_ ?_ ?_ ?_
      · show HasOut s' pt _
        convert hout using 1
        ext q
        simp [Exp.next]
      · simp [Exp.ppt, subsDflt]
        grind
      · simp [subsDflt]
      · simp [unknownScope, scopes, subsDflt]
  | .apply pt f xs rs, s, s', hg, hr, h => does_call rfl rfl rfl hg hr h
  | .throw pt k xs, s, s', hg, hr, h => does_call rfl rfl rfl hg hr h

theorem does_doLambda : ∀ {fb : Lambda} {s s' : St}, Good n s → Ready n fb.subs s → doLambda cfa env fb s = some s' →
    Visits cfa env n fb.subs s s'
  | .fb _ _ _ _, _, _, hg, hr, h => does_doExp hg hr h

theorem does_doLambdas : ∀ {fbs : List Lambda} {s s' : St}, Good n s → Ready n (subsFBs fbs) s →
    doLambdas cfa env fbs s = some s' → Visits cfa env n (subsFBs fbs) s s'
  | [], s, s', hg, hr, h => by
    cases h
    exact Does.refl cfa env hg
  | fb :: fbs, s, s', hg, hr, h => by
    obtain ⟨hr₁, hr₂, hap⟩ := hr.append
    obtain ⟨s₁, hs₁, h⟩ := Option.bind_eq_some_iff.mp h
    have hv₂ := does_doLambdas hg hr₂ hs₁
    have hv₁ := does_doLambda hv₂.good (hr₁.after hg hv₂ fun p hp hp' => hap p hp' hp) h
    refine (hv₂.trans hv₁ hr₁.points_lt fun x hx => ⟨hr₂.lt x hx, fun hp => hap _ hp (mem_map_of_mem hx)⟩).congr ?_ ?_ ?_
    · simp [subsFBs]
      grind
    · simp [subsFBs]
      grind
    · simp [subsFBs, scopes]
      grind

theorem does_doCases : ∀ {cases : List (Nat × Exp)} {s s' : St}, Good n s → Ready n (subsCases cases) s →
    doCases cfa env cases s = some s' → Visits cfa env n (subsCases cases) s s'
  | [], s, s', hg, hr, h => by
    cases h
    exact Does.refl cfa env hg
  | (_, e) :: cases, s, s', hg, hr, h => by
    obtain ⟨hr₁, hr₂, hap⟩ := hr.append
    obtain ⟨s₁, hs₁, h⟩ := Option.bind_eq_some_iff.mp h
    have hv₂ := does_doCases hg hr₂ hs₁
    have hv₁ := does_doExp hv₂.good (hr₁.after hg hv₂ fun p hp hp' => hap p hp' hp) h
    refine (hv₂.trans hv₁ hr₁.points_lt fun x hx => ⟨hr₂.lt x hx, fun hp => hap _ hp (mem_map_of_mem hx)⟩).congr ?_ ?_ ?_
    · simp [subsCases]
      grind
    · simp [subsCases]
      grind
    · simp [subsCases, scopes]
      grind

end

end

end Manticore.Cps.Reflow
