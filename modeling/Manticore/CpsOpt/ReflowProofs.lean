/-
  Manticore.CpsOpt.ReflowProofs — when `pathExists` answers that control can flow from one point
  to another.

  `Flow` is the module's flow graph, from its syntax and the control-flow analysis; `Linked` is
  the graph the pass records, without its fabricated points.
  - `linked_iff`: between points of the module the recorded map and `Linked` have the same paths.
  - `compressed_no_edges`: the compressed map has no edges at all, because `filterNonReps` keeps
    the points without a representative and every successor of a node has one.
  - `pathExists_iff`: so a flow from `p` to `q` is reported only when `p` and `q` are one point or
    lie on a common cycle of the recorded graph; `straight_denied` is a flow it denies.
-/

import Manticore.CpsOpt.ReflowGraph

namespace Manticore.Cps.Reflow

open Relation
open List (foldl_cons mem_cons_self mem_cons mem_singleton not_mem_nil)
open Component (nodes)
open Exp (subs called)
open Module (next_mem body_mem exps)

/-! ## Components -/

/-- What the component finder promises: the components partition the nodes reached from the roots,
    and two nodes share one when each reaches the other. -/
structure IsSCC (roots : List Ppt) (follow : Ppt → List Ppt) (comps : List Component) : Prop where
  reached : ∀ p, (∃ c ∈ comps, p ∈ c.nodes) ↔ ∃ r ∈ roots, ReflTransGen (fun a b => b ∈ follow a) r p
  same : ∀ c ∈ comps, ∀ p ∈ c.nodes, ∀ q, q ∈ c.nodes ↔
    p = q ∨ TransGen (fun a b => b ∈ follow a) p q ∧ TransGen (fun a b => b ∈ follow a) q p
  disjoint : comps.Pairwise fun c c' => ∀ p ∈ c.nodes, p ∉ c'.nodes

theorem Component.rep_mem (c : Component) : c.rep ∈ c.nodes := by
  cases c <;> simp [Component.rep, nodes]

theorem get_addReps (m : PMap Ppt) (c : Component) (p : Ppt) :
    (addReps m c)[p]? = if p ∈ c.nodes then some c.rep else m[p]? := by
  unfold addReps
  generalize c.rep = r
  induction c.nodes generalizing m with
  | nil => simp
  | cons q qs ih =>
    rw [foldl_cons, ih, get_insert]
    by_cases hq : p ∈ qs
    · simp [hq]
    · by_cases hpq : q = p
      · simp [hpq]
      · simp [hq, hpq, Ne.symm hpq]

theorem get_foldl_addReps_of_not_mem {comps : List Component} {p : Ppt} :
    ∀ m : PMap Ppt, (∀ c ∈ comps, p ∉ c.nodes) → (comps.foldl addReps m)[p]? = m[p]? := by
  induction comps with
  | nil => exact fun _ _ => rfl
  | cons c comps ih =>
    intro m h
    rw [foldl_cons, ih _ fun c' hc' => h c' (List.mem_cons_of_mem _ hc'), get_addReps,
      if_neg (h c mem_cons_self)]

/-- The representative of a node is the one of its component. -/
theorem get_representative {comps : List Component} {c : Component} {p : Ppt}
    (hd : comps.Pairwise fun c c' => ∀ p ∈ c.nodes, p ∉ c'.nodes) (hc : c ∈ comps) (hp : p ∈ c.nodes) :
    ∀ m : PMap Ppt, (comps.foldl addReps m)[p]? = some c.rep := by
  induction comps with
  | nil => cases hc
  | cons c' comps ih =>
    intro m
    rw [List.pairwise_cons] at hd
    rcases mem_cons.mp hc with rfl | hc
    · rw [foldl_cons, get_foldl_addReps_of_not_mem _ fun c' hc' => hd.1 c' hc' p hp, get_addReps, if_pos hp]
    · exact ih hd.2 hc _

/-! ## The compressed map has no edges -/

def NoEdges (map : PMap PSet) : Prop := ∀ (k : Ppt) (s : PSet), map[k]? = some s → s = ∅

theorem NoEdges.empty : NoEdges ∅ := by
  intro k s h
  rw [get_empty] at h
  cases h

variable {map : PMap PSet} {p : PMap Reaches} {ptlist : List Ppt} {newreps : PMap Ppt}

theorem NoEdges.insert (h : NoEdges map) (pt : Ppt) : NoEdges (map.insert pt ∅) := by
  intro k s hs
  rw [get_insert] at hs
  split at hs
  · exact (Option.some.inj hs).symm
  · exact h k s hs

theorem mem_reachesFromPoint {pt q : Ppt} : q ∈ reachesFromPoint p ptlist.toFinset pt ↔ q ∈ follow p ptlist pt := by
  unfold reachesFromPoint follow
  cases p[pt]? with
  | none => simp
  | some r => cases r <;> simp [listItems]

theorem mem_foldl_union {f : Ppt → PSet} {q : Ppt} : ∀ {pts : List Ppt} {s : PSet},
    q ∈ pts.foldl (fun s pt => s ∪ f pt) s ↔ q ∈ s ∨ ∃ pt ∈ pts, q ∈ f pt
  | [], s => by simp
  | pt :: pts, s => by
    rw [foldl_cons, mem_foldl_union]
    simp [or_assoc]

/-- Every successor of a node has a representative, so the filter keeps nothing. -/
theorem filterNonReps_eq_empty {s : PSet} (h : ∀ q ∈ s, newreps[q]?.isSome) : filterNonReps newreps s = ∅ := by
  unfold filterNonReps
  rw [Finset.filter_eq_empty_iff]
  intro q hq
  simpa using h q hq

theorem findAdj_noEdges {c : Component} (h : ∀ pt ∈ c.nodes, ∀ q ∈ follow p ptlist pt, newreps[q]?.isSome)
    (hm : NoEdges map) : NoEdges (findAdj p ptlist.toFinset newreps map c) := by
  cases c with
  | simple pt =>
    have hempty : filterNonReps newreps (reachesFromPoint p ptlist.toFinset pt) = ∅ :=
      filterNonReps_eq_empty fun q hq => h pt (mem_singleton.mpr rfl) q (mem_reachesFromPoint.mp hq)
    rw [findAdj, hempty]
    exact hm.insert pt
  | recursive pt pts =>
    have hempty : filterNonReps newreps ((pt :: pts).foldl
        (fun reaches pt => reaches ∪ reachesFromPoint p ptlist.toFinset pt) ∅) = ∅ := by
      refine filterNonReps_eq_empty fun q hq => ?_
      rcases mem_foldl_union.mp hq with hq | ⟨pt', hpt', hq⟩
      · cases hq
      · exact h pt' hpt' q (mem_reachesFromPoint.mp hq)
    rw [findAdj, hempty]
    exact hm.insert pt

theorem foldl_findAdj_noEdges    :
    ∀ {comps : List Component} {map : PMap PSet},
      (∀ c ∈ comps, ∀ pt ∈ c.nodes, ∀ q ∈ follow p ptlist pt, newreps[q]?.isSome) → NoEdges map →
      NoEdges (comps.foldl (findAdj p ptlist.toFinset newreps) map)
  | [], _, _, hm => hm
  | c :: comps, map, h, hm => by
    rw [foldl_cons]
    exact foldl_findAdj_noEdges (fun c' hc' => h c' (List.mem_cons_of_mem _ hc'))
      (findAdj_noEdges (h c mem_cons_self) hm)

/-! ## The closure of a map without edges -/

theorem invert_empty (hm : NoEdges map) : (invert map).1 = ∅ := by
  unfold invert
  rw [Std.TreeMap.foldl_eq_foldl_toList]
  have hl : ∀ kv ∈ map.toList, kv.2 = ∅ := by
    intro kv hkv
    exact hm kv.1 kv.2 (Std.TreeMap.mem_toList_iff_getElem?_eq_some.mp hkv)
  generalize map.toList = l at hl
  have hgen : ∀ (l : List (Ppt × PSet)) (acc : PMap PSet × List Ppt), (∀ kv ∈ l, kv.2 = ∅) → acc.1 = ∅ →
      (l.foldl (fun a b => if b.2 = ∅ then (a.1, b.1 :: a.2)
        else ((listItems b.2).foldl (fun m ppt' => m.insert ppt' (insert b.1 (m[ppt']?.getD ∅))) a.1, a.2)) acc).1 = ∅ := by
    intro l
    induction l with
    | nil => exact fun _ _ h => h
    | cons kv l ih =>
      intro acc hl hacc
      rw [foldl_cons, if_pos (hl kv mem_cons_self)]
      exact ih _ (fun kv' h => hl kv' (List.mem_cons_of_mem _ h)) hacc
  exact hgen l _ hl rfl

theorem compute_no_parents (map : PMap PSet) : ∀ (n : Nat) (rmap : PMap PSet) (black grey : PSet),
    compute map ∅ n rmap black grey = rmap
  | 0, _, _, _ => rfl
  | n + 1, rmap, black, grey => by
    rw [compute]
    split
    · rfl
    · simp only [get_empty]
      exact compute_no_parents map n _ _ _

theorem computeReachability_empty (hm : NoEdges map) (p : Ppt) : (computeReachability map)[p]? = none := by
  have hp := invert_empty hm
  grind [computeReachability, compute_no_parents]

/-! ## What the tables answer -/

theorem compressed_no_edges {topOrder : TopOrder}
    (h : IsSCC p.keys (follow p ptlist) (topOrder p.keys (follow p ptlist))) (q : Ppt) :
    (computeReachability (compressSCC topOrder p ptlist).2)[q]? = none := by
  refine computeReachability_empty (foldl_findAdj_noEdges ?_ NoEdges.empty) q
  intro c hc pt hpt q hq
  obtain ⟨r, hr, hpath⟩ := (h.reached pt).mp ⟨c, hc, hpt⟩
  obtain ⟨c', hc', hq'⟩ := (h.reached q).mpr ⟨r, hr, hpath.tail hq⟩
  rw [get_representative h.disjoint hc' hq' ∅]
  rfl

/-- Two analyzed points have a path exactly when they are equal or on a common cycle. -/
theorem pathExists_compressed {topOrder : TopOrder} {t : Tables}
    (h : IsSCC p.keys (follow p ptlist) (topOrder p.keys (follow p ptlist)))
    (ht : t = ⟨(compressSCC topOrder p ptlist).1, computeReachability (compressSCC topOrder p ptlist).2⟩)
    {a b : Ppt} (ha : a ∈ p) :
    pathExists t a b = some true ↔ a = b ∨ TransGen (fun a b => b ∈ follow p ptlist a) a b ∧ TransGen
      (fun a b => b ∈ follow p ptlist a) b a := by
  have hrep : ∀ {c : Component} {x : Ppt}, c ∈ topOrder p.keys (follow p ptlist) → x ∈ c.nodes →
      t.representative[x]? = some c.rep := by
    intro c x hc hx
    rw [ht]
    exact get_representative h.disjoint hc hx ∅
  obtain ⟨c, hc, hac⟩ := (h.reached a).mpr ⟨a, Std.TreeMap.mem_keys.mpr ha, .refl⟩
  rw [← h.same c hc a hac b]
  have hgraph : ∀ x : Ppt, t.graph[x]? = none := by
    intro x
    rw [ht]
    exact compressed_no_edges h x
  constructor
  · intro hpath
    by_contra hb
    have hne : ∀ r, t.representative[b]? = some r → c.rep ≠ r := by
      intro r hr heq
      by_cases hb' : ∃ c' ∈ topOrder p.keys (follow p ptlist), b ∈ c'.nodes
      · obtain ⟨c', hc', hb'⟩ := hb'
        rw [hrep hc' hb'] at hr
        -- the representative is in both components
        have hin : c.rep ∈ c'.nodes := by rw [heq, ← Option.some.inj hr]; exact c'.rep_mem
        have hca := (h.same c hc c.rep c.rep_mem a).mp hac
        have hcb := (h.same c' hc' c.rep hin b).mp hb'
        refine hb ((h.same c hc a hac b).mpr ?_)
        rcases hca with rfl | ⟨h₁, h₂⟩
        · exact hcb
        · rcases hcb with rfl | ⟨h₃, h₄⟩
          · exact .inr ⟨h₂, h₁⟩
          · exact .inr ⟨h₂.trans h₃, h₄.trans h₁⟩
      · have hnone : t.representative[b]? = none := by
          rw [ht]
          refine (get_foldl_addReps_of_not_mem ∅ fun c' hc' hb'' => hb' ⟨c', hc', hb''⟩).trans (get_empty b)
        rw [hnone] at hr
        cases hr
    grind [pathExists]
  · intro hb
    unfold pathExists
    rw [hrep hc hac, hrep hc hb]
    simp

/-! ## When the traversal succeeds -/

/-- What the analysis may say of a variable in function position; another value raises. -/
def Callable : Value → Prop
  | .top | .lambdas _ | .bot => True
  | .tuple _ | .bool _ => False

/-- Every call of the expressions is through a function. -/
def AllCallable (cfa : Cfa) (es : List Exp) : Prop := ∀ e ∈ es, ∀ f, e.called = some f → Callable (cfa.valueOf f)

section

variable {cfa : Cfa} {env : Var → List Var}

theorem allCallable_cons {e : Exp} {es : List Exp} :
    AllCallable cfa (e :: es) ↔ (∀ f, e.called = some f → Callable (cfa.valueOf f)) ∧ AllCallable cfa es := by
  simp [AllCallable]

theorem allCallable_append {es es' : List Exp} :
    AllCallable cfa (es ++ es') ↔ AllCallable cfa es ∧ AllCallable cfa es' := by
  simp only [AllCallable, List.mem_append]
  grind

theorem isSome_doCall {pt : Ppt} {f : Var} {s : St} :
    (doCall cfa env pt f s).isSome ↔ Callable (cfa.valueOf f) := by
  unfold doCall Callable
  cases cfa.valueOf f <;> simp

/-- Two steps succeed when each does. -/
theorem isSome_bind {P Q : Prop} {x : Option St} {k : St → Option St} (hx : x.isSome ↔ P) (hk : ∀ s, (k s).isSome ↔ Q) :
    (x >>= k).isSome ↔ P ∧ Q := by
  cases x with
  | none => simpa using fun hp : P => absurd (hx.mpr hp) (by simp)
  | some s =>
    have hp : P := hx.mp rfl
    simpa [hp] using hk s

mutual

theorem isSome_doExp : ∀ (e : Exp) (s : St), (doExp cfa env e s).isSome ↔ AllCallable cfa e.subs
  | .let_ pt xs rhs e, s => by
    rw [doExp, subs, allCallable_cons]
    simpa [called] using isSome_doExp e _
  | .fun_ pt fbs e, s => by
    rw [doExp, subs, allCallable_cons, allCallable_append]
    simpa [called] using isSome_bind (isSome_doLambdas fbs s) fun s => isSome_doExp e _
  | .cont pt fb e, s => by
    rw [doExp, subs, allCallable_cons, allCallable_append]
    simpa [called] using isSome_bind (isSome_doLambda fb s) fun s => isSome_doExp e _
  | .if_ pt c e₁ e₂, s => by
    rw [doExp, subs, allCallable_cons, allCallable_append]
    simpa [called] using isSome_bind (isSome_doExp e₁ _) fun s => isSome_doExp e₂ s
  | .switch pt x cases dflt, s => by
    rw [doExp, subs, allCallable_cons, allCallable_append]
    simpa [called] using isSome_bind (isSome_doCases cases _) fun s => isSome_doDflt dflt pt s
  | .apply pt f xs rs, s => by
    rw [doExp, isSome_doCall, subs]
    simp [AllCallable, called]
  | .throw pt k xs, s => by
    rw [doExp, isSome_doCall, subs]
    simp [AllCallable, called]

theorem isSome_doLambda : ∀ (fb : Lambda) (s : St), (doLambda cfa env fb s).isSome ↔ AllCallable cfa fb.subs
  | .fb _ _ _ body, s => isSome_doExp body s

theorem isSome_doLambdas : ∀ (fbs : List Lambda) (s : St),
    (doLambdas cfa env fbs s).isSome ↔ AllCallable cfa (subsFBs fbs)
  | [], s => by simp [doLambdas, subsFBs, AllCallable]
  | fb :: fbs, s => by
    rw [doLambdas, subsFBs, allCallable_append, and_comm]
    exact isSome_bind (isSome_doLambdas fbs s) fun s => isSome_doLambda fb s

theorem isSome_doCases : ∀ (cases : List (Nat × Exp)) (s : St),
    (doCases cfa env cases s).isSome ↔ AllCallable cfa (subsCases cases)
  | [], s => by simp [doCases, subsCases, AllCallable]
  | (_, e) :: cases, s => by
    rw [doCases, subsCases, allCallable_append, and_comm]
    exact isSome_bind (isSome_doCases cases s) fun s => isSome_doExp e s

theorem isSome_doDflt : ∀ (dflt : Option Exp) (pt : Ppt) (s : St),
    (doDflt cfa env pt dflt s).isSome ↔ AllCallable cfa (subsDflt dflt)
  | none, pt, s => by simp [doDflt, subsDflt, AllCallable]
  | some e, pt, s => isSome_doExp e _

end

end

/-! ## The flow graph -/

/-- Control flows in one step. -/
inductive Flow (m : Module) (cfa : Cfa) : Ppt → Ppt → Prop where
  /-- To the next binding or into a branch. -/
  | next {e : Exp} {q : Ppt} (he : e ∈ m.exps) (hq : q ∈ e.next) : Flow m cfa e.ppt q
  /-- Into a function the analysis finds. -/
  | known {e : Exp} {f : Var} {fs : List Var} {fb : Lambda} (he : e ∈ m.exps) (hf : e.called = some f)
      (hfs : cfa.valueOf f = .lambdas fs) (hfb : fb ∈ m.lambdas) (hm : fb.f ∈ fs) : Flow m cfa e.ppt fb.body.ppt
  /-- Into a function with unknown callers, where the analysis does not know the target. -/
  | unknown {e : Exp} {f : Var} {fb : Lambda} (he : e ∈ m.exps) (hf : e.called = some f)
      (ht : cfa.valueOf f = .top) (hfb : fb ∈ m.lambdas) (hu : isUnknown cfa fb = true) : Flow m cfa e.ppt fb.body.ppt

/-- What the pass records for a step. Of the targets of a call only those up to the first closure
    are visited, and an unknown call goes to the scopes of the escaping functions, not to their bodies. -/
inductive Linked (m : Module) (cfa : Cfa) (env : Var → List Var) : Ppt → Ppt → Prop where
  | next {e : Exp} {q : Ppt} (he : e ∈ m.exps) (hq : q ∈ e.next) : Linked m cfa env e.ppt q
  | known {e : Exp} {f : Var} {fs : List Var} {fb : Lambda} (he : e ∈ m.exps) (hf : e.called = some f)
      (hfs : cfa.valueOf f = .lambdas fs) (hfb : fb ∈ m.lambdas) (hm : fb.f ∈ visited env f fs) :
      Linked m cfa env e.ppt fb.body.ppt
  | unknown {e e' : Exp} {f : Var} {q : Ppt} (he : e ∈ m.exps) (hf : e.called = some f)
      (ht : cfa.valueOf f = .top) (he' : e' ∈ m.exps) (hq : unknownScope cfa e' = some q) : Linked m cfa env e.ppt q

/-- Two points in one cycle of the recorded graph. -/
def OnCycle (m : Module) (cfa : Cfa) (env : Var → List Var) (p q : Ppt) : Prop :=
  TransGen (Linked m cfa env) p q ∧ TransGen (Linked m cfa env) q p

/-- A point of the module. -/
def IsPoint (m : Module) (p : Ppt) : Prop := ∃ e ∈ m.exps, e.ppt = p

theorem unknownScope_mem {m : Module} {cfa : Cfa} {e : Exp} {q : Ppt} (he : e ∈ m.exps)
    (hq : unknownScope cfa e = some q) : IsPoint m q := by
  have hn : q ∈ e.next := by
    cases e <;> simp only [unknownScope, Exp.next, mem_singleton] at hq ⊢
    case fun_ pt fbs e => exact (by simpa using hq : _ ∧ e.ppt = q).2.symm
    case cont pt fb e => exact (by simpa using hq : _ ∧ e.ppt = q).2.symm
    all_goals cases hq
  exact next_mem he hn

theorem Linked.isPoint {m : Module} {cfa : Cfa} {env : Var → List Var} {p q : Ppt} (h : Linked m cfa env p q) :
    IsPoint m p ∧ IsPoint m q := by
  cases h with
  | next he hq => exact ⟨⟨_, he, rfl⟩, next_mem he hq⟩
  | known he _ _ hfb _ => exact ⟨⟨_, he, rfl⟩, _, body_mem hfb, rfl⟩
  | unknown he _ _ he' hq => exact ⟨⟨_, he, rfl⟩, unknownScope_mem he' hq⟩

/-! ## The recorded map and the recorded graph -/

/-- The state that `addNeighbors` leaves for a module with its points below `n`. -/
structure Built (m : Module) (cfa : Cfa) (env : Var → List Var) (n : Ppt) (s : St) : Prop where
  uniq : m.UniquePoints
  lt : ∀ e ∈ m.exps, e.ppt < n
  does : Does cfa env n (m.exps.map Exp.ppt) m.exps (scopes cfa m.exps) (setLocations (.start n) m) s

section

variable {m : Module} {cfa : Cfa} {env : Var → List Var} {n : Ppt} {s : St}

theorem setLocations_start (m : Module) (n : Ppt) :
    (setLocations (.start n) m).map = ∅ ∧ (setLocations (.start n) m).ptlist = [] ∧
      (setLocations (.start n) m).next = n + 1 := by
  have h := SetLocations.located_lambda' m.body { St.start n with next := (St.start n).next + 1 } (St.start n).next
  exact ⟨h.map, h.ptlist, h.next⟩

theorem built (hm : m.UniquePoints) (hlt : ∀ e ∈ m.exps, e.ppt < n)
    (h : addNeighbors cfa env m (setLocations (.start n) m) = some s) : Built m cfa env n s := by
  obtain ⟨hmap, -, hnext⟩ := setLocations_start m n
  refine ⟨hm, hlt, does_doLambda ⟨?_, ?_, ?_⟩ ⟨hlt, hm.points, ?_⟩ h⟩
  · rw [hnext]
    exact Nat.le_succ n
  · intro x _
    rw [hmap, get_empty]
  · grind [body_setLocations, body_mem]
  · intro e _
    rw [hmap, get_empty]

/-- A step in the recorded map, fabricated points included. -/
def Step (s : St) (p q : Ppt) : Prop := q ∈ follow s.map s.ptlist p

theorem step_iff {p q : Ppt} : Step s p q ↔ s.map[p]? = some .top ∧ q ∈ s.ptlist ∨ Edge s p q := by
  unfold Step follow Edge
  cases s.map[p]? with
  | none => simp
  | some r => cases r <;> simp [listItems]

theorem Step.has_entry {p q : Ppt} (h : Step s p q) : s.map[p]? ≠ none := by
  intro hn
  unfold Step follow at h
  rw [hn] at h
  cases h

theorem visited_ne_nil {f g : Var} {fs : List Var} (h : g ∈ fs) : ∃ g', g' ∈ visited env f fs := by
  cases fs with
  | nil => cases h
  | cons g' fs =>
    refine ⟨g', ?_⟩
    rw [visited]
    split <;> exact mem_cons_self

namespace Built

variable (hb : Built m cfa env n s)

include hb

variable {q p : Ppt}

theorem mem_ptlist : q ∈ s.ptlist ↔ ∃ e ∈ m.exps, unknownScope cfa e = some q := by
  rw [hb.does.ptlist, (setLocations_start m n).2.1, scopes, List.mem_filterMap]
  simp

/-- The location of a body is that of its lambda, or a point nothing else is known about. -/
theorem body_cases {g : Var} (h : s.body g = some p) :
    (∃ fb ∈ m.lambdas, fb.f = g ∧ fb.body.ppt = p) ∨ s.map[p]? = none ∧ n ≤ p := by
  rcases hb.does.junk g p h with h | ⟨hle, -, hn⟩
  · exact .inl ((body_setLocations hb.uniq n g p).mp h)
  · exact .inr ⟨hn, hle⟩

theorem body_lambda {fb : Lambda} (h : fb ∈ m.lambdas) : s.body fb.f = some fb.body.ppt :=
  hb.does.body _ _ ((body_setLocations hb.uniq n _ _).mpr ⟨fb, h, rfl, rfl⟩)

/-- Every recorded step of the graph is a path in the map. -/
theorem path_of_linked (h : Linked m cfa env p q) : TransGen (Step s) p q := by
  cases h with
  | next he hq => exact .single (step_iff.mpr (.inr ((hb.does.entries _ he).next q hq)))
  | known he hf hfs hfb hm' =>
    obtain ⟨b, hgb, hr⟩ := (hb.does.entries _ he).calls _ _ hf hfs _ hm'
    rw [hb.body_lambda hfb] at hgb
    cases hgb
    rcases hr with hr | ⟨x, -, -, hr, hr'⟩
    · exact .single (step_iff.mpr (.inr hr))
    · exact (TransGen.single (step_iff.mpr (.inr hr))).tail (step_iff.mpr (.inr hr'))
  | unknown he hf ht he' hq =>
    refine .single (step_iff.mpr (.inl ⟨((hb.does.entries _ he).top).mpr ⟨_, hf, ht⟩, ?_⟩))
    exact hb.mem_ptlist.mpr ⟨_, he', hq⟩

/-- A fabricated point before the body of `g`. -/
def Before (n : Ppt) (s : St) (x : Ppt) (g : Var) : Prop :=
  n ≤ x ∧ s.map[x]? ≠ some .top ∧ ∀ r, Edge s x r → s.body g = some r

/-- Where a step of the map from a point of the module leads. -/
theorem step_cases {e : Exp} (he : e ∈ m.exps) (h : Step s e.ppt q) :
    Linked m cfa env e.ppt q ∨ n ≤ q ∧ s.map[q]? = none ∨ ∃ g, Before n s q g ∧ ∀ fb ∈ m.lambdas, fb.f = g → Linked
      m cfa env e.ppt fb.body.ppt := by
  have hent := hb.does.entries e he
  rcases step_iff.mp h with ⟨ht, hq⟩ | hq
  · obtain ⟨f, hf, ht⟩ := hent.top.mp ht
    obtain ⟨e', he', hq⟩ := hb.mem_ptlist.mp hq
    exact .inl (.unknown he hf ht he' hq)
  · rcases hent.only q hq with hq | ⟨f, fs, hf, hfs, hT⟩
    · exact .inl (.next he hq)
    · rcases hT with ⟨g, hg, hgb⟩ | ⟨hle, -, hnt, g, hg, hr⟩
      · rcases hb.body_cases hgb with ⟨fb, hfb, hfg, rfl⟩ | ⟨hn, hle⟩
        · exact .inl (.known he hf hfs hfb (hfg ▸ hg))
        · exact .inr (.inl ⟨hle, hn⟩)
      · refine .inr (.inr ⟨g, ⟨hle, hnt, hr⟩, fun fb hfb hfg => ?_⟩)
        exact .known he hf hfs hfb (hfg ▸ hg)

/-- From a fabricated point control goes to the body, or nowhere. -/
theorem before_step {x : Ppt} {g : Var} (hx : Before n s x g) (h : Step s x q) :
    (∃ fb ∈ m.lambdas, fb.f = g ∧ fb.body.ppt = q) ∨ n ≤ q ∧ s.map[q]? = none := by
  obtain ⟨-, hnt, hr⟩ := hx
  rcases step_iff.mp h with ⟨ht, -⟩ | he
  · exact absurd ht hnt
  · rcases hb.body_cases (hr q he) with hfb | ⟨hn, hle⟩
    · exact .inl hfb
    · exact .inr ⟨hle, hn⟩

/-- A path of the map to a point of the module stays in the graph, but for fabricated points that
    stand before the body they lead to. The induction is on the path from its first step. -/
theorem linked_of_path (hq : q < n) (h : TransGen (Step s) p q) :
    (IsPoint m p → TransGen (Linked m cfa env) p q) ∧ ∀ g, Before n s p g → ∃ fb ∈ m.lambdas, fb.f = g ∧
      ReflTransGen (Linked m cfa env) fb.body.ppt q := by
  induction h using TransGen.head_induction_on with
  | single hstep =>
    refine ⟨?_, fun g hx => ?_⟩
    · rintro ⟨e, he, rfl⟩
      rcases hb.step_cases he hstep with hl | ⟨hle, -⟩ | ⟨g, ⟨hle, -⟩, -⟩
      · exact .single hl
      · lia
      · lia
    · rcases hb.before_step hx hstep with ⟨fb, hfb, hfg, rfl⟩ | ⟨hle, -⟩
      · exact ⟨fb, hfb, hfg, .refl⟩
      · lia
  | head hstep hrest ih =>
    obtain ⟨ihp, ihx⟩ := ih
    have hentry := (TransGen.head'_iff.mp hrest).choose_spec.1.has_entry
    refine ⟨?_, fun g hx => ?_⟩
    · rintro ⟨e, he, rfl⟩
      rcases hb.step_cases he hstep with hl | ⟨-, hn⟩ | ⟨g, hx, hg⟩
      · exact .head hl (ihp hl.isPoint.2)
      · exact absurd hn hentry
      grind [TransGen.head']
    · rcases hb.before_step hx hstep with ⟨fb, hfb, hfg, rfl⟩ | ⟨-, hn⟩
      · exact ⟨fb, hfb, hfg, (ihp ⟨_, body_mem hfb, rfl⟩).to_reflTransGen⟩
      · exact absurd hn hentry

/-- Between points of the module the map and the graph have the same paths. -/
theorem linked_iff (hp : IsPoint m p) (hq : IsPoint m q) :
    TransGen (Step s) p q ↔ TransGen (Linked m cfa env) p q := by
  constructor
  · intro h
    obtain ⟨e, he, rfl⟩ := hq
    exact (hb.linked_of_path (hb.lt e he) h).1 hp
  · intro h
    exact TransGen.closed (fun _ _ => hb.path_of_linked) _ _ h

/-- A point that control leaves has an entry. -/
theorem mem_map_of_flow (h : Flow m cfa p q) : p ∈ s.map := by
  rw [Std.TreeMap.mem_iff_isSome_getElem?]
  have edge : ∀ {p q : Ppt}, Edge s p q → (s.map[p]?).isSome := by
    rintro p q ⟨ps, hps, -⟩
    rw [hps]
    rfl
  cases h with
  | next he hq => exact edge ((hb.does.entries _ he).next q hq)
  | known he hf hfs hfb hm' =>
    obtain ⟨g, hg⟩ := visited_ne_nil hm'
    obtain ⟨b, -, hr⟩ := (hb.does.entries _ he).calls _ _ hf hfs g hg
    rcases hr with hr | ⟨x, -, -, hr, -⟩
    · exact edge hr
    · exact edge hr
  | unknown he hf ht hfb hu =>
    rw [((hb.does.entries _ he).top).mpr ⟨_, hf, ht⟩]
    rfl

end Built

theorem Flow.isPoint {p q : Ppt} (h : Flow m cfa p q) : IsPoint m p ∧ IsPoint m q := by
  cases h with
  | next he hq => exact ⟨⟨_, he, rfl⟩, next_mem he hq⟩
  | known he _ _ hfb _ | unknown he _ _ hfb _ => exact ⟨⟨_, he, rfl⟩, _, body_mem hfb, rfl⟩

end

/-! ## The answers of the pass -/

/-- What the component finder does for the graph the pass gives it. -/
def FindsComponents (topOrder : TopOrder) (cfa : Cfa) (env : Var → List Var) (m : Module) (next : Ppt) : Prop :=
  ∀ s, addNeighbors cfa env m (setLocations (.start next) m) = some s →
    IsSCC s.map.keys (follow s.map s.ptlist) (topOrder s.map.keys (follow s.map s.ptlist))

/-- `pathExists` after `analyze`. -/
def answer (topOrder : TopOrder) (cfa : Cfa) (env : Var → List Var) (m : Module) (next p q : Ppt) : Option Bool := do
  pathExists (← analyze topOrder cfa env m next) p q

section

variable {topOrder : TopOrder} {cfa : Cfa} {env : Var → List Var} {m : Module} {next p q : Ppt}

theorem answer_raises (h : ¬ AllCallable cfa m.exps) : answer topOrder cfa env m next p q = none := by
  have hnone : addNeighbors cfa env m (setLocations (.start next) m) = none := by
    rw [← Option.not_isSome_iff_eq_none]
    exact fun hs => h ((isSome_doLambda m.body _).mp hs)
  unfold answer analyze
  rw [hnone]
  rfl

/-- Where the traversal succeeds the answer is read off the recorded graph. -/
theorem answer_built {s : St} (hs : addNeighbors cfa env m (setLocations (.start next) m) = some s)
    (hb : Built m cfa env next s) (hscc : FindsComponents topOrder cfa env m next) (hflow : TransGen (Flow m cfa) p q) :
    answer topOrder cfa env m next p q = some true ↔ p = q ∨ OnCycle m cfa env p q := by
  obtain ⟨r, hpr, -⟩ := TransGen.head'_iff.mp hflow
  obtain ⟨r', -, hrq⟩ := TransGen.tail'_iff.mp hflow
  have h := pathExists_compressed (hscc s hs) rfl (b := q) (hb.mem_map_of_flow hpr)
  unfold answer analyze
  rw [hs, OnCycle, ← hb.linked_iff hpr.isPoint.1 hrq.isPoint.2, ← hb.linked_iff hrq.isPoint.2 hpr.isPoint.1]
  exact h

/-- For points with a flow between them the pass answers that there is one exactly when every call
    of the module is through a function, and the points are equal or on a cycle of the graph it records. -/
theorem pathExists_iff (hm : m.UniquePoints) (hnext : ∀ e ∈ m.exps, e.ppt < next)
    (hscc : FindsComponents topOrder cfa env m next) (hflow : TransGen (Flow m cfa) p q) :
    answer topOrder cfa env m next p q = some true ↔
      AllCallable cfa m.exps ∧ (p = q ∨ OnCycle m cfa env p q) := by
  by_cases hc : AllCallable cfa m.exps
  · obtain ⟨s, hs⟩ : ∃ s, addNeighbors cfa env m (setLocations (.start next) m) = some s :=
      Option.isSome_iff_exists.mp ((isSome_doLambda m.body _).mpr hc)
    rw [answer_built hs (built hm hnext hs) hscc hflow]
    simp [hc]
  · rw [answer_raises hc]
    simp [hc]

end

/-! ## Examples of the graph -/

/-- A function on the points that never grows along an edge certifies components. -/
theorem IsSCC.of_rank {roots : List Ppt} {follow : Ppt → List Ppt} {comps : List Component} (rank : Ppt → Nat)
    (hdown : ∀ a b, b ∈ follow a → rank b ≤ rank a)
    (hroots : ∀ r ∈ roots, ∃ c ∈ comps, r ∈ c.nodes)
    (hclosed : ∀ c ∈ comps, ∀ p ∈ c.nodes, ∀ q ∈ follow p, ∃ c' ∈ comps, q ∈ c'.nodes)
    (hreached : ∀ c ∈ comps, ∀ p ∈ c.nodes, ∃ r ∈ roots, ReflTransGen (fun a b => b ∈ follow a) r p)
    (hrank : ∀ c ∈ comps, ∀ p ∈ c.nodes, ∀ q, rank q = rank p → q ∈ c.nodes)
    (hconn : ∀ c ∈ comps, ∀ p ∈ c.nodes, ∀ q ∈ c.nodes, p = q ∨ TransGen (fun a b => b ∈ follow a) p q)
    (disjoint : comps.Pairwise fun c c' => ∀ p ∈ c.nodes, p ∉ c'.nodes) : IsSCC roots follow comps := by
  have hdown' : ∀ {a b}, TransGen (fun a b => b ∈ follow a) a b → rank b ≤ rank a := by
    intro a b h
    induction h with
    | single h => exact hdown _ _ h
    | tail _ h ih => exact (hdown _ _ h).trans ih
  refine ⟨fun p => ⟨fun ⟨c, hc, hp⟩ => hreached c hc p hp, ?_⟩, fun c hc p hp q => ⟨fun hq => ?_, ?_⟩, disjoint⟩
  · intro ⟨r, hr, hpath⟩
    induction hpath with
    | refl => exact hroots r hr
    | tail _ h ih =>
      obtain ⟨c, hc, hp⟩ := ih
      exact hclosed c hc _ hp _ h
  · grind
  grind

/-- A map with one successor for each point it knows. -/
theorem mem_follow_singletons {map : PMap Reaches} (ptlist : List Ppt) (edges : List (Ppt × Ppt))
    (h : map.toList = edges.map fun e => (e.1, .reaches {e.2})) (p q : Ppt) : q ∈ follow map ptlist p ↔ (p, q) ∈ edges := by
  have hget : ∀ r, map[p]? = some r ↔ ∃ e ∈ edges, (e.1, Reaches.reaches {e.2}) = (p, r) := by
    intro r
    rw [← Std.TreeMap.mem_toList_iff_getElem?_eq_some, h, List.mem_map]
  constructor
  · intro hq
    unfold follow at hq
    cases hr : map[p]? with
    | none => simp [hr] at hq
    | some r =>
      obtain ⟨⟨a, b⟩, he, heq⟩ := (hget r).mp hr
      cases heq
      rw [hr] at hq
      have hqb : q = b := by simpa [listItems] using hq
      exact hqb ▸ he
  · intro he
    unfold follow
    rw [(hget _).mpr ⟨(p, q), he, rfl⟩]
    simp [listItems]

/-- The analysis that knows the same of every variable; no function escapes. -/
def constCfa (v : Value) : Cfa := ⟨fun _ => v, fun _ => .known []⟩

/-- A function that binds two constants and calls a variable of which nothing is known. -/
def straight : Module where
  externs := []
  body := .fb ⟨0⟩ [] []
    (.let_ 1 [⟨1⟩] (.const (.enum 0) (.enum 1)) (.let_ 2 [⟨2⟩] (.const (.enum 0) (.enum 1)) (.apply 3 ⟨1⟩ [] [])))

/-- A function that calls another, which binds a constant and calls itself. -/
def looping : Module where
  externs := []
  body := .fb ⟨0⟩ [] [] (.fun_ 1 [.fb ⟨1⟩ [] [] (.let_ 2 [⟨2⟩] (.const (.enum 0) (.enum 1)) (.apply 3 ⟨1⟩ [] []))]
    (.apply 4 ⟨1⟩ [] []))

theorem straight_components :
    FindsComponents (fun _ _ => [.simple 3, .simple 2, .simple 1]) (constCfa .bot) (fun _ => []) straight 4 := by
  intro s hs
  have hmap : (addNeighbors (constCfa .bot) (fun _ => []) straight (setLocations (.start 4) straight)).map
      (fun s => (s.map.keys, s.map.toList)) = some ([1, 2], [(1, .reaches {2}), (2, .reaches {3})]) := rfl
  rw [hs] at hmap
  obtain ⟨hkeys : s.map.keys = [1, 2], hlist⟩ := Prod.mk.inj (Option.some.inj hmap)
  have hstep := mem_follow_singletons s.ptlist [(1, 2), (2, 3)] hlist
  rw [hkeys]
  refine .of_rank (fun p => 4 - p) ?_ ?_ ?_ ?_ ?_ ?_ ?_
  · simp only [hstep]
    simp
    lia
  · simp [nodes]
  · simp [nodes, hstep]
  · have h₂ : ReflTransGen (fun a b => b ∈ follow s.map s.ptlist a) 2 3 := .single (by simp [hstep])
    simp [nodes, h₂, refl]
  · simp [nodes]
    lia
  · simp [nodes]
  · simp [nodes]

theorem looping_components : FindsComponents (fun _ _ => [.recursive 2 [3], .simple 4, .simple 1])
    (constCfa (.lambdas [⟨1⟩])) (fun _ => []) looping 5 := by
  intro s hs
  have hmap : (addNeighbors (constCfa (.lambdas [⟨1⟩])) (fun _ => []) looping (setLocations (.start 5) looping)).map
      (fun s => (s.map.keys, s.map.toList)) = some ([1, 2, 3, 4],
        [(1, .reaches {4}), (2, .reaches {3}), (3, .reaches {2}), (4, .reaches {2})]) := rfl
  rw [hs] at hmap
  obtain ⟨hkeys : s.map.keys = [1, 2, 3, 4], hlist⟩ := Prod.mk.inj (Option.some.inj hmap)
  have hstep := mem_follow_singletons s.ptlist [(1, 4), (2, 3), (3, 2), (4, 2)] hlist
  rw [hkeys]
  refine .of_rank (fun p => if p = 2 ∨ p = 3 then 0 else if p = 4 then 1 else if p = 1 then 2 else 3) ?_ ?_ ?_ ?_ ?_ ?_ ?_
  · simp only [hstep]
    simp
    lia
  · simp [nodes]
  · simp [nodes, hstep]
  · simp only [mem_cons, not_mem_nil, or_false, nodes, forall_eq_or_imp, forall_eq]
    simp [refl]
  · simp [nodes]
    lia
  · have h₂ : TransGen (fun a b => b ∈ follow s.map s.ptlist a) 2 3 := .single (by simp [hstep])
    have h₃ : TransGen (fun a b => b ∈ follow s.map s.ptlist a) 3 2 := .single (by simp [hstep])
    simp only [mem_cons, not_mem_nil, or_false, nodes, forall_eq_or_imp, forall_eq]
    simp [h₂, h₃]
  · simp [nodes]

theorem straight_exps : straight.exps = [straight.body.body,
    .let_ 2 [⟨2⟩] (.const (.enum 0) (.enum 1)) (.apply 3 ⟨1⟩ [] []), .apply 3 ⟨1⟩ [] []] := rfl

/-- In straight-line code control only goes forward. -/
theorem straight_forward {env : Var → List Var} {p q : Ppt} (h : TransGen (Linked straight (constCfa .bot) env) p q) :
    p < q := by
  have hone : ∀ {p q}, Linked straight (constCfa .bot) env p q → p < q := by
    intro p q h
    cases h with
    | next he hq =>
      rw [straight_exps] at he
      simp only [mem_cons, not_mem_nil, or_false] at he
      rcases he with rfl | rfl | rfl
      · cases mem_singleton.mp hq
        decide
      · cases mem_singleton.mp hq
        decide
      · cases hq
    | known _ _ hfs => cases hfs
    | unknown _ _ ht => cases ht
  induction h with
  | single h => exact hone h
  | tail _ h ih => exact ih.trans (hone h)

/-- From the first binding of `straight` control flows to the second, and the pass denies it. -/
theorem straight_denied : straight.UniquePoints ∧ (∀ e ∈ straight.exps, e.ppt < 4) ∧
    FindsComponents (fun _ _ => [.simple 3, .simple 2, .simple 1]) (constCfa .bot) (fun _ => []) straight 4 ∧
    TransGen (Flow straight (constCfa .bot)) 1 2 ∧
    answer (fun _ _ => [.simple 3, .simple 2, .simple 1]) (constCfa .bot) (fun _ => []) straight 4 1 2 ≠ some true := by
  have huniq : straight.UniquePoints := by constructor <;> decide
  have hlt : ∀ e ∈ straight.exps, e.ppt < 4 := by
    rw [straight_exps]
    simp [straight, Exp.ppt]
  have hflow : TransGen (Flow straight (constCfa .bot)) 1 2 := by
    have he : straight.body.body ∈ straight.exps := by simp [straight_exps]
    exact .single (.next he (mem_singleton.mpr rfl))
  refine ⟨huniq, hlt, straight_components, hflow, fun h => ?_⟩
  obtain ⟨s, hs⟩ : ∃ s, addNeighbors (constCfa .bot) (fun _ => []) straight (setLocations (.start 4) straight) = some s :=
    ⟨_, rfl⟩
  rcases (answer_built hs (built huniq hlt hs) straight_components hflow).mp h with h | ⟨-, h⟩
  · cases h
  · exact absurd (straight_forward h) (by decide)

/-- In a loop the pass finds the way around. -/
theorem looping_found : answer (fun _ _ => [.recursive 2 [3], .simple 4, .simple 1]) (constCfa (.lambdas [⟨1⟩]))
    (fun _ => []) looping 5 2 3 = some true := by
  have huniq : looping.UniquePoints := by constructor <;> decide
  have hexps : looping.exps = [looping.body.body, .let_ 2 [⟨2⟩] (.const (.enum 0) (.enum 1)) (.apply 3 ⟨1⟩ [] []),
    .apply 3 ⟨1⟩ [] [], .apply 4 ⟨1⟩ [] []] := rfl
  have hlt : ∀ e ∈ looping.exps, e.ppt < 5 := by
    rw [hexps]
    simp [looping, Exp.ppt]
  have h₂ : (.let_ 2 [⟨2⟩] (.const (.enum 0) (.enum 1)) (.apply 3 ⟨1⟩ [] [])) ∈ looping.exps := by simp [hexps]
  have h₃ : (.apply 3 ⟨1⟩ [] []) ∈ looping.exps := by simp [hexps]
  have hfb : .fb ⟨1⟩ [] [] (.let_ 2 [⟨2⟩] (.const (.enum 0) (.enum 1)) (.apply 3 ⟨1⟩ [] [])) ∈ looping.lambdas := by
    simp [looping, Module.lambdas, exps, Lambda.subs, subs, Exp.fbs]
  have hflow : TransGen (Flow looping (constCfa (.lambdas [⟨1⟩]))) 2 3 := .single (.next h₂ (mem_singleton.mpr rfl))
  have hcall : AllCallable (constCfa (.lambdas [⟨1⟩])) looping.exps := fun _ _ _ _ => trivial
  refine (pathExists_iff huniq hlt looping_components hflow).mpr ⟨hcall, .inr ⟨?_, ?_⟩⟩
  · exact .single (.next h₂ (mem_singleton.mpr rfl))
  · exact .single (.known h₃ rfl rfl hfb mem_cons_self)

end Manticore.Cps.Reflow
