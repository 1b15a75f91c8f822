/-
  Manticore.Translate.NestedPTup — parallel tuples of more than `k` elements: nested tuples of at most `k` elements, and
  the code that flattens them again (`nestedSelect`, `enumerate`, `transNestedPTup` and `flatten` of
  `translate/translate-ptup.sml`). The translation of a tuple of at most `k` elements is in `Manticore.Translate.PTup`.

  - `partition_groups`: both recursions split `n` elements into the same groups.
  - `transDoit_paths`: the paths lead to the elements, in order, and no tuple has more than `k` members.
  - `nested_ptup`: the code makes the tuple of the elements' values.
-/

import Manticore.Bom.Bindings

namespace Manticore.Translate.NestedPTup

open Bom Transition
open List (map_cons zipIdx_cons mem_cons_self Forall₂ flatMap_cons mapM_map length_map mem_map)

/-- The maximum number of elements in a flat tuple. -/
abbrev MaxElts := {k : Nat // 2 ≤ k}

/-- The quotient of the two reals is exact enough for `ceil` to round it up. -/
def ceilingDiv (x y : Nat) : Nat := (x + y - 1) / y

theorem ceilingDiv_pos (k : MaxElts) (n : Nat) : 0 < ceilingDiv (n + 1) k := by
  obtain ⟨k, hk⟩ := k
  exact Nat.div_pos (by show k ≤ n + 1 + k - 1; omega) (by show 0 < k; omega)

theorem le_ceilingDiv_mul (k : MaxElts) (n : Nat) : n ≤ ceilingDiv n k * k := by
  obtain ⟨k, hk⟩ := k
  have hdiv := Nat.div_add_mod (n + k - 1) k
  have hmod := Nat.mod_lt (n + k - 1) (show 0 < k by omega)
  rw [Nat.mul_comm] at hdiv
  show n ≤ (n + k - 1) / k * k
  omega

theorem ceilingDiv_lt (k : MaxElts) {n : Nat} (hn : 2 ≤ n) : ceilingDiv n k < n := by
  obtain ⟨k, hk⟩ := k
  refine Nat.div_lt_of_lt_mul ?_
  show n + k - 1 < k * n
  obtain ⟨m, rfl⟩ : ∃ m, n = m + 2 := ⟨n - 2, by omega⟩
  obtain ⟨j, rfl⟩ : ∃ j, k = j + 2 := ⟨k - 2, by omega⟩
  rw [Nat.add_mul, Nat.mul_add]
  omega

/-! ## Paths -/

/-- `partition` of `enumerate`: the size of each group and the path to it, the last index first. -/
def partition (x : Nat) (hx : 0 < x) (p : List Nat) (i n : Nat) : List (Nat × List Nat) :=
  if n > 0 then (min n x, i :: p) :: partition x hx p (i + 1) (n - x) else []
termination_by n

theorem partition_le {x : Nat} {hx : 0 < x} {p : List Nat} {i n : Nat} {g : Nat × List Nat} (h : g ∈ partition x hx p i n) :
    g.1 ≤ x := by
  induction n using Nat.strongRecOn generalizing i with
  | _ n ih =>
    rw [partition] at h
    by_cases hn : n > 0
    · rw [if_pos hn] at h
      grind
    · rw [if_neg hn] at h
      cases h

/-- `doit` of `enumerate`. -/
def paths (k : MaxElts) : Nat → List Nat → List (List Nat)
  | 1, p => [p.reverse]
  -- there are no groups of no elements
  | 0, _ => []
  | n + 2, p => (partition (ceilingDiv (n + 2) k) (ceilingDiv_pos k (n + 1)) p 0 (n + 2)).attach.flatMap fun g =>
    paths k g.1.1 g.1.2
termination_by n => n
decreasing_by
  have hle := partition_le g.2
  have hlt := ceilingDiv_lt k (show 2 ≤ n + 2 by omega)
  omega

def enumerate (k : MaxElts) (n : Nat) : List (List Nat) := paths k n []

/-! ## Nested tuples -/

variable {E : Type}

/-- `List.take`, which raises when the list is shorter. -/
def take (es : List E) (m : Nat) : Option (List E) := if m ≤ es.length then some (es.take m) else none

/-- `List.drop`. -/
def drop (es : List E) (m : Nat) : Option (List E) := if m ≤ es.length then some (es.drop m) else none

/-- `partition` of `transNestedPTup`. -/
def partitionExps (x : Nat) (hx : 0 < x) (n : Nat) (es : List E) : Option (List (Nat × List E)) :=
  if n > 0 then do
    let g ← take es (min n x)
    let es' ← drop es (min n x)
    let gs ← partitionExps x hx (n - x) es'
    return (min n x, g) :: gs
  else some []
termination_by n

theorem partitionExps_le {x : Nat} {hx : 0 < x} {n : Nat} {es : List E} {gs : List (Nat × List E)}
    (h : partitionExps x hx n es = some gs) {g : Nat × List E} (hg : g ∈ gs) : g.1 ≤ x := by
  induction n using Nat.strongRecOn generalizing es gs with
  | _ n ih =>
    rw [partitionExps] at h
    by_cases hn : n > 0
    · rw [if_pos hn] at h
      grind [Option.bind_eq_some_iff]
    · rw [if_neg hn] at h
      cases h
      cases hg

/-- `doit` of `transNestedPTup`. -/
def transDoit (tr : List E → E) (k : MaxElts) : Nat → List E → Option E
  | 1, [e] => some e
  -- otherwise the one group is the first element
  | 1, [] => none
  | 1, e :: _ :: _ => some (tr [e])
  | 0, _ => some (tr [])
  | n + 2, es => match _h : partitionExps (ceilingDiv (n + 2) k) (ceilingDiv_pos k (n + 1)) (n + 2) es with
    | none => none
    | some gs => (gs.attach.mapM fun g => transDoit tr k g.1.1 g.1.2).map tr
termination_by n => n
decreasing_by
  have hle := partitionExps_le _h g.2
  have hlt := ceilingDiv_lt k (show 2 ≤ n + 2 by omega)
  omega

def transNestedPTup (tr : List E → E) (k : MaxElts) (n : Nat) (es : List E) : Option E := transDoit tr k n es

/-- `mk` of `nestedSelect`; `List.nth` raises `Subscript`, and the match fails on a type that is no tuple. -/
def mkSelect (f : TVar → Gen Exp) : TVar → Ty → List Nat → Gen Exp
  | prev, _, [] => f prev
  | prev, .tuple _ tys, d :: ds => match tys[d]? with
    | none => raise
    | some ty => do
      let v ← newTVar ty
      let e ← mkSelect f v ty ds
      return mkStmts [([v.var], .select d prev.var)] e
  | _, _, _ :: _ => raise

def nestedSelect (tup : TVar) (ixs : List Nat) (f : TVar → Gen Exp) : Gen Exp := mkSelect f tup tup.ty ixs

/-- `lp` of `flatten`. -/
def flattenLp (tup : TVar) (flatTy : Ty) : List (List Nat) → List TVar → Gen Exp
  | [], vs => do
    let flatTup ← newTVar flatTy
    return mkStmts [([flatTup.var], .alloc flatTy (vs.reverse.map TVar.var))] (.ret [flatTup.var])
  | path :: paths, vs => nestedSelect tup path fun v => flattenLp tup flatTy paths (v :: vs)

def flatten (tup : TVar) (k : MaxElts) (n : Nat) (flatTy : Ty) : Gen Exp := flattenLp tup flatTy (enumerate k n) []

/-- Source expressions and the parallel tuples made of them. -/
inductive PExp (E : Type) where
  | elt (e : E)
  | ptup (es : List (PExp E))

namespace PExp

/-- The expression at the end of a path. -/
def at_ : PExp E → List Nat → Option (PExp E)
  | e, [] => some e
  | ptup es, d :: ds => (es[d]?).bind fun e => at_ e ds
  | elt _, _ :: _ => none

mutual

/-- Every tuple has at least two members and at most `k`. -/
def Grouped (k : MaxElts) : PExp E → Prop
  | elt _ => True
  | ptup es => 2 ≤ es.length ∧ es.length ≤ k.1 ∧ GroupedAll k es

def GroupedAll (k : MaxElts) : List (PExp E) → Prop
  | [] => True
  | e :: es => Grouped k e ∧ GroupedAll k es

end

mutual

/-- `BOMUtil.typeOfExp`. -/
def ty (tyOf : E → Ty) : PExp E → Ty
  | elt e => tyOf e
  | ptup es => .tuple false (tys tyOf es)

def tys (tyOf : E → Ty) : List (PExp E) → List Ty
  | [] => []
  | e :: es => ty tyOf e :: tys tyOf es

end

mutual

/-- The value of the expression: a parallel tuple makes the tuple of its members' values. -/
def val (valOf : E → Val) : PExp E → Val
  | elt e => valOf e
  | ptup es => .tuple (vals valOf es)

def vals (valOf : E → Val) : List (PExp E) → List Val
  | [] => []
  | e :: es => val valOf e :: vals valOf es

end

theorem tys_eq_map (tyOf : E → Ty) (es : List (PExp E)) : tys tyOf es = es.map (ty tyOf) := by
  induction es with
  | nil => rfl
  | cons e es ih => rw [tys, ih, map_cons]

theorem vals_eq_map (valOf : E → Val) (es : List (PExp E)) : vals valOf es = es.map (val valOf) := by
  induction es with
  | nil => rfl
  | cons e es ih => rw [vals, ih, map_cons]

end PExp

/-! ## The groups -/

/-- The same groups: `gs`, of at most `x` elements each, one after the other. -/
theorem partition_groups (x : Nat) (hx : 0 < x) (es : List E) :
    ∃ gs : List (List E), partitionExps x hx es.length es = some (gs.map fun g => (g.length, g)) ∧
      (∀ p i, partition x hx p i es.length = (gs.zipIdx i).map (fun g => (g.1.length, g.2 :: p))) ∧
      gs.flatten = es ∧ (∀ g ∈ gs, 0 < g.length ∧ g.length ≤ x) ∧ es.length ≤ gs.length * x ∧
      (0 < es.length → (gs.length - 1) * x < es.length) := by
  induction hn : es.length using Nat.strongRecOn generalizing es with
  | _ n ih =>
    rw [partitionExps]
    by_cases hpos : n > 0
    · have hle : min n x ≤ es.length := by omega
      have hlen : (es.drop (min n x)).length = n - x := by
        rw [List.length_drop]
        omega
      obtain ⟨gs, hexps, hpart, hflat, hsize, hmul, hlast⟩ := ih (n - x) (by omega) (es.drop (min n x)) hlen
      have htake : (es.take (min n x)).length = min n x := by rw [List.length_take, Nat.min_eq_left hle]
      refine ⟨es.take (min n x) :: gs, ?_, fun p i => ?_, ?_, fun g hg => ?_, ?_, fun _ => ?_⟩
      · rw [if_pos hpos, take, drop, if_pos hle, if_pos hle, map_cons, htake]
        show (partitionExps x hx (n - x) (es.drop (min n x))).bind _ = _
        rw [hexps]
        rfl
      · rw [partition, if_pos hpos, hpart, zipIdx_cons, map_cons, htake]
      · rw [List.flatten_cons, hflat, List.take_append_drop]
      · rcases List.mem_cons.mp hg with rfl | hg
        · rw [htake]
          omega
        · exact hsize g hg
      · rw [List.length_cons, Nat.add_mul]
        omega
      · rw [List.length_cons, Nat.add_sub_cancel]
        by_cases hrest : 0 < n - x
        · have hlast := hlast hrest
          obtain ⟨m, hm⟩ : ∃ m, gs.length = m + 1 := by
            refine ⟨gs.length - 1, ?_⟩
            grind
          rw [hm, Nat.add_sub_cancel] at hlast
          rw [hm, Nat.add_mul]
          omega
        · cases gs with
          | nil =>
            show 0 * x < n
            omega
          | cons g gs =>
            -- a group has an element
            have hg := (hsize g mem_cons_self).1
            grind
    · obtain rfl := List.length_eq_zero_iff.mp (show es.length = 0 by omega)
      refine ⟨[], ?_, fun p i => ?_, rfl, List.forall_mem_nil _, by omega, fun h => absurd h hpos⟩
      · rw [if_neg hpos]
        rfl
      · rw [partition, if_neg hpos]
        rfl

/-- A group, with its nested tuple and the paths to its elements. -/
structure Nests (k : MaxElts) (g : List (PExp E)) (r : PExp E × List (List Nat)) : Prop where
  trans : transDoit PExp.ptup k g.length g = some r.1
  grouped : r.1.Grouped k
  paths : ∀ p, paths k g.length p = r.2.map (p.reverse ++ ·)
  selects : Forall₂ (fun q u => r.1.at_ q = some u) r.2 g

theorem exists_forall₂ {α β : Type} {R : α → β → Prop} {l : List α} (h : ∀ a ∈ l, ∃ b, R a b) :
    ∃ l', Forall₂ R l l' := by
  induction l with
  | nil => exact ⟨[], .nil⟩
  | cons a l ih =>
    obtain ⟨b, hb⟩ := h a mem_cons_self
    obtain ⟨l', hl'⟩ := ih fun c hc => h c (List.mem_cons_of_mem a hc)
    exact ⟨b :: l', .cons hb hl'⟩

variable {k : MaxElts} {gs : List (List (PExp E))} {rs : List (PExp E × List (List Nat))}

theorem groups_trans (h : Forall₂ (Nests k) gs rs) :
    gs.mapM (fun g => transDoit PExp.ptup k g.length g) = some (rs.map Prod.fst) ∧
      PExp.GroupedAll k (rs.map Prod.fst) := by
  induction h with
  | nil => exact ⟨rfl, trivial⟩
  | cons hr _ ih =>
    refine ⟨?_, hr.grouped, ih.2⟩
    rw [List.mapM_cons, hr.trans, ih.1]
    rfl

theorem groups_paths (h : Forall₂ (Nests k) gs rs) (i : Nat) (p : List Nat) :
    (gs.zipIdx i).flatMap (fun g => paths k g.1.length (g.2 :: p)) =
      ((rs.zipIdx i).flatMap fun r => r.1.2.map (r.2 :: ·)).map (p.reverse ++ ·) := by
  induction h generalizing i with
  | nil => rfl
  | @cons g r _ _ hr _ ih =>
    rw [zipIdx_cons, flatMap_cons, ih, hr.paths, zipIdx_cons, flatMap_cons, List.map_append,
      List.map_map]
    simp

/-- The first index of a path is that of its group. -/
theorem groups_select (h : Forall₂ (Nests k) gs rs) (pre : List (PExp E)) :
    Forall₂ (fun q u => (PExp.ptup (pre ++ rs.map Prod.fst)).at_ q = some u)
      ((rs.zipIdx pre.length).flatMap fun r => r.1.2.map (r.2 :: ·)) gs.flatten := by
  induction h generalizing pre with
  | nil => exact .nil
  | @cons g r gs rs hr _ ih =>
    have ih := ih (pre ++ [r.1])
    rw [List.length_append, List.append_assoc] at ih
    rw [zipIdx_cons, flatMap_cons, List.flatten_cons]
    refine List.rel_append (List.forall₂_map_left_iff.mpr (hr.selects.imp fun q u hq => ?_)) ih
    show (((pre ++ r.1 :: rs.map Prod.fst)[pre.length]?).bind fun e => e.at_ q) = some u
    rw [List.getElem?_append_right (Nat.le_refl _), Nat.sub_self]
    exact hq

theorem mapM_attach {α β : Type} (l : List α) (f : α → Option β) : (l.attach.mapM fun a => f a.1) = l.mapM f := by
  have hmap := mapM_map (m := Option) (f := Subtype.val) (g := f) (l := l.attach)
  rw [List.attach_map_subtype_val] at hmap
  exact hmap.symm

theorem flatMap_attach {α β : Type} (l : List α) (f : α → List β) : (l.attach.flatMap fun a => f a.1) = l.flatMap f := by
  have hmap := List.flatMap_map (f := Subtype.val) (g := f) l.attach
  rw [List.attach_map_subtype_val] at hmap
  exact hmap.symm

/-- The paths of `enumerate` lead to the elements of the nested tuple. -/
theorem transDoit_paths (k : MaxElts) (us : List (PExp E)) (hpos : 0 < us.length) (hus : ∀ u ∈ us, u.Grouped k) :
    ∃ r, Nests k us r := by
  induction hn : us.length using Nat.strongRecOn generalizing us with
  | _ n ih =>
    match us, hn, hpos with
    | [u], _, _ =>
      refine ⟨(u, [[]]), ?_, hus u mem_cons_self, fun p => ?_, .cons rfl .nil⟩
      · rw [List.length_singleton, transDoit]
      · rw [List.map_singleton, List.append_nil, List.length_singleton, paths]
    | u₁ :: u₂ :: us', hn, _ =>
      have hlen : (u₁ :: u₂ :: us').length = us'.length + 2 := rfl
      have hlt := ceilingDiv_lt k (show 2 ≤ us'.length + 2 by omega)
      have hmul := le_ceilingDiv_mul k (us'.length + 2)
      have hx : 0 < ceilingDiv (us'.length + 2) k := ceilingDiv_pos k (us'.length + 1)
      obtain ⟨gs, hexps, hpart, hflat, hsize, hge, hlast⟩ := partition_groups _ hx (u₁ :: u₂ :: us')
      obtain ⟨rs, hrs⟩ : ∃ rs, Forall₂ (Nests k) gs rs := exists_forall₂ fun g hg => by
        obtain ⟨hg0, hgx⟩ := hsize g hg
        grind [List.mem_flatten]
      have hsame := hrs.length_eq
      obtain ⟨htrans, hgrouped⟩ := groups_trans hrs
      have hlast := hlast (by omega)
      rw [hlen] at hexps hge hlast
      refine ⟨(.ptup (rs.map Prod.fst), (rs.zipIdx 0).flatMap fun r => r.1.2.map (r.2 :: ·)), ?_, ⟨?_, ?_, hgrouped⟩,
        fun p => ?_, ?_⟩
      · rw [hlen, transDoit]
        split
        · rename_i hnone
          cases hexps.symm.trans hnone
        · rename_i gs' hsome
          cases hexps.symm.trans hsome
          rw [mapM_attach _ fun g : Nat × List (PExp E) => transDoit PExp.ptup k g.1 g.2, mapM_map]
          show (gs.mapM fun g => transDoit PExp.ptup k g.length g).map PExp.ptup = _
          rw [htrans]
          rfl
      · -- one group would have all the elements
        rw [length_map, ← hsame]
        by_contra hfew
        have hone : gs.length * ceilingDiv (us'.length + 2) k ≤ 1 * ceilingDiv (us'.length + 2) k :=
          Nat.mul_le_mul_right _ (by omega)
        omega
      · rw [length_map, ← hsame]
        by_contra hmany
        have hk : k.1 * ceilingDiv (us'.length + 2) k ≤ (gs.length - 1) * ceilingDiv (us'.length + 2) k :=
          Nat.mul_le_mul_right _ (by omega)
        rw [Nat.mul_comm] at hmul
        omega
      · rw [hlen] at hpart
        rw [hlen, paths, hpart, flatMap_attach _ fun g : Nat × List Nat => paths k g.1 g.2, List.flatMap_map]
        exact groups_paths hrs 0 p
      · have hselect := groups_select hrs []
        rw [hflat] at hselect
        exact hselect

/-! ## The code that flattens the tuple -/

variable {tyOf : E → Ty} {tup : TVar}

/-- The code selects the subexpression at the end of the path, with its type and its value. -/
theorem mkSelect_run (valOf : E → Val) {e u : PExp E} {ds : List Nat} (hat : e.at_ ds = some u) (prev : TVar) {ty : Ty}
    (hprev : prev.ty = ty) (hty : ty = e.ty tyOf) (f : TVar → Gen Exp) (c : Nat) (hlt : prev.var.stamp < c) :
    ∃ binds v c', mkSelect f prev ty ds c = (f v c').bind (fun r => some (mkStmts binds r.1, r.2)) ∧ c ≤ c' ∧
      v.ty = u.ty tyOf ∧ v.var.stamp < c' ∧ (v = prev ∨ c ≤ v.var.stamp) ∧
      ∀ ρ : Env, ρ prev.var = some (e.val valOf) →
        ∃ ρ', ρ.run binds = some ρ' ∧ ρ.Same c c' ρ' ∧ ρ' v.var = some (u.val valOf) := by
  induction ds generalizing e prev ty c with
  | nil =>
    cases hat
    refine ⟨[], prev, c, ?_, Nat.le_refl c, hprev.trans hty, hlt, .inl rfl, fun ρ hρ => ⟨ρ, rfl, .refl _ _ _, hρ⟩⟩
    rw [mkSelect]
    cases f prev c with
    | none => rfl
    | some r => rfl
  | cons d ds ih =>
    cases e with
    | elt e => cases hat
    | ptup es =>
      obtain ⟨e, hget, hat⟩ := Option.bind_eq_some_iff.mp hat
      have htys : (PExp.tys tyOf es)[d]? = some (e.ty tyOf) := by
        rw [PExp.tys_eq_map, List.getElem?_map, hget]
        rfl
      have hvals : (PExp.vals valOf es)[d]? = some (e.val valOf) := by
        rw [PExp.vals_eq_map, List.getElem?_map, hget]
        rfl
      obtain ⟨binds, v, c', hselect, hle, hvty, hvlt, hv, hrun⟩ :=
        ih hat ⟨⟨c⟩, e.ty tyOf⟩ rfl rfl (c + 1) (Nat.lt_succ_self c)
      refine ⟨([⟨c⟩], .select d prev.var) :: binds, v, c', ?_, by omega, hvty, hvlt, ?_, fun ρ hρ => ?_⟩
      · subst hty
        show (match (PExp.tys tyOf es)[d]? with
          | none => raise
          | some ty => do
            let v ← newTVar ty
            let e ← mkSelect f v ty ds
            return mkStmts [([v.var], .select d prev.var)] e : Gen Exp) c = _
        rw [htys]
        show (mkSelect f ⟨⟨c⟩, e.ty tyOf⟩ (e.ty tyOf) ds (c + 1)).bind _ = _
        rw [hselect, Option.bind_assoc]
        rfl
      · rcases hv with rfl | hv
        · exact .inr (Nat.le_refl c)
        · exact .inr (by omega)
      · obtain ⟨ρ', hrun, hsame, hρ'⟩ := hrun (ρ.set ⟨c⟩ (e.val valOf)) (Env.set_same _ _ _)
        refine ⟨ρ', ?_, ?_, hρ'⟩
        · have hrhs : Rhs.mapM ρ (.select d prev.var) = some (.select d (.tuple (PExp.vals valOf es))) := by
            simp [Rhs.mapM, hρ, PExp.val]
          show (Rhs.mapM ρ (.select d prev.var)).bind _ = _
          rw [hrhs]
          show (((PExp.vals valOf es)[d]?).map _).bind _ = _
          rw [hvals]
          exact hrun
        · exact ((Env.Same.set ρ _).mono (Nat.le_refl c) hle).trans (hsame.mono (Nat.le_succ c) (Nat.le_refl c'))

/-- The loop selects the elements that are left and allocates the tuple of all. -/
theorem flattenLp_run (valOf : E → Val) {e : PExp E} {qs : List (List Nat)} {ss : List E}
    (hsel : Forall₂ (fun q s => e.at_ q = some (.elt s)) qs ss) (hty : tup.ty = e.ty tyOf) (tys : List Ty)
    (vs : List TVar) (c : Nat) (htup : tup.var.stamp < c) (hvs : ∀ v ∈ vs, v.var.stamp < c) :
    ∃ code c', flattenLp tup (.tuple false tys) qs vs c = some (code, c') ∧
      ∀ (M : Machine) (ρ : Env) (ws : List Val) (stk : List Frame) (cd : Handle → Option Clo) (made : Var → Nat) (w : M.W),
        ρ tup.var = some (e.val valOf) → ρ.Has (vs.reverse.map TVar.var) ws →
          Silent (step M) ⟨.eval code ρ, stk, cd, made, w⟩ ⟨.deliver [.tuple (ws ++ ss.map valOf)], stk, cd, made, w⟩ := by
  induction hsel generalizing vs c with
  | nil =>
    refine ⟨_, _, rfl, fun M ρ ws stk cd made w hρ hhas => ?_⟩
    have halloc : Rhs.mapM ρ (.alloc (.tuple false tys) (vs.reverse.map TVar.var)) = some (.alloc (.tuple false tys) ws) := by
      have hget := hhas.get
      rw [Env.get] at hget
      simp only [Rhs.mapM, hget]
      rfl
    rw [List.map_nil, List.append_nil]
    refine .step (step_stmt _ halloc rfl rfl) (.one (step_ret ?_))
    exact Env.Has.get (.cons (Env.set_same _ _ _) .nil)
  | @cons q s qs ss hq _ ih =>
    obtain ⟨binds, v, c', hselect, hle, -, hvlt, hv, hrun⟩ :=
      mkSelect_run valOf hq tup rfl hty (fun v => flattenLp tup (.tuple false tys) qs (v :: vs)) c htup
    obtain ⟨code, c'', hcode, hsteps⟩ := ih (v :: vs) c' (by omega) fun u hu => by
      grind
    refine ⟨mkStmts binds code, c'', ?_, fun M ρ ws stk cd made w hρ hhas => ?_⟩
    · show mkSelect (fun v => flattenLp tup (.tuple false tys) qs (v :: vs)) tup tup.ty q c = _
      rw [hselect]
      simp [hcode]
    · obtain ⟨ρ', hbinds, hsame, hval⟩ := hrun ρ hρ
      have hρ' : ρ' tup.var = some (e.val valOf) := by rw [hsame _ (.inl htup), hρ]
      have hhas' : ρ'.Has ((v :: vs).reverse.map TVar.var) (ws ++ [valOf s]) := by
        rw [List.reverse_cons, List.map_append]
        refine List.rel_append (hhas.congr fun x hx => ?_) (.cons hval .nil)
        obtain ⟨u, hu, rfl⟩ := mem_map.mp hx
        exact hsame _ (.inl (hvs u (List.mem_reverse.mp hu)))
      have hlast := hsteps M ρ' (ws ++ [valOf s]) stk cd made w hρ' hhas'
      rw [List.append_assoc] at hlast
      exact (run_steps hbinds M code stk cd made w).trans hlast

/-- The nested tuple `e` of the source expressions `es`, and the code that flattens the variable `tup` for it. -/
structure Flattened (k : MaxElts) (tyOf : E → Ty) (valOf : E → Val) (es : List E) (e : PExp E) : Prop where
  trans : transNestedPTup PExp.ptup k es.length (es.map .elt) = some e
  grouped : e.Grouped k
  length : (enumerate k es.length).length = es.length
  selects : Forall₂ (fun q s => e.at_ q = some (.elt s)) (enumerate k es.length) es
  code : ∀ (tup : TVar) (c : Nat), tup.ty = e.ty tyOf → tup.var.stamp < c →
    ∃ code c', flatten tup k es.length (.tuple false (es.map tyOf)) c = some (code, c') ∧
      ∀ (M : Machine) (ρ : Env) (stk : List Frame) (cd : Handle → Option Clo) (made : Var → Nat) (w : M.W),
        ρ tup.var = some (e.val valOf) →
          Silent (step M) ⟨.eval code ρ, stk, cd, made, w⟩ ⟨.deliver [.tuple (es.map valOf)], stk, cd, made, w⟩

/-- Parallel tuples of any size, with source expressions of any types and values. -/
theorem nested_ptup (k : MaxElts) (tyOf : E → Ty) (valOf : E → Val) (es : List E) (hpos : 0 < es.length) :
    ∃ e, Flattened k tyOf valOf es e := by
  have hgrouped : ∀ u ∈ es.map PExp.elt, u.Grouped k := fun u hu => by
    obtain ⟨s, -, rfl⟩ := mem_map.mp hu
    exact trivial
  obtain ⟨⟨e, qs⟩, hnests⟩ := transDoit_paths k (es.map PExp.elt) (by rw [length_map]; exact hpos) hgrouped
  have htrans := hnests.trans
  have hpaths := hnests.paths []
  rw [length_map] at htrans hpaths
  have henum : enumerate k es.length = qs := by
    rw [enumerate, hpaths]
    exact List.map_id qs
  have hselects : Forall₂ (fun q s => e.at_ q = some (.elt s)) qs es :=
    (List.forall₂_map_right_iff (R := fun q u => e.at_ q = some u)).mp hnests.selects
  refine ⟨e, htrans, hnests.grouped, ?_, ?_, fun tup c hty hlt => ?_⟩
  · rw [henum, hselects.length_eq]
  · rw [henum]
    exact hselects
  · obtain ⟨code, c', hcode, hsteps⟩ :=
      flattenLp_run valOf hselects hty (es.map tyOf) [] c hlt (List.forall_mem_nil _)
    refine ⟨code, c', ?_, fun M ρ stk cd made w hρ => hsteps M ρ [] stk cd made w hρ .nil⟩
    rw [flatten, henum]
    exact hcode

/-- Five elements, at most four in a tuple. -/
theorem nested_ptup_five : ∃ e, Flattened ⟨4, by decide⟩ (fun _ => .any) (fun i : Nat => .addr i) [0, 1, 2, 3, 4] e :=
  nested_ptup ⟨4, by decide⟩ (fun _ => .any) (fun i : Nat => .addr i) [0, 1, 2, 3, 4] (by decide)

end Manticore.Translate.NestedPTup
