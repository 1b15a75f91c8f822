/-
  Manticore.Parray.Reduce — `Rope.reduce` (`basis/parray/rope.pml`) under the three chunking policies.

  `Seq.reduce` is `Vector.foldl`, which gives the element to the function first, while `Seq.reduceUntil` and the joins
  give the accumulated value first. So a leaf that is not interrupted is combined from right to left.

  `reduce_returns`: for an associative function with an identity, what `reduce` returns is the combination from left
  to right of every rope, under every schedule, if and only if the function is commutative or the leaves are single
  elements, and an eager threshold is positive.
-/

import Manticore.Parray.Summary

namespace Manticore.Parray

open Fuel (Returns ok_bind)

variable {α : Type} (M : Int)

def reduceSequential (f : α → α → α) (b : α) : Rope α → α
  | .leaf s => Seq.reduce f b s
  | .cat _ _ l r => f (reduceSequential f b l) (reduceSequential f b r)

def reduceETS (SST : Int) (f : α → α → α) (b : α) : Nat → Rope α → Except Exn α
  | 0, _ => .error .fuel
  | n + 1, rp =>
    if rp.length ≤ SST then .ok (reduceSequential f b rp)
    else do
      let (l, r) ← splitAtIx2 M rp (rp.length / 2 - 1)
      return f (← reduceETS SST f b n l) (← reduceETS SST f b n r)

def numUnprocessedRed (rp : Rope α) (c : GenCtx (Rope α) α) : Int := numUnprocessed (fun _ => 0) Rope.length rp c

def nextRed (f : α → α → α) (k : α) (c : GenCtx (Rope α) α) : Progress (List α × GenCtx (Rope α) α) α :=
  next leftmostLeaf f k c

/-- A leaf of `reduceUntil`. -/
def reduceLeaf (f : α → α → α) (b : α) (σ : Answers) (_ : Unit) (s : List α) (c : GenCtx (Rope α) α) :
    Except Exn (Progress (Rope α × GenCtx (Rope α) α) (Unit × α) × Answers) :=
  match Seq.reduceUntil σ f b s with
  | (.done p, σ) => .ok (.done ((), p), σ)
  | (.more (p, us), σ) => do
    if numUnprocessedRed (← leaf M us) c < 2 then return (.done ((), Seq.reduce f p us), σ)
    else return (.more (← leaf M us, .right p c), σ)

def reduceUntil (f : α → α → α) (b : α) (n : Nat) (σ : Answers) (cur : Rope α × GenCtx (Rope α) α) :
    Except Exn (Progress (Rope α × GenCtx (Rope α) α) α) :=
  let (s, c) := leftmostLeaf cur.1 cur.2
  sweepUntil (reduceLeaf M f b) (nextRed f) n σ () s c

def splitRed (PPT : Int) (f : α → α → α) (b : α) (n : Nat) (cur : Rope α × GenCtx (Rope α) α) :
    Except Exn ((Rope α × GenCtx (Rope α) α) × (Rope α × GenCtx (Rope α) α) × α) := do
  let (p, u) ← splitCursor f b (cat2 M (.lts PPT) n) .empty cur.1 cur.2
  let mid := numUnprocessedRed cur.1 cur.2 / 2
  match splitAtIx2 M u (mid - 1) with
  | .ok (u1, u2) => return ((u1, .top), (u2, .top), p)
  | .error _ => .error (.fail (toString (mid - 1) ++ " " ++ toString u.length ++ " " ++
      toString (numUnprocessedRed cur.1 cur.2)))

def reduceLTS (PPT : Int) (f : α → α → α) (b : α) (n : Nat) (σ : Schedule) (rp : Rope α) : Except Exn α :=
  lazySplit (reduceUntil M f b) (splitRed M PPT f b) (fun v1 v2 p => .ok (f p (f v1 v2))) n σ (rp, .top)

def reduce (policy : ChunkingPolicy) (f : α → α → α) (b : α) (n : Nat) (σ : Schedule) (rp : Rope α) : Except Exn α :=
  match policy with
  | .sequential => .ok (reduceSequential f b rp)
  | .ets SST => reduceETS M SST f b n rp
  | .lts PPT => reduceLTS M PPT f b n σ rp

variable {M}

section
variable {f : α → α → α} {b : α}

/-! ## Combination from left to right -/

theorem foldl_from (hassoc : ∀ x y z, f (f x y) z = f x (f y z)) (hleft : ∀ x, f b x = x) (hright : ∀ x, f x b = x)
    (ys : List α) (a : α) : ys.foldl f a = f a (ys.foldl f b) := by
  induction ys generalizing a with
  | nil => exact (hright a).symm
  | cons y ys ih => rw [List.foldl_cons, List.foldl_cons, ih (f a y), ih (f b y), hleft, hassoc]

theorem foldl_append_assoc (hassoc : ∀ x y z, f (f x y) z = f x (f y z)) (hleft : ∀ x, f b x = x)
    (hright : ∀ x, f x b = x) (xs ys : List α) : (xs ++ ys).foldl f b = f (xs.foldl f b) (ys.foldl f b) := by
  rw [List.foldl_append, foldl_from hassoc hleft hright ys]

/-- On a leaf of at most one element, or for a commutative function, the order of the arguments does not matter. -/
theorem seq_reduce_eq (hleft : ∀ x, f b x = x) (hright : ∀ x, f x b = x) {s : List α}
    (h : (∀ x y, f x y = f y x) ∨ s.length ≤ 1) : Seq.reduce f b s = s.foldl f b := by
  rcases h with hcomm | hone
  · have hstep : (fun a x => f x a) = f := funext fun a => funext fun x => hcomm x a
    rw [Seq.reduce, hstep]
  · rcases s with - | ⟨x, - | ⟨y, s⟩⟩
    · rfl
    · show f x b = f b x
      rw [hleft, hright]
    · rw [List.length_cons, List.length_cons] at hone
      omega

variable (hassoc : ∀ x y z, f (f x y) z = f x (f y z)) (hleft : ∀ x, f b x = x) (hright : ∀ x, f x b = x)
include hassoc hleft hright

theorem reduceSequential_eq {rp : Rope α} (h : (∀ x y, f x y = f y x) ∨ ∀ s ∈ rp.leaves, s.length ≤ 1) :
    reduceSequential f b rp = rp.toList.foldl f b := by
  induction rp with
  | leaf s => exact seq_reduce_eq hleft hright (h.imp_right fun hone => hone s List.mem_cons_self)
  | cat len d l r ihl ihr =>
    rw [reduceSequential, ihl (h.imp_right fun hone s hs => hone s (List.mem_append_left _ hs)),
      ihr (h.imp_right fun hone s hs => hone s (List.mem_append_right _ hs)), Rope.toList,
      foldl_append_assoc hassoc hleft hright]

theorem reduceETS_returns {SST : Int} (hSST : 1 ≤ SST) {rp : Rope α} (h : rp.WF M)
    (hord : (∀ x y, f x y = f y x) ∨ M = 1 ∨ SST = 1) :
    Returns (fun n => reduceETS M SST f b n rp) (rp.toList.foldl f b) := by
  induction hk : rp.length.toNat using Nat.strong_induction_on generalizing rp with
  | _ k ih =>
    refine .succ ?_
    by_cases hle : rp.length ≤ SST
    · have hsmall : (∀ x y, f x y = f y x) ∨ ∀ s ∈ rp.leaves, s.length ≤ 1 := by
        refine hord.imp_right fun hone s hs => ?_
        have hM := ((Rope.wf_iff_ropeOK rp).mp h).2 s hs
        have hlen : s.length ≤ rp.toList.length := by
          rw [← Rope.toSeq_eq]
          exact (List.sublist_flatten_of_mem hs).length_le
        have hrp := h.length_eq
        omega
      simp only [reduceETS, if_pos hle, reduceSequential_eq hassoc hleft hright hsmall]
      exact .pure _
    · obtain ⟨l, r, hsplit, hl, hr, happ, hlen1, hlen2⟩ := splitAtIx2_half h (by omega)
      have hretl := ih l.length.toNat (by omega) hl rfl
      have hretr := ih r.length.toNat (by omega) hr rfl
      simp only [reduceETS, if_neg hle, hsplit, ok_bind]
      rw [← happ, foldl_append_assoc hassoc hleft hright]
      exact hretl.bind (hretr.bind (.pure _))

/-! ## Lazy -/

end

section
variable {f : α → α → α} {b : α}

/-- The finished pieces are their own summary. -/
def reduceSummary (hassoc : ∀ x y z, f (f x y) z = f x (f y z)) (hleft : ∀ x, f b x = x) (hright : ∀ x, f x b = x) :
    Summary α α α where
  mul := f
  one := b
  val xs := xs.foldl f b
  abs := id
  ok _ := True
  put := f
  mul_assoc := hassoc
  one_mul := hleft
  mul_one := hright
  val_nil := rfl
  val_append := foldl_append_assoc hassoc hleft hright
  ok_put _ _ := trivial
  abs_put _ _ := rfl

variable (hassoc : ∀ x y z, f (f x y) z = f x (f y z)) (hleft : ∀ x, f b x = x) (hright : ∀ x, f x b = x)

theorem reduceLeaf_sum (hord : (∀ x y, f x y = f y x) ∨ M = 1) :
    SumLeaf (reduceSummary hassoc hleft hright) M (reduceLeaf M f b) := by
  intro t n η xs c hopen
  have hxs : (xs.length : Int) ≤ M := hopen.1.1.focus
  unfold reduceLeaf Seq.reduceUntil
  rcases Seq.loopUntil_cases (fun acc x => f acc x) xs b η with ⟨η', hdone⟩ | ⟨ps, us, η', rfl, hne, hmore⟩
  · rw [hdone]
    exact ⟨.done ((), xs.foldl f b), η', rfl, trivial, rfl⟩
  · rw [hmore]
    have happ := hxs
    rw [List.length_append] at happ
    have hus : (us.length : Int) ≤ M := by omega
    have hnu : numUnprocessedRed (.leaf us) c = remaining (.leaf us) c := numUnprocessed_remaining _
    by_cases hlast : remaining (.leaf us) c < 2
    · refine ⟨.done ((), Seq.reduce f (ps.foldl f b) us), η', ?_, trivial, ?_⟩
      · simp only [leaf_ok hus, ok_bind, hnu, if_pos hlast]
        rfl
      · -- one element is left, and it comes first
        show Seq.reduce f (ps.foldl f b) us = (ps ++ us).foldl f b
        rcases hord with hcomm | rfl
        · have hstep : (fun a x => f x a) = f := funext fun a => funext fun x => hcomm x a
          rw [Seq.reduce, hstep, List.foldl_append]
        grind [List.length_pos_iff, seq_reduce_eq]
    · refine ⟨.more (.leaf us, .right (ps.foldl f b) c), η', ?_,
        SumOpen.right (S := reduceSummary hassoc hleft hright) hopen trivial rfl, Int.not_lt.mp hlast⟩
      simp only [leaf_ok hus, ok_bind, hnu, if_neg hlast]
      rfl

theorem splitRed_ok (PPT : Int) : SumSplit (reduceSummary hassoc hleft hright) M (splitRed M PPT f b) := by
  intro rp c hwf hokc h2
  obtain ⟨p, u, hret, hp, habs, hu, hto⟩ :=
    splitCursor_returns (S := reduceSummary hassoc hleft hright) (cat2 M (.lts PPT)) b ⟨trivial, rfl⟩
      hwf.focus.nonneg (fun hr hu => cat2_returns (.lts PPT) hr hu) hwf hokc
  have hlen : u.length = remaining rp c := by
    rw [hu.length_eq, hto, length_elements hwf]
  obtain ⟨u1, u2, hsplit, h1, h2', happ, hlen1, hlen2⟩ := splitAtIx2_half hu (by omega)
  have hnu : numUnprocessedRed rp c = u.length := by
    rw [hlen]
    exact numUnprocessed_remaining _
  refine ⟨u1, u2, p, ?_, hp, habs, h1, h2', by rw [happ, hto], by omega, by omega⟩
  refine (Returns.bind hret ?_).congr fun _ => rfl
  simp only [hnu, hsplit]
  exact .pure _

include hassoc hleft hright in
theorem reduceLTS_returns (PPT : Int) (hord : (∀ x y, f x y = f y x) ∨ M = 1) {rp : Rope α} (h : rp.WF M) (σ : Schedule) :
    Returns (fun n => reduceLTS M PPT f b n σ rp) (rp.toList.foldl f b) := by
  obtain ⟨v, hret, -, hv⟩ := lazySplit_sum (reduceLeaf_sum hassoc hleft hright hord) (splitRed_ok hassoc hleft hright PPT) h σ
  have hv' : v = rp.toList.foldl f b := hv
  rw [← hv']
  exact hret

/-! ## Every policy -/

theorem reduceETS_fails {SST : Int} (hSST : SST ≤ 0) (n : Nat) (x v : α) : reduceETS M SST f b n (.leaf [x]) ≠ .ok v := by
  cases n with
  | zero => exact nofun
  | succ n =>
    have hlen : (Rope.leaf [x]).length = 1 := rfl
    intro hok
    rw [reduceETS, if_neg (by omega), splitAtIx2_neg _ (by omega)] at hok
    cases hok

include hleft hright in
/-- Two elements in one leaf are combined from right to left. -/
theorem reduce_leaf_pair (policy : ChunkingPolicy) (hpolicy : ∀ SST, policy = .ets SST → 2 ≤ SST) (hM : 2 ≤ M) (x y : α) :
    Returns (fun n => reduce M policy f b n (fun _ n => n = 1) (.leaf [x, y])) (f y x) := by
  have hseq : reduceSequential f b (.leaf [x, y]) = f y x := by
    show f y (f x b) = _
    rw [hright]
  cases policy with
  | sequential =>
    simp only [reduce, hseq]
    exact .pure _
  | ets SST =>
    have h2 := hpolicy SST rfl
    have hlen : (Rope.leaf [x, y]).length = 2 := rfl
    refine .succ ?_
    simp only [reduce, reduceETS, if_pos (show (Rope.leaf [x, y]).length ≤ SST by omega), hseq]
    exact .pure _
  | lts PPT =>
    have hone : (([y] : List α).length : Int) ≤ M := by
      rw [List.length_singleton]
      omega
    have hleaf : ∃ σ', reduceLeaf M f b (fun n => n = 1) () [x, y] .top = .ok (.done ((), f y x), σ') := by
      have hnu : numUnprocessedRed (.leaf [y]) (.top : GenCtx (Rope α) α) = 1 := rfl
      have hlast : numUnprocessedRed (.leaf [y]) (.top : GenCtx (Rope α) α) < 2 := by omega
      have huntil : ∃ σ', Seq.reduceUntil (fun n => n = 1) f b [x, y] = (.more (x, [y]), σ') := by
        refine ⟨Answers.rest (Answers.rest fun n => n = 1), ?_⟩
        show (Progress.more (f b x, [y]), _) = _
        rw [hleft]
      obtain ⟨σ', huntil⟩ := huntil
      refine ⟨σ', ?_⟩
      simp only [reduceLeaf, huntil, leaf_ok hone, ok_bind, if_pos hlast]
      rfl
    obtain ⟨σ', hleaf⟩ := hleaf
    refine .succ (.succ ⟨0, fun n _ => ?_⟩)
    simp only [reduce, reduceLTS, lazySplit, reduceUntil, leftmostLeaf, sweepUntil, Schedule.here, hleaf, ok_bind, nextRed, next]
    rfl

/-- The combination from left to right of every well-formed rope, under every schedule, if and only if an eager threshold
    is positive, and the function is commutative or no leaf that is combined has two elements. -/
theorem reduce_returns (policy : ChunkingPolicy) (f : α → α → α) (b : α) (hassoc : ∀ x y z, f (f x y) z = f x (f y z))
    (hleft : ∀ x, f b x = x) (hright : ∀ x, f x b = x) (hM : 1 ≤ M) :
    (∀ rp σ, Rope.WF M rp → Returns (fun n => reduce M policy f b n σ rp) (rp.toList.foldl f b)) ↔
    (∀ SST, policy = .ets SST → 1 ≤ SST) ∧ ((∀ x y, f x y = f y x) ∨ M = 1 ∨ policy = .ets 1) := by
  constructor
  · intro hall
    have hets : ∀ SST, policy = .ets SST → 1 ≤ SST := by
      rintro SST rfl
      by_contra hno
      obtain ⟨N, hN⟩ := hall (.leaf [b]) (fun _ _ => false) hM
      exact reduceETS_fails (by omega) N b _ (hN N (Nat.le_refl N))
    refine ⟨hets, ?_⟩
    by_contra hno
    obtain ⟨hcomm, hother⟩ := not_or.mp hno
    obtain ⟨hone, hpolicy⟩ := not_or.mp hother
    refine hcomm fun x y => ?_
    have hwf : (Rope.leaf [x, y]).WF M := by
      show ((2 : Nat) : Int) ≤ M
      omega
    have hright' := hall (.leaf [x, y]) (fun _ n => n = 1) hwf
    have hpair := reduce_leaf_pair (M := M) hleft hright policy (fun SST hSST => ?_) (by omega) x y
    · have heq : f (f b x) y = f y x := hright'.unique hpair
      rwa [hleft] at heq
    grind
  · rintro ⟨hets, hord⟩ rp σ h
    cases policy with
    | sequential =>
      have hsmall : (∀ x y, f x y = f y x) ∨ ∀ s ∈ rp.leaves, s.length ≤ 1 := by
        grind [Rope.wf_iff_ropeOK]
      simp only [reduce, reduceSequential_eq hassoc hleft hright hsmall]
      exact .pure _
    | ets SST =>
      refine reduceETS_returns hassoc hleft hright (hets SST rfl) h ?_
      simp_all
    | lts PPT =>
      refine reduceLTS_returns hassoc hleft hright PPT ?_ h σ
      simp_all

end

/-- Addition, lazily. -/
theorem reduce_returns_add : Rope.WF 2 (.leaf [3, 4]) ∧
    Returns (fun n => reduce 2 (.lts 1) (· + ·) 0 n (fun _ _ => true) (.leaf [3, 4])) (0 + 3 + 4 : Nat) := by
  have hwf : Rope.WF 2 (.leaf [3, 4]) := by show ((2 : Nat) : Int) ≤ 2; decide
  exact ⟨hwf, (reduce_returns (.lts 1) (· + ·) 0 Nat.add_assoc Nat.zero_add Nat.add_zero (by decide)).mpr
    ⟨nofun, .inl Nat.add_comm⟩ _ _ hwf⟩

/-- Concatenation. -/
theorem reduce_reversed : ∃ rp : Rope (List Nat), rp.WF 512 ∧
    ¬ Returns (fun n => reduce 512 .sequential (· ++ ·) [] n (fun _ _ => false) rp) (rp.toList.foldl (· ++ ·) []) := by
  refine ⟨.leaf [[1], [2]], by show ((2 : Nat) : Int) ≤ 512; decide, ?_⟩
  rintro ⟨N, hN⟩
  have hok := Except.ok.inj (hN N (Nat.le_refl N))
  revert hok
  decide

end Manticore.Parray
