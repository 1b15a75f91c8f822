/-
  Manticore.Parray.CursorRoot — a rope cursor split anywhere in its unfinished part, and joined again with nothing done
  (`splitAt` and `join` of `basis/parray/rope.pml`).

  `split_join`: the parts hold the unfinished elements in order, and the joined rope has the elements of the root of
  the cursor. `unzipCtx` loses nothing of a context.
-/

import Manticore.Parray.Map

namespace Manticore.Parray

open Pieces

variable {α γ δ : Type} {M : Int} {f : Rope α} {c : GenCtx (Rope α) (Rope α)}

theorem zipCtx_unzipCtx (c : GenCtx γ δ) : zipCtx (unzipCtx c).1 (unzipCtx c).2.1 (unzipCtx c).2.2 = .ok c := by
  induction c with
  | top => rfl
  | left c r ih => simp [unzipCtx, zipCtx_left, ih]
  | right l c ih => simp [unzipCtx, zipCtx_right, ih]

/-- The rope that the cursor is in. -/
def root (f : Rope α) (c : GenCtx (Rope α) (Rope α)) : Rope α := finish nccat2 f c

/-- The elements are kept; the state is the elements before. -/
def keepWork (M : Int) (α : Type) : Work (List α) (Rope α) (Rope α) :=
  ⟨fun _ => Mapped M id, fun s x => s ++ x.toList, nccat2⟩

theorem keepWork_ropeWork : RopeWork (keepWork M α) where
  cat _ _ _ _ _ bl br hl hr := ⟨bl, br, rfl, hl, hr⟩
  adv_cat _ _ _ _ _ := (List.append_assoc _ _ _).symm
  leaf _ := (mapWork_ropeWork id).leaf ()
  adv_leaf _ _ _ := (List.append_assoc _ _ _).symm

theorem mapped_self {rp : Rope α} (h : rp.WF M) : Mapped M id rp rp := by
  induction rp with
  | leaf s => exact ⟨h, (List.map_id s).symm⟩
  | cat len d l r ihl ihr => exact ⟨l, r, h.eq_nccat2, ihl h.2.2.1, ihr h.2.2.2⟩

theorem toList_of_mapped {rp b : Rope α} (h : Mapped M id rp b) : b.toList = rp.toList :=
  (mapped_spec h).2.trans (List.map_id _)

theorem advAll_keepWork (s : List α) (xs : List (Rope α)) :
    (keepWork M α).advAll s xs = s ++ (xs.map Rope.toList).flatten := by
  induction xs generalizing s with
  | nil => exact (List.append_nil s).symm
  | cons x xs ih =>
    rw [Work.advAll_cons, ih]
    exact List.append_assoc _ _ _

/-- The elements of the root depend on those of the pieces alone. -/
theorem ready_root {f f' : Rope α} (s : List α) (h : f'.toList = f.toList) :
    Ready (keepWork M α) (fun b => b.toList = (root f c).toList) c s f' := by
  have hfinish : ∀ {c : GenCtx (Rope α) (Rope α)} {f f' : Rope α}, f'.toList = f.toList →
      (finish nccat2 f' c).toList = (finish nccat2 f c).toList := by
    intro c
    induction c with
    | top => exact fun h => h
    | left _ _ ih | right _ _ ih =>
      intro f f' h
      refine ih ?_
      rw [toList_nccat2, toList_nccat2, h]
  unfold root
  induction c generalizing s f f' with
  | top => exact h
  | left c r ih =>
    intro r' hr
    refine ih _ ?_
    show f'.toList ++ r'.toList = f.toList ++ r.toList
    rw [h, toList_of_mapped hr]
  | right l c ih =>
    refine ih s ?_
    show l.toList ++ f'.toList = l.toList ++ f.toList
    rw [h]

theorem splitAt_root (hwf : WFCursor M f c) {n : Int} (h1 : 1 ≤ n) (hn : n < numUnprocessed Rope.length Rope.length f c) :
    ∃ rp1 rp2 reb, splitAt .rope Rope.length encodeRope (cursorAtIx M) unzipCursor (f, c) n = .ok (rp1, rp2, reb) ∧
      rp1.WF M ∧ rp2.WF M ∧ rp1.length = n ∧ rp2.length = numUnprocessed Rope.length Rope.length f c - n ∧
      rp1.toList ++ rp2.toList = elements f c ∧
      ∃ rp, joinRopes .rope decodeRope (fun cur => root cur.1 cur.2) rp1 rp2 reb = .ok rp ∧
        rp.toList = (root f c).toList := by
  rw [numUnprocessed_remaining] at hn ⊢
  have hgood : Good (keepWork M α) (fun b => b.toList = (root f c).toList) [] f c :=
    fun b hb => ready_root _ (toList_of_mapped hb)
  obtain ⟨rp1, rp2, reb, hsplit, hwf1, hwf2, hlen1, hlen2, hstate, hjoin⟩ := splitAt_ropes .rope
    (fun cur => root cur.1 cur.2) keepWork_ropeWork (fun _ _ _ _ _ _ h => h) (fun _ => rfl) decodeRope_one
    decodeRope_nccat2 hgood hwf h1 hn (.inl rfl)
  refine ⟨rp1, rp2, reb, hsplit, hwf1, hwf2, hlen1, hlen2, ?_, hjoin rp1 rp2 (mapped_self hwf1) (mapped_self hwf2)⟩
  have hadv := hstate rfl
  rw [advAll_keepWork] at hadv
  exact hadv

theorem split_join (hwf : WFCursor M f c) :
    (∀ c' : GenCtx γ δ, zipCtx (unzipCtx c').1 (unzipCtx c').2.1 (unzipCtx c').2.2 = .ok c') ∧
    ∀ n, 1 ≤ n → n < numUnprocessed Rope.length Rope.length f c →
      ∃ rp1 rp2 reb, splitAt .rope Rope.length encodeRope (cursorAtIx M) unzipCursor (f, c) n = .ok (rp1, rp2, reb) ∧
        rp1.WF M ∧ rp2.WF M ∧ rp1.length = n ∧ rp2.length = numUnprocessed Rope.length Rope.length f c - n ∧
        rp1.toList ++ rp2.toList = elements f c ∧
        ∃ rp, joinRopes .rope decodeRope (fun cur => root cur.1 cur.2) rp1 rp2 reb = .ok rp ∧
          rp.toList = (root f c).toList := ⟨zipCtx_unzipCtx, fun _ => splitAt_root hwf⟩

/-- Between a finished leaf and an unfinished one. -/
theorem split_join_three :
    ∃ rp1 rp2 reb, splitAt .rope Rope.length encodeRope (cursorAtIx 2) unzipCursor
        (.leaf [2, 3], .right (.leaf [1]) (.left .top (.leaf [4]))) 1 = .ok (rp1, rp2, reb) ∧
      rp1.WF 2 ∧ rp2.WF 2 ∧ rp1.length = 1 ∧ rp2.length = 2 ∧ rp1.toList ++ rp2.toList = [2, 3, 4] ∧
      ∃ rp, joinRopes .rope decodeRope (fun cur => root cur.1 cur.2) rp1 rp2 reb = .ok rp ∧ rp.toList = [1, 2, 3, 4] :=
  (split_join (γ := Int) (δ := Int) (M := 2) (f := .leaf [2, 3]) (c := .right (.leaf [1]) (.left .top (.leaf [4])))
    (by simp [WFCursor, GenCtx.rights, Rope.WF])).2 1 (by decide) (by decide)

end Manticore.Parray
