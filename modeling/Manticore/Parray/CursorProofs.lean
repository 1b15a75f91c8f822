/-
  Manticore.Parray.CursorProofs — a cursor as what is left to do: `Good Q s f c` says that whatever finishes the
  focus `f` and then the unfinished pieces of the context `c`, from the state `s` on, makes up a whole with `Q`.

  - `next_good`: moving on from a finished piece.
  - `splitAt_join`: a cursor split in two and joined again keeps `Q`, if the finished pieces come back in the order
    they were handed out. The order of `IntRope` is another, which does not matter where the pieces may be exchanged:
    where the state never changes, or where one piece left of the element split at has elements (`StraightSplit`).
-/

import Manticore.Library.Pieces
import Manticore.Parray.Cursor

namespace Manticore.Parray

open Fuel (ok_bind)
open Pieces
open List (length_reverse reverse_cons append_assoc map_nil sum_nil map_cons sum_cons length_append map_append
  sum_append mem_append)
open Work.DoneAll (of_cons reverse)
open Work (advAll_append advAll_cons)

variable {σ α β γ κ ε : Type} (w : Work σ α β)

/-- The state is that after the hole. -/
def Ready (Q : β → Prop) : GenCtx α β → σ → β → Prop
  | .top, _, b => Q b
  | .left c r, s, b => ∀ r', w.done s r r' → Ready Q c (w.adv s r) (w.put b r')
  | .right l c, s, b => Ready Q c s (w.put l b)

def Good (Q : β → Prop) (s : σ) (f : α) (c : GenCtx α β) : Prop := ∀ b, w.done s f b → Ready w Q c (w.adv s f) b

variable {w} {Q : β → Prop} {s : σ}

variable {c : GenCtx α β} {b : β} {f l r m : α} {length : α → Int} {P : α → Prop}
  {cursorAtIx : α → Int → Except Exn (α × UnzippedCtx α α)} {n : Int}

theorem Ready.imp {Q' : β → Prop} (himp : ∀ b, Q b → Q' b) (h : Ready w Q c s b) : Ready w Q' c s b := by
  induction c generalizing s b with
  | top => exact himp b h
  | left c r ih => exact fun r' hr' => ih (h r' hr')
  | right l c ih => exact ih h

theorem good_top (h : ∀ b, w.done s f b → Q b) : Good w Q s f .top := h

/-- Into the left part of a piece that is the work on two. -/
theorem Good.left (h : Good w Q s f c)
    (hput : ∀ bl br, w.done s l bl → w.done (w.adv s l) r br → w.done s f (w.put bl br))
    (hadv : w.adv s f = w.adv (w.adv s l) r) : Good w Q s l (.left c r) := by
  intro bl hbl br hbr
  rw [← hadv]
  exact h _ (hput bl br hbl hbr)

/-- Past the left part. -/
theorem Good.right {bl : β} (h : Good w Q s f c) (hput : ∀ br, w.done (w.adv s l) r br → w.done s f (w.put bl br))
    (hadv : w.adv s f = w.adv (w.adv s l) r) : Good w Q (w.adv s l) r (.right bl c) := by
  intro br hbr
  rw [← hadv]
  exact h _ (hput br hbr)

theorem next_good (leftmost : α → GenCtx α β → κ) (h : Ready w Q c s b) :
    (∃ b', next leftmost w.put b c = .done b' ∧ Q b') ∨ ∃ r c', next leftmost w.put b c = .more (leftmost r c') ∧
      Good w Q s r c' ∧ c.rights = r :: c'.rights := by
  induction c generalizing b with
  | top => exact .inl ⟨b, rfl, h⟩
  | left c r ih => exact .inr ⟨r, .right b c, rfl, h, rfl⟩
  | right l c ih => exact ih h

/-! ## Zipping -/

theorem zipCtx_ready (h : Ready w Q c s b) {rs : List β} (hrs : w.DoneAll s c.rights rs) :
    ∃ c', zipCtx (unzipCtx c).1 rs (unzipCtx c).2.2 = .ok c' ∧ Q (finish w.put b c') := by
  induction c generalizing s b rs with
  | top =>
    cases rs with
    | nil => exact ⟨.top, rfl, h⟩
    | cons r rs => exact hrs.elim
  | left c r ih =>
    obtain ⟨r', rs', rfl, hr', hrs'⟩ := of_cons hrs
    obtain ⟨c', hzip, hQ⟩ := ih (h r' hr') hrs'
    refine ⟨.left c' r', ?_, hQ⟩
    simp [unzipCtx, zipCtx_left, hzip]
  | right l c ih =>
    obtain ⟨c', hzip, hQ⟩ := ih h hrs
    refine ⟨.right l c', ?_, hQ⟩
    simp [unzipCtx, zipCtx_right, hzip]

/-! ## Splitting and joining -/

/-- A piece taken apart along a path: the results of its parts zip up to a result of the piece. -/
def Covers (w : Work σ α β) (m mn : α) (u : UnzippedCtx α α) : Prop :=
  ∀ s, w.advAll s (u.1.reverse ++ mn :: u.2.1) = w.adv s m ∧
    ∀ ls b rs, ls.length = u.1.length → w.DoneAll s (u.1.reverse ++ mn :: u.2.1) (ls.reverse ++ b :: rs) →
      ∃ c, zipCtx ls rs u.2.2 = .ok c ∧ w.done s m (finish w.put b c)

theorem covers_self (m : α) : Covers w m m ([], [], []) := by
  refine fun s => ⟨rfl, fun ls b rs hlen h => ?_⟩
  obtain rfl := List.eq_nil_of_length_eq_zero hlen
  obtain ⟨b', rs', heq, hb, hrs⟩ := of_cons h
  cases heq
  cases rs with
  | nil => exact ⟨.top, rfl, hb⟩
  | cons r rs => exact hrs.elim

/-- One step of the path to the left. -/
theorem Covers.left {ls rs : List α} {ds : List Dir} (h : Covers w m f (ls, rs, ds))
    (hput : ∀ s bl br, w.done s l bl → w.done (w.adv s l) r br → w.done s f (w.put bl br))
    (hadv : ∀ s, w.adv s f = w.adv (w.adv s l) r) : Covers w m l (ls, r :: rs, .left :: ds) := by
  refine fun s => ⟨?_, fun ls' b rs' hlen hall => ?_⟩
  · rw [← (h s).1, advAll_append, advAll_append, advAll_cons, advAll_cons, advAll_cons, hadv]
  · obtain ⟨bs, bs', heq, hls, hrest⟩ := hall.of_append
    obtain ⟨rfl, heq'⟩ := List.append_inj heq (by
      rw [length_reverse, hlen, hls.length_eq, length_reverse])
    rw [← heq'] at hrest
    obtain ⟨b', bs'', heq'', hb, hrest'⟩ := hrest.of_cons
    cases heq''
    obtain ⟨r', rs'', rfl, hr, hrs⟩ := of_cons hrest'
    rw [← hadv] at hrs
    obtain ⟨c, hzip, hdone⟩ := (h s).2 ls' (w.put b r') rs'' hlen (hls.append ⟨hput _ _ _ hb hr, hrs⟩)
    exact ⟨.left c r', by rw [zipCtx_left, hzip]; rfl, hdone⟩

theorem Covers.right {ls rs : List α} {ds : List Dir} (h : Covers w m f (ls, rs, ds))
    (hput : ∀ s bl br, w.done s l bl → w.done (w.adv s l) r br → w.done s f (w.put bl br))
    (hadv : ∀ s, w.adv s f = w.adv (w.adv s l) r) : Covers w m r (l :: ls, rs, .right :: ds) := by
  refine fun s => ⟨?_, fun ls' b rs' hlen hall => ?_⟩
  · rw [← (h s).1, reverse_cons, advAll_append, advAll_append, advAll_append, advAll_cons,
      advAll_cons, advAll_cons, hadv]
    rfl
  · cases ls' with
    | nil => cases hlen
    | cons l' ls'' =>
      rw [reverse_cons, reverse_cons, append_assoc, append_assoc] at hall
      obtain ⟨bs, bs', heq, hls, hrest⟩ := hall.of_append
      obtain ⟨rfl, heq'⟩ := List.append_inj heq (by
        rw [length_reverse, Nat.succ_inj.mp hlen, hls.length_eq, length_reverse])
      rw [← heq'] at hrest
      obtain ⟨hl, hr, hrs⟩ := hrest
      rw [← hadv] at hrs
      obtain ⟨c, hzip, hdone⟩ := (h s).2 ls'' (w.put l' b) rs' (Nat.succ_inj.mp hlen)
        (hls.append ⟨hput _ _ _ hl hr, hrs⟩)
      exact ⟨.right l' c, by rw [zipCtx_right, hzip]; rfl, hdone⟩

/-- The pieces left of the element that a split is made at may be exchanged. -/
def Exchanges (w : Work σ α β) (length : α → Int) (P : α → Prop)
    (cursorAtIx : α → Int → Except Exn (α × UnzippedCtx α α)) (pieces : List α) (n : Int) : Prop :=
  ∀ rps1 m k rps2 mn u, divide length pieces n = .ok (rps1, m, k, rps2) → cursorAtIx m (k - 1) = .ok (mn, u) →
    (∀ x ∈ u.1, P x) → u.1.Pairwise w.Swap

theorem exchanges_of_still (hstill : ∀ s a, w.adv s a = s) {pieces : List α} :
    Exchanges w length P cursorAtIx pieces n := by
  intro _ _ _ _ _ u _ _ _
  exact List.pairwise_of_forall fun a a' => Work.swap_of_still hstill a a'

/-- At most one piece left of the element has elements. -/
def StraightSplit (length : α → Int) (cursorAtIx : α → Int → Except Exn (α × UnzippedCtx α α)) (pieces : List α)
    (n : Int) : Prop :=
  ∀ rps1 m k rps2 mn u, divide length pieces n = .ok (rps1, m, k, rps2) → cursorAtIx m (k - 1) = .ok (mn, u) →
    u.1.Pairwise fun x y => length x = 0 ∨ length y = 0

theorem StraightSplit.exchanges {pieces : List α} (h : StraightSplit length cursorAtIx pieces n)
    (hswap : ∀ x y, P x → P y → length x = 0 ∨ length y = 0 → w.Swap x y) :
    Exchanges w length P cursorAtIx pieces n := by
  intro rps1 m k rps2 mn u hdiv hat hP
  refine (h rps1 m k rps2 mn u hdiv hat).imp_of_mem ?_
  intro x y hx hy hempty
  exact hswap x y (hP x hx) (hP y hy) hempty

/-- What a split needs of the navigation to an element. -/
def Navigates (w : Work σ α β) (length : α → Int) (P : α → Prop)
    (cursorAtIx : α → Int → Except Exn (α × UnzippedCtx α α)) : Prop :=
  ∀ m i, P m → 0 ≤ i → i < length m → ∃ mn mls mrs mds, cursorAtIx m i = .ok (mn, mls, mrs, mds) ∧
    Covers w m mn (mls, mrs, mds) ∧ (∀ x ∈ mls, P x) ∧ P mn ∧ (∀ x ∈ mrs, P x) ∧
    (mls.map length).sum + length mn = i + 1 ∧ (mrs.map length).sum = length m - (i + 1)

/-- Zipping up a context gives a cursor with the same whole. -/
def Zips (w : Work σ α β) (zip : β → UnzippedCtx β β → Except Exn κ) (fin : κ → β) : Prop :=
  ∀ b ls rs ds c, zipCtx ls rs ds = .ok c → ∃ z, zip b (ls, rs, ds) = .ok z ∧ fin z = finish w.put b c

theorem divide_ok (length : α → Int) {xs : List α} {k : Int} (h0 : 1 ≤ k) (hk : k ≤ (xs.map length).sum) :
    ∃ rps1 m k' rps2, divide length xs k = .ok (rps1, m, k', rps2) ∧ xs = rps1 ++ m :: rps2 ∧ 1 ≤ k' ∧ k' ≤ length m ∧
      (rps1.map length).sum + k' = k := by
  induction xs generalizing k with
  | nil =>
    rw [map_nil, sum_nil] at hk
    omega
  | cons x xs ih =>
    unfold divide
    by_cases hx : k ≤ length x
    · rw [if_pos hx]
      exact ⟨[], x, k, xs, rfl, rfl, h0, hx, Int.zero_add k⟩
    · rw [if_neg hx]
      rw [map_cons, sum_cons] at hk
      obtain ⟨rps1, m, k', rps2, hdiv, rfl, hk0, hkm, hsum⟩ := ih (k := k - length x) (by omega) (by omega)
      refine ⟨x :: rps1, m, k', rps2, by rw [hdiv]; rfl, rfl, hk0, hkm, ?_⟩
      rw [map_cons, sum_cons]
      omega

theorem listTake_append (xs ys : List α) : listTake (xs ++ ys) xs.length = .ok xs := by
  rw [listTake, if_pos (by rw [length_append]; exact Nat.le_add_right _ _), List.take_left]

theorem listDrop_append (xs ys : List α) : listDrop (xs ++ ys) xs.length = .ok ys := by
  rw [listDrop, if_pos (by rw [length_append]; exact Nat.le_add_right _ _), List.drop_left]

theorem listLast_concat (xs : List α) (x : α) : listLast (xs ++ [x]) = .ok x := by
  rw [listLast, List.getLast?_concat]

/-- The pieces left of the element, back in their order. -/
theorem order_doneAll {lib : Lib} {mls : List α} {bs : List β} (hord : lib = .rope ∨ mls.Pairwise w.Swap)
    (h : w.DoneAll s (lib.order mls) bs) :
    w.DoneAll s mls.reverse (lib.order bs).reverse ∧ w.advAll s (lib.order mls) = w.advAll s mls.reverse := by
  cases lib with
  | rope =>
    refine ⟨?_, rfl⟩
    rw [Lib.order, List.reverse_reverse]
    exact h
  | intRope =>
    rcases hord with hne | hswap
    · cases hne
    · obtain ⟨hall, hstate⟩ := reverse hswap h
      exact ⟨hall, hstate.symm⟩

theorem join_ok {lib : Lib} {decode : β → Nat → Except Exn (List β)} {zip : β → UnzippedCtx β β → Except Exn κ}
    {fin : κ → β} (hzip : Zips w zip fin) {mn : α} (hgood : Good w Q s f c) {rps1 rps2 mls mrs : List α}
    {mds : List Dir} (hpieces : f :: c.rights = rps1 ++ m :: rps2) (hcov : Covers w m mn (mls, mrs, mds))
    (hord : lib = .rope ∨ mls.Pairwise w.Swap) {b1 b2 : β} {bs1 bs2 : List β} {l1 l2 : Nat}
    (hb1 : decode b1 l1 = .ok bs1) (hb2 : decode b2 l2 = .ok bs2)
    (h1 : w.DoneAll s (rps1 ++ lib.order mls ++ [mn]) bs1)
    (h2 : w.DoneAll (w.advAll s (rps1 ++ lib.order mls ++ [mn])) (mrs ++ rps2) bs2) :
    ∃ z, join lib decode fin zip b1 b2 ⟨(unzipCtx c).1, (unzipCtx c).2.2, mds, rps1.length, mrs.length, l1, l2⟩ =
      .ok z ∧ Q (fin z) := by
  rw [advAll_append, advAll_append] at h2
  obtain ⟨bsrm, bn, rfl, hrm, hbn⟩ := h1.of_append
  obtain ⟨rps1', mls', rfl, hrps1, hmls⟩ := hrm.of_append
  obtain ⟨mrs', rps2', rfl, hmrs, hrps2⟩ := h2.of_append
  obtain ⟨mn', bs, rfl, hmn, hnil⟩ := hbn.of_cons
  obtain rfl : bs = [] := List.eq_nil_of_length_eq_zero hnil.length_eq
  rw [advAll_append] at hmn
  -- the part that was split, from its own pieces
  obtain ⟨hmls', hadv⟩ := order_doneAll hord hmls
  rw [hadv] at hmn hmrs hrps2
  have hlen : (lib.order mls').length = mls.length := by
    rw [← length_reverse, hmls'.length_eq, length_reverse]
  obtain ⟨hstate, hwhole⟩ := hcov (w.advAll s rps1)
  obtain ⟨cm, hcm, hm⟩ := hwhole (lib.order mls') mn' mrs' hlen (hmls'.append ⟨hmn, hmrs⟩)
  obtain ⟨zm, hzm, hfinm⟩ := hzip mn' _ _ _ cm hcm
  rw [← hfinm] at hm
  -- and the whole cursor
  have hrest : w.DoneAll (w.adv (w.advAll s rps1) m) rps2 rps2' := by
    rw [← hstate, advAll_append, advAll_cons]
    exact hrps2
  have hall : w.DoneAll s (f :: c.rights) (rps1' ++ fin zm :: rps2') := by
    rw [hpieces]
    exact hrps1.append ⟨hm, hrest⟩
  obtain ⟨rp, rs, heq, hrp, hrs⟩ := hall.of_cons
  obtain ⟨cz, hcz, hQ⟩ := zipCtx_ready (hgood rp hrp) hrs
  obtain ⟨z, hz, hfin⟩ := hzip rp _ _ _ cz hcz
  refine ⟨z, ?_, by rw [hfin]; exact hQ⟩
  have htake : listTake (rps1' ++ mls' ++ [mn']) rps1.length = .ok rps1' := by
    rw [← hrps1.length_eq, append_assoc]
    exact listTake_append _ _
  have hdrop : listDrop (rps1' ++ mls' ++ [mn']) rps1.length = .ok (mls' ++ [mn']) := by
    rw [← hrps1.length_eq, append_assoc]
    exact listDrop_append _ _
  have hmid : listTake (mls' ++ [mn']) ((mls' ++ [mn']).length - 1) = .ok mls' := by
    rw [length_append, List.length_singleton, Nat.add_sub_cancel]
    exact listTake_append _ _
  have htake2 : listTake (mrs' ++ rps2') mrs.length = .ok mrs' := by
    rw [← hmrs.length_eq]
    exact listTake_append _ _
  have hdrop2 : listDrop (mrs' ++ rps2') mrs.length = .ok rps2' := by
    rw [← hmrs.length_eq]
    exact listDrop_append _ _
  have hcons : rps1' ++ [fin zm] ++ rps2' = rp :: rs := by
    rw [append_assoc]
    exact heq
  simp only [join, hb1, hb2, ok_bind, htake, hdrop, listLast_concat, hmid, htake2, hdrop2, hzm, hcons, hz]

/-- A cursor split in two, and the results of both parts joined. -/
theorem splitAt_join (lib : Lib) (decode : β → Nat → Except Exn (List β)) (unzip : γ → α × UnzippedCtx α β)
    {encode : List α → Except Exn (ε × Nat)} {zip : β → UnzippedCtx β β → Except Exn κ} {fin : κ → β}
    (hnav : Navigates w length P cursorAtIx) (hencode : ∀ xs, xs ≠ [] → ∃ e, encode xs = .ok (e, xs.length))
    (hzip : Zips w zip fin) (cur : γ) (hcur : unzip cur = (f, unzipCtx c)) (hgood : Good w Q s f c)
    (hP : ∀ x ∈ f :: c.rights, P x) (h1 : 1 ≤ n) (hn : n < ((f :: c.rights).map length).sum)
    (hord : lib = .rope ∨ Exchanges w length P cursorAtIx (f :: c.rights) n) :
    ∃ xs1 xs2 e1 e2 reb, splitAt lib length encode cursorAtIx unzip cur n = .ok (e1, e2, reb) ∧ encode xs1 = .ok
      (e1, reb.l1) ∧ encode xs2 = .ok (e2, reb.l2) ∧ (∀ x ∈ xs1, P x) ∧ (∀ x ∈ xs2, P x) ∧ xs1 ≠ [] ∧ xs2 ≠ [] ∧
      (xs1.map length).sum = n ∧ (xs2.map length).sum = ((f :: c.rights).map length).sum - n ∧
      (lib = .rope → w.advAll s (xs1 ++ xs2) = w.advAll s (f :: c.rights)) ∧ ∀ b1 b2 bs1 bs2,
      decode b1 reb.l1 = .ok bs1 → decode b2 reb.l2 = .ok bs2 → w.DoneAll s xs1 bs1 → w.DoneAll (w.advAll s xs1) xs2
      bs2 → ∃ z, join lib decode fin zip b1 b2 reb = .ok z ∧ Q (fin z) := by
  obtain ⟨rps1, m, k, rps2, hdiv, hpieces, hk0, hkm, hsum⟩ := divide_ok length h1 (Int.le_of_lt hn)
  have hPm : P m := hP m (by rw [hpieces]; exact List.mem_append_right _ List.mem_cons_self)
  obtain ⟨mn, mls, mrs, mds, hat, hcov, hPmls, hPmn, hPmrs, hleft, hright⟩ :=
    hnav m (k - 1) hPm (by omega) (by omega)
  have hord' : lib = .rope ∨ mls.Pairwise w.Swap :=
    hord.imp_right fun hexchange => hexchange _ _ _ _ _ _ hdiv hat hPmls
  have hsum1 : ((rps1 ++ lib.order mls ++ [mn]).map length).sum = n := by
    have hmls : ((lib.order mls).map length).sum = (mls.map length).sum := by
      cases lib with
      | rope => rw [Lib.order, List.map_reverse, List.sum_reverse]
      | intRope => rfl
    rw [map_append, map_append, sum_append, sum_append, hmls, List.map_singleton, List.sum_singleton]
    omega
  have hsum2 : ((mrs ++ rps2).map length).sum = ((f :: c.rights).map length).sum - n := by
    rw [hpieces, map_append, map_append, sum_append, sum_append, map_cons, sum_cons]
    omega
  have hne : mrs ++ rps2 ≠ [] := by
    intro hnil
    rw [hnil, map_nil, sum_nil] at hsum2
    omega
  have hne1 : rps1 ++ lib.order mls ++ [mn] ≠ [] := List.append_ne_nil_of_right_ne_nil _ (List.cons_ne_nil _ _)
  obtain ⟨e1, he1⟩ := hencode _ hne1
  obtain ⟨e2, he2⟩ := hencode _ hne
  have hstate : lib = .rope → w.advAll s (rps1 ++ lib.order mls ++ [mn] ++ (mrs ++ rps2)) = w.advAll s (f :: c.rights) := by
    rintro rfl
    have hm := (hcov (w.advAll s rps1)).1
    rw [advAll_append, advAll_cons] at hm
    rw [hpieces, advAll_append, advAll_append, advAll_append, advAll_append, advAll_append]
    show _ = w.advAll (w.adv (w.advAll s rps1) m) rps2
    rw [← hm]
    rfl
  refine ⟨_, _, e1, e2, ⟨(unzipCtx c).1, (unzipCtx c).2.2, mds, rps1.length, mrs.length, _, _⟩, ?_, he1, he2, ?_, ?_,
    hne1, hne, hsum1, hsum2, hstate, ?_⟩
  · rw [← unzipCtx_rights] at hdiv
    simp only [splitAt, hcur, hdiv, ok_bind, hat, he1, he2]
    rfl
  · intro x hx
    rw [mem_append, mem_append, List.mem_singleton] at hx
    rcases hx with (hx | hx) | rfl
    · exact hP x (by rw [hpieces]; exact List.mem_append_left _ hx)
    · refine hPmls x ?_
      cases lib with
      | rope => exact List.mem_reverse.mp hx
      | intRope => exact hx
    · exact hPmn
  · intro x hx
    rcases mem_append.mp hx with hx | hx
    · exact hPmrs x hx
    grind
  · intro b1 b2 bs1 bs2 hb1 hb2 hd1 hd2
    exact join_ok hzip hgood hpieces hcov hord' hb1 hb2 hd1 hd2

end Manticore.Parray
