/-
  Manticore.Typechecker.UnifyRestore — does `unifiable` leave the meta variables alone?

  `unifiable_answer`: it answers what `unify` answers, in every state. Undoing the log
  restores every cell that `assignMV` wrote, but `prune` writes cells too, and its writes
  are not logged: a variable instantiated to another variable is redirected past it, and
  when that variable was bound tentatively the redirection outlives the undoing.
  `unifiable_restores_iff`: all tests on types over a closed set of variables leave the
  state as it was exactly when no variable of the set is instantiated to a variable.
-/

import Manticore.Typechecker.UnifyProofs

namespace Manticore.Typechecker

open Fuel
open Store (assign_self assign_of_ne)
open Ty (metas parts metasL)

variable {c : List (Meta × MetaInfo)}

/-! ## The answer -/

/-- The same answer and the same store, whatever the log. -/
def SameStore (r r' : Except Failure (St × Bool)) : Prop :=
  r.map (fun p => (p.1.store, p.2)) = r'.map fun p => (p.1.store, p.2)

theorem sameStore_ok {s s' : St} (h : s.store = s'.store) (b : Bool) : SameStore (.ok (s, b)) (.ok (s', b)) := by
  simp [SameStore, Except.map, h]

theorem SameStore.bind {r r' : Except Failure (St × Bool)} {k k' : St × Bool → Except Failure (St × Bool)}
    (h : SameStore r r') (hk : ∀ s s' b, s.store = s'.store → SameStore (k (s, b)) (k' (s', b))) :
    SameStore (r >>= k) (r' >>= k') := by
  cases r with
  | error e =>
    cases r' with
    | error e' => simpa [SameStore, Except.map, Bind.bind, Except.bind] using h
    | ok p' => simp [SameStore, Except.map] at h
  | ok p =>
    cases r' with
    | error e' => simp [SameStore, Except.map] at h
    | ok p' =>
      simp only [SameStore, Except.map, Except.ok.injEq, Prod.mk.injEq] at h
      obtain ⟨s, b⟩ := p
      obtain ⟨s', b'⟩ := p'
      obtain ⟨hs, rfl⟩ := h
      exact hk s s' b hs

theorem sameStore_allEq {f f' : St → Ty → Ty → Except Failure (St × Bool)}
    (h : ∀ s s' : St, s.store = s'.store → ∀ t u, SameStore (f s t u) (f' s' t u)) (ts us : List Ty) (s s' : St)
    (hs : s.store = s'.store) : SameStore (allEq f s ts us) (allEq f' s' ts us) := by
  induction ts generalizing us s s' with
  | nil => cases us <;> exact sameStore_ok hs _
  | cons t ts ih =>
    cases us with
    | nil => exact sameStore_ok hs _
    | cons u us =>
      refine (h s s' hs t u).bind fun s1 s1' b hs1 => ?_
      grind [sameStore_ok]

theorem assignMV_store (rc rc' : Bool) {s s' : St} (hs : s.store = s'.store) (m : Meta) (i : MetaInfo) :
    (assignMV rc s m i).store = (assignMV rc' s' m i).store := by
  simp only [assignMV, hs]

theorem adjustDepth_store (rc rc' : Bool) (d : Int) (n : Nat) {s s' : St} (hs : s.store = s'.store) (t : Ty) :
    (adjustDepth rc d n s t).map St.store = (adjustDepth rc' d n s' t).map St.store := by
  induction n generalizing s s' t with
  | zero => rfl
  | succ n ih =>
    -- two steps in a row, from stores that agree
    have hbind : ∀ {r r' : Except Failure St} {k k' : St → Except Failure St}, r.map St.store = r'.map St.store →
        (∀ s s' : St, s.store = s'.store → (k s).map St.store = (k' s').map St.store) →
        (r >>= k).map St.store = (r' >>= k').map St.store := by
      intro r r' k k' h hk
      cases r <;> cases r' <;> simp only [Except.map, Except.error.injEq, Except.ok.injEq, reduceCtorEq] at h
      · subst h
        rfl
      · exact hk _ _ h
    have happ : ∀ (ts : List Ty) (s s' : St), s.store = s'.store →
        (appM (adjustDepth rc d n) s ts).map St.store = (appM (adjustDepth rc' d n) s' ts).map St.store := by
      intro ts
      induction ts with
      | nil => exact fun s s' hs => congrArg Except.ok hs
      | cons t ts iht => exact fun s s' hs => hbind (ih hs t) fun s1 s1' hs1 => iht s1 s1' hs1
    cases t with
    | metaTy m =>
      simp only [adjustDepth, hs]
      cases s'.store.info m with
      | univ d' =>
        simp only
        split
        · exact congrArg Except.ok (assignMV_store rc rc' hs m _)
        · exact congrArg Except.ok hs
      | inst u => exact ih hs u
      | cls c => exact congrArg Except.ok hs
    | conTy args _ => exact happ args s s' hs
    | tupleTy tys => exact happ tys s s' hs
    | funTy t1 t2 => exact hbind (ih hs t1) fun s1 s1' hs1 => ih hs1 t2
    | errorTy | varTy => exact congrArg Except.ok hs

theorem unifyWithMV_store (rc rc' : Bool) (n : Nat) {s s' : St} (hs : s.store = s'.store) (t : Ty) (m : Meta) :
    SameStore (unifyWithMV rc n s t m) (unifyWithMV rc' n s' t m) := by
  have hassign : ∀ {s s' : St}, s.store = s'.store → SameStore (.ok (assignMV rc s m (.inst t), true))
      (.ok (assignMV rc' s' m (.inst t), true)) := fun h => sameStore_ok (assignMV_store rc rc' h m _) true
  simp only [unifyWithMV, hs]
  cases s'.store.info m with
  | univ d =>
    simp only
    cases occursIn m n s'.store t with
    | error e => rfl
    | ok p =>
      obtain ⟨st, b⟩ := p
      cases b with
      | true => exact sameStore_ok rfl false
      | false =>
        have h := @adjustDepth_store rc rc' d n { s with store := st } { s' with store := st } rfl t
        simp only [Bind.bind, Except.bind]
        cases h1 : adjustDepth rc d n { s with store := st } t <;>
          cases h2 : adjustDepth rc' d n { s' with store := st } t <;> rw [h1, h2] at h <;>
          simp only [Except.map, Except.error.injEq, Except.ok.injEq, reduceCtorEq] at h
        · subst h
          rfl
        · exact hassign h
  | cls c =>
    simp only
    cases occursIn m n s'.store t with
    | error e => rfl
    | ok p =>
      obtain ⟨st, b⟩ := p
      cases b with
      | true => exact sameStore_ok rfl false
      | false =>
        have hclass : ∀ l, SameStore
            (if isClass t l = true then .ok (assignMV rc { s with store := st } m (.inst t), true)
              else .ok ({ s with store := st }, false))
            (if isClass t l = true then .ok (assignMV rc' { s' with store := st } m (.inst t), true)
              else .ok ({ s' with store := st }, false)) := by
          intro l
          split
          · exact hassign rfl
          · exact sameStore_ok rfl false
        cases c with
        | eq =>
          simp only [Bind.bind, Except.bind]
          cases isEqualityType n st t with
          | error e => rfl
          | ok p2 =>
            obtain ⟨st2, b2⟩ := p2
            cases b2 with
            | true => exact hassign rfl
            | false => exact sameStore_ok rfl false
        | _ => exact hclass _
  | inst u => rfl

theorem unifyMV_store (rc rc' : Bool) {s s' : St} (hs : s.store = s'.store) (m1 m2 : Meta) :
    SameStore (unifyMV rc s m1 m2) (unifyMV rc' s' m1 m2) := by
  have hassign : ∀ m i, SameStore (.ok (assignMV rc s m i, true)) (.ok (assignMV rc' s' m i, true)) := fun m i =>
    sameStore_ok (assignMV_store rc rc' hs m i) true
  simp only [unifyMV, hs]
  cases s'.store.info m1 with
  | univ d1 =>
    cases s'.store.info m2 with
    | univ d2 =>
      simp only
      split <;> exact hassign _ _
    | cls | inst => exact hassign _ _
  | cls c1 =>
    cases s'.store.info m2 with
    | univ d2 => exact hassign _ _
    | cls c2 => cases c1 <;> cases c2 <;> first | exact hassign _ _ | exact sameStore_ok hs _
    | inst u => rfl
  | inst u =>
    cases s'.store.info m2 with
    | univ d2 => exact hassign _ _
    | cls c2 => rfl
    | inst u => rfl

theorem uni_store (rc rc' : Bool) (n : Nat) {s s' : St} (hs : s.store = s'.store) (t1 t2 : Ty) :
    SameStore (uni rc n s t1 t2) (uni rc' n s' t1 t2) := by
  induction n generalizing s s' t1 t2 with
  | zero => rfl
  | succ n ih =>
    simp only [uni, hs]
    cases prune n s'.store t1 with
    | error e => rfl
    | ok p1 =>
      obtain ⟨st1, u1⟩ := p1
      simp only [Bind.bind, Except.bind]
      cases prune n st1 t2 with
      | error e => rfl
      | ok p2 =>
        obtain ⟨st2, u2⟩ := p2
        have hlist : ∀ ts us, SameStore (allEq (uni rc n) { s with store := st2 } ts us)
            (allEq (uni rc' n) { s' with store := st2 } ts us) := fun ts us =>
          sameStore_allEq (fun s s' hs t u => ih hs t u) ts us _ _ rfl
        have hdone : ∀ b, SameStore (.ok ({ s with store := st2 }, b)) (.ok ({ s' with store := st2 }, b)) :=
          sameStore_ok rfl
        have hwith : ∀ t m, SameStore (unifyWithMV rc n { s with store := st2 } t m)
            (unifyWithMV rc' n { s' with store := st2 } t m) := fun t m =>
          @unifyWithMV_store rc rc' n { s with store := st2 } { s' with store := st2 } rfl t m
        cases u1 with
        | errorTy => exact hdone true
        | metaTy m1 =>
          cases u2 with
          | errorTy => exact hdone true
          | metaTy m2 =>
            grind [unifyMV_store]
          | _ => exact hwith _ _
        | varTy v1 =>
          cases u2 with
          | metaTy m2 => exact hwith _ _
          | _ => exact hdone _
        | conTy as c1 =>
          cases u2 with
          | metaTy m2 => exact hwith _ _
          | conTy bs c2 =>
            grind
          | _ => exact hdone _
        | funTy a1 a2 =>
          cases u2 with
          | metaTy m2 => exact hwith _ _
          | funTy b1 b2 =>
            refine (@ih { s with store := st2 } { s' with store := st2 } rfl a1 b1).bind ?_
            grind [sameStore_ok]
          | _ => exact hdone _
        | tupleTy as =>
          cases u2 with
          | metaTy m2 => exact hwith _ _
          | tupleTy bs => exact hlist as bs
          | _ => exact hdone _

/-- `unifiable` answers what `unify` would answer. -/
theorem unifiable_answer (n : Nat) (s : Store) (t1 t2 : Ty) :
    (unifiable n s t1 t2).map Prod.snd = (unify n s t1 t2).map Prod.snd := by
  have h := @uni_store true false n ⟨s, []⟩ ⟨s, []⟩ rfl t1 t2
  simp only [unifiable, unify, unifyRC, Bind.bind, Except.bind]
  cases h1 : uni true n ⟨s, []⟩ t1 t2 <;> cases h2 : uni false n ⟨s, []⟩ t1 t2 <;> rw [h1, h2] at h <;>
    simp only [SameStore, Except.map, Except.error.injEq, Except.ok.injEq, Prod.mk.injEq, reduceCtorEq] at h
  · exact congrArg Except.error h
  · exact congrArg Except.ok h.2

/-! ## Undoing the log -/

theorem Store.assign_assign (s : Store) (m : Meta) (i j : MetaInfo) : (s.assign m i).assign m j = s.assign m j :=
  Store.ext (fun m' => by
    by_cases h : m' = m
    · rw [h, assign_self, assign_self]
    · rw [assign_of_ne _ h, assign_of_ne _ h, assign_of_ne _ h]) rfl

theorem Store.assign_comm (s : Store) {m m' : Meta} (h : m ≠ m') (i j : MetaInfo) :
    (s.assign m i).assign m' j = (s.assign m' j).assign m i :=
  Store.ext (fun x => by
    by_cases hx : x = m'
    · subst hx
      rw [assign_self, assign_of_ne _ (Ne.symm h), assign_self]
    · rw [assign_of_ne _ hx]
      by_cases hx' : x = m
      · rw [hx', assign_self, assign_self]
      · rw [assign_of_ne _ hx', assign_of_ne _ hx', assign_of_ne _ hx]) rfl

/-- A cell that the log restores may hold anything. -/
theorem restore_assign {m : Meta} (hm : m ∈ c.map Prod.fst) (s : Store) (i : MetaInfo) :
    restore c (s.assign m i) = restore c s := by
  induction c generalizing s with
  | nil => cases hm
  | cons p c ih =>
    obtain ⟨m', j⟩ := p
    simp only [restore]
    by_cases he : m = m'
    · rw [he, Store.assign_assign]
    · rw [Store.assign_comm _ he]
      refine ih ?_ _
      simpa [he] using hm

theorem restore_info {m : Meta} (hm : m ∉ c.map Prod.fst) (s : Store) :
    (restore c s).info m = s.info m := by
  induction c generalizing s with
  | nil => rfl
  | cons p c ih =>
    obtain ⟨m', j⟩ := p
    simp only [List.map_cons, List.mem_cons, not_or] at hm
    rw [restore, ih hm.2, assign_of_ne _ hm.1]

section
variable {S : Set Meta} {s₀ : Store} (hno : ∀ m ∈ S, ∀ m', s₀.info m ≠ .inst (.metaTy m'))
include hno

/-- `s` goes back to `s₀` by undoing the log. -/
structure Undo (S : Set Meta) (s₀ : Store) (c : List (Meta × MetaInfo)) (s : Store) : Prop where
  closed : Closed s S
  back : restore c s = s₀

omit hno in
theorem closed_assign {s : Store} (h : Closed s S) {m : Meta} {i : MetaInfo} (hi : ∀ t, i = .inst t → t.Within S) :
    Closed (s.assign m i) S := by
  intro m' hm' t ht x hx
  by_cases he : m' = m
  · subst he
    rw [assign_self] at ht
    exact hi t ht x hx
  · rw [assign_of_ne _ he] at ht
    exact h m' hm' t ht x hx

omit hno in
theorem Undo.assignMV {s : St} (h : Undo S s₀ s.changes s.store) (m : Meta) {i : MetaInfo}
    (hi : ∀ t, i = .inst t → t.Within S) :
    Undo S s₀ (assignMV true s m i).changes (assignMV true s m i).store := by
  refine ⟨closed_assign h.closed hi, ?_⟩
  show restore s.changes ((s.store.assign m i).assign m (s.store.info m)) = s₀
  rw [Store.assign_assign, assign_inst_self rfl, h.back]

/-- A path is compressed only in cells that the log restores. -/
theorem prune_undo {n : Nat} {s s' : Store} {t t' : Ty} (h : prune n s t = .ok (s', t'))
    (hu : Undo S s₀ c s) (ht : t.Within S) : Undo S s₀ c s' ∧ t'.Within S := by
  induction n generalizing s t s' t' with
  | zero => cases h
  | succ n ih =>
    cases t with
    | metaTy m =>
      have hmS : m ∈ S := ht m (by simp [metas])
      cases hi : s.info m with
      | inst ty =>
        simp only [prune, hi, Bind.bind, Except.bind] at h
        cases hp : prune n s ty with
        | error e => rw [hp] at h; cases h
        | ok p =>
          obtain ⟨s1, t1⟩ := p
          rw [hp] at h
          cases h
          obtain ⟨hu1, ht1⟩ := ih hp hu (hu.closed m hmS ty hi)
          refine ⟨⟨closed_assign hu1.closed fun u hu => by cases hu; exact ht1, ?_⟩, ht1⟩
          by_cases hm : m ∈ c.map Prod.fst
          · rw [restore_assign hm, hu1.back]
          · -- the cell is as it was at the start, so its instance is no variable
            have hi0 : s₀.info m = .inst ty := by rw [← hu.back, restore_info hm, hi]
            cases n with
            | zero => cases hp
            | succ n =>
              have hp' : prune (n + 1) s ty = .ok (s, ty) := by
                cases ty with
                | metaTy m' => exact absurd hi0 (hno m hmS m')
                | _ => rfl
              rw [hp'] at hp
              cases hp
              rw [assign_inst_self hi, hu.back]
      | _ =>
        simp only [prune, hi] at h
        cases h
        exact ⟨hu, ht⟩
    | _ =>
      cases h
      exact ⟨hu, ht⟩

theorem occursIn_undo {m : Meta} {n : Nat} {s s' : Store} {t : Ty} {b : Bool}
    (h : occursIn m n s t = .ok (s', b)) (hu : Undo S s₀ c s) (ht : t.Within S) : Undo S s₀ c s' := by
  induction n generalizing s t s' b with
  | zero => cases h
  | succ n ih =>
    have hany : ∀ (ts : List Ty) (s s' : Store) (b : Bool), (∀ t ∈ ts, t.Within S) → Undo S s₀ c s →
        anyM (occursIn m n) s ts = .ok (s', b) → Undo S s₀ c s' := by
      intro ts
      induction ts with
      | nil =>
        intro s s' b _ hu h
        cases h
        exact hu
      | cons t ts iht =>
        intro s s' b hts hu h
        simp only [anyM, Bind.bind, Except.bind] at h
        grind
    simp only [occursIn, Bind.bind, Except.bind] at h
    cases hp : prune n s t with
    | error e => rw [hp] at h; cases h
    | ok p =>
      obtain ⟨s1, t1⟩ := p
      obtain ⟨hu1, ht1⟩ := prune_undo hno hp hu ht
      rw [hp] at h
      cases t1 with
      | conTy args _ | tupleTy args => exact hany args s1 s' b (fun t ht => ht1.parts ht) hu1 h
      | funTy u1 u2 =>
        simp only at h
        cases h1 : occursIn m n s1 u1 with
        | error e => rw [h1] at h; cases h
        | ok p =>
          obtain ⟨s2, b2⟩ := p
          have hu2 := ih h1 hu1 (ht1.parts (by simp [parts]))
          rw [h1] at h
          cases b2 with
          | true => cases h; exact hu2
          | false => exact ih h hu2 (ht1.parts (by simp [parts]))
      | _ => cases h; exact hu1

omit hno in
theorem adjustDepth_undo {d : Int} {n : Nat} {s s' : St} {t : Ty} (h : adjustDepth true d n s t = .ok s')
    (hu : Undo S s₀ s.changes s.store) (ht : t.Within S) : Undo S s₀ s'.changes s'.store := by
  induction n generalizing s t s' with
  | zero => cases h
  | succ n ih =>
    have happ : ∀ (ts : List Ty) (s s' : St), (∀ t ∈ ts, t.Within S) → Undo S s₀ s.changes s.store →
        appM (adjustDepth true d n) s ts = .ok s' → Undo S s₀ s'.changes s'.store := by
      intro ts
      induction ts with
      | nil =>
        intro s s' _ hu h
        cases h
        exact hu
      | cons t ts iht =>
        intro s s' hts hu h
        simp only [appM, Bind.bind, Except.bind] at h
        grind
    cases t with
    | metaTy m =>
      cases hi : s.store.info m with
      | univ d' =>
        simp only [adjustDepth, hi] at h
        cases h
        split
        · exact hu.assignMV m (by rintro _ ⟨⟩)
        · exact hu
      | inst u =>
        simp only [adjustDepth, hi] at h
        exact ih h hu (hu.closed m (ht m (by simp [metas])) u hi)
      | cls c =>
        simp only [adjustDepth, hi] at h
        cases h
        exact hu
    | conTy args _ | tupleTy args => exact happ args s s' (fun t h => ht.parts h) hu h
    | funTy t1 t2 =>
      simp only [adjustDepth, Bind.bind, Except.bind] at h
      cases h1 : adjustDepth true d n s t1 with
      | error e => rw [h1] at h; cases h
      | ok s1 =>
        have hu1 := ih h1 hu (ht.parts (by simp [parts]))
        rw [h1] at h
        exact ih h hu1 (ht.parts (by simp [parts]))
    | _ => cases h; exact hu

omit hno in
/-- The blackholes are all filled again. -/
theorem isEqualityType_store {n : Nat} {s s' : Store} {t : Ty} {b : Bool} (h : isEqualityType n s t = .ok (s', b)) :
    s' = s := by
  induction n generalizing s t s' b with
  | zero => cases h
  | succ n ih =>
    have hall : ∀ (ts : List Ty) (s s' : Store) (b : Bool), allM (isEqualityType n) s ts = .ok (s', b) → s' = s := by
      intro ts
      induction ts with
      | nil =>
        intro s s' b h
        cases h
        rfl
      | cons t ts iht =>
        intro s s' b h
        simp only [allM, Bind.bind, Except.bind] at h
        grind
    cases t with
    | metaTy m =>
      cases hi : s.info m with
      | inst u =>
        simp only [isEqualityType, hi, Bind.bind, Except.bind] at h
        grind [Store.assign_assign, assign_inst_self]
      | _ =>
        simp only [isEqualityType, hi] at h
        cases h
        rfl
    | tupleTy tys => exact hall tys s s' b h
    | _ => cases h; rfl

theorem unifyWithMV_undo {n : Nat} {s s' : St} {t : Ty} {m : Meta} {b : Bool}
    (h : unifyWithMV true n s t m = .ok (s', b)) (hu : Undo S s₀ s.changes s.store) (ht : t.Within S) :
    Undo S s₀ s'.changes s'.store := by
  have hassign : ∀ s : St, Undo S s₀ s.changes s.store →
      Undo S s₀ (assignMV true s m (.inst t)).changes (assignMV true s m (.inst t)).store := fun s hu =>
    hu.assignMV m fun u he => by cases he; exact ht
  cases hi : s.store.info m with
  | inst u =>
    simp only [unifyWithMV, hi] at h
    cases h
  | univ d =>
    simp only [unifyWithMV, hi, Bind.bind, Except.bind] at h
    cases ho : occursIn m n s.store t with
    | error e => rw [ho] at h; cases h
    | ok p =>
      obtain ⟨st, b1⟩ := p
      have hu1 := occursIn_undo hno ho hu ht
      rw [ho] at h
      cases b1 with
      | true => cases h; exact hu1
      | false =>
        simp only [Bool.false_eq_true, if_false] at h
        grind [adjustDepth_undo]
  | cls c =>
    simp only [unifyWithMV, hi, Bind.bind, Except.bind] at h
    cases ho : occursIn m n s.store t with
    | error e => rw [ho] at h; cases h
    | ok p =>
      obtain ⟨st, b1⟩ := p
      have hu1 := occursIn_undo hno ho hu ht
      rw [ho] at h
      cases b1 with
      | true => cases h; exact hu1
      | false =>
        have hclass : ∀ l, (if isClass t l = true then .ok (assignMV true { s with store := st } m (.inst t), true)
            else .ok ({ s with store := st }, false) : Except Failure (St × Bool)) = .ok (s', b) →
            Undo S s₀ s'.changes s'.store := by
          grind
        cases c with
        | eq =>
          simp only [Bool.false_eq_true, if_false] at h
          grind [isEqualityType_store]
        | _ => exact hclass _ h

omit hno in
theorem unifyMV_undo {s s' : St} {m1 m2 : Meta} {b : Bool} (h : unifyMV true s m1 m2 = .ok (s', b))
    (hu : Undo S s₀ s.changes s.store) (h1 : m1 ∈ S) (h2 : m2 ∈ S) : Undo S s₀ s'.changes s'.store := by
  have hassign : ∀ m m', m' ∈ S → Undo S s₀ (assignMV true s m (.inst (.metaTy m'))).changes
      (assignMV true s m (.inst (.metaTy m'))).store := fun m m' hm' =>
    hu.assignMV m fun u he => by
      cases he
      intro x hx
      rw [metas, List.mem_singleton] at hx
      exact hx ▸ hm'
  by_cases hi1 : ∀ u, s.store.info m1 ≠ .inst u
  · by_cases hi2 : ∀ u, s.store.info m2 ≠ .inst u
    · grind [unifyMV_cases]
    · simp only [not_forall, not_not] at hi2
      grind [unifyMV]
  · simp only [not_forall, not_not] at hi1
    grind [unifyMV]

theorem uni_undo {n : Nat} {s s' : St} {t1 t2 : Ty} {b : Bool} (h : uni true n s t1 t2 = .ok (s', b))
    (hu : Undo S s₀ s.changes s.store) (h1 : t1.Within S) (h2 : t2.Within S) : Undo S s₀ s'.changes s'.store := by
  induction n generalizing s t1 t2 s' b with
  | zero => cases h
  | succ n ih =>
    have hlist : ∀ (ts us : List Ty) (s s' : St) (b : Bool), (∀ t ∈ ts, t.Within S) → (∀ u ∈ us, u.Within S) →
        Undo S s₀ s.changes s.store → allEq (uni true n) s ts us = .ok (s', b) → Undo S s₀ s'.changes s'.store := by
      intro ts
      induction ts with
      | nil =>
        intro us s s' b _ _ hu h
        cases us <;> cases h <;> exact hu
      | cons t ts iht =>
        intro us s s' b hts hus hu h
        cases us with
        | nil => cases h; exact hu
        | cons u us =>
          simp only [allEq, Bind.bind, Except.bind] at h
          cases hx : uni true n s t u with
          | error e => rw [hx] at h; cases h
          | ok p =>
            obtain ⟨s1, b1⟩ := p
            have hu1 := ih hx hu (hts t List.mem_cons_self) (hus u List.mem_cons_self)
            rw [hx] at h
            cases b1 with
            | true =>
              exact iht us s1 s' b (fun t ht => hts t (List.mem_cons_of_mem _ ht))
                (fun u hu => hus u (List.mem_cons_of_mem _ hu)) hu1 h
            | false => cases h; exact hu1
    simp only [uni, Bind.bind, Except.bind] at h
    cases hp1 : prune n s.store t1 with
    | error e => rw [hp1] at h; cases h
    | ok p1 =>
      obtain ⟨st1, u1⟩ := p1
      obtain ⟨hu1, hw1⟩ := prune_undo hno hp1 hu h1
      rw [hp1] at h
      simp only at h
      cases hp2 : prune n st1 t2 with
      | error e => rw [hp2] at h; cases h
      | ok p2 =>
        obtain ⟨st2, u2⟩ := p2
        obtain ⟨hu2, hw2⟩ := prune_undo hno hp2 hu1 h2
        rw [hp2] at h
        have hdone : ∀ b', (.ok ({ s with store := st2 }, b') : Except Failure (St × Bool)) = .ok (s', b) →
            Undo S s₀ s'.changes s'.store := fun b' h => by cases h; exact hu2
        have hwith : ∀ t m, t.Within S → unifyWithMV true n { s with store := st2 } t m = .ok (s', b) →
            Undo S s₀ s'.changes s'.store := fun t m ht h => unifyWithMV_undo hno h hu2 ht
        cases u1 with
        | errorTy => exact hdone _ h
        | metaTy m1 =>
          cases u2 with
          | errorTy => exact hdone _ h
          | metaTy m2 =>
            simp only at h
            split at h
            · exact hdone _ h
            · exact unifyMV_undo h hu2 (hw1 m1 (by simp [metas])) (hw2 m2 (by simp [metas]))
          | _ => exact hwith _ m1 hw2 h
        | varTy v1 =>
          cases u2 with
          | metaTy m2 => exact hwith _ m2 hw1 h
          | _ => exact hdone _ h
        | conTy as c1 =>
          cases u2 with
          | metaTy m2 => exact hwith _ m2 hw1 h
          | conTy bs c2 =>
            simp only at h
            split at h
            · exact hlist as bs { s with store := st2 } s' b (fun t ht => hw1.parts ht) (fun u hu => hw2.parts hu) hu2 h
            · exact hdone _ h
          | _ => exact hdone _ h
        | funTy a1 a2 =>
          cases u2 with
          | metaTy m2 => exact hwith _ m2 hw1 h
          | funTy b1 b2 =>
            simp only at h
            cases hx : uni true n { s with store := st2 } a1 b1 with
            | error e => rw [hx] at h; cases h
            | ok p =>
              obtain ⟨s1, b'⟩ := p
              have hu3 := ih hx hu2 (hw1.parts (by simp [parts])) (hw2.parts (by simp [parts]))
              rw [hx] at h
              cases b' with
              | true => exact ih h hu3 (hw1.parts (by simp [parts])) (hw2.parts (by simp [parts]))
              | false => cases h; exact hu3
          | _ => exact hdone _ h
        | tupleTy as =>
          cases u2 with
          | metaTy m2 => exact hwith _ m2 hw1 h
          | tupleTy bs =>
            exact hlist as bs { s with store := st2 } s' b (fun t ht => hw1.parts ht) (fun u hu => hw2.parts hu) hu2 h
          | _ => exact hdone _ h

end

/-! ## When the state is restored -/

/-- The test answers what unification answers and leaves the state as it was. -/
def Restores (s : Store) (t1 t2 : Ty) : Prop :=
  ∃ b s', Returns (fun n => unify n s t1 t2) (s', b) ∧ Returns (fun n => unifiable n s t1 t2) (s, b)

theorem restores_of_no_chain {S : Set Meta} {s : Store} (ha : Acyclic s) (hS : Closed s S)
    (hno : ∀ m ∈ S, ∀ m', s.info m ≠ .inst (.metaTy m')) {t1 t2 : Ty} (h1 : t1.Within S) (h2 : t2.Within S) :
    Restores s t1 t2 := by
  obtain ⟨r, hr⟩ := ha
  obtain ⟨F, hcl, hw1, hw2, -⟩ := exists_scope_two hr t1 t2
  obtain ⟨s', b, ⟨N, hN⟩, -⟩ := uni_returns false F _ ⟨s, []⟩ r t1 t2 hr hcl hw1 hw2 rfl
  obtain ⟨s'', b', ⟨N', hN'⟩, -⟩ := uni_returns true F _ ⟨s, []⟩ r t1 t2 hr hcl hw1 hw2 rfl
  have hunify : ∀ n, N ≤ n → unify n s t1 t2 = .ok (s'.store, b) := by
    intro n hn
    simp only [unify, unifyRC, hN n hn]
    rfl
  have hunifiable : ∀ n, N' ≤ n → unifiable n s t1 t2 = .ok (s, b') := by
    intro n hn
    have hu := uni_undo hno (hN' n hn) ⟨hS, rfl⟩ h1 h2
    simp only [unifiable, unifyRC, hN' n hn]
    show Except.ok (restore s''.changes s''.store, b') = _
    rw [hu.back]
  have hb : b' = b := by
    have h := unifiable_answer (max N N') s t1 t2
    rw [hunify _ (Nat.le_max_left _ _), hunifiable _ (Nat.le_max_right _ _)] at h
    exact Except.ok.inj h
  exact ⟨b, s'.store, ⟨N, hunify⟩, ⟨N', hb ▸ hunifiable⟩⟩

/-- Pruning alone redirects a variable that leads to an instantiated one. -/
theorem not_restores_of_inst {s : Store} (ha : Acyclic s) {m m' : Meta} {u : Ty} (hm : s.info m = .inst (.metaTy m'))
    (hm' : s.info m' = .inst u) : ¬ Restores s (.metaTy m) .errorTy := by
  rintro ⟨b, s', -, hret⟩
  obtain ⟨r, hr⟩ := ha
  obtain ⟨s1, t, hp, hpr⟩ := prune_returns hr (.metaTy m)
  have hret' : Returns (fun n => unifiable n s (.metaTy m) .errorTy) (s1, true) := by
    have huni : Returns (fun n => uni true n ⟨s, []⟩ (.metaTy m) .errorTy) (⟨s1, []⟩, true) := by
      refine .succ ?_
      simp only [uni]
      refine hp.bind ?_
      have hp2 : Returns (fun n => prune n s1 .errorTy) (s1, .errorTy) := .succ (.pure _)
      refine hp2.bind ?_
      cases t <;> exact .pure _
    exact huni.bind (.pure _)
  obtain ⟨rfl, -⟩ := Prod.mk.inj (hret.unique hret')
  rcases hpr.source with rfl | ⟨m1, he, h1⟩
  · exact hpr.head m rfl _ hm
  · cases he
    rw [hm] at h1
    cases h1
    exact hpr.head m' rfl _ hm'

/-- A member of the class. -/
def member : Option TyClass → Ty
  | none => unitTy
  | some .float => .conTy [] floatTyc
  | some _ => .conTy [] intTyc

/-- A variable bound tentatively is compressed away for good. -/
theorem not_restores_of_var {s : Store} {m m' : Meta} {k : Option TyClass} (hm : s.info m = .inst (.metaTy m'))
    (hm' : (s.info m').kind = some k) :
    ¬ Restores s (.tupleTy [.metaTy m', .metaTy m]) (.tupleTy [member k, member k]) := by
  rintro ⟨b, s', -, hret⟩
  have hne : m ≠ m' := by
    rintro rfl
    rw [hm] at hm'
    cases hm'
  have hret' : ∃ s1, Returns (fun n => unifiable n s (.tupleTy [.metaTy m', .metaTy m]) (.tupleTy [member k, member k]))
      (s1, true) ∧ s1.info m = .inst (member k) := by
    have heq : s.isEqTyc intTyc = true := s.basis_eq _ (by decide)
    refine ⟨restore [(m', s.info m')] (((s.assign m' (.inst (member k))).assign m' (.inst (member k))).assign m
      (.inst (member k))), ⟨6, fun n hn => ?_⟩, ?_⟩
    · obtain ⟨n, rfl⟩ : ∃ j, n = j + 6 := ⟨n - 6, by omega⟩
      cases hi : s.info m' with
      | inst u => rw [hi] at hm'; cases hm'
      | univ d =>
        rw [hi] at hm'
        cases hm'
        simp [unifiable, unifyRC, uni, prune, allEq, unifyWithMV, occursIn, anyM, adjustDepth, appM, member, unitTy,
          hi, hm, hne, assignMV, Bind.bind, Except.bind]
      | cls c =>
        rw [hi] at hm'
        cases hm'
        cases c <;> simp [unifiable, unifyRC, uni, prune, allEq, unifyWithMV, occursIn, anyM, member, isClass, intClass,
          floatClass, numClass, orderClass, isEqualityType, hi, hm, hne, assignMV, heq, Bind.bind, Except.bind]
    · rw [restore_info (by simpa using hne), assign_self]
  obtain ⟨s1, hret', h1⟩ := hret'
  obtain ⟨rfl, -⟩ := Prod.mk.inj (hret.unique hret')
  rw [hm] at h1
  have hk : Ty.metaTy m' = member k := MetaInfo.inst.inj h1
  cases k with
  | none => cases hk
  | some c => cases c <;> cases hk

theorem member_within (S : Set Meta) (k : Option TyClass) : (member k).Within S := by
  cases k with
  | none => exact fun m hm => by simp [member, unitTy, metas, metasL] at hm
  | some c => cases c <;> exact fun m hm => by simp [member, metas, metasL] at hm

/-- Every test on types over `S` answers as unification does and leaves the state as it
    was, exactly when no variable of `S` is instantiated to a variable. -/
theorem unifiable_restores_iff {s : Store} (ha : Acyclic s) {S : Set Meta} (hS : Closed s S) :
    (∀ t1 t2 : Ty, t1.Within S → t2.Within S → Restores s t1 t2) ↔
      ∀ m ∈ S, ∀ m', s.info m ≠ .inst (.metaTy m') := by
  refine ⟨fun h m hmS m' hm => ?_, fun hno t1 t2 h1 h2 => restores_of_no_chain ha hS hno h1 h2⟩
  have hm'S : m' ∈ S := hS m hmS _ hm m' (by simp [metas])
  have hw : ∀ x ∈ S, (Ty.metaTy x).Within S := fun x hx y hy => by
    rw [metas, List.mem_singleton] at hy
    exact hy ▸ hx
  cases hk : (s.info m').kind with
  | none =>
    obtain ⟨u, hu⟩ := MetaInfo.kind_eq_none.1 hk
    exact not_restores_of_inst ha hm hu (h _ _ (hw m hmS) fun _ hx => by simp [metas] at hx)
  | some k =>
    refine not_restores_of_var hm hk (h _ _ ?_ ?_)
    · intro x hx
      grind [metas, metasL]
    · intro x hx
      simp only [metas, metasL, List.append_nil, List.mem_append, or_self] at hx
      exact member_within S k x hx

theorem unifiable_restores_eqStore :
    (∀ t1 t2 : Ty, t1.Within Set.univ → t2.Within Set.univ → Restores eqStore t1 t2) ↔
      ∀ m ∈ Set.univ, ∀ m', eqStore.info m ≠ .inst (.metaTy m') :=
  unifiable_restores_iff eqStore_acyclic fun _ _ _ _ _ _ => trivial

/-- The variable 1 is instantiated to the variable 0, which is left unconstrained. -/
def chainStore : Store :=
  ⟨fun m => if m = ⟨1⟩ then .inst (.metaTy ⟨0⟩) else .univ 1, fun _ => true, fun _ _ => rfl⟩

/-- After the test the variable 1 stays instantiated to `unit`, though 0 is open again. -/
theorem unifiable_leaves_instance :
    ∃ s', Returns (fun n => unifiable n chainStore (.tupleTy [.metaTy ⟨0⟩, .metaTy ⟨1⟩]) (.tupleTy [unitTy, unitTy]))
      (s', true) ∧ s'.info ⟨0⟩ = .univ 1 ∧ s'.info ⟨1⟩ = .inst unitTy ∧
      ¬ Restores chainStore (.tupleTy [.metaTy ⟨0⟩, .metaTy ⟨1⟩]) (.tupleTy [unitTy, unitTy]) := by
  refine ⟨restore [(⟨0⟩, .univ 1)] (((chainStore.assign ⟨0⟩ (.inst unitTy)).assign ⟨0⟩ (.inst unitTy)).assign ⟨1⟩
    (.inst unitTy)), ⟨6, fun n hn => ?_⟩, rfl, rfl, @not_restores_of_var chainStore ⟨1⟩ ⟨0⟩ none rfl rfl⟩
  obtain ⟨n, rfl⟩ : ∃ k, n = k + 6 := ⟨n - 6, by omega⟩
  rfl

end Manticore.Typechecker
