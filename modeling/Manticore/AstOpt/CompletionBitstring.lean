/-
  Manticore.AstOpt.CompletionBitstring — which of the computations of a parallel case have to
  be finished for a rule to be matched (`ast-opt/completion-bitstring.sml`), and the maps from
  such bit strings (`RedBlackMapFn`, here the list of its items in ascending order).
-/

import Manticore.Ast.Syntax

namespace Manticore.AstOpt

open Ast

/-- `CompletionBitstring.t`. -/
abbrev CB := List Bit

namespace CB

def unequal : String := "unequal lengths"

/-- `eq`. -/
def eq : CB → CB → Except String Bool
  | b :: bs, c :: cs => if b = c then eq bs cs else .ok false
  | _ :: _, [] => .error unequal
  | [], _ :: _ => .error unequal
  | [], [] => .ok true

/-- `sub`: where the first is `one`, the second is. -/
def sub : CB → CB → Except String Bool
  | [], [] => .ok true
  | .one :: _, .zero :: _ => .ok false
  | .one :: c₁, .one :: c₂ => sub c₁ c₂
  | .zero :: c₁, _ :: c₂ => sub c₁ c₂
  | _ :: _, [] => .error unequal
  | [], _ :: _ => .error unequal

/-- The lexicographic order of the strings of bits. -/
def lex : CB → CB → Ordering
  | [], [] => .eq
  | [], _ :: _ => .lt
  | _ :: _, [] => .gt
  | .zero :: _, .one :: _ => .lt
  | .one :: _, .zero :: _ => .gt
  | .zero :: c₁, .zero :: c₂ => lex c₁ c₂
  | .one :: c₁, .one :: c₂ => lex c₁ c₂

/-- `compare`. -/
def compare (c₁ c₂ : CB) : Except String Ordering :=
  if c₁.length ≠ c₂.length then .error "Unequal Lengths" else .ok (lex c₁ c₂)

/-- `fromPPats`. -/
def fromPPats (pps : List PPat) : CB :=
  pps.map fun
    | .ndWildPat => .zero
    | _ => .one

/-- `allOnes`. -/
def allOnes (n : Nat) : CB := List.replicate n .one

/-- The subset relation, for bit strings of one length. -/
def le (c₁ c₂ : CB) : Bool := (c₁.zip c₂).all fun p => p.1 = .zero || p.2 = .one

theorem lex_eq : ∀ {c₁ c₂ : CB}, lex c₁ c₂ = .eq ↔ c₁ = c₂
  | [], [] => by simp [lex]
  | [], _ :: _ => by simp [lex]
  | _ :: _, [] => by simp [lex]
  | .zero :: _, .one :: _ => by simp [lex]
  | .one :: _, .zero :: _ => by simp [lex]
  | .zero :: c₁, .zero :: c₂ => by simp [lex, @lex_eq c₁ c₂]
  | .one :: c₁, .one :: c₂ => by simp [lex, @lex_eq c₁ c₂]

theorem compare_ok {c₁ c₂ : CB} (h : c₁.length = c₂.length) : compare c₁ c₂ = .ok (lex c₁ c₂) := by
  simp [compare, h]

theorem length_of_compare {c₁ c₂ : CB} {o : Ordering} (h : compare c₁ c₂ = .ok o) : c₁.length = c₂.length := by
  unfold compare at h
  split at h
  · cases h
  · rename_i hl
    exact not_not.1 hl

theorem sub_ok : ∀ {c₁ c₂ : CB}, c₁.length = c₂.length → sub c₁ c₂ = .ok (le c₁ c₂)
  | [], [], _ => rfl
  | .one :: _, .zero :: _, _ => by simp [sub, le]
  | .one :: c₁, .one :: c₂, h => by
    rw [sub, sub_ok (by simpa using h)]
    simp [le]
  | .zero :: c₁, _ :: c₂, h => by
    rw [sub, sub_ok (by simpa using h)]
    simp [le]

theorem eq_ok : ∀ {c₁ c₂ : CB}, c₁.length = c₂.length → eq c₁ c₂ = .ok (decide (c₁ = c₂))
  | [], [], _ => rfl
  | b :: c₁, c :: c₂, h => by
    rw [eq, eq_ok (by simpa using h)]
    by_cases hb : b = c <;> simp [hb]

end CB

/-- A map from bit strings. -/
abbrev CBM (α : Type) := List (CB × α)

namespace CBM

variable {α : Type}

/-- `listKeys`. -/
def keys (m : CBM α) : List CB := m.map (·.1)

/-- `inDomain`. -/
def inDomain : CBM α → CB → Except String Bool
  | [], _ => .ok false
  | (c', _) :: m, c => do
    match ← CB.compare c c' with
    | .eq => return true
    | _ => inDomain m c

/-- `insert`. -/
def insert : CBM α → CB → α → Except String (CBM α)
  | [], c, v => .ok [(c, v)]
  | (c', v') :: m, c, v => do
    match ← CB.compare c c' with
    | .lt => return (c, v) :: (c', v') :: m
    | .eq => return (c, v) :: m
    | .gt => return (c', v') :: (← insert m c v)

/-- `remove`. -/
def remove : CBM α → CB → Except String (CBM α × α)
  | [], _ => .error "NotFound"
  | (c', v') :: m, c => do
    match ← CB.compare c c' with
    | .eq => return (m, v')
    | _ =>
      let (m', v) ← remove m c
      return ((c', v') :: m', v)

@[simp] theorem keys_nil : keys ([] : CBM α) = [] := rfl

@[simp] theorem keys_cons (c : CB) (v : α) (m : CBM α) : keys ((c, v) :: m) = c :: keys m := rfl

/-- Every key has the length `n`. -/
def Uniform (n : Nat) (m : CBM α) : Prop := ∀ c ∈ keys m, c.length = n

theorem Uniform.tail {n : Nat} {c : CB} {v : α} {m : CBM α} (h : Uniform n ((c, v) :: m)) : Uniform n m :=
  fun d hd => h d (List.mem_cons_of_mem _ hd)

theorem Uniform.head {n : Nat} {c : CB} {v : α} {m : CBM α} (h : Uniform n ((c, v) :: m)) : c.length = n :=
  h c List.mem_cons_self

theorem inDomain_ok {n : Nat} : ∀ {m : CBM α} {c : CB}, Uniform n m → c.length = n →
    inDomain m c = .ok (decide (c ∈ keys m))
  | [], _, _, _ => by simp [inDomain]
  | (c', v') :: m, c, hm, hc => by
    have ih : inDomain m c = .ok (decide (c ∈ keys m)) := inDomain_ok hm.tail hc
    unfold inDomain
    rw [CB.compare_ok (hc.trans hm.head.symm)]
    by_cases he : c = c'
    · have hs : CB.lex c' c' = .eq := CB.lex_eq.2 rfl
      simp [he, hs, bind, Except.bind, pure, Except.pure]
    simp [CB.lex_eq, he, bind, Except.bind, ih]

/-- Looking for a key in a map that is not empty fails unless the lengths agree. -/
theorem length_of_inDomain {n : Nat} : ∀ {m : CBM α} {c : CB} {b : Bool}, Uniform n m → m ≠ [] →
    inDomain m c = .ok b → c.length = n
  | [], _, _, _, h, _ => absurd rfl h
  | (c', v') :: m, c, b, hm, _, h => by
    unfold inDomain at h
    cases hc : CB.compare c c' with
    | error e => simp [hc, bind, Except.bind] at h
    | ok o => rw [CB.length_of_compare hc, hm.head]

theorem insert_perm {n : Nat} : ∀ {m : CBM α} {c : CB} (v : α), Uniform n m → c.length = n → c ∉ keys m →
    ∃ m', insert m c v = .ok m' ∧ m'.Perm ((c, v) :: m)
  | [], c, v, _, _, _ => ⟨_, rfl, .refl _⟩
  | (c', v') :: m, c, v, hm, hc, hn => by
    have hne : c ≠ c' := fun h => hn (by simp [h])
    unfold insert
    rw [CB.compare_ok (hc.trans hm.head.symm)]
    cases h : CB.lex c c' with
    | eq => exact absurd (CB.lex_eq.1 h) hne
    | lt => exact ⟨_, rfl, .refl _⟩
    | gt =>
      obtain ⟨m', hm', hp⟩ := insert_perm v hm.tail hc fun hd => hn (List.mem_cons_of_mem _ hd)
      refine ⟨(c', v') :: m', by simp [bind, Except.bind, hm', pure, Except.pure], ?_⟩
      exact (hp.cons _).trans (List.Perm.swap _ _ _)

theorem remove_perm {n : Nat} : ∀ {m : CBM α} {c : CB}, Uniform n m → c.length = n → c ∈ keys m →
    ∃ m' v, remove m c = .ok (m', v) ∧ m.Perm ((c, v) :: m')
  | (c', v') :: m, c, hm, hc, hin => by
    unfold remove
    rw [CB.compare_ok (hc.trans hm.head.symm)]
    by_cases he : c = c'
    · rw [CB.lex_eq.2 he]
      exact ⟨m, v', rfl, by rw [he]⟩
    · have hin' : c ∈ keys m := by
        rcases List.mem_cons.1 hin with h | h
        · exact absurd h he
        · exact h
      obtain ⟨m', v, hr, hp⟩ := remove_perm hm.tail hc hin'
      have hp' : ((c', v') :: m).Perm ((c, v) :: (c', v') :: m') := (hp.cons _).trans (List.Perm.swap _ _ _)
      cases h : CB.lex c c' with
      | eq => exact absurd (CB.lex_eq.1 h) he
      | lt | gt => exact ⟨(c', v') :: m', v, by simp [bind, Except.bind, hr, pure, Except.pure], hp'⟩

end CBM

end Manticore.AstOpt
