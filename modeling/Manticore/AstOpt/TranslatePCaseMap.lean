/-
  Manticore.AstOpt.TranslatePCaseMap — the map of a parallel case: its keys are the bit strings of
  the rules, and each holds the rules whose bits it has, in the order of `armsAt`
  (`buildMap_ok`). A map is built only if every rule has a pattern for each computation
  (`length_of_buildMap`).
-/

import Manticore.AstOpt.TranslatePCase

namespace Manticore.AstOpt.TranslatePCase

open Ast
open List (mem_cons_self mem_cons_of_mem mem_singleton mem_cons nodup_cons not_mem_nil map_map)
open CBM (keys)

variable {E : Type}

/-- The matches of a key with those of one more rule. -/
def addRule (pm : PMatch E) (ms : List (Match E)) : List (Match E) :=
  if belongsLast pm then ms ++ [matchOf pm] else matchOf pm :: ms

/-- The matches at the key `cb`. -/
def armsAt (n : Nat) (cb : CB) (pms : List (PMatch E)) : List (Match E) :=
  pms.foldl (fun ms pm => if CB.le (cbOf n pm) cb then addRule pm ms else ms) []

theorem armsAt_concat (n : Nat) (cb : CB) (pms : List (PMatch E)) (pm : PMatch E) :
    armsAt n cb (pms ++ [pm]) =
      if CB.le (cbOf n pm) cb then addRule pm (armsAt n cb pms) else armsAt n cb pms := by
  unfold armsAt
  rw [List.foldl_append]
  rfl

/-- The map with the keys `cbs` and the matches of `pms`. -/
structure Assembled (n : Nat) (cbs : List CB) (pms : List (PMatch E)) (m : MatchMap E) : Prop where
  uniform : CBM.Uniform n m
  nodup : (keys m).Nodup
  mem : ∀ c, c ∈ keys m ↔ c ∈ cbs
  arms : ∀ p ∈ m, p.2 = armsAt n p.1 pms

/-! ## The keys -/

theorem initMap_ok {n : Nat} : ∀ {cs cbs : List CB} {m : MatchMap E}, Assembled n cbs [] m →
    (∀ c ∈ cs, c.length = n) → ∃ m', initMap cs m = .ok m' ∧ Assembled n (cbs ++ cs) [] m'
  | [], cbs, m, hm, _ => ⟨m, rfl, by rwa [List.append_nil]⟩
  | c :: cs, cbs, m, hm, hcs => by
    have hc : c.length = n := hcs c mem_cons_self
    have hcs' : ∀ d ∈ cs, d.length = n := fun d hd => hcs d (mem_cons_of_mem _ hd)
    unfold initMap
    rw [CBM.inDomain_ok hm.uniform hc]
    by_cases hin : c ∈ keys m
    · have hm' : Assembled n (cbs ++ [c]) [] m := by
        refine ⟨hm.uniform, hm.nodup, fun d => ?_, hm.arms⟩
        rw [List.mem_append, mem_singleton, hm.mem]
        constructor
        · exact Or.inl
        · intro h
          rcases h with h | h
          · exact h
          · rw [h]
            exact (hm.mem c).1 hin
      obtain ⟨m', h, hok⟩ := initMap_ok hm' hcs'
      refine ⟨m', ?_, by simpa using hok⟩
      simpa [bind, Except.bind, hin] using h
    · obtain ⟨m₁, h₁, hp⟩ := CBM.insert_perm (α := List (Match E)) [] hm.uniform hc hin
      have hkeys : (keys m₁).Perm (c :: keys m) := hp.map _
      have hm' : Assembled n (cbs ++ [c]) [] m₁ := by
        refine ⟨fun d hd => ?_, ?_, fun d => ?_, fun p hp' => ?_⟩
        · rcases mem_cons.1 (hkeys.mem_iff.1 hd) with h | h
          · rw [h]
            exact hc
          · exact hm.uniform d h
        · rw [hkeys.nodup_iff]
          exact nodup_cons.2 ⟨hin, hm.nodup⟩
        · rw [hkeys.mem_iff, mem_cons, List.mem_append, mem_singleton, hm.mem, or_comm]
        · rcases mem_cons.1 (hp.mem_iff.1 hp') with h | h
          · rw [h]
            rfl
          · exact hm.arms p h
      obtain ⟨m', h, hok⟩ := initMap_ok hm' hcs'
      refine ⟨m', ?_, by simpa using hok⟩
      simpa [bind, Except.bind, hin, h₁] using h

theorem length_of_initMap {k : Nat} : ∀ {cs : List CB} {m m' : MatchMap E}, CBM.Uniform k m → m ≠ [] →
    initMap cs m = .ok m' → ∀ c ∈ cs, c.length = k
  | [], _, _, _, _, _ => fun c hc => absurd hc not_mem_nil
  | c :: cs, m, m', hm, hne, h => by
    unfold initMap at h
    cases hd : CBM.inDomain m c with
    | error e => simp [hd, bind, Except.bind] at h
    | ok b =>
      have hc : c.length = k := CBM.length_of_inDomain hm hne hd
      rw [CBM.inDomain_ok hm hc] at h
      by_cases hin : c ∈ keys m
      · simp only [bind, Except.bind, hin, decide_true, if_true] at h
        intro d hd
        rcases mem_cons.1 hd with hd | hd
        · rw [hd]
          exact hc
        · exact length_of_initMap hm hne h d hd
      · obtain ⟨m₁, h₁, hp⟩ := CBM.insert_perm (α := List (Match E)) [] hm hc hin
        simp only [bind, Except.bind, hin, decide_false, h₁] at h
        have hm₁ : CBM.Uniform k m₁ := fun d hd => by
          rcases mem_cons.1 ((hp.map _).mem_iff.1 hd) with h' | h'
          · rw [h']
            exact hc
          · exact hm d h'
        have hne₁ : m₁ ≠ [] := fun h' => by
          rw [h'] at hp
          exact absurd hp.symm.eq_nil (List.cons_ne_nil _ _)
        intro d hd
        rcases mem_cons.1 hd with hd | hd
        · rw [hd]
          exact hc
        · exact length_of_initMap hm₁ hne₁ h d hd

/-! ## The matches -/

/-- The map with one more rule at the keys of `P`. -/
def addWhere (P : CB → Bool) (pm : PMatch E) (m : MatchMap E) : MatchMap E :=
  m.map fun p => if P p.1 then (p.1, addRule pm p.2) else p

@[simp] theorem keys_addWhere (P : CB → Bool) (pm : PMatch E) (m : MatchMap E) :
    keys (addWhere P pm m) = keys m := by
  unfold keys addWhere
  rw [map_map]
  refine List.map_congr_left fun p _ => ?_
  by_cases h : P p.1 <;> simp [h]

variable {n : Nat} {P : CB → Bool} {pm : PMatch E} {m : MatchMap E} {pms : List (PMatch E)}

/-- Nothing changes where no key is in `P`. -/
theorem addWhere_of_not (h : ∀ c ∈ keys m, P c = false) : addWhere P pm m = m := by
  unfold addWhere
  conv_rhs => rw [← List.map_id m]
  refine List.map_congr_left fun p hp => ?_
  rw [h p.1 (List.mem_map_of_mem hp)]
  rfl

theorem addWhere_perm   {m' : MatchMap E} (h : m.Perm m') :
    (addWhere P pm m).Perm (addWhere P pm m') := h.map _

theorem addWhere_addWhere {Q R : CB → Bool} (hPQ : ∀ c, P c = true → Q c = false) (hR : ∀ c, R c = (P c || Q c)) :
    addWhere Q pm (addWhere P pm m) = addWhere R pm m := by
  unfold addWhere
  rw [map_map]
  grind [List.map_congr_left]

theorem mergeOne_ok {c : CB} (pm : PMatch E) (hu : CBM.Uniform n m) (hn : (keys m).Nodup) (hc : c ∈ keys m)
    : ∃ m', mergeOne m c pm = .ok m' ∧ m'.Perm (addWhere (· = c) pm m) := by
  obtain ⟨m₁, ms, hr, hp⟩ := CBM.remove_perm hu (hu c hc) hc
  have hkeys : (keys m).Perm (c :: keys m₁) := hp.map _
  have hnin : c ∉ keys m₁ := (nodup_cons.1 (hkeys.nodup_iff.1 hn)).1
  have hu₁ : CBM.Uniform n m₁ := fun d hd => hu d (hkeys.mem_iff.2 (mem_cons_of_mem _ hd))
  obtain ⟨m', hi, hp'⟩ := CBM.insert_perm (addRule pm ms) hu₁ (hu c hc) hnin
  refine ⟨m', ?_, hp'.trans ?_⟩
  · unfold mergeOne
    simpa [bind, Except.bind, hr, addRule] using hi
  · have hrest : addWhere (· = c) pm m₁ = m₁ := by
      grind [addWhere_of_not]
    have hcons : addWhere (· = c) pm ((c, ms) :: m₁) = (c, addRule pm ms) :: addWhere (· = c) pm m₁ := by
      simp [addWhere]
    rw [← hrest, ← hcons]
    exact (hp.map _).symm

/-- What `mergeKeys` does at one key. -/
theorem mergeOne_if_ok {n : Nat} {cb c : CB} {m : MatchMap E} (pm : PMatch E) (hu : CBM.Uniform n m)
    (hn : (keys m).Nodup) (hc : c ∈ keys m) :
    ∃ m', (if CB.le cb c then mergeOne m c pm else pure m) = .ok m' ∧
      m'.Perm (addWhere (fun d => d = c && CB.le cb d) pm m) := by
  by_cases hle : CB.le cb c = true
  · obtain ⟨m', h, hp⟩ := mergeOne_ok pm hu hn hc
    grind
  · refine ⟨m, by rw [if_neg hle]; rfl, ?_⟩
    rw [addWhere_of_not]
    intro d _
    by_cases hd : d = c
    · simp [hd, hle]
    · simp [hd]

theorem mergeKeys_ok  {cb : CB} (pm : PMatch E) (hcb : cb.length = n) : ∀ {ks : List CB} {m : MatchMap E},
    CBM.Uniform n m → (keys m).Nodup → ks.Nodup → (∀ c ∈ ks, c ∈ keys m) →
    ∃ m', mergeKeys cb pm ks m = .ok m' ∧ m'.Perm (addWhere (fun d => decide (d ∈ ks) && CB.le cb d) pm m)
  | [], m, _, _, _, _ => ⟨m, rfl, by rw [addWhere_of_not]; simp⟩
  | c :: ks, m, hu, hn, hks, hin => by
    obtain ⟨hc, hks'⟩ := nodup_cons.1 hks
    have hcm : c ∈ keys m := hin c mem_cons_self
    obtain ⟨m₁, h₁, hp₁⟩ := @mergeOne_if_ok _ _ cb _ _ pm hu hn hcm
    have hkeys : (keys m₁).Perm (keys m) := by
      have h := hp₁.map (·.1)
      rwa [show List.map (·.1) (addWhere _ pm m) = _ from keys_addWhere _ _ _] at h
    obtain ⟨m', h', hp'⟩ := mergeKeys_ok pm hcb (fun d hd => hu d (hkeys.mem_iff.1 hd))
      (hkeys.nodup_iff.2 hn) hks' (fun d hd => hkeys.mem_iff.2 (hin d (mem_cons_of_mem _ hd)))
    refine ⟨m', ?_, hp'.trans ((addWhere_perm hp₁).trans (List.Perm.of_eq ?_))⟩
    · unfold mergeKeys
      rw [CB.sub_ok (hcb.trans (hu c hcm).symm)]
      by_cases hle : CB.le cb c = true
      · rw [if_pos hle] at h₁
        simpa [bind, Except.bind, hle, h₁] using h'
      · rw [if_neg hle] at h₁
        simpa [bind, Except.bind, hle, h₁] using h'
    · refine addWhere_addWhere (fun d hd => ?_) fun d => ?_
      · have hdc : d = c := by simpa using (Bool.and_eq_true_iff.1 hd).1
        simp [hdc, hc]
      · by_cases hdc : d = c
        · simp [hdc, hc]
        · simp [hdc]

theorem merge_ok {cbs : List CB} (hm : Assembled n cbs pms m) (hpm : (cbOf n pm).length = n) :
    ∃ m', merge n pm m = .ok m' ∧ Assembled n cbs (pms ++ [pm]) m' := by
  obtain ⟨m', h, hp⟩ := mergeKeys_ok pm hpm hm.uniform hm.nodup hm.nodup fun _ hc => hc
  have hkeys : (keys m').Perm (keys m) := by
    have h := hp.map (·.1)
    rwa [show List.map (·.1) (addWhere _ pm m) = _ from keys_addWhere _ _ _] at h
  refine ⟨m', h, fun d hd => hm.uniform d (hkeys.mem_iff.1 hd), hkeys.nodup_iff.2 hm.nodup,
    fun c => by rw [hkeys.mem_iff, hm.mem], fun p hp' => ?_⟩
  obtain ⟨q, hq, hqp⟩ := List.mem_map.1 (hp.mem_iff.1 hp')
  have hqk : q.1 ∈ keys m := List.mem_map_of_mem hq
  rw [armsAt_concat]
  by_cases hle : CB.le (cbOf n pm) q.1 = true
  · rw [if_pos (by simp [hqk, hle])] at hqp
    rw [← hqp, if_pos hle, hm.arms q hq]
  · rw [if_neg (by simp [hle])] at hqp
    rw [← hqp, if_neg hle, hm.arms q hq]

theorem mergeAll_ok  {cbs : List CB} : ∀ {pms done : List (PMatch E)} {m : MatchMap E},
    Assembled n cbs done m → (∀ pm ∈ pms, (cbOf n pm).length = n) →
    ∃ m', mergeAll n pms m = .ok m' ∧ Assembled n cbs (done ++ pms) m'
  | [], done, m, hm, _ => ⟨m, rfl, by rwa [List.append_nil]⟩
  | pm :: pms, done, m, hm, hpms => by
    obtain ⟨m₁, h₁, hm₁⟩ := merge_ok hm (hpms pm mem_cons_self)
    obtain ⟨m', h', hm'⟩ := mergeAll_ok hm₁ fun q hq => hpms q (mem_cons_of_mem _ hq)
    refine ⟨m', ?_, by simpa using hm'⟩
    unfold mergeAll
    simpa [bind, Except.bind, h₁] using h'

theorem buildMap_ok (hpms : ∀ pm ∈ pms, (cbOf n pm).length = n) :
    ∃ m, buildMap n pms = .ok m ∧ Assembled n (pms.map (cbOf n)) pms m := by
  have hnil : Assembled n [] [] ([] : MatchMap E) :=
    ⟨fun _ h => absurd h not_mem_nil, List.nodup_nil, fun _ => Iff.rfl, fun _ h => absurd h not_mem_nil⟩
  obtain ⟨m₀, h₀, hm₀⟩ := @initMap_ok _ _ (pms.map (cbOf n)) _ _ hnil (by simpa using hpms)
  obtain ⟨m, h, hm⟩ := mergeAll_ok hm₀ hpms
  refine ⟨m, ?_, by simpa using hm⟩
  unfold buildMap
  simpa [bind, Except.bind, h₀] using h

/-- All bit strings of a map that was built have one length. -/
theorem length_of_buildMap (h : buildMap n pms = .ok m) {p q : PMatch E} (hp : p ∈ pms) (hq : q ∈ pms) :
    (cbOf n p).length = (cbOf n q).length := by
  unfold buildMap at h
  cases hi : initMap (E := E) (pms.map (cbOf n)) [] with
  | error e => simp [hi, bind, Except.bind] at h
  | ok m₀ =>
    have hall : ∀ r ∈ pms, (cbOf n r).length = ((pms.map (cbOf n)).headD []).length := by
      cases pms with
      | nil => exact fun r hr => absurd hr not_mem_nil
      | cons r₀ pms =>
        have hi' : initMap (pms.map (cbOf n)) [(cbOf n r₀, ([] : List (Match E)))] = .ok m₀ := hi
        have hrest := @length_of_initMap _ (cbOf n r₀).length _ _ _ (by
          intro c hc
          rw [CBM.keys_cons, CBM.keys_nil, mem_singleton] at hc
          rw [hc]) (List.cons_ne_nil _ _) hi'
        simp_all
    rw [hall p hp, hall q hq]

end Manticore.AstOpt.TranslatePCase
