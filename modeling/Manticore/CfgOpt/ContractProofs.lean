/-
  Manticore.CfgOpt.ContractProofs — contraction returns, on code that a further round leaves
  alone, exactly when empty blocks form no cycle and no exit is a `HeapCheckN`.

  Without a cycle, a chain gets closer to its end with each link (`rankOf_lt`). In a cycle
  of empty blocks each block is used by the one before, so none is deleted before the pass
  comes to it (`Ahead.used`), and then the chain has no end: a round that returns has met no
  cycle (`round_ok`).
-/

import Manticore.CfgOpt.ContractRounds

namespace Manticore.CfgOpt.Contract

open Manticore.Cfg
open Relation (TransGen)
open List (mem_singleton mem_flatMap mem_cons_self mem_cons_of_mem count_append not_mem_nil mem_cons)

/-! ## Without cycles -/

open Classical in
/-- How many labels a chain of empty blocks can still come to. -/
noncomputable def rankOf (code : List Func) (l : Label) : Nat :=
  (((blocksOf code).map Block.lab).toFinset.filter (TransGen (JumpsTo code) l)).card

theorem rankOf_lt {code : List Func} (hacyc : ∀ l, ¬ TransGen (JumpsTo code) l l) {l l' : Label}
    (h : JumpsTo code l l') (hl' : l' ∈ (blocksOf code).map Block.lab) : rankOf code l' < rankOf code l := by
  classical
  refine Finset.card_lt_card ((Finset.ssubset_iff_of_subset fun x hx => ?_).2 ⟨l', ?_, ?_⟩)
  · grind [TransGen.head]
  · exact Finset.mem_filter.2 ⟨List.mem_toFinset.2 hl', TransGen.single h⟩
  · intro hmem
    exact hacyc l' (Finset.mem_filter.1 hmem).2

section

variable {kindOf : Label → LabelKind} {m : Module} {st : St}

theorem WF.table (hwf : WF kindOf st m) (hacyc : ∀ l, ¬ TransGen (JumpsTo m.code) l l) :
    Table kindOf (blocksOf m.code) (rankOf m.code) where
  blocks := hwf.blocks
  jumps := hwf.jumps
  falls := by
    intro b hb l hp
    obtain ⟨hbody, args, hexit⟩ := hp
    obtain ⟨b', hb', hl, -⟩ := hwf.jumps b hb (l, args) (by rw [hexit]; exact mem_singleton.2 rfl)
    exact rankOf_lt hacyc ⟨b, hb, rfl, hbody, args, hexit⟩ (List.mem_map.2 ⟨b', hb', hl⟩)

theorem WF.funcOK (hwf : WF kindOf st m) (hexits : ∀ b ∈ blocksOf m.code, Plain b.exit) :
    ∀ f ∈ m.code, FuncOK kindOf (blocksOf m.code) f := by
  intro f hf
  have hb : ∀ b ∈ f.start :: f.body, BlockOK (blocksOf m.code) b := by
    intro b hb
    have hmem : b ∈ blocksOf m.code := mem_flatMap.2 ⟨f, hf, hb⟩
    exact ⟨hwf.vars b hmem, hwf.jumps b hmem, hexits b hmem⟩
  exact ⟨hwf.funcs f hf, hb _ mem_cons_self, fun b h => hb b (mem_cons_of_mem _ h)⟩

theorem settles_of_contractible (hwf : WF kindOf st m) (h : Contractible m) : Settles kindOf st m := by
  obtain ⟨code, st', ⟨N, hN⟩, hfix⟩ := loop_returns (hwf.table h.acyclic) (hwf.funcOK h.exits) st
  refine ⟨{ m with code := code }, st', ⟨N, fun n hn => ?_⟩, ⟨1, fun n hn => ?_⟩⟩
  · show transform kindOf n m st = _
    rw [transform_eq, bind_eq (hN n n hn hn)]
    rfl
  · obtain ⟨k, rfl⟩ : ∃ k, n = k + 1 := ⟨n - 1, by omega⟩
    exact hfix k

/-! ## In a cycle -/

/-- The label is on a cycle of empty blocks. -/
def OnCycle (m : Module) (l : Label) : Prop := TransGen (JumpsTo m.code) l l

variable {b : Block} {l : Label} {n : Nat} {env : Env} {s : St} {exit : Transfer} {s' : St}

/-- A block on a cycle only jumps on, along the cycle. -/
theorem OnCycle.next (hwf : WF kindOf st m) (hb : b ∈ blocksOf m.code) (h : OnCycle m b.lab) :
    ∃ l args, b.body = [] ∧ b.exit = .goto (l, args) ∧ OnCycle m l := by
  obtain ⟨l, hstep, hrest⟩ := Relation.TransGen.head'_iff.1 h
  obtain ⟨b', hb', hl, hbody, args, hexit⟩ := hstep
  have hbb : b' = b := by
    have h₁ := hwf.blocks b hb
    have h₂ := hwf.blocks b' hb'
    rw [hl, h₁] at h₂
    cases h₂
    rfl
  subst hbb
  exact ⟨l, args, hbody, hexit, Relation.TransGen.tail' hrest ⟨b', hb, rfl, hbody, args, hexit⟩⟩

/-- A label on a cycle is used by a block on it. -/
theorem OnCycle.prev (h : OnCycle m l) : ∃ b ∈ blocksOf m.code, OnCycle m b.lab ∧ l ∈ labelsIn b := by
  obtain ⟨l', hrest, hstep⟩ := Relation.TransGen.tail'_iff.1 h
  have hcycle : OnCycle m l' := Relation.TransGen.head' hstep hrest
  obtain ⟨b, hb, hl, hbody, args, hexit⟩ := hstep
  refine ⟨b, hb, hl ▸ hcycle, ?_⟩
  simp [labelsIn, hbody, hexit, jumps]

/-- The counts of the labels on cycles have gone down by these uses at most. -/
def Lowers (m : Module) (ls : List Label) (st st' : St) : Prop :=
  ∀ l, OnCycle m l → st.labCount l ≤ st'.labCount l + ls.count l

theorem Lowers.refl (m : Module) (st : St) : Lowers m [] st st := fun l _ => by simp

theorem Lowers.of_eq {st st' : St} (ls : List Label) (h : st'.labCount = st.labCount) : Lowers m ls st st' := by
  intro l _
  rw [h]
  omega

theorem Lowers.trans {ls ls' : List Label} {st st' st'' : St} (h : Lowers m ls st st') (g : Lowers m ls' st' st'') :
    Lowers m (ls ++ ls') st st'' := by
  intro l hl
  have h₁ := h l hl
  have h₂ := g l hl
  rw [count_append]
  omega

theorem chainElim_ok (hwf : WF kindOf st m) (n : Nat) : ∀ {jmp : Jump} {s : St} {r : Jump × St},
    JumpOK (blocksOf m.code) jmp → chainElim kindOf n jmp s = .ok r → ¬ OnCycle m jmp.1 ∧ Lowers m [] s r.2 := by
  induction n with
  | zero => exact fun _ h => nomatch h
  | succ n ih =>
    intro jmp s r hjmp h
    obtain ⟨lab, args⟩ := jmp
    obtain ⟨b, hb, hlab, hargs⟩ := hjmp
    have hlab : b.lab = lab := hlab
    have hkind : kindOf lab = .block b := hlab ▸ hwf.blocks b hb
    by_cases hp : ∃ l, Passes b l
    · obtain ⟨labOut, hbody, argsOut, hexit⟩ := hp
      obtain ⟨e, he⟩ := chainElim_passes hkind hbody hexit hargs
      rw [he] at h
      have hout : JumpOK (blocksOf m.code) (labOut, applySubst' e argsOut) := by
        obtain ⟨b', hb', hl, ha⟩ := hwf.jumps b hb (labOut, argsOut) (by rw [hexit]; exact mem_singleton.2 rfl)
        exact ⟨b', hb', hl, ha.trans (List.length_map ..).symm⟩
      obtain ⟨hnot, hlow⟩ := ih hout h
      have hlabNot : ¬ OnCycle m lab := by
        grind [OnCycle.next]
      refine ⟨hlabNot, fun l hl => ?_⟩
      have h₁ := hlow l hl
      have hl₁ : l ≠ lab := fun h => hlabNot (h ▸ hl)
      have hl₂ : l ≠ labOut := fun h => hnot (h ▸ hl)
      simpa only [link, Function.update_of_ne hl₁, Function.update_of_ne hl₂] using h₁
    · have hends : Ends kindOf lab := ⟨b, hkind, fun l hl => hp ⟨l, hl⟩⟩
      rw [chainElim_ends hends] at h
      cases h
      refine ⟨fun hc => ?_, .refl m s⟩
      obtain ⟨l, args', hbody, hexit, -⟩ := OnCycle.next hwf hb (hlab ▸ hc)
      exact hp ⟨l, hbody, args', hexit⟩

/-- No jump is along a cycle. -/
def OffCycle (m : Module) (jmps : List Jump) : Prop := ∀ jmp ∈ jmps, ¬ OnCycle m jmp.1

theorem contractJump_ok (hwf : WF kindOf st m) {jmp : Jump} {r : Jump × St} (hjmp : JumpOK (blocksOf m.code) jmp)
    (h : contractJump kindOf n env jmp s = .ok r) : ¬ OnCycle m jmp.1 ∧ Lowers m [] s r.2 := by
  obtain ⟨b, hb, hl, ha⟩ := hjmp
  have hargs : JumpOK (blocksOf m.code) (jmp.1, applySubst' env jmp.2) := ⟨b, hb, hl, ha.trans (List.length_map ..).symm⟩
  have hchain := chainElim_ok hwf n hargs h
  exact hchain

theorem contractCases_ok (hwf : WF kindOf st m) {cases : List (Nat × Jump)} {r : List (Nat × Jump) × St}
    (hok : JumpsOK (blocksOf m.code) (cases.map (·.2))) (h : contractCases kindOf n env cases s = .ok r) :
    OffCycle m (cases.map (·.2)) ∧ Lowers m [] s r.2 := by
  induction cases generalizing s r with
  | nil =>
    cases h
    exact ⟨fun _ hj => absurd hj not_mem_nil, .refl m s⟩
  | cons c cases ih =>
    obtain ⟨jmp', s₁, h₁, h⟩ := bind_ok h
    obtain ⟨cases', s₂, h₂, h⟩ := bind_ok h
    cases h
    obtain ⟨hn₁, hl₁⟩ := contractJump_ok hwf (hok c.2 mem_cons_self) h₁
    obtain ⟨hn₂, hl₂⟩ := ih (fun j hj => hok j (mem_cons_of_mem _ hj)) h₂
    refine ⟨fun j hj => ?_, hl₁.trans hl₂⟩
    rcases mem_cons.1 hj with hj | hj
    · exact hj ▸ hn₁
    · exact hn₂ j hj

theorem contractDflt_ok (hwf : WF kindOf st m) {dflt : Option Jump} {r : Option Jump × St}
    (hok : JumpsOK (blocksOf m.code) dflt.toList) (h : contractDflt kindOf n env dflt s = .ok r) :
    OffCycle m dflt.toList ∧ Lowers m [] s r.2 := by
  cases dflt with
  | none =>
    cases h
    exact ⟨fun _ hj => absurd hj not_mem_nil, .refl m s⟩
  | some jmp =>
    obtain ⟨jmp', s₁, h₁, h⟩ := bind_ok h
    cases h
    obtain ⟨hn, hl⟩ := contractJump_ok hwf (hok jmp mem_cons_self) h₁
    exact ⟨fun j hj => mem_singleton.1 hj ▸ hn, hl⟩

/-- Where the exit is contracted, it is no `HeapCheckN` and leads to no cycle. -/
theorem contractExit_ok (hwf : WF kindOf st m) {r : Transfer × St} (hok : JumpsOK (blocksOf m.code) (jumps exit))
    (h : contractExit kindOf n env exit s = .ok r) : Plain exit ∧ OffCycle m (jumps exit) ∧ Lowers m [] s r.2 := by
  have one : ∀ {jmp : Jump} {r' : Jump × St}, JumpOK (blocksOf m.code) jmp →
      contractJump kindOf n env jmp s = .ok r' → OffCycle m [jmp] ∧ Lowers m [] s r'.2 := by
    intro jmp r' hj hr
    obtain ⟨hn, hl⟩ := contractJump_ok hwf hj hr
    exact ⟨fun j hj => mem_singleton.1 hj ▸ hn, hl⟩
  cases exit with
  | stdApply | stdThrow | apply =>
    cases h
    exact ⟨(by rintro _ _ _ _ ⟨⟩), fun _ hj => absurd hj not_mem_nil, .refl m s⟩
  | goto jmp | heapCheck _ _ jmp | allocCCall _ _ _ jmp =>
    obtain ⟨jmp', s₁, h₁, h⟩ := bind_ok h
    cases h
    exact ⟨(by rintro _ _ _ _ ⟨⟩), one (hok jmp mem_cons_self) h₁⟩
  | if_ c jmp₁ jmp₂ =>
    obtain ⟨jmp₁', s₁, h₁, h⟩ := bind_ok h
    obtain ⟨jmp₂', s₂, h₂, h⟩ := bind_ok h
    cases h
    obtain ⟨hn₁, hl₁⟩ := contractJump_ok hwf (hok jmp₁ (by simp [jumps])) h₁
    obtain ⟨hn₂, hl₂⟩ := contractJump_ok hwf (hok jmp₂ (by simp [jumps])) h₂
    refine ⟨(by rintro _ _ _ _ ⟨⟩), fun j hj => ?_, hl₁.trans hl₂⟩
    rcases mem_cons.1 hj with hj | hj
    · exact hj ▸ hn₁
    · exact mem_singleton.1 hj ▸ hn₂
  | switch x cases dflt =>
    obtain ⟨cases', s₁, h₁, h⟩ := bind_ok h
    obtain ⟨dflt', s₂, h₂, h⟩ := bind_ok h
    cases h
    obtain ⟨hn₁, hl₁⟩ := contractCases_ok hwf (fun j hj => hok j (List.mem_append_left _ hj)) h₁
    obtain ⟨hn₂, hl₂⟩ := contractDflt_ok hwf (fun j hj => hok j (List.mem_append_right _ hj)) h₂
    exact ⟨(by rintro _ _ _ _ ⟨⟩), fun j hj => (List.mem_append.1 hj).elim (hn₁ j) (hn₂ j), hl₁.trans hl₂⟩
  | heapCheckN hck x szb nogc => cases h

theorem contractExps_ok (hwf : WF kindOf st m) {es : List Exp}
    (hvars : ∀ xs ys, .var xs ys ∈ es → xs.length = ys.length) (hok : JumpsOK (blocksOf m.code) (jumps exit)) :
    ∀ {env : Env} {s : St} {r : (List Exp × Transfer) × St}, contractExps kindOf n env es exit s = .ok r → Plain
      exit ∧ OffCycle m (jumps exit) ∧ Lowers m (es.flatMap labelIn) s r.2 := by
  induction es with
  | nil =>
    intro env s r h
    obtain ⟨exit', s₁, h₁, h⟩ := bind_ok h
    cases h
    exact contractExit_ok hwf hok h₁
  | cons e es ih =>
    intro env s r h
    have hrest : ∀ xs ys, .var xs ys ∈ es → xs.length = ys.length :=
      fun xs ys hv => hvars xs ys (mem_cons_of_mem _ hv)
    by_cases he : ∃ xs ys, e = .var xs ys
    · obtain ⟨xs, ys, rfl⟩ := he
      have hlen := hvars xs ys mem_cons_self
      obtain ⟨u, hu⟩ := mergeAll_ok hlen { s with sum := s.sum + 1 }
      obtain ⟨env', henv⟩ := rename'_ok hlen env
      have htick : tick s = .ok ((), { s with sum := s.sum + 1 }) := rfl
      rw [contractExps, bind_eq htick, bind_eq hu, bind_eq (henv _)] at h
      obtain ⟨hp, hoff, hl⟩ := ih hrest h
      exact ⟨hp, hoff, fun l hc => hl l hc⟩
    · have he : ∀ xs ys, e ≠ .var xs ys := fun xs ys hv => he ⟨xs, ys, hv⟩
      rw [contractExps_cons _ _ he] at h
      obtain ⟨r₁, s₁, h₁, h⟩ := bind_ok h
      obtain ⟨hp, hoff, hlow⟩ := ih hrest h₁
      obtain ⟨r', s₂, hdone, hd⟩ := contractExp_done env he r₁ s₁
      rw [hdone] at h
      cases h
      refine ⟨hp, hoff, ?_⟩
      have hexp : Lowers m (labelIn e) s₁ s₂ := by
        cases hd with
        | kept e' _ _ _ => exact .of_eq _ rfl
        | removed s₂ _ _ hlab =>
          intro l _
          rw [hlab l]
          omega
      intro l hl
      have h₁ := hlow l hl
      have h₂ := hexp l hl
      rw [List.flatMap_cons, count_append]
      dsimp only at h₁ ⊢
      omega

/-! ### Blocks in a cycle are not passed -/

theorem app_lowers {α : Type} {f : α → Pass Unit} {g : α → List Label}
    (hf : ∀ x s s', f x s = .ok ((), s') → Lowers m (g x) s s') {xs : List α} (h : app f xs s = .ok ((), s')) :
    Lowers m (xs.flatMap g) s s' := by
  induction xs generalizing s with
  | nil =>
    cases h
    exact .refl m _
  | cons x xs ih =>
    obtain ⟨u, s₁, h₁, h⟩ := bind_ok h
    exact (hf x s s₁ h₁).trans (ih h)

theorem decLab_lowers (h : decLab l s = .ok ((), s')) : Lowers m [l] s s' := by
  cases h
  intro x _
  by_cases hx : x = l
  · subst hx
    simp
  · simp [Function.update_of_ne hx, Ne.symm hx]

theorem deleteExit_ok (h : deleteExit exit s = .ok ((), s')) :
    Plain exit ∧ Lowers m ((jumps exit).map (·.1)) s s' := by
  cases exit with
  | stdApply | stdThrow | apply =>
    cases h
    exact ⟨nofun, .refl m s⟩
  | goto | heapCheck | allocCCall => exact ⟨nofun, decLab_lowers h⟩
  | if_ c jmp₁ jmp₂ =>
    obtain ⟨u, s₁, h₁, h⟩ := bind_ok h
    have hl₁ : Lowers m [jmp₁.1] s s₁ := decLab_lowers h₁
    exact ⟨nofun, hl₁.trans (decLab_lowers h)⟩
  | switch x cases dflt =>
    obtain ⟨u, s₁, h₁, h⟩ := bind_ok h
    have hl₁ : Lowers m (cases.flatMap fun c => [c.2.1]) s s₁ := app_lowers (fun c s s' hc => decLab_lowers hc) h₁
    have hl₂ : Lowers m (dflt.toList.flatMap fun j => [j.1]) s₁ s' := app_lowers (fun j s s' hj => decLab_lowers hj) h
    refine ⟨nofun, ?_⟩
    have hl := hl₁.trans hl₂
    rw [← List.map_eq_flatMap, ← List.map_eq_flatMap] at hl
    rwa [jumps, List.map_append, List.map_map]
  | heapCheckN hck x szb nogc => cases h

theorem deleteBlock_ok (h : deleteBlock b s = .ok ((), s')) : Plain b.exit ∧ Lowers m (labelsIn b) s s' := by
  have hexp : ∀ e s s', deleteExp e s = .ok ((), s') → Lowers m (labelIn e) s s' := by
    intro e s s' he
    cases e with
    | label x l => exact decLab_lowers he
    | _ =>
      cases he
      exact .refl m s
  obtain ⟨u₁, s₁, h₁, h⟩ := bind_ok h
  obtain ⟨u₂, s₂, h₂, h⟩ := bind_ok h
  obtain ⟨hp, hl⟩ := deleteExit_ok (m := m) h
  have hstart : Lowers m [] s s₁ := by
    cases h₁
    exact .of_eq _ rfl
  exact ⟨hp, hstart.trans ((app_lowers hexp h₂).trans hl)⟩

theorem contractBlock_ok (hwf : WF kindOf st m) {b' : Block} (hb : b ∈ blocksOf m.code)
    (h : contractBlock kindOf n b s = .ok (b', s')) :
    ¬ OnCycle m b.lab ∧ Plain b.exit ∧ Lowers m (labelsIn b) s s' := by
  obtain ⟨r, s₁, h₁, h⟩ := bind_ok h
  cases h
  obtain ⟨hp, hoff, hl⟩ := contractExps_ok hwf (hwf.vars b hb) (hwf.jumps b hb) h₁
  refine ⟨fun hc => ?_, hp, ?_⟩
  · obtain ⟨l, args, -, hexit, hcl⟩ := OnCycle.next hwf hb hc
    exact hoff (l, args) (by rw [hexit]; exact mem_singleton.2 rfl) hcl
  · intro l hcl
    have h₂ : s.labCount l ≤ s'.labCount l + (b.body.flatMap labelIn).count l := hl l hcl
    rw [labelsIn, count_append]
    omega

/-- The blocks that are still to come have the cycles among them, and their uses are counted. -/
structure Ahead (m : Module) (rest : List Block) (s : St) : Prop where
  all : ∀ b ∈ blocksOf m.code, OnCycle m b.lab → b ∈ rest
  counted : ∀ l, OnCycle m l → ((rest.flatMap labelsIn).count l : Int) ≤ s.labCount l

/-- A block on a cycle that is still to come is used. -/
theorem Ahead.used {rest : List Block} (h : Ahead m rest s) (hl : OnCycle m l) : s.labCount l ≠ 0 := by
  obtain ⟨b, hb, hc, hmem⟩ := hl.prev
  have hpos : 0 < (rest.flatMap labelsIn).count l :=
    List.count_pos_iff.2 (mem_flatMap.2 ⟨b, h.all b hb hc, hmem⟩)
  have := h.counted l hl
  omega

theorem Ahead.tail {rest : List Block} (h : Ahead m (b :: rest) s) (hb : ¬ OnCycle m b.lab)
    (hl : Lowers m (labelsIn b) s s') : Ahead m rest s' := by
  refine ⟨fun b' hb' hc => ?_, fun l hcl => ?_⟩
  · rcases mem_cons.1 (h.all b' hb' hc) with h' | h'
    · exact absurd (h' ▸ hc) hb
    · exact h'
  · have h₁ := h.counted l hcl
    have h₂ := hl l hcl
    rw [List.flatMap_cons, count_append] at h₁
    omega

theorem contractBodyBlock_ok (hwf : WF kindOf st m) {o : Option Block} (hb : b ∈ blocksOf m.code)
    (hused : OnCycle m b.lab → s.labCount b.lab ≠ 0) (h : contractBodyBlock kindOf n b s = .ok (o, s')) :
    ¬ OnCycle m b.lab ∧ Plain b.exit ∧ Lowers m (labelsIn b) s s' := by
  rw [contractBodyBlock, bind_eq (show labCountOf b.lab s = .ok (s.labCount b.lab, s) from rfl)] at h
  by_cases h0 : s.labCount b.lab = 0
  · rw [h0] at h
    obtain ⟨u, s₁, h₁, h⟩ := bind_ok h
    cases h
    exact ⟨fun hc => hused hc h0, deleteBlock_ok h₁⟩
  · rw [beq_false_of_ne h0] at h
    obtain ⟨b', s₁, h₁, h⟩ := bind_ok h
    cases h
    exact contractBlock_ok hwf hb h₁

theorem bodyBlocks_ok (hwf : WF kindOf st m) {bs later ys : List Block} (hbs : ∀ b ∈ bs, b ∈ blocksOf m.code)
    (ha : Ahead m (bs ++ later) s) (h : mapPartial (contractBodyBlock kindOf n) bs s = .ok (ys, s')) :
    (∀ b ∈ bs, ¬ OnCycle m b.lab ∧ Plain b.exit) ∧ Ahead m later s' := by
  induction bs generalizing s ys with
  | nil =>
    cases h
    exact ⟨fun _ hb => absurd hb not_mem_nil, ha⟩
  | cons b bs ih =>
    obtain ⟨o, s₁, h₁, h⟩ := bind_ok h
    obtain ⟨ys', s₂, h₂, h⟩ := bind_ok h
    cases h
    obtain ⟨hn, hp, hl⟩ := contractBodyBlock_ok hwf (hbs b mem_cons_self) (fun hc => ha.used hc) h₁
    obtain ⟨hall, ha'⟩ := ih (fun b' hb' => hbs b' (mem_cons_of_mem _ hb')) (ha.tail hn hl) h₂
    simp_all

/-- A round that returns has met no cycle and no `HeapCheckN`. -/
theorem round_ok (hwf : WF kindOf st m) {fs code : List Func} (hfs : ∀ f ∈ fs, f ∈ m.code)
    (ha : Ahead m (blocksOf fs) s) (h : round kindOf n fs s = .ok (code, s')) :
    ∀ b ∈ blocksOf fs, ¬ OnCycle m b.lab ∧ Plain b.exit := by
  induction fs generalizing s s' code with
  | nil => exact fun b hb => absurd hb not_mem_nil
  | cons f fs ih =>
    have hf := hfs f mem_cons_self
    have hmem : ∀ b ∈ f.start :: f.body, b ∈ blocksOf m.code := fun b hb => mem_flatMap.2 ⟨f, hf, hb⟩
    obtain ⟨o, s₁, h₁, h⟩ := bind_ok h
    obtain ⟨code', s₂, h₂, h⟩ := bind_ok h
    rw [contractFunc_eq (hwf.funcs f hf)] at h₁
    obtain ⟨start, s₃, h₃, h₁⟩ := bind_ok h₁
    obtain ⟨body, s₄, h₄, h₁⟩ := bind_ok h₁
    cases h₁
    obtain ⟨hn, hp, hl⟩ := contractBlock_ok hwf (hmem f.start mem_cons_self) h₃
    have ha₁ : Ahead m (f.body ++ blocksOf fs) s₃ := Ahead.tail ha hn hl
    obtain ⟨hbody, ha₂⟩ := bodyBlocks_ok hwf (fun b hb => hmem b (mem_cons_of_mem _ hb)) ha₁ h₄
    have hrest := ih (fun f' hf' => hfs f' (mem_cons_of_mem _ hf')) ha₂ h₂
    grind [blocksOf]

theorem contractible_of_ok (hwf : WF kindOf st m) {r : Module × St} (h : transform kindOf n m st = .ok r) :
    Contractible m := by
  rw [transform_eq] at h
  obtain ⟨code, s₁, h₁, -⟩ := bind_ok h
  have hahead : Ahead m (blocksOf m.code) st := ⟨fun b hb _ => hb, fun l _ => hwf.counts l⟩
  have hround : ∃ code' s', round kindOf n m.code st = .ok (code', s') := by
    cases n with
    | zero => cases h₁
    | succ n =>
      obtain ⟨code', s', h', -⟩ := bind_ok h₁
      exact ⟨code', s', h'⟩
  obtain ⟨code', s', h'⟩ := hround
  have hall := round_ok hwf (fun _ hf => hf) hahead h'
  refine ⟨fun l hc => ?_, fun b hb => (hall b hb).2⟩
  obtain ⟨l', ⟨b, hb, hl, -⟩, -⟩ := Relation.TransGen.head'_iff.1 hc
  exact (hall b hb).1 (hl ▸ hc)

/-- Contraction returns, and a further round changes nothing, exactly when the empty blocks form no cycle and no
    exit is a `HeapCheckN`. -/
theorem settles_iff (hwf : WF kindOf st m) : Settles kindOf st m ↔ Contractible m := by
  constructor
  · intro h
    obtain ⟨m', st', ⟨N, hN⟩, -⟩ := h
    exact contractible_of_ok hwf (hN N (Nat.le_refl N))
  · exact settles_of_contractible hwf

end

/-! ### A block that jumps to another one or to itself -/

/-- A function that starts with a jump to the empty block `2`, which jumps to the block with the label. -/
def hop (lab : Label) : Module where
  externs := []
  code := [⟨⟨0⟩, .knownFunc ⟨0⟩, ⟨⟨1⟩, [⟨1⟩], [], .goto (⟨2⟩, [⟨1⟩])⟩,
    [⟨⟨2⟩, [⟨2⟩], [], .goto (lab, [⟨2⟩])⟩, ⟨⟨3⟩, [⟨3⟩], [], .apply ⟨3⟩ ⟨3⟩ []⟩]⟩]

def hopKinds (lab : Label) (l : Label) : LabelKind :=
  if l = ⟨0⟩ then .func
  else if l = ⟨1⟩ then .block ⟨⟨1⟩, [⟨1⟩], [], .goto (⟨2⟩, [⟨1⟩])⟩
  else if l = ⟨2⟩ then .block ⟨⟨2⟩, [⟨2⟩], [], .goto (lab, [⟨2⟩])⟩
  else .block ⟨⟨3⟩, [⟨3⟩], [], .apply ⟨3⟩ ⟨3⟩ []⟩

/-- The counts of a census. -/
def hopSt (lab : Label) : St where
  useCount := fun x => if x = ⟨3⟩ then 2 else if x = ⟨0⟩ then 0 else 1
  labCount := fun l => [⟨2⟩, lab].count l
  sum := 0

theorem blocksOf_hop (lab : Label) : blocksOf (hop lab).code = [⟨⟨1⟩, [⟨1⟩], [], .goto (⟨2⟩, [⟨1⟩])⟩,
    ⟨⟨2⟩, [⟨2⟩], [], .goto (lab, [⟨2⟩])⟩, ⟨⟨3⟩, [⟨3⟩], [], .apply ⟨3⟩ ⟨3⟩ []⟩] := rfl

theorem hop_wf {lab : Label} (h : lab = ⟨2⟩ ∨ lab = ⟨3⟩) : WF (hopKinds lab) (hopSt lab) (hop lab) := by
  refine ⟨?_, ?_, ?_, ?_, ?_⟩
  · intro b hb
    simp only [blocksOf_hop, mem_cons, not_mem_nil, or_false] at hb
    rcases hb with rfl | rfl | rfl <;> rfl
  · intro f hf
    rw [mem_singleton.1 hf]
    rfl
  · intro b hb jmp hjmp
    simp only [blocksOf_hop, mem_cons, not_mem_nil, or_false] at hb ⊢
    rcases hb with rfl | rfl | rfl
    · rw [mem_singleton.1 hjmp]
      exact ⟨_, .inr (.inl rfl), rfl, rfl⟩
    · rw [mem_singleton.1 hjmp]
      rcases h with rfl | rfl
      · exact ⟨_, .inr (.inl rfl), rfl, rfl⟩
      · exact ⟨_, .inr (.inr rfl), rfl, rfl⟩
    · cases hjmp
  · simp [blocksOf_hop]
  · intro l
    exact Int.le_refl _

theorem hop_settles : Settles (hopKinds ⟨3⟩) (hopSt ⟨3⟩) (hop ⟨3⟩) := by
  refine (settles_iff (hop_wf (.inr rfl))).2 ⟨fun l hc => ?_, fun b hb => ?_⟩
  · -- every jump is to a later label
    have hlt : ∀ l', TransGen (JumpsTo (hop ⟨3⟩).code) l l' → l.stamp < l'.stamp := by
      have hstep : ∀ l l', JumpsTo (hop ⟨3⟩).code l l' → l.stamp < l'.stamp := by
        intro l l' hj
        obtain ⟨b, hb, rfl, -, args, hexit⟩ := hj
        simp only [blocksOf_hop, mem_cons, not_mem_nil, or_false] at hb
        rcases hb with rfl | rfl | rfl <;> cases hexit <;> decide
      intro l' h
      induction h with
      | single h => exact hstep _ _ h
      | tail _ h ih => exact ih.trans (hstep _ _ h)
    exact Nat.lt_irrefl _ (hlt l hc)
  · simp only [blocksOf_hop, mem_cons, not_mem_nil, or_false] at hb
    rcases hb with rfl | rfl | rfl <;> rintro _ _ _ _ ⟨⟩

/-- The block that jumps to itself keeps contraction busy on any amount of fuel. -/
theorem spin_never_returns : WF (hopKinds ⟨2⟩) (hopSt ⟨2⟩) (hop ⟨2⟩) ∧
    ∀ n, transform (hopKinds ⟨2⟩) n (hop ⟨2⟩) (hopSt ⟨2⟩) = .error .timeout := by
  have hspin : ∀ n x st, chainElim (hopKinds ⟨2⟩) n (⟨2⟩, [x]) st = .error .timeout := by
    intro n
    induction n with
    | zero => exact fun _ _ => rfl
    | succ n ih => exact fun x st => ih _ _
  refine ⟨hop_wf (.inl rfl), fun n => ?_⟩
  cases n with
  | zero => rfl
  | succ n =>
    have hjump : contractJump (hopKinds ⟨2⟩) (n + 1) emptyEnv (⟨2⟩, [⟨1⟩]) (hopSt ⟨2⟩) = .error .timeout :=
      hspin (n + 1) _ _
    have hstart : contractBlock (hopKinds ⟨2⟩) (n + 1) ⟨⟨1⟩, [⟨1⟩], [], .goto (⟨2⟩, [⟨1⟩])⟩ (hopSt ⟨2⟩) =
        .error .timeout := bind_error _ (bind_error _ (bind_error _ hjump))
    have hfunc : ∀ f ∈ (hop ⟨2⟩).code, contractFunc (hopKinds ⟨2⟩) (n + 1) f (hopSt ⟨2⟩) = .error .timeout := by
      intro f hf
      rw [mem_singleton.1 hf, contractFunc_eq rfl]
      exact bind_error _ hstart
    rw [transform_eq]
    exact bind_error _ (bind_error _ (bind_error _ (hfunc _ mem_cons_self)))

end Manticore.CfgOpt.Contract
