/-
  Manticore.Cml.EventResults — what a call returns (see `Manticore.Cml.Event`).

  - `Run.results`: the result is one for the branch: a receive returns a message of a send on its channel, unless the
    block function of `recvEvt` has matched (it then throws the vproc of the sender).
  - `Run.within`: the branch is one of those with which the call has begun, and so are the sends of the messages.
-/

import Manticore.Cml.EventSync

namespace Manticore.Cml.Event

open Function (update update_self update_of_ne)
open List (mem_cons_of_mem mem_cons_self mem_cons mem_append mem_singleton mem_append_right mem_append_left)
open Multiset (notMem_zero mem_add)
open State (goto phase)

variable {n : Nat} {C V α : Type}

/-! ## Results and branches -/

/-- The result is one for the base event. -/
def Base.Fits : Base C V α → Result n C V α → Prop
  | .chan (.recv ch), .msg src => ∃ x, src.2.1 = .chan (.send ch x)
  | .chan (.send _ _), .unit | .wait _, .unit => True
  | _, _ => False

/-- The item is one of the queue. -/
def Item.On (item : Item n C V α) (ch : C) (d : Side) : Prop :=
  ∃ op, item.branch.1 = .chan op ∧ op.ch = ch ∧ op.side = d

def Item.Waits (item : Item n C V α) : Prop := ∃ cv, item.branch.1 = .wait cv

def Pc.Fits : Pc n C V α → Prop
  | .deref _ op _ item | .matchLp _ op _ item | .claimed _ _ _ op _ item | .rollBack _ _ _ op _ item _
  | .push _ _ op item | .matchUnlock _ op _ item | .handOver _ op _ item => item.On op.ch op.side.other
  | .signalUnlock _ l | .signalLp l => ∀ item ∈ l, item.Waits
  | .signalReady hd tl => ∀ item ∈ hd :: tl, item.Waits
  | .ret _ br r => br.1.Fits r
  | _ => True

/-- The block function of `recvEvt` is not about to throw what it has in place of the message. -/
def Pc.wraps : Pc n C V α → Bool
  | .handOver (.block _ _ _) (.recv _) _ _ => true
  | _ => false

def NoWrap (s : State n C V α) (i : Fin n) : Prop := (s.pcs i).wraps = false

structure Results (s : State n C V α) : Prop where
  queue : ∀ ch d, ∀ item ∈ s.queue ch d, item.On ch d
  waiting : ∀ cv, ∀ item ∈ s.waiting cv, item.Waits
  pc : ∀ i, (s.pcs i).Fits
  ready : ∀ x ∈ s.ready, x.2.1.1.Fits x.2.2
  returned : ∀ x ∈ s.returned, x.2.2.1.1.Fits x.2.2.2

variable {s s' : State n C V α} {i j : Fin n} {pc : Pc n C V α} {item : Item n C V α} {op : ChanOp C α}

theorem Results.goto (h : Results s) (hpcs : s'.pcs = update s.pcs i pc) (hpc : pc.Fits)
    (hqueue : ∀ ch d, ∀ item ∈ s'.queue ch d, item ∈ s.queue ch d ∨ item.On ch d)
    (hwaiting : ∀ cv, ∀ item ∈ s'.waiting cv, item ∈ s.waiting cv ∨ item.Waits)
    (hready : ∀ x ∈ s'.ready, x ∈ s.ready ∨ x.2.1.1.Fits x.2.2)
    (hreturned : ∀ x ∈ s'.returned, x ∈ s.returned ∨ x.2.2.1.1.Fits x.2.2.2) : Results s' := by
  refine ⟨fun ch d item hitem => ?_, fun cv item hitem => ?_, fun j => ?_, fun x hx => ?_, fun x hx => ?_⟩
  · exact (hqueue ch d item hitem).elim (h.queue ch d item) id
  · exact (hwaiting cv item hitem).elim (h.waiting cv item) id
  · rw [hpcs]
    by_cases hj : j = i
    · rw [hj, update_self]
      exact hpc
    · rw [update_of_ne hj]
      exact h.pc j
  · exact (hready x hx).elim (h.ready x) id
  · exact (hreturned x hx).elim (h.returned x) id

/-- The queues, the lists and the results are left as they are. -/
theorem Results.same (h : Results s) (hpcs : s'.pcs = update s.pcs i pc) (hpc : pc.Fits)
    (hqueue : s'.queue = s.queue) (hwaiting : s'.waiting = s.waiting) (hready : s'.ready = s.ready)
    (hreturned : s'.returned = s.returned) : Results s' :=
  h.goto hpcs hpc (fun _ _ _ hitem => .inl (hqueue ▸ hitem)) (fun _ _ hitem => .inl (hwaiting ▸ hitem))
    (fun _ hx => .inl (hready ▸ hx)) fun _ hx => .inl (hreturned ▸ hx)

/-- Both results of a match fit. -/
theorem fits_handed {src : Source n C V α} (hsrc : src.2.1 = .chan op) (hitem : item.On op.ch op.side.other) :
    item.branch.1.Fits (handed src op) := by
  obtain ⟨op', hbranch, hch, hside⟩ := hitem
  rw [hbranch]
  cases op with
  | recv ch =>
    cases op' with
    | recv _ => cases hside
    | send _ _ => trivial
  | send ch x =>
    cases op' with
    | recv ch' =>
      obtain rfl : ch' = ch := hch
      exact ⟨x, hsrc⟩
    | send _ _ => cases hside

theorem fits_result {m : Mode n C V α} {b : Nat} (hitem : item.On op.ch op.side.other)
    (hwrap : (Pc.handOver m op b item).wraps = false) : (Base.chan op : Base C V α).Fits (m.result op item) := by
  obtain ⟨op', hbranch, hch, hside⟩ := hitem
  cases op with
  | send ch x => trivial
  | recv ch =>
    cases op' with
    | recv _ => cases hside
    | send ch' x =>
      obtain rfl : ch' = ch := hch
      cases m with
      | plain | poll _ _ => exact ⟨x, hbranch⟩
      | block flg done todo => cases hwrap

variable [DecidableEq C] [DecidableEq V]

theorem Act.results (hwrap : NoWrap s i) (h : Results s) (ha : Act s i s') : Results s' := by
  have hi := h.pc i
  cases ha with
  | call _ hpc | sync _ hpc | pollFn hpc | polled hpc | doChan hpc | doWait hpc | blockThd hpc | blockChan hpc
  | blockWait hpc | blockDone hpc | stop hpc | lock hpc _ | derefSynched hpc _ | casSynched hpc _ _ | pushUnlock hpc
  | dequeueNone hpc _ | doNone hpc _ | noneUnlock hpc | wait _ hpc | waitDone hpc _ | waitState hpc _ | waitLock hpc _
  | caseTrue hpc _ | waitTrue hpc | caseFalse hpc _ | waitUnlock hpc | signal _ hpc | signalLock hpc _ | signalState hpc
  | signalNil hpc => exact h.same rfl trivial rfl rfl rfl rfl
  | deref hpc _ | casWaiting hpc _ _ | claim hpc _ | claimFail hpc _ | claimedWaiting hpc _ | claimedFail hpc _
  | matchUnlock hpc | signalUnlock hpc | signalWake hpc _ =>
    rw [hpc] at hi
    exact h.same rfl hi rfl rfl rfl rfl
  | signalSkip hpc _ =>
    rw [hpc] at hi
    exact h.same rfl (fun x hx => hi x (mem_cons_of_mem _ hx)) rfl rfl rfl rfl
  | @signalReady hd tl hpc =>
    rw [hpc] at hi
    refine h.goto rfl (fun x hx => hi x (mem_cons_of_mem _ hx)) (fun _ _ _ => .inl) (fun _ _ => .inl)
      (fun x hx => ?_) fun _ => .inl
    rcases Multiset.mem_cons.mp hx with rfl | hx
    · obtain ⟨cv, hcv⟩ := hi hd mem_cons_self
      refine .inr ?_
      show hd.branch.1.Fits Result.unit
      rw [hcv]
      trivial
    · exact .inl hx
  | @rollBack flg done todo op b item again hpc =>
    rw [hpc] at hi
    cases again with
    | false => exact h.same rfl trivial rfl rfl rfl rfl
    | true => exact h.same rfl hi rfl rfl rfl rfl
  | @enqueueUnlock m op b hpc =>
    cases m with
    | plain | block _ _ _ => exact h.same rfl trivial rfl rfl rfl rfl
  | @dequeue m op b item l hpc hl =>
    have hmem := mem_dequeue hl
    refine h.goto rfl (h.queue _ _ item ((hmem item).mpr (.inl rfl))) (fun ch d x hx => ?_) (fun _ _ => .inl)
      (fun _ => .inl) fun _ => .inl
    rw [goto, queue_setQueue] at hx
    grind
  | @push flg evt op item hpc =>
    rw [hpc] at hi
    refine h.goto rfl trivial (fun ch d x hx => ?_) (fun _ _ => .inl) (fun _ => .inl) fun _ => .inl
    rw [goto, queue_setQueue] at hx
    split at hx
    · next he =>
      rw [he.1, he.2]
      rcases mem_cons.mp hx with rfl | hx
      · exact .inr hi
      · exact .inl hx
    · exact .inl hx
  | @enqueue m op b hpc =>
    refine h.goto rfl trivial (fun ch d x hx => ?_) (fun _ _ => .inl) (fun _ => .inl) fun _ => .inl
    rw [goto, State.enqueue, queue_setQueue] at hx
    split at hx
    · next he =>
      rw [he.1, he.2]
      rcases mem_append.mp hx with hx | hx
      · exact .inl hx
      · obtain rfl := mem_singleton.mp hx
        exact .inr ⟨op, rfl, rfl, rfl⟩
    · exact .inl hx
  | @waitPush m cv b hpc =>
    refine h.goto rfl trivial (fun _ _ _ => .inl) (fun cv' x hx => ?_) (fun _ => .inl) fun _ => .inl
    rw [goto, waiting_setWaiting] at hx
    split at hx
    · next he =>
      rw [he]
      rcases mem_cons.mp hx with rfl | hx
      · exact .inr ⟨cv, rfl⟩
      · exact .inl hx
    · exact .inl hx
  | @signalWaiting cv hpc =>
    refine h.goto rfl (h.waiting cv) (fun _ _ _ => .inl) (fun cv' x hx => ?_) (fun _ => .inl) fun _ => .inl
    rw [goto, waiting_setWaiting] at hx
    split at hx
    · cases hx
    · exact .inl hx
  | @handOver m op b item hpc =>
    rw [hpc] at hi
    rw [NoWrap, hpc] at hwrap
    refine h.goto rfl (fits_result hi hwrap) (fun _ _ _ => .inl) (fun _ _ => .inl) (fun x hx => ?_) fun _ => .inl
    rcases Multiset.mem_cons.mp hx with rfl | hx
    · exact .inr (fits_handed rfl hi)
    · exact .inl hx
  | @resume flg flg' evt br r ready hpc hr _ =>
    have hmem : ∀ x, x ∈ (flg', br, r) ::ₘ ready → x ∈ s.ready := fun x hx => hr ▸ hx
    exact h.goto rfl (h.ready _ (hmem _ (Multiset.mem_cons_self _ _))) (fun _ _ _ => .inl) (fun _ _ => .inl)
      (fun x hx => .inl (hmem x (Multiset.mem_cons_of_mem hx))) fun _ => .inl
  | @ret evt br r hpc =>
    rw [hpc] at hi
    refine h.goto rfl trivial (fun _ _ _ => .inl) (fun _ _ => .inl) (fun _ => .inl) fun x hx => ?_
    rcases Multiset.mem_cons.mp hx with rfl | hx
    · exact .inr hi
    · exact .inl hx

omit [DecidableEq C] [DecidableEq V] in
theorem results_init : Results (init n C V α) :=
  ⟨nofun, nofun, fun _ => trivial, fun _ hx => absurd hx (notMem_zero _),
    fun _ hx => absurd hx (notMem_zero _)⟩

theorem Run.results (h : Run NoWrap s) : Results s := by
  induction h with
  | refl => exact results_init
  | tail _ hstep ih =>
    obtain ⟨i, hwrap, ha⟩ := hstep
    exact ha.results hwrap ih

/-! ## The branches of a call -/

omit [DecidableEq C] [DecidableEq V]

def Mode.enabled : Mode n C V α → List (Branch C V α)
  | .poll enabled _ => enabled
  | _ => []

/-- The branches of the running call. -/
def Pc.evt : Pc n C V α → List (Branch C V α)
  | .poll _ _ evt | .doEvt _ evt | .noneUnlock _ evt _ | .stop _ evt | .blocked _ evt | .push _ evt _ _
  | .pushUnlock _ evt _ | .waitUnlock _ evt _ | .ret evt _ _ => evt
  | .block _ done todo => done ++ todo
  | .lock m op b | .tryLp m op b | .deref m op b _ | .matchLp m op b _ | .matchUnlock m op b _
  | .handOver m op b _ => m.evt (.chan op, b)
  | .enqueue m op b | .enqueueUnlock m op b => m.mode.evt (.chan op, b)
  | .claimed _ done todo op b _ | .rollBack _ done todo op b _ _ => done ++ (.chan op, b) :: todo
  | .waitState cv => [(.wait cv, 0)]
  | .waitLock m cv b | .waitCase m cv b | .waitTrue m cv b | .waitPush m cv b => m.mode.evt (.wait cv, b)
  | _ => []

/-- The branches that `poll` has kept. -/
def Pc.uses : Pc n C V α → List (Branch C V α)
  | .poll todo enabled _ => todo ++ enabled
  | .doEvt enabled _ | .noneUnlock enabled _ _ => enabled
  | .lock m op b | .tryLp m op b | .deref m op b _ | .matchLp m op b _ | .matchUnlock m op b _
  | .handOver m op b _ => (.chan op, b) :: m.enabled
  | .ret _ br _ => [br]
  | _ => []

/-- The item whose thread is to be resumed. -/
def Pc.handsTo : Pc n C V α → Option (Item n C V α)
  | .matchUnlock _ _ _ item | .handOver _ _ _ item | .signalReady item _ => some item
  | _ => none

/-- The call with the flag is to be resumed with the branch. -/
def Owes (s : State n C V α) (flg : Flag n) (br : Branch C V α) : Prop :=
  (∃ r, (flg, br, r) ∈ s.ready) ∨ ∃ k item, (s.pcs k).handsTo = some item ∧ item.flag = flg ∧ item.branch = br

structure Within (s : State n C V α) : Prop where
  begun : ∀ i, ∀ br ∈ (s.pcs i).evt, (s.call i, br) ∈ s.begun
  uses : ∀ i, ∀ br ∈ (s.pcs i).uses, br ∈ (s.pcs i).evt
  items : ∀ item, Around s item → (item.flag.call, item.branch) ∈ s.begun
  commits : ∀ src ∈ s.commits, src ∈ s.begun
  owed : ∀ flg br, Owes s flg br → br ∈ (s.pcs flg.call.1).evt
  returned : ∀ x ∈ s.returned, x.2.2.1 ∈ x.2.1 ∧ (x.1, x.2.2.1) ∈ s.begun

theorem mem_mode_evt (m : WaitMode n C V α) (br : Branch C V α) : br ∈ m.mode.evt br := by
  cases m with
  | plain => exact mem_cons_self
  | block flg done todo => exact mem_append_right _ mem_cons_self

variable {br : Branch C V α} {flg : Flag n} {r : Result n C V α}

theorem registered_evt (hbr : br ∈ pc.registered) : br ∈ pc.evt := by
  cases pc with
  | block _ _ _ | claimed _ _ _ _ _ _ | rollBack _ _ _ _ _ _ _ => exact mem_append_left _ hbr
  | stop _ _ | blocked _ _ | push _ _ _ _ | pushUnlock _ _ _ | waitUnlock _ _ _ => exact hbr
  | lock m _ _ | tryLp m _ _ | deref m _ _ _ | matchLp m _ _ _ =>
    cases m with
    | plain | poll _ _ => cases hbr
    | block _ _ _ => exact mem_append_left _ hbr
  | enqueueUnlock m op b =>
    rcases mem_append.mp hbr with hbr | hbr
    · cases m with
      | plain => cases hbr
      | block _ _ _ => exact mem_append_left _ hbr
    · obtain rfl := mem_singleton.mp hbr
      exact mem_mode_evt m _
  | enqueue m _ _ | waitLock m _ _ | waitCase m _ _ | waitTrue m _ _ | waitPush m _ _ =>
    cases m with
    | plain => cases hbr
    | block _ _ _ => exact mem_append_left _ hbr
  | _ => cases hbr

/-- A thread that is to be resumed waits. -/
theorem Owes.pos (h : Owes s flg br) : 0 < s.resumptions flg.call.1 := by
  unfold State.resumptions
  rcases h with ⟨r, hr⟩ | ⟨k, item, hk, rfl, -⟩
  · have hmem : flg.call.1 ∈ s.ready.map fun r => r.1.call.1 := Multiset.mem_map_of_mem (fun r => r.1.call.1) hr
    exact Nat.add_pos_left (Multiset.count_pos.mpr hmem) _
  · have hle := Parties.le_sum (fun i => (s.pcs i).owes item.flag.call.1) k
    have hone : (s.pcs k).owes item.flag.call.1 = 1 := by
      cases hpc : s.pcs k <;> rw [hpc] at hk <;> cases hk <;> exact if_pos rfl
    have hpos : 1 ≤ ∑ i, (s.pcs i).owes item.flag.call.1 := hone ▸ hle
    exact Nat.add_pos_right _ hpos

theorem Inv.not_owed (hinv : Inv s) (hphase : (s.phase i).synched s.flags = 0) (h : Owes s flg br) :
    flg.call.1 ≠ i := by
  intro he
  have hpos := h.pos
  rw [he, hinv.resumptions, hphase] at hpos
  exact Nat.lt_irrefl _ hpos

theorem Effect.moves (h : Effect s i s') : ∃ pc, Moves s i pc s' := by
  cases h with
  | goes pc hm | starts pc hm | renews pc _ hm | claims pc _ hm | commitsBoth pc _ _ hm | commits pc _ hm
  | wakes pc _ hm | resumes pc _ hm => exact ⟨pc, hm⟩
  | returns hm => exact ⟨_, hm⟩

/-- A step within a call. -/
theorem Within.goes (h : Within s) (hinv : Inv s) (hinv' : Inv s') (he : Effect s i s')
    (hpcs : s'.pcs = update s.pcs i pc) (hcalls : s'.calls = s.calls) (hbegun : s'.begun = s.begun)
    (hevt : pc.evt = (s.pcs i).evt) (huses : ∀ br ∈ pc.uses, br ∈ pc.evt)
    (hcommits : ∀ src ∈ s'.commits, src ∈ s.commits ∨ (∃ br ∈ (s.pcs i).evt, src = (s.call i, br)) ∨
      ∃ item, Around s item ∧ src = (item.flag.call, item.branch))
    (howed : ∀ flg br, Owes s' flg br → Owes s flg br ∨
      ∃ item, Around s item ∧ s.flags item.flag = .waiting ∧ flg = item.flag ∧ br = item.branch)
    (hreturned : s'.returned = s.returned) : Within s' := by
  have hevt' : ∀ j, (s'.pcs j).evt = (s.pcs j).evt := fun j => by
    rw [hpcs]
    by_cases hj : j = i
    · rw [hj, update_self, hevt]
    · rw [update_of_ne hj]
  refine ⟨fun j br hbr => ?_, fun j br hbr => ?_, fun item hitem => ?_, fun src hsrc => ?_, fun flg br ho => ?_, ?_⟩
  · rw [call_eq hcalls, hbegun]
    exact h.begun j br (by rw [← hevt' j]; exact hbr)
  · rw [hpcs] at hbr ⊢
    by_cases hj : j = i
    · rw [hj, update_self] at hbr ⊢
      exact huses br hbr
    · rw [update_of_ne hj] at hbr ⊢
      exact h.uses j br hbr
  · obtain ⟨pc', hm⟩ := he.moves
    have hpc : pc' = pc := by
      have hself := congrFun (hm.pcs.symm.trans hpcs) i
      rwa [update_self, update_self] at hself
    subst hpc
    rw [hbegun]
    rcases hm.around item hitem with hitem | ⟨hphase, hreg⟩
    · exact h.items item hitem
    · have hflags := hinv'.flags i
      rw [phase_self hm.pcs hcalls, hphase, call_eq hcalls] at hflags
      rw [hflags.1]
      exact h.begun i item.branch (by rw [← hevt]; exact registered_evt hreg)
  · rw [hbegun]
    rcases hcommits src hsrc with hsrc | ⟨br, hbr, rfl⟩ | ⟨item, hitem, rfl⟩
    · exact h.commits src hsrc
    · exact h.begun i br hbr
    · exact h.items item hitem
  · rw [hevt']
    rcases howed flg br ho with ho | ⟨item, hitem, hwait, rfl, rfl⟩
    · exact h.owed flg br ho
    · obtain ⟨-, hreg⟩ := hinv.items item hitem hwait
      exact registered_evt hreg
  · rw [hreturned, hbegun]
    exact h.returned

/-- A call begins. -/
theorem Within.begins (h : Within s) (hinv : Inv s) {brs : List (Branch C V α)} (hphase : s.phase i = .fresh)
    (hpcs : s'.pcs = update s.pcs i pc) (hcalls : s'.calls = s.calls)
    (hbegun : s'.begun = (s.begin i brs).begun) (hevt : pc.evt = brs) (huses : ∀ br ∈ pc.uses, br ∈ brs)
    (haround : ∀ item, Around s' item → Around s item) (hcommits : s'.commits = s.commits)
    (howed : ∀ flg br, Owes s' flg br → Owes s flg br) (hreturned : s'.returned = s.returned) : Within s' := by
  have hmono : ∀ src, src ∈ s.begun → src ∈ s'.begun := fun src hsrc => by
    rw [hbegun]
    exact mem_add.mpr (.inr hsrc)
  have hother : ∀ j, j ≠ i → s'.pcs j = s.pcs j := fun j hj => by rw [hpcs, update_of_ne hj]
  refine ⟨fun j br hbr => ?_, fun j br hbr => ?_, fun item hitem => hmono _ (h.items item (haround item hitem)),
    fun src hsrc => hmono _ (h.commits src (hcommits ▸ hsrc)), fun flg br ho => ?_, fun x hx => ?_⟩
  · rw [call_eq hcalls]
    by_cases hj : j = i
    · subst hj
      rw [hpcs, update_self, hevt] at hbr
      rw [hbegun]
      exact mem_add.mpr (.inl (Multiset.mem_coe.mpr (List.mem_map.mpr ⟨br, hbr, rfl⟩)))
    · rw [hother j hj] at hbr
      exact hmono _ (h.begun j br hbr)
  · by_cases hj : j = i
    · subst hj
      rw [hpcs, update_self] at hbr ⊢
      rw [hevt]
      exact huses br hbr
    · rw [hother j hj] at hbr ⊢
      exact h.uses j br hbr
  · have ho := howed flg br ho
    rw [hother _ (hinv.not_owed (by rw [hphase]; rfl) ho)]
    exact h.owed flg br ho
  · rw [hreturned] at hx
    exact ⟨(h.returned x hx).1, hmono _ (h.returned x hx).2⟩

/-- A call returns. -/
theorem Within.ret (h : Within s) (hinv : Inv s) {evt : List (Branch C V α)} (hpc : s.pcs i = .ret evt br r)
    (hpcs : s'.pcs = update s.pcs i .idle) (hcalls : s'.calls = update s.calls i (s.calls i + 1))
    (hbegun : s'.begun = s.begun) (haround : ∀ item, Around s' item → Around s item)
    (hcommits : s'.commits = s.commits) (howed : ∀ flg br, Owes s' flg br → Owes s flg br)
    (hreturned : s'.returned = (s.call i, evt, br, r) ::ₘ s.returned) : Within s' := by
  have hother : ∀ j, j ≠ i → s'.pcs j = s.pcs j := fun j hj => by rw [hpcs, update_of_ne hj]
  have hphase : (s.phase i).synched s.flags = 0 := by
    rw [phase, hpc]
    rfl
  refine ⟨fun j br hbr => ?_, fun j br hbr => ?_, fun item hitem => ?_, fun src hsrc => ?_, fun flg br ho => ?_,
    fun x hx => ?_⟩
  · by_cases hj : j = i
    · rw [hj, hpcs, update_self] at hbr
      cases hbr
    · rw [hother j hj] at hbr
      rw [State.call, hcalls, update_of_ne hj, hbegun]
      exact h.begun j br hbr
  · by_cases hj : j = i
    · rw [hj, hpcs, update_self] at hbr
      cases hbr
    · rw [hother j hj] at hbr ⊢
      exact h.uses j br hbr
  · rw [hbegun]
    exact h.items item (haround item hitem)
  · rw [hbegun]
    exact h.commits src (hcommits ▸ hsrc)
  · have ho := howed flg br ho
    rw [hother _ (hinv.not_owed hphase ho)]
    exact h.owed flg br ho
  · rw [hbegun]
    rw [hreturned] at hx
    rcases Multiset.mem_cons.mp hx with rfl | hx
    · have hbr : br ∈ (s.pcs i).evt := h.uses i br (by rw [hpc]; exact mem_cons_self)
      refine ⟨?_, h.begun i br hbr⟩
      rw [hpc] at hbr
      exact hbr
    · exact h.returned x hx

theorem owes_same (hpcs : s'.pcs = update s.pcs i pc) (hready : ∀ x ∈ s'.ready, x ∈ s.ready)
    (hpc : ∀ item, pc.handsTo = some item → (s.pcs i).handsTo = some item) (h : Owes s' flg br) :
    Owes s flg br := by
  rcases h with ⟨r, hr⟩ | ⟨k, item, hk, hitem⟩
  · exact .inl ⟨r, hready _ hr⟩
  · rw [hpcs] at hk
    by_cases hki : k = i
    · rw [hki, update_self] at hk
      exact .inr ⟨i, item, hpc item hk, hitem⟩
    · rw [update_of_ne hki] at hk
      exact .inr ⟨k, item, hk, hitem⟩

/-- The thread is to hand over to the item. -/
theorem owes_commit (hpcs : s'.pcs = update s.pcs i pc) (hready : s'.ready = s.ready)
    (hpc : pc.handsTo = some item) (h : Owes s' flg br) : Owes s flg br ∨ flg = item.flag ∧ br = item.branch := by
  rcases h with ⟨r, hr⟩ | ⟨k, item', hk, rfl, rfl⟩
  · exact .inl (.inl ⟨r, hready ▸ hr⟩)
  · rw [hpcs] at hk
    by_cases hki : k = i
    · rw [hki, update_self, hpc] at hk
      cases hk
      exact .inr ⟨rfl, rfl⟩
    · rw [update_of_ne hki] at hk
      exact .inl (.inr ⟨k, item', hk, rfl, rfl⟩)

/-- The thread has handed over to the item. -/
theorem owes_handed (hpcs : s'.pcs = update s.pcs i pc)
    (hready : s'.ready = (item.flag, item.branch, r) ::ₘ s.ready) (hold : (s.pcs i).handsTo = some item)
    (hpc : pc.handsTo = none) (h : Owes s' flg br) : Owes s flg br := by
  rcases h with ⟨r', hr⟩ | ⟨k, item', hk, hitem⟩
  · rw [hready] at hr
    rcases Multiset.mem_cons.mp hr with he | hr
    · cases he
      exact .inr ⟨i, item, hold, rfl, rfl⟩
    · exact .inl ⟨r', hr⟩
  · rw [hpcs] at hk
    by_cases hki : k = i
    · rw [hki, update_self, hpc] at hk
      cases hk
    · rw [update_of_ne hki] at hk
      exact .inr ⟨k, item', hk, hitem⟩

/-- A step that commits nothing and hands nothing over. -/
theorem Within.less (h : Within s) (hinv : Inv s) (hinv' : Inv s') (he : Effect s i s')
    (hpcs : s'.pcs = update s.pcs i pc) (hcalls : s'.calls = s.calls) (hbegun : s'.begun = s.begun)
    (hevt : pc.evt = (s.pcs i).evt) (huses : ∀ br ∈ pc.uses, br ∈ pc.evt) (hcommits : s'.commits = s.commits)
    (hready : ∀ x ∈ s'.ready, x ∈ s.ready) (hhands : ∀ item, pc.handsTo = some item → (s.pcs i).handsTo = some item)
    (hreturned : s'.returned = s.returned) : Within s' :=
  h.goes hinv hinv' he hpcs hcalls hbegun hevt huses (fun _ hsrc => .inl (hcommits ▸ hsrc))
    (fun _ _ ho => .inl (owes_same hpcs hready hhands ho)) hreturned

theorem Within.same (h : Within s) (hinv : Inv s) (hinv' : Inv s') (he : Effect s i s')
    (hpcs : s'.pcs = update s.pcs i pc) (hcalls : s'.calls = s.calls) (hbegun : s'.begun = s.begun)
    (hevt : pc.evt = (s.pcs i).evt) (huses : ∀ br ∈ pc.uses, br ∈ pc.evt) (hcommits : s'.commits = s.commits)
    (hready : s'.ready = s.ready) (hhands : ∀ item, pc.handsTo = some item → (s.pcs i).handsTo = some item)
    (hreturned : s'.returned = s.returned) : Within s' :=
  h.less hinv hinv' he hpcs hcalls hbegun hevt huses hcommits (fun _ hx => hready ▸ hx) hhands hreturned

/-- A thread is resumed by the one that owes it. -/
theorem Within.handed (h : Within s) (hinv : Inv s) (hinv' : Inv s') (he : Effect s i s')
    (hpcs : s'.pcs = update s.pcs i pc) (hcalls : s'.calls = s.calls) (hbegun : s'.begun = s.begun)
    (hevt : pc.evt = (s.pcs i).evt) (huses : ∀ br ∈ pc.uses, br ∈ pc.evt) (hcommits : s'.commits = s.commits)
    (hready : s'.ready = (item.flag, item.branch, r) ::ₘ s.ready) (hold : (s.pcs i).handsTo = some item)
    (hhands : pc.handsTo = none) (hreturned : s'.returned = s.returned) : Within s' :=
  h.goes hinv hinv' he hpcs hcalls hbegun hevt huses (fun _ hsrc => .inl (hcommits ▸ hsrc))
    (fun _ _ ho => .inl (owes_handed hpcs hready hold hhands ho)) hreturned

/-- The call is committed by its own thread alone. -/
theorem Within.alone (h : Within s) (hinv : Inv s) (hinv' : Inv s') (he : Effect s i s')
    (hpcs : s'.pcs = update s.pcs i pc) (hcalls : s'.calls = s.calls) (hbegun : s'.begun = s.begun)
    (hevt : pc.evt = (s.pcs i).evt) (hbr : br ∈ (s.pcs i).evt) (huses : pc.uses = [br])
    (hcommits : s'.commits = (s.call i, br) ::ₘ s.commits) (hready : s'.ready = s.ready)
    (hhands : pc.handsTo = none) (hreturned : s'.returned = s.returned) : Within s' := by
  refine h.goes hinv hinv' he hpcs hcalls hbegun hevt (fun br' hbr' => ?_) (fun src hsrc => ?_)
    (fun _ _ ho => .inl (owes_same hpcs (fun _ hx => hready ▸ hx) (by rw [hhands]; nofun) ho)) hreturned
  · rw [huses] at hbr'
    obtain rfl := mem_singleton.mp hbr'
    rw [hevt]
    exact hbr
  grind

/-- The call of an item is committed. -/
theorem Within.withItem (h : Within s) (hinv : Inv s) (hinv' : Inv s') (he : Effect s i s')
    (hpcs : s'.pcs = update s.pcs i pc) (hcalls : s'.calls = s.calls) (hbegun : s'.begun = s.begun)
    (hevt : pc.evt = (s.pcs i).evt) (huses : ∀ br ∈ pc.uses, br ∈ pc.evt) (hitem : Around s item)
    (hwait : s.flags item.flag = .waiting) (hcommits : ∀ src ∈ s'.commits, src ∈ s.commits ∨
      (∃ br ∈ (s.pcs i).evt, src = (s.call i, br)) ∨ src = (item.flag.call, item.branch))
    (hready : s'.ready = s.ready) (hhands : pc.handsTo = some item) (hreturned : s'.returned = s.returned) :
    Within s' :=
  h.goes hinv hinv' he hpcs hcalls hbegun hevt huses
    (fun src hsrc => (hcommits src hsrc).imp id fun hor => hor.imp id fun heq => ⟨item, hitem, heq⟩)
    (fun _ _ ho => (owes_commit hpcs hready hhands ho).imp id fun heq => ⟨item, hitem, hwait, heq⟩) hreturned

theorem mem_commitMatch {src : Source n C V α} {c : Call n} {br' : Branch C V α} {c' : Call n}
    {l : Multiset (Source n C V α)} {evt : List (Branch C V α)} (hbr : br' ∈ evt)
    (h : src ∈ (c, br) ::ₘ (c', br') ::ₘ l) : src ∈ l ∨ (∃ br ∈ evt, src = (c', br)) ∨ src = (c, br) := by
  grind

variable [DecidableEq C] [DecidableEq V]

theorem Act.within (hback : NoRollBack s i) (hinv : Inv s) (hinv' : Inv s') (he : Effect s i s') (h : Within s)
    (ha : Act s i s') : Within s' := by
  have huses := h.uses i
  cases ha with
  | polled hpc | doChan hpc | lock hpc _ | dequeue hpc _ | derefSynched hpc _ | deref hpc _ | casSynched hpc _ _
  | noneUnlock hpc =>
    rw [hpc] at huses
    exact h.same hinv hinv' he rfl rfl rfl (by rw [hpc]; rfl) huses rfl rfl (by rintro _ ⟨⟩) rfl
  | doNone hpc _ =>
    rw [hpc] at huses
    exact h.same hinv hinv' he rfl rfl rfl (by rw [hpc]; rfl) (fun br hbr => huses br (mem_cons_of_mem _ hbr)) rfl
      rfl (by rintro _ ⟨⟩) rfl
  | blockThd hpc | blockWait hpc | stop hpc | claim hpc _ | claimFail hpc _ | claimedFail hpc _ | push hpc
  | pushUnlock hpc | dequeueNone hpc _ | enqueue hpc | waitState hpc _ | waitLock hpc _ | caseTrue hpc _
  | caseFalse hpc _ | waitPush hpc | waitUnlock hpc | signal _ hpc | signalLock hpc _ | signalState hpc
  | signalWaiting hpc | signalUnlock hpc | signalSkip hpc _ | signalNil hpc =>
    exact h.same hinv hinv' he rfl rfl rfl (by rw [hpc]; rfl) (by rintro _ ⟨⟩) rfl rfl (by rintro _ ⟨⟩) rfl
  | pollFn hpc =>
    rw [hpc] at huses
    refine h.same hinv hinv' he rfl rfl rfl (by rw [hpc]; rfl) (fun br hbr => huses br ?_) rfl rfl (by rintro _ ⟨⟩) rfl
    rcases mem_append.mp hbr with hbr | hbr
    · exact mem_cons_of_mem _ (mem_append_left _ hbr)
    · split at hbr
      · rcases mem_cons.mp hbr with rfl | hbr
        · exact mem_cons_self
        · exact mem_cons_of_mem _ (mem_append_right _ hbr)
      · exact mem_cons_of_mem _ (mem_append_right _ hbr)
  | blockChan hpc =>
    refine h.same hinv hinv' he rfl rfl rfl (by rw [hpc]; rfl) (fun br hbr => ?_) rfl rfl (by rintro _ ⟨⟩) rfl
    obtain rfl := mem_singleton.mp hbr
    exact mem_append_right _ mem_cons_self
  | blockDone hpc =>
    exact h.same hinv hinv' he rfl rfl rfl (by rw [hpc]; exact (List.append_nil _).symm) (by rintro _ ⟨⟩) rfl rfl (by rintro _ ⟨⟩) rfl
  | @enqueueUnlock m op b hpc =>
    cases m with
    | plain => exact h.same hinv hinv' he rfl rfl rfl (by rw [hpc]; rfl) (by rintro _ ⟨⟩) rfl rfl (by rintro _ ⟨⟩) rfl
    | block flg done todo =>
      exact h.same hinv hinv' he rfl rfl rfl (by rw [hpc]; exact List.append_assoc _ [_] _) (by rintro _ ⟨⟩) rfl rfl (by rintro _ ⟨⟩) rfl
  | rollBack hpc =>
    rw [NoRollBack, hpc] at hback
    cases hback
  | matchUnlock hpc =>
    rw [hpc] at huses
    exact h.same hinv hinv' he rfl rfl rfl (by rw [hpc]; rfl) huses rfl rfl (by rw [hpc]; exact fun _ hitem => hitem) rfl
  -- a call begins or returns
  | call op hpc =>
    have hphase : s.phase i = .fresh := by
      rw [phase, hpc]
      rfl
    exact h.begins hinv hphase rfl rfl rfl rfl (fun _ hbr => hbr) (fun _ => around_same rfl rfl rfl (by rintro _ ⟨⟩)) rfl
      (fun _ _ => owes_same rfl (fun _ hx => hx) (by rintro _ ⟨⟩)) rfl
  | sync ev hpc =>
    have hphase : s.phase i = .fresh := by
      rw [phase, hpc]
      rfl
    refine h.begins hinv hphase rfl rfl rfl rfl (fun br hbr => ?_) (fun _ => around_same rfl rfl rfl (by rintro _ ⟨⟩)) rfl
      (fun _ _ => owes_same rfl (fun _ hx => hx) (by rintro _ ⟨⟩)) rfl
    rcases mem_append.mp hbr with hbr | hbr
    · exact hbr
    · cases hbr
  | wait cv hpc =>
    have hphase : s.phase i = .fresh := by
      rw [phase, hpc]
      rfl
    exact h.begins hinv hphase rfl rfl rfl rfl (by rintro _ ⟨⟩) (fun _ => around_same rfl rfl rfl (by rintro _ ⟨⟩)) rfl
      (fun _ _ => owes_same rfl (fun _ hx => hx) (by rintro _ ⟨⟩)) rfl
  | ret hpc =>
    exact h.ret hinv hpc rfl rfl rfl (fun _ => around_same rfl rfl rfl (by rintro _ ⟨⟩)) rfl
      (fun _ _ => owes_same rfl (fun _ hx => hx) (by rintro _ ⟨⟩)) rfl
  | doWait hpc =>
    rw [hpc] at huses
    exact h.alone hinv hinv' he rfl rfl rfl (by rw [hpc]; rfl) (by rw [hpc]; exact huses _ mem_cons_self) rfl rfl
      rfl rfl rfl
  | waitDone hpc _ =>
    exact h.alone hinv hinv' he rfl rfl rfl (by rw [hpc]; rfl) (by rw [hpc]; exact mem_cons_self) rfl rfl rfl rfl
      rfl
  | @waitTrue m cv b hpc =>
    exact h.alone hinv hinv' he rfl rfl rfl (by rw [hpc]; rfl) (by rw [hpc]; exact mem_mode_evt m _) rfl rfl rfl rfl rfl
  | @casWaiting m op b item hpc _ hflag =>
    rw [hpc] at huses
    exact h.withItem hinv hinv' he rfl rfl rfl (by rw [hpc]; rfl) huses
      (around_hand (i := i) (by rw [hpc]; exact mem_cons_self)) hflag
      (fun _ hsrc => mem_commitMatch (by rw [hpc]; exact huses _ mem_cons_self) hsrc) rfl rfl rfl
  | @claimedWaiting flg done todo op b item hpc hflag =>
    have hmem : ((.chan op, b) : Branch C V α) ∈ done ++ (.chan op, b) :: todo :=
      mem_append_right _ mem_cons_self
    refine h.withItem hinv hinv' he rfl rfl rfl (by rw [hpc]; rfl) (fun br hbr => ?_)
      (around_hand (i := i) (by rw [hpc]; exact mem_cons_self)) hflag
      (fun _ hsrc => mem_commitMatch (by rw [hpc]; exact hmem) hsrc) rfl rfl rfl
    obtain rfl := mem_singleton.mp hbr
    exact hmem
  | signalWake hpc hflag =>
    exact h.withItem hinv hinv' he rfl rfl rfl (by rw [hpc]; rfl) (by rintro _ ⟨⟩)
      (around_hand (i := i) (by rw [hpc]; exact mem_cons_self)) hflag
      (fun _ hsrc => (Multiset.mem_cons.mp hsrc).elim (fun heq => .inr (.inr heq)) .inl) rfl rfl rfl
  | handOver hpc =>
    rw [hpc] at huses
    refine h.handed hinv hinv' he rfl rfl rfl (by rw [hpc]; rfl) (fun br hbr => ?_) rfl rfl (by rw [hpc]; rfl) rfl rfl
    obtain rfl := mem_singleton.mp hbr
    exact huses _ mem_cons_self
  | signalReady hpc =>
    exact h.handed hinv hinv' he rfl rfl rfl (by rw [hpc]; rfl) (by rintro _ ⟨⟩) rfl rfl (by rw [hpc]; rfl) rfl rfl
  | @resume flg flg' evt br r ready hpc hr hi =>
    have howed := h.owed flg' br (.inl ⟨r, by rw [hr]; exact Multiset.mem_cons_self _ _⟩)
    have hready : ∀ x ∈ ready, x ∈ s.ready := fun x hx => by
      rw [hr]
      exact Multiset.mem_cons_of_mem hx
    refine h.less hinv hinv' he rfl rfl rfl (by rw [hpc]; rfl) (fun br' hbr => ?_) rfl hready (by rintro _ ⟨⟩) rfl
    obtain rfl := mem_singleton.mp hbr
    rw [hi, hpc] at howed
    exact howed

omit [DecidableEq C] [DecidableEq V] in
theorem within_init : Within (init n C V α) := by
  refine ⟨nofun, nofun, fun item hitem => ?_, fun _ hsrc => absurd hsrc (notMem_zero _), fun flg br ho => ?_,
    fun _ hx => absurd hx (notMem_zero _)⟩
  · rcases hitem with ⟨ch, d, hitem⟩ | ⟨cv, hitem⟩ | ⟨j, hitem⟩ <;> cases hitem
  · rcases ho with ⟨r, hr⟩ | ⟨k, item, hk, -⟩
    · exact absurd hr (notMem_zero _)
    · cases hk

theorem Run.within (h : Run Careful s) : Within s := by
  induction h with
  | refl => exact within_init
  | tail hr hstep ih =>
    obtain ⟨i, hcareful, ha⟩ := hstep
    have hinv := Run.inv hr
    have he := ha.effect hcareful.1 hcareful.2
    exact ha.within hcareful.1 hinv (he.inv hinv) he ih

end Manticore.Cml.Event
