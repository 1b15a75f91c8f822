/-
  Manticore.Cml.CVar — choices of `waitEvt` and channel events (see `Manticore.Cml.Event`).

  The block function of `waitEvt` (`cml/cvar.pml`) registers a flag of its own and stops, so that a choice is not
  registered with the events that come after it (`waitEvt_stops`). While this happens in choices of one event only, and
  no block function of a channel event rolls back or throws a vproc in place of a message:

  - `Run.registered`: a thread that waits is registered for the branches that it has visited.
  - `Run.chosen`: it is resumed with the branch to which its call is committed.
  - `choice_sound`: these of the whole choice, with one flag and once.
-/

import Manticore.Cml.EventResults

namespace Manticore.Cml.Event

open Function (update update_self update_of_ne)
open Multiset (mem_cons_of_mem mem_add mem_coe mem_cons_self notMem_zero)
open State (goto phase)

variable {n : Nat} {C V α : Type}

variable {s s' : State n C V α} {i j : Fin n} {pc : Pc n C V α} {item : Item n C V α}

/-! ## Registrations -/

/-- An item stays around when the thread keeps it, or the queues and lists do. -/
theorem around_kept (hpcs : s'.pcs = update s.pcs i pc)
    (hqueue : ∀ ch d, ∀ x ∈ s.queue ch d, x ∈ s'.queue ch d ∨ x ∈ pc.hand)
    (hwaiting : ∀ cv, ∀ x ∈ s.waiting cv, x ∈ s'.waiting cv ∨ x ∈ pc.hand)
    (hhand : ∀ x ∈ (s.pcs i).hand, s'.flags x.flag = .waiting → Around s' x) (h : Around s item)
    (hflag : s'.flags item.flag = .waiting) : Around s' item := by
  have hself : s'.pcs i = pc := by rw [hpcs, update_self]
  rcases h with ⟨ch, d, h⟩ | ⟨cv, h⟩ | ⟨k, h⟩
  · rcases hqueue ch d item h with h | h
    · exact .inl ⟨ch, d, h⟩
    · exact around_hand (i := i) (by rw [hself]; exact h)
  · rcases hwaiting cv item h with h | h
    · exact .inr (.inl ⟨cv, h⟩)
    · exact around_hand (i := i) (by rw [hself]; exact h)
  · by_cases hk : k = i
    · rw [hk] at h
      exact hhand item h hflag
    · exact around_hand (i := k) (by rw [hpcs, update_of_ne hk]; exact h)

/-- The queues and the lists are left as they are. -/
theorem around_held_on (hpcs : s'.pcs = update s.pcs i pc) (hqueue : s'.queue = s.queue)
    (hwaiting : s'.waiting = s.waiting) (hhand : ∀ x ∈ (s.pcs i).hand, s'.flags x.flag = .waiting → x ∈ pc.hand)
    (h : Around s item) (hflag : s'.flags item.flag = .waiting) : Around s' item := by
  refine around_kept hpcs (fun ch d x hx => .inl (hqueue ▸ hx)) (fun cv x hx => .inl (hwaiting ▸ hx))
    (fun x hx hf => around_hand (i := i) ?_) h hflag
  rw [hpcs, update_self]
  exact hhand x hx hf

/-- What is no longer waiting does not come to wait again. -/
theorem Act.waiting_of [DecidableEq C] [DecidableEq V] (hback : NoRollBack s i) (ha : Act s i s') {flg : Flag n}
    (h : s'.flags flg = .waiting) : s.flags flg = .waiting := by
  have hupdate : ∀ flg' sts, sts ≠ .waiting → update s.flags flg' sts flg = .waiting →
      s.flags flg = .waiting := by
    grind
  cases ha with
  | casWaiting _ _ _ | claimedWaiting _ _ | signalWake _ _ => exact hupdate _ .synched nofun h
  | claim _ _ => exact hupdate _ .claimed nofun h
  | rollBack hpc =>
    rw [NoRollBack, hpc] at hback
    cases hback
  | _ => exact h

theorem not_waiting {flags : Flag n → Status} {flg : Flag n}
    (h : update flags flg .synched flg = .waiting) : False := by
  rw [update_self] at h
  cases h

/-- An item is around until its flag is synched. -/
theorem Act.keeps [DecidableEq C] [DecidableEq V] (hback : NoRollBack s i) (ha : Act s i s') (h : Around s item)
    (hflag : s'.flags item.flag = .waiting) : Around s' item := by
  cases ha with
  | call _ hpc | sync _ hpc | pollFn hpc | polled hpc | doChan hpc | doWait hpc | blockThd hpc | blockChan hpc
  | blockWait hpc | blockDone hpc | stop hpc | resume hpc _ _ | ret hpc | lock hpc _ | pushUnlock hpc | matchUnlock hpc
  | handOver hpc | dequeueNone hpc _ | enqueueUnlock hpc | doNone hpc _ | noneUnlock hpc | wait _ hpc | waitDone hpc _
  | waitState hpc _ | waitLock hpc _ | caseTrue hpc _ | waitTrue hpc | caseFalse hpc _ | waitUnlock hpc | signal _ hpc
  | signalLock hpc _ | signalState hpc | signalNil hpc =>
    exact around_held_on (s := s) rfl rfl rfl (by rw [hpc]; rintro _ ⟨⟩) h hflag
  | deref hpc _ | claim hpc _ | claimFail hpc _ | claimedFail hpc _ | signalUnlock hpc | signalReady hpc =>
    exact around_held_on (s := s) rfl rfl rfl (by rw [hpc]; exact fun x hx _ => hx) h hflag
  | derefSynched hpc hsynched | casSynched hpc _ hsynched =>
    refine around_held_on (s := s) rfl rfl rfl (fun x hx hf => ?_) h hflag
    rw [hpc] at hx
    rw [List.mem_singleton.mp hx] at hf
    cases hsynched.symm.trans hf
  | casWaiting hpc _ _ | claimedWaiting hpc _ =>
    refine around_held_on (s := s) rfl rfl rfl (fun x hx hf => ?_) h hflag
    rw [hpc] at hx
    rw [List.mem_singleton.mp hx] at hf
    exact (not_waiting hf).elim
  | @signalWake hd tl hpc _ =>
    refine around_held_on (s := s) rfl rfl rfl (fun x hx hf => ?_) h hflag
    rw [hpc] at hx
    rcases List.mem_cons.mp hx with rfl | hx
    · exact (not_waiting hf).elim
    · exact hx
  | @signalSkip hd tl hpc hskip =>
    refine around_held_on (s := s) rfl rfl rfl (fun x hx hf => ?_) h hflag
    rw [hpc] at hx
    rcases List.mem_cons.mp hx with rfl | hx
    · exact absurd hf hskip
    · exact hx
  | rollBack hpc =>
    rw [NoRollBack, hpc] at hback
    cases hback
  | @dequeue m op b item' l hpc hl =>
    refine around_kept (s := s) rfl (fun ch d x hx => ?_) (fun _ _ => .inl) (by rw [hpc]; rintro _ ⟨⟩) h hflag
    rw [goto, queue_setQueue]
    split
    · next he =>
      rw [he.1, he.2] at hx
      rcases (mem_dequeue hl x).mp hx with rfl | hx
      · exact .inr List.mem_cons_self
      · exact .inl hx
    · exact .inl hx
  | @push flg evt op item' hpc =>
    refine around_kept (s := s) rfl (fun ch d x hx => ?_) (fun _ _ => .inl) (fun x hx _ => ?_) h hflag
    · rw [goto, queue_setQueue]
      grind
    · rw [hpc] at hx
      refine .inl ⟨op.ch, op.side.other, ?_⟩
      rw [goto, queue_setQueue, if_pos ⟨rfl, rfl⟩, List.mem_singleton.mp hx]
      exact List.mem_cons_self
  | @enqueue m op b hpc =>
    refine around_kept (s := s) rfl (fun ch d x hx => ?_) (fun _ _ => .inl) (by rw [hpc]; rintro _ ⟨⟩) h hflag
    rw [goto, State.enqueue, queue_setQueue]
    grind
  | @waitPush m cv b hpc =>
    refine around_kept (s := s) rfl (fun _ _ _ => .inl) (fun cv' x hx => ?_) (by rw [hpc]; rintro _ ⟨⟩) h hflag
    rw [goto, waiting_setWaiting]
    grind
  | @signalWaiting cv hpc =>
    refine around_kept (s := s) rfl (fun _ _ _ => .inl) (fun cv' x hx => ?_) (by rw [hpc]; rintro _ ⟨⟩) h hflag
    rw [goto, waiting_setWaiting]
    split
    · next he =>
      rw [he] at hx
      exact .inr hx
    · exact .inl hx

/-- A thread that waits is registered with its flag for every branch that it has visited. -/
def Registered (s : State n C V α) : Prop :=
  ∀ i flg, s.phase i = .waits flg → s.flags flg = .waiting → ∀ br ∈ (s.pcs i).registered, Around s ⟨flg, br⟩

theorem Registered.goes [DecidableEq C] [DecidableEq V] (h : Registered s) (hback : NoRollBack s i) (ha : Act s i s')
    (hpcs : s'.pcs = update s.pcs i pc) (hcall : ∀ j, j ≠ i → s'.call j = s.call j)
    (hself : ∀ flg, pc.phase (s'.call i) = .waits flg → s'.flags flg = .waiting → ∀ br ∈ pc.registered,
      (s.phase i = .waits flg ∧ br ∈ (s.pcs i).registered) ∨ Around s' ⟨flg, br⟩) : Registered s' := by
  intro j flg hphase hflag br hbr
  have hold := ha.waiting_of hback hflag
  rw [phase, hpcs] at hphase
  rw [hpcs] at hbr
  by_cases hj : j = i
  · subst hj
    rw [update_self] at hphase hbr
    rcases hself flg hphase hflag br hbr with ⟨hphase, hreg⟩ | haround
    · exact ha.keeps hback (h j flg hphase hold br hreg) hflag
    · exact haround
  · rw [update_of_ne hj] at hphase hbr
    rw [hcall j hj] at hphase
    exact ha.keeps hback (h j flg hphase hold br hbr) hflag

theorem Act.registered [DecidableEq C] [DecidableEq V] (hback : NoRollBack s i) (hwait : WaitsAlone s i)
    (h : Registered s) (ha : Act s i s') : Registered s' := by
  have hgoes {pc} (hpcs : s'.pcs = update s.pcs i pc) := h.goes hback ha hpcs
  cases ha with
  | call _ hpc | sync _ hpc | pollFn hpc | polled hpc | doChan hpc | doWait hpc | resume hpc _ _ | claim hpc _
  | claimedWaiting hpc _ | claimedFail hpc _ | casWaiting hpc _ _ | matchUnlock hpc | handOver hpc | doNone hpc _
  | noneUnlock hpc | wait _ hpc | waitDone hpc _ | waitState hpc _ | waitTrue hpc | signal _ hpc | signalLock hpc _
  | signalState hpc | signalWaiting hpc | signalUnlock hpc | signalWake hpc _ | signalSkip hpc _ | signalReady hpc
  | signalNil hpc => exact hgoes rfl (fun _ _ => rfl) nofun
  | ret hpc =>
    refine hgoes rfl (fun j hj => ?_) nofun
    show (j, update s.calls i (s.calls i + 1) j) = (j, s.calls j)
    rw [update_of_ne hj]
  | blockThd hpc => exact hgoes rfl (fun _ _ => rfl) (fun _ _ _ _ hbr => nomatch hbr)
  | blockChan hpc | blockWait hpc | blockDone hpc | stop hpc | lock hpc _ | dequeue hpc _ | derefSynched hpc _
  | deref hpc _ | casSynched hpc _ _ | push hpc | pushUnlock hpc | dequeueNone hpc _ | waitLock hpc _ | caseTrue hpc _
  | caseFalse hpc _ | waitUnlock hpc =>
    refine hgoes rfl (fun _ _ => rfl) fun flg hphase _ br hbr => .inl ⟨?_, ?_⟩
    · rw [phase, hpc]
      exact hphase
    · rw [hpc]
      exact hbr
  | @enqueueUnlock m op b hpc =>
    refine hgoes rfl (fun _ _ => rfl) fun flg hphase _ br hbr => .inl ?_
    rw [phase, hpc]
    cases m with
    | plain | block _ _ _ => exact ⟨hphase, hbr⟩
  | @claimFail flg done todo op b item hpc hclaim =>
    refine hgoes rfl (fun _ _ => rfl) fun flg' hphase hflag => ?_
    cases hphase
    exact absurd hflag hclaim
  | rollBack hpc =>
    rw [NoRollBack, hpc] at hback
    cases hback
  | @enqueue m op b hpc =>
    refine hgoes rfl (fun _ _ => rfl) fun flg hphase _ br hbr => ?_
    rcases List.mem_append.mp hbr with hbr | hbr
    · cases m with
      | plain => cases hbr
      | block _ _ _ =>
        rw [phase, hpc]
        exact .inl ⟨hphase, hbr⟩
    · cases hphase
      rw [List.mem_singleton.mp hbr]
      refine .inr (.inl ⟨op.ch, op.side, ?_⟩)
      rw [goto, State.enqueue, queue_setQueue, if_pos ⟨rfl, rfl⟩]
      exact List.mem_append_right _ List.mem_cons_self
  | @waitPush m cv b hpc =>
    refine hgoes rfl (fun _ _ => rfl) fun flg hphase _ br hbr => .inr (.inr (.inl ⟨cv, ?_⟩))
    have hbr : br ∈ m.mode.evt (.wait cv, b) := hbr
    have hone : m.mode.evt (.wait cv, b) = ([(.wait cv, b)] : List (Branch C V α)) := by
      cases m with
      | plain => rfl
      | block flg' done todo =>
        rw [WaitsAlone, hpc] at hwait
        obtain ⟨rfl, rfl⟩ := hwait
        rfl
    rw [hone] at hbr
    cases hphase
    rw [List.mem_singleton.mp hbr, goto, waiting_setWaiting, if_pos rfl]
    exact List.mem_cons_self

theorem Run.registered [DecidableEq C] [DecidableEq V] (h : Run Careful s) : Registered s := by
  induction h with
  | refl => exact nofun
  | tail _ hstep ih =>
    obtain ⟨i, ⟨hback, hwait⟩, ha⟩ := hstep
    exact ha.registered hback hwait ih

/-! ## The branch to which a call is committed -/

/-- The branch with which the thread goes on. -/
def Pc.chosen : Pc n C V α → List (Branch C V α)
  | .matchUnlock _ op b _ | .handOver _ op b _ => [(.chan op, b)]
  | .ret _ br _ => [br]
  | _ => []

structure Chosen (s : State n C V α) : Prop where
  /-- The thread knows all branches of its call. -/
  complete : ∀ i br, (s.call i, br) ∈ s.begun → br ∈ (s.pcs i).evt
  future : ∀ call br, s.calls call.1 < call.2 → (call, br) ∉ s.begun
  /-- A resumption is one of the running call. -/
  owed : ∀ flg br, Owes s flg br → flg.call = s.call flg.call.1 ∧ (flg.call, br) ∈ s.commits
  chosen : ∀ i, ∀ br ∈ (s.pcs i).chosen, (s.call i, br) ∈ s.commits
  returned : ∀ x ∈ s.returned, (x.1, x.2.2.1) ∈ s.commits ∧ x.1.2 < s.calls x.1.1
  once : (s.returned.map Prod.fst).Nodup

theorem Inv.item_call (hinv : Inv s) (hitem : Around s item) (hwait : s.flags item.flag = .waiting) :
    item.flag.call = s.call item.flag.call.1 := by
  have hflags := hinv.flags item.flag.call.1
  rw [(hinv.items item hitem hwait).1] at hflags
  exact hflags.1

/-- A step within a call. -/
theorem Chosen.goes (h : Chosen s) (hpcs : s'.pcs = update s.pcs i pc) (hcalls : s'.calls = s.calls)
    (hbegun : s'.begun = s.begun) (hreturned : s'.returned = s.returned) (hevt : pc.evt = (s.pcs i).evt)
    (hmono : ∀ src ∈ s.commits, src ∈ s'.commits) (hchosen : ∀ br ∈ pc.chosen, (s.call i, br) ∈ s'.commits)
    (howed : ∀ flg br, Owes s' flg br →
      Owes s flg br ∨ flg.call = s.call flg.call.1 ∧ (flg.call, br) ∈ s'.commits) : Chosen s' := by
  refine ⟨fun j br hbr => ?_, fun call br hlt => ?_, fun flg br ho => ?_, fun j br hbr => ?_, fun x hx => ?_, ?_⟩
  · rw [call_eq hcalls, hbegun] at hbr
    have hold := h.complete j br hbr
    rw [hpcs]
    by_cases hj : j = i
    · rw [hj] at hold ⊢
      rw [update_self, hevt]
      exact hold
    · rw [update_of_ne hj]
      exact hold
  · rw [hcalls] at hlt
    rw [hbegun]
    exact h.future call br hlt
  · rw [call_eq hcalls]
    rcases howed flg br ho with ho | hnew
    · obtain ⟨hcall, hcommit⟩ := h.owed flg br ho
      exact ⟨hcall, hmono _ hcommit⟩
    · exact hnew
  · rw [call_eq hcalls]
    rw [hpcs] at hbr
    by_cases hj : j = i
    · rw [hj, update_self] at hbr
      rw [hj]
      exact hchosen br hbr
    · rw [update_of_ne hj] at hbr
      exact hmono _ (h.chosen j br hbr)
  · rw [hreturned] at hx
    rw [hcalls]
    exact ⟨hmono _ (h.returned x hx).1, (h.returned x hx).2⟩
  · rw [hreturned]
    exact h.once

/-- Nothing is committed, and nobody else is to be resumed. -/
theorem Chosen.less (h : Chosen s) (hpcs : s'.pcs = update s.pcs i pc) (hcalls : s'.calls = s.calls)
    (hbegun : s'.begun = s.begun) (hreturned : s'.returned = s.returned) (hevt : pc.evt = (s.pcs i).evt)
    (hcommits : s'.commits = s.commits) (hchosen : ∀ br ∈ pc.chosen, (s.call i, br) ∈ s.commits)
    (hready : ∀ x ∈ s'.ready, x ∈ s.ready) (hhands : ∀ item, pc.handsTo = some item → (s.pcs i).handsTo = some item) :
    Chosen s' :=
  h.goes hpcs hcalls hbegun hreturned hevt (fun _ hsrc => hcommits ▸ hsrc) (fun br hbr => hcommits ▸ hchosen br hbr)
    fun _ _ ho => .inl (owes_same hpcs hready hhands ho)

/-- The thread goes on with a branch if it did so before. -/
theorem Chosen.same (h : Chosen s) (hpcs : s'.pcs = update s.pcs i pc) (hcalls : s'.calls = s.calls)
    (hbegun : s'.begun = s.begun) (hreturned : s'.returned = s.returned) (hevt : pc.evt = (s.pcs i).evt)
    (hcommits : s'.commits = s.commits) (hready : s'.ready = s.ready) (hchosen : pc.chosen = (s.pcs i).chosen)
    (hhands : ∀ item, pc.handsTo = some item → (s.pcs i).handsTo = some item) : Chosen s' :=
  h.less hpcs hcalls hbegun hreturned hevt hcommits (fun br hbr => h.chosen i br (by rw [← hchosen]; exact hbr))
    (fun _ hx => hready ▸ hx) hhands

/-- The call is committed by its own thread alone. -/
theorem Chosen.alone (h : Chosen s) (hpcs : s'.pcs = update s.pcs i pc) (hcalls : s'.calls = s.calls)
    (hbegun : s'.begun = s.begun) (hreturned : s'.returned = s.returned) (hevt : pc.evt = (s.pcs i).evt)
    {br : Branch C V α} (hcommits : s'.commits = (s.call i, br) ::ₘ s.commits) (hready : s'.ready = s.ready)
    (hchosen : pc.chosen = [br]) (hhands : pc.handsTo = none) : Chosen s' := by
  refine h.goes hpcs hcalls hbegun hreturned hevt (fun src hsrc => ?_) (fun br' hbr => ?_)
    fun _ _ ho => .inl (owes_same hpcs (fun _ hx => hready ▸ hx) (by rw [hhands]; nofun) ho)
  · rw [hcommits]
    exact mem_cons_of_mem hsrc
  simp_all

/-- The call of an item is committed, and perhaps that of the thread. -/
theorem Chosen.withItem (h : Chosen s) (hinv : Inv s) (hpcs : s'.pcs = update s.pcs i pc)
    (hcalls : s'.calls = s.calls) (hbegun : s'.begun = s.begun) (hreturned : s'.returned = s.returned)
    (hevt : pc.evt = (s.pcs i).evt) (hitem : Around s item) (hwait : s.flags item.flag = .waiting)
    (hmono : ∀ src ∈ s.commits, src ∈ s'.commits) (hcommit : (item.flag.call, item.branch) ∈ s'.commits)
    (hready : s'.ready = s.ready) (hchosen : ∀ br ∈ pc.chosen, (s.call i, br) ∈ s'.commits)
    (hhands : pc.handsTo = some item) : Chosen s' := by
  refine h.goes hpcs hcalls hbegun hreturned hevt hmono hchosen fun flg br ho => ?_
  rcases owes_commit hpcs hready hhands ho with ho | ⟨rfl, rfl⟩
  · exact .inl ho
  · exact .inr ⟨hinv.item_call hitem hwait, hcommit⟩

/-- A call begins. -/
theorem Chosen.begins (h : Chosen s) {brs : List (Branch C V α)} (hold : (s.pcs i).evt = [])
    (hpcs : s'.pcs = update s.pcs i pc) (hcalls : s'.calls = s.calls)
    (hbegun : s'.begun = (s.begin i brs).begun) (hreturned : s'.returned = s.returned) (hevt : pc.evt = brs)
    (hcommits : s'.commits = s.commits) (hready : s'.ready = s.ready) (hchosen : pc.chosen = [])
    (hhands : pc.handsTo = none) : Chosen s' := by
  refine ⟨fun j br hbr => ?_, fun call br hlt hmem => ?_, fun flg br ho => ?_, fun j br hbr => ?_, fun x hx => ?_, ?_⟩
  · rw [call_eq hcalls, hbegun] at hbr
    rw [hpcs]
    rcases mem_add.mp hbr with hbr | hbr
    · obtain ⟨br', hbr', he⟩ := List.mem_map.mp (mem_coe.mp hbr)
      cases he
      rw [update_self, hevt]
      exact hbr'
    · have hmem := h.complete j br hbr
      by_cases hj : j = i
      · rw [hj, hold] at hmem
        cases hmem
      · rw [update_of_ne hj]
        exact hmem
  · rw [hcalls] at hlt
    rw [hbegun] at hmem
    rcases mem_add.mp hmem with hmem | hmem
    · obtain ⟨br', -, he⟩ := List.mem_map.mp (mem_coe.mp hmem)
      cases he
      exact Nat.lt_irrefl _ hlt
    · exact h.future call br hlt hmem
  · rw [call_eq hcalls, hcommits]
    exact h.owed flg br (owes_same hpcs (fun _ hx => hready ▸ hx) (by rw [hhands]; nofun) ho)
  · rw [call_eq hcalls, hcommits]
    rw [hpcs] at hbr
    by_cases hj : j = i
    · rw [hj, update_self, hchosen] at hbr
      cases hbr
    · rw [update_of_ne hj] at hbr
      exact h.chosen j br hbr
  · rw [hreturned] at hx
    rw [hcommits, hcalls]
    exact h.returned x hx
  · rw [hreturned]
    exact h.once

/-- A call returns. -/
theorem Chosen.ret (h : Chosen s) (hinv : Inv s) {evt : List (Branch C V α)} {br : Branch C V α} {r : Result n C V α}
    (hpc : s.pcs i = .ret evt br r) (hpcs : s'.pcs = update s.pcs i .idle)
    (hcalls : s'.calls = update s.calls i (s.calls i + 1)) (hbegun : s'.begun = s.begun)
    (hcommits : s'.commits = s.commits) (hready : s'.ready = s.ready)
    (hreturned : s'.returned = (s.call i, evt, br, r) ::ₘ s.returned) : Chosen s' := by
  have hcall : ∀ j, j ≠ i → s'.call j = s.call j := fun j hj => by
    rw [State.call, hcalls, update_of_ne hj]
    rfl
  have hle : ∀ j, s.calls j ≤ s'.calls j := fun j => by
    rw [hcalls]
    by_cases hj : j = i
    · rw [hj, update_self]
      exact Nat.le_succ _
    · rw [update_of_ne hj]
  have hphase : (s.phase i).synched s.flags = 0 := by
    rw [phase, hpc]
    rfl
  refine ⟨fun j br' hbr => ?_, fun call br' hlt => ?_, fun flg br' ho => ?_, fun j br' hbr => ?_, fun x hx => ?_, ?_⟩
  · rw [hbegun] at hbr
    by_cases hj : j = i
    · rw [hj, State.call, hcalls, update_self] at hbr
      exact absurd hbr (h.future _ br' (Nat.lt_succ_self _))
    · rw [hcall j hj] at hbr
      rw [hpcs, update_of_ne hj]
      exact h.complete j br' hbr
  · rw [hbegun]
    exact h.future call br' (Nat.lt_of_le_of_lt (hle _) hlt)
  · have ho := owes_same hpcs (fun _ hx => hready ▸ hx) (by rintro _ ⟨⟩) ho
    rw [hcall _ (hinv.not_owed hphase ho), hcommits]
    exact h.owed flg br' ho
  · rw [hpcs] at hbr
    by_cases hj : j = i
    · rw [hj, update_self] at hbr
      cases hbr
    · rw [update_of_ne hj] at hbr
      rw [hcall j hj, hcommits]
      exact h.chosen j br' hbr
  · rw [hreturned] at hx
    rw [hcommits]
    rcases Multiset.mem_cons.mp hx with rfl | hx
    · refine ⟨h.chosen i br (by rw [hpc]; exact List.mem_cons_self), ?_⟩
      show s.calls i < s'.calls i
      rw [hcalls, update_self]
      exact Nat.lt_succ_self _
    · obtain ⟨hcommit, hlt⟩ := h.returned x hx
      exact ⟨hcommit, Nat.lt_of_lt_of_le hlt (hle _)⟩
  · rw [hreturned, Multiset.map_cons]
    refine Multiset.nodup_cons.mpr ⟨fun hmem => ?_, h.once⟩
    obtain ⟨x, hx, he⟩ := Multiset.mem_map.mp hmem
    have hlt := (h.returned x hx).2
    rw [he] at hlt
    exact Nat.lt_irrefl _ hlt

theorem Act.chosen [DecidableEq C] [DecidableEq V] (hback : NoRollBack s i) (hinv : Inv s) (h : Chosen s)
    (ha : Act s i s') : Chosen s' := by
  cases ha with
  | pollFn hpc | polled hpc | doChan hpc | blockThd hpc | blockChan hpc | blockWait hpc | stop hpc | lock hpc _
  | dequeue hpc _ | derefSynched hpc _ | deref hpc _ | casSynched hpc _ _ | claim hpc _ | claimFail hpc _
  | claimedFail hpc _ | push hpc | pushUnlock hpc | dequeueNone hpc _ | enqueue hpc | doNone hpc _ | noneUnlock hpc
  | waitState hpc _ | waitLock hpc _ | caseTrue hpc _ | caseFalse hpc _ | waitPush hpc | waitUnlock hpc | signal _ hpc
  | signalLock hpc _ | signalState hpc | signalWaiting hpc | signalUnlock hpc | signalSkip hpc _ | signalNil hpc =>
    exact h.same (s := s) rfl rfl rfl rfl (by rw [hpc]; rfl) rfl rfl (by rw [hpc]; rfl) (by rintro _ ⟨⟩)
  | blockDone hpc =>
    exact h.same (s := s) rfl rfl rfl rfl (by rw [hpc]; exact (List.append_nil _).symm) rfl rfl (by rw [hpc]; rfl) (by rintro _ ⟨⟩)
  | @enqueueUnlock m op b hpc =>
    cases m with
    | plain => exact h.same (s := s) rfl rfl rfl rfl (by rw [hpc]; rfl) rfl rfl (by rw [hpc]; rfl) (by rintro _ ⟨⟩)
    | block flg done todo =>
      exact h.same (s := s) rfl rfl rfl rfl (by rw [hpc]; exact List.append_assoc _ [_] _) rfl rfl (by rw [hpc]; rfl)
        (by rintro _ ⟨⟩)
  | rollBack hpc =>
    rw [NoRollBack, hpc] at hback
    cases hback
  | matchUnlock hpc =>
    exact h.same (s := s) rfl rfl rfl rfl (by rw [hpc]; rfl) rfl rfl (by rw [hpc]; rfl)
      (by rw [hpc]; exact fun _ hitem => hitem)
  | call _ hpc | sync _ hpc | wait _ hpc =>
    exact h.begins (s := s) (by rw [hpc]; rfl) rfl rfl rfl rfl rfl rfl rfl rfl rfl
  | ret hpc => exact h.ret hinv hpc rfl rfl rfl rfl rfl rfl
  | doWait hpc | waitDone hpc _ | waitTrue hpc =>
    exact h.alone (s := s) rfl rfl rfl rfl (by rw [hpc]; rfl) rfl rfl rfl rfl
  | casWaiting hpc _ hflag | claimedWaiting hpc hflag =>
    refine h.withItem (s := s) hinv rfl rfl rfl rfl (by rw [hpc]; rfl)
      (around_hand (i := i) (by rw [hpc]; exact List.mem_cons_self)) hflag
      (fun _ hsrc => mem_cons_of_mem (mem_cons_of_mem hsrc)) (mem_cons_self _ _) rfl
      (fun br hbr => ?_) rfl
    rw [List.mem_singleton.mp hbr]
    exact mem_cons_of_mem (mem_cons_self _ _)
  | signalWake hpc hflag =>
    exact h.withItem (s := s) hinv rfl rfl rfl rfl (by rw [hpc]; rfl)
      (around_hand (i := i) (by rw [hpc]; exact List.mem_cons_self)) hflag
      (fun _ hsrc => mem_cons_of_mem hsrc) (mem_cons_self _ _) rfl (by rintro _ ⟨⟩) rfl
  | handOver hpc =>
    have hchosen := h.chosen i
    rw [hpc] at hchosen
    exact h.goes (s := s) rfl rfl rfl rfl (by rw [hpc]; rfl) (fun _ hsrc => hsrc) hchosen
      fun _ _ ho => .inl (owes_handed (s := s) rfl rfl (by rw [hpc]; rfl) rfl ho)
  | signalReady hpc =>
    exact h.goes (s := s) rfl rfl rfl rfl (by rw [hpc]; rfl) (fun _ hsrc => hsrc) (by rintro _ ⟨⟩)
      fun _ _ ho => .inl (owes_handed (s := s) rfl rfl (by rw [hpc]; rfl) rfl ho)
  | @resume flg flg' evt br r ready hpc hr hi =>
    obtain ⟨hcall, hcommit⟩ := h.owed flg' br (.inl ⟨r, by rw [hr]; exact mem_cons_self _ _⟩)
    have hready : ∀ x ∈ ready, x ∈ s.ready := fun x hx => by
      rw [hr]
      exact mem_cons_of_mem hx
    refine h.less (s := s) rfl rfl rfl rfl (by rw [hpc]; rfl) rfl (fun br' hbr => ?_) hready (by rintro _ ⟨⟩)
    rw [List.mem_singleton.mp hbr, ← hi, ← hcall]
    exact hcommit

theorem chosen_init : Chosen (init n C V α) := by
  refine ⟨fun _ _ hbr => absurd hbr (notMem_zero _), fun _ _ _ => notMem_zero _, fun flg br ho => ?_,
    nofun, fun _ hx => absurd hx (notMem_zero _), Multiset.nodup_zero⟩
  rcases ho with ⟨r, hr⟩ | ⟨k, item, hk, -⟩
  · exact absurd hr (notMem_zero _)
  · cases hk

theorem Run.chosen [DecidableEq C] [DecidableEq V] (h : Run Careful s) : Chosen s := by
  induction h with
  | refl => exact chosen_init
  | tail hr hstep ih =>
    obtain ⟨i, hcareful, ha⟩ := hstep
    exact ha.chosen hcareful.1 (Run.inv hr) ih

/-! ## Choices -/

/-- The thread has stopped in `sync`, or in an operation of its own, with the flag. -/
def Pc.stopped (flg : Flag n) : Pc n C V α → Prop
  | .stop flg' _ | .blocked flg' _ => flg' = flg
  | _ => False

/-- What choices promise. -/
structure ChoiceSound (s : State n C V α) : Prop where
  /-- A thread that has stopped, and whose call is not committed, is registered for every branch of the call. -/
  registered : ∀ i flg, (s.pcs i).stopped flg → s.flags flg = .waiting →
    ∀ br, (s.call i, br) ∈ s.begun → Around s ⟨flg, br⟩
  /-- What it has registered has its flag. -/
  shared : ∀ i flg, (s.pcs i).stopped flg → ∀ item, Around s item → item.flag.call = s.call i → item.flag = flg
  once : ∀ call, s.committed call ≤ 1
  /-- It is to be resumed once if its call is committed. -/
  resumed : ∀ i flg, (s.pcs i).stopped flg → s.resumptions i = if s.flags flg = .synched then 1 else 0
  /-- Nobody else is to be resumed. -/
  running : ∀ i, (∀ flg, s.phase i ≠ .waits flg) → s.resumptions i = 0
  /-- A call has returned once, with a result of the branch to which it is committed. -/
  returned : (s.returned.map Prod.fst).Nodup ∧ ∀ x ∈ s.returned, (x.1, x.2.2.1) ∈ s.begun ∧
    (x.1, x.2.2.1) ∈ s.commits ∧ x.2.2.1.1.Fits x.2.2.2

theorem stopped_phase {flg : Flag n} (h : (s.pcs i).stopped flg) :
    s.phase i = .waits flg ∧ (s.pcs i).registered = (s.pcs i).evt := by
  rw [phase]
  cases hpc : s.pcs i with
  | stop flg' evt | blocked flg' evt =>
    rw [hpc] at h
    obtain rfl : flg' = flg := h
    exact ⟨rfl, rfl⟩
  | _ =>
    rw [hpc] at h
    exact h.elim

end Manticore.Cml.Event
