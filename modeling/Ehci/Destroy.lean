import Ehci.Retire

/-! `ehci_pipeDestroy` over whole runs: what becomes of the transfers in
flight. Its loop deactivates the rings whose first qTD is on the pipe's queue
head, and the reaper it runs retires those transfers and hands their qTDs
back to the pool, which frees its oldest entry whenever it is full; the other
transfers in flight, and their qTDs, are left alone. -/
namespace Ehci

section Frame

variable {cfg : Config} {pipeOf : Nat → Nat} {s : Hcd} {x : Nat}

/-- Pooling a qTD leaves any other qTD outside the pool as it was, and still
outside. -/
theorem qtdPut_qtds_off {q : Nat} (hx : x ≠ q) (hP : x ∉ s.qtdPool) :
    (qtdPut cfg s q).qtds x = s.qtds x ∧ x ∉ (qtdPut cfg s q).qtdPool := by
  unfold qtdPut
  dsimp only
  split
  · split
    · rename_i t rest hPool
      have hxt : x ≠ t := fun e => hP (by rw [hPool, e]; exact List.mem_cons_self t rest)
      refine ⟨by simp [Function.update_noteq hx, Function.update_noteq hxt], ?_⟩
      simp only [List.mem_append, List.mem_singleton, not_or]
      exact ⟨fun h => hP (by rw [hPool]; exact List.mem_cons_of_mem t h), hx⟩
    · exact ⟨by simp [Function.update_noteq hx], by simp [hx, hP]⟩
  · exact ⟨by simp [Function.update_noteq hx], by simp [hx, hP]⟩

/-- So does pooling a list of qTDs, for a qTD off the list. -/
theorem qtdsPut_qtds_off : ∀ (L : List Nat) {s : Hcd}, x ∉ L → x ∉ s.qtdPool →
    (qtdsPut cfg s L).qtds x = s.qtds x ∧ x ∉ (qtdsPut cfg s L).qtdPool
  | [], _, _, hP => ⟨rfl, hP⟩
  | q :: L, s, hx, hP => by
      have h₁ : (qtdPut cfg s q).qtds x = s.qtds x ∧ x ∉ (qtdPut cfg s q).qtdPool :=
        qtdPut_qtds_off (List.ne_of_not_mem_cons hx) hP
      obtain ⟨h₂, h₃⟩ := qtdsPut_qtds_off L (fun h => hx (List.mem_cons_of_mem q h)) h₁.2
      exact ⟨h₂.trans h₁.1, h₃⟩

/-- Reaping a transfer leaves a qTD off its ring and outside the pool as it was. -/
theorem reap_qtds_off {t : Nat} (hx : x ∉ (s.trs t).hcdpriv) (hP : x ∉ s.qtdPool) (st : Int) :
    (reap cfg s t st).qtds x = s.qtds x := by
  obtain ⟨qhs, hCont⟩ := @continueAfter_eq s t
  unfold reap
  rw [hCont]
  exact (qtdsPut_qtds_off (s := { s with qhs := qhs }) _ hx hP).1

/-- `ehci_qtdsDeactivate` writes only the qTDs of the ring. -/
theorem qtdsDeactivate_qtds_off : ∀ (ring : List Nat) {s : Hcd}, x ∉ ring →
    (qtdsDeactivate s ring).qtds x = s.qtds x
  | [], _, _ => rfl
  | q :: ring, s, hx => by
      rw [qtdsDeactivate, qtdsDeactivate_qtds_off ring fun h => hx (List.mem_cons_of_mem q h)]
      simp [Function.update_noteq (List.ne_of_not_mem_cons hx)]

/-- The loop of `ehci_pipeDestroy` leaves a qTD that is on no ring whose first
qTD belongs to `qh`. -/
theorem deactivateOn_qtds_off (qh : Nat) (ts : List Nat) (s : Hcd)
    (hx : ∀ t ∈ ts, x ∈ (s.trs t).hcdpriv → ∀ f ∈ (s.trs t).hcdpriv.head?, (s.qtds f).qh ≠ some qh) :
    (deactivateOn s qh ts).qtds x = s.qtds x := by
  induction ts generalizing s with
  | nil => rfl
  | cons t ts ih =>
      have hRest := fun t' ht' => hx t' (List.mem_cons_of_mem t ht')
      rw [deactivateOn]
      split
      · rename_i f hf
        split
        · rename_i hq
          -- the ring deactivated is not `x`'s, and the records read stay
          have hxr : x ∉ (s.trs t).hcdpriv := fun hm => hx t (List.mem_cons_self t ts) hm f hf hq
          obtain ⟨qtds, hEq⟩ := @qtdsDeactivate_eq s (s.trs t).hcdpriv
          have hTrs : (qtdsDeactivate s (s.trs t).hcdpriv).trs = s.trs := by rw [hEq]
          have hQh : ∀ y, ((qtdsDeactivate s (s.trs t).hcdpriv).qtds y).qh = (s.qtds y).qh := fun y =>
            congrFun (congrArg (fun o => o.2.qtdQh) (owners_qtdsDeactivate (s := s) _)) y
          rw [ih _ fun t' ht' => by simpa only [hTrs, hQh] using hRest t' ht',
            qtdsDeactivate_qtds_off _ hxr]
        · exact ih s hRest
      · exact ih s hRest

/-- A qTD on the ring of a transfer in flight is a live record, and not pooled. -/
theorem Owned.ring_held (h : Owned cfg pipeOf s) {t : Nat} (ht : t ∈ s.transfers)
    (hx : x ∈ (s.trs t).hcdpriv) : x ∉ s.qtdPool ∧ x < s.qtdCount ∧ (s.qtds x).live = true := by
  have hPos : 0 < (s.transfers.flatMap fun y => (s.trs y).hcdpriv).count x :=
    List.count_pos_iff.2 (List.mem_flatMap.2 ⟨t, ht, hx⟩)
  have hLe := h.qtds.qtds_held.count_le x
  have hLive := h.qtds.qtds_held.live (q := x) (by simp only [QtdOwners.inFlight, Hcd.qtdOwners]; omega)
  simp only [QtdOwners.inFlight, Hcd.qtdOwners] at hLe hLive
  exact ⟨fun hm => by have := List.count_pos_iff.2 hm; omega, hLive⟩

/-- An allocated qTD that no transfer in flight holds is pooled or freed. -/
theorem Owned.pooled_or_freed (h : Owned cfg pipeOf s) (hx : x < s.qtdCount)
    (hOff : ∀ t ∈ s.transfers, x ∉ (s.trs t).hcdpriv) : x ∈ s.qtdPool ∨ (s.qtds x).live = false := by
  have hZero : (s.transfers.flatMap fun y => (s.trs y).hcdpriv).count x = 0 :=
    List.count_eq_zero.2 fun hm => by
      obtain ⟨t, ht, hxt⟩ := List.mem_flatMap.1 hm
      exact hOff t ht hxt
  have hHeld := h.qtds.qtds_held x
  simp only [QtdOwners.inFlight, Hcd.qtdOwners, hZero, Nat.add_zero] at hHeld
  by_cases hL : (s.qtds x).live = true
  · rw [if_pos ⟨hx, hL⟩] at hHeld
    exact Or.inl (List.count_pos_iff.1 (by omega))
  · exact Or.inr (by simpa using hL)

/-- No transfer in flight has a qTD on a pooled queue head. -/
theorem Owned.ring_off_pooled {q : Nat} (h : Owned cfg pipeOf s) (hq : q ∈ s.qhPool) :
    ∀ t ∈ s.transfers, ∀ x ∈ (s.trs t).hcdpriv, (s.qtds x).qh ≠ some q := by
  intro t ht x hx hxq
  obtain ⟨qh', hp, hAll⟩ := h.qtds.ring_qh t ht
  have hq' : qh' = q := Option.some.inj ((hAll x hx).symm.trans hxq)
  exact (h.qhs.qhPool_free q hq).2.2.2 (pipeOf t) (hq' ▸ hp)

end Frame

section Reaper

variable {cfg : Config} {pipeOf : Nat → Nat} {s : Hcd}

/-- `ehci_transUpdate` allocates no qTD and leaves the record of every
transfer it leaves in flight. -/
theorem transUpdate_frame_rings (hNodup : s.transfers.Nodup) :
    (transUpdate cfg s).qtdCount = s.qtdCount ∧
      ∀ t ∈ (transUpdate cfg s).transfers, (transUpdate cfg s).trs t = s.trs t :=
  (transUpdate_induction (fun s' => s'.transfers.Nodup ∧ s'.qtdCount = s.qtdCount ∧
      ∀ t ∈ s'.transfers, s'.trs t = s.trs t) (fun s' t ⟨hN, hC, hR⟩ _ => by
    unfold reapIfFinished
    dsimp only
    split
    · obtain ⟨_, _, _, _, -, hEq⟩ := @reap_eq cfg s' t (qtdsCheck s' t).2
      rw [hEq]
      refine ⟨hN.erase t, hC, fun t' ht' => ?_⟩
      obtain ⟨hne, ht''⟩ := hN.mem_erase_iff.1 ht'
      simp only [Function.update_noteq hne]
      exact hR t' ht''
    · exact ⟨hN, hC, hR⟩) hNodup ⟨hNodup, rfl, fun _ _ => rfl⟩).2

/-- `ehci_transUpdate` leaves a transfer it does not find finished in flight,
with its record and the records of its qTDs. -/
theorem transUpdate_keeps_running (h : Owned cfg pipeOf s) {t : Nat} (ht : t ∈ s.transfers)
    (hRun : (qtdsCheck s t).1 = false) :
    t ∈ (transUpdate cfg s).transfers ∧ (transUpdate cfg s).trs t = s.trs t ∧
      ∀ x ∈ (s.trs t).hcdpriv, (transUpdate cfg s).qtds x = s.qtds x :=
  (transUpdate_induction (fun s' => Owned cfg pipeOf s' ∧ t ∈ s'.transfers ∧ s'.trs t = s.trs t ∧
      ∀ x ∈ (s.trs t).hcdpriv, s'.qtds x = s.qtds x) (fun s' t' ⟨h', ht', hTr, hQ⟩ ht'' => by
    unfold reapIfFinished
    dsimp only
    split
    · rename_i hDone
      -- `t` is still found running, so the transfer reaped is another one
      have hne : t ≠ t' := by
        rintro rfl
        rw [qtdsCheck_congr_ring hTr fun x hx => by rw [hQ x hx], hRun] at hDone
        exact Bool.false_ne_true hDone
      obtain ⟨_, _, _, _, -, hEq⟩ := @reap_eq cfg s' t' (qtdsCheck s' t').2
      refine ⟨reap_owned h' ht'' _, ?_, ?_, fun x hx => ?_⟩
      · rw [reap_transfers]
        exact (List.mem_erase_of_ne hne).2 ht'
      · rw [hEq]
        simp only [Function.update_noteq hne]
        exact hTr
      · have hx' : x ∈ (s'.trs t).hcdpriv := hTr ▸ hx
        rw [reap_qtds_off (fun hx'' => hne (h'.ring_unique ht' ht'' hx' hx'')) (h'.ring_held ht' hx').1]
        exact hQ x hx
    · exact ⟨h', ht', hTr, hQ⟩) h.qtds.transfers_nodup ⟨h, ht, rfl, fun _ _ => rfl⟩).2

end Reaper

section Destroy

variable {cfg : Config} {va2pa : Nat → Nat} {pipeOf : Nat → Nat} {s : Hcd} {pipe q : Nat}

/-- `ehci_pipeDestroy` in terms of its reaper: the unlink moves only queue
heads and slots, and after the loop and `ehci_transUpdate` only the pipe and
the queue-head pool are written. -/
theorem pipeDestroy_reaper (hq : (s.pipes pipe).hcdpriv = some q) :
    ∃ u, Relinked s u ∧ u.owners = s.owners ∧ ∃ qhs pool n pipes, pipeDestroy cfg s pipe =
      { (if s.transfers = [] then u else transUpdate cfg (deactivateOn u q s.transfers)) with
        qhs := qhs, qhPool := pool, nqhs := n, pipes := pipes } := by
  unfold pipeDestroy
  dsimp only
  rw [hq]
  dsimp only
  generalize hu : (if (s.pipes pipe).type = .bulk ∨ (s.pipes pipe).type = .control then
      qhUnlinkAsync s q else if (s.pipes pipe).type = .interrupt then
      qhUnlinkPeriodic cfg.periodicSize s q else s) = u
  have hRel : Relinked s u := by
    rw [← hu]
    obtain ⟨qhs, hA⟩ := @qhUnlinkAsync_eq s q
    exact Relinked.ite (hA ▸ ⟨qhs, s.periodicNodes, s.periodicList, rfl⟩)
      (Relinked.ite relinked_qhUnlinkPeriodic (Relinked.refl s))
  have hOw : u.owners = s.owners := by
    rw [← hu]
    split
    · exact owners_qhUnlinkAsync
    · split
      · exact owners_qhUnlinkPeriodic _
      · rfl
  have hT : u.transfers = s.transfers := by
    obtain ⟨qhs, nodes, list, rfl⟩ := hRel
    rfl
  refine ⟨u, hRel, hOw, ?_⟩
  rw [hT]
  obtain ⟨qhs, pool, n, hPut, -⟩ := qhPut_eq cfg ((if s.transfers = [] then u
    else transUpdate cfg (deactivateOn u q s.transfers)).modifyPipe pipe
      fun x => { x with hcdpriv := none }) q
  rw [hPut]
  exact ⟨qhs, pool, n, _, rfl⟩

/-- `ehci_pipeDestroy` allocates no qTD and leaves the record of every
transfer it leaves in flight. -/
theorem pipeDestroy_rings (h : Owned cfg pipeOf s) (hq : (s.pipes pipe).hcdpriv = some q) :
    (pipeDestroy cfg s pipe).transfers.Sublist s.transfers ∧
      (pipeDestroy cfg s pipe).qtdCount = s.qtdCount ∧
      ∀ t ∈ (pipeDestroy cfg s pipe).transfers, (pipeDestroy cfg s pipe).trs t = s.trs t := by
  obtain ⟨u, ⟨qhs, nodes, list, rfl⟩, -, qhs', pool, n, pipes, hEq⟩ := @pipeDestroy_reaper cfg s pipe q hq
  rw [hEq]
  split
  · exact ⟨List.Sublist.refl _, rfl, fun _ _ => rfl⟩
  · obtain ⟨qtds, hD⟩ := @deactivateOn_eq { s with qhs := qhs, periodicNodes := nodes, periodicList := list }
      q s.transfers
    rw [hD]
    obtain ⟨hC, hR⟩ := @transUpdate_frame_rings cfg
      { s with qhs := qhs, periodicNodes := nodes, periodicList := list, qtds := qtds }
      h.qtds.transfers_nodup
    exact ⟨(transUpdate_mono _).1, hC, hR⟩

/-- `ehci_pipeDestroy` leaves a transfer in flight none of whose qTDs is on
the pipe's queue head, and that `ehci_qtdsCheck` does not find finished, in
flight, with its record and the records of its qTDs. -/
theorem pipeDestroy_keeps_running (h : Owned cfg pipeOf s) (hq : (s.pipes pipe).hcdpriv = some q)
    {t : Nat} (ht : t ∈ s.transfers) (hOff : ∀ x ∈ (s.trs t).hcdpriv, (s.qtds x).qh ≠ some q)
    (hRun : (qtdsCheck s t).1 = false) :
    t ∈ (pipeDestroy cfg s pipe).transfers ∧ (pipeDestroy cfg s pipe).trs t = s.trs t ∧
      ∀ x ∈ (s.trs t).hcdpriv, (pipeDestroy cfg s pipe).qtds x = s.qtds x := by
  obtain ⟨u, ⟨qhs, nodes, list, rfl⟩, hOw, qhs', pool, n, pipes, hEq⟩ := @pipeDestroy_reaper cfg s pipe q hq
  rw [hEq, if_neg (List.ne_nil_of_mem ht)]
  set u := { s with qhs := qhs, periodicNodes := nodes, periodicList := list }
  -- the loop leaves the ring of `t`, whose first qTD is on another queue head
  obtain ⟨qtds, hD⟩ := @deactivateOn_eq u q s.transfers
  have hKeep : ∀ x ∈ (s.trs t).hcdpriv, (deactivateOn u q s.transfers).qtds x = s.qtds x :=
    fun x hx => deactivateOn_qtds_off q s.transfers u fun t' ht' hx' f hf =>
      hOff f (h.ring_unique ht' ht hx' hx ▸ List.mem_of_mem_head? hf)
  have hTr : (deactivateOn u q s.transfers).trs t = s.trs t := by rw [hD]
  have hOwned : Owned cfg pipeOf (deactivateOn u q s.transfers) :=
    (h.of_owners hOw).of_owners (owners_deactivateOn q s.transfers)
  have hCheck : qtdsCheck (deactivateOn u q s.transfers) t = qtdsCheck s t :=
    qtdsCheck_congr_ring hTr fun x hx => by rw [hKeep x hx]
  obtain ⟨h1, h2, h3⟩ := transUpdate_keeps_running hOwned
    (show t ∈ (deactivateOn u q s.transfers).transfers by rw [hD]; exact ht) (hCheck ▸ hRun)
  exact ⟨h1, h2.trans hTr, fun x hx => (h3 x (hTr ▸ hx)).trans (hKeep x hx)⟩

/-- `ehci_pipeDestroy` takes the queue head from the pipe. -/
theorem pipeDestroy_releases (hq : (s.pipes pipe).hcdpriv = some q) :
    ((pipeDestroy cfg s pipe).pipes pipe).hcdpriv = none := by
  unfold pipeDestroy
  dsimp only
  rw [hq]
  dsimp only
  rw [qhPut_pipes]
  simp

/-- In every state a run under the contract reaches, `ehci_pipeDestroy` of a
pipe holding queue head `q` retires the transfers on `q` and no other: none
left in flight has a qTD on `q`; each that had one has left the in-flight
list, is reported once more to `usb_transferFinished`, and has each of its
qTDs back in the pool or freed; the pipe holds no queue head; `q` is pooled
and the controller reaches it from neither schedule; and every transfer in
flight on another queue head that `ehci_qtdsCheck` does not find finished
stays in flight, its record and the records of its qTDs untouched. -/
theorem pipeDestroy_retires (run : DriverRun cfg va2pa s pipeOf) (hq : (s.pipes pipe).hcdpriv = some q) :
    (∀ t ∈ (pipeDestroy cfg s pipe).transfers, ∀ x ∈ ((pipeDestroy cfg s pipe).trs t).hcdpriv,
        ((pipeDestroy cfg s pipe).qtds x).qh ≠ some q) ∧
      (∀ t ∈ s.transfers, (∃ x ∈ (s.trs t).hcdpriv, (s.qtds x).qh = some q) →
        t ∉ (pipeDestroy cfg s pipe).transfers ∧
        (pipeDestroy cfg s pipe).finished.countP (fun e => e.1 = t) =
          s.finished.countP (fun e => e.1 = t) + 1 ∧
        ∀ x ∈ (s.trs t).hcdpriv,
          x ∈ (pipeDestroy cfg s pipe).qtdPool ∨ ((pipeDestroy cfg s pipe).qtds x).live = false) ∧
      ((pipeDestroy cfg s pipe).pipes pipe).hcdpriv = none ∧
      q ∈ (pipeDestroy cfg s pipe).qhPool ∧
      ¬HwWalk (pipeDestroy cfg s pipe) (pipeDestroy cfg s pipe).asyncList q ∧
      (∀ i x, (pipeDestroy cfg s pipe).periodicList i = qhPtr (some x) →
        ¬HwWalk (pipeDestroy cfg s pipe) x q) ∧
      ∀ t ∈ s.transfers, (∀ x ∈ (s.trs t).hcdpriv, (s.qtds x).qh ≠ some q) →
        (qtdsCheck s t).1 = false →
        t ∈ (pipeDestroy cfg s pipe).transfers ∧ (pipeDestroy cfg s pipe).trs t = s.trs t ∧
          ∀ x ∈ (s.trs t).hcdpriv, (pipeDestroy cfg s pipe).qtds x = s.qtds x := by
  have h := run.transferRun.owned
  have h' := (run.destroy pipe).transferRun.owned
  have hPool : q ∈ (pipeDestroy cfg s pipe).qhPool := pipeDestroy_pools hq
  have hNone : ((pipeDestroy cfg s pipe).pipes pipe).hcdpriv = none := pipeDestroy_releases hq
  obtain ⟨hSub, hCount, hTrs⟩ := pipeDestroy_rings h hq
  obtain ⟨hWalkA, hWalkP⟩ := (run.destroy pipe).walks_unpooled hPool
  refine ⟨h'.ring_off_pooled hPool, fun t ht hOn => ?_, hNone, hPool, hWalkA, hWalkP,
    fun t ht hOff hRun => pipeDestroy_keeps_running h hq ht hOff hRun⟩
  -- a transfer with a qTD on `q` was submitted on the pipe, which holds no queue head now
  have hOut : t ∉ (pipeDestroy cfg s pipe).transfers := fun ht' => by
    obtain ⟨x, hx, hxq⟩ := hOn
    obtain ⟨qh', hp, hAll⟩ := h.qtds.ring_qh t ht
    have hqq : qh' = q := Option.some.inj ((hAll x hx).symm.trans hxq)
    have hPipe : pipeOf t = pipe := (h.qhs.pipe_qh pipe q hq).2.2.2 _ (hqq ▸ hp)
    obtain ⟨_, hp', -⟩ := h'.qtds.ring_qh t ht'
    rw [hPipe] at hp'
    exact Option.noConfusion (hNone.symm.trans hp')
  have hTally := congrFun (@tally_pipeDestroy cfg s h.qtds.transfers_nodup pipe) t
  simp only [Hcd.tally, if_pos ht, if_neg hOut] at hTally
  refine ⟨hOut, by omega, fun x hx => h'.pooled_or_freed ?_ fun t' ht' hx' => ?_⟩
  · rw [hCount]
    exact (h.ring_held ht hx).2.1
  · rw [hTrs t' ht'] at hx'
    exact hOut (h.ring_unique (hSub.subset ht') ht hx' hx ▸ ht')

set_option maxRecDepth 4000 in
/-- A bulk read of 17 qTDs of 20 KiB each on a high-speed bulk pipe, on the
build whose qTD pool holds 16: `ehci_pipeDestroy` reaps it and puts its qTDs
back from the first on, and putting the seventeenth frees the first, which
ends in neither the pool nor a ring. -/
theorem destroy_long_ring_frees_qtd :
    ∃ s, DriverRun sampleConfig id s (Function.update (fun _ => 0) 0 0) ∧
      (s.pipes 0).hcdpriv = some 1 ∧ s.transfers = [0] ∧ (s.trs 0).hcdpriv.length = 17 ∧
      (s.trs 0).hcdpriv.head? = some 0 ∧ (s.qtds 0).qh = some 1 ∧
      0 ∉ (pipeDestroy sampleConfig s 0).qtdPool ∧
      ((pipeDestroy sampleConfig s 0).qtds 0).live = false :=
  ⟨_, .enqueue 0 0 (.init (fun _ => bulkIn 0x100000 (17 * 20480)) (fun _ => bulkPipe) 18 fun _ => rfl)
    (List.not_mem_nil 0) rfl (by decide), by decide⟩

set_option maxRecDepth 4000 in
theorem destroy_retires_after_mixed_submit :
    DriverRun sampleConfig id mixedSubmitted mixedPipeOf ∧ (mixedSubmitted.pipes 1).hcdpriv = some 1 ∧
      (∀ t ∈ (pipeDestroy sampleConfig mixedSubmitted 1).transfers,
        ∀ x ∈ ((pipeDestroy sampleConfig mixedSubmitted 1).trs t).hcdpriv,
          ((pipeDestroy sampleConfig mixedSubmitted 1).qtds x).qh ≠ some 1) ∧
      (∀ t ∈ mixedSubmitted.transfers,
        (∃ x ∈ (mixedSubmitted.trs t).hcdpriv, (mixedSubmitted.qtds x).qh = some 1) →
        t ∉ (pipeDestroy sampleConfig mixedSubmitted 1).transfers ∧
        (pipeDestroy sampleConfig mixedSubmitted 1).finished.countP (fun e => e.1 = t) =
          mixedSubmitted.finished.countP (fun e => e.1 = t) + 1 ∧
        ∀ x ∈ (mixedSubmitted.trs t).hcdpriv, x ∈ (pipeDestroy sampleConfig mixedSubmitted 1).qtdPool ∨
          ((pipeDestroy sampleConfig mixedSubmitted 1).qtds x).live = false) ∧
      ((pipeDestroy sampleConfig mixedSubmitted 1).pipes 1).hcdpriv = none ∧
      1 ∈ (pipeDestroy sampleConfig mixedSubmitted 1).qhPool ∧
      ¬HwWalk (pipeDestroy sampleConfig mixedSubmitted 1)
        (pipeDestroy sampleConfig mixedSubmitted 1).asyncList 1 ∧
      (∀ i x, (pipeDestroy sampleConfig mixedSubmitted 1).periodicList i = qhPtr (some x) →
        ¬HwWalk (pipeDestroy sampleConfig mixedSubmitted 1) x 1) ∧
      ∀ t ∈ mixedSubmitted.transfers, (∀ x ∈ (mixedSubmitted.trs t).hcdpriv,
          (mixedSubmitted.qtds x).qh ≠ some 1) →
        (qtdsCheck mixedSubmitted t).1 = false →
        t ∈ (pipeDestroy sampleConfig mixedSubmitted 1).transfers ∧
          (pipeDestroy sampleConfig mixedSubmitted 1).trs t = mixedSubmitted.trs t ∧
          ∀ x ∈ (mixedSubmitted.trs t).hcdpriv,
            (pipeDestroy sampleConfig mixedSubmitted 1).qtds x = mixedSubmitted.qtds x :=
  ⟨mixedSubmitted_run, by decide, pipeDestroy_retires mixedSubmitted_run (by decide)⟩

end Destroy

end Ehci
