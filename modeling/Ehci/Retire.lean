import Ehci.Driver

/-! What retiring a transfer does besides taking it off the in-flight list:
the queue head's recovery in `ehci_continue`; the cancellation of
`ehci_transferDequeue`, which clears the active bit of every qTD of the
transfer and runs the reaper; and, over whole runs, the accounting of
submissions against the reports to the USB stack.

`ehci_continue` ends with a cleanup: when the overlay of the queue head
carries an error bit, it points the overlay past the reaped transfer and
clears bits 1 to 6 of its token, so that a halted queue resumes.
`usb_transferFinished` is the driver's only report on a transfer. Across
every run, each time `ehci_transferEnqueue` puts a transfer in flight is
answered by one report, unless the transfer is still in flight. -/
namespace Ehci

section Recovery

variable {cfg : Config} {pipeOf : Nat → Nat} {s : Hcd} {t : Nat}

/-- `x & ~0x7e` has no bit of `QTD_ERRMASK`: the cleanup mask covers it. -/
theorem clearBits_cleanup_errmask (x : Nat) : clearBits x 0x7e &&& qtdErrmask = 0 := by
  rw [show qtdErrmask = 0x7e &&& qtdErrmask from rfl, ← Nat.land_assoc, clearBits_and_self,
    Nat.zero_and]

theorem qhs_ite_modifyQh_ne {c : Prop} [Decidable c] {q x : Nat} {f : Qh → Qh} (hx : x ≠ q) :
    (if c then s.modifyQh q f else s).qhs x = s.qhs x := by
  split <;> simp [hx]

/-- `ehci_continue` writes only its queue head. -/
theorem ehciContinue_qhs_ne {qh last x : Nat} (hx : x ≠ qh) :
    (ehciContinue s qh last).qhs x = s.qhs x := by
  unfold ehciContinue
  rw [qhs_ite_modifyQh_ne hx, qhs_ite_modifyQh_ne hx, qhs_ite_modifyQh_ne hx]

/-- The error cleanup of `ehci_continue` leaves the overlay without an error
bit, whatever the writes before it. -/
theorem cleanup_errmask (s : Hcd) (qh n : Nat) :
    ((if (s.qhs qh).hw.token &&& qtdErrmask ≠ 0 then
        s.modifyQh qh fun x =>
          { x with hw := { x.hw with nextQtd := n, token := clearBits x.hw.token 0x7e } }
      else s).qhs qh).hw.token &&& qtdErrmask = 0 := by
  split
  · simpa using clearBits_cleanup_errmask _
  · exact not_not.1 ‹_›

/-- `ehci_continue` leaves its queue head's overlay without an error bit. -/
theorem ehciContinue_errmask (qh last : Nat) :
    ((ehciContinue s qh last).qhs qh).hw.token &&& qtdErrmask = 0 :=
  cleanup_errmask _ qh _

/-- A reaping writes queue heads only as its `ehci_continue` does. -/
theorem reap_qhs (st : Int) : (reap cfg s t st).qhs = (continueAfter s t).qhs := by
  obtain ⟨qtds, pool, n, hPut⟩ := @qtdsPut_eq cfg (continueAfter s t) (s.trs t).hcdpriv
  unfold reap
  rw [hPut]
  rfl

theorem reap_pipes (st : Int) : (reap cfg s t st).pipes = s.pipes := by
  obtain ⟨_, _, _, _, -, h⟩ := @reap_eq cfg s t st
  rw [h]

/-- Reaping a transfer in flight clears the error bits of its pipe's queue
head and writes no other queue head. -/
theorem reap_qhs_owned (h : Owned cfg pipeOf s) (ht : t ∈ s.transfers) (st : Int) :
    ∃ qh, (s.pipes (pipeOf t)).hcdpriv = some qh ∧
      ((reap cfg s t st).qhs qh).hw.token &&& qtdErrmask = 0 ∧
      ∀ x, x ≠ qh → (reap cfg s t st).qhs x = s.qhs x := by
  obtain ⟨qh, hPipe, hRing⟩ := h.qtds.ring_qh t ht
  have hne : (s.trs t).hcdpriv ≠ [] := h.qtds.ring_ne_nil t ht
  obtain ⟨first, hFirst⟩ := Option.ne_none_iff_exists'.1 (mt List.head?_eq_none_iff.1 hne)
  obtain ⟨last, hLast⟩ := Option.ne_none_iff_exists'.1 (mt List.getLast?_eq_none_iff.1 hne)
  have hCont : continueAfter s t = ehciContinue s qh last := by
    simp only [continueAfter, hFirst, hLast]
    rw [show (s.qtds first).qh = some qh from hRing first (List.mem_of_mem_head? hFirst)]
  rw [reap_qhs, hCont]
  exact ⟨qh, hPipe, ehciContinue_errmask qh last, fun x hx => ehciContinue_qhs_ne hx⟩

/-- What the passes of `ehci_transUpdate` keep of queue head `q`, from the
state `s₀` the call starts in: a queue head one of whose transfers has been
reaped carries no error bit, and one none of whose transfers has been
reaped is as it was. -/
structure ReapedQh (cfg : Config) (pipeOf : Nat → Nat) (s₀ : Hcd) (q : Nat) (s : Hcd) : Prop where
  owned : Owned cfg pipeOf s
  pipes_eq : s.pipes = s₀.pipes
  transfers_sub : ∀ x ∈ s.transfers, x ∈ s₀.transfers
  cleared : (∃ x ∈ s₀.transfers, x ∉ s.transfers ∧ (s₀.pipes (pipeOf x)).hcdpriv = some q) →
    (s.qhs q).hw.token &&& qtdErrmask = 0
  kept : (∀ x ∈ s₀.transfers, x ∉ s.transfers → (s₀.pipes (pipeOf x)).hcdpriv ≠ some q) →
    s.qhs q = s₀.qhs q

theorem ReapedQh.after_reap {s₀ : Hcd} {q : Nat} (h : ReapedQh cfg pipeOf s₀ q s) (ht : t ∈ s.transfers)
    (st : Int) : ReapedQh cfg pipeOf s₀ q (reap cfg s t st) := by
  obtain ⟨qh, hPipe, hClear, hFrame⟩ := reap_qhs_owned h.owned ht st
  have hNodup : s.transfers.Nodup := h.owned.qtds.transfers_nodup
  have hGone : ∀ x, x ∉ (reap cfg s t st).transfers → x = t ∨ x ∉ s.transfers := fun x hx => by
    rw [reap_transfers, hNodup.mem_erase_iff] at hx
    exact (Decidable.not_and_iff_or_not_not.1 hx).imp_left not_not.1
  have hPipe₀ : (s₀.pipes (pipeOf t)).hcdpriv = some qh := h.pipes_eq ▸ hPipe
  refine ⟨reap_owned h.owned ht st, (reap_pipes st).trans h.pipes_eq, fun x hx => ?_, ?_, ?_⟩
  · rw [reap_transfers] at hx
    exact h.transfers_sub x (List.mem_of_mem_erase hx)
  · rintro ⟨x, hx₀, hx, hq⟩
    by_cases hqh : q = qh
    · exact hqh ▸ hClear
    rw [hFrame q hqh]
    refine h.cleared ⟨x, hx₀, (hGone x hx).resolve_left fun hxt => hqh ?_, hq⟩
    rw [hxt, hPipe₀] at hq
    exact (Option.some.inj hq).symm
  · intro hNone
    have hqh : q ≠ qh := fun hq => hNone t (h.transfers_sub t ht)
      (by rw [reap_transfers]; exact hNodup.not_mem_erase) (hq ▸ hPipe₀)
    rw [hFrame q hqh]
    exact h.kept fun x hx₀ hx => hNone x hx₀ fun hx' => hx (by
      rw [reap_transfers] at hx'
      exact List.mem_of_mem_erase hx')

/-- `ehci_transUpdate` leaves no queue head halted behind a transfer it
reaped: `ehci_continue` clears the overlay's XACT, BABBLE, BUFERR and HALTED
bits, so the controller goes on to the next qTD queued. Every other queue
head is left as it was. -/
theorem transUpdate_clears_reaped_errors (h : Owned cfg pipeOf s) (q : Nat) :
    ((∃ t ∈ s.transfers, t ∉ (transUpdate cfg s).transfers ∧ (s.pipes (pipeOf t)).hcdpriv = some q) →
      ((transUpdate cfg s).qhs q).hw.token &&& qtdErrmask = 0) ∧
    ((∀ t ∈ s.transfers, t ∉ (transUpdate cfg s).transfers → (s.pipes (pipeOf t)).hcdpriv ≠ some q) →
      (transUpdate cfg s).qhs q = s.qhs q) := by
  have hRun : ReapedQh cfg pipeOf s q (transUpdate cfg s) :=
    transUpdate_induction (ReapedQh cfg pipeOf s q) (fun s' t' hs ht => by
        unfold reapIfFinished
        dsimp only
        split
        · exact hs.after_reap ht _
        · exact hs)
      h.qtds.transfers_nodup ⟨h, rfl, fun _ hx => hx, fun ⟨_, hx₀, hx, _⟩ => absurd hx₀ hx, fun _ => rfl⟩
  exact ⟨hRun.cleared, hRun.kept⟩

/-- A bulk read whose only qTD the controller halted with babble, the halt
also in its queue head's overlay. -/
def bulkBabbled : Hcd :=
  let s := qtdWriteback (transferEnqueue sampleConfig id
    (ehciInit (fun _ => bulkIn 0x1000 8) (fun _ => bulkPipe) 8) 0 0).1 0 (qtdHalted ||| qtdBabble)
  s.modifyQh 1 fun x => { x with hw := { (s.qhs 1).hw with token := qtdHalted ||| qtdBabble } }

theorem bulkBabbled_run : TransferRun sampleConfig id bulkBabbled (Function.update (fun _ => 0) 0 0) :=
  .overlay 1 _ (.writeback 0 _ (.enqueue 0 0 (.init _ _ 8 fun _ => rfl) (List.not_mem_nil 0)))

theorem babble_halt_cleared_by_reaper :
    Owned sampleConfig (Function.update (fun _ => 0) 0 0) bulkBabbled ∧
      (bulkBabbled.qhs 1).hw.token &&& qtdErrmask ≠ 0 ∧
      ((transUpdate sampleConfig bulkBabbled).qhs 1).hw.token &&& qtdErrmask = 0 :=
  ⟨bulkBabbled_run.owned, by decide,
    (transUpdate_clears_reaped_errors bulkBabbled_run.owned 1).1 ⟨0, by decide, by decide, rfl⟩⟩

end Recovery

section Cancel

variable {cfg : Config} {pipeOf : Nat → Nat} {s : Hcd} {t : Nat}

theorem clearBits_idem (x mask : Nat) : clearBits (clearBits x mask) mask = clearBits x mask :=
  Nat.eq_of_testBit_eq fun i => by
    simp only [testBit_clearBits]
    cases x.testBit i <;> cases mask.testBit i <;> rfl

/-- Clearing the active bit leaves the byte count. -/
theorem qtdLen_clearBits_active (x : Nat) : qtdLen (clearBits x qtdActive) = qtdLen x :=
  Nat.eq_of_testBit_eq fun i => by
    simp only [qtdLen, Nat.testBit_land, Nat.testBit_shiftRight, testBit_clearBits,
      testBit_qtdActive]
    rw [show decide (16 + i = 7) = false from decide_eq_false (by omega)]
    simp

/-- `ehci_qtdsDeactivate` writes only qTD records. -/
theorem qtdsDeactivate_eq (ring : List Nat) : ∃ qtds, qtdsDeactivate s ring = { s with qtds := qtds } := by
  induction ring generalizing s with
  | nil => exact ⟨s.qtds, rfl⟩
  | cons q ring ih =>
      obtain ⟨qtds, h⟩ := @ih (s.modifyQtd q fun x =>
        { x with hw := { x.hw with token := clearBits x.hw.token qtdActive } })
      exact ⟨qtds, h⟩

/-- `ehci_qtdsDeactivate` clears the active bit of the qTDs of its ring and
writes no other block. -/
theorem qtdsDeactivate_hw (ring : List Nat) (x : Nat) :
    ((qtdsDeactivate s ring).qtds x).hw = if x ∈ ring then
      { (s.qtds x).hw with token := clearBits (s.qtds x).hw.token qtdActive } else (s.qtds x).hw := by
  induction ring generalizing s with
  | nil => rfl
  | cons q ring ih =>
      rw [qtdsDeactivate, ih]
      by_cases hxq : x = q
      · subst hxq
        simp [clearBits_idem]
      · by_cases hx : x ∈ ring <;> simp [hxq, hx]

/-- `ehci_qtdsCheck` reads only the transfer record and its ring's blocks. -/
theorem qtdsCheck_congr_ring {s' : Hcd} (hTr : s'.trs t = s.trs t)
    (hHw : ∀ q ∈ (s.trs t).hcdpriv, (s'.qtds q).hw = (s.qtds q).hw) :
    qtdsCheck s' t = qtdsCheck s t := by
  have hCount : ((s.trs t).hcdpriv.countP fun q => qtdHasError (s'.qtds q).hw.token) =
      (s.trs t).hcdpriv.countP fun q => qtdHasError (s.qtds q).hw.token :=
    List.countP_congr fun q hq => by rw [hHw q hq]
  unfold qtdsCheck
  rw [hTr]
  cases hLast : (s.trs t).hcdpriv.getLast? with
  | none => simp only [hLast, hCount]
  | some last => simp only [hLast, hCount, hHw last (List.mem_of_getLast?_eq_some hLast)]

/-- Under the ownership invariant no qTD is on the rings of two transfers in
flight. -/
theorem Owned.ring_unique (h : Owned cfg pipeOf s) {x q : Nat} (hx : x ∈ s.transfers)
    (ht : t ∈ s.transfers) (hqx : q ∈ (s.trs x).hcdpriv) (hqt : q ∈ (s.trs t).hcdpriv) : x = t := by
  have hLe := h.qtds.qtds_held.count_le q
  have hPos := List.count_pos_iff.2
    (List.mem_flatMap.2 ⟨x, hx, hqx⟩ : q ∈ s.transfers.flatMap fun y => (s.trs y).hcdpriv)
  simp only [QtdOwners.inFlight, Hcd.qtdOwners] at hLe
  obtain ⟨_, -, -, hUniq⟩ := @exists_unique_ring_of_count s.transfers
    (fun y => (s.trs y).hcdpriv) q (by omega)
  exact (hUniq x hx hqx).trans (hUniq t ht hqt).symm

/-- After the deactivation the cancelled transfer is finished, with the byte
count of its last qTD whatever error bits its ring carries, and every other
transfer in flight is found as before. -/
theorem qtdsCheck_qtdsDeactivate (h : Owned cfg pipeOf s) (ht : t ∈ s.transfers) {last x : Nat}
    (hLast : (s.trs t).hcdpriv.getLast? = some last) (hx : x ∈ s.transfers) :
    qtdsCheck (qtdsDeactivate s (s.trs t).hcdpriv) x = if x = t then
      (true, ((s.trs t).size : Int) - (qtdLen (s.qtds last).hw.token : Int)) else qtdsCheck s x := by
  obtain ⟨qtds, hEq⟩ := @qtdsDeactivate_eq s (s.trs t).hcdpriv
  have hTrs : (qtdsDeactivate s (s.trs t).hcdpriv).trs = s.trs := by rw [hEq]
  split
  · subst x
    have hHw := @qtdsDeactivate_hw s (s.trs t).hcdpriv last
    rw [if_pos (List.mem_of_getLast?_eq_some hLast)] at hHw
    rw [qtdsCheck_of_last_done (hTrs ▸ hLast) (Or.inl (by rw [hHw]; exact clearBits_and_self _ _)),
      hHw, hTrs, qtdLen_clearBits_active]
  · exact qtdsCheck_congr_ring (congrFun hTrs x) fun q hq => by
      rw [qtdsDeactivate_hw, if_neg fun hqt => ‹x ≠ t› (h.ring_unique hx ht hq hqt)]

/-- `ehci_transferDequeue` cancels a transfer in flight: it leaves the
in-flight list, and `usb_transferFinished` gets it once, with `t->size`
minus the byte count of its last qTD, even when a qTD carries an error bit.
The reaper run it starts also retires, in list order and with their status,
the other transfers that were finished already, and only those. -/
theorem transferDequeue_cancels (h : Owned cfg pipeOf s) (ht : t ∈ s.transfers) {last : Nat}
    (hLast : (s.trs t).hcdpriv.getLast? = some last) :
    (transferDequeue cfg s t).transfers =
        s.transfers.filter (fun x => !(decide (x = t) || (qtdsCheck s x).1)) ∧
      (transferDequeue cfg s t).finished = s.finished ++
        (s.transfers.filter fun x => decide (x = t) || (qtdsCheck s x).1).map (fun x => (x,
          if x = t then ((s.trs t).size : Int) - (qtdLen (s.qtds last).hw.token : Int)
          else (qtdsCheck s x).2)) := by
  obtain ⟨qtds, hEq⟩ := @qtdsDeactivate_eq s (s.trs t).hcdpriv
  have hTransfers : (qtdsDeactivate s (s.trs t).hcdpriv).transfers = s.transfers := by rw [hEq]
  have hFinished : (qtdsDeactivate s (s.trs t).hcdpriv).finished = s.finished := by rw [hEq]
  have hNodup : (qtdsDeactivate s (s.trs t).hcdpriv).transfers.Nodup :=
    hTransfers ▸ h.qtds.transfers_nodup
  have hCheck := fun x => @qtdsCheck_qtdsDeactivate cfg pipeOf s t h ht last x hLast
  have hDone : ∀ x ∈ s.transfers, (qtdsCheck (qtdsDeactivate s (s.trs t).hcdpriv) x).1 =
      (decide (x = t) || (qtdsCheck s x).1) := fun x hx => by
    rw [hCheck x hx]
    split <;> simp [*]
  obtain ⟨h1, h2, -⟩ := @foldl_reapIfFinished cfg _ _ hNodup hNodup fun _ hx => hx
  unfold transferDequeue
  rw [transUpdate_eq_transPass hNodup, transPass_fst, h1, h2, hFinished, hTransfers]
  refine ⟨List.filter_congr fun x hx => by simp [hDone x hx, hx], ?_⟩
  rw [List.filter_congr fun x hx => hDone x hx]
  refine congrArg _ (List.map_congr_left fun x hx => ?_)
  rw [hCheck x (List.mem_of_mem_filter hx)]
  split <;> rfl

/-- The three reads of `mixedSubmitted` in flight, after the controller wrote
back the qTD of the second (queue head 2's interrupt read) as done with all
eight bytes moved. -/
def mixedOneDone : Hcd := qtdWriteback mixedSubmitted 1 0

set_option maxRecDepth 4000 in
/-- Cancelling the first read there retires it with no byte transferred and,
in the same reaper pass, the completed one with its eight bytes, and leaves
the bulk read in flight. -/
theorem cancel_first_of_three_reads :
    Owned sampleConfig mixedPipeOf mixedOneDone ∧ mixedOneDone.transfers = [1, 2, 0] ∧
      (transferDequeue sampleConfig mixedOneDone 1).transfers = [0] ∧
      (transferDequeue sampleConfig mixedOneDone 1).finished = [(1, 0), (2, 8)] := by
  have h := (mixedSubmitted_run.writeback 1 0).transferRun.owned
  have hc := transferDequeue_cancels h (show 1 ∈ mixedOneDone.transfers by decide)
    (show (mixedOneDone.trs 1).hcdpriv.getLast? = some 0 by decide)
  exact ⟨h, by decide, hc.1.trans (by decide), hc.2.trans (by decide)⟩

end Cancel

section Completions

variable {cfg : Config} {va2pa : Nat → Nat} {pipeOf : Nat → Nat} {s : Hcd}

/-- The submissions of transfer `t` the driver accounts for: the reports
`usb_transferFinished` got, and the one in flight. -/
def Hcd.tally (s : Hcd) (t : Nat) : Nat :=
  s.finished.countP (fun e => e.1 = t) + if t ∈ s.transfers then 1 else 0

/-- The reaper moves each transfer it retires from the in-flight list to the
reports, once. -/
theorem tally_transUpdate (hNodup : s.transfers.Nodup) (x : Nat) :
    (transUpdate cfg s).tally x = s.tally x := by
  obtain ⟨h1, h2, -⟩ := @foldl_reapIfFinished cfg s s.transfers hNodup hNodup fun _ h => h
  have hCount : ((s.transfers.filter fun y => (qtdsCheck s y).1).map
      fun y => (y, (qtdsCheck s y).2)).countP (fun e => e.1 = x) =
      if x ∈ s.transfers ∧ (qtdsCheck s x).1 = true then 1 else 0 := by
    rw [List.countP_map]
    split
    · rename_i hx
      exact List.count_eq_one_of_mem (hNodup.filter _) (List.mem_filter.2 ⟨hx.1, by simp [hx.2]⟩)
    · rename_i hx
      refine List.countP_eq_zero.2 fun y hy hyx => hx ?_
      simp only [Function.comp_apply, decide_eq_true_eq] at hyx
      subst hyx
      exact ⟨List.mem_of_mem_filter hy, by simpa using (List.mem_filter.1 hy).2⟩
  unfold Hcd.tally
  rw [transUpdate_eq_transPass hNodup, transPass_fst, h1, h2, List.countP_append, hCount]
  by_cases hx : x ∈ s.transfers <;> cases hc : (qtdsCheck s x).1 <;> simp [hx, hc, List.mem_filter]

theorem qhAlloc_finished {s₁ : Hcd} {q : Nat} (h : qhAlloc s = some (s₁, q)) :
    s₁.finished = s.finished := by
  obtain ⟨qhs, hEq, -⟩ := qhAlloc_eq h
  rw [hEq]

/-- Finding or making the queue head reports nothing. -/
theorem pipeQh_finished {s₁ : Hcd} {tr : Transfer} {pipe qh : Nat}
    (h : pipeQh cfg s tr pipe = some (s₁, qh)) : s₁.finished = s.finished := by
  unfold pipeQh at h
  dsimp only at h
  split at h
  · split at h
    · cases h
    rename_i s₂ q₂ hAlloc
    obtain ⟨rfl, rfl⟩ := Prod.mk.inj (Option.some.inj h)
    obtain ⟨qhs, nodes, list, hEq⟩ : Relinked ((s₂.modifyQh q₂ fun x =>
        qhConf x (s.pipes pipe)).modifyPipe pipe fun x => { x with hcdpriv := some q₂ }) _ :=
      Relinked.ite (c := tr.type = .bulk ∨ tr.type = .control) relinked_qhLinkAsync
        (relinked_qhLinkPeriodic cfg.periodicSize)
    have hFin := qhAlloc_finished hAlloc
    rw [hEq]
    exact hFin
  · obtain ⟨rfl, rfl⟩ := Prod.mk.inj (Option.some.inj h)
    split_ifs <;> rfl

theorem enqueue_finished {qh first last : Nat} : (enqueue s qh first last).finished = s.finished := by
  unfold enqueue
  dsimp only
  split <;> rfl

/-- `ehci_transferEnqueue` reports nothing, and either leaves the in-flight
list or puts the transfer at its end. -/
theorem transferEnqueue_ledger {t pipe : Nat} (h : Owned cfg pipeOf s) :
    (transferEnqueue cfg va2pa s t pipe).1.finished = s.finished ∧
      ((transferEnqueue cfg va2pa s t pipe).1.transfers = s.transfers ∨
        (transferEnqueue cfg va2pa s t pipe).1.transfers = s.transfers ++ [t]) := by
  unfold transferEnqueue
  split
  · exact ⟨rfl, .inl rfl⟩
  split
  · exact ⟨rfl, .inl rfl⟩
  rename_i s₁ qh hQh
  have hFin := pipeQh_finished hQh
  have hTr := (pipeQh_frame hQh).2.2.1
  obtain ⟨h₁, -, -⟩ := pipeQh_owned h hQh
  dsimp only
  rcases @transferQtds_stages cfg va2pa s₁ _ t (s₁.pipes pipe) h₁.qtds.qtds_held
    h₁.qtds.bound with ⟨s', L, hb, hEq⟩ | ⟨hb, hOk⟩
  · have hNeg : (stageFail cfg s' t L).2.2 < 0 := by simp [stageFail, eNomem]
    rw [hEq, if_pos hNeg]
    obtain ⟨qtds, c, pool, n, mem, rfl⟩ := hb.frame
    obtain ⟨qtds', pool', n', hPut⟩ := @qtdsPut_eq cfg
      { s₁ with qtds := qtds, qtdCount := c, qtdPool := pool, nqtds := n, memory := mem } L
    simp only [stageFail, Hcd.modifyTr_finished, Hcd.modifyTr_transfers, hPut]
    exact ⟨hFin, .inl hTr⟩
  rw [if_neg hOk]
  obtain ⟨qtds, c, pool, n, mem, hFrame⟩ := hb.frame
  split
  · rw [hFrame]
    exact ⟨hFin, .inl hTr⟩
  · rename_i first rest _
    obtain ⟨⟨qtds', hLink⟩, -⟩ := qtdsLink_spec qh first
      ((transferQtds cfg va2pa s₁ t (s₁.pipes pipe)).1.modifyTr t fun x =>
        { x with hcdpriv := first :: rest }) (first :: rest)
    rw [enqueue_finished, enqueue_transfers, hLink]
    simp only [Hcd.modifyTr_finished, Hcd.modifyTr_transfers, hFrame]
    exact ⟨hFin, .inr (by rw [hTr])⟩

theorem tally_qhPut {q : Nat} : (qhPut cfg s q).tally = s.tally := by
  obtain ⟨qhs, pool, n, hEq, -⟩ := qhPut_eq cfg s q
  rw [hEq]
  rfl

theorem Relinked.tally_eq {t : Hcd} (h : Relinked s t) : t.tally = s.tally := by
  obtain ⟨qhs, nodes, list, rfl⟩ := h
  rfl

theorem deactivateOn_eq (qh : Nat) (ts : List Nat) :
    ∃ qtds, deactivateOn s qh ts = { s with qtds := qtds } := by
  induction ts generalizing s with
  | nil => exact ⟨s.qtds, rfl⟩
  | cons t ts ih =>
      rw [deactivateOn]
      split
      · split
        · obtain ⟨qtds, hq⟩ := @qtdsDeactivate_eq s (s.trs t).hcdpriv
          obtain ⟨qtds', h⟩ := @ih (qtdsDeactivate s (s.trs t).hcdpriv)
          exact ⟨qtds', h.trans (by rw [hq])⟩
        · exact ih
      · exact ih

/-- `ehci_pipeDestroy` reports the transfers it reaps and takes them out of
flight, and no other. -/
theorem tally_pipeDestroy (hNodup : s.transfers.Nodup) (pipe : Nat) :
    (pipeDestroy cfg s pipe).tally = s.tally := by
  unfold pipeDestroy
  dsimp only
  split
  · rfl
  rename_i qh _
  generalize hu : (if (s.pipes pipe).type = .bulk ∨ (s.pipes pipe).type = .control then
      qhUnlinkAsync s qh else if (s.pipes pipe).type = .interrupt then
      qhUnlinkPeriodic cfg.periodicSize s qh else s) = u
  have hRel : Relinked s u := by
    rw [← hu]
    obtain ⟨qhs, hA⟩ := @qhUnlinkAsync_eq s qh
    exact Relinked.ite (hA ▸ ⟨qhs, s.periodicNodes, s.periodicList, rfl⟩)
      (Relinked.ite relinked_qhUnlinkPeriodic (Relinked.refl s))
  have hTr : u.transfers = s.transfers := by
    obtain ⟨qhs, nodes, list, rfl⟩ := hRel
    rfl
  rw [tally_qhPut, ← hRel.tally_eq]
  split
  · rfl
  · obtain ⟨qtds, hD⟩ := @deactivateOn_eq u qh u.transfers
    funext x
    show (transUpdate cfg (deactivateOn u qh u.transfers)).tally x = u.tally x
    rw [hD, tally_transUpdate (by rw [show ({ u with qtds := qtds } : Hcd).transfers = s.transfers from hTr]; exact hNodup)]
    rfl

end Completions

/-- The runs of `TransferRun`, counting for every transfer how often
`ehci_transferEnqueue` put it in flight. -/
inductive CountedRun (cfg : Config) (va2pa : Nat → Nat) :
    Hcd → (Nat → Nat) → (Nat → Nat) → Prop where
  | init (trs : Nat → Transfer) (pipes : Nat → Pipe) (memory : Nat)
      (hPipes : ∀ p, (pipes p).hcdpriv = none) :
      CountedRun cfg va2pa (ehciInit trs pipes memory) (fun _ => 0) fun _ => 0
  | enqueue {s : Hcd} {pipeOf n : Nat → Nat} (t pipe : Nat)
      (prior : CountedRun cfg va2pa s pipeOf n) (hIdle : t ∉ s.transfers) :
      CountedRun cfg va2pa (transferEnqueue cfg va2pa s t pipe).1 (Function.update pipeOf t pipe)
        (if t ∈ (transferEnqueue cfg va2pa s t pipe).1.transfers then Function.update n t (n t + 1)
          else n)
  | update {s : Hcd} {pipeOf n : Nat → Nat} (prior : CountedRun cfg va2pa s pipeOf n) :
      CountedRun cfg va2pa (transUpdate cfg s) pipeOf n
  | dequeue {s : Hcd} {pipeOf n : Nat → Nat} (t : Nat) (prior : CountedRun cfg va2pa s pipeOf n) :
      CountedRun cfg va2pa (transferDequeue cfg s t) pipeOf n
  | destroy {s : Hcd} {pipeOf n : Nat → Nat} (pipe : Nat)
      (prior : CountedRun cfg va2pa s pipeOf n) :
      CountedRun cfg va2pa (pipeDestroy cfg s pipe) pipeOf n
  | writeback {s : Hcd} {pipeOf n : Nat → Nat} (q token : Nat)
      (prior : CountedRun cfg va2pa s pipeOf n) :
      CountedRun cfg va2pa (qtdWriteback s q token) pipeOf n
  | overlay {s : Hcd} {pipeOf n : Nat → Nat} (qh : Nat) (hw : QhHw)
      (prior : CountedRun cfg va2pa s pipeOf n) :
      CountedRun cfg va2pa (s.modifyQh qh fun x => { x with hw := hw }) pipeOf n
  | fill {s : Hcd} {pipeOf n : Nat → Nat} (t : Nat) (tr : Transfer)
      (prior : CountedRun cfg va2pa s pipeOf n) :
      CountedRun cfg va2pa (s.modifyTr t fun x => { tr with hcdpriv := x.hcdpriv }) pipeOf n
  | configure {s : Hcd} {pipeOf n : Nat → Nat} (pipe : Nat) (p : Pipe)
      (prior : CountedRun cfg va2pa s pipeOf n) :
      CountedRun cfg va2pa (s.modifyPipe pipe fun x => { p with hcdpriv := x.hcdpriv }) pipeOf n
  | grant {s : Hcd} {pipeOf n : Nat → Nat} (memory : Nat)
      (prior : CountedRun cfg va2pa s pipeOf n) :
      CountedRun cfg va2pa { s with memory := memory } pipeOf n

section Counted

variable {cfg : Config} {va2pa : Nat → Nat} {s : Hcd} {pipeOf n : Nat → Nat}

/-- The counts constrain nothing: the counted runs are the runs. -/
theorem CountedRun.transferRun (run : CountedRun cfg va2pa s pipeOf n) :
    TransferRun cfg va2pa s pipeOf := by
  induction run with
  | init trs pipes memory hPipes => exact .init trs pipes memory hPipes
  | enqueue t pipe _ hIdle ih => exact .enqueue t pipe ih hIdle
  | update _ ih => exact .update ih
  | dequeue t _ ih => exact .dequeue t ih
  | destroy pipe _ ih => exact .destroy pipe ih
  | writeback q token _ ih => exact .writeback q token ih
  | overlay qh hw _ ih => exact .overlay qh hw ih
  | fill t tr _ ih => exact .fill t tr ih
  | configure pipe p _ ih => exact .configure pipe p ih
  | grant memory _ ih => exact .grant memory ih

theorem TransferRun.counted (run : TransferRun cfg va2pa s pipeOf) :
    ∃ n, CountedRun cfg va2pa s pipeOf n := by
  induction run with
  | init trs pipes memory hPipes => exact ⟨_, .init trs pipes memory hPipes⟩
  | enqueue t pipe _ hIdle ih => exact ih.elim fun _ h => ⟨_, .enqueue t pipe h hIdle⟩
  | update _ ih => exact ih.elim fun _ h => ⟨_, .update h⟩
  | dequeue t _ ih => exact ih.elim fun _ h => ⟨_, .dequeue t h⟩
  | destroy pipe _ ih => exact ih.elim fun _ h => ⟨_, .destroy pipe h⟩
  | writeback q token _ ih => exact ih.elim fun _ h => ⟨_, .writeback q token h⟩
  | overlay qh hw _ ih => exact ih.elim fun _ h => ⟨_, .overlay qh hw h⟩
  | fill t tr _ ih => exact ih.elim fun _ h => ⟨_, .fill t tr h⟩
  | configure pipe p _ ih => exact ih.elim fun _ h => ⟨_, .configure pipe p h⟩
  | grant memory _ ih => exact ih.elim fun _ h => ⟨_, .grant memory h⟩

/-- A submission puts the transfer in flight or leaves the tally as it was. -/
theorem tally_transferEnqueue {t pipe : Nat} (h : Owned cfg pipeOf s) (hIdle : t ∉ s.transfers)
    (x : Nat) : (transferEnqueue cfg va2pa s t pipe).1.tally x =
      s.tally x + if x = t ∧ t ∈ (transferEnqueue cfg va2pa s t pipe).1.transfers then 1 else 0 := by
  obtain ⟨hFin, hTr | hTr⟩ := @transferEnqueue_ledger cfg va2pa pipeOf s t pipe h
  all_goals
    unfold Hcd.tally
    rw [hFin, hTr]
    by_cases hx : x = t
  · simp [hx, hIdle]
  · simp [hx]
  · simp [hx, hIdle]
  · simp [hx]

/-- In every run, the submissions of each transfer are accounted for once:
the reports `usb_transferFinished` got for it, and the one in flight, add up
to the number of times `ehci_transferEnqueue` put it in flight. No submission
is lost, and none is reported twice. -/
theorem completions_match_submissions (run : CountedRun cfg va2pa s pipeOf n) :
    ∀ t, s.finished.countP (fun e => e.1 = t) + (if t ∈ s.transfers then 1 else 0) = n t := by
  suffices h : s.tally = n from congrFun h
  induction run with
  | init => rfl
  | @enqueue s pipeOf n t pipe prior hIdle ih =>
      funext x
      rw [tally_transferEnqueue prior.transferRun.owned hIdle, ih]
      by_cases hIn : t ∈ (transferEnqueue cfg va2pa s t pipe).1.transfers
      · by_cases hx : x = t
        · subst hx
          simp [hIn]
        · simp [hIn, hx]
      · simp [hIn]
  | update prior ih =>
      rw [← ih]
      funext x
      exact tally_transUpdate prior.transferRun.owned.qtds.transfers_nodup x
  | @dequeue s pipeOf n t prior ih =>
      rw [← ih]
      obtain ⟨qtds, hq⟩ := @qtdsDeactivate_eq s (s.trs t).hcdpriv
      funext x
      unfold transferDequeue
      rw [hq]
      exact tally_transUpdate (show ({ s with qtds := qtds } : Hcd).transfers.Nodup from
        prior.transferRun.owned.qtds.transfers_nodup) x
  | destroy pipe prior ih =>
      rw [← ih]
      exact tally_pipeDestroy prior.transferRun.owned.qtds.transfers_nodup pipe
  | writeback | overlay | fill | configure | grant => assumption

/-- Submitting a bulk read and cancelling it: it was put in flight once and
is reported once. -/
theorem cancelled_read_reported_once :
    ∃ n, CountedRun sampleConfig id (transferDequeue sampleConfig bulkSubmitted 0)
        (Function.update (fun _ => 0) 0 0) n ∧ n 0 = 1 ∧
      (transferDequeue sampleConfig bulkSubmitted 0).finished.countP (fun e => e.1 = 0) +
        (if 0 ∈ (transferDequeue sampleConfig bulkSubmitted 0).transfers then 1 else 0) = n 0 := by
  have run : CountedRun sampleConfig id (transferDequeue sampleConfig bulkSubmitted 0)
      (Function.update (fun _ => 0) 0 0)
      (if 0 ∈ bulkSubmitted.transfers then Function.update (fun _ => 0) 0 1 else fun _ => 0) :=
    .dequeue 0 (.enqueue 0 0 (.init _ _ 8 fun _ => rfl) (List.not_mem_nil 0))
  exact ⟨_, run, by decide, completions_match_submissions run 0⟩

end Counted

end Ehci
