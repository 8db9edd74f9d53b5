import Ehci.Ownership

/-! Runs of the driver from `ehci_init`: the calls of the USB stack, the
controller's write-backs and the system allocator, interleaved in any order,
and the ownership of descriptors in every state they reach. -/
namespace Ehci

/-- The states reachable from `ehci_init`, with the pipe each transfer was
last submitted on. Besides the driver's entry points, the controller writes
back qTD tokens and queue-head overlays, the USB stack fills transfer records
and reconfigures pipes, and the allocator may grant any number of further
records. -/
inductive TransferRun (cfg : Config) (va2pa : Nat → Nat) : Hcd → (Nat → Nat) → Prop where
  | init (trs : Nat → Transfer) (pipes : Nat → Pipe) (memory : Nat)
      (hPipes : ∀ p, (pipes p).hcdpriv = none) :
      TransferRun cfg va2pa (ehciInit trs pipes memory) fun _ => 0
  | enqueue {s : Hcd} {pipeOf : Nat → Nat} (t pipe : Nat)
      (prior : TransferRun cfg va2pa s pipeOf) (hIdle : t ∉ s.transfers) :
      TransferRun cfg va2pa (transferEnqueue cfg va2pa s t pipe).1 (Function.update pipeOf t pipe)
  | update {s : Hcd} {pipeOf : Nat → Nat} (prior : TransferRun cfg va2pa s pipeOf) :
      TransferRun cfg va2pa (transUpdate cfg s) pipeOf
  | dequeue {s : Hcd} {pipeOf : Nat → Nat} (t : Nat) (prior : TransferRun cfg va2pa s pipeOf) :
      TransferRun cfg va2pa (transferDequeue cfg s t) pipeOf
  | destroy {s : Hcd} {pipeOf : Nat → Nat} (pipe : Nat)
      (prior : TransferRun cfg va2pa s pipeOf) :
      TransferRun cfg va2pa (pipeDestroy cfg s pipe) pipeOf
  | writeback {s : Hcd} {pipeOf : Nat → Nat} (q token : Nat)
      (prior : TransferRun cfg va2pa s pipeOf) :
      TransferRun cfg va2pa (qtdWriteback s q token) pipeOf
  | overlay {s : Hcd} {pipeOf : Nat → Nat} (qh : Nat) (hw : QhHw)
      (prior : TransferRun cfg va2pa s pipeOf) :
      TransferRun cfg va2pa (s.modifyQh qh fun x => { x with hw := hw }) pipeOf
  | fill {s : Hcd} {pipeOf : Nat → Nat} (t : Nat) (tr : Transfer)
      (prior : TransferRun cfg va2pa s pipeOf) :
      TransferRun cfg va2pa (s.modifyTr t fun x => { tr with hcdpriv := x.hcdpriv }) pipeOf
  | configure {s : Hcd} {pipeOf : Nat → Nat} (pipe : Nat) (p : Pipe)
      (prior : TransferRun cfg va2pa s pipeOf) :
      TransferRun cfg va2pa (s.modifyPipe pipe fun x => { p with hcdpriv := x.hcdpriv }) pipeOf
  | grant {s : Hcd} {pipeOf : Nat → Nat} (memory : Nat) (prior : TransferRun cfg va2pa s pipeOf) :
      TransferRun cfg va2pa { s with memory := memory } pipeOf

section Runs

variable {cfg : Config} {va2pa : Nat → Nat} {s : Hcd} {pipeOf : Nat → Nat}

/-- `ehci_init` leaves only the async dummy, with empty pools and no transfer
in flight. -/
theorem ehciInit_owned (trs : Nat → Transfer) (pipes : Nat → Pipe) (memory : Nat)
    (hPipes : ∀ p, (pipes p).hcdpriv = none) :
    Owned cfg (fun _ => 0) (ehciInit trs pipes memory) where
  qhs :=
    { async_lt := Nat.zero_lt_one
      qhPool_nodup := List.nodup_nil
      qhPool_free := fun _ h => absurd h (List.not_mem_nil _)
      pipe_qh := fun p _ h => by simp [Hcd.qhOwners, ehciInit, hPipes p] at h
      qh_held := fun q hq _ hA => absurd (Nat.lt_one_iff.1 hq) hA
      nqhs_eq := rfl
      qhPool_le := Nat.zero_le _ }
  qtds :=
    { qtds_held := fun q => by simp [Hcd.qtdOwners, QtdOwners.inFlight, ehciInit]
      bound := ⟨rfl, Nat.zero_le _⟩
      transfers_nodup := List.nodup_nil
      ring_ne_nil := fun _ h => absurd h (List.not_mem_nil _)
      ring_qh := fun _ h => absurd h (List.not_mem_nil _) }

/-- Every reachable state satisfies the ownership invariant. -/
theorem TransferRun.owned (run : TransferRun cfg va2pa s pipeOf) : Owned cfg pipeOf s := by
  induction run with
  | init trs pipes memory hPipes => exact ehciInit_owned trs pipes memory hPipes
  | enqueue t pipe _ hIdle ih => exact transferEnqueue_owned ih hIdle
  | update _ ih => exact transUpdate_owned ih
  | dequeue t _ ih => exact transferDequeue_owned ih t
  | destroy pipe _ ih => exact pipeDestroy_owned ih
  | writeback q token _ ih => exact ih.of_owners (owners_qtdWriteback token)
  | overlay qh hw _ ih => exact ih.of_owners (Hcd.owners_modifyQh fun _ => rfl)
  | fill t tr _ ih => exact ih.of_owners (Hcd.owners_modifyTr fun _ => rfl)
  | configure pipe p _ ih => exact ih.of_owners (Hcd.owners_modifyPipe fun _ => rfl)
  | grant memory _ ih => exact ih.of_owners rfl

end Runs

/-- Ownership of descriptors as the driver keeps it: every allocated,
unfreed qTD is pooled once or on the ring of exactly one in-flight transfer,
once, and then belongs to that transfer's pipe's queue head; every allocated,
unfreed queue head but the async dummy is pooled once or held by exactly one
pipe; nothing else is pooled or held; and the pools' counters are their
lengths, within their caps. -/
structure DescriptorsOwned (cfg : Config) (pipeOf : Nat → Nat) (s : Hcd) : Prop where
  qtd_placed : ∀ q, q < s.qtdCount → (s.qtds q).live = true →
    (s.qtdPool.count q = 1 ∧ ∀ t ∈ s.transfers, q ∉ (s.trs t).hcdpriv) ∨
    (q ∉ s.qtdPool ∧ ∃ t ∈ s.transfers, (s.trs t).hcdpriv.count q = 1 ∧
      (∀ t' ∈ s.transfers, q ∈ (s.trs t').hcdpriv → t' = t) ∧
      (s.qtds q).qh ≠ none ∧ (s.qtds q).qh = (s.pipes (pipeOf t)).hcdpriv)
  qtd_allocated : ∀ q, (q ∈ s.qtdPool ∨ ∃ t ∈ s.transfers, q ∈ (s.trs t).hcdpriv) →
    q < s.qtdCount ∧ (s.qtds q).live = true
  qh_placed : ∀ q, q < s.qhCount → (s.qhs q).live = true → q ≠ s.asyncList →
    (s.qhPool.count q = 1 ∧ ∀ p, (s.pipes p).hcdpriv ≠ some q) ∨
    (q ∉ s.qhPool ∧ ∃! p, (s.pipes p).hcdpriv = some q)
  qh_allocated : ∀ q, (q ∈ s.qhPool ∨ ∃ p, (s.pipes p).hcdpriv = some q) →
    q < s.qhCount ∧ (s.qhs q).live = true ∧ q ≠ s.asyncList
  nqtds_eq : s.nqtds = s.qtdPool.length
  qtdPool_le : s.qtdPool.length ≤ cfg.maxQtdPool
  nqhs_eq : s.nqhs = s.qhPool.length
  qhPool_le : s.qhPool.length ≤ cfg.maxQhPool

/-- A record held once by a list of rings is on exactly one of them, once. -/
theorem exists_unique_ring_of_count {ts : List Nat} {f : Nat → List Nat} {q : Nat}
    (h : (ts.flatMap f).count q = 1) :
    ∃ t ∈ ts, (f t).count q = 1 ∧ ∀ t' ∈ ts, q ∈ f t' → t' = t := by
  induction ts with
  | nil => simp at h
  | cons t ts ih =>
      rw [List.flatMap_cons, List.count_append] at h
      by_cases ht : (f t).count q = 1
      · refine ⟨t, List.mem_cons_self t ts, ht, fun t' ht' hq => ?_⟩
        rcases List.mem_cons.1 ht' with rfl | ht'
        · rfl
        · have := List.count_pos_iff.2 (List.mem_flatMap.2 ⟨t', ht', hq⟩)
          omega
      · obtain ⟨t', ht', h1, h2⟩ := ih (by omega)
        refine ⟨t', List.mem_cons_of_mem t ht', h1, fun t'' ht'' hq => ?_⟩
        rcases List.mem_cons.1 ht'' with rfl | ht''
        · have := List.count_pos_iff.2 hq
          omega
        · exact h2 t'' ht'' hq

/-- The invariant, read as the ownership of descriptors. -/
theorem Owned.descriptors {cfg : Config} {pipeOf : Nat → Nat} {s : Hcd}
    (h : Owned cfg pipeOf s) : DescriptorsOwned cfg pipeOf s where
  qtd_placed q hq hLive := by
    have hq1 :
        s.qtdPool.count q + (s.transfers.flatMap fun t => (s.trs t).hcdpriv).count q = 1 := by
      have := h.qtds.qtds_held q
      rwa [if_pos ⟨hq, hLive⟩] at this
    by_cases hPool : s.qtdPool.count q = 1
    · refine Or.inl ⟨hPool, fun t ht hqt => ?_⟩
      have : q ∈ s.transfers.flatMap fun t => (s.trs t).hcdpriv :=
        List.mem_flatMap.2 ⟨t, ht, hqt⟩
      have := List.count_pos_iff.2 this
      omega
    · obtain ⟨t, ht, h1, h2⟩ := exists_unique_ring_of_count (show
        (s.transfers.flatMap fun t => (s.trs t).hcdpriv).count q = 1 by omega)
      obtain ⟨qh, hp, hAll⟩ := h.qtds.ring_qh t ht
      have hqh : (s.qtds q).qh = some qh :=
        hAll q (List.count_pos_iff.1 (by simp only [Hcd.qtdOwners]; omega))
      refine Or.inr ⟨fun hq' => ?_, t, ht, h1, h2, by simp [hqh], hqh.trans hp.symm⟩
      have := List.count_pos_iff.2 hq'
      omega
  qtd_allocated q hq := h.qtds.qtds_held.live (by
    rcases hq with hq | ⟨t, ht, hqt⟩
    · have := List.count_pos_iff.2 hq
      simp only [Hcd.qtdOwners]
      omega
    · have : q ∈ s.transfers.flatMap fun t => (s.trs t).hcdpriv :=
        List.mem_flatMap.2 ⟨t, ht, hqt⟩
      have := List.count_pos_iff.2 this
      simp only [Hcd.qtdOwners, QtdOwners.inFlight]
      omega)
  qh_placed q hq hLive hA := by
    by_cases hPool : q ∈ s.qhPool
    · exact Or.inl ⟨List.count_eq_one_of_mem h.qhs.qhPool_nodup hPool,
        (h.qhs.qhPool_free q hPool).2.2.2⟩
    · obtain ⟨p, hp⟩ := (h.qhs.qh_held q hq hLive hA).resolve_left hPool
      exact Or.inr ⟨hPool, p, hp, fun p' hp' => (h.qhs.pipe_qh p q hp).2.2.2 p' hp'⟩
  qh_allocated q hq := by
    rcases hq with hq | ⟨p, hp⟩
    · exact (h.qhs.qhPool_free q hq).imp_right fun h => ⟨h.1, h.2.1⟩
    · exact (h.qhs.pipe_qh p q hp).imp_right fun h => ⟨h.1, h.2.1⟩
  nqtds_eq := h.qtds.bound.1
  qtdPool_le := h.qtds.bound.2
  nqhs_eq := h.qhs.nqhs_eq
  qhPool_le := h.qhs.qhPool_le

/-- Over every run of submissions (successful or failing), reaping,
cancellation and pipe destruction, interleaved with the controller and the
allocator, the driver keeps the ownership of its descriptors. -/
theorem descriptors_owned {cfg : Config} {va2pa : Nat → Nat} {s : Hcd} {pipeOf : Nat → Nat}
    (run : TransferRun cfg va2pa s pipeOf) : DescriptorsOwned cfg pipeOf s :=
  run.owned.descriptors

theorem descriptors_owned_after_submit :
    TransferRun sampleConfig id (transferEnqueue sampleConfig id
        (ehciInit (fun _ => bulkIn 0x1000 8) (fun _ => bulkPipe) 8) 0 0).1
      (Function.update (fun _ => 0) 0 0) ∧
    DescriptorsOwned sampleConfig (Function.update (fun _ => 0) 0 0) (transferEnqueue sampleConfig id
        (ehciInit (fun _ => bulkIn 0x1000 8) (fun _ => bulkPipe) 8) 0 0).1 :=
  ⟨.enqueue 0 0 (.init _ _ 8 fun _ => rfl) (List.not_mem_nil 0),
    descriptors_owned (.enqueue 0 0 (.init _ _ 8 fun _ => rfl) (List.not_mem_nil 0))⟩

/-- A bulk read of 8 bytes whose only qTD the controller halts with BABBLE:
`ehci_qtdsCheck` counts the error, then the byte-count branch overwrites the
status, and `usb_transferFinished` receives 8. -/
theorem reaper_babble_reported_as_bytes :
    ∃ s, TransferRun sampleConfig id s (Function.update (fun _ => 0) 0 0) ∧ s.transfers = [0] ∧
      (s.trs 0).hcdpriv = [0] ∧ qtdHasError (s.qtds 0).hw.token = true ∧
      (transUpdate sampleConfig s).finished = [(0, 8)] :=
  ⟨_, .writeback 0 (qtdBabble ||| qtdHalted) (.enqueue 0 0
    (.init (fun _ => bulkIn 0x1000 8) (fun _ => bulkPipe) 8 fun _ => rfl) (List.not_mem_nil 0)),
    by decide⟩

/-- Two bulk reads submitted on one pipe, then the newer cancelled:
`ehci_continue` finds the cancelled transfer's last qTD in `lastQtd` and marks
the queue head idle, although the older transfer is still in flight on it. -/
theorem dequeue_newer_clears_cursor :
    ∃ s, TransferRun sampleConfig id s (Function.update (Function.update (fun _ => 0) 0 0) 1 0) ∧
      s.transfers = [0] ∧ (s.trs 0).hcdpriv = [0] ∧ (s.qtds 0).qh = some 1 ∧
      (s.qhs 1).lastQtd = none ∧ (s.qhs 1).hw.nextQtd = qtdPtrInvalid ∧
      (s.qtds 0).hw.next = qtdPtr 1 :=
  ⟨_, .dequeue 1 (.enqueue 1 0 (.enqueue 0 0
    (.init (fun _ => bulkIn 0x1000 8) (fun _ => bulkPipe) 8 fun _ => rfl) (List.not_mem_nil 0))
    (by decide)), by decide⟩

/-- In the same run the older transfer's last qTD still points at the
cancelled transfer's qTD, which is back in the free pool: the controller can
follow the in-flight ring of the queue head into a pooled qTD. -/
theorem dequeue_newer_exposes_pooled_qtd :
    ∃ s, TransferRun sampleConfig id s (Function.update (Function.update (fun _ => 0) 0 0) 1 0) ∧
      0 ∈ s.transfers ∧ (s.trs 0).hcdpriv = [0] ∧ (s.qtds 0).qh = some 1 ∧
      (s.qtds 0).hw.next = qtdPtr 1 ∧ 1 ∈ s.qtdPool ∧ ∀ t ∈ s.transfers, 1 ∉ (s.trs t).hcdpriv :=
  ⟨_, .dequeue 1 (.enqueue 1 0 (.enqueue 0 0
    (.init (fun _ => bulkIn 0x1000 8) (fun _ => bulkPipe) 8 fun _ => rfl) (List.not_mem_nil 0))
    (by decide)), by decide⟩

/-- Submitting a second bulk read on a pipe with one in flight, and cancelling
it at once: the in-flight list comes back, the cancelled read completes once
and its qTD is pooled, but the queue head's cursor and `nextQtd` are reset
and the older read's last qTD still points at the pooled qTD, where before
the submission they were the older read's ring and `QTD_PTR_INVALID`. -/
theorem enqueue_dequeue_round_trip_diverges :
    ∃ s s', TransferRun sampleConfig id s (Function.update (fun _ => 0) 0 0) ∧
      transferEnqueue sampleConfig id s 1 0 = (s', 0) ∧
      (transferDequeue sampleConfig s' 1).transfers = s.transfers ∧
      (transferDequeue sampleConfig s' 1).finished = s.finished ++ [(1, 0)] ∧
      1 ∈ (transferDequeue sampleConfig s' 1).qtdPool ∧
      (s.qhs 1).lastQtd = some 0 ∧ ((transferDequeue sampleConfig s' 1).qhs 1).lastQtd = none ∧
      (s.qhs 1).hw.nextQtd = qtdPtr 0 ∧
      ((transferDequeue sampleConfig s' 1).qhs 1).hw.nextQtd = qtdPtrInvalid ∧
      (s.qtds 0).hw.next = qtdPtrInvalid ∧
      ((transferDequeue sampleConfig s' 1).qtds 0).hw.next = qtdPtr 1 :=
  ⟨_, _, .enqueue 0 0
    (.init (fun _ => bulkIn 0x1000 8) (fun _ => bulkPipe) 8 fun _ => rfl) (List.not_mem_nil 0),
    Prod.ext rfl (by decide), by decide⟩

end Ehci
