import Ehci.Run

/-! The cursor `lastQtd` of each queue head across whole runs. `ehci_enqueue`
writes `first->paddr` into the `next` of the qTD the cursor names, so the
cursor must never name a qTD of the ring being queued. The invariant: a set
cursor is the last qTD of a transfer in flight, and that qTD belongs to the
queue head. Clearing a cursor keeps it; only `ehci_enqueue` sets one. -/
namespace Ehci

namespace Hcd

/-- The cursor of every queue head. -/
def cursors (s : Hcd) (x : Nat) : Option Nat := (s.qhs x).lastQtd

/-- The words of every queue head that queue qTDs on it: the cursor and the
overlay's `nextQtd`. Linking and unlinking queue heads leaves them. -/
def queueWords (s : Hcd) (x : Nat) : Option Nat × Nat := ((s.qhs x).lastQtd, (s.qhs x).hw.nextQtd)

variable {s : Hcd} {q : Nat}

/-- A queue-head write that keeps `lastQtd` keeps every cursor. -/
theorem cursors_modifyQh {f : Qh → Qh} (hf : ∀ x, (f x).lastQtd = x.lastQtd) :
    (s.modifyQh q f).cursors = s.cursors := by
  funext x
  by_cases hx : x = q
  · subst hx
    simp [cursors, hf]
  · simp [cursors, Function.update_noteq hx]

/-- A queue-head write that keeps `lastQtd` and the overlay's `nextQtd` keeps
the queue words. -/
theorem queueWords_modifyQh {f : Qh → Qh} (hf : ∀ x, (f x).lastQtd = x.lastQtd)
    (hf' : ∀ x, (f x).hw.nextQtd = x.hw.nextQtd) : (s.modifyQh q f).queueWords = s.queueWords := by
  funext x
  by_cases hx : x = q
  · subst hx
    simp [queueWords, hf, hf']
  · simp [queueWords, Function.update_noteq hx]

/-- qTD writes leave the cursors. -/
@[simp]
theorem cursors_modifyQtd {f : Qtd → Qtd} : (s.modifyQtd q f).cursors = s.cursors := rfl

/-- Transfer writes leave the cursors. -/
@[simp]
theorem cursors_modifyTr {f : Transfer → Transfer} : (s.modifyTr q f).cursors = s.cursors := rfl

/-- Pipe writes leave the cursors. -/
@[simp]
theorem cursors_modifyPipe {f : Pipe → Pipe} : (s.modifyPipe q f).cursors = s.cursors := rfl

/-- Frame-list writes leave the cursors. -/
@[simp]
theorem cursors_slots {nodes : Nat → Option Nat} {list : Nat → Nat} :
    ({ s with periodicNodes := nodes, periodicList := list } : Hcd).cursors = s.cursors := rfl

/-- Pipe writes leave the queue words. -/
@[simp]
theorem queueWords_modifyPipe {f : Pipe → Pipe} : (s.modifyPipe q f).queueWords = s.queueWords :=
  rfl

/-- Frame-list writes leave the queue words. -/
@[simp]
theorem queueWords_slots {nodes : Nat → Option Nat} {list : Nat → Nat} :
    ({ s with periodicNodes := nodes, periodicList := list } : Hcd).queueWords = s.queueWords := rfl

end Hcd

section Frame

variable {cfg : Config} {s : Hcd} {q : Nat}

/-- A conditional queue-head write that keeps `lastQtd` keeps the cursors. -/
theorem cursors_ite_modifyQh {c : Prop} [Decidable c] {f : Qh → Qh}
    (hf : ∀ x, (f x).lastQtd = x.lastQtd) : (if c then s.modifyQh q f else s).cursors = s.cursors := by
  split
  · exact Hcd.cursors_modifyQh hf
  · rfl

/-- A conditional queue-head write that keeps `lastQtd` and `nextQtd` keeps
the queue words. -/
theorem queueWords_ite_modifyQh {c : Prop} [Decidable c] {f : Qh → Qh}
    (hf : ∀ x, (f x).lastQtd = x.lastQtd) (hf' : ∀ x, (f x).hw.nextQtd = x.hw.nextQtd) :
    (if c then s.modifyQh q f else s).queueWords = s.queueWords := by
  split
  · exact Hcd.queueWords_modifyQh hf hf'
  · rfl

/-- `ehci_qhLinkAsync` writes links and horizontal pointers only. -/
theorem queueWords_qhLinkAsync : (qhLinkAsync s q).queueWords = s.queueWords := by
  unfold qhLinkAsync
  dsimp only
  split <;> simp only [Hcd.queueWords_modifyQh, implies_true]

/-- `ehci_qhUnlinkAsync` writes links and horizontal pointers only. -/
theorem cursors_qhUnlinkAsync : (qhUnlinkAsync s q).cursors = s.cursors := by
  unfold qhUnlinkAsync
  dsimp only
  repeat' split
  all_goals simp only [Hcd.cursors_modifyQh, implies_true]

/-- The slot loop of `ehci_qhLinkPeriodic` writes frame-list slots only. -/
theorem queueWords_fillSlots (N qh period fuel i : Nat) :
    (fillSlots N qh period fuel i s).queueWords = s.queueWords := by
  obtain ⟨nodes, list, h⟩ := fillSlots_eq N qh period fuel i s
  rw [h]
  rfl

/-- `ehci_qhLinkPeriodic` writes the band, the S-mask, links and slots, never
the queue words. -/
theorem queueWords_qhLinkPeriodic (N : Nat) :
    (qhLinkPeriodic N s q).queueWords = s.queueWords := by
  have hFirst : ∀ s : Hcd, (linkFirst N s q).queueWords = s.queueWords := fun s => by
    simp only [linkFirst, queueWords_fillSlots, Hcd.queueWords_modifyQh, implies_true]
  have hChain : ∀ s : Hcd, (linkChain N s q).queueWords = s.queueWords := fun s => by
    unfold linkChain
    dsimp only
    split
    · split
      · exact hFirst s
      · simp only [linkInside, Hcd.queueWords_modifyQh, implies_true]
    · exact hFirst s
  simp only [qhLinkPeriodic, markLast, bandAlloc, queueWords_ite_modifyQh, hChain,
    Hcd.queueWords_modifyQh, implies_true]

/-- The slot loop of `ehci_qhUnlinkPeriodic` writes links and slots only. -/
theorem cursors_qhUnlinkPeriodic (N : Nat) : (qhUnlinkPeriodic N s q).cursors = s.cursors := by
  unfold qhUnlinkPeriodic
  generalize List.range N = slots
  induction slots generalizing s with
  | nil => rfl
  | cons i slots ih =>
      rw [List.foldl_cons, ih]
      unfold unlinkSlot
      repeat' split
      all_goals simp only [Hcd.cursors_modifyQh, Hcd.cursors_slots, implies_true]

/-- `ehci_qtdsDeactivate` writes qTD tokens only. -/
theorem cursors_qtdsDeactivate (ring : List Nat) : (qtdsDeactivate s ring).cursors = s.cursors := by
  induction ring generalizing s with
  | nil => rfl
  | cons r ring ih => rw [qtdsDeactivate, ih, Hcd.cursors_modifyQtd]

/-- The deactivation loop of `ehci_pipeDestroy` writes qTD tokens only. -/
theorem cursors_deactivateOn (qh : Nat) (ts : List Nat) :
    (deactivateOn s qh ts).cursors = s.cursors := by
  induction ts generalizing s with
  | nil => rfl
  | cons t ts ih =>
      rw [deactivateOn, ih]
      repeat' split
      all_goals first | rfl | exact cursors_qtdsDeactivate _

/-- Pooling qTDs writes the qTD side only. -/
theorem cursors_qtdsPut (L : List Nat) : (qtdsPut cfg s L).cursors = s.cursors := by
  obtain ⟨qtds, pool, n, h⟩ := @qtdsPut_eq cfg s L
  rw [h]
  rfl

/-- `ehci_qhPut` writes pool links and liveness, never a cursor. -/
theorem cursors_qhPut : (qhPut cfg s q).cursors = s.cursors := by
  obtain ⟨qhs, pool, n, h, hRel⟩ := qhPut_eq cfg s q
  rw [h]
  funext x
  exact hRel.lastQtd x

/-- `ehci_qhPut` leaves the qTD side of the state. -/
theorem qtdOwners_qhPut : (qhPut cfg s q).qtdOwners = s.qtdOwners := by
  obtain ⟨qhs, pool, n, h, -⟩ := qhPut_eq cfg s q
  rw [h]
  rfl

/-- `ehci_qhAlloc` hands out a queue head with no cursor and no qTD queued. -/
theorem queueWords_qhAlloc {s₁ : Hcd} (h : qhAlloc s = some (s₁, q)) :
    s₁.queueWords = Function.update s.queueWords q (none, qtdPtrInvalid) := by
  obtain ⟨qhs, hEq, hRel, -, -⟩ := qhAlloc_eq h
  rw [hEq]
  funext x
  by_cases hx : x = q
  · subst hx
    simp [Hcd.queueWords, qhFresh]
  · simp [Hcd.queueWords, Function.update_noteq hx, hRel.lastQtd x, hRel.hw x]

/-- The queue head `ehci_transferEnqueue` finds or makes: a new one has no
cursor and no qTD queued, and no other queue head's words move. -/
theorem pipeQh_queueWords {s₁ : Hcd} {tr : Transfer} {pipe qh : Nat}
    (h : pipeQh cfg s tr pipe = some (s₁, qh)) (x : Nat) :
    s₁.queueWords x = if (s.pipes pipe).hcdpriv = none ∧ x = qh then (none, qtdPtrInvalid)
      else s.queueWords x := by
  unfold pipeQh at h
  dsimp only at h
  split at h
  · rename_i hNone
    split at h
    · cases h
    rename_i s₂ q₂ hAlloc
    obtain ⟨rfl, rfl⟩ := Prod.mk.inj (Option.some.inj h)
    have hLink : ∀ (b : Prop) [Decidable b] (s₃ : Hcd),
        (if b then qhLinkAsync s₃ q₂ else qhLinkPeriodic cfg.periodicSize s₃ q₂).queueWords =
          s₃.queueWords := fun b _ s₃ => by
      split
      · exact queueWords_qhLinkAsync
      · exact queueWords_qhLinkPeriodic _
    rw [hLink, Hcd.queueWords_modifyPipe,
      @Hcd.queueWords_modifyQh s₂ q₂ (fun x => qhConf x (s.pipes pipe)) (fun _ => rfl) fun _ => rfl,
      queueWords_qhAlloc hAlloc, Function.update_apply]
    simp only [hNone, true_and]
  · rename_i q₀ hSome
    obtain ⟨rfl, rfl⟩ := Prod.mk.inj (Option.some.inj h)
    simp only [queueWords_ite_modifyQh, implies_true, hSome, reduceCtorEq, false_and, if_false]

/-- The queue head `ehci_transferEnqueue` finds or makes keeps every cursor
or clears it. -/
theorem pipeQh_cursors {s₁ : Hcd} {tr : Transfer} {pipe qh : Nat}
    (h : pipeQh cfg s tr pipe = some (s₁, qh)) :
    ∀ x l, s₁.cursors x = some l → s.cursors x = some l := fun x l hx => by
  have hx' := congrArg Prod.fst (pipeQh_queueWords h x)
  change s₁.cursors x = _ at hx'
  rw [hx] at hx'
  split at hx'
  · cases hx'
  · exact hx'.symm

/-- `ehci_continue` clears the cursor of `qh` when it is `last`, and only that. -/
theorem cursors_ehciContinue (qh last : Nat) :
    (ehciContinue s qh last).cursors =
      if s.cursors qh = some last then Function.update s.cursors qh none else s.cursors := by
  simp only [ehciContinue, cursors_ite_modifyQh, implies_true]
  by_cases h : s.cursors qh = some last
  · rw [if_pos h, if_pos (show (s.qhs qh).lastQtd = some last from h)]
    funext x
    by_cases hx : x = qh
    · subst hx
      simp [Hcd.cursors]
    · simp [Hcd.cursors, Function.update_noteq hx]
  · rw [if_neg h, if_neg (show ¬(s.qhs qh).lastQtd = some last from h)]

/-- Reaping a transfer whose qTDs all belong to `qh` clears the cursor of
`qh` when it is the transfer's last qTD, and only that. -/
theorem cursors_reap {t qh : Nat} (st : Int)
    (hRing : ∀ x ∈ (s.trs t).hcdpriv, (s.qtds x).qh = some qh) (hne : (s.trs t).hcdpriv ≠ []) :
    (reap cfg s t st).cursors = if s.cursors qh = (s.trs t).hcdpriv.getLast? then
      Function.update s.cursors qh none else s.cursors := by
  obtain ⟨qtds, pool, n, hPut⟩ := @qtdsPut_eq cfg (continueAfter s t) (s.trs t).hcdpriv
  obtain ⟨first, hFirst⟩ := Option.ne_none_iff_exists'.1 (mt List.head?_eq_none_iff.1 hne)
  obtain ⟨last, hLast⟩ := Option.ne_none_iff_exists'.1 (mt List.getLast?_eq_none_iff.1 hne)
  unfold reap
  rw [hPut]
  show (continueAfter s t).cursors = _
  simp only [continueAfter, hFirst, hLast, hRing first (List.mem_of_mem_head? hFirst)]
  exact cursors_ehciContinue qh last

/-- `ehci_qtdsPut` takes its qTDs off their queue heads, and no other. -/
theorem qtdsPut_qh (L : List Nat) (x : Nat) :
    ((qtdsPut cfg s L).qtds x).qh = if x ∈ L then none else (s.qtds x).qh := by
  have hPut : ∀ (s : Hcd) q, ((qtdPut cfg s q).qtds x).qh = if x = q then none else (s.qtds x).qh :=
    fun s q => by
      have hQh : ∀ s' : Hcd, ((s'.modifyQtd q fun y => { y with qh := none }).qtds x).qh =
          if x = q then none else (s'.qtds x).qh := fun s' => by
        by_cases hx : x = q <;> simp [hx]
      unfold qtdPut
      split
      · split
        · rw [hQh, Hcd.qh_modifyQtd (f := fun y => { y with live := false }) rfl]
        · exact hQh s
      · exact hQh s
  induction L generalizing s with
  | nil => rfl
  | cons q L ih =>
      rw [qtdsPut, ih, hPut]
      by_cases hx : x = q <;> simp [hx]

/-- `ehci_enqueue` moves no qTD between owners. -/
theorem qtdOwners_enqueue (qh first last : Nat) :
    (enqueue s qh first last).qtdOwners = s.qtdOwners :=
  congrArg Prod.snd (owners_enqueue first last)

/-- `ehci_enqueue` sets the cursor of `qh` to `last`. -/
theorem cursors_enqueue (qh first last : Nat) :
    (enqueue s qh first last).cursors = Function.update s.cursors qh (some last) := by
  funext x
  unfold enqueue
  dsimp only
  by_cases hx : x = qh
  · subst hx
    split <;> simp [Hcd.cursors]
  · split <;> simp [Hcd.cursors, Function.update_noteq hx]

end Frame

/-- A set cursor is the last qTD of a transfer in flight, and that qTD
belongs to the cursor's queue head. -/
def CursorsOk (cursors : Nat → Option Nat) (v : QtdOwners) : Prop :=
  ∀ qh l, cursors qh = some l → ∃ t ∈ v.transfers, (v.rings t).getLast? = some l ∧ v.qtdQh l = some qh

/-- The cursor invariant of a state. -/
def CursorOk (s : Hcd) : Prop := CursorsOk s.cursors s.qtdOwners

section Steps

variable {cfg : Config} {va2pa : Nat → Nat} {pipeOf : Nat → Nat} {s s' : Hcd}

/-- The invariant reads only the cursors and the qTD side. -/
theorem CursorOk.of_views (h : CursorOk s) (hc : s'.cursors = s.cursors)
    (hv : s'.qtdOwners = s.qtdOwners) : CursorOk s' := by
  unfold CursorOk
  rw [hc, hv]
  exact h

/-- A change of the qTD side that sets no cursor keeps the invariant. -/
theorem CursorOk.of_cursors (h : CursorOk s)
    (hCur : ∀ x l, s'.cursors x = some l → s.cursors x = some l)
    (hv : s'.qtdOwners = s.qtdOwners) : CursorOk s' := by
  unfold CursorOk
  rw [hv]
  exact fun x l hx => h x l (hCur x l hx)

/-- A change that sets no cursor, keeps every transfer in flight with its
ring, and keeps the queue heads of their qTDs keeps the invariant. -/
theorem CursorOk.mono (h : CursorOk s) (hCur : ∀ x l, s'.cursors x = some l → s.cursors x = some l)
    (hTr : ∀ t ∈ s.transfers, t ∈ s'.transfers ∧ (s'.trs t).hcdpriv = (s.trs t).hcdpriv)
    (hQh : ∀ t ∈ s.transfers, ∀ q ∈ (s.trs t).hcdpriv, (s'.qtds q).qh = (s.qtds q).qh) :
    CursorOk s' := fun x l hx => by
  obtain ⟨t, ht, hLast, hl⟩ := h x l (hCur x l hx)
  obtain ⟨ht', hRing⟩ := hTr t ht
  refine ⟨t, ht', ?_, ?_⟩
  · show (s'.trs t).hcdpriv.getLast? = some l
    rw [hRing]
    exact hLast
  · show (s'.qtds l).qh = some x
    rw [hQh t ht l (List.mem_of_getLast?_eq_some hLast)]
    exact hl

/-- `ehci_enqueue` points the cursor of `qh` at the last qTD of a transfer
in flight on `qh`. -/
theorem CursorOk.point {t qh last : Nat} (h : CursorOk s) (ht : t ∈ s.transfers)
    (hLast : (s.trs t).hcdpriv.getLast? = some last) (hQh : (s.qtds last).qh = some qh)
    (first : Nat) : CursorOk (enqueue s qh first last) := by
  unfold CursorOk
  rw [cursors_enqueue, qtdOwners_enqueue]
  intro x l hx
  by_cases hxq : x = qh
  · subst hxq
    simp only [Function.update_same, Option.some.injEq] at hx
    subst hx
    exact ⟨t, ht, hLast, hQh⟩
  · rw [Function.update_noteq hxq] at hx
    exact h x l hx

/-- One reaping keeps the invariant: it clears the cursor at the reaped
transfer's last qTD, and every other cursor names a qTD of another ring. -/
theorem cursorOk_reap {t : Nat} (h : Owned cfg pipeOf s) (hc : CursorOk s) (ht : t ∈ s.transfers)
    (st : Int) : CursorOk (reap cfg s t st) := by
  obtain ⟨qh, -, hRing⟩ := h.qtds.ring_qh t ht
  obtain ⟨qhs, qtds, pool, n, -, hEq⟩ := @reap_eq cfg s t st
  have hCur := @cursors_reap cfg s t qh st hRing (h.qtds.ring_ne_nil t ht)
  have hQhs := @qtdsPut_qh cfg (continueAfter s t) (s.trs t).hcdpriv
  obtain ⟨qhs', hCont⟩ := @continueAfter_eq s t
  rw [hCont] at hQhs
  intro x l hx
  change (reap cfg s t st).cursors x = some l at hx
  rw [hCur] at hx
  -- the cursor was set before, and not at `t`'s last qTD on `qh`
  obtain ⟨hx, hNot⟩ : s.cursors x = some l ∧ ¬(x = qh ∧ (s.trs t).hcdpriv.getLast? = some l) := by
    split_ifs at hx with hq
    · by_cases hxq : x = qh
      · subst hxq
        simp at hx
      · exact ⟨by rwa [Function.update_noteq hxq] at hx, fun e => hxq e.1⟩
    · exact ⟨hx, fun ⟨hxq, hLast⟩ => hq (by rw [← hxq, hx, hLast])⟩
  obtain ⟨t', ht', hLast, hl⟩ := hc x l hx
  have hl' : l ∈ (s.trs t').hcdpriv := List.mem_of_getLast?_eq_some hLast
  have htt : t' ≠ t := by
    rintro rfl
    exact hNot ⟨Option.some.inj (hl.symm.trans (hRing l hl')), hLast⟩
  -- `l` is held by `t'`, so it is not among the qTDs pooled
  have hOff : l ∉ (s.trs t).hcdpriv := fun hlt => by
    have hLe := h.qtds.qtds_held.count_le l
    have hPos := List.count_pos_iff.2
      (List.mem_flatMap.2 ⟨t', ht', hl'⟩ : l ∈ s.transfers.flatMap fun x => (s.trs x).hcdpriv)
    simp only [QtdOwners.inFlight, Hcd.qtdOwners] at hLe
    obtain ⟨t₀, -, -, hUniq⟩ := @exists_unique_ring_of_count s.transfers
      (fun x => (s.trs x).hcdpriv) l (by omega)
    exact htt ((hUniq t' ht' hl').trans (hUniq t ht hlt).symm)
  refine ⟨t', ?_, ?_, ?_⟩
  · show t' ∈ (reap cfg s t st).transfers
    rw [reap_transfers]
    exact (List.mem_erase_of_ne htt).2 ht'
  · show ((reap cfg s t st).trs t').hcdpriv.getLast? = some l
    rw [hEq]
    simpa [Function.update_noteq htt] using hLast
  · show ((reap cfg s t st).qtds l).qh = some x
    unfold reap
    rw [hCont]
    simpa [hQhs, hOff] using hl

/-- `ehci_transUpdate` keeps the invariant. -/
theorem transUpdate_cursorOk (h : Owned cfg pipeOf s) (hc : CursorOk s) :
    CursorOk (transUpdate cfg s) :=
  (transUpdate_induction (fun s => Owned cfg pipeOf s ∧ CursorOk s) (fun s t hs ht => by
    unfold reapIfFinished
    dsimp only
    split
    · exact ⟨reap_owned hs.1 ht _, cursorOk_reap hs.1 hs.2 ht _⟩
    · exact hs) h.qtds.transfers_nodup ⟨h, hc⟩).2

/-- Building stages writes the qTD side only. -/
theorem Built.cursors_eq {s₀ : Hcd} {held list : List Nat} (hb : Built cfg s₀ held s list) :
    s.cursors = s₀.cursors := by
  obtain ⟨qtds, c, pool, n, mem, rfl⟩ := hb.frame
  rfl

/-- A ring built from records no transfer held, linked and queued on `qh`,
moves the cursor of `qh` to its last qTD. -/
theorem CursorOk.submit {t qh first : Nat} {L : List Nat} (hc : CursorOk s)
    (hb : Built cfg s s.qtdOwners.inFlight s' L) (ht : t ∉ s.transfers) (hL : L ≠ []) :
    let s'' := qtdsLink (s'.modifyTr t fun x => { x with hcdpriv := L }) qh first L
    CursorOk (enqueue { s'' with transfers := s''.transfers ++ [t] } qh first (L.getLast hL)) := by
  intro s''
  obtain ⟨⟨qtds, hLinkEq⟩, hLink⟩ := qtdsLink_spec qh first
    (s'.modifyTr t fun x => { x with hcdpriv := L }) L
  have hHeld := hb.holds
  have hQh := hb.qh
  have hCur := hb.cursors_eq
  obtain ⟨qtds', c, pool, n, mem, rfl⟩ := hb.frame
  rw [hLinkEq] at hLink
  simp only [Hcd.modifyTr_qtds] at hLink hQh
  have hNe : ∀ t' ∈ s.transfers, t' ≠ t := fun t' ht' e => ht (e ▸ ht')
  -- queuing keeps every cursor and every ring in flight
  have hS : CursorOk { s'' with transfers := s''.transfers ++ [t] } := by
    refine hc.mono (fun x l hx => ?_) (fun t' ht' => ⟨?_, ?_⟩)
      (fun t' ht' q hq => ?_)
    · simp only [s'', hLinkEq] at hx
      rw [← hCur]
      exact hx
    · simp only [s'', hLinkEq, Hcd.modifyTr_transfers]
      exact List.mem_append_left _ ht'
    · simp only [s'', hLinkEq, Hcd.modifyTr_trs, Function.update_noteq (hNe t' ht')]
    · simp only [s'', hLinkEq]
      rw [(hLink q).2, if_neg (hHeld.not_mem_of_mem (List.mem_flatMap.2 ⟨t', ht', hq⟩)), hQh]
  refine hS.point (List.mem_append_right _ (List.mem_singleton_self t)) ?_ ?_ first
  · simp only [s'', hLinkEq, Hcd.modifyTr_trs, Function.update_same]
    exact List.getLast?_eq_getLast L hL
  · simp only [s'', hLinkEq]
    rw [(hLink _).2, if_pos (List.getLast_mem hL)]

/-- `ehci_transferEnqueue` keeps the invariant: a failed call sets no cursor
and pools only the qTDs it built, a successful one points the cursor of the
pipe's queue head at the last qTD it queues. -/
theorem transferEnqueue_cursorOk {t pipe : Nat} (h : Owned cfg pipeOf s) (hc : CursorOk s)
    (ht : t ∉ s.transfers) : CursorOk (transferEnqueue cfg va2pa s t pipe).1 := by
  unfold transferEnqueue
  split
  · exact hc
  split
  · exact hc
  rename_i s₁ qh hQh
  obtain ⟨h₁, -, hQtd⟩ := pipeQh_owned h hQh
  have hc₁ : CursorOk s₁ := hc.of_cursors (pipeQh_cursors hQh) hQtd
  have ht₁ : t ∉ s₁.transfers := by
    have := congrArg QtdOwners.transfers hQtd
    simp only [Hcd.qtdOwners] at this
    rwa [this]
  have hNe : ∀ t' ∈ s₁.transfers, t' ≠ t := fun t' ht' e => ht₁ (e ▸ ht')
  dsimp only
  rcases @transferQtds_stages cfg va2pa s₁ _ t (s₁.pipes pipe) h₁.qtds.qtds_held
    h₁.qtds.bound with ⟨s', L, hb, hEq⟩ | ⟨hb, hOk⟩
  · -- `-ENOMEM` from a stage
    have hNeg : (stageFail cfg s' t L).2.2 < 0 := by simp [stageFail, eNomem]
    rw [hEq, if_pos hNeg]
    obtain ⟨-, -, hQh', -, hTr, hTrs⟩ := hb.fail t
    refine hc₁.mono (fun x l hx => ?_) (fun t' ht' => ⟨hTr ▸ ht', by rw [hTrs t' (hNe t' ht')]⟩)
      (fun t' ht' q hq => hQh' q (List.mem_flatMap.2 ⟨t', ht', hq⟩))
    rw [← hb.cursors_eq, ← @cursors_qtdsPut cfg s' L]
    exact hx
  rw [if_neg hOk]
  obtain ⟨qtds, c, pool, n, mem, hFrame⟩ := hb.frame
  split
  · -- no qTD at all
    refine hc₁.mono (fun x l hx => ?_) (fun t' ht' => ⟨?_, ?_⟩) (fun t' _ q _ => hb.qh q)
    · rw [← hb.cursors_eq]
      exact hx
    · rw [hFrame]
      exact ht'
    · rw [hFrame]
  · -- the ring is linked behind the queue head
    rename_i first rest hCons
    have hb' := hb
    rw [hCons] at hb'
    exact hc₁.submit hb' ht₁ (List.cons_ne_nil _ _)

/-- `ehci_pipeDestroy` keeps the invariant. -/
theorem pipeDestroy_cursorOk {pipe : Nat} (h : Owned cfg pipeOf s) (hc : CursorOk s) :
    CursorOk (pipeDestroy cfg s pipe) := by
  unfold pipeDestroy
  dsimp only
  split
  · exact hc
  rename_i qh _
  suffices hKey : ∀ s₁ : Hcd, s₁.owners = s.owners → s₁.cursors = s.cursors →
      CursorOk (qhPut cfg ((if s₁.transfers = [] then s₁
        else transUpdate cfg (deactivateOn s₁ qh s₁.transfers)).modifyPipe pipe
          fun x => { x with hcdpriv := none }) qh) by
    apply hKey
    · split
      · exact owners_qhUnlinkAsync
      · split
        · exact owners_qhUnlinkPeriodic _
        · rfl
    · split
      · exact cursors_qhUnlinkAsync
      · split
        · exact cursors_qhUnlinkPeriodic _
        · rfl
  intro s₁ hOw hCur
  have h₁ := h.of_owners hOw
  have hc₁ : CursorOk s₁ := hc.of_views hCur (congrArg Prod.snd hOw)
  refine CursorOk.of_views ?_ cursors_qhPut qtdOwners_qhPut
  show CursorOk (if s₁.transfers = [] then s₁ else transUpdate cfg (deactivateOn s₁ qh s₁.transfers))
  split
  · exact hc₁
  · have hOw₃ := owners_deactivateOn (s := s₁) qh s₁.transfers
    exact transUpdate_cursorOk (h₁.of_owners hOw₃)
      (hc₁.of_views (cursors_deactivateOn qh _) (congrArg Prod.snd hOw₃))

end Steps

/-- Every reachable state keeps the cursor invariant. -/
theorem TransferRun.cursorOk {cfg : Config} {va2pa : Nat → Nat} {s : Hcd} {pipeOf : Nat → Nat}
    (run : TransferRun cfg va2pa s pipeOf) : CursorOk s := by
  induction run with
  | init trs pipes memory _ =>
      intro x l hx
      simp only [Hcd.cursors, ehciInit, Function.update_apply] at hx
      split at hx <;> simp [asyncHead, qhFresh] at hx
  | enqueue t pipe prior hIdle ih => exact transferEnqueue_cursorOk prior.owned ih hIdle
  | update prior ih => exact transUpdate_cursorOk prior.owned ih
  | @dequeue s pipeOf t prior ih =>
      have hOw := owners_qtdsDeactivate (s := s) (s.trs t).hcdpriv
      exact transUpdate_cursorOk (prior.owned.of_owners hOw)
        (ih.of_views (cursors_qtdsDeactivate _) (congrArg Prod.snd hOw))
  | destroy pipe prior ih => exact pipeDestroy_cursorOk prior.owned ih
  | writeback q token prior ih =>
      exact ih.of_views rfl (congrArg Prod.snd (owners_qtdWriteback token))
  | overlay qh hw prior ih => exact ih.of_views (Hcd.cursors_modifyQh fun _ => rfl) rfl
  | @fill s pipeOf t tr prior ih =>
      exact ih.of_views rfl (congrArg Prod.snd
        (@Hcd.owners_modifyTr s t (fun x => { tr with hcdpriv := x.hcdpriv }) fun _ => rfl))
  | configure pipe p prior ih => exact ih.of_views rfl rfl
  | grant memory prior ih => exact ih.of_views rfl rfl

end Ehci
