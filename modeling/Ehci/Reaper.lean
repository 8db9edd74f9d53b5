import Ehci.Transfer

/-! The reaper: what `ehci_qtdsCheck` reports, what one reaping changes, and
that the passes of `ehci_transUpdate` end and reap every transfer found
finished. -/
namespace Ehci

section Check

variable {s s' : Hcd} {t last : Nat}

/-- `ehci_qtdsCheck` reads only the transfer record and the qTD blocks. -/
theorem qtdsCheck_congr (hTr : s'.trs t = s.trs t) (hHw : ∀ q, (s'.qtds q).hw = (s.qtds q).hw) :
    qtdsCheck s' t = qtdsCheck s t := by
  simp only [qtdsCheck, hTr, hHw]

/-- Once the last qTD is inactive or halted, the transfer is finished with the
byte count of its last qTD, whatever error bits the ring carries. -/
theorem qtdsCheck_of_last_done (hLast : (s.trs t).hcdpriv.getLast? = some last)
    (hDone : (s.qtds last).hw.token &&& qtdActive = 0 ∨ (s.qtds last).hw.token &&& qtdHalted ≠ 0) :
    qtdsCheck s t = (true, ((s.trs t).size : Int) - (qtdLen (s.qtds last).hw.token : Int)) := by
  simp only [qtdsCheck, hLast, if_pos hDone]

/-- While the last qTD is active and not halted, the transfer is finished with
minus the number of qTDs carrying an error bit, and unfinished without one. -/
theorem qtdsCheck_of_last_active (hLast : (s.trs t).hcdpriv.getLast? = some last)
    (hActive : (s.qtds last).hw.token &&& qtdActive ≠ 0)
    (hRun : (s.qtds last).hw.token &&& qtdHalted = 0) :
    qtdsCheck s t =
      let error := (s.trs t).hcdpriv.countP fun q => qtdHasError (s.qtds q).hw.token
      if 0 < error then (true, -(error : Int)) else (false, 0) := by
  simp only [qtdsCheck, hLast]
  rw [if_neg (by omega)]

end Check

section Reap

variable {cfg : Config} {s : Hcd} {t : Nat}

/-- A qTD write that keeps blocks keeps every block. -/
theorem Hcd.modifyQtd_hw {q : Nat} {f : Qtd → Qtd} (hf : ∀ y, (f y).hw = y.hw) (x : Nat) :
    ((s.modifyQtd q f).qtds x).hw = (s.qtds x).hw := by
  by_cases hx : x = q
  · subst hx
    simp [hf]
  · simp [Function.update_noteq hx]

/-- Pooling a qTD writes its queue-head link and liveness, never its block. -/
@[simp]
theorem qtdPut_qtds_hw (q x : Nat) : ((qtdPut cfg s q).qtds x).hw = (s.qtds x).hw := by
  unfold qtdPut
  dsimp only
  split <;> (try split) <;> simp only [Hcd.modifyQtd_hw, implies_true]

/-- Pooling a qTD changes only the qTD records, the pool and its count. -/
theorem qtdPut_eq (q : Nat) : ∃ qtds pool n, qtdPut cfg s q =
    { s with qtds := qtds, qtdPool := pool, nqtds := n } := by
  unfold qtdPut
  dsimp only
  split
  · split
    · exact ⟨_, _, _, rfl⟩
    · exact ⟨_, _, _, rfl⟩
  · exact ⟨_, _, _, rfl⟩

/-- Pooling qTDs writes the qTD records, the pool and its count only. -/
theorem qtdsPut_eq (L : List Nat) : ∃ qtds pool n, qtdsPut cfg s L =
    { s with qtds := qtds, qtdPool := pool, nqtds := n } := by
  induction L generalizing s with
  | nil => exact ⟨s.qtds, s.qtdPool, s.nqtds, rfl⟩
  | cons q L ih =>
      obtain ⟨qtds, pool, n, h⟩ := @ih (qtdPut cfg s q)
      obtain ⟨qtds', pool', n', h'⟩ : ∃ qtds pool n, qtdPut cfg s q =
          { s with qtds := qtds, qtdPool := pool, nqtds := n } := qtdPut_eq q
      rw [qtdsPut, h, h']
      exact ⟨qtds, pool, n, rfl⟩

/-- Pooling qTDs writes no block. -/
@[simp]
theorem qtdsPut_qtds_hw (L : List Nat) (x : Nat) : ((qtdsPut cfg s L).qtds x).hw = (s.qtds x).hw := by
  induction L generalizing s with
  | nil => rfl
  | cons q L ih => rw [qtdsPut, ih, qtdPut_qtds_hw]

/-- A conditional write to a queue head, after writes to queue heads only. -/
theorem ite_modifyQh_eq {c : Prop} [Decidable c] {s' : Hcd} {q : Nat} {f : Qh → Qh}
    (h : ∃ qhs, s' = { s with qhs := qhs }) :
    ∃ qhs, (if c then s'.modifyQh q f else s') = { s with qhs := qhs } := by
  obtain ⟨qhs, rfl⟩ := h
  split
  · exact ⟨_, rfl⟩
  · exact ⟨qhs, rfl⟩

/-- `ehci_continue` writes only queue heads. -/
theorem ehciContinue_eq (qh last : Nat) : ∃ qhs, ehciContinue s qh last = { s with qhs := qhs } :=
  ite_modifyQh_eq (ite_modifyQh_eq (ite_modifyQh_eq ⟨s.qhs, rfl⟩))

/-- The `ehci_continue` call of a reaping writes queue heads only. -/
theorem continueAfter_eq : ∃ qhs, continueAfter s t = { s with qhs := qhs } := by
  unfold continueAfter
  dsimp only
  split
  · split
    · exact ehciContinue_eq _ _
    · exact ⟨s.qhs, rfl⟩
  · exact ⟨s.qhs, rfl⟩

/-- One reaping moves queue heads and pools qTDs without touching their
blocks, takes the transfer off the in-flight list, clears its ring and
records its completion. -/
theorem reap_eq (st : Int) : ∃ qhs qtds pool n, (∀ x, (qtds x).hw = (s.qtds x).hw) ∧
    reap cfg s t st = { s with
      qhs := qhs, qtds := qtds, qtdPool := pool, nqtds := n,
      transfers := s.transfers.erase t,
      trs := Function.update s.trs t { (s.trs t) with hcdpriv := [] },
      finished := s.finished ++ [(t, st)] } := by
  obtain ⟨qhs, hCont⟩ := @continueAfter_eq s t
  obtain ⟨qtds, pool, n, hPut⟩ : ∃ qtds pool n, qtdsPut cfg { s with qhs := qhs } (s.trs t).hcdpriv =
      { s with qhs := qhs, qtds := qtds, qtdPool := pool, nqtds := n } := qtdsPut_eq _
  have hHw : ∀ x, ((qtdsPut cfg { s with qhs := qhs } (s.trs t).hcdpriv).qtds x).hw =
      (s.qtds x).hw := qtdsPut_qtds_hw _
  refine ⟨qhs, qtds, pool, n, fun x => ?_, ?_⟩
  · rw [← hHw x, hPut]
  · unfold reap
    rw [hCont, hPut]
    rfl

/-- A reaping takes its transfer off the in-flight list. -/
theorem reap_transfers (st : Int) : (reap cfg s t st).transfers = s.transfers.erase t := by
  obtain ⟨_, _, _, _, -, h⟩ := @reap_eq cfg s t st
  rw [h]

/-- A reaping reports its transfer once, with the status given. -/
theorem reap_finished (st : Int) : (reap cfg s t st).finished = s.finished ++ [(t, st)] := by
  obtain ⟨_, _, _, _, -, h⟩ := @reap_eq cfg s t st
  rw [h]

/-- Reaping one transfer leaves what `ehci_qtdsCheck` says of any other. -/
theorem qtdsCheck_reap_ne {t' : Nat} (st : Int) (hNe : t' ≠ t) :
    qtdsCheck (reap cfg s t st) t' = qtdsCheck s t' := by
  obtain ⟨_, _, _, _, hHw, h⟩ := @reap_eq cfg s t st
  rw [h]
  exact qtdsCheck_congr (Function.update_noteq hNe _ _) hHw

end Reap

section Passes

variable {cfg : Config}

/-- The loop body only reaps: the in-flight list shrinks to a sublist and the
completions grow at their end. -/
theorem reapIfFinished_mono (s : Hcd) (t : Nat) :
    (reapIfFinished cfg s t).transfers.Sublist s.transfers ∧
      ∃ done, (reapIfFinished cfg s t).finished = s.finished ++ done := by
  unfold reapIfFinished
  dsimp only
  split
  · rw [reap_transfers, reap_finished]
    exact ⟨List.erase_sublist _ _, _, rfl⟩
  · exact ⟨List.Sublist.refl _, [], (List.append_nil _).symm⟩

/-- The loop body on `t` leaves what `ehci_qtdsCheck` says of another transfer,
and leaves that transfer in flight. -/
theorem reapIfFinished_ne {s : Hcd} {t t' : Nat} (hNe : t' ≠ t) :
    qtdsCheck (reapIfFinished cfg s t) t' = qtdsCheck s t' ∧
      (t' ∈ s.transfers → t' ∈ (reapIfFinished cfg s t).transfers) := by
  unfold reapIfFinished
  dsimp only
  split
  · rw [qtdsCheck_reap_ne _ hNe, reap_transfers]
    exact ⟨rfl, fun h => (List.mem_erase_of_ne hNe).2 h⟩
  · exact ⟨rfl, id⟩

/-- The loop body reaps a finished transfer, with the status it reports. -/
theorem reapIfFinished_reaps {s : Hcd} {t : Nat} (hNodup : s.transfers.Nodup)
    (hDone : (qtdsCheck s t).1 = true) :
    t ∉ (reapIfFinished cfg s t).transfers ∧
      (t, (qtdsCheck s t).2) ∈ (reapIfFinished cfg s t).finished := by
  unfold reapIfFinished
  dsimp only
  rw [if_pos hDone, reap_transfers, reap_finished]
  exact ⟨hNodup.not_mem_erase, List.mem_append_right _ (List.mem_singleton_self _)⟩

/-- A pass only takes transfers off the in-flight list and only adds reports. -/
theorem transPass_mono (s : Hcd) (ts : List Nat) :
    (transPass cfg s ts).1.transfers.Sublist s.transfers ∧
      ∃ done, (transPass cfg s ts).1.finished = s.finished ++ done := by
  match ts with
  | [] => exact ⟨List.Sublist.refl _, [], (List.append_nil _).symm⟩
  | [t] => exact reapIfFinished_mono s t
  | t :: t' :: ts =>
      obtain ⟨hSub, done, hDone⟩ := @reapIfFinished_mono cfg s t
      obtain ⟨hSub', done', hDone'⟩ := transPass_mono (reapIfFinished cfg s t) (t' :: ts)
      exact ⟨hSub'.trans hSub, done ++ done', by rw [transPass, hDone', hDone, List.append_assoc]⟩

/-- A pass reaps every transfer of its list that is finished when it starts,
with the status found then. -/
theorem transPass_reaps {t : Nat} : ∀ {s : Hcd} {ts : List Nat}, ts.Nodup → t ∈ ts →
    s.transfers.Nodup → (qtdsCheck s t).1 = true →
    t ∉ (transPass cfg s ts).1.transfers ∧ (t, (qtdsCheck s t).2) ∈ (transPass cfg s ts).1.finished
  | s, [t'], _, hMem, hNodup, hDone => by
      rw [List.mem_singleton] at hMem
      subst hMem
      exact reapIfFinished_reaps hNodup hDone
  | s, t' :: t'' :: ts, hts, hMem, hNodup, hDone => by
      rw [transPass]
      by_cases hEq : t = t'
      · subst hEq
        obtain ⟨hOut, hIn⟩ := @reapIfFinished_reaps cfg s t hNodup hDone
        obtain ⟨hSub, done, hFin⟩ := @transPass_mono cfg (reapIfFinished cfg s t) (t'' :: ts)
        exact ⟨fun h => hOut (hSub.subset h), by rw [hFin]; exact List.mem_append_left _ hIn⟩
      · -- the transfers before `t` leave its check as it was
        have hSame := (@reapIfFinished_ne cfg s t' t hEq).1
        rw [← hSame] at hDone ⊢
        exact transPass_reaps (List.nodup_cons.1 hts).2 ((List.mem_cons.1 hMem).resolve_left hEq)
          ((reapIfFinished_mono s t').1.nodup hNodup) hDone

/-- So do the passes of `ehci_transUpdate`. -/
theorem transPasses_mono (n : Nat) (s : Hcd) :
    (transPasses cfg n s).transfers.Sublist s.transfers ∧
      ∃ done, (transPasses cfg n s).finished = s.finished ++ done := by
  induction n generalizing s with
  | zero => exact transPass_mono s s.transfers
  | succ n ih =>
      obtain ⟨hSub, done, hFin⟩ := @transPass_mono cfg s s.transfers
      rw [transPasses]
      split
      · obtain ⟨hSub', done', hFin'⟩ := ih (transPass cfg s s.transfers).1
        exact ⟨hSub'.trans hSub, done ++ done', by rw [hFin', hFin, List.append_assoc]⟩
      · exact ⟨hSub, done, hFin⟩

/-- `ehci_transUpdate` reaps every in-flight transfer that is finished when
it starts and hands its status to `usb_transferFinished`. -/
theorem transUpdate_reaps {s : Hcd} {t : Nat} (hNodup : s.transfers.Nodup) (ht : t ∈ s.transfers)
    (hDone : (qtdsCheck s t).1 = true) :
    t ∉ (transUpdate cfg s).transfers ∧ (t, (qtdsCheck s t).2) ∈ (transUpdate cfg s).finished := by
  obtain ⟨hOut, hIn⟩ := @transPass_reaps cfg t s s.transfers hNodup ht hNodup hDone
  unfold transUpdate
  cases hn : s.transfers.length with
  | zero => exact ⟨hOut, hIn⟩
  | succ n =>
      rw [transPasses]
      split
      · obtain ⟨hSub, done, hFin⟩ := @transPasses_mono cfg n (transPass cfg s s.transfers).1
        exact ⟨fun h => hOut (hSub.subset h), by rw [hFin]; exact List.mem_append_left _ hIn⟩
      · exact ⟨hOut, hIn⟩

/-- `ehci_transUpdate` only takes transfers off the in-flight list and only
adds reports. -/
theorem transUpdate_mono (s : Hcd) :
    (transUpdate cfg s).transfers.Sublist s.transfers ∧
      ∃ done, (transUpdate cfg s).finished = s.finished ++ done :=
  transPasses_mono _ s

section Induction

variable (P : Hcd → Prop)
  (hStep : ∀ s t, P s → t ∈ s.transfers → P (reapIfFinished cfg s t))
include hStep

/-- What the loop body keeps for a transfer in flight, a pass keeps. -/
theorem transPass_induction : ∀ {s : Hcd} {ts : List Nat}, ts.Nodup →
    (∀ x ∈ ts, x ∈ s.transfers) → P s → P (transPass cfg s ts).1
  | _, [], _, _, hP => hP
  | s, [t], _, hIn, hP => hStep s t hP (hIn t (List.mem_singleton_self t))
  | s, t :: t' :: ts, hts, hIn, hP => by
      rw [transPass]
      refine transPass_induction (List.nodup_cons.1 hts).2 (fun x hx => ?_)
        (hStep s t hP (hIn t (List.mem_cons_self t _)))
      exact (reapIfFinished_ne (fun hxt => (List.nodup_cons.1 hts).1 (by rwa [hxt] at hx))).2
        (hIn x (List.mem_cons_of_mem t hx))

/-- What the loop body keeps for a transfer in flight, `ehci_transUpdate`
keeps. -/
theorem transUpdate_induction {s : Hcd} (hNodup : s.transfers.Nodup) (hP : P s) :
    P (transUpdate cfg s) := by
  unfold transUpdate
  generalize s.transfers.length = n
  induction n generalizing s with
  | zero => exact transPass_induction P hStep hNodup (fun _ h => h) hP
  | succ n ih =>
      have hPass := transPass_induction P hStep hNodup (fun _ h => h) hP
      rw [transPasses]
      split
      · exact ih ((transPass_mono s s.transfers).1.nodup hNodup) hPass
      · exact hPass

end Induction

/-- The loop body on a transfer `ehci_qtdsCheck` does not find finished
changes nothing. -/
theorem reapIfFinished_of_running {s : Hcd} {t : Nat} (h : (qtdsCheck s t).1 = false) :
    reapIfFinished cfg s t = s := by
  simp [reapIfFinished, h]

/-- The loop body takes `t` off the in-flight list exactly when it is finished. -/
theorem reapIfFinished_transfers {s : Hcd} (t : Nat) (hNodup : s.transfers.Nodup) :
    (reapIfFinished cfg s t).transfers =
      s.transfers.filter fun x => !(decide (x = t) && (qtdsCheck s t).1) := by
  cases hc : (qtdsCheck s t).1
  · simp [reapIfFinished_of_running hc]
  · rw [reapIfFinished, if_pos hc, reap_transfers, hNodup.erase_eq_filter]
    exact List.filter_congr fun x _ => by by_cases hx : x = t <;> simp [hx]

/-- The loop body reports `t` exactly when it is finished. -/
theorem reapIfFinished_finished (s : Hcd) (t : Nat) :
    (reapIfFinished cfg s t).finished =
      s.finished ++ if (qtdsCheck s t).1 then [(t, (qtdsCheck s t).2)] else [] := by
  cases hc : (qtdsCheck s t).1
  · simp [reapIfFinished_of_running hc]
  · rw [reapIfFinished, if_pos hc, reap_finished, if_pos rfl]

/-- A pass over transfers none of which is finished changes nothing and asks
for no other. -/
theorem transPass_of_running {s : Hcd} :
    ∀ {ts : List Nat}, (∀ x ∈ ts, (qtdsCheck s x).1 = false) → transPass cfg s ts = (s, false)
  | [], _ => rfl
  | [t], h => by
      simp [transPass, reapIfFinished_of_running (h t (List.mem_singleton_self t)),
        h t (List.mem_singleton_self t)]
  | t :: t' :: ts, h => by
      rw [transPass, reapIfFinished_of_running (h t (List.mem_cons_self t _))]
      exact transPass_of_running fun x hx => h x (List.mem_cons_of_mem t hx)

/-- A pass is the loop body folded over its list. -/
theorem transPass_fst : ∀ (s : Hcd) (ts : List Nat),
    (transPass cfg s ts).1 = ts.foldl (reapIfFinished cfg) s
  | _, [] => rfl
  | _, [_] => rfl
  | s, t :: t' :: ts => by
      rw [transPass, transPass_fst]
      rfl

/-- The loop body over `ts` in order reaps exactly the transfers of `ts`
found finished, keeps the others in their order, reports each reaped one
once with its status, and leaves what `ehci_qtdsCheck` says of the rest. -/
theorem foldl_reapIfFinished : ∀ {s : Hcd} {ts : List Nat}, ts.Nodup → s.transfers.Nodup →
    (∀ x ∈ ts, x ∈ s.transfers) →
    (ts.foldl (reapIfFinished cfg) s).transfers =
        s.transfers.filter (fun x => !(decide (x ∈ ts) && (qtdsCheck s x).1)) ∧
      (ts.foldl (reapIfFinished cfg) s).finished = s.finished ++
        (ts.filter fun x => (qtdsCheck s x).1).map (fun x => (x, (qtdsCheck s x).2)) ∧
      ∀ x, (x ∉ ts ∨ (qtdsCheck s x).1 = false) →
        qtdsCheck (ts.foldl (reapIfFinished cfg) s) x = qtdsCheck s x
  | s, [], _, _, _ => ⟨by simp, by simp, fun _ _ => rfl⟩
  | s, t :: ts, hts, hNodup, hIn => by
      obtain ⟨htNot, hts'⟩ := List.nodup_cons.1 hts
      have hSame : ∀ x, x ≠ t → qtdsCheck (reapIfFinished cfg s t) x = qtdsCheck s x :=
        fun x hx => (reapIfFinished_ne hx).1
      have hNe : ∀ x ∈ ts, x ≠ t := fun x hx hxt => htNot (hxt ▸ hx)
      obtain ⟨h1, h2, h3⟩ := @foldl_reapIfFinished (reapIfFinished cfg s t) ts hts'
        ((reapIfFinished_mono s t).1.nodup hNodup)
        (fun x hx => (reapIfFinished_ne (hNe x hx)).2 (hIn x (List.mem_cons_of_mem t hx)))
      rw [List.foldl_cons]
      refine ⟨?_, ?_, fun x hx => ?_⟩
      · rw [h1, reapIfFinished_transfers t hNodup, List.filter_filter]
        refine List.filter_congr fun x _ => ?_
        by_cases hxt : x = t
        · subst hxt
          simp [htNot]
        · simp [hxt, hSame x hxt]
      · have hFilter : (ts.filter fun x => (qtdsCheck (reapIfFinished cfg s t) x).1).map
            (fun x => (x, (qtdsCheck (reapIfFinished cfg s t) x).2)) =
            (ts.filter fun x => (qtdsCheck s x).1).map (fun x => (x, (qtdsCheck s x).2)) := by
          rw [List.filter_congr fun x hx => by rw [hSame x (hNe x hx)]]
          exact List.map_congr_left fun x hx => by
            rw [hSame x (hNe x (List.mem_of_mem_filter hx))]
        rw [h2, hFilter, reapIfFinished_finished, List.filter_cons]
        cases (qtdsCheck s t).1 <;> simp
      · by_cases hxt : x = t
        · subst hxt
          have hRun : (qtdsCheck s x).1 = false := hx.resolve_left (by simp)
          rw [reapIfFinished_of_running hRun] at h3 ⊢
          exact h3 x (Or.inl htNot)
        · rw [h3 x (by simpa [hxt, hSame x hxt] using hx), hSame x hxt]

/-- After one pass over the whole in-flight list no transfer left is found
finished. -/
theorem transPass_settles {s : Hcd} (hNodup : s.transfers.Nodup) :
    ∀ x ∈ (transPass cfg s s.transfers).1.transfers,
      (qtdsCheck (transPass cfg s s.transfers).1 x).1 = false := by
  obtain ⟨h1, -, h3⟩ := @foldl_reapIfFinished cfg s s.transfers hNodup hNodup fun _ h => h
  intro x hx
  rw [transPass_fst, h1, List.mem_filter] at hx
  have hRun : (qtdsCheck s x).1 = false := by simpa [hx.1] using hx.2
  rw [transPass_fst, h3 x (Or.inr hRun), hRun]

/-- The fuel of `transUpdate` aside, `ehci_transUpdate` is one pass: a second
one, when the first asks for it, finds nothing to reap. -/
theorem transUpdate_eq_transPass {s : Hcd} (hNodup : s.transfers.Nodup) :
    transUpdate cfg s = (transPass cfg s s.transfers).1 := by
  unfold transUpdate
  cases s.transfers.length with
  | zero => rfl
  | succ n =>
      rw [transPasses]
      split
      · cases n <;> simp [transPasses, transPass_of_running (transPass_settles hNodup)]
      · rfl

end Passes

/-- The do-while loop of `ehci_transUpdate` with no bound on its passes: a
pass that reaped the last transfer with others left goes round again from the
head. `TransLoop cfg s s'` says the loop started in `s` ends in `s'`. -/
inductive TransLoop (cfg : Config) : Hcd → Hcd → Prop where
  | last {s : Hcd} (h : (transPass cfg s s.transfers).2 = false) :
      TransLoop cfg s (transPass cfg s s.transfers).1
  | again {s s' : Hcd} (h : (transPass cfg s s.transfers).2 = true)
      (rest : TransLoop cfg (transPass cfg s s.transfers).1 s') : TransLoop cfg s s'

/-- The unbounded loop ends, and only in the state `transUpdate` computes. -/
theorem transLoop_iff {cfg : Config} {s s' : Hcd} (hNodup : s.transfers.Nodup) :
    TransLoop cfg s s' ↔ s' = transUpdate cfg s := by
  have hStop : transPass cfg (transPass cfg s s.transfers).1
      (transPass cfg s s.transfers).1.transfers = ((transPass cfg s s.transfers).1, false) :=
    transPass_of_running (transPass_settles hNodup)
  rw [transUpdate_eq_transPass hNodup]
  constructor
  · rintro (h | ⟨h, rest⟩)
    · rfl
    · cases rest with
      | last => rw [hStop]
      | again h' => rw [hStop] at h'; cases h'
  · rintro rfl
    cases h : (transPass cfg s s.transfers).2
    · exact .last h
    · refine .again h ?_
      have := @TransLoop.last cfg (transPass cfg s s.transfers).1 (by rw [hStop])
      rwa [hStop] at this

/-- For any in-flight list, `ehci_transUpdate` terminates; the transfers left
are the original ones in their order minus those `ehci_qtdsCheck` finds
finished; `usb_transferFinished` got each of those once, in list order, with
the status `ehci_qtdsCheck` computed, and none of the others; none left is
found finished, so a second call changes nothing. -/
theorem transUpdate_removes_finished {cfg : Config} {s : Hcd} (hNodup : s.transfers.Nodup) :
    (∀ s', TransLoop cfg s s' ↔ s' = transUpdate cfg s) ∧
      (transUpdate cfg s).transfers = s.transfers.filter (fun t => !(qtdsCheck s t).1) ∧
      (transUpdate cfg s).finished = s.finished ++
        (s.transfers.filter fun t => (qtdsCheck s t).1).map (fun t => (t, (qtdsCheck s t).2)) ∧
      (∀ t ∈ (transUpdate cfg s).transfers, (qtdsCheck (transUpdate cfg s) t).1 = false) ∧
      transUpdate cfg (transUpdate cfg s) = transUpdate cfg s := by
  obtain ⟨h1, h2, -⟩ := @foldl_reapIfFinished cfg s s.transfers hNodup hNodup fun _ h => h
  have hSettled := @transPass_settles cfg s hNodup
  have hPass := @transUpdate_eq_transPass cfg s hNodup
  rw [transPass_fst] at hPass hSettled
  refine ⟨fun _ => transLoop_iff hNodup, ?_, by rw [hPass, h2], by rw [hPass]; exact hSettled, ?_⟩
  · rw [hPass, h1]
    exact List.filter_congr fun x hx => by simp [hx]
  · have hNodup' : (transUpdate cfg s).transfers.Nodup :=
      (transUpdate_mono s).1.nodup hNodup
    rw [transUpdate_eq_transPass hNodup', transPass_of_running]
    rw [hPass]
    exact hSettled

/-- Two bulk reads of 8 bytes in flight on one pipe, the first one retired by
the controller with its whole count. -/
def twoReadsFirstDone : Hcd :=
  qtdWriteback (transferEnqueue sampleConfig id (transferEnqueue sampleConfig id
    (ehciInit (fun _ => bulkIn 0x1000 8) (fun _ => bulkPipe) 8) 0 0).1 1 0).1 0 0

/-- Of two reads in flight, only the first finished: the reaper retires it
with its eight bytes and keeps the second. -/
theorem transUpdate_reaps_first_of_two :
    twoReadsFirstDone.transfers.Nodup ∧
      (transUpdate sampleConfig twoReadsFirstDone).transfers = [1] ∧
      (transUpdate sampleConfig twoReadsFirstDone).finished = [(0, 8)] := by
  have h := (@transUpdate_removes_finished sampleConfig twoReadsFirstDone (by decide)).2
  exact ⟨by decide, h.1.trans (by decide), h.2.1.trans (by decide)⟩

end Ehci
