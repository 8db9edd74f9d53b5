import Ehci.Links

/-! The driver under the contract `ehci.c` relies on, and the two schedules
the controller walks, over whole runs. The invariant: the async ring after
the dummy head is made of exactly the queue heads of bulk and control pipes,
the periodic schedule of those of interrupt pipes, and the hardware words
agree with the driver links. From it, every queue head the controller can
reach through the hardware words is held by a pipe, so none is pooled or
freed. -/
namespace Ehci

/-- The runs of `TransferRun` in which the USB stack and the controller keep
to what `ehci.c` assumes of them. A transfer is submitted on a pipe of its
own type, and never on an isochronous pipe: the driver builds no qTD for an
isochronous transfer, and linking its queue head, of period 0, can loop
forever. A reconfigured pipe keeps its type. The controller writes a queue
head's overlay, never its horizontal pointer. -/
inductive DriverRun (cfg : Config) (va2pa : Nat → Nat) : Hcd → (Nat → Nat) → Prop where
  | init (trs : Nat → Transfer) (pipes : Nat → Pipe) (memory : Nat)
      (hPipes : ∀ p, (pipes p).hcdpriv = none) :
      DriverRun cfg va2pa (ehciInit trs pipes memory) fun _ => 0
  | enqueue {s : Hcd} {pipeOf : Nat → Nat} (t pipe : Nat)
      (prior : DriverRun cfg va2pa s pipeOf) (hIdle : t ∉ s.transfers)
      (hType : (s.trs t).type = (s.pipes pipe).type)
      (hIso : (s.pipes pipe).type ≠ .isochronous) :
      DriverRun cfg va2pa (transferEnqueue cfg va2pa s t pipe).1 (Function.update pipeOf t pipe)
  | update {s : Hcd} {pipeOf : Nat → Nat} (prior : DriverRun cfg va2pa s pipeOf) :
      DriverRun cfg va2pa (transUpdate cfg s) pipeOf
  | dequeue {s : Hcd} {pipeOf : Nat → Nat} (t : Nat) (prior : DriverRun cfg va2pa s pipeOf) :
      DriverRun cfg va2pa (transferDequeue cfg s t) pipeOf
  | destroy {s : Hcd} {pipeOf : Nat → Nat} (pipe : Nat) (prior : DriverRun cfg va2pa s pipeOf) :
      DriverRun cfg va2pa (pipeDestroy cfg s pipe) pipeOf
  | writeback {s : Hcd} {pipeOf : Nat → Nat} (q token : Nat)
      (prior : DriverRun cfg va2pa s pipeOf) :
      DriverRun cfg va2pa (qtdWriteback s q token) pipeOf
  | overlay {s : Hcd} {pipeOf : Nat → Nat} (qh : Nat) (hw : QhHw)
      (prior : DriverRun cfg va2pa s pipeOf) (hKeep : hw.horizontal = (s.qhs qh).hw.horizontal) :
      DriverRun cfg va2pa (s.modifyQh qh fun x => { x with hw := hw }) pipeOf
  | fill {s : Hcd} {pipeOf : Nat → Nat} (t : Nat) (tr : Transfer)
      (prior : DriverRun cfg va2pa s pipeOf) :
      DriverRun cfg va2pa (s.modifyTr t fun x => { tr with hcdpriv := x.hcdpriv }) pipeOf
  | configure {s : Hcd} {pipeOf : Nat → Nat} (pipe : Nat) (p : Pipe)
      (prior : DriverRun cfg va2pa s pipeOf) (hType : p.type = (s.pipes pipe).type) :
      DriverRun cfg va2pa (s.modifyPipe pipe fun x => { p with hcdpriv := x.hcdpriv }) pipeOf
  | grant {s : Hcd} {pipeOf : Nat → Nat} (memory : Nat) (prior : DriverRun cfg va2pa s pipeOf) :
      DriverRun cfg va2pa { s with memory := memory } pipeOf

/-- Every run under the contract is a run of `TransferRun`, so it keeps the
ownership and cursor invariants. -/
theorem DriverRun.transferRun {cfg : Config} {va2pa : Nat → Nat} {s : Hcd} {pipeOf : Nat → Nat}
    (run : DriverRun cfg va2pa s pipeOf) : TransferRun cfg va2pa s pipeOf := by
  induction run with
  | init trs pipes memory hPipes => exact .init trs pipes memory hPipes
  | enqueue t pipe _ hIdle _ _ ih => exact .enqueue t pipe ih hIdle
  | update _ ih => exact .update ih
  | dequeue t _ ih => exact .dequeue t ih
  | destroy pipe _ ih => exact .destroy pipe ih
  | writeback q token _ ih => exact .writeback q token ih
  | overlay qh hw _ _ ih => exact .overlay qh hw ih
  | fill t tr _ ih => exact .fill t tr ih
  | configure pipe p _ _ ih => exact .configure pipe p ih
  | grant memory _ ih => exact .grant memory ih

/-- The two schedules of `s`: `rest` is the async ring after the dummy head
and `linked` the queue heads linked into the periodic schedule. The periodic
invariant holds with the pool set aside, the hardware words agree with the
driver links, and no queue head is on both. -/
structure SchedOk (periodicSize : Nat) (s : Hcd) (rest linked : List Nat) : Prop where
  ring : AsyncRing s (s.asyncList :: rest)
  chains : PeriodicInv periodicSize s.unpooled linked
  words : HwCoherent s
  nodup : linked.Nodup
  apart : ∀ x ∈ s.asyncList :: rest, x ∉ linked

section Transport

variable {N : Nat} {s s' : Hcd} {rest linked : List Nat}

/-- The ring depends only on the head and on the links of its members. -/
theorem AsyncRing.congr {ring : List Nat} (h : AsyncRing s ring) (hA : s'.asyncList = s.asyncList)
    (hq : ∀ x ∈ ring, (s'.qhs x).links = (s.qhs x).links) : AsyncRing s' ring := by
  obtain ⟨hHead, hNodup, hChain⟩ := h
  have hMem : ∀ x ∈ ring ++ [s.asyncList], x ∈ ring := fun x hx => by
    rcases List.mem_append.1 hx with hx | hx
    · exact hx
    · rw [List.mem_singleton.1 hx]
      exact List.mem_of_mem_head? hHead
  refine ⟨hA ▸ hHead, hNodup, hA ▸ chain'_imp_of_pairs hChain fun a ha b hb hab => ?_⟩
  have h1 := hq a (hMem a (List.dropLast_subset _ ha))
  have h2 := hq b (hMem b (List.mem_of_mem_tail hb))
  simp only [Qh.links, QhLinks.mk.injEq] at h1 h2
  obtain ⟨e1, e2, e3⟩ := hab
  exact ⟨h1.1 ▸ e1, h2.2.1 ▸ e2, h1.2.2.1 ▸ e3⟩

/-- The periodic invariant depends only on the links and periods of the
linked queue heads, the slot heads and the arena size. -/
theorem PeriodicInv.of_agree (h : PeriodicInv N s.unpooled linked)
    (hQh : ∀ x ∈ linked, (s'.qhs x).next = (s.qhs x).next ∧ (s'.qhs x).period = (s.qhs x).period)
    (hNodes : s'.periodicNodes = s.periodicNodes) (hCount : s.qhCount ≤ s'.qhCount) :
    PeriodicInv N s'.unpooled linked := by
  refine ⟨fun i => ?_, fun i hi => hNodes ▸ h.outside i hi,
    fun q hq => (h.allocated q hq).trans_le hCount, rfl⟩
  obtain ⟨c, hc, hSorted, hMem⟩ := h.chain i
  refine ⟨c, hNodes ▸ hc.congr fun y hy => (hQh y (hMem y hy)).1, ?_, hMem⟩
  refine hSorted.imp_of_mem fun {a b} ha hb hab => ?_
  show (s'.qhs b).period ≤ (s'.qhs a).period
  rw [(hQh a (hMem a ha)).2, (hQh b (hMem b hb)).2]
  exact hab

theorem HwCoherent.of_links (h : HwCoherent s) (hl : s'.links = s.links) : HwCoherent s' := by
  have hq : ∀ x, (s'.qhs x).links = (s.qhs x).links := fun x => congrFun (congrArg Links.qhs hl) x
  have hPool : s'.qhPool = s.qhPool := congrArg Links.qhPool hl
  refine ⟨fun i => ?_, fun r x hL hP hr => ?_⟩
  · have hList : s'.periodicList = s.periodicList := congrArg Links.periodicList hl
    have hNodes : s'.periodicNodes = s.periodicNodes := congrArg Links.periodicNodes hl
    rw [hList, hNodes]
    exact h.slots i
  · have e := hq r
    simp only [Qh.links, QhLinks.mk.injEq] at e
    rw [e.1]
    exact h.horizontal r x (e.2.2.2.2 ▸ hL) (hPool ▸ hP) (e.2.2.1 ▸ hr)

theorem SchedOk.of_links (h : SchedOk N s rest linked) (hl : s'.links = s.links) :
    SchedOk N s' rest linked := by
  have hA : s'.asyncList = s.asyncList := congrArg Links.asyncList hl
  have hq : ∀ x, (s'.qhs x).links = (s.qhs x).links := fun x => congrFun (congrArg Links.qhs hl) x
  have hAgree : ∀ x, (s'.qhs x).next = (s.qhs x).next ∧ (s'.qhs x).period = (s.qhs x).period :=
    fun x => by
      have e := hq x
      simp only [Qh.links, QhLinks.mk.injEq] at e
      exact ⟨e.1, e.2.2.2.1⟩
  refine ⟨hA ▸ h.ring.congr hA fun x _ => hq x,
    h.chains.of_agree (fun x _ => hAgree x) (congrArg Links.periodicNodes hl)
      (congrArg Links.qhCount hl).ge,
    h.words.of_links hl, h.nodup, hA ▸ h.apart⟩

end Transport

section Moves

variable {cfg : Config} {N : Nat} {s s₁ : Hcd} {rest linked : List Nat} {q : Nat}

/-- A queue head after the dummy head sits between two ring members, the
one before it being another queue head. -/
theorem AsyncRing.around (h : AsyncRing s (s.asyncList :: rest)) (hq : q ∈ rest) :
    ∃ p n, p ∈ s.asyncList :: rest ∧ n ∈ s.asyncList :: rest ∧ p ≠ q ∧
      AsyncLink s p q ∧ AsyncLink s q n := by
  obtain ⟨⟨n, hn, hqn⟩, p, hp, hpq⟩ := h.neighbours (List.mem_cons_of_mem _ hq)
  refine ⟨p, n, hp, hn, ?_, hpq, hqn⟩
  -- the successor of `q` along the ring is not `q`
  rintro rfl
  obtain ⟨-, hNodup, hChain⟩ := h
  obtain ⟨A, B, rfl⟩ := List.append_of_mem hq
  obtain ⟨b, B', hB⟩ : ∃ b B', B ++ [s.asyncList] = b :: B' :=
    ⟨(B ++ [s.asyncList]).head (by simp), _, (List.head_cons_tail _ _).symm⟩
  have hSplit : s.asyncList :: (A ++ p :: B) ++ [s.asyncList] = (s.asyncList :: A) ++ p :: b :: B' := by
    rw [← hB]
    simp
  rw [hSplit, List.chain'_append_cons_cons] at hChain
  have hb : b = p := Option.some.inj (hChain.2.1.1.symm.trans hpq.1)
  have hbMem : b ∈ B ++ [s.asyncList] := hB ▸ List.mem_cons_self b B'
  simp only [List.nodup_cons, List.mem_append, List.mem_cons, not_or, List.nodup_append] at hNodup
  rw [hb, List.mem_append, List.mem_singleton] at hbMem
  rcases hbMem with h | h
  · exact hNodup.2.2.1.1 h
  · exact hNodup.1.2.1 h.symm

/-- `ehci_qhLinkAsync` keeps the hardware words in agreement. -/
theorem HwCoherent.qhLinkAsync {r : Nat} (h : HwCoherent s) (hqd : q ≠ s.asyncList) (hqr : q ≠ r)
    (hr : AsyncLink s s.asyncList r) : HwCoherent (qhLinkAsync s q) := by
  obtain ⟨qhs, hEq⟩ := @qhLinkAsync_eq s q
  refine ⟨fun i => by rw [hEq]; exact h.slots i, fun y z hL hP hy => ?_⟩
  rw [qhLinkAsync_live] at hL
  rw [hEq] at hP
  obtain ⟨hN, -, hH⟩ := qhLinkAsync_fields hqd hqr hr.1 y
  rw [hH] at hy
  rw [hN]
  split_ifs at hy ⊢
  · exact congrArg some (qhPtr_some_inj hy)
  · rw [hr.2.2] at hy
    exact congrArg some (qhPtr_some_inj hy)
  · exact h.horizontal y z hL hP hy

/-- `ehci_qhUnlinkAsync` keeps the hardware words in agreement. -/
theorem HwCoherent.qhUnlinkAsync {p n : Nat} (h : HwCoherent s) (hp : AsyncLink s p q)
    (hn : AsyncLink s q n) (hpq : p ≠ q) : HwCoherent (qhUnlinkAsync s q) := by
  obtain ⟨qhs, hEq⟩ := @qhUnlinkAsync_eq s q
  refine ⟨fun i => by rw [hEq]; exact h.slots i, fun y z hL hP hy => ?_⟩
  rw [qhUnlinkAsync_live] at hL
  rw [hEq] at hP
  obtain ⟨hN, -, hH⟩ := qhUnlinkAsync_fields hp.2.1 hn.1 hpq y
  rw [hH] at hy
  rw [hN]
  split_ifs at hy ⊢
  · rw [hn.2.2] at hy
    exact congrArg some (qhPtr_some_inj hy)
  · exact h.horizontal y z hL hP hy

/-- A state that keeps the records of the queue heads on the schedules, the
list head and the slot heads, and whose words agree, keeps the schedules. -/
theorem SchedOk.of_offSchedule (h : SchedOk N s rest linked)
    (hKeep : ∀ x ∈ s.asyncList :: rest ++ linked, s₁.qhs x = s.qhs x)
    (hA : s₁.asyncList = s.asyncList) (hNodes : s₁.periodicNodes = s.periodicNodes)
    (hCount : s.qhCount ≤ s₁.qhCount) (hWords : HwCoherent s₁) : SchedOk N s₁ rest linked := by
  refine ⟨hA ▸ h.ring.congr hA fun x hx => ?_, h.chains.of_agree (fun x hx => ?_) hNodes hCount,
    hWords, h.nodup, hA ▸ h.apart⟩
  · rw [hKeep x (List.mem_append_left _ hx)]
  · rw [hKeep x (List.mem_append_right _ hx)]
    exact ⟨rfl, rfl⟩

/-- A write to a queue head on neither schedule whose horizontal pointer
addresses nothing keeps them. -/
theorem SchedOk.modifyQh_off (h : SchedOk N s rest linked) (hOff : q ∉ s.asyncList :: rest ++ linked)
    {f : Qh → Qh} (hHor : ∀ y, (f (s.qhs q)).hw.horizontal ≠ qhPtr (some y)) :
    SchedOk N (s.modifyQh q f) rest linked :=
  h.of_offSchedule (fun x hx => Function.update_noteq (fun e : x = q => hOff (e ▸ hx)) _ _) rfl rfl le_rfl
    (h.words.modifyQh_unaddressed hHor)

/-- `ehci_qhAlloc` returns a queue head with a fresh record. -/
theorem qhAlloc_fresh (h : qhAlloc s = some (s₁, q)) : s₁.qhs q = qhFresh := by
  obtain ⟨qhs, hEq, -⟩ := qhAlloc_eq h
  rw [hEq]
  exact Function.update_same _ _ _

/-- `ehci_qhAlloc` keeps the hardware words in agreement: the queue head it
returns addresses nothing, and it writes no other queue head in use. -/
theorem HwCoherent.qhAlloc (h : HwCoherent s) (hA : qhAlloc s = some (s₁, q)) : HwCoherent s₁ := by
  obtain ⟨qhs, hEq, hRel, -, hCase⟩ := qhAlloc_eq hA
  refine ⟨fun i => by rw [hEq]; exact h.slots i, fun r x hL hP hr => ?_⟩
  have hr' : s₁.qhs r = Function.update qhs q qhFresh r := by rw [hEq]
  by_cases hrq : r = q
  · rw [hr', hrq, Function.update_same] at hr
    exact absurd hr (qhPtrInvalid_ne_qhPtr x)
  -- any other queue head it writes was pooled, and still is
  have hNP : r ∉ s.qhPool := by
    rcases hCase with ⟨hPool, -⟩ | ⟨hPool, -⟩ <;> rw [hPool]
    · exact fun hm => (List.mem_cons.1 hm).elim hrq hP
    · exact List.not_mem_nil r
  rw [hr', Function.update_noteq hrq, hRel.off r hNP] at hL hr ⊢
  exact h.horizontal r x hL hNP hr

/-- `ehci_qhAlloc` keeps the schedules when none of their queue heads is
pooled: it writes only the queue head it returns and the pool ring. -/
theorem SchedOk.qhAlloc (h : SchedOk N s rest linked) (hA : qhAlloc s = some (s₁, q))
    (hFree : ∀ x ∈ s.asyncList :: rest ++ linked, x < s.qhCount ∧ x ∉ s.qhPool) :
    SchedOk N s₁ rest linked := by
  obtain ⟨qhs, hEq, hRel, -, hCase⟩ := qhAlloc_eq hA
  have hCount : s.qhCount ≤ s₁.qhCount := by
    rcases hCase with ⟨-, hC, -⟩ | ⟨-, -, -, hC, -⟩ <;> omega
  refine h.of_offSchedule (fun x hx => ?_) (by rw [hEq]) (by rw [hEq]) hCount (h.words.qhAlloc hA)
  obtain ⟨hxc, hxP⟩ := hFree x hx
  have hxq : x ≠ q := by
    rcases hCase with ⟨hPool, -⟩ | ⟨-, -, rfl, -⟩
    · exact fun e => hxP (by rw [hPool, e]; exact List.mem_cons_self q _)
    · exact Nat.ne_of_lt hxc
  rw [hEq]
  exact (Function.update_noteq hxq _ _).trans (hRel.off x hxP)

/-- `ehci_qhPut` keeps the hardware words in agreement: it writes only
queue heads it leaves in the pool or frees. -/
theorem HwCoherent.qhPut (h : HwCoherent s) : HwCoherent (qhPut cfg s q) := by
  obtain ⟨qhs, pool, n, hEq, hRel⟩ := qhPut_eq cfg s q
  refine ⟨fun i => by rw [hEq]; exact h.slots i, fun r x hL hP hr => ?_⟩
  by_cases hW : r = q ∨ r ∈ s.qhPool
  · rcases qhPut_pooled cfg s hW with hIn | hDead
    · exact absurd hIn hP
    · rw [hDead] at hL
      cases hL
  have e : (Ehci.qhPut cfg s q).qhs r = s.qhs r := by
    rw [hEq]
    exact hRel.off r hW
  rw [e] at hL hr ⊢
  exact h.horizontal r x hL (fun hm => hW (Or.inr hm)) hr

/-- `ehci_qhPut` of a queue head on neither schedule keeps them when none of
their queue heads is pooled. -/
theorem SchedOk.qhPut (h : SchedOk N s rest linked)
    (hFree : ∀ x ∈ s.asyncList :: rest ++ linked, x ≠ q ∧ x ∉ s.qhPool) :
    SchedOk N (qhPut cfg s q) rest linked := by
  obtain ⟨qhs, pool, n, hEq, hRel⟩ := qhPut_eq cfg s q
  refine h.of_offSchedule (fun x hx => ?_) (by rw [hEq]) (by rw [hEq]) (le_of_eq (by rw [hEq]))
    h.words.qhPut
  rw [hEq]
  exact hRel.off x fun hW => hW.elim (hFree x hx).1 (hFree x hx).2

/-- `ehci_qhLinkAsync` puts a queue head on neither schedule after the
dummy head. -/
theorem SchedOk.linkAsync (h : SchedOk N s rest linked) (hOff : q ∉ s.asyncList :: rest)
    (hOffL : q ∉ linked) : SchedOk N (qhLinkAsync s q) (q :: rest) linked := by
  obtain ⟨⟨r, hr, hdr⟩, -⟩ := h.ring.neighbours (List.mem_cons_self _ _)
  have hqd : q ≠ s.asyncList := fun e => hOff (e ▸ List.mem_cons_self _ _)
  have hqr : q ≠ r := fun e => hOff (e ▸ hr)
  obtain ⟨qhs, hEq⟩ := @qhLinkAsync_eq s q
  refine ⟨by rw [qhLinkAsync_asyncList]; exact asyncRing_link h.ring hOff,
    h.chains.of_agree (fun x hx => ?_) (by rw [hEq]) (by rw [hEq]),
    h.words.qhLinkAsync hqd hqr hdr, h.nodup, fun x hx => ?_⟩
  · have hxd : x ≠ s.asyncList := fun e => h.apart x (e ▸ List.mem_cons_self _ _) hx
    have hxq : x ≠ q := fun e => hOffL (e ▸ hx)
    have hxr : (s.qhs s.asyncList).next ≠ some x := fun e =>
      h.apart x (Option.some.inj (hdr.1.symm.trans e) ▸ hr) hx
    rw [qhLinkAsync_qhs_off hxd hxq hxr]
    exact ⟨rfl, rfl⟩
  · rw [qhLinkAsync_asyncList, List.mem_cons, List.mem_cons] at hx
    rcases hx with rfl | rfl | hx
    · exact h.apart _ (List.mem_cons_self _ _)
    · exact hOffL
    · exact h.apart x (List.mem_cons_of_mem _ hx)

/-- `ehci_qhLinkPeriodic` links a queue head on neither schedule whose
horizontal pointer addresses nothing. -/
theorem SchedOk.linkPeriodic (h : SchedOk N s rest linked) (hOff : q ∉ s.asyncList :: rest)
    (hOffL : q ∉ linked) (hq : q < s.qhCount)
    (hHor : ∀ x, (s.qhs q).hw.horizontal ≠ qhPtr (some x)) :
    SchedOk N (qhLinkPeriodic N s q) rest (q :: linked) := by
  obtain ⟨qhs, nodes, list, hEq⟩ := @relinked_qhLinkPeriodic s q N
  have hA : (qhLinkPeriodic N s q).asyncList = s.asyncList := by rw [hEq]
  have hInv : PeriodicInv N (qhLinkPeriodic N s q).unpooled (q :: linked) := by
    rw [← qhLinkPeriodic_unpooled]
    exact inv_qhLinkPeriodic h.chains hOffL hq
  refine ⟨hA ▸ h.ring.congr hA fun x hx => ?_, hInv, hwCoherent_qhLinkPeriodic h.chains hOffL h.words hHor,
    List.nodup_cons.2 ⟨hOffL, h.nodup⟩, fun x hx hxl => ?_⟩
  · have e : (qhLinkPeriodic N s.unpooled q).qhs x = s.unpooled.qhs x :=
      qhLinkPeriodic_qhs_off h.chains (fun e => hOff (e ▸ hx)) (h.apart x hx)
    rw [qhLinkPeriodic_unpooled] at e
    exact congrArg Qh.links e
  · rw [hA] at hx
    rcases List.mem_cons.1 hxl with rfl | hxl
    exacts [hOff hx, h.apart x hx hxl]

/-- `ehci_qhUnlinkAsync` takes a queue head after the dummy head off the ring. -/
theorem SchedOk.unlinkAsync (h : SchedOk N s rest linked) (hq : q ∈ rest) :
    SchedOk N (qhUnlinkAsync s q) (rest.erase q) linked := by
  obtain ⟨p, n, hp, hn, hpq, hpL, hnL⟩ := h.ring.around hq
  obtain ⟨qhs, hEq⟩ := @qhUnlinkAsync_eq s q
  refine ⟨by rw [qhUnlinkAsync_asyncList]; exact asyncRing_unlink h.ring hq,
    h.chains.of_agree (fun x hx => ?_) (by rw [hEq]) (by rw [hEq]),
    h.words.qhUnlinkAsync hpL hnL hpq, h.nodup, fun x hx => ?_⟩
  · have hxp : x ≠ p := fun e => h.apart x (e ▸ hp) hx
    have hxn : x ≠ n := fun e => h.apart x (e ▸ hn) hx
    rw [qhUnlinkAsync_qhs_off hpL.2.1 hnL.1 hpq hxp hxn]
    exact ⟨rfl, rfl⟩
  · rw [qhUnlinkAsync_asyncList] at hx
    exact h.apart x (List.mem_cons.2 ((List.mem_cons.1 hx).imp id List.mem_of_mem_erase))

/-- `ehci_qhUnlinkPeriodic` takes a queue head out of the periodic schedule. -/
theorem SchedOk.unlinkPeriodic (h : SchedOk N s rest linked) :
    SchedOk N (qhUnlinkPeriodic N s q) rest (linked.erase q) := by
  obtain ⟨qhs, nodes, list, hEq⟩ := @relinked_qhUnlinkPeriodic N s q
  have hA : (qhUnlinkPeriodic N s q).asyncList = s.asyncList := by rw [hEq]
  have hInv : PeriodicInv N (qhUnlinkPeriodic N s q).unpooled (linked.erase q) := by
    rw [← qhUnlinkPeriodic_unpooled]
    exact inv_qhUnlinkPeriodic q h.chains
  refine ⟨hA ▸ h.ring.congr hA fun x hx => ?_, hInv,
    hwCoherent_unlinkSlots q (List.range N) h.words, h.nodup.erase q,
    fun x hx hxl => h.apart x (hA ▸ hx) (List.mem_of_mem_erase hxl)⟩
  have e : (qhUnlinkPeriodic N s.unpooled q).qhs x = s.unpooled.qhs x :=
    qhUnlinkPeriodic_qhs_off h.chains (h.apart x hx)
  rw [qhUnlinkPeriodic_unpooled] at e
  exact congrArg Qh.links e

/-- Writes to pipes are not read by the schedules. -/
theorem SchedOk.modifyPipe (h : SchedOk N s rest linked) {pipe : Nat} {f : Pipe → Pipe} :
    SchedOk N (s.modifyPipe pipe f) rest linked :=
  ⟨h.ring, h.chains.of_agree (fun _ _ => ⟨rfl, rfl⟩) rfl le_rfl, ⟨h.words.slots, h.words.horizontal⟩,
    h.nodup, h.apart⟩

end Moves

/-- Queue head `q` is held by a pipe whose type satisfies `T`. -/
def HeldBy (T : TransferType → Prop) (pipes : Nat → Pipe) (q : Nat) : Prop :=
  ∃ p, (pipes p).hcdpriv = some q ∧ T (pipes p).type

/-- The types whose queue heads `ehci_transferEnqueue` links into the async
schedule. -/
def IsAsync (t : TransferType) : Prop := t = .bulk ∨ t = .control

/-- The pipes of the two schedules: the ring after the dummy head is made of
the queue heads of bulk and control pipes, the periodic schedule of those of
interrupt pipes, and no isochronous pipe holds a queue head. -/
structure Holders (pipes : Nat → Pipe) (rest linked : List Nat) : Prop where
  async : ∀ q, q ∈ rest ↔ HeldBy IsAsync pipes q
  periodic : ∀ q, q ∈ linked ↔ HeldBy (· = .interrupt) pipes q
  noIso : ∀ p q, (pipes p).hcdpriv = some q → (pipes p).type ≠ .isochronous

section Holders

variable {T : TransferType → Prop} {pipes pipes' : Nat → Pipe} {rest linked : List Nat}
  {pipe q x : Nat}

/-- Which queue heads the pipes hold, and with which types, is all the
holders read. -/
theorem Holders.congr (h : Holders pipes rest linked)
    (hp : ∀ p, (pipes' p).hcdpriv = (pipes p).hcdpriv ∧ (pipes' p).type = (pipes p).type) :
    Holders pipes' rest linked := by
  have hHeld : ∀ T x, HeldBy T pipes' x ↔ HeldBy T pipes x := fun T x => by
    simp only [HeldBy, fun p => (hp p).1, fun p => (hp p).2]
  refine ⟨fun x => (h.async x).trans (hHeld _ x).symm, fun x => (h.periodic x).trans (hHeld _ x).symm,
    fun p y hy => ?_⟩
  rw [(hp p).2]
  exact h.noIso p y ((hp p).1 ▸ hy)

/-- Handing a free queue head to a pipe that holds none. -/
theorem HeldBy.assign_iff (hFree : (pipes pipe).hcdpriv = none) :
    HeldBy T (Function.update pipes pipe { pipes pipe with hcdpriv := some q }) x ↔
      HeldBy T pipes x ∨ (x = q ∧ T (pipes pipe).type) := by
  constructor
  · rintro ⟨p, hp, hT⟩
    by_cases hpp : p = pipe
    · subst hpp
      simp only [Function.update_same, Option.some.injEq] at hp hT
      exact Or.inr ⟨hp.symm, hT⟩
    · rw [Function.update_noteq hpp] at hp hT
      exact Or.inl ⟨p, hp, hT⟩
  · rintro (⟨p, hp, hT⟩ | ⟨rfl, hT⟩)
    · have hpp : p ≠ pipe := fun e => by rw [e, hFree] at hp; cases hp
      exact ⟨p, by rwa [Function.update_noteq hpp], by rwa [Function.update_noteq hpp]⟩
    · exact ⟨pipe, by simp, by simpa using hT⟩

/-- Taking its queue head from the one pipe that holds it. -/
theorem HeldBy.release_iff (hHeld : (pipes pipe).hcdpriv = some q)
    (hUniq : ∀ p, (pipes p).hcdpriv = some q → p = pipe) :
    HeldBy T (Function.update pipes pipe { pipes pipe with hcdpriv := none }) x ↔
      HeldBy T pipes x ∧ x ≠ q := by
  constructor
  · rintro ⟨p, hp, hT⟩
    have hpp : p ≠ pipe := fun e => by subst e; simp at hp
    rw [Function.update_noteq hpp] at hp hT
    exact ⟨⟨p, hp, hT⟩, fun e => hpp (hUniq p (e ▸ hp))⟩
  · rintro ⟨⟨p, hp, hT⟩, hxq⟩
    have hpp : p ≠ pipe := fun e => hxq (Option.some.inj (hp.symm.trans (e ▸ hHeld)))
    exact ⟨p, by rwa [Function.update_noteq hpp], by rwa [Function.update_noteq hpp]⟩

theorem Holders.noIso_update (h : Holders pipes rest linked) {P : Pipe}
    (hP : ∀ y, P.hcdpriv = some y → P.type ≠ .isochronous) :
    ∀ p y, (Function.update pipes pipe P p).hcdpriv = some y →
      (Function.update pipes pipe P p).type ≠ .isochronous := fun p y hy => by
  by_cases hp : p = pipe
  · subst hp
    rw [Function.update_same] at hy ⊢
    exact hP y hy
  · rw [Function.update_noteq hp] at hy ⊢
    exact h.noIso p y hy

/-- A bulk or control pipe gets a queue head no pipe holds: it joins the ring. -/
theorem Holders.assign_async (h : Holders pipes rest linked) (hFree : (pipes pipe).hcdpriv = none)
    (hq : ∀ p, (pipes p).hcdpriv ≠ some q) (hT : IsAsync (pipes pipe).type) :
    Holders (Function.update pipes pipe { pipes pipe with hcdpriv := some q }) (q :: rest) linked := by
  have hNotInt : (pipes pipe).type ≠ .interrupt := by rcases hT with hT | hT <;> rw [hT] <;> decide
  refine ⟨fun x => ?_, fun x => ?_, h.noIso_update fun _ _ => by rcases hT with hT | hT <;> simp [hT]⟩
  · rw [HeldBy.assign_iff hFree, List.mem_cons, h.async x]
    constructor
    · rintro (rfl | hx)
      exacts [Or.inr ⟨rfl, hT⟩, Or.inl hx]
    · rintro (hx | ⟨rfl, -⟩)
      exacts [Or.inr hx, Or.inl rfl]
  · rw [HeldBy.assign_iff hFree, h.periodic x]
    exact ⟨Or.inl, fun hx => hx.elim id fun e => absurd e.2 hNotInt⟩

/-- An interrupt pipe gets a queue head no pipe holds: it joins the
periodic schedule. -/
theorem Holders.assign_periodic (h : Holders pipes rest linked) (hFree : (pipes pipe).hcdpriv = none)
    (hT : (pipes pipe).type = .interrupt) :
    Holders (Function.update pipes pipe { pipes pipe with hcdpriv := some q }) rest (q :: linked) := by
  have hNotAsync : ¬IsAsync (pipes pipe).type := by rw [hT]; simp [IsAsync]
  refine ⟨fun x => ?_, fun x => ?_, h.noIso_update fun _ _ => by simp [hT]⟩
  · rw [HeldBy.assign_iff hFree, h.async x]
    exact ⟨Or.inl, fun hx => hx.elim id fun e => absurd e.2 hNotAsync⟩
  · rw [HeldBy.assign_iff hFree, List.mem_cons, h.periodic x]
    constructor
    · rintro (rfl | hx)
      exacts [Or.inr ⟨rfl, hT⟩, Or.inl hx]
    · rintro (hx | ⟨rfl, -⟩)
      exacts [Or.inr hx, Or.inl rfl]

/-- Destroying a bulk or control pipe takes its queue head off the ring. -/
theorem Holders.release_async (h : Holders pipes rest linked) (hHeld : (pipes pipe).hcdpriv = some q)
    (hUniq : ∀ p, (pipes p).hcdpriv = some q → p = pipe) (hNodup : rest.Nodup)
    (hT : IsAsync (pipes pipe).type) :
    Holders (Function.update pipes pipe { pipes pipe with hcdpriv := none }) (rest.erase q) linked := by
  refine ⟨fun x => ?_, fun x => ?_, h.noIso_update fun _ hy => by cases hy⟩
  · rw [HeldBy.release_iff hHeld hUniq, hNodup.mem_erase_iff, h.async x, and_comm]
  · rw [HeldBy.release_iff hHeld hUniq, h.periodic x]
    refine ⟨fun hx => ⟨hx, ?_⟩, And.left⟩
    rintro rfl
    obtain ⟨p, hp, hTp⟩ := hx
    rw [hUniq p hp] at hTp
    rw [hTp] at hT
    simp [IsAsync] at hT

/-- Destroying an interrupt pipe takes its queue head out of the periodic
schedule. -/
theorem Holders.release_periodic (h : Holders pipes rest linked)
    (hHeld : (pipes pipe).hcdpriv = some q) (hUniq : ∀ p, (pipes p).hcdpriv = some q → p = pipe)
    (hNodup : linked.Nodup) (hT : (pipes pipe).type = .interrupt) :
    Holders (Function.update pipes pipe { pipes pipe with hcdpriv := none }) rest (linked.erase q) := by
  refine ⟨fun x => ?_, fun x => ?_, h.noIso_update fun _ hy => by cases hy⟩
  · rw [HeldBy.release_iff hHeld hUniq, h.async x]
    refine ⟨fun hx => ⟨hx, ?_⟩, And.left⟩
    rintro rfl
    obtain ⟨p, hp, hTp⟩ := hx
    rw [hUniq p hp, hT] at hTp
    simp [IsAsync] at hTp
  · rw [HeldBy.release_iff hHeld hUniq, hNodup.mem_erase_iff, h.periodic x, and_comm]

end Holders

/-- Queue head `y` is allocated, not freed and not in the pool. -/
def QhInUse (s : Hcd) (y : Nat) : Prop := y < s.qhCount ∧ (s.qhs y).live = true ∧ y ∉ s.qhPool

section InUse

variable {cfg : Config} {pipeOf : Nat → Nat} {s : Hcd} {rest linked : List Nat} {y : Nat}

/-- A queue head a pipe holds is in use. -/
theorem Owned.inUse {T : TransferType → Prop} (h : Owned cfg pipeOf s) (hy : HeldBy T s.pipes y) :
    QhInUse s y := by
  obtain ⟨p, hp, -⟩ := hy
  obtain ⟨hc, hl, -, -⟩ := h.qhs.pipe_qh p y hp
  exact ⟨hc, hl, fun hPool => (h.qhs.qhPool_free y hPool).2.2.2 p hp⟩

/-- No queue head on the schedules is pooled: the dummy head never is, and
the others are held by pipes. -/
theorem Holders.off_pool (hHold : Holders s.pipes rest linked) (h : Owned cfg pipeOf s) :
    ∀ x ∈ s.asyncList :: rest ++ linked, x < s.qhCount ∧ x ∉ s.qhPool := by
  intro x hx
  rcases List.mem_append.1 hx with hx | hx
  · rcases List.mem_cons.1 hx with rfl | hx
    · exact ⟨h.qhs.async_lt, fun hP => (h.qhs.qhPool_free _ hP).2.2.1 rfl⟩
    · exact ⟨(h.inUse ((hHold.async x).1 hx)).1, (h.inUse ((hHold.async x).1 hx)).2.2⟩
  · exact ⟨(h.inUse ((hHold.periodic x).1 hx)).1, (h.inUse ((hHold.periodic x).1 hx)).2.2⟩

end InUse

/-- The schedule invariant of the driver. -/
def Scheduled (periodicSize : Nat) (s : Hcd) : Prop :=
  ∃ rest linked, SchedOk periodicSize s rest linked ∧ Holders s.pipes rest linked

section Steps

variable {cfg : Config} {va2pa : Nat → Nat} {pipeOf : Nat → Nat} {N : Nat} {s s' : Hcd}

theorem Scheduled.of_links (h : Scheduled N s) (hl : s'.links = s.links) : Scheduled N s' := by
  obtain ⟨rest, linked, hOk, hHold⟩ := h
  exact ⟨rest, linked, hOk.of_links hl,
    hHold.congr fun p => Prod.mk.inj (congrFun (congrArg Links.holders hl) p)⟩

/-- `ehci_init` starts both schedules empty. -/
theorem ehciInit_scheduled (trs : Nat → Transfer) (pipes : Nat → Pipe) (memory : Nat)
    (hPipes : ∀ p, (pipes p).hcdpriv = none) : Scheduled N (ehciInit trs pipes memory) := by
  have hFree : ∀ T q, ¬HeldBy T pipes q := fun T q ⟨p, hp, _⟩ => by rw [hPipes p] at hp; cases hp
  refine ⟨[], [], ⟨⟨rfl, List.nodup_singleton _, by simp [AsyncLink, ehciInit, asyncHead]⟩,
    (PeriodicRun.init trs pipes memory).inv, (@PeriodicRun.init N trs pipes memory).hwCoherent,
    List.nodup_nil, fun _ _ => List.not_mem_nil _⟩,
    ⟨fun q => iff_of_false (List.not_mem_nil q) (hFree _ q),
      fun q => iff_of_false (List.not_mem_nil q) (hFree _ q), fun p q hq => ?_⟩⟩
  rw [show (ehciInit trs pipes memory).pipes = pipes from rfl, hPipes p] at hq
  cases hq

/-- The queue head `ehci_transferEnqueue` finds or makes keeps the invariant:
a new one goes on the schedule of its pipe's type. -/
theorem pipeQh_scheduled {tr : Transfer} {pipe qh : Nat} (h : Owned cfg pipeOf s)
    (hS : Scheduled cfg.periodicSize s) (hType : tr.type = (s.pipes pipe).type)
    (hIso : (s.pipes pipe).type ≠ .isochronous) (hQh : pipeQh cfg s tr pipe = some (s', qh)) :
    Scheduled cfg.periodicSize s' := by
  obtain ⟨rest, linked, hOk, hHold⟩ := hS
  unfold pipeQh at hQh
  dsimp only at hQh
  split at hQh
  · rename_i hNone
    split at hQh
    · cases hQh
    rename_i s₀ q hAlloc
    obtain ⟨rfl, rfl⟩ := Prod.mk.inj (Option.some.inj hQh)
    -- the queue head comes off the pool or is a new record: no pipe holds it
    obtain ⟨-, hPipes, hA, -, hCase⟩ := qhAlloc_cases hAlloc
    obtain ⟨hFree, hqA, hqc⟩ : (∀ p, (s.pipes p).hcdpriv ≠ some q) ∧ q ≠ s.asyncList ∧
        q < s₀.qhCount := by
      rcases hCase with ⟨hPool, hC, -⟩ | ⟨-, -, rfl, hC, -⟩
      · obtain ⟨hqc, -, hqA, hqP⟩ := h.qhs.qhPool_free q
          (show q ∈ s.qhPool by rw [hPool]; exact List.mem_cons_self q _)
        exact ⟨hqP, hqA, hC ▸ hqc⟩
      · exact ⟨fun p hp => Nat.lt_irrefl _ (h.qhs.pipe_qh p _ hp).1,
          Nat.ne_of_gt h.qhs.async_lt, hC ▸ Nat.lt_succ_self _⟩
    have hOff : q ∉ s.asyncList :: rest := fun hq => by
      rcases List.mem_cons.1 hq with hq | hq
      · exact hqA hq
      · obtain ⟨p, hp, -⟩ := (hHold.async q).1 hq
        exact hFree p hp
    have hOffL : q ∉ linked := fun hq => by
      obtain ⟨p, hp, -⟩ := (hHold.periodic q).1 hq
      exact hFree p hp
    have hFresh : s₀.qhs q = qhFresh := qhAlloc_fresh hAlloc
    have hInvalid : ∀ y, (qhConf qhFresh (s.pipes pipe)).hw.horizontal ≠ qhPtr (some y) :=
      fun y => qhPtrInvalid_ne_qhPtr y
    -- allocated, configured and handed to the pipe, still on no schedule
    set s₂ := (s₀.modifyQh q fun x => qhConf x (s.pipes pipe)).modifyPipe pipe
      fun x => { x with hcdpriv := some q }
    have h₁ : SchedOk cfg.periodicSize (s₀.modifyQh q fun x => qhConf x (s.pipes pipe)) rest linked :=
      (hOk.qhAlloc hAlloc (hHold.off_pool h)).modifyQh_off
        (fun hq => (List.mem_append.1 hq).elim (fun hq => hOff (hA ▸ hq)) hOffL)
        fun y => by rw [hFresh]; exact hInvalid y
    have h₂ : SchedOk cfg.periodicSize s₂ rest linked := h₁.modifyPipe
    have hPipes₂ : s₂.pipes = Function.update s.pipes pipe { s.pipes pipe with hcdpriv := some q } := by
      show Function.update s₀.pipes pipe _ = _
      simp only [Hcd.modifyQh_pipes, hPipes]
    rw [hType]
    split
    · -- a bulk or control pipe: after the dummy head
      rename_i hT
      obtain ⟨qhs, hEq⟩ := @qhLinkAsync_eq s₂ q
      refine ⟨q :: rest, linked, h₂.linkAsync (hA ▸ hOff) hOffL, ?_⟩
      rw [hEq, show ({ s₂ with qhs := qhs } : Hcd).pipes = s₂.pipes from rfl, hPipes₂]
      exact hHold.assign_async hNone hFree hT
    · -- an interrupt pipe: into the periodic schedule
      rename_i hT
      have hInt : (s.pipes pipe).type = .interrupt := by
        revert hT hIso
        cases (s.pipes pipe).type <;> simp
      obtain ⟨qhs, nodes, list, hEq⟩ := @relinked_qhLinkPeriodic s₂ q cfg.periodicSize
      refine ⟨rest, q :: linked, h₂.linkPeriodic (hA ▸ hOff) hOffL hqc ?_, ?_⟩
      · simpa [s₂, hFresh] using hInvalid
      · rw [hEq, show ({ s₂ with qhs := qhs, periodicNodes := nodes, periodicList := list } : Hcd).pipes =
          s₂.pipes from rfl, hPipes₂]
        exact hHold.assign_periodic hNone hInt
  · obtain ⟨rfl, rfl⟩ := Prod.mk.inj (Option.some.inj hQh)
    refine Scheduled.of_links ⟨rest, linked, hOk, hHold⟩ ?_
    rw [links_ite_modifyQh, links_ite_modifyQh] <;> exact fun _ => rfl

/-- `ehci_transferEnqueue` keeps the invariant. -/
theorem transferEnqueue_scheduled {t pipe : Nat} (h : Owned cfg pipeOf s)
    (hS : Scheduled cfg.periodicSize s) (hType : (s.trs t).type = (s.pipes pipe).type)
    (hIso : (s.pipes pipe).type ≠ .isochronous) :
    Scheduled cfg.periodicSize (transferEnqueue cfg va2pa s t pipe).1 := by
  cases hRoot : (s.pipes pipe).roothub
  · cases hQh : pipeQh cfg s (s.trs t) pipe with
    | none =>
        have hEq : (transferEnqueue cfg va2pa s t pipe).1 = s := by
          simp [transferEnqueue, hRoot, hQh]
        rw [hEq]
        exact hS
    | some r =>
        exact (pipeQh_scheduled h hS hType hIso hQh).of_links (transferEnqueue_frame h hRoot hQh).1
  · have hEq : (transferEnqueue cfg va2pa s t pipe).1 = s := by
      simp [transferEnqueue, hRoot, roothubReq]
    rw [hEq]
    exact hS

/-- `ehci_pipeDestroy` keeps the invariant: the queue head leaves the
schedule of its pipe's type before it is pooled. -/
theorem pipeDestroy_scheduled {pipe : Nat} (h : Owned cfg pipeOf s)
    (hS : Scheduled cfg.periodicSize s) : Scheduled cfg.periodicSize (pipeDestroy cfg s pipe) := by
  obtain ⟨rest, linked, hOk, hHold⟩ := hS
  unfold pipeDestroy
  dsimp only
  split
  · exact ⟨rest, linked, hOk, hHold⟩
  rename_i qh hqh
  have hUniq : ∀ p, (s.pipes p).hcdpriv = some qh → p = pipe :=
    fun p hp => (h.qhs.pipe_qh pipe qh hqh).2.2.2 p hp
  -- once the queue head is off its schedule, the rest of the call moves no link
  suffices hKey : ∀ (s₁ : Hcd) rest' linked', SchedOk cfg.periodicSize s₁ rest' linked' →
      s₁.pipes = s.pipes → s₁.transfers = s.transfers → s₁.asyncList = s.asyncList →
      s₁.qhPool = s.qhPool →
      Holders (Function.update s.pipes pipe { s.pipes pipe with hcdpriv := none }) rest' linked' →
      Scheduled cfg.periodicSize (qhPut cfg ((if s₁.transfers = [] then s₁
        else transUpdate cfg (deactivateOn s₁ qh s₁.transfers)).modifyPipe pipe
          fun x => { x with hcdpriv := none }) qh) by
    split
    · rename_i hT
      obtain ⟨qhs, hEq⟩ := @qhUnlinkAsync_eq s qh
      exact hKey _ _ _ (hOk.unlinkAsync ((hHold.async qh).2 ⟨pipe, hqh, hT⟩)) (by rw [hEq])
        (by rw [hEq]) (by rw [hEq]) (by rw [hEq])
        (hHold.release_async hqh hUniq (List.nodup_cons.1 hOk.ring.2.1).2 hT)
    split
    · rename_i hT
      obtain ⟨qhs, nodes, list, hEq⟩ := @relinked_qhUnlinkPeriodic cfg.periodicSize s qh
      exact hKey _ _ _ hOk.unlinkPeriodic (by rw [hEq]) (by rw [hEq]) (by rw [hEq]) (by rw [hEq])
        (hHold.release_periodic hqh hUniq hOk.nodup hT)
    -- no isochronous pipe holds a queue head
    rename_i hA hI
    have hIso : (s.pipes pipe).type = .isochronous := by
      revert hA hI
      cases (s.pipes pipe).type <;> simp
    exact absurd hIso (hHold.noIso pipe qh hqh)
  intro s₁ rest' linked' hOk₁ hp₁ ht₁ hA₁ hP₁ hHold₁
  -- the schedules keep neither the queue head put nor a pooled one
  have hFree : ∀ x ∈ s.asyncList :: rest' ++ linked', x ≠ qh ∧ x ∉ s.qhPool := by
    have hHeld : ∀ T x, HeldBy T (Function.update s.pipes pipe { s.pipes pipe with hcdpriv := none }) x →
        x ≠ qh ∧ x ∉ s.qhPool := fun T x hx => by
      obtain ⟨hx, hxq⟩ := (HeldBy.release_iff hqh hUniq).1 hx
      exact ⟨hxq, (h.inUse hx).2.2⟩
    intro x hx
    rcases List.mem_append.1 hx with hx | hx
    · rcases List.mem_cons.1 hx with rfl | hx
      · exact ⟨(h.qhs.pipe_qh pipe qh hqh).2.2.1.symm, fun hP => (h.qhs.qhPool_free _ hP).2.2.1 rfl⟩
      · exact hHeld _ x ((hHold₁.async x).1 hx)
    · exact hHeld _ x ((hHold₁.periodic x).1 hx)
  obtain ⟨hl₂, hp₂⟩ : (if s₁.transfers = [] then s₁
      else transUpdate cfg (deactivateOn s₁ qh s₁.transfers)).links = s₁.links ∧
      (if s₁.transfers = [] then s₁
        else transUpdate cfg (deactivateOn s₁ qh s₁.transfers)).pipes = s₁.pipes := by
    split
    · exact ⟨rfl, rfl⟩
    · obtain ⟨h1, h2, h3⟩ := @deactivateOn_frame s₁ qh s₁.transfers
      have hNodup : (deactivateOn s₁ qh s₁.transfers).transfers.Nodup := by
        rw [h3, ht₁]
        exact h.qtds.transfers_nodup
      obtain ⟨h4, h5⟩ := @transUpdate_frame cfg _ hNodup
      exact ⟨h4.trans h1, h5.trans h2⟩
  generalize (if s₁.transfers = [] then s₁
    else transUpdate cfg (deactivateOn s₁ qh s₁.transfers)) = Y at hl₂ hp₂ ⊢
  have hA₂ : Y.asyncList = s.asyncList := (congrArg Links.asyncList hl₂).trans hA₁
  have hP₂ : Y.qhPool = s.qhPool := (congrArg Links.qhPool hl₂).trans hP₁
  refine ⟨rest', linked', (hOk₁.of_links hl₂).modifyPipe.qhPut fun x hx => ?_, ?_⟩
  · rw [Hcd.modifyPipe_asyncList, hA₂] at hx
    rw [Hcd.modifyPipe_qhPool, hP₂]
    exact hFree x hx
  rw [qhPut_pipes]
  show Holders (Function.update _ pipe _) rest' linked'
  simp only [hp₂, hp₁]
  exact hHold₁

end Steps

/-- Every state a run under the contract reaches satisfies the schedule
invariant. -/
theorem DriverRun.scheduled {cfg : Config} {va2pa : Nat → Nat} {s : Hcd} {pipeOf : Nat → Nat}
    (run : DriverRun cfg va2pa s pipeOf) : Scheduled cfg.periodicSize s := by
  induction run with
  | init trs pipes memory hPipes => exact ehciInit_scheduled trs pipes memory hPipes
  | enqueue t pipe prior _ hType hIso ih =>
      exact transferEnqueue_scheduled prior.transferRun.owned ih hType hIso
  | update prior ih =>
      exact ih.of_links (transUpdate_frame prior.transferRun.owned.qtds.transfers_nodup).1
  | @dequeue s pipeOf t prior ih =>
      obtain ⟨h1, -, h3⟩ := @qtdsDeactivate_frame s (s.trs t).hcdpriv
      exact (ih.of_links h1).of_links
        (transUpdate_frame (h3 ▸ prior.transferRun.owned.qtds.transfers_nodup)).1
  | destroy pipe prior ih => exact pipeDestroy_scheduled prior.transferRun.owned ih
  | writeback q token prior ih => exact ih.of_links rfl
  | overlay qh hw prior hKeep ih => exact ih.of_links (Hcd.links_modifyQh (by simp [Qh.links, hKeep]))
  | fill t tr prior ih => exact ih.of_links rfl
  | configure pipe p prior hType ih => exact ih.of_links (Hcd.links_modifyPipe rfl hType)
  | grant memory prior ih => exact ih.of_links rfl

/-- The queue heads the controller visits from queue head `x`: `x`, then
each one a horizontal pointer addresses. A pointer with the T bit set, or to
no queue head, ends the walk. -/
inductive HwWalk (s : Hcd) (x : Nat) : Nat → Prop
  | start : HwWalk s x x
  | next {y z : Nat} (prior : HwWalk s x y) (hz : (s.qhs y).hw.horizontal = qhPtr (some z)) :
      HwWalk s x z

section Walks

variable {N : Nat} {s : Hcd} {rest linked : List Nat} {x y : Nat}

/-- From the dummy head the controller stays on the async ring. -/
theorem AsyncRing.walk_mem (h : AsyncRing s (s.asyncList :: rest)) (hw : HwWalk s s.asyncList y) :
    y ∈ s.asyncList :: rest := by
  induction hw with
  | start => exact List.mem_cons_self _ _
  | next _ hz ih =>
      obtain ⟨⟨b, hb, hLink⟩, -⟩ := h.neighbours ih
      rw [hLink.2.2] at hz
      exact qhPtr_some_inj hz ▸ hb

/-- From a frame-list slot the controller stays on that slot's chain. -/
theorem SchedOk.walk_periodic {i : Nat} (h : SchedOk N s rest linked) (hUse : ∀ y ∈ linked, QhInUse s y)
    (hx : s.periodicList i = qhPtr (some x)) (hw : HwWalk s x y) : y ∈ linked := by
  rw [h.words.slots i, linkPtr_eq_qhPtr] at hx
  obtain ⟨c, hc, -, hMem⟩ := h.chains.chain i
  have hc' : Chain s.qhs (some x) c := by
    rw [← hx]
    exact hc
  refine hMem y ?_
  induction hw with
  | start =>
      obtain ⟨l', rfl, -⟩ := Chain.some_iff.1 hc'
      exact List.mem_cons_self _ _
  | next _ hz ih =>
      obtain ⟨-, hL, hP⟩ := hUse _ (hMem _ ih)
      exact hc'.succ_mem ih (h.words.horizontal _ _ hL hP hz)

/-- Following the ring from a queue head the walk reaches, the horizontal
pointers lead to every later member. -/
theorem HwWalk.of_chain {a : Nat} {l : List Nat} (hc : (a :: l).Chain' (AsyncLink s))
    (hw : HwWalk s x a) : ∀ y ∈ a :: l, HwWalk s x y := by
  induction l generalizing a with
  | nil => exact fun y hy => List.mem_singleton.1 hy ▸ hw
  | cons b l ih =>
      rw [List.chain'_cons] at hc
      intro y hy
      rcases List.mem_cons.1 hy with rfl | hy
      · exact hw
      · exact ih hc.2 (hw.next hc.1.2.2) y hy

/-- From the dummy head the controller reaches every queue head of the ring. -/
theorem AsyncRing.walk_all (h : AsyncRing s (s.asyncList :: rest)) :
    ∀ y ∈ s.asyncList :: rest, HwWalk s s.asyncList y := fun y hy =>
  HwWalk.of_chain h.2.2 .start y (List.mem_cons.2 ((List.mem_cons.1 hy).imp id
    fun hy => List.mem_append_left _ hy))

end Walks

section Reach

variable {cfg : Config} {va2pa : Nat → Nat} {s : Hcd} {pipeOf : Nat → Nat}

/-- A bulk-in transfer submitted on a freshly initialised controller, the
async schedule then holding the bulk pipe's queue head. -/
def bulkSubmitted : Hcd :=
  (transferEnqueue sampleConfig id (ehciInit (fun _ => bulkIn 0x1000 8) (fun _ => bulkPipe) 8) 0 0).1

theorem bulkSubmitted_run :
    DriverRun sampleConfig id bulkSubmitted (Function.update (fun _ => 0) 0 0) :=
  .enqueue 0 0 (.init _ _ 8 fun _ => rfl) (List.not_mem_nil 0) rfl (by decide)

/-- Pipe 1 a high-speed interrupt pipe of `bInterval` 5 (period 2), pipe 2
one of `bInterval` 1 (period 1), the others high-speed bulk pipes. -/
def mixedPipes (p : Nat) : Pipe :=
  if p = 1 then hsInterruptPipe 5 else if p = 2 then hsInterruptPipe 1 else bulkPipe

/-- Transfer 0 an 8-byte bulk read, the others 8-byte interrupt reads. -/
def mixedTrs (t : Nat) : Transfer :=
  if t = 0 then bulkIn 0x1000 8 else { bulkIn 0x2000 8 with type := .interrupt }

/-- Transfer `t` submitted on pipe `t`, for the three transfers of `mixedSubmitted`. -/
def mixedPipeOf : Nat → Nat :=
  Function.update (Function.update (Function.update (fun _ => 0) 1 1) 2 2) 0 0

/-- Interrupt reads submitted on pipes 1 and 2, then a bulk read on pipe 0, on
the 128-slot build. Queue head 1 (period 2) heads the even slots with queue
head 2 (period 1) behind it, the odd slots are empty, and queue head 3 is on
the async ring. -/
def mixedSubmitted : Hcd :=
  (transferEnqueue sampleConfig id (transferEnqueue sampleConfig id (transferEnqueue sampleConfig id
    (ehciInit mixedTrs mixedPipes 8) 1 1).1 2 2).1 0 0).1

set_option maxRecDepth 4000 in
theorem mixedSubmitted_run : DriverRun sampleConfig id mixedSubmitted mixedPipeOf :=
  .enqueue 0 0 (.enqueue 2 2 (.enqueue 1 1 (.init _ _ 8 fun p => by unfold mixedPipes; split_ifs <;> rfl)
    (List.not_mem_nil 1) rfl (by decide)) (by decide) rfl (by decide)) (by decide) rfl (by decide)

set_option maxRecDepth 4000 in
example : mixedSubmitted.periodicNodes 0 = some 1 ∧ (mixedSubmitted.qhs 1).next = some 2 ∧
    (mixedSubmitted.qhs 2).next = none ∧ mixedSubmitted.periodicNodes 1 = none ∧
    (mixedSubmitted.qhs 0).next = some 3 ∧ mixedSubmitted.transfers = [1, 2, 0] := by
  decide

/-- In every state a run under the contract reaches, the async ring from the
dummy head is made of exactly the queue heads of the bulk and control pipes,
each once, with `next`, `prev` and the horizontal pointers tracing the same
cycle. -/
theorem driver_async_ring (run : DriverRun cfg va2pa s pipeOf) :
    ∃ rest, AsyncRing s (s.asyncList :: rest) ∧ ∀ q, q ∈ rest ↔ HeldBy IsAsync s.pipes q := by
  obtain ⟨rest, _, hOk, hHold⟩ := run.scheduled
  exact ⟨rest, hOk.ring, hHold.async⟩

theorem async_ring_after_bulk_submit :
    DriverRun sampleConfig id bulkSubmitted (Function.update (fun _ => 0) 0 0) ∧
      ∃ rest, AsyncRing bulkSubmitted (bulkSubmitted.asyncList :: rest) ∧
        ∀ q, q ∈ rest ↔ HeldBy IsAsync bulkSubmitted.pipes q :=
  ⟨bulkSubmitted_run, driver_async_ring bulkSubmitted_run⟩

/-- In every state a run under the contract reaches, the chain from every
frame-list slot is finite, repeats no queue head, does not increase in
period, and is made of queue heads of interrupt pipes. -/
theorem driver_periodic_chains (run : DriverRun cfg va2pa s pipeOf) (i : Nat) :
    ∃ c, Chain s.qhs (s.periodicNodes i) c ∧ c.Nodup ∧
      c.Chain' (fun a b => (s.qhs b).period ≤ (s.qhs a).period) ∧
      ∀ q ∈ c, HeldBy (· = .interrupt) s.pipes q := by
  obtain ⟨_, linked, hOk, hHold⟩ := run.scheduled
  obtain ⟨c, hc, hSorted, hMem⟩ := hOk.chains.chain i
  exact ⟨c, hc, hc.nodup, hSorted.chain', fun q hq => (hHold.periodic q).1 (hMem q hq)⟩

theorem periodic_chains_after_mixed_submit :
    DriverRun sampleConfig id mixedSubmitted mixedPipeOf ∧
      ∃ c, Chain mixedSubmitted.qhs (mixedSubmitted.periodicNodes 0) c ∧ c.Nodup ∧
        c.Chain' (fun a b => (mixedSubmitted.qhs b).period ≤ (mixedSubmitted.qhs a).period) ∧
        ∀ q ∈ c, HeldBy (· = .interrupt) mixedSubmitted.pipes q :=
  ⟨mixedSubmitted_run, driver_periodic_chains mixedSubmitted_run 0⟩

/-- In every state a run under the contract reaches, each frame-list word is
the `QH_PTR` of its slot's head, or `QH_PTR_INVALID` for an empty slot, and
each horizontal pointer that addresses a queue head addresses its `next`. -/
theorem driver_hw_coherent (run : DriverRun cfg va2pa s pipeOf) : HwCoherent s := by
  obtain ⟨_, _, hOk, -⟩ := run.scheduled
  exact hOk.words

theorem hw_coherent_after_mixed_submit :
    DriverRun sampleConfig id mixedSubmitted mixedPipeOf ∧ HwCoherent mixedSubmitted :=
  ⟨mixedSubmitted_run, driver_hw_coherent mixedSubmitted_run⟩

/-- In every state a run under the contract reaches, `ehci_qhUnlinkPeriodic`
of any queue head `q` splices it out of the chain of every slot: the chain
loses `q` and nothing else, the slot word moves to `q`'s successor where `q`
headed the slot and stays elsewhere, each predecessor of `q` links to `q`'s
successor in the driver and in hardware, and afterwards neither the slot word
nor the horizontal pointer of a queue head left on the chain addresses `q`. -/
theorem driver_unlink_periodic_splices (run : DriverRun cfg va2pa s pipeOf) (q : Nat) {i : Nat}
    (hi : i < cfg.periodicSize) :
    ∃ c, Chain s.qhs (s.periodicNodes i) c ∧
      Chain (qhUnlinkPeriodic cfg.periodicSize s q).qhs
        ((qhUnlinkPeriodic cfg.periodicSize s q).periodicNodes i) (c.erase q) ∧
      (qhUnlinkPeriodic cfg.periodicSize s q).periodicList i =
        (if s.periodicNodes i = some q then linkPtr (s.qhs q).next else s.periodicList i) ∧
      (∀ p ∈ c, (s.qhs p).next = some q →
        ((qhUnlinkPeriodic cfg.periodicSize s q).qhs p).next = (s.qhs q).next ∧
          ((qhUnlinkPeriodic cfg.periodicSize s q).qhs p).hw.horizontal = linkPtr (s.qhs q).next) ∧
      (qhUnlinkPeriodic cfg.periodicSize s q).periodicList i ≠ qhPtr (some q) ∧
      ∀ r ∈ c.erase q, ((qhUnlinkPeriodic cfg.periodicSize s q).qhs r).hw.horizontal ≠ qhPtr (some q) := by
  have hOwned := run.transferRun.owned
  obtain ⟨_, linked, hOk, hHold⟩ := run.scheduled
  obtain ⟨c, hc, hc', hList, hPred, hWords⟩ :=
    qhUnlinkPeriodic_splices (s := s) q (fun j _ => hOk.chains.chains_allocated j) hi
  -- the chain's members are held by interrupt pipes, so in use
  obtain ⟨c₀, hc₀, -, hMem⟩ := hOk.chains.chain i
  have hUse : ∀ r ∈ c, (s.qhs r).live = true ∧ r ∉ s.qhPool := fun r hr => by
    obtain ⟨-, hL, hP⟩ := hOwned.inUse ((hHold.periodic r).1 (hMem r (hc.unique hc₀ ▸ hr)))
    exact ⟨hL, hP⟩
  exact ⟨c, hc, hc', hList, hPred, hWords hOk.words hUse⟩

theorem unlink_splices_after_mixed_submit :
    DriverRun sampleConfig id mixedSubmitted mixedPipeOf ∧ 0 < sampleConfig.periodicSize ∧
      ∃ c, Chain mixedSubmitted.qhs (mixedSubmitted.periodicNodes 0) c ∧
        Chain (qhUnlinkPeriodic sampleConfig.periodicSize mixedSubmitted 1).qhs
          ((qhUnlinkPeriodic sampleConfig.periodicSize mixedSubmitted 1).periodicNodes 0) (c.erase 1) ∧
        (qhUnlinkPeriodic sampleConfig.periodicSize mixedSubmitted 1).periodicList 0 =
          (if mixedSubmitted.periodicNodes 0 = some 1 then linkPtr (mixedSubmitted.qhs 1).next
            else mixedSubmitted.periodicList 0) ∧
        (∀ p ∈ c, (mixedSubmitted.qhs p).next = some 1 →
          ((qhUnlinkPeriodic sampleConfig.periodicSize mixedSubmitted 1).qhs p).next =
              (mixedSubmitted.qhs 1).next ∧
            ((qhUnlinkPeriodic sampleConfig.periodicSize mixedSubmitted 1).qhs p).hw.horizontal =
              linkPtr (mixedSubmitted.qhs 1).next) ∧
        (qhUnlinkPeriodic sampleConfig.periodicSize mixedSubmitted 1).periodicList 0 ≠ qhPtr (some 1) ∧
        ∀ r ∈ c.erase 1,
          ((qhUnlinkPeriodic sampleConfig.periodicSize mixedSubmitted 1).qhs r).hw.horizontal ≠
            qhPtr (some 1) :=
  ⟨mixedSubmitted_run, by decide, driver_unlink_periodic_splices mixedSubmitted_run 1 (by decide)⟩

/-- In every state a run under the contract reaches, the controller reaches
from the async list head only the dummy head and queue heads of bulk and
control pipes, and from a frame-list slot only queue heads of interrupt
pipes. -/
theorem DriverRun.walk_held (run : DriverRun cfg va2pa s pipeOf) :
    (∀ y, HwWalk s s.asyncList y → y = s.asyncList ∨ HeldBy IsAsync s.pipes y) ∧
      ∀ i x y, s.periodicList i = qhPtr (some x) → HwWalk s x y → HeldBy (· = .interrupt) s.pipes y := by
  have hOwned := run.transferRun.owned
  obtain ⟨rest, linked, hOk, hHold⟩ := run.scheduled
  refine ⟨fun y hw => (List.mem_cons.1 (hOk.ring.walk_mem hw)).imp_right (hHold.async y).1,
    fun i x y hx hw => (hHold.periodic y).1 ?_⟩
  exact hOk.walk_periodic (fun z hz => hOwned.inUse ((hHold.periodic z).1 hz)) hx hw

/-- In every state a run under the contract reaches, the controller reaches
no pooled queue head. -/
theorem DriverRun.walks_unpooled (run : DriverRun cfg va2pa s pipeOf) {q : Nat} (hq : q ∈ s.qhPool) :
    ¬HwWalk s s.asyncList q ∧ ∀ i x, s.periodicList i = qhPtr (some x) → ¬HwWalk s x q := by
  have hOwned := run.transferRun.owned
  obtain ⟨hA, hP⟩ := run.walk_held
  obtain ⟨-, -, hqA, -⟩ := hOwned.qhs.qhPool_free q hq
  exact ⟨fun hw => (hA q hw).elim hqA fun h => (hOwned.inUse h).2.2 hq,
    fun i x hx hw => (hOwned.inUse (hP i x q hx hw)).2.2 hq⟩

/-- In every state a run under the contract reaches, every queue head the
controller can visit through the hardware words, from the async list head or
from a frame-list slot, is in use: the async dummy, or the queue head of a
pipe of that schedule's type, so never pooled or freed. -/
theorem controller_walks_in_use (run : DriverRun cfg va2pa s pipeOf) :
    (∀ y, HwWalk s s.asyncList y → y = s.asyncList ∨ (HeldBy IsAsync s.pipes y ∧ QhInUse s y)) ∧
      ∀ i x y, s.periodicList i = qhPtr (some x) → HwWalk s x y →
        HeldBy (· = .interrupt) s.pipes y ∧ QhInUse s y := by
  have hOwned := run.transferRun.owned
  obtain ⟨hA, hP⟩ := run.walk_held
  exact ⟨fun y hw => (hA y hw).imp_right fun h => ⟨h, hOwned.inUse h⟩,
    fun i x y hx hw => ⟨hP i x y hx hw, hOwned.inUse (hP i x y hx hw)⟩⟩

theorem walks_in_use_after_mixed_submit :
    DriverRun sampleConfig id mixedSubmitted mixedPipeOf ∧
      (∀ y, HwWalk mixedSubmitted mixedSubmitted.asyncList y → y = mixedSubmitted.asyncList ∨
          (HeldBy IsAsync mixedSubmitted.pipes y ∧ QhInUse mixedSubmitted y)) ∧
        ∀ i x y, mixedSubmitted.periodicList i = qhPtr (some x) → HwWalk mixedSubmitted x y →
          HeldBy (· = .interrupt) mixedSubmitted.pipes y ∧ QhInUse mixedSubmitted y :=
  ⟨mixedSubmitted_run, controller_walks_in_use mixedSubmitted_run⟩

/-- In every state a run under the contract reaches, the controller's walk of
the async schedule from the dummy head visits exactly the dummy head and the
queue heads of the bulk and control pipes. -/
theorem controller_async_walk (run : DriverRun cfg va2pa s pipeOf) (y : Nat) :
    HwWalk s s.asyncList y ↔ y = s.asyncList ∨ HeldBy IsAsync s.pipes y := by
  obtain ⟨rest, _, hOk, hHold⟩ := run.scheduled
  rw [← hHold.async y, ← List.mem_cons]
  exact ⟨hOk.ring.walk_mem, hOk.ring.walk_all y⟩

theorem async_walk_after_bulk_submit :
    DriverRun sampleConfig id bulkSubmitted (Function.update (fun _ => 0) 0 0) ∧
      (HwWalk bulkSubmitted bulkSubmitted.asyncList 1 ↔
        1 = bulkSubmitted.asyncList ∨ HeldBy IsAsync bulkSubmitted.pipes 1) :=
  ⟨bulkSubmitted_run, controller_async_walk bulkSubmitted_run 1⟩

theorem qhPut_mem (cfg : Config) (s : Hcd) (qh : Nat) : qh ∈ (qhPut cfg s qh).qhPool :=
  List.mem_append_right _ (List.mem_singleton_self qh)

/-- `ehci_pipeDestroy` pools the pipe's queue head. -/
theorem pipeDestroy_pools {cfg : Config} {s : Hcd} {pipe qh : Nat}
    (hqh : (s.pipes pipe).hcdpriv = some qh) : qh ∈ (pipeDestroy cfg s pipe).qhPool := by
  unfold pipeDestroy
  dsimp only
  rw [hqh]
  exact qhPut_mem _ _ _

/-- After `ehci_pipeDestroy` in a state a run under the contract reaches, the
controller can no longer reach the pipe's queue head, from the async list
head or from any frame-list slot. -/
theorem pipeDestroy_unreachable {pipe qh : Nat} (run : DriverRun cfg va2pa s pipeOf)
    (hqh : (s.pipes pipe).hcdpriv = some qh) :
    ¬HwWalk (pipeDestroy cfg s pipe) (pipeDestroy cfg s pipe).asyncList qh ∧
      ∀ i x, (pipeDestroy cfg s pipe).periodicList i = qhPtr (some x) →
        ¬HwWalk (pipeDestroy cfg s pipe) x qh :=
  (run.destroy pipe).walks_unpooled (pipeDestroy_pools hqh)

set_option maxRecDepth 4000 in
theorem destroy_unreachable_after_mixed_submit :
    DriverRun sampleConfig id mixedSubmitted mixedPipeOf ∧
      (mixedSubmitted.pipes 1).hcdpriv = some 1 ∧
      ¬HwWalk (pipeDestroy sampleConfig mixedSubmitted 1)
          (pipeDestroy sampleConfig mixedSubmitted 1).asyncList 1 ∧
        ∀ i x, (pipeDestroy sampleConfig mixedSubmitted 1).periodicList i = qhPtr (some x) →
          ¬HwWalk (pipeDestroy sampleConfig mixedSubmitted 1) x 1 :=
  ⟨mixedSubmitted_run, by decide, pipeDestroy_unreachable mixedSubmitted_run (by decide)⟩

end Reach

end Ehci
