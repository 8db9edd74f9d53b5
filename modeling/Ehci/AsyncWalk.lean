import Ehci.Driver

/-! The async schedule under the controller. `ehci_qhLinkAsync` and
`ehci_qhUnlinkAsync` are taken store by store, with `ehci_stopAsync` and
`ehci_startAsync` around the unlink's hardware write, and interleaved in any
order with the controller's walk along horizontal pointers. The invariant
says how far the driver's thread is in its call and that the controller only
stands on queue heads it reaches from the dummy head in memory as it is; taken
between calls, the runs are runs of `AsyncRun`, where each call is one step. -/
namespace Ehci

/-- A step of the driver's thread inside an async-list call. -/
inductive AsyncOp where
  /-- A store to memory, reading memory as it is when the store runs. -/
  | store (f : Hcd → Hcd)
  /-- `USBCMD &= ~USBCMD_ASE` in `ehci_stopAsync`. -/
  | disable
  /-- The wait of `ehci_stopAsync` for `USBSTS_AS` to clear. -/
  | awaitIdle
  /-- The writes of `ASYNCLISTADDR` and `USBCMD |= USBCMD_ASE` in `ehci_startAsync`. -/
  | enable
  /-- The wait of `ehci_startAsync` for `USBSTS_AS` to be set. -/
  | awaitActive

/-- What a step does to memory. -/
def AsyncOp.run : AsyncOp → Hcd → Hcd
  | .store f, s => f s
  | _, s => s

/-- What a step does to `USBCMD_ASE`. -/
def AsyncOp.ase : AsyncOp → Bool → Bool
  | .disable, _ => false
  | .enable, _ => true
  | _, b => b

/-- When the thread can take the step: a wait ends once `USBSTS_AS` shows the
controller stopped, or running; `cur` is the queue head the controller is at,
`none` once it has stopped. -/
def AsyncOp.Ready : AsyncOp → Option Nat → Prop
  | .awaitIdle, cur => cur = none
  | .awaitActive, cur => cur ≠ none
  | _, _ => True

/-- Memory after the steps `ops` in order. -/
def opsRun (ops : List AsyncOp) (s : Hcd) : Hcd := ops.foldl (fun s op => op.run s) s

/-- `ehci_qhLinkAsync`, store by store. -/
def qhLinkAsyncOps (qh : Nat) : List AsyncOp :=
  [.store fun s => s.modifyQh qh fun x => { x with next := (s.qhs s.asyncList).next },
   .store fun s => s.modifyQh qh fun x => { x with prev := some s.asyncList },
   .store fun s => match (s.qhs qh).next with
      | some n => s.modifyQh n fun x => { x with prev := some qh }
      | none => s,
   .store fun s => s.modifyQh s.asyncList fun x => { x with next := some qh },
   .store fun s => s.modifyQh qh fun x =>
      { x with hw := { x.hw with horizontal := (s.qhs s.asyncList).hw.horizontal } },
   .store fun s => s.modifyQh s.asyncList fun x =>
      { x with hw := { x.hw with horizontal := qhPtr (some qh) } }]

/-- `ehci_qhUnlinkAsync`, step by step: the predecessor's horizontal pointer
is rewritten with the schedule stopped, the driver's links after the restart. -/
def qhUnlinkAsyncOps (qh : Nat) : List AsyncOp :=
  [.disable, .awaitIdle,
   .store fun s => match (s.qhs qh).prev with
      | some p => s.modifyQh p fun y => { y with hw := { y.hw with horizontal := (s.qhs qh).hw.horizontal } }
      | none => s,
   .enable, .awaitActive,
   .store fun s => match (s.qhs qh).prev with
      | some p => s.modifyQh p fun y => { y with next := (s.qhs qh).next }
      | none => s,
   .store fun s => match (s.qhs qh).next with
      | some n => s.modifyQh n fun y => { y with prev := (s.qhs qh).prev }
      | none => s]

/-- The stores of `ehci_qhLinkAsync` taken one by one end where the call does. -/
theorem opsRun_qhLinkAsyncOps (s : Hcd) (q : Nat) : opsRun (qhLinkAsyncOps q) s = qhLinkAsync s q := by
  cases h : (s.qhs s.asyncList).next <;>
    simp [opsRun, qhLinkAsyncOps, AsyncOp.run, qhLinkAsync, h]

/-- The steps of `ehci_qhUnlinkAsync` end where the call does: the handshake
writes no memory. -/
theorem opsRun_qhUnlinkAsyncOps (s : Hcd) (q : Nat) :
    opsRun (qhUnlinkAsyncOps q) s = qhUnlinkAsync s q := rfl

/-- The async schedule as the controller and the driver's thread share it:
memory, the queue head the controller's async walk is at (`none` once it has
stopped and cleared `USBSTS_AS`), `USBCMD_ASE`, and the steps left of the
call the driver's thread is in. -/
structure AsyncSys where
  mem : Hcd
  cur : Option Nat
  ase : Bool
  ops : List AsyncOp

/-- One step of the controller or of the driver's thread. -/
inductive AsyncSysStep : AsyncSys → AsyncSys → Prop where
  /-- The controller follows the horizontal pointer of the queue head it is at. -/
  | advance {σ : AsyncSys} {y z : Nat} (hy : σ.cur = some y)
      (hz : (σ.mem.qhs y).hw.horizontal = qhPtr (some z)) : AsyncSysStep σ { σ with cur := some z }
  /-- With `USBCMD_ASE` clear the controller stops. -/
  | halt {σ : AsyncSys} (h : σ.ase = false) : AsyncSysStep σ { σ with cur := none }
  /-- With `USBCMD_ASE` set a stopped controller starts at `ASYNCLISTADDR`,
  which `ehci_startAsync` sets to the dummy head. -/
  | resume {σ : AsyncSys} (h : σ.ase = true) (hc : σ.cur = none) :
      AsyncSysStep σ { σ with cur := some σ.mem.asyncList }
  /-- The thread takes the next step of its call. -/
  | thread {σ : AsyncSys} {op : AsyncOp} {rest : List AsyncOp} (h : σ.ops = op :: rest)
      (hReady : op.Ready σ.cur) :
      AsyncSysStep σ { σ with mem := op.run σ.mem, ase := op.ase σ.ase, ops := rest }

/-- The runs from `ehci_init`, which ends in `ehci_startAsync`: a call starts
when the thread is between calls (`asyncLock`), on a queue head as
`AsyncRun` takes it, and then either party may take the next step. `linked`
lists the queue heads linked, newest first, a call counting from its start. -/
inductive AsyncSysRun : AsyncSys → List Nat → Prop where
  | init (trs : Nat → Transfer) (pipes : Nat → Pipe) (memory : Nat) :
      AsyncSysRun ⟨ehciInit trs pipes memory, some 0, true, []⟩ []
  | step {σ σ' : AsyncSys} {linked : List Nat} (prior : AsyncSysRun σ linked)
      (h : AsyncSysStep σ σ') : AsyncSysRun σ' linked
  | link {σ : AsyncSys} {linked : List Nat} (q : Nat) (prior : AsyncSysRun σ linked)
      (hIdle : σ.ops = []) (hOff : q ∉ σ.mem.asyncList :: linked) :
      AsyncSysRun { σ with ops := qhLinkAsyncOps q } (q :: linked)
  | unlink {σ : AsyncSys} {linked : List Nat} (q : Nat) (prior : AsyncSysRun σ linked)
      (hIdle : σ.ops = []) (hOn : q ∈ linked) :
      AsyncSysRun { σ with ops := qhUnlinkAsyncOps q } (linked.erase q)

section Walk

variable {s s' : Hcd} {x y : Nat}

/-- A walk carries over to a state whose horizontal pointers agree on the
queue heads it visits. -/
theorem HwWalk.of_agree (hAgree : ∀ w, HwWalk s x w → HwWalk s' x w →
      (s'.qhs w).hw.horizontal = (s.qhs w).hw.horizontal) (hw : HwWalk s x y) : HwWalk s' x y := by
  induction hw with
  | start => exact .start
  | next prior hz ih => exact .next ih ((hAgree _ prior ih).trans hz)

/-- Pointing queue head `h` at `q`, and `q` where `h` pointed, keeps every
walk. -/
theorem HwWalk.reroute {h q : Nat} (hOther : ∀ w, w ≠ h → (s'.qhs w).hw.horizontal = (s.qhs w).hw.horizontal)
    (hh : (s'.qhs h).hw.horizontal = qhPtr (some q))
    (hq : (s'.qhs q).hw.horizontal = (s.qhs h).hw.horizontal) (hw : HwWalk s x y) : HwWalk s' x y := by
  induction hw with
  | start => exact .start
  | @next y z prior hz ih =>
      by_cases hy : y = h
      · subst hy
        exact .next (.next ih hh) (hq.trans hz)
      · exact .next ih ((hOther y hy).trans hz)

end Walk

section Stages

variable {s : Hcd} {q k : Nat} {op : AsyncOp} {rest : List AsyncOp}

/-- A write that leaves the hardware words of its record leaves every
queue head's hardware words. -/
theorem hw_modifyQh {f : Qh → Qh} (x y : Nat) (hf : ∀ r, (f r).hw = r.hw) :
    ((s.modifyQh x f).qhs y).hw = (s.qhs y).hw := by
  by_cases h : y = x <;> simp [h, hf]

theorem horizontal_modifyQh {v x y : Nat} :
    ((s.modifyQh x fun r => { r with hw := { r.hw with horizontal := v } }).qhs y).hw.horizontal =
      if y = x then v else (s.qhs y).hw.horizontal := by
  by_cases h : y = x <;> simp [h]

/-- The step the thread is at: `k` steps of `L` ran, `op` is next. -/
theorem drop_eq_cons {L : List AsyncOp} (h : L.drop k = op :: rest) :
    L[k]? = some op ∧ rest = L.drop (k + 1) ∧
      ∀ s, opsRun (L.take (k + 1)) s = op.run (opsRun (L.take k) s) := by
  have hk : k < L.length := by
    by_contra hk
    rw [List.drop_eq_nil_of_le (Nat.le_of_not_lt hk)] at h
    cases h
  rw [List.drop_eq_getElem_cons hk, List.cons.injEq] at h
  refine ⟨by rw [List.getElem?_eq_getElem hk, h.1], h.2.symm, fun s => ?_⟩
  rw [List.take_succ, List.getElem?_eq_getElem hk, h.1, opsRun, opsRun, List.foldl_append]
  rfl

/-- What the `k`-th step of `ehci_qhLinkAsync` writes: each is a store that
keeps the dummy head; the first four write only the driver's links, the fifth
the new queue head's horizontal pointer, the sixth the dummy head's. -/
theorem qhLinkAsyncOps_getElem (h : (qhLinkAsyncOps q)[k]? = some op) :
    ∃ f, op = .store f ∧ ∀ s, (f s).asyncList = s.asyncList ∧
      ((k < 4 ∧ ∀ y, ((f s).qhs y).hw = (s.qhs y).hw) ∨
        (k = 4 ∧ ∀ y, ((f s).qhs y).hw.horizontal =
          if y = q then (s.qhs s.asyncList).hw.horizontal else (s.qhs y).hw.horizontal) ∨
        (k = 5 ∧ ∀ y, ((f s).qhs y).hw.horizontal =
          if y = s.asyncList then qhPtr (some q) else (s.qhs y).hw.horizontal)) := by
  obtain _ | _ | _ | _ | _ | _ | k := k <;>
    simp only [qhLinkAsyncOps, List.getElem?_cons_succ, List.getElem?_cons_zero,
      Option.some.injEq, List.getElem?_nil, reduceCtorEq] at h <;> subst h <;> refine ⟨_, rfl, fun s => ?_⟩
  · exact ⟨rfl, .inl ⟨by omega, fun y => hw_modifyQh _ y fun _ => rfl⟩⟩
  · exact ⟨rfl, .inl ⟨by omega, fun y => hw_modifyQh _ y fun _ => rfl⟩⟩
  · cases (s.qhs q).next
    exacts [⟨rfl, .inl ⟨by omega, fun _ => rfl⟩⟩, ⟨rfl, .inl ⟨by omega, fun y => hw_modifyQh _ y fun _ => rfl⟩⟩]
  · exact ⟨rfl, .inl ⟨by omega, fun y => hw_modifyQh _ y fun _ => rfl⟩⟩
  · exact ⟨rfl, .inr (.inl ⟨rfl, fun _ => horizontal_modifyQh⟩)⟩
  · exact ⟨rfl, .inr (.inr ⟨rfl, fun _ => horizontal_modifyQh⟩)⟩

/-- What the `k`-th step of `ehci_qhUnlinkAsync` is: the handshake at its
fixed places, and stores that keep the dummy head, all but the third
writing only the driver's links. -/
theorem qhUnlinkAsyncOps_getElem (h : (qhUnlinkAsyncOps q)[k]? = some op) :
    (k = 0 ∧ op = .disable) ∨ (k = 1 ∧ op = .awaitIdle) ∨ (k = 3 ∧ op = .enable) ∨
      (k = 4 ∧ op = .awaitActive) ∨
      ∃ f, op = .store f ∧ ∀ s, (f s).asyncList = s.asyncList ∧
        (k = 2 ∨ 5 ≤ k ∧ ∀ y, ((f s).qhs y).hw = (s.qhs y).hw) := by
  obtain _ | _ | _ | _ | _ | _ | _ | k := k <;>
    simp only [qhUnlinkAsyncOps, List.getElem?_cons_succ, List.getElem?_cons_zero,
      Option.some.injEq, List.getElem?_nil, reduceCtorEq] at h <;> subst h
  · exact .inl ⟨rfl, rfl⟩
  · exact .inr (.inl ⟨rfl, rfl⟩)
  · refine .inr (.inr (.inr (.inr ⟨_, rfl, fun s => ⟨?_, .inl rfl⟩⟩)))
    cases (s.qhs q).prev <;> rfl
  · exact .inr (.inr (.inl ⟨rfl, rfl⟩))
  · exact .inr (.inr (.inr (.inl ⟨rfl, rfl⟩)))
  all_goals refine .inr (.inr (.inr (.inr ⟨_, rfl, fun s => ?_⟩)))
  · cases (s.qhs q).prev
    exacts [⟨rfl, .inr ⟨by omega, fun _ => rfl⟩⟩, ⟨rfl, .inr ⟨by omega, fun y => hw_modifyQh _ y fun _ => rfl⟩⟩]
  · cases (s.qhs q).next
    exacts [⟨rfl, .inr ⟨by omega, fun _ => rfl⟩⟩, ⟨rfl, .inr ⟨by omega, fun y => hw_modifyQh _ y fun _ => rfl⟩⟩]

end Stages

section Inv

variable {σ : AsyncSys} {linked rest : List Nat} {s₀ : Hcd} {q k : Nat} {op : AsyncOp}
  {ops : List AsyncOp}

/-- The thread inside `ehci_qhLinkAsync q`, started from `s₀` between calls,
with `k` of its six stores done: memory keeps the hardware words of `s₀`
until the fifth, and after it the new queue head points where the dummy head
does. -/
structure InLink (σ : AsyncSys) (s₀ : Hcd) (rest : List Nat) (q k : Nat) : Prop where
  lt : k < 6
  run : AsyncRun s₀ rest
  ring : AsyncRing s₀ (s₀.asyncList :: rest)
  off : q ∉ s₀.asyncList :: rest
  ops : σ.ops = (qhLinkAsyncOps q).drop k
  mem : σ.mem = opsRun ((qhLinkAsyncOps q).take k) s₀
  head : σ.mem.asyncList = s₀.asyncList
  early : k ≤ 4 → ∀ y, (σ.mem.qhs y).hw = (s₀.qhs y).hw
  fifth : k = 5 → (σ.mem.qhs q).hw.horizontal = (σ.mem.qhs σ.mem.asyncList).hw.horizontal

/-- The thread inside `ehci_qhUnlinkAsync q`, started from `s₀` between
calls, with `k` of its seven steps done: from `ehci_stopAsync`'s write to
`ehci_startAsync`'s, `USBCMD_ASE` is clear, and once the first wait is over
the controller is stopped. -/
structure InUnlink (σ : AsyncSys) (s₀ : Hcd) (rest : List Nat) (q k : Nat) : Prop where
  lt : k < 7
  run : AsyncRun s₀ rest
  ring : AsyncRing s₀ (s₀.asyncList :: rest)
  onRing : q ∈ rest
  ops : σ.ops = (qhUnlinkAsyncOps q).drop k
  mem : σ.mem = opsRun ((qhUnlinkAsyncOps q).take k) s₀
  head : σ.mem.asyncList = s₀.asyncList
  stopped : 1 ≤ k → k ≤ 3 → σ.ase = false
  idle : 2 ≤ k → k ≤ 3 → σ.cur = none

/-- Where the driver's thread is. Between calls, memory is a state the calls
taken as single steps reach, with its ring. -/
inductive AsyncPhase : AsyncSys → List Nat → Prop where
  | idle {σ : AsyncSys} {linked : List Nat} (hOps : σ.ops = []) (hRun : AsyncRun σ.mem linked)
      (hRing : AsyncRing σ.mem (σ.mem.asyncList :: linked)) : AsyncPhase σ linked
  | link {σ : AsyncSys} {s₀ : Hcd} {rest : List Nat} {q k : Nat} (h : InLink σ s₀ rest q k) :
      AsyncPhase σ (q :: rest)
  | unlink {σ : AsyncSys} {s₀ : Hcd} {rest : List Nat} {q k : Nat} (h : InUnlink σ s₀ rest q k) :
      AsyncPhase σ (rest.erase q)

/-- The invariant of the async schedule: the controller is at a queue head
it reaches from the dummy head in memory as it is now, and the thread is in
one of its phases. -/
structure AsyncInv (σ : AsyncSys) (linked : List Nat) : Prop where
  walk : ∀ y, σ.cur = some y → HwWalk σ.mem σ.mem.asyncList y
  phase : AsyncPhase σ linked

/-- Between calls the thread is in no call. -/
theorem AsyncPhase.of_idle (hP : AsyncPhase σ linked) (h : σ.ops = []) :
    AsyncRun σ.mem linked ∧ AsyncRing σ.mem (σ.mem.asyncList :: linked) := by
  cases hP with
  | idle _ hRun hRing => exact ⟨hRun, hRing⟩
  | link h' =>
      have := List.drop_eq_nil_iff.1 (h'.ops.symm.trans h)
      exact absurd h'.lt (by simp [qhLinkAsyncOps] at this; omega)
  | unlink h' =>
      have := List.drop_eq_nil_iff.1 (h'.ops.symm.trans h)
      exact absurd h'.lt (by simp [qhUnlinkAsyncOps] at this; omega)

/-- A controller step keeps the thread's phase, as long as it does not
restart a schedule the handshake has stopped. -/
theorem AsyncPhase.ctl (hP : AsyncPhase σ linked) {cur : Option Nat}
    (hCur : σ.cur = none → cur = none ∨ σ.ase = true) : AsyncPhase { σ with cur := cur } linked := by
  cases hP with
  | idle hOps hRun hRing => exact .idle hOps hRun hRing
  | link h => exact .link ⟨h.lt, h.run, h.ring, h.off, h.ops, h.mem, h.head, h.early, h.fifth⟩
  | unlink h =>
      refine .unlink ⟨h.lt, h.run, h.ring, h.onRing, h.ops, h.mem, h.head, h.stopped, fun h2 h3 => ?_⟩
      exact (hCur (h.idle h2 h3)).resolve_right (by rw [h.stopped (by omega) h3]; decide)

/-- A store of `ehci_qhLinkAsync` keeps the controller on queue heads it
reaches: the new queue head takes the dummy head's successor before the
dummy head points at it. -/
theorem InLink.thread (h : InLink σ s₀ rest q k) (hWalk : ∀ y, σ.cur = some y → HwWalk σ.mem σ.mem.asyncList y)
    (hOp : σ.ops = op :: ops) :
    AsyncInv { σ with mem := op.run σ.mem, ase := op.ase σ.ase, ops := ops } (q :: rest) := by
  obtain ⟨hGet, rfl, hTake⟩ := drop_eq_cons (h.ops.symm.trans hOp)
  obtain ⟨f, rfl, hf⟩ := qhLinkAsyncOps_getElem hGet
  obtain ⟨hHead, hW⟩ := hf σ.mem
  have hMem : f σ.mem = opsRun ((qhLinkAsyncOps q).take (k + 1)) s₀ := by rw [hTake, ← h.mem]; rfl
  have hqd : q ≠ σ.mem.asyncList := h.head ▸ fun hq => h.off (hq ▸ List.mem_cons_self _ _)
  refine ⟨fun y hy => ?_, ?_⟩
  · change HwWalk (f σ.mem) (f σ.mem).asyncList y
    rw [hHead]
    rcases hW with ⟨-, hSame⟩ | ⟨rfl, hSet⟩ | ⟨rfl, hSet⟩
    · exact (hWalk y hy).of_agree fun w _ _ => by rw [hSame]
    · refine (hWalk y hy).of_agree fun w hw _ => ?_
      -- before the fifth store the controller walks `s₀`'s ring, which `q` is not on
      have hw₀ : HwWalk s₀ s₀.asyncList w :=
        h.head ▸ hw.of_agree fun v _ _ => by rw [h.early le_rfl v]
      rw [hSet, if_neg fun (hwq : w = q) => h.off (hwq ▸ h.ring.walk_mem hw₀)]
    · refine (hWalk y hy).reroute (fun w hw => by rw [hSet, if_neg hw]) (by rw [hSet, if_pos rfl]) ?_
      rw [hSet, if_neg hqd, h.fifth rfl]
  · by_cases hk : k + 1 < 6
    · refine .link ⟨hk, h.run, h.ring, h.off, rfl, hMem, hHead.trans h.head, fun hk4 y => ?_, fun hk5 => ?_⟩
      · rcases hW with ⟨-, hSame⟩ | ⟨rfl, -⟩ | ⟨rfl, -⟩
        · exact (hSame y).trans (h.early (by omega) y)
        all_goals omega
      · rcases hW with ⟨hk4, -⟩ | ⟨rfl, hSet⟩ | ⟨rfl, -⟩
        · omega
        · change ((f σ.mem).qhs q).hw.horizontal = ((f σ.mem).qhs (f σ.mem).asyncList).hw.horizontal
          rw [hHead, hSet, hSet, if_pos rfl, if_neg hqd.symm]
        · omega
    · obtain rfl : k = 5 := by have := h.lt; omega
      have hEnd : f σ.mem = qhLinkAsync s₀ q := hMem.trans (opsRun_qhLinkAsyncOps s₀ q)
      refine .idle rfl (show AsyncRun (f σ.mem) _ from hEnd ▸ .link q h.run h.off) ?_
      show AsyncRing (f σ.mem) ((f σ.mem).asyncList :: _)
      rw [hEnd, qhLinkAsync_asyncList]
      exact asyncRing_link h.ring h.off

/-- A step of `ehci_qhUnlinkAsync` keeps the controller on queue heads it
reaches: the one store that writes a horizontal pointer runs while the
controller is stopped, and it restarts from the dummy head. -/
theorem InUnlink.thread (h : InUnlink σ s₀ rest q k)
    (hWalk : ∀ y, σ.cur = some y → HwWalk σ.mem σ.mem.asyncList y) (hOp : σ.ops = op :: ops)
    (hReady : op.Ready σ.cur) :
    AsyncInv { σ with mem := op.run σ.mem, ase := op.ase σ.ase, ops := ops } (rest.erase q) := by
  obtain ⟨hGet, rfl, hTake⟩ := drop_eq_cons (h.ops.symm.trans hOp)
  have hMem : op.run σ.mem = opsRun ((qhUnlinkAsyncOps q).take (k + 1)) s₀ := by rw [hTake, ← h.mem]
  obtain ⟨hHead, hKeep, hAse, hCur⟩ : (op.run σ.mem).asyncList = σ.mem.asyncList ∧
      (k = 2 ∨ ∀ y, ((op.run σ.mem).qhs y).hw = (σ.mem.qhs y).hw) ∧
      (1 ≤ k + 1 → k + 1 ≤ 3 → op.ase σ.ase = false) ∧ (2 ≤ k + 1 → k + 1 ≤ 3 → σ.cur = none) := by
    rcases qhUnlinkAsyncOps_getElem hGet with
      ⟨rfl, rfl⟩ | ⟨rfl, rfl⟩ | ⟨rfl, rfl⟩ | ⟨rfl, rfl⟩ | ⟨f, rfl, hf⟩
    · exact ⟨rfl, .inr fun _ => rfl, fun _ _ => rfl, fun _ _ => by omega⟩
    · exact ⟨rfl, .inr fun _ => rfl, fun _ _ => h.stopped le_rfl (by omega), fun _ _ => hReady⟩
    · exact ⟨rfl, .inr fun _ => rfl, fun _ _ => by omega, fun _ _ => by omega⟩
    · exact ⟨rfl, .inr fun _ => rfl, fun _ _ => by omega, fun _ _ => by omega⟩
    · obtain ⟨hHead, rfl | ⟨hk, hSame⟩⟩ := hf σ.mem
      · exact ⟨hHead, .inl rfl, fun _ _ => h.stopped (by omega) (by omega), fun _ _ => h.idle le_rfl (by omega)⟩
      · exact ⟨hHead, .inr hSame, fun _ _ => by omega, fun _ _ => by omega⟩
  refine ⟨fun y hy => ?_, ?_⟩
  · change HwWalk (op.run σ.mem) (op.run σ.mem).asyncList y
    rw [hHead]
    rcases hKeep with rfl | hSame
    · cases (h.idle le_rfl (by omega)).symm.trans hy
    · exact (hWalk y hy).of_agree fun w _ _ => by rw [hSame]
  · by_cases hk : k + 1 < 7
    · exact .unlink ⟨hk, h.run, h.ring, h.onRing, rfl, hMem, hHead.trans h.head, hAse, hCur⟩
    · obtain rfl : k = 6 := by have := h.lt; omega
      have hEnd : op.run σ.mem = qhUnlinkAsync s₀ q := hMem.trans (opsRun_qhUnlinkAsyncOps s₀ q)
      refine .idle rfl (show AsyncRun (op.run σ.mem) _ from hEnd ▸ .unlink q h.run h.onRing) ?_
      show AsyncRing (op.run σ.mem) ((op.run σ.mem).asyncList :: _)
      rw [hEnd, qhUnlinkAsync_asyncList]
      exact asyncRing_unlink h.ring h.onRing

/-- Every step of the controller or of the thread keeps the invariant. -/
theorem AsyncInv.step {σ' : AsyncSys} (hI : AsyncInv σ linked) (h : AsyncSysStep σ σ') :
    AsyncInv σ' linked := by
  cases h with
  | advance hy hz =>
      refine ⟨fun _ hz' => Option.some.inj hz' ▸ .next (hI.walk _ hy) hz, hI.phase.ctl fun h => ?_⟩
      cases hy.symm.trans h
  | halt _ => exact ⟨fun _ h => Option.noConfusion h, hI.phase.ctl fun _ => .inl rfl⟩
  | resume hAse _ => exact ⟨fun _ h => Option.some.inj h ▸ .start, hI.phase.ctl fun _ => .inr hAse⟩
  | thread hOp hReady =>
      cases hI.phase with
      | idle hOps => cases hOps.symm.trans hOp
      | link h => exact h.thread hI.walk hOp
      | unlink h => exact h.thread hI.walk hOp hReady

/-- The invariant holds along every run from `ehci_init`. -/
theorem AsyncSysRun.inv (run : AsyncSysRun σ linked) : AsyncInv σ linked := by
  induction run with
  | init trs pipes memory =>
      refine ⟨fun y hy => Option.some.inj hy ▸ .start, .idle rfl (.init _ _ _) ⟨rfl, List.nodup_singleton _, ?_⟩⟩
      simp [AsyncLink, ehciInit, asyncHead]
  | step _ h ih => exact ih.step h
  | link q _ hIdle hOff ih =>
      obtain ⟨hRun, hRing⟩ := ih.phase.of_idle hIdle
      exact ⟨ih.walk, .link (k := 0) ⟨by decide, hRun, hRing, hOff, rfl, rfl, rfl, fun _ _ => rfl, by omega⟩⟩
  | unlink q _ hIdle hOn ih =>
      obtain ⟨hRun, hRing⟩ := ih.phase.of_idle hIdle
      exact ⟨ih.walk, .unlink (k := 0) ⟨by decide, hRun, hRing, hOn, rfl, rfl, rfl, by omega, by omega⟩⟩

end Inv

/-- Whatever the order in which the controller's async walk and the steps of
`ehci_qhLinkAsync` and `ehci_qhUnlinkAsync` interleave, the controller is
only ever at a queue head it reaches from the dummy head in memory as it is
then; and between calls memory is what the calls taken as single steps
leave, with the controller on the dummy head or a linked queue head, never
on one unlinked. -/
theorem async_walk_stays_linked {σ : AsyncSys} {linked : List Nat} (run : AsyncSysRun σ linked) :
    (∀ y, σ.cur = some y → HwWalk σ.mem σ.mem.asyncList y) ∧
      (σ.ops = [] → AsyncRun σ.mem linked ∧ ∀ y, σ.cur = some y → y ∈ σ.mem.asyncList :: linked) := by
  have hI := run.inv
  refine ⟨hI.walk, fun hIdle => ?_⟩
  obtain ⟨hRun, hRing⟩ := hI.phase.of_idle hIdle
  exact ⟨hRun, fun y hy => hRing.walk_mem (hI.walk y hy)⟩

/-- Queue heads 1 and 2 linked after `ehci_init` and 1 unlinked again, with
the controller walking while the calls run: it steps around the dummy head
between the first link's fourth and fifth stores and then follows it to
queue head 1, stands there through the second link, stops there when the
unlink clears `USBCMD_ASE`, and after the restart walks from the dummy head
to queue head 2. -/
theorem walk_through_links_and_unlink :
    ∃ σ, AsyncSysRun σ [2] ∧ σ.ops = [] ∧ σ.cur = some 2 ∧
      HwWalk σ.mem σ.mem.asyncList 2 ∧ AsyncRun σ.mem [2] := by
  have r : AsyncSysRun _ [1] := .link 1 (.init (fun _ => idleTransfer) (fun _ => hsInterruptPipe 1) 0)
    rfl (by decide)
  have r := (((r.step (.thread rfl trivial)).step (.thread rfl trivial)).step (.thread rfl trivial)).step
    (.thread rfl trivial)
  have r := ((r.step (.advance (z := 0) rfl (by decide))).step (.thread rfl trivial)).step (.thread rfl trivial)
  have r := r.step (.advance (z := 1) rfl (by decide))
  -- the second link, all six stores with the controller on queue head 1
  have r : AsyncSysRun _ [2, 1] := .link 2 r rfl (by decide)
  have r := (((r.step (.thread rfl trivial)).step (.thread rfl trivial)).step (.thread rfl trivial)).step
    (.thread rfl trivial)
  have r := (r.step (.thread rfl trivial)).step (.thread rfl trivial)
  -- the unlink of queue head 1: the controller halts on it, and restarts at the dummy head
  have r : AsyncSysRun _ [2] := .unlink 1 r rfl (by decide)
  have r := (((r.step (.thread rfl trivial)).step (.halt rfl)).step (.thread rfl rfl)).step (.thread rfl trivial)
  have r := (((r.step (.thread rfl trivial)).step (.resume rfl rfl)).step
    (.thread rfl (Option.some_ne_none _))).step (.thread rfl trivial)
  have r := (r.step (.thread rfl trivial)).step (.advance (z := 2) rfl (by decide))
  have h := async_walk_stays_linked r
  exact ⟨_, r, rfl, rfl, h.1 2 rfl, (h.2 rfl).1⟩

end Ehci
