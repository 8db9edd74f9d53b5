import Ehci.Layout

/-! The interrupt path of `ehci.c`. The kernel runs `ehci_irqHandler` while the
controller asserts an enabled interrupt; the handler latches USBSTS into
`ehci->status` and its return value makes the kernel signal `irqCond`, on
which `ehci_irqThread` waits before it consumes the latched bits. The two
share `ehci->status` with no lock. On the one processor of the i.MX RT the
handler runs to its end between two memory accesses of the thread: the thread
never runs while the handler does, and the handler may run between the load
and the store of an `ehci->status &= ~X`.

USBSTS has the EHCI register layout. `EHCI_INTRMASK` is defined in `ehci.h`,
which is not among the sources, so it is the parameter `intrMask`. The
controller is a party that may set bits of USBSTS at any time. -/
namespace Ehci

/-- `USBSTS_UI`: a transfer whose qTD has IOC set has completed. -/
def usbstsUi : Nat := 0x01

/-- `USBSTS_UEI`: a transfer has completed with an error. -/
def usbstsUei : Nat := 0x02

/-- `USBSTS_PCI`: a port status has changed. -/
def usbstsPci : Nat := 0x04

/-- `USBSTS_FRI`: the frame index has rolled over. -/
def usbstsFri : Nat := 0x08

/-- `USBSTS_SEI`: host system error; the controller halts. -/
def usbstsSei : Nat := 0x10

/-- The write-one-to-clear bits of USBSTS, bits 0 to 5; the others are
read-only. -/
def usbstsWc : Nat := 0x3f

/-- The interrupts `ehci_init` enables in USBINTR. -/
def usbintrEnabled : Nat := usbstsUi ||| usbstsUei ||| usbstsSei

/-- A write of `v` to USBSTS clears the write-one-to-clear bits set in `v`. -/
def usbstsWrite (usbsts v : Nat) : Nat := clearBits usbsts (v &&& usbstsWc)

theorem testBit_usbstsWrite (usbsts v i : Nat) :
    (usbstsWrite usbsts v).testBit i =
      (usbsts.testBit i && !(v.testBit i && usbstsWc.testBit i)) := by
  simp only [usbstsWrite, testBit_clearBits, Nat.testBit_land]

/-- The value `ehci_irqHandler` returns once `ehci->status` is `status`:
`-!(ehci->status & EHCI_INTRMASK)`. The kernel signals `irqCond` when it is
not negative. -/
def irqHandlerResult (intrMask status : Nat) : Int :=
  if status &&& intrMask = 0 then -1 else 0

/-- One pass of the `do … while` loop of `ehci_irqHandler`, `cur` the value it
last read from USBSTS: write the interrupt bits of `cur` back to USBSTS,
latch `cur` into `ehci->status`, and read USBSTS again. Returns USBSTS,
`ehci->status`, and the value read if the loop goes on. -/
def irqHandlerPass (intrMask cur usbsts status : Nat) : Nat × Nat × Option Nat :=
  let usbsts := usbstsWrite usbsts (cur &&& (intrMask ||| usbstsFri))
  (usbsts, status ||| cur, if usbsts &&& intrMask = 0 then none else some usbsts)

/-- The three tests of `ehci_irqThread`, in its order: host system error,
completion (with or without error), port change. -/
inductive IrqGroup
  | sei
  | ui
  | pci
  deriving DecidableEq, Repr

/-- The bits of `ehci->status` a test of `ehci_irqThread` reads and clears. -/
def IrqGroup.bits : IrqGroup → Nat
  | .sei => usbstsSei
  | .ui => usbstsUi ||| usbstsUei
  | .pci => usbstsPci

/-- Where `ehci_irqThread` is: blocked in `condWait`, at the test of a group,
at the load of `ehci->status &= ~bits` or at its store with the value loaded,
or in the group's work (the error log, `ehci_transUpdate`,
`ehci_portStatusChanged`). -/
inductive Worker
  | waiting
  | test (g : IrqGroup)
  | load (g : IrqGroup)
  | store (g : IrqGroup) (loaded : Nat)
  | work (g : IrqGroup)
  deriving DecidableEq, Repr

/-- Where `ehci_irqThread` goes when a group's test finds none of its bits. -/
def IrqGroup.skip : IrqGroup → Worker
  | .sei => .test .ui
  | .ui => .test .pci
  | .pci => .waiting

/-- Where `ehci_irqThread` goes after a group's work: the SEI branch ends in
`continue`. -/
def IrqGroup.next : IrqGroup → Worker
  | .sei => .waiting
  | .ui => .test .pci
  | .pci => .waiting

/-- The thread is between the load and the store of `ehci->status &= ~bits`. -/
def Worker.inWindow : Worker → Bool
  | .store _ _ => true
  | _ => false

/-- What the interrupt path shares: USBSTS, `ehci->status`, the value
`ehci_irqHandler` last read while it runs, where `ehci_irqThread` is, and
whether `irqCond` holds a signal no `condWait` has taken. -/
structure IrqState where
  usbsts : Nat
  status : Nat
  handler : Option Nat
  worker : Worker
  signalled : Bool
  deriving DecidableEq, Repr

/-- One memory access, or one block of work, of `ehci_irqThread`; `none`
while it waits with no signal. -/
def irqThreadStep (s : IrqState) : Option IrqState :=
  match s.worker with
  | .waiting =>
      if s.signalled then some { s with worker := .test .sei, signalled := false } else none
  | .test g => some { s with worker := if s.status &&& g.bits = 0 then g.skip else .load g }
  | .load g => some { s with worker := .store g s.status }
  | .store g loaded => some { s with status := clearBits loaded g.bits, worker := .work g }
  | .work g => some { s with worker := g.next }

/-- What can happen next: the controller sets bits of USBSTS, the kernel
enters `ehci_irqHandler` or the handler makes a pass, or `ehci_irqThread`
takes a step. -/
inductive IrqEvent
  | raise (bits : Nat)
  | handler
  | thread
  deriving DecidableEq, Repr

/-- The state after a pass of `ehci_irqHandler` that had read `cur`. At its
last pass the handler returns, and the kernel signals `irqCond` on a
non-negative result. -/
def IrqState.afterPass (intrMask cur : Nat) (s : IrqState) : IrqState :=
  let r := irqHandlerPass intrMask cur s.usbsts s.status
  { s with
    usbsts := r.1
    status := r.2.1
    handler := r.2.2
    signalled := s.signalled || (r.2.2.isNone && decide (0 ≤ irqHandlerResult intrMask r.2.1)) }

section AfterPass

variable {intrMask cur : Nat} {s : IrqState}

@[simp] theorem IrqState.afterPass_usbsts :
    (s.afterPass intrMask cur).usbsts = usbstsWrite s.usbsts (cur &&& (intrMask ||| usbstsFri)) :=
  rfl

@[simp] theorem IrqState.afterPass_status : (s.afterPass intrMask cur).status = s.status ||| cur :=
  rfl

@[simp] theorem IrqState.afterPass_worker : (s.afterPass intrMask cur).worker = s.worker := rfl

/-- A pass goes on exactly while USBSTS still holds a bit of `EHCI_INTRMASK`,
holding the value it read. -/
theorem IrqState.afterPass_handler : (s.afterPass intrMask cur).handler =
    if (s.afterPass intrMask cur).usbsts &&& intrMask = 0 then none
    else some (s.afterPass intrMask cur).usbsts :=
  rfl

/-- The last pass signals `irqCond` once `ehci->status` holds a bit of
`EHCI_INTRMASK`. -/
theorem IrqState.afterPass_signalled (hDone : (s.afterPass intrMask cur).handler = none)
    (hSt : (s.afterPass intrMask cur).status &&& intrMask ≠ 0) :
    (s.afterPass intrMask cur).signalled = true := by
  simp only [IrqState.afterPass, irqHandlerPass] at hDone hSt ⊢
  simp [hDone, irqHandlerResult, hSt]

end AfterPass

/-- One event of the interrupt path, `none` when it cannot happen: the
handler is entered only while the controller asserts an enabled interrupt,
and the thread does not run while the handler does. -/
def irqStep (intrMask : Nat) (s : IrqState) : IrqEvent → Option IrqState
  | .raise bits => some { s with usbsts := s.usbsts ||| bits }
  | .handler =>
      match s.handler with
      | none =>
          if s.usbsts &&& usbintrEnabled = 0 then none else some { s with handler := some s.usbsts }
      | some cur => some (s.afterPass intrMask cur)
  | .thread => if s.handler.isSome then none else irqThreadStep s

/-- The interrupt path's state when `ehci_init` enables interrupts in USBINTR:
USBSTS with no interrupt bit after the controller's reset, `ehci->status` zero
from `calloc`, the handler not running, the thread in `condWait`. -/
def irqInit : IrqState := ⟨0, 0, none, .waiting, false⟩

/-- The states reached from `ehci_init` by interleavings whose every step `ok`
allows. -/
inductive IrqRun (intrMask : Nat) (ok : IrqState → IrqEvent → Bool) : IrqState → Prop
  | init : IrqRun intrMask ok irqInit
  | step {s s' : IrqState} {e : IrqEvent} (prior : IrqRun intrMask ok s) (hOk : ok s e = true)
      (h : irqStep intrMask s e = some s') : IrqRun intrMask ok s'

/-- The interleavings in which the handler never runs between the thread's
load and store of `ehci->status`, as if each `ehci->status &= ~X` were one
atomic access. -/
def rmwAtomic (s : IrqState) (e : IrqEvent) : Bool := !(e == .handler && s.worker.inWindow)

/-- The state after the events `es`, each allowed by `ok`. -/
def irqRunFrom (intrMask : Nat) (ok : IrqState → IrqEvent → Bool) (s : IrqState) :
    List IrqEvent → Option IrqState
  | [] => some s
  | e :: es =>
      if ok s e then (irqStep intrMask s e).bind fun s' => irqRunFrom intrMask ok s' es else none

theorem IrqRun.of_runFrom {intrMask : Nat} {ok : IrqState → IrqEvent → Bool} {s s' : IrqState} :
    ∀ {es : List IrqEvent}, IrqRun intrMask ok s → irqRunFrom intrMask ok s es = some s' →
      IrqRun intrMask ok s'
  | [], run, h => by cases h; exact run
  | e :: es, run, h => by
      simp only [irqRunFrom] at h
      split at h
      · obtain ⟨s₁, h₁, h⟩ := Option.bind_eq_some.1 h
        exact IrqRun.of_runFrom (run.step ‹_› h₁) h
      · cases h

section Steps

variable {intrMask : Nat} {s s' : IrqState} {e : IrqEvent}

/-- Everything one event can do: the controller sets bits, the kernel enters
the handler on an asserted interrupt, the handler makes a pass (leaving the
thread where it is), or the thread takes a step while the handler is not
running. -/
theorem irqStep_cases (h : irqStep intrMask s e = some s') :
    (∃ bits, e = .raise bits ∧ s' = { s with usbsts := s.usbsts ||| bits }) ∨
    (e = .handler ∧ s.handler = none ∧ s.usbsts &&& usbintrEnabled ≠ 0 ∧
      s' = { s with handler := some s.usbsts }) ∨
    (∃ cur, e = .handler ∧ s.handler = some cur ∧ s' = s.afterPass intrMask cur) ∨
    (e = .thread ∧ s.handler = none ∧ irqThreadStep s = some s') := by
  cases e with
  | raise bits => exact .inl ⟨bits, rfl, (Option.some.inj h).symm⟩
  | handler =>
      simp only [irqStep] at h
      split at h
      · split at h
        · cases h
        · exact .inr (.inl ⟨rfl, ‹_›, ‹_›, (Option.some.inj h).symm⟩)
      · cases h
        exact .inr (.inr (.inl ⟨_, rfl, ‹_›, rfl⟩))
  | thread =>
      simp only [irqStep] at h
      split at h
      · cases h
      · exact .inr (.inr (.inr ⟨rfl, Option.not_isSome_iff_eq_none.1 ‹_›, h⟩))

/-- Everything one step of `ehci_irqThread` can do: take a signal, test a
group, load `ehci->status`, store it with the group's bits cleared, or end a
group's work. -/
theorem irqThreadStep_cases (h : irqThreadStep s = some s') :
    (s.worker = .waiting ∧ s' = { s with worker := .test .sei, signalled := false }) ∨
    (∃ g, s.worker = .test g ∧
      s' = { s with worker := if s.status &&& g.bits = 0 then g.skip else .load g }) ∨
    (∃ g, s.worker = .load g ∧ s' = { s with worker := .store g s.status }) ∨
    (∃ g loaded, s.worker = .store g loaded ∧
      s' = { s with status := clearBits loaded g.bits, worker := .work g }) ∨
    (∃ g, s.worker = .work g ∧ s' = { s with worker := g.next }) := by
  unfold irqThreadStep at h
  split at h
  · split at h <;> cases h
    exact .inl ⟨‹_›, rfl⟩
  all_goals cases h
  · exact .inr (.inl ⟨_, ‹_›, rfl⟩)
  · exact .inr (.inr (.inl ⟨_, ‹_›, rfl⟩))
  · exact .inr (.inr (.inr (.inl ⟨_, _, ‹_›, rfl⟩)))
  · exact .inr (.inr (.inr (.inr ⟨_, ‹_›, rfl⟩)))

/-- `ehci_irqThread` touches neither USBSTS nor the handler, and changes
`ehci->status` only by the store of an `ehci->status &= ~bits`. -/
theorem irqThreadStep_frame (h : irqThreadStep s = some s') :
    s'.usbsts = s.usbsts ∧ s'.handler = s.handler ∧ (s'.status = s.status ∨
      ∃ g loaded, s.worker = .store g loaded ∧ s'.status = clearBits loaded g.bits ∧
        s'.worker = .work g) := by
  rcases irqThreadStep_cases h with ⟨-, rfl⟩ | ⟨g, -, rfl⟩ | ⟨g, -, rfl⟩ | ⟨g, loaded, hw, rfl⟩ |
      ⟨g, -, rfl⟩
  all_goals first
    | exact ⟨rfl, rfl, .inl rfl⟩
    | exact ⟨rfl, rfl, .inr ⟨g, loaded, hw, rfl, rfl⟩⟩

/-- The thread reaches the store of `ehci->status &= ~bits` only from its
load, holding the value `ehci->status` had then. -/
theorem irqThreadStep_store {g : IrqGroup} {loaded : Nat} (h : irqThreadStep s = some s')
    (hw : s'.worker = .store g loaded) : loaded = s.status ∧ s'.status = s.status := by
  rcases irqThreadStep_cases h with ⟨-, rfl⟩ | ⟨g', -, rfl⟩ | ⟨g', -, rfl⟩ | ⟨g', l, -, rfl⟩ |
      ⟨g', -, rfl⟩
  · cases hw
  · dsimp only at hw
    split at hw <;> cases g' <;> cases hw
  · cases hw
    exact ⟨rfl, rfl⟩
  · cases hw
  · cases g' <;> cases hw

/-- In any interleaving, a bit leaves USBSTS only into `ehci->status`, and
leaves `ehci->status` only by a store of the thread. -/
theorem irqStep_pending {i : Nat} (h : irqStep intrMask s e = some s')
    (hi : s.usbsts.testBit i = true ∨ s.status.testBit i = true)
    (hu : s'.usbsts.testBit i = false) (hs : s'.status.testBit i = false) :
    e = .thread ∧ s.status.testBit i = true ∧
      ∃ g loaded, s.worker = .store g loaded ∧ s'.status = clearBits loaded g.bits ∧
        s'.worker = .work g := by
  rcases irqStep_cases h with ⟨bits, rfl, rfl⟩ | ⟨rfl, -, -, rfl⟩ | ⟨cur, rfl, -, rfl⟩ |
      ⟨rfl, -, ht⟩
  · simp only [Nat.testBit_lor, Bool.or_eq_false_iff] at hu
    rcases hi with hi | hi <;> simp_all
  · rcases hi with hi | hi <;> simp_all
  · rw [IrqState.afterPass_status, Nat.testBit_lor, Bool.or_eq_false_iff] at hs
    rw [IrqState.afterPass_usbsts, testBit_usbstsWrite, Nat.testBit_land, hs.2] at hu
    rcases hi with hi | hi <;> simp_all
  · obtain ⟨hU, -, hS | hS⟩ := irqThreadStep_frame ht
    · rcases hi with hi | hi <;> simp_all
    · have : s.status.testBit i = true := by rcases hi with hi | hi <;> simp_all
      exact ⟨rfl, this, hS⟩

/-- While the handler does not run inside the thread's read-modify-writes, the
value the thread loaded is still `ehci->status` when it stores, and the
handler is not running then. -/
theorem IrqRun.window {g : IrqGroup} {loaded : Nat} (run : IrqRun intrMask rmwAtomic s)
    (hw : s.worker = .store g loaded) : loaded = s.status ∧ s.handler = none := by
  induction run generalizing g loaded with
  | init => cases hw
  | step prior hOk h ih =>
      rcases irqStep_cases h with ⟨bits, rfl, rfl⟩ | ⟨rfl, -, -, rfl⟩ | ⟨cur, rfl, hh, rfl⟩ |
          ⟨rfl, hh, ht⟩
      · exact ih hw
      · simp only at hw
        simp [rmwAtomic, hw, Worker.inWindow] at hOk
      · simp [(ih hw).2] at hh
      · obtain ⟨hl, hst⟩ := irqThreadStep_store ht hw
        exact ⟨hl.trans hst.symm, (irqThreadStep_frame ht).2.1.trans hh⟩

/-- While each `ehci->status &= ~X` of `ehci_irqThread` runs with no pass of
the handler between its load and its store, an interrupt bit that is in
USBSTS or in `ehci->status` leaves both only when the thread consumes it: by
the store of the test whose bits contain it, which goes on to that test's
work. -/
theorem irq_bit_consumed_by_own_test {i : Nat} (run : IrqRun intrMask rmwAtomic s)
    (hOk : rmwAtomic s e = true) (h : irqStep intrMask s e = some s')
    (hi : s.usbsts.testBit i = true ∨ s.status.testBit i = true)
    (hu : s'.usbsts.testBit i = false) (hs : s'.status.testBit i = false) :
    e = .thread ∧ ∃ g, s.worker = .store g s.status ∧ g.bits.testBit i = true ∧
      s'.worker = .work g := by
  obtain ⟨rfl, hSt, g, loaded, hw, hS, hW⟩ := irqStep_pending h hi hu hs
  obtain ⟨rfl, -⟩ := run.window hw
  rw [hS, testBit_clearBits, hSt] at hs
  exact ⟨rfl, g, hw, by simpa using hs, hW⟩

/-- A value of `EHCI_INTRMASK` for the examples: the interrupts the thread
handles. -/
def sampleIntrMask : Nat := usbstsUi ||| usbstsUei ||| usbstsPci ||| usbstsSei

/-- A completion and a port change latched in one interrupt, the thread at
the store of its UI test's `ehci->status &= ~(USBSTS_UI | USBSTS_UEI)`. -/
def uiWindow : IrqState := ⟨0, 5, none, .store .ui 5, false⟩

theorem uiWindow_run : IrqRun sampleIntrMask rmwAtomic uiWindow :=
  IrqRun.of_runFrom .init (show irqRunFrom sampleIntrMask rmwAtomic irqInit
    [.raise (usbstsUi ||| usbstsPci), .handler, .handler, .thread, .thread, .thread, .thread] =
      some uiWindow from rfl)

theorem completion_consumed_by_ui_store :
    IrqRun sampleIntrMask rmwAtomic uiWindow ∧
      (IrqEvent.thread = .thread ∧ ∃ g, uiWindow.worker = .store g uiWindow.status ∧
        g.bits.testBit 0 = true ∧ Worker.work .ui = .work g) :=
  ⟨uiWindow_run, irq_bit_consumed_by_own_test uiWindow_run (show rmwAtomic uiWindow .thread from rfl)
    (show irqStep sampleIntrMask uiWindow .thread = some ⟨0, 4, none, .work .ui, false⟩ from rfl)
    (.inr (by decide)) (by decide) (by decide)⟩

end Steps

section Window

variable {intrMask : Nat} {s : IrqState}

/-- With `EHCI_INTRMASK` made of write-one-to-clear bits, a pass of the
handler clears every bit of `EHCI_INTRMASK` it read, so the pass after which
the controller raised nothing is the handler's last. -/
theorem irqHandlerPass_clears (hM : intrMask &&& usbstsWc = intrMask) (cur : Nat) :
    usbstsWrite cur (cur &&& (intrMask ||| usbstsFri)) &&& intrMask = 0 := by
  refine Nat.eq_of_testBit_eq fun j => ?_
  have hj : intrMask.testBit j = (intrMask.testBit j && usbstsWc.testBit j) := by
    rw [← Nat.testBit_land, hM]
  rw [Nat.testBit_land, testBit_usbstsWrite, Nat.testBit_land, Nat.testBit_lor, Nat.zero_testBit]
  cases hc : cur.testBit j <;> cases hm : intrMask.testBit j <;> simp_all

end Window

/-- The controller sets none of `bits`. -/
def IrqEvent.raisesNone (bits : Nat) : IrqEvent → Bool
  | .raise b => b &&& bits == 0
  | _ => true

/-- The bits of the tests the thread has passed in its current wake-up; each
found its bits clear, or cleared them. -/
def Worker.drained : Worker → Nat
  | .work .ui | .test .pci | .load .pci | .store .pci _ => IrqGroup.ui.bits
  | .work .pci | .waiting => IrqGroup.ui.bits ||| IrqGroup.pci.bits
  | _ => 0

/-- The thread is inside the branch of a host system error. -/
def Worker.inSei : Worker → Bool
  | .load .sei | .store .sei _ | .work .sei => true
  | _ => false

theorem land_eq_zero_iff {x m : Nat} : x &&& m = 0 ↔ ∀ i, m.testBit i = true → x.testBit i = false := by
  refine ⟨fun h i hm => ?_, fun h => Nat.eq_of_testBit_eq fun i => ?_⟩
  · simpa [Nat.testBit_land, hm] using congrArg (Nat.testBit · i) h
  · cases hm : m.testBit i <;> simp [Nat.testBit_land, hm, h i]

section Wakeups

variable {intrMask : Nat} {s s' : IrqState} {e : IrqEvent}

/-- In any interleaving, the value the thread loaded for a store holds no bit
that `ehci->status` has lost since: only the thread's store clears it. -/
theorem IrqRun.loaded_le {ok : IrqState → IrqEvent → Bool} {g : IrqGroup} {loaded : Nat}
    (run : IrqRun intrMask ok s) (hw : s.worker = .store g loaded) (i : Nat)
    (hi : loaded.testBit i = true) : s.status.testBit i = true := by
  induction run generalizing g loaded with
  | init => cases hw
  | step prior _ h ih =>
      rcases irqStep_cases h with ⟨bits, rfl, rfl⟩ | ⟨rfl, -, -, rfl⟩ | ⟨cur, rfl, -, rfl⟩ |
          ⟨rfl, -, ht⟩
      · exact ih hw hi
      · exact ih hw hi
      · simp [Nat.testBit_lor, ih hw hi]
      · obtain ⟨rfl, hst⟩ := irqThreadStep_store ht hw
        rwa [hst]

/-- A step of the thread adds to what it has drained only bits that
`ehci->status` does not hold, and leaves the signal alone except when it
takes it. -/
theorem irqThreadStep_drained (hNot : s.worker.inSei = false)
    (hLoaded : ∀ g loaded, s.worker = .store g loaded → ∀ i, loaded.testBit i = true →
      s.status.testBit i = true)
    (h : irqThreadStep s = some s') {i : Nat} (hs : s'.status.testBit i = true)
    (hd : s'.worker.drained.testBit i = true) :
    s.status.testBit i = true ∧ s.worker.drained.testBit i = true ∧ s'.signalled = s.signalled := by
  rcases irqThreadStep_cases h with ⟨-, rfl⟩ | ⟨g, hw, rfl⟩ | ⟨g, hw, rfl⟩ | ⟨g, loaded, hw, rfl⟩ |
      ⟨g, hw, rfl⟩
  · simp [Worker.drained] at hd
  · by_cases hz : s.status &&& g.bits = 0
    · have hi := land_eq_zero_iff.1 hz i
      cases g <;> simp only [hz, if_true, IrqGroup.skip, Worker.drained] at hd hs ⊢
      · simp at hd
      · exact absurd hs (by simp [hi hd])
      · rw [hw]
        rcases Bool.or_eq_true_iff.1 (Nat.testBit_lor _ _ _ ▸ hd) with hu | hp
        · exact ⟨hs, hu, trivial⟩
        · exact absurd hs (by simp [hi hp])
    · cases g <;> simp only [hz, if_false, Worker.drained] at hd hs ⊢
      all_goals first | simp at hd | exact ⟨hs, by rw [hw]; exact hd, trivial⟩
  · cases g <;> simp only [Worker.drained] at hd hs ⊢
    · simp [hw, Worker.inSei] at hNot
    · simp at hd
    · exact ⟨hs, by rw [hw]; exact hd, trivial⟩
  · rw [testBit_clearBits, Bool.and_eq_true_iff] at hs
    have hSt := hLoaded g loaded hw i hs.1
    cases g <;> simp only [Worker.drained] at hd ⊢
    · simp [hw, Worker.inSei] at hNot
    · exact absurd hs.2 (by simp [hd])
    · rcases Bool.or_eq_true_iff.1 (Nat.testBit_lor _ _ _ ▸ hd) with hu | hp
      · exact ⟨hSt, by rw [hw]; exact hu, trivial⟩
      · exact absurd hs.2 (by simp [hp])
  · cases g <;> simp only [IrqGroup.next, Worker.drained] at hd hs ⊢
    · simp [hw, Worker.inSei] at hNot
    all_goals exact ⟨hs, by rw [hw]; exact hd, trivial⟩

/-- A step of the thread clears bits of `ehci->status` and sets none. -/
theorem irqThreadStep_status_le
    (hLoaded : ∀ g loaded, s.worker = .store g loaded → ∀ i, loaded.testBit i = true →
      s.status.testBit i = true)
    (h : irqThreadStep s = some s') (i : Nat) (hi : s'.status.testBit i = true) :
    s.status.testBit i = true := by
  rcases (irqThreadStep_frame h).2.2 with hS | ⟨g, loaded, hw, hS, -⟩
  · rwa [hS] at hi
  · rw [hS, testBit_clearBits, Bool.and_eq_true_iff] at hi
    exact hLoaded g loaded hw i hi.1

/-- With no host system error latched, the thread never enters the SEI
branch. -/
theorem irqThreadStep_not_sei (hSei : s.status &&& usbstsSei = 0) (hNot : s.worker.inSei = false)
    (h : irqThreadStep s = some s') : s'.worker.inSei = false := by
  rcases irqThreadStep_cases h with ⟨-, rfl⟩ | ⟨g, -, rfl⟩ | ⟨g, hw, rfl⟩ | ⟨g, loaded, hw, rfl⟩ |
      ⟨g, hw, rfl⟩
  · rfl
  · cases g
    · simp only [IrqGroup.bits, hSei, if_true, IrqGroup.skip, Worker.inSei]
    all_goals dsimp only; split <;> rfl
  all_goals cases g <;> first | rfl | simp [hw, Worker.inSei] at hNot

theorem land_ne_zero_mono {a b m m' : Nat} (h : a &&& m ≠ 0)
    (hab : ∀ i, a.testBit i = true → b.testBit i = true)
    (hm : ∀ i, m.testBit i = true → m'.testBit i = true) : b &&& m' ≠ 0 := fun h0 =>
  h (land_eq_zero_iff.2 fun i hi => by
    cases ha : a.testBit i
    · rfl
    · simpa [land_eq_zero_iff.1 h0 i (hm i hi)] using hab i ha)

/-- What keeps a wake-up of the thread from being lost while no host system
error occurs: no SEI anywhere, a running handler has read an enabled
interrupt, and every bit the thread has drained in this wake-up and finds
latched again has a signal waiting, or a handler on its way to give one. -/
structure Wakeful (s : IrqState) : Prop where
  usbsts_sei : s.usbsts &&& usbstsSei = 0
  status_sei : s.status &&& usbstsSei = 0
  read_sei : ∀ cur, s.handler = some cur → cur &&& usbstsSei = 0
  not_sei : s.worker.inSei = false
  entered : ∀ cur, s.handler = some cur → (cur ||| s.status) &&& usbintrEnabled ≠ 0
  drained : ∀ i, s.status.testBit i = true → s.worker.drained.testBit i = true →
    s.signalled = true ∨ s.handler.isSome = true

theorem wakeful_irqInit : Wakeful irqInit where
  usbsts_sei := Nat.zero_and _
  status_sei := Nat.zero_and _
  read_sei _ h := by cases h
  not_sei := rfl
  entered _ h := by cases h
  drained _ h := by simp [irqInit] at h

/-- One event keeps `Wakeful`, when `EHCI_INTRMASK` holds the enabled
interrupts and the controller raises no host system error. -/
theorem Wakeful.step (hEn : usbintrEnabled &&& intrMask = usbintrEnabled) (hw : Wakeful s)
    (hLoaded : ∀ g loaded, s.worker = .store g loaded → ∀ i, loaded.testBit i = true →
      s.status.testBit i = true)
    (hOk : e.raisesNone usbstsSei = true) (h : irqStep intrMask s e = some s') : Wakeful s' := by
  rcases irqStep_cases h with ⟨bits, rfl, rfl⟩ | ⟨rfl, -, hAs, rfl⟩ | ⟨cur, rfl, hc, rfl⟩ |
      ⟨rfl, hh, ht⟩
  · simp only [IrqEvent.raisesNone, beq_iff_eq] at hOk
    refine ⟨land_eq_zero_iff.2 fun i hi => ?_, hw.status_sei, hw.read_sei, hw.not_sei, hw.entered,
      hw.drained⟩
    simp [Nat.testBit_lor, land_eq_zero_iff.1 hw.usbsts_sei i hi, land_eq_zero_iff.1 hOk i hi]
  · refine ⟨hw.usbsts_sei, hw.status_sei, fun cur hc => ?_, hw.not_sei, fun cur hc => ?_,
      fun _ _ _ => .inr rfl⟩ <;> cases hc
    · exact hw.usbsts_sei
    · exact land_ne_zero_mono hAs (fun i hi => by simp [Nat.testBit_lor, hi]) fun _ => id
  · have hEntered := hw.entered cur hc
    have hSei : (s.afterPass intrMask cur).usbsts &&& usbstsSei = 0 :=
      land_eq_zero_iff.2 fun i hi => by
        simp [testBit_usbstsWrite, land_eq_zero_iff.1 hw.usbsts_sei i hi]
    have hSt : ∀ i, (cur ||| s.status).testBit i = true →
        (s.afterPass intrMask cur).status.testBit i = true := fun i hi => by
      simpa [Nat.testBit_lor, Bool.or_comm] using hi
    refine ⟨hSei, land_eq_zero_iff.2 fun i hi => ?_, fun cur' hc' => ?_, hw.not_sei,
      fun cur' hc' => ?_, fun _ _ _ => ?_⟩
    · simp [Nat.testBit_lor, land_eq_zero_iff.1 hw.status_sei i hi,
        land_eq_zero_iff.1 (hw.read_sei cur hc) i hi]
    · rw [IrqState.afterPass_handler] at hc'
      split at hc' <;> cases hc'
      exact hSei
    · exact land_ne_zero_mono hEntered (fun i hi => by rw [Nat.testBit_lor, hSt i hi, Bool.or_true])
        fun _ => id
    · cases hDone : (s.afterPass intrMask cur).handler
      · refine .inl (IrqState.afterPass_signalled hDone (land_ne_zero_mono hEntered hSt ?_))
        intro i hi
        simpa [Nat.testBit_land, hi] using congrArg (Nat.testBit · i) hEn
      · exact .inr rfl
  · have hFrame := irqThreadStep_frame ht
    have hLe := irqThreadStep_status_le hLoaded ht
    refine ⟨hFrame.1 ▸ hw.usbsts_sei, land_eq_zero_iff.2 fun i hi => ?_, fun _ hc => ?_,
      irqThreadStep_not_sei hw.status_sei hw.not_sei ht, fun _ hc => ?_, fun i hs hd => ?_⟩
    · cases hs : (s'.status).testBit i
      · rfl
      · simpa [land_eq_zero_iff.1 hw.status_sei i hi] using hLe i hs
    · simp [hFrame.2.1, hh] at hc
    · simp [hFrame.2.1, hh] at hc
    · obtain ⟨hs₀, hd₀, hSig⟩ := irqThreadStep_drained hw.not_sei hLoaded ht hs hd
      rcases hw.drained i hs₀ hd₀ with hSg | hH
      · exact .inl (hSig.trans hSg)
      · simp [hh] at hH

theorem IrqRun.wakeful {ok : IrqState → IrqEvent → Bool}
    (hEn : usbintrEnabled &&& intrMask = usbintrEnabled) (run : IrqRun intrMask ok s)
    (hok : ∀ s e, ok s e = true → e.raisesNone usbstsSei = true) : Wakeful s := by
  induction run with
  | init => exact wakeful_irqInit
  | step prior hOk h ih =>
      exact ih.step hEn (fun _ _ hw => prior.loaded_le hw) (hok _ _ hOk) h

/-- With `EHCI_INTRMASK` holding the interrupts `ehci_init` enables, and in
any interleaving in which the controller raises no host system error,
`ehci_irqThread` blocks in `condWait` with no signal pending, the handler
not running, only when `ehci->status` holds no completion or port-change
bit: every such bit the handler latches is consumed in the current wake-up
or has a signal waiting for it. -/
theorem irq_thread_waits_drained (hEn : usbintrEnabled &&& intrMask = usbintrEnabled)
    (run : IrqRun intrMask (fun _ e => e.raisesNone usbstsSei) s)
    (hw : s.worker = .waiting) (hs : s.signalled = false) (hh : s.handler = none) :
    s.status &&& (IrqGroup.ui.bits ||| IrqGroup.pci.bits) = 0 := by
  have hWake := run.wakeful hEn fun _ _ => id
  refine land_eq_zero_iff.2 fun i hi => ?_
  cases hst : s.status.testBit i
  · rfl
  · rcases hWake.drained i hst (by rw [hw]; exact hi) with h | h <;> simp [hs, hh] at h

/-- A completion latched with a frame rollover and consumed: the thread back
in `condWait` with the rollover left in `ehci->status`. -/
def rolloverLeft : IrqState := ⟨0, usbstsFri, none, .waiting, false⟩

theorem rollover_left_after_completion :
    IrqRun sampleIntrMask (fun _ e => e.raisesNone usbstsSei) rolloverLeft ∧
      rolloverLeft.status &&& (IrqGroup.ui.bits ||| IrqGroup.pci.bits) = 0 :=
  have run := IrqRun.of_runFrom .init (show irqRunFrom sampleIntrMask
    (fun _ e => e.raisesNone usbstsSei) irqInit [.raise (usbstsUi ||| usbstsFri), .handler,
      .handler, .thread, .thread, .thread, .thread, .thread, .thread, .thread] = some rolloverLeft
    from rfl)
  ⟨run, irq_thread_waits_drained (by decide) run rfl rfl rfl⟩

end Wakeups

end Ehci
