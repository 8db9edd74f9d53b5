import Ehci.Layout

/-! The records of `ehci.c` and the driver state. Queue heads and qTDs live
in two arenas indexed by `Nat`; a pointer is an index, `NULL` is `none`. The
circular lists of `<sys/list.h>` (pools, qTD rings, in-flight transfers) are
Lean lists in order from their head, so `LIST_ADD` appends and `LIST_REMOVE`
erases. The queue-head pool also writes the ring's `next`/`prev` fields of
its records, which the schedules use as well; the other lists keep their
order in the Lean list alone. -/
namespace Ehci

/-- `struct qtd`: the qTD block the controller reads. The `buf_hi` words are
always zero in this driver and are left out. -/
structure QtdHw where
  next : Nat
  altnext : Nat
  token : Nat
  buf : List Nat
  deriving DecidableEq, Repr

/-- `ehci_qtd_t`. Its `next`/`prev` links are the order of the list that holds
it; `live` is false once `free` has released the record and its block. -/
structure Qtd where
  hw : QtdHw
  qh : Option Nat
  live : Bool
  deriving DecidableEq, Repr

/-- `struct qh` without its buffer slots, which the driver only zeroes. -/
structure QhHw where
  info0 : Nat
  info1 : Nat
  horizontal : Nat
  current : Nat
  nextQtd : Nat
  altnextQtd : Nat
  token : Nat
  deriving DecidableEq, Repr

/-- `ehci_qh_t`. `lastQtd` points at the hardware block of a qTD, which is one
to one with the qTD record, so it is the record's index. -/
structure Qh where
  hw : QhHw
  next : Option Nat
  prev : Option Nat
  period : Nat
  phase : Nat
  uframe : Nat
  lastQtd : Option Nat
  live : Bool
  deriving DecidableEq, Repr

/-- `usb_transfer_*` of the USB stack. -/
inductive TransferType where
  | control
  | isochronous
  | bulk
  | interrupt
  deriving DecidableEq, Repr

/-- `usb_dir_in` and `usb_dir_out`. -/
inductive Direction where
  | dirIn
  | dirOut
  deriving DecidableEq, Repr

/-- Modelled from the spec: `usb_high_speed`, the speed code that is also the
EHCI endpoint-speed field value for high speed. -/
def usbHighSpeed : Nat := 2

/-- The fields of `usb_transfer_t` the driver reads or writes. `setup` and
`buffer` are virtual addresses; `hcdpriv` is the qTD ring, empty for `NULL`. -/
structure Transfer where
  type : TransferType
  direction : Direction
  setup : Nat
  buffer : Option Nat
  size : Nat
  hcdpriv : List Nat
  deriving DecidableEq, Repr

/-- The fields of `usb_pipe_t` and of its device the driver reads or writes. -/
structure Pipe where
  address : Nat
  speed : Nat
  roothub : Bool
  num : Nat
  type : TransferType
  maxPacketLen : Nat
  interval : Nat
  hcdpriv : Option Nat
  deriving DecidableEq, Repr

/-- One controller: `ehci_t`, the in-flight list of `hcd_t`, the stack's
transfer and pipe records, the completions `usb_transferFinished` received
(oldest first), and `memory`, the allocations the system allocator can still
grant (`malloc` or `usb_alloc` return `NULL` once it is zero). -/
structure Hcd where
  qhs : Nat → Qh
  qhCount : Nat
  qtds : Nat → Qtd
  qtdCount : Nat
  periodicList : Nat → Nat
  periodicNodes : Nat → Option Nat
  asyncList : Nat
  qhPool : List Nat
  nqhs : Nat
  qtdPool : List Nat
  nqtds : Nat
  transfers : List Nat
  trs : Nat → Transfer
  pipes : Nat → Pipe
  finished : List (Nat × Int)
  memory : Nat

namespace Hcd

/-- A write to one queue head. -/
@[simps]
def modifyQh (s : Hcd) (q : Nat) (f : Qh → Qh) : Hcd :=
  { s with qhs := Function.update s.qhs q (f (s.qhs q)) }

/-- A write to one qTD record. -/
@[simps]
def modifyQtd (s : Hcd) (q : Nat) (f : Qtd → Qtd) : Hcd :=
  { s with qtds := Function.update s.qtds q (f (s.qtds q)) }

/-- A write to one transfer record. -/
@[simps]
def modifyTr (s : Hcd) (t : Nat) (f : Transfer → Transfer) : Hcd :=
  { s with trs := Function.update s.trs t (f (s.trs t)) }

/-- A write to one pipe record. -/
@[simps]
def modifyPipe (s : Hcd) (p : Nat) (f : Pipe → Pipe) : Hcd :=
  { s with pipes := Function.update s.pipes p (f (s.pipes p)) }

end Hcd

end Ehci
