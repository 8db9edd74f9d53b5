import Ehci.Async
import Ehci.Periodic
import Ehci.Qtd

/-! Transfers: `ehci_transferEnqueue`, the reaper `ehci_transUpdate` with
`ehci_qtdsCheck` and `ehci_continue`, `ehci_transferDequeue` and
`ehci_pipeDestroy`. Every call runs to its end before the next, so the locks
are left out. The controller is not modelled here: the token words it writes
back are inputs of the reaper. -/
namespace Ehci

/-- Modelled from the spec: `sizeof(usb_setup_packet_t)`, the 8 bytes of a
SETUP packet. -/
def usbSetupPacketSize : Nat := 8

/-- Modelled from the spec: `ehci_roothubReq`, the roothub emulator, which is
not among the sources. It answers a request without descriptors; its answer is
not modelled and taken as success. -/
def roothubReq (s : Hcd) (_t : Nat) : Hcd × Int := (s, 0)

/-- The queue head `ehci_transferEnqueue` uses for a transfer on `pipe`: a new
one, configured and linked into the schedule the transfer's type asks for, or
the pipe's own, with the device address and packet size brought up to date. -/
def pipeQh (cfg : Config) (s : Hcd) (tr : Transfer) (pipe : Nat) : Option (Hcd × Nat) :=
  let p := s.pipes pipe
  match p.hcdpriv with
  | none =>
      match qhAlloc s with
      | none => none
      | some (s, qh) =>
          let s := s.modifyQh qh fun x => qhConf x p
          let s := s.modifyPipe pipe fun x => { x with hcdpriv := some qh }
          some (if tr.type = .bulk ∨ tr.type = .control then qhLinkAsync s qh
            else qhLinkPeriodic cfg.periodicSize s qh, qh)
  | some qh =>
      let s := if qhDevaddr (s.qhs qh).hw.info0 ≠ p.address then
          s.modifyQh qh fun x =>
            { x with hw := { x.hw with info0 := clearBits x.hw.info0 0x7f ||| p.address } }
        else s
      let s := if qhPacklen (s.qhs qh).hw.info0 ≠ p.maxPacketLen then
          s.modifyQh qh fun x => { x with hw := { x.hw with
            info0 := clearBits x.hw.info0 (0x7ff <<< 16) ||| (p.maxPacketLen <<< 16) } }
        else s
      some (s, qh)

/-- The failure path of a stage of `ehci_transferEnqueue`: pool the qTDs built
so far and clear the transfer's ring. -/
def stageFail (cfg : Config) (s : Hcd) (t : Nat) (qtds : List Nat) : Hcd × List Nat × Int :=
  ((qtdsPut cfg s qtds).modifyTr t fun x => { x with hcdpriv := [] }, [], -eNomem)

/-- The SETUP, data and status stages of `ehci_transferEnqueue`: the qTDs, in
order, or `-ENOMEM` with every qTD built so far back in the pool. -/
def transferQtds (cfg : Config) (va2pa : Nat → Nat) (s : Hcd) (t : Nat) (p : Pipe) :
    Hcd × List Nat × Int :=
  let tr := s.trs t
  let token := if tr.direction = .dirIn then inToken else outToken
  let r := if tr.type = .control then
      qtdAdd va2pa s [] setupToken p.maxPacketLen (some tr.setup) usbSetupPacketSize 0
    else (s, [], 0)
  if r.2.2 < 0 then stageFail cfg r.1 t r.2.1 else
  let r := if (tr.type = .control ∧ 0 < tr.size) ∨ tr.type = .bulk ∨ tr.type = .interrupt then
      qtdAdd va2pa r.1 r.2.1 token p.maxPacketLen tr.buffer tr.size 1
    else r
  if r.2.2 < 0 then stageFail cfg r.1 t r.2.1 else
  let r := if tr.type = .control then
      qtdAdd va2pa r.1 r.2.1 (if token = inToken then outToken else inToken) p.maxPacketLen
        none 0 1
    else r
  if r.2.2 < 0 then stageFail cfg r.1 t r.2.1 else r

/-- `ehci_qtdLink`: point the hardware next of `prev` at `next`. -/
def qtdLink (s : Hcd) (prev next : Nat) : Hcd :=
  s.modifyQtd prev fun x => { x with hw := { x.hw with next := qtdPtr next } }

/-- The linking loop of `ehci_transferEnqueue` over the qTDs from `first` on:
each one points at its successor on the ring and belongs to `qh`. -/
def qtdsLink (s : Hcd) (qh first : Nat) : List Nat → Hcd
  | [] => s
  | [q] => (qtdLink s q first).modifyQtd q fun x => { x with qh := some qh }
  | q :: q' :: rest =>
      qtdsLink ((qtdLink s q q').modifyQtd q fun x => { x with qh := some qh }) qh first (q' :: rest)

/-- `ehci_enqueue`: terminate the last qTD, ask for an interrupt on it, and
put the qTDs behind those pending on the queue head. -/
def enqueue (s : Hcd) (qh first last : Nat) : Hcd :=
  let s := s.modifyQtd last fun x => { x with hw := { x.hw with next := qtdPtrInvalid } }
  let s := s.modifyQtd last fun x => { x with hw := { x.hw with token := x.hw.token ||| qtdIoc } }
  let s := match (s.qhs qh).lastQtd with
    | none => s.modifyQh qh fun x => { x with hw := { x.hw with nextQtd := qtdPtr first } }
    | some l => s.modifyQtd l fun x => { x with hw := { x.hw with next := qtdPtr first } }
  s.modifyQh qh fun x => { x with lastQtd := some last }

/-- `ehci_transferEnqueue` of transfer `t` on pipe `pipe`, with its result. -/
def transferEnqueue (cfg : Config) (va2pa : Nat → Nat) (s : Hcd) (t pipe : Nat) : Hcd × Int :=
  if (s.pipes pipe).roothub then roothubReq s t else
  match pipeQh cfg s (s.trs t) pipe with
  | none => (s, -eNomem)
  | some (s, qh) =>
      let r := transferQtds cfg va2pa s t (s.pipes pipe)
      if r.2.2 < 0 then (r.1, r.2.2) else
      match r.2.1 with
      | [] => (r.1, -1)
      | first :: rest =>
          let s := r.1.modifyTr t fun x => { x with hcdpriv := first :: rest }
          let s := qtdsLink s qh first (first :: rest)
          let s := { s with transfers := s.transfers ++ [t] }
          (enqueue s qh first ((first :: rest).getLast (List.cons_ne_nil first rest)), 0)

/-- A token with XACT, BABBLE, BUFERR or HALTED set. -/
def qtdHasError (token : Nat) : Bool := token &&& qtdErrorBits ≠ 0

/-- `ehci_qtdsCheck`: whether transfer `t` is finished, and the status it
reports: minus the number of qTDs with an error bit, overwritten by the byte
count `t->size - QTD_LEN` of the last qTD once that one is inactive or halted.
An empty ring would fault in the source. -/
def qtdsCheck (s : Hcd) (t : Nat) : Bool × Int :=
  let tr := s.trs t
  let error := tr.hcdpriv.countP fun q => qtdHasError (s.qtds q).hw.token
  let r : Bool × Int := if 0 < error then (true, -(error : Int)) else (false, 0)
  match tr.hcdpriv.getLast? with
  | none => r
  | some last =>
      let token := (s.qtds last).hw.token
      if token &&& qtdActive = 0 ∨ token &&& qtdHalted ≠ 0 then
        (true, (tr.size : Int) - (qtdLen token : Int))
      else r

/-- `ehci_continue` after the transfer whose last qTD is `last` finished on
queue head `qh` (the source's name is a Lean keyword). -/
def ehciContinue (s : Hcd) (qh last : Nat) : Hcd :=
  let s := if (s.qhs qh).lastQtd = some last then
      s.modifyQh qh fun x => { x with lastQtd := none, hw := { x.hw with nextQtd := qtdPtrInvalid } }
    else s
  let s := if (s.qhs qh).hw.nextQtd = qtdPtrInvalid ∧ (s.qhs qh).hw.current = qtdPtr last then
      s.modifyQh qh fun x => { x with hw := { x.hw with nextQtd := (s.qtds last).hw.next } }
    else s
  if (s.qhs qh).hw.token &&& qtdErrmask ≠ 0 then
    s.modifyQh qh fun x => { x with hw := { x.hw with nextQtd := (s.qtds last).hw.next,
                                                       token := clearBits x.hw.token 0x7e } }
  else s

/-- The `ehci_continue` call of `ehci_transUpdate` for transfer `t`: on the
queue head of its first qTD, after its last qTD. A qTD without a queue head
would fault in the source. -/
def continueAfter (s : Hcd) (t : Nat) : Hcd :=
  let ring := (s.trs t).hcdpriv
  match ring.head?, ring.getLast? with
  | some first, some last =>
      match (s.qtds first).qh with
      | some qh => ehciContinue s qh last
      | none => s
  | _, _ => s

/-- One reaping of `ehci_transUpdate`: transfer `t` finished with `status`,
so its queue head moves on, its qTDs go back to the pool, and it leaves the
in-flight list for `usb_transferFinished`. -/
def reap (cfg : Config) (s : Hcd) (t : Nat) (status : Int) : Hcd :=
  let s' := qtdsPut cfg (continueAfter s t) (s.trs t).hcdpriv
  let s' := { s' with transfers := s'.transfers.erase t }
  let s' := s'.modifyTr t fun x => { x with hcdpriv := [] }
  { s' with finished := s'.finished ++ [(t, status)] }

/-- The body of the loop of `ehci_transUpdate` for transfer `t`: reap it if
`ehci_qtdsCheck` finds it finished. -/
def reapIfFinished (cfg : Config) (s : Hcd) (t : Nat) : Hcd :=
  let c := qtdsCheck s t
  if c.1 then reap cfg s t c.2 else s

/-- One pass of the loop of `ehci_transUpdate` over the transfers `ts` in list
order, and whether it reaped the last of them with others left: the loop then
goes round once more from the head. -/
def transPass (cfg : Config) (s : Hcd) : List Nat → Hcd × Bool
  | [] => (s, false)
  | [t] =>
      let s' := reapIfFinished cfg s t
      (s', (qtdsCheck s t).1 && !s'.transfers.isEmpty)
  | t :: t' :: ts => transPass cfg (reapIfFinished cfg s t) (t' :: ts)

/-- The passes of `ehci_transUpdate` with at most `n` more to go. A pass that
asks for another has reaped a transfer, so the number of transfers in flight
bounds them. -/
def transPasses (cfg : Config) : Nat → Hcd → Hcd
  | 0, s => (transPass cfg s s.transfers).1
  | n + 1, s =>
      let r := transPass cfg s s.transfers
      if r.2 then transPasses cfg n r.1 else r.1

/-- `ehci_transUpdate`: reap every finished transfer. -/
def transUpdate (cfg : Config) (s : Hcd) : Hcd :=
  transPasses cfg s.transfers.length s

/-- `ehci_qtdsDeactivate`: clear the active bit of every qTD of a ring. -/
def qtdsDeactivate (s : Hcd) : List Nat → Hcd
  | [] => s
  | q :: rest => qtdsDeactivate (s.modifyQtd q fun x =>
      { x with hw := { x.hw with token := clearBits x.hw.token qtdActive } }) rest

/-- `ehci_transferDequeue`. -/
def transferDequeue (cfg : Config) (s : Hcd) (t : Nat) : Hcd :=
  transUpdate cfg (qtdsDeactivate s (s.trs t).hcdpriv)

/-- The loop of `ehci_pipeDestroy` over the in-flight transfers: deactivate
those whose first qTD belongs to `qh`. -/
def deactivateOn (s : Hcd) (qh : Nat) : List Nat → Hcd
  | [] => s
  | t :: ts =>
      let ring := (s.trs t).hcdpriv
      let s := match ring.head? with
        | some q => if (s.qtds q).qh = some qh then qtdsDeactivate s ring else s
        | none => s
      deactivateOn s qh ts

/-- `ehci_pipeDestroy`: take the pipe's queue head out of its schedule, reap
its transfers as cancelled and pool it. -/
def pipeDestroy (cfg : Config) (s : Hcd) (pipe : Nat) : Hcd :=
  let p := s.pipes pipe
  match p.hcdpriv with
  | none => s
  | some qh =>
      let s := if p.type = .bulk ∨ p.type = .control then qhUnlinkAsync s qh
        else if p.type = .interrupt then qhUnlinkPeriodic cfg.periodicSize s qh else s
      let s := if s.transfers = [] then s else transUpdate cfg (deactivateOn s qh s.transfers)
      qhPut cfg (s.modifyPipe pipe fun x => { x with hcdpriv := none }) qh

/-- The controller writes back the token of qTD `q`. -/
def qtdWriteback (s : Hcd) (q token : Nat) : Hcd :=
  s.modifyQtd q fun x => { x with hw := { x.hw with token := token } }

/-- A 128-slot build with small pools. -/
def sampleConfig : Config :=
  { imx := true, maxQtdPool := 16, maxQhPool := 4, maxQtdPool_pos := by decide,
    maxQhPool_pos := by decide }

/-- A high-speed bulk pipe of device 1. -/
def bulkPipe : Pipe :=
  { address := 1, speed := usbHighSpeed, roothub := false, num := 1, type := .bulk,
    maxPacketLen := 512, interval := 0, hcdpriv := none }

/-- The high-speed control pipe of device 1. -/
def controlPipe : Pipe :=
  { address := 1, speed := usbHighSpeed, roothub := false, num := 0, type := .control,
    maxPacketLen := 64, interval := 0, hcdpriv := none }

/-- A bulk IN transfer of `size` bytes into `buffer`. -/
def bulkIn (buffer size : Nat) : Transfer :=
  { type := .bulk, direction := .dirIn, setup := 0, buffer := some buffer, size := size,
    hcdpriv := [] }

/-- A control read of `size` bytes into `buffer`, its SETUP packet at `0x800`. -/
def controlIn (buffer size : Nat) : Transfer :=
  { type := .control, direction := .dirIn, setup := 0x800, buffer := some buffer, size := size,
    hcdpriv := [] }

end Ehci
