import Mathlib.Data.Nat.Bitwise

/-! Descriptor layout and build constants of the EHCI driver. The header
`ehci.h` that `ehci.c` includes is not among the sources, so the values
it provides are taken from the EHCI descriptor formats. -/
namespace Ehci

/-- `EHCI_PAGE_SIZE`. -/
def ehciPageSize : Nat := 4096

/-- `EHCI_QH_NBUFS`: the buffer-pointer slots of a qTD. -/
def ehciQhNbufs : Nat := 5

/-- `EHCI_TRANS_ERRORS`: the retry count put into every new qTD. -/
def ehciTransErrors : Nat := 3

/-- `EHCI_PERIODIC_SIZE`, chosen by the `EHCI_IMX` build flag. -/
def ehciPeriodicSize (imx : Bool) : Nat := if imx then 128 else 1024

/-- Build-time parameters. The two pool caps are `EHCI_MAX_QTD_POOL` and
`EHCI_MAX_QH_POOL` of `ehci.h`; a cap of zero would make the pool release
paths free a record of an empty pool, so a configuration carries their
positivity. -/
structure Config where
  imx : Bool
  maxQtdPool : Nat
  maxQhPool : Nat
  maxQtdPool_pos : 0 < maxQtdPool
  maxQhPool_pos : 0 < maxQhPool

/-- The frame-list length of a build. -/
def Config.periodicSize (cfg : Config) : Nat := ehciPeriodicSize cfg.imx

/-- Modelled from the spec: `QTD_ACTIVE`, bit 7 of the token. -/
def qtdActive : Nat := 0x80

/-- Modelled from the spec: `QTD_HALTED`, bit 6 of the token. -/
def qtdHalted : Nat := 0x40

/-- Modelled from the spec: `QTD_BUFERR`, bit 5 of the token. -/
def qtdBuferr : Nat := 0x20

/-- Modelled from the spec: `QTD_BABBLE`, bit 4 of the token. -/
def qtdBabble : Nat := 0x10

/-- Modelled from the spec: `QTD_XACT`, bit 3 of the token. -/
def qtdXact : Nat := 0x08

/-- Modelled from the spec: `QTD_IOC`, bit 15 of the token. -/
def qtdIoc : Nat := 0x8000

/-- Modelled from the spec: `QTD_ERRMASK`, the error bits of the error
taxonomy (halted, data buffer error, babble, transaction error). -/
def qtdErrmask : Nat := 0x78

/-- The four bits `ehci_qtdsCheck` counts as an error. -/
def qtdErrorBits : Nat := qtdXact ||| qtdBabble ||| qtdBuferr ||| qtdHalted

/-- Modelled from the spec: the PID codes `out_token`, `in_token` and
`setup_token` of the token's bits 8 and 9. -/
def outToken : Nat := 0

/-- Modelled from the spec: `in_token`. -/
def inToken : Nat := 1

/-- Modelled from the spec: `setup_token`. -/
def setupToken : Nat := 2

/-- Modelled from the spec: `QTD_LEN`, the remaining-byte field, bits 16 to 30. -/
def qtdLen (token : Nat) : Nat := (token >>> 16) &&& 0x7fff

/-- Modelled from the spec: `QTD_OFFSET`, the offset of an address in its page. -/
def qtdOffset (addr : Nat) : Nat := addr &&& 0xfff

/-- The token `ehci_qtdAlloc` writes before the byte count is known. -/
def qtdTokenInit (pid datax : Nat) : Nat :=
  (datax <<< 31) ||| (pid <<< 8) ||| (ehciTransErrors <<< 10) ||| qtdActive

/-- `x & ~0xfff`: the base of the page that holds address `x`. -/
def pageMask (x : Nat) : Nat := x >>> 12 <<< 12

/-- `x & ~mask`: `x` with the bits of `mask` cleared. -/
def clearBits (x mask : Nat) : Nat := x ^^^ (x &&& mask)

/-- `ENOMEM` of the system's `errno.h`; the driver returns it negated. -/
def eNomem : Int := 12

/-- Modelled from the spec: the T bit, `QTD_PTR_INVALID` and `QH_PTR_INVALID`. -/
def qtdPtrInvalid : Nat := 1

/-- Modelled from the spec: `QH_PTR_INVALID`. -/
def qhPtrInvalid : Nat := 1

/-- Modelled from the spec: the physical address of the hardware block of
descriptor `n` of its arena. Blocks are 32-byte aligned and never at zero. -/
def hwAddr (n : Nat) : Nat := (n + 1) <<< 5

/-- Modelled from the spec: `QTD_PTR`, the physical address of a qTD block. -/
def qtdPtr (n : Nat) : Nat := hwAddr n

/-- Modelled from the spec: `QH_PTR`, a queue-head block's physical address
with the QH type in bits 1 and 2. `QH_PTR(NULL)` carries the type alone. -/
def qhPtr : Option Nat → Nat
  | some n => hwAddr n ||| 2
  | none => 2

/-- Modelled from the spec: `QH_DT`, data toggle taken from the qTDs. -/
def qhDt : Nat := 1 <<< 14

/-- Modelled from the spec: `QH_HEAD`, the head-of-reclamation bit H. -/
def qhHead : Nat := 1 <<< 15

/-- Modelled from the spec: `QH_HIGH_SPEED`, the speed field set to high speed. -/
def qhHighSpeed : Nat := 2 <<< 12

/-- Modelled from the spec: `QH_CTRL`, control endpoint on a non-high-speed device. -/
def qhCtrl : Nat := 1 <<< 27

/-- Modelled from the spec: `QH_SMASK`, start in every microframe. -/
def qhSmask : Nat := 0xff

/-- Modelled from the spec: `QH_CMASK`, the standard complete-split mask. -/
def qhCmask : Nat := 0x1c <<< 8

/-- Modelled from the spec: `QH_DEVADDR`, the device address field of `info[0]`. -/
def qhDevaddr (info : Nat) : Nat := info &&& 0x7f

/-- Modelled from the spec: `QH_PACKLEN`, the max packet length field of `info[0]`. -/
def qhPacklen (info : Nat) : Nat := (info >>> 16) &&& 0x7ff

theorem testBit_eq_false_of_lt {x k i : Nat} (h : x < 2 ^ k) (hi : k ≤ i) :
    x.testBit i = false :=
  Nat.testBit_lt_two_pow (Nat.lt_of_lt_of_le h (Nat.pow_le_pow_right Nat.two_pos hi))

theorem hwAddr_injective : Function.Injective hwAddr := by
  intro a b h
  simp only [hwAddr, Nat.shiftLeft_eq] at h
  omega

@[simp] theorem qtdPtr_inj {a b : Nat} : qtdPtr a = qtdPtr b ↔ a = b :=
  hwAddr_injective.eq_iff

@[simp] theorem qtdPtr_ne_invalid (n : Nat) : qtdPtr n ≠ qtdPtrInvalid := by
  simp only [qtdPtr, hwAddr, qtdPtrInvalid, Nat.shiftLeft_eq]
  omega

/-- No queue-head pointer carries the T bit. -/
@[simp] theorem qhPtr_testBit_zero (q : Option Nat) : (qhPtr q).testBit 0 = false := by
  cases q <;> simp [qhPtr, hwAddr, Nat.testBit_lor]

theorem qhPtr_some_inj {a b : Nat} (h : qhPtr (some a) = qhPtr (some b)) : a = b := by
  have hBits : ∀ j, (a + 1).testBit j = (b + 1).testBit j := by
    intro j
    have hj := congrArg (fun x => x.testBit (j + 5)) h
    have h2 : (2 : Nat).testBit (j + 5) = false :=
      testBit_eq_false_of_lt (by decide : 2 < 2 ^ 2) (by omega)
    simpa [qhPtr, hwAddr, Nat.testBit_lor, h2] using hj
  have := Nat.eq_of_testBit_eq hBits
  omega

theorem qhPtrInvalid_ne_qhPtr (x : Nat) : qhPtrInvalid ≠ qhPtr (some x) := fun h => by
  have h0 := qhPtr_testBit_zero (some x)
  rw [← h] at h0
  exact absurd h0 (by decide)

/-- `QH_PTR` of a driver link addresses a queue head only when the link is
that queue head; `QH_PTR(NULL)` addresses none. -/
theorem qhPtr_eq_qhPtr_some {y : Option Nat} {x : Nat} : qhPtr y = qhPtr (some x) ↔ y = some x := by
  cases y with
  | some y => exact ⟨fun h => congrArg some (qhPtr_some_inj h), fun h => by cases h; rfl⟩
  | none =>
      simp only [reduceCtorEq, iff_false]
      intro h
      have h32 : 32 ≤ qhPtr (some x) := calc
        32 ≤ hwAddr x := by rw [hwAddr, Nat.shiftLeft_eq]; omega
        _ ≤ hwAddr x ||| 2 := Nat.le_of_testBit fun i hi => by simp [Nat.testBit_lor, hi]
      rw [← h] at h32
      exact absurd h32 (by decide)

private theorem testBit_7fff (i : Nat) : (0x7fff : Nat).testBit i = decide (i < 15) :=
  Nat.testBit_two_pow_sub_one 15 i

/-- The byte count or-ed into bits 16 to 30 reads back through `QTD_LEN`:
no other field of a fresh token reaches those bits. -/
theorem qtdLen_qtdTokenInit {pid datax bytes : Nat} (hpid : pid < 4) (hbytes : bytes < 2 ^ 15) :
    qtdLen (qtdTokenInit pid datax ||| (bytes <<< 16)) = bytes := by
  apply Nat.eq_of_testBit_eq
  intro i
  simp only [qtdLen, qtdTokenInit, ehciTransErrors, qtdActive, Nat.testBit_land,
    Nat.testBit_shiftRight, Nat.testBit_lor, Nat.testBit_shiftLeft, testBit_7fff]
  by_cases hi : i < 15
  · have h1 : pid.testBit (16 + i - 8) = false :=
      testBit_eq_false_of_lt (hpid.trans_le (by decide : 4 ≤ 2 ^ 2)) (by omega)
    have h2 : (3 : Nat).testBit (16 + i - 10) = false :=
      testBit_eq_false_of_lt (by decide : 3 < 2 ^ 2) (by omega)
    have h3 : (0x80 : Nat).testBit (16 + i) = false :=
      testBit_eq_false_of_lt (by decide : 0x80 < 2 ^ 8) (by omega)
    simp [h1, h2, h3, hi, show ¬16 + i ≥ 31 by omega, show 16 + i - 16 = i by omega]
  · simp [hi, testBit_eq_false_of_lt hbytes (by omega : 15 ≤ i)]

/-- `QTD_OFFSET` is the offset in the 4 KiB page. -/
theorem qtdOffset_eq (x : Nat) : qtdOffset x = x % ehciPageSize :=
  Nat.and_pow_two_sub_one_eq_mod x 12

/-- Masking with `~0xfff` drops the offset in the page. -/
theorem pageMask_eq (x : Nat) : pageMask x = x - x % ehciPageSize := by
  rw [pageMask, Nat.shiftLeft_eq, Nat.shiftRight_eq_div_pow]
  show x / 4096 * 4096 = x - x % 4096
  omega

/-- A bit of `x & ~mask` is a bit of `x` outside `mask`. -/
@[simp]
theorem testBit_clearBits (x mask i : Nat) :
    (clearBits x mask).testBit i = (x.testBit i && !mask.testBit i) := by
  simp only [clearBits, Nat.testBit_xor, Nat.testBit_land]
  cases x.testBit i <;> cases mask.testBit i <;> rfl

theorem clearBits_and_self (x mask : Nat) : clearBits x mask &&& mask = 0 :=
  Nat.eq_of_testBit_eq fun i => by
    simp only [Nat.testBit_land, testBit_clearBits, Nat.zero_testBit]
    cases mask.testBit i <;> simp

end Ehci
