import Ehci.Cursor

/-! What `ehci_transferEnqueue` writes: the queue-head words it brings up to
date when it reuses a pipe's queue head, and the data toggles of a control
data stage split over several qTDs. -/
namespace Ehci

section Reuse

theorem testBit_qhDt (i : Nat) : qhDt.testBit i = decide (i = 14) := by
  simp only [qhDt, Nat.one_shiftLeft, Nat.testBit_two_pow, eq_comm]

theorem testBit_qhCtrl (i : Nat) : qhCtrl.testBit i = decide (i = 27) := by
  simp only [qhCtrl, Nat.one_shiftLeft, Nat.testBit_two_pow, eq_comm]

theorem testBit_nakReload (i : Nat) :
    ((3 : Nat) <<< 28).testBit i = decide (28 ≤ i ∧ i < 30) := by
  rw [Nat.testBit_shiftLeft, show (3 : Nat) = 2 ^ 2 - 1 from rfl, Nat.testBit_two_pow_sub_one,
    ← Bool.decide_and]
  exact decide_eq_decide.mpr (by omega)

/-- The bits of the `info[0]` word `ehci_qhConf` builds, field by field. -/
theorem qhInfo0_testBit (p : Pipe) (i : Nat) : (qhInfo0 p).testBit i =
    (p.address.testBit i || (decide (8 ≤ i) && p.num.testBit (i - 8)) ||
      (decide (12 ≤ i) && p.speed.testBit (i - 12)) ||
      (decide (p.type = .control) && decide (i = 14)) ||
      (decide (16 ≤ i) && p.maxPacketLen.testBit (i - 16)) ||
      (decide (p.type = .control ∧ p.speed ≠ usbHighSpeed) && decide (i = 27)) ||
      decide (28 ≤ i ∧ i < 30)) := by
  unfold qhInfo0
  simp only [Nat.testBit_lor, testBit_nakReload, -Nat.reduceShiftLeft]
  split_ifs <;>
    simp_all [Nat.testBit_lor, Nat.testBit_shiftLeft, testBit_qhDt, testBit_qhCtrl, Bool.or_assoc]

section Fields

variable {p : Pipe} {i : Nat}

/-- Below bit 7 the word holds the device address alone. -/
theorem qhInfo0_testBit_address (hi : i < 7) : (qhInfo0 p).testBit i = p.address.testBit i := by
  rw [qhInfo0_testBit]
  simp [show ¬8 ≤ i by omega, show ¬12 ≤ i by omega, show i ≠ 14 by omega, show ¬16 ≤ i by omega,
    show i ≠ 27 by omega, show ¬(28 ≤ i ∧ i < 30) by omega]

/-- From bit 16 to bit 26 the word holds the packet size alone. -/
theorem qhInfo0_testBit_packlen (ha : p.address < 128) (hn : p.num < 16) (hs : p.speed < 4)
    (hi : 16 ≤ i) (hi' : i < 27) :
    (qhInfo0 p).testBit i = p.maxPacketLen.testBit (i - 16) := by
  rw [qhInfo0_testBit, testBit_eq_false_of_lt (k := 7) ha (by omega),
    testBit_eq_false_of_lt (k := 4) hn (by omega), testBit_eq_false_of_lt (k := 2) hs (by omega)]
  simp [hi, show i ≠ 14 by omega, show i ≠ 27 by omega, show ¬(28 ≤ i ∧ i < 30) by omega]

/-- Outside the two fields the address and packet size leave no bit. -/
theorem qhInfo0_testBit_other (ha : p.address < 128) (hm : p.maxPacketLen < 2048) (hi : 7 ≤ i) (hOut : i < 16 ∨ 27 ≤ i) :
    (qhInfo0 p).testBit i = ((decide (8 ≤ i) && p.num.testBit (i - 8)) ||
      (decide (12 ≤ i) && p.speed.testBit (i - 12)) ||
      (decide (p.type = .control) && decide (i = 14)) ||
      (decide (p.type = .control ∧ p.speed ≠ usbHighSpeed) && decide (i = 27)) ||
      decide (28 ≤ i ∧ i < 30)) := by
  have hm' : (decide (16 ≤ i) && p.maxPacketLen.testBit (i - 16)) = false := by
    rcases hOut with h | h
    · simp [show ¬16 ≤ i by omega]
    · simp [testBit_eq_false_of_lt (i := i - 16) (k := 11) hm (by omega)]
  rw [qhInfo0_testBit, testBit_eq_false_of_lt (k := 7) ha hi, hm']
  simp only [Bool.false_or, Bool.or_false]

/-- `QH_DEVADDR` reads back the device address. -/
theorem qhDevaddr_qhInfo0 (ha : p.address < 128) : qhDevaddr (qhInfo0 p) = p.address :=
  Nat.eq_of_testBit_eq fun i => by
    rw [qhDevaddr, Nat.testBit_land, show (0x7f : Nat) = 2 ^ 7 - 1 from rfl,
      Nat.testBit_two_pow_sub_one]
    by_cases hi : i < 7
    · simp [hi, qhInfo0_testBit_address hi]
    · simp [hi, testBit_eq_false_of_lt (i := i) (k := 7) ha (by omega)]

/-- `QH_PACKLEN` reads back the packet size. -/
theorem qhPacklen_qhInfo0 (ha : p.address < 128) (hn : p.num < 16) (hs : p.speed < 4)
    (hm : p.maxPacketLen < 2048) : qhPacklen (qhInfo0 p) = p.maxPacketLen :=
  Nat.eq_of_testBit_eq fun j => by
    rw [qhPacklen, Nat.testBit_land, Nat.testBit_shiftRight,
      show (0x7ff : Nat) = 2 ^ 11 - 1 from rfl, Nat.testBit_two_pow_sub_one]
    by_cases hj : j < 11
    · rw [qhInfo0_testBit_packlen ha hn hs (by omega) (by omega)]
      simp [hj]
    · simp [hj, testBit_eq_false_of_lt (i := j) (k := 11) hm (by omega)]

end Fields

/-- The word depends on the pipe only through these five fields. -/
theorem qhInfo0_congr {p p' : Pipe} (ha : p'.address = p.address) (hn : p'.num = p.num)
    (hs : p'.speed = p.speed) (ht : p'.type = p.type) (hm : p'.maxPacketLen = p.maxPacketLen) :
    qhInfo0 p' = qhInfo0 p := by
  simp only [qhInfo0, ha, hn, hs, ht, hm]

/-- The mask of the two fields the reuse path rewrites. -/
theorem testBit_reuseMask (i : Nat) :
    ((0x7f : Nat) ||| (0x7ff <<< 16)).testBit i = decide (i < 7 ∨ 16 ≤ i ∧ i < 27) := by
  rw [Nat.testBit_lor, Nat.testBit_shiftLeft, show (0x7f : Nat) = 2 ^ 7 - 1 from rfl,
    show (0x7ff : Nat) = 2 ^ 11 - 1 from rfl, Nat.testBit_two_pow_sub_one,
    Nat.testBit_two_pow_sub_one, ← Bool.decide_and, ← Bool.decide_or]
  exact decide_eq_decide.mpr (by omega)

/-- No bit of the packet-size field outside bits 16 to 26. -/
theorem testBit_packlenField {x i : Nat} (hx : x < 2048) (hi : ¬(16 ≤ i ∧ i < 27)) :
    (decide (16 ≤ i) && x.testBit (i - 16)) = false := by
  by_cases h : 16 ≤ i
  · simp [testBit_eq_false_of_lt (i := i - 16) (k := 11) hx (by omega)]
  · simp [h]

/-- The address rewrite of the reuse path turns the word built for `p` into the
word built for `p` with the new address. -/
theorem qhInfo0_setAddress {p : Pipe} {a : Nat} (ha : p.address < 128) (ha' : a < 128) :
    clearBits (qhInfo0 p) 0x7f ||| a = qhInfo0 { p with address := a } :=
  Nat.eq_of_testBit_eq fun i => by
    rw [Nat.testBit_lor, testBit_clearBits, show (0x7f : Nat) = 2 ^ 7 - 1 from rfl,
      Nat.testBit_two_pow_sub_one]
    by_cases hi : i < 7
    · simp [hi, qhInfo0_testBit_address hi]
    · rw [qhInfo0_testBit, qhInfo0_testBit,
        testBit_eq_false_of_lt (i := i) (k := 7) ha (by omega),
        testBit_eq_false_of_lt (i := i) (k := 7) ha' (by omega)]
      simp [hi]

/-- The packet-size rewrite of the reuse path turns the word built for `p` into
the word built for `p` with the new packet size. -/
theorem qhInfo0_setPacklen {p : Pipe} {m : Nat} (ha : p.address < 128) (hn : p.num < 16)
    (hs : p.speed < 4) (hm : p.maxPacketLen < 2048) (hm' : m < 2048) :
    clearBits (qhInfo0 p) (0x7ff <<< 16) ||| (m <<< 16) = qhInfo0 { p with maxPacketLen := m } :=
  Nat.eq_of_testBit_eq fun i => by
    rw [Nat.testBit_lor, testBit_clearBits, Nat.testBit_shiftLeft, Nat.testBit_shiftLeft,
      show (0x7ff : Nat) = 2 ^ 11 - 1 from rfl, Nat.testBit_two_pow_sub_one]
    by_cases hi : 16 ≤ i ∧ i < 27
    · rw [qhInfo0_testBit_packlen (p := { p with maxPacketLen := m }) ha hn hs hi.1 hi.2]
      simp [hi.1, show i - 16 < 11 by omega]
    · have hOut : (decide (i ≥ 16) && decide (i - 16 < 11)) = false := by
        rw [← Bool.decide_and]; exact decide_eq_false (by omega)
      rw [qhInfo0_testBit, qhInfo0_testBit, testBit_packlenField hm hi, testBit_packlenField hm' hi,
        hOut]
      simp

/-- The `info[0]` word `ehci_qhConf` builds has the H bit clear. -/
theorem qhInfo0_and_qhHead {p : Pipe} (ha : p.address < 128) (hn : p.num < 16) (hs : p.speed < 4) :
    qhInfo0 p &&& qhHead = 0 :=
  Nat.eq_of_testBit_eq fun i => by
    rw [Nat.testBit_land, qhHead, Nat.one_shiftLeft, Nat.testBit_two_pow, Nat.zero_testBit]
    by_cases hi : i = 15
    · subst hi
      rw [qhInfo0_testBit, testBit_eq_false_of_lt (i := 15) (k := 7) ha (by omega),
        testBit_eq_false_of_lt (i := 7) (k := 4) hn (by omega),
        testBit_eq_false_of_lt (i := 3) (k := 2) hs (by omega)]
      simp
    · simp [Ne.symm hi]

/-- Two pipes that differ at most in address and packet size get words that
differ at most in those two fields. -/
theorem clearBits_qhInfo0_reuseMask {p p' : Pipe} (hn : p'.num = p.num) (hs : p'.speed = p.speed)
    (ht : p'.type = p.type) (ha : p.address < 128) (hm : p.maxPacketLen < 2048)
    (ha' : p'.address < 128) (hm' : p'.maxPacketLen < 2048) :
    clearBits (qhInfo0 p') (0x7f ||| 0x7ff <<< 16) = clearBits (qhInfo0 p) (0x7f ||| 0x7ff <<< 16) :=
  Nat.eq_of_testBit_eq fun i => by
    rw [testBit_clearBits, testBit_clearBits, testBit_reuseMask]
    by_cases hi : i < 7 ∨ 16 ≤ i ∧ i < 27
    · simp [hi]
    · rw [qhInfo0_testBit_other ha' hm' (by omega) (by omega),
        qhInfo0_testBit_other ha hm (by omega) (by omega), hn, hs, ht]

/-- On reuse, `ehci_transferEnqueue` brings the address and packet-size fields
of `info[0]` up to date: from the word `ehci_qhConf` wrote for the pipe as it
was configured, it reaches the word `ehci_qhConf` would write for the pipe as
it is now, when only those two fields of the pipe have changed. The H bit
stays clear and no bit outside the two fields moves. -/
theorem pipeQh_reuse_info0 {cfg : Config} {s : Hcd} {tr : Transfer} {pipe qh : Nat} {p : Pipe}
    (hHeld : (s.pipes pipe).hcdpriv = some qh) (hConf : (s.qhs qh).hw.info0 = qhInfo0 p)
    (hNum : (s.pipes pipe).num = p.num) (hSpeed : (s.pipes pipe).speed = p.speed)
    (hType : (s.pipes pipe).type = p.type) (ha : p.address < 128) (hn : p.num < 16)
    (hs : p.speed < 4) (hm : p.maxPacketLen < 2048) (ha' : (s.pipes pipe).address < 128)
    (hm' : (s.pipes pipe).maxPacketLen < 2048) :
    ∃ s', pipeQh cfg s tr pipe = some (s', qh) ∧
      (s'.qhs qh).hw.info0 = qhInfo0 (s.pipes pipe) ∧
      (s'.qhs qh).hw.info0 &&& qhHead = 0 ∧
      clearBits (s'.qhs qh).hw.info0 (0x7f ||| 0x7ff <<< 16) =
        clearBits (s.qhs qh).hw.info0 (0x7f ||| 0x7ff <<< 16) := by
  have hFinal : ∀ w, w = qhInfo0 (s.pipes pipe) → w = qhInfo0 (s.pipes pipe) ∧
      w &&& qhHead = 0 ∧ clearBits w (0x7f ||| 0x7ff <<< 16) =
        clearBits (s.qhs qh).hw.info0 (0x7f ||| 0x7ff <<< 16) := by
    rintro w rfl
    refine ⟨rfl, qhInfo0_and_qhHead ha' (hNum ▸ hn) (hSpeed ▸ hs), ?_⟩
    rw [hConf]
    exact clearBits_qhInfo0_reuseMask hNum hSpeed hType ha hm ha' hm'
  have hAddr := qhDevaddr_qhInfo0 ha
  have hLen := qhPacklen_qhInfo0 ha hn hs hm
  have hLen' := @qhPacklen_qhInfo0 { p with address := (s.pipes pipe).address } ha' hn hs hm
  simp only [pipeQh, hHeld]
  split_ifs with h1 h2 h2 <;> refine ⟨_, rfl, hFinal _ ?_⟩ <;>
    simp only [Hcd.modifyQh_qhs, Function.update_same, hConf, qhInfo0_setAddress ha ha',
      ne_eq, not_not, hAddr, hLen, hLen', -Nat.reduceShiftLeft] at h1 h2 ⊢
  · rw [@qhInfo0_setPacklen { p with address := (s.pipes pipe).address } _ ha' hn hs hm hm']
    exact qhInfo0_congr rfl hNum.symm hSpeed.symm hType.symm rfl
  · exact qhInfo0_congr rfl hNum.symm hSpeed.symm hType.symm h2
  · rw [qhInfo0_setPacklen ha hn hs hm hm']
    exact qhInfo0_congr h1 hNum.symm hSpeed.symm hType.symm rfl
  · exact qhInfo0_congr h1 hNum.symm hSpeed.symm hType.symm h2

/-- The default control pipe of a device still at address 0 with 8-byte
packets, after its first read was submitted, and after enumeration gave it
address 1 and 64-byte packets. -/
def readdressedControl : Hcd :=
  let s := (transferEnqueue sampleConfig id (ehciInit (fun _ => controlIn 0x1000 8)
    (fun _ => { controlPipe with address := 0, maxPacketLen := 8 }) 8) 0 0).1
  { s with pipes := fun _ => { controlPipe with hcdpriv := some 1 } }

theorem pipeQh_reuse_info0_after_enumeration :
    ∃ s', pipeQh sampleConfig readdressedControl (controlIn 0x1000 18) 0 = some (s', 1) ∧
      (s'.qhs 1).hw.info0 = qhInfo0 (readdressedControl.pipes 0) ∧
      (s'.qhs 1).hw.info0 &&& qhHead = 0 ∧
      clearBits (s'.qhs 1).hw.info0 (0x7f ||| 0x7ff <<< 16) =
        clearBits (readdressedControl.qhs 1).hw.info0 (0x7f ||| 0x7ff <<< 16) :=
  pipeQh_reuse_info0 (p := { controlPipe with address := 0, maxPacketLen := 8 }) rfl (by decide)
    rfl rfl rfl (by decide) (by decide) (by decide) (by decide) (by decide) (by decide)

end Reuse

/-- A control read of 20481 bytes into a page-aligned buffer on a pipe with
64-byte packets: `ehci_qtdAdd` splits the data stage into 20480 bytes and 1
byte and flips the toggle between them, although 20480 bytes are an even
number (320) of packets. With DTC set the controller expects DATA1 for the
second data qTD, and the driver writes DATA0. -/
theorem control_data_toggle_ignores_packet_count :
    ∃ s, TransferRun sampleConfig id s (Function.update (fun _ => 0) 0 0) ∧
      (s.trs 0).hcdpriv = [0, 1, 2, 3] ∧ (s.qhs 1).hw.info0 &&& qhDt ≠ 0 ∧
      qtdLen (s.qtds 1).hw.token = 20480 ∧ qtdLen (s.qtds 2).hw.token = 1 ∧
      (s.qtds 1).hw.token >>> 31 = 1 ∧ (s.qtds 2).hw.token >>> 31 = 0 ∧
      1 ^^^ (qtdLen (s.qtds 1).hw.token / 64 % 2) = 1 :=
  ⟨_, .enqueue 0 0 (.init (fun _ => controlIn 0x1000 20481) (fun _ => controlPipe) 8 fun _ => rfl)
    (List.not_mem_nil 0), by decide⟩

end Ehci
