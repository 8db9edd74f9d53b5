import Ehci.Enqueue

/-! The qTDs of a submission: the stages `ehci_transferEnqueue` builds, the
ring it links and queues behind the pipe's queue head, and what a stage that
runs out of descriptors leaves behind. The stages are stated as the spec
lists them, next to the loop of `ehci_qtdAdd` that builds them. -/
namespace Ehci

/-- The PID of a transfer's data stage, from its direction. -/
def dataPid (tr : Transfer) : Nat := if tr.direction = .dirIn then inToken else outToken

/-- The PID of a control transfer's status stage: the other direction. -/
def statusPid (tr : Transfer) : Nat := if tr.direction = .dirIn then outToken else inToken

/-- A qTD block filled from no buffer: the token with PID `pid` and data
toggle `datax`, no byte to move, and no link. -/
structure QtdBlank (pid datax : Nat) (hw : QtdHw) : Prop where
  token : hw.token = qtdTokenInit pid datax
  next : hw.next = qtdPtrInvalid
  altnext : hw.altnext = qtdPtrInvalid

/-- The blocks of one stage for `size` bytes of `buf`, the first with data
toggle `dt`: qTDs covering the buffer in order; with no buffer nothing can be
placed, so a stage from none is one blank qTD for no bytes. -/
def StageQtds (va2pa : Nat → Nat) (pid maxpacksz : Nat) :
    Option Nat → (size dt : Nat) → List QtdHw → Prop
  | some addr, size, dt, hws => QtdsCover va2pa pid maxpacksz addr size dt hws
  | none, size, dt, hws => size = 0 ∧ ∃ hw, hws = [hw] ∧ QtdBlank pid dt hw

/-- The blocks of a submission of `tr`, in order: for a control transfer an
8-byte SETUP qTD from `tr.setup` with toggle 0, the data qTDs when
`tr.size > 0`, and an empty status qTD of the other PID with toggle 1; for a
bulk or interrupt transfer its data qTDs alone; for an isochronous one none. -/
def Stages (va2pa : Nat → Nat) (tr : Transfer) (maxpacksz : Nat) (hws : List QtdHw) : Prop :=
  match tr.type with
  | .control => ∃ setup data status, hws = setup :: data ++ [status] ∧
      QtdCovers va2pa setupToken 0 tr.setup usbSetupPacketSize setup ∧
      (if 0 < tr.size then StageQtds va2pa (dataPid tr) maxpacksz tr.buffer tr.size 1 data
        else data = []) ∧
      QtdBlank (statusPid tr) 1 status
  | .bulk | .interrupt => StageQtds va2pa (dataPid tr) maxpacksz tr.buffer tr.size 1 hws
  | .isochronous => hws = []

/-- A qTD block without what linking writes: the next pointer and the
interrupt-on-complete bit. -/
def stripLink (hw : QtdHw) : QtdHw :=
  { hw with next := qtdPtrInvalid, token := clearBits hw.token qtdIoc }

/-- A block as `ehci_qtdAlloc` leaves it: unlinked, active, and asking for no
interrupt. -/
structure Unlinked (hw : QtdHw) : Prop where
  next : hw.next = qtdPtrInvalid
  active : hw.token.testBit 7 = true
  noIoc : hw.token.testBit 15 = false

section Blocks

variable {va2pa : Nat → Nat} {pid maxpacksz : Nat} {hw : QtdHw}

/-- `QTD_IOC` is bit 15. -/
theorem testBit_qtdIoc (i : Nat) : qtdIoc.testBit i = decide (i = 15) := by
  simp only [show qtdIoc = 2 ^ 15 from rfl, Nat.testBit_two_pow, eq_comm]

/-- `QTD_ACTIVE` is bit 7. -/
theorem testBit_qtdActive (i : Nat) : qtdActive.testBit i = decide (i = 7) := by
  simp only [show qtdActive = 2 ^ 7 from rfl, Nat.testBit_two_pow, eq_comm]

/-- A token asks for an interrupt exactly when bit 15 is set. -/
theorem and_qtdIoc_ne_zero {x : Nat} : x &&& qtdIoc ≠ 0 ↔ x.testBit 15 = true := by
  rw [show qtdIoc = 2 ^ 15 from rfl, Nat.and_two_pow]
  cases x.testBit 15 <;> simp

/-- A token is active exactly when bit 7 is set. -/
theorem and_qtdActive_ne_zero {x : Nat} : x &&& qtdActive ≠ 0 ↔ x.testBit 7 = true := by
  rw [show qtdActive = 2 ^ 7 from rfl, Nat.and_two_pow]
  cases x.testBit 7 <;> simp

/-- A token `ehci_qtdAlloc` writes is active and asks for no interrupt. -/
theorem qtdTokenInit_bits {datax bytes : Nat} (hpid : pid < 4) :
    (qtdTokenInit pid datax ||| bytes <<< 16).testBit 7 = true ∧
      (qtdTokenInit pid datax ||| bytes <<< 16).testBit 15 = false := by
  have h1 : pid.testBit (15 - 8) = false :=
    testBit_eq_false_of_lt (hpid.trans_le (by decide : 4 ≤ 2 ^ 2)) (by omega)
  have h2 : (3 : Nat).testBit (15 - 10) = false := by decide
  simp only [qtdTokenInit, ehciTransErrors, Nat.testBit_lor, Nat.testBit_shiftLeft,
    testBit_qtdActive]
  simp [h1, h2]

/-- A block with no next pointer and a fresh token is unlinked. -/
theorem Unlinked.of_token {datax bytes : Nat} (hpid : pid < 4) (hn : hw.next = qtdPtrInvalid)
    (ht : hw.token = qtdTokenInit pid datax ||| bytes <<< 16) : Unlinked hw :=
  ⟨hn, ht ▸ (qtdTokenInit_bits hpid).1, ht ▸ (qtdTokenInit_bits hpid).2⟩

/-- A block `ehci_qtdAdd` filled is unlinked. -/
theorem QtdCovers.unlinked {datax addr bytes : Nat} (h : QtdCovers va2pa pid datax addr bytes hw)
    (hpid : pid < 4) : Unlinked hw :=
  .of_token hpid h.next h.token

/-- A block with no buffer is unlinked. -/
theorem QtdBlank.unlinked {datax : Nat} (h : QtdBlank pid datax hw) (hpid : pid < 4) :
    Unlinked hw :=
  @Unlinked.of_token pid hw datax 0 hpid h.next (by rw [h.token, Nat.zero_shiftLeft, Nat.or_zero])

/-- Every block of a split is unlinked. -/
theorem QtdsCover.unlinked (hpid : pid < 4) :
    ∀ {hws : List QtdHw} {addr size dt : Nat}, QtdsCover va2pa pid maxpacksz addr size dt hws →
      ∀ hw ∈ hws, Unlinked hw
  | [], _, _, _, h => h.elim
  | [_], _, _, _, h => fun _ hx => List.mem_singleton.1 hx ▸ QtdCovers.unlinked h hpid
  | _ :: _ :: _, _, _, _, ⟨_, _, _, _, hHead, hRest⟩ => fun _ hx => by
      rcases List.mem_cons.1 hx with rfl | hx
      · exact hHead.unlinked hpid
      · exact unlinked hpid hRest _ hx

/-- Every block of a stage is unlinked. -/
theorem StageQtds.unlinked {buf : Option Nat} {size dt : Nat} {hws : List QtdHw}
    (h : StageQtds va2pa pid maxpacksz buf size dt hws) (hpid : pid < 4) : ∀ hw ∈ hws, Unlinked hw := by
  cases buf with
  | some addr => exact QtdsCover.unlinked hpid h
  | none =>
      obtain ⟨-, hw, rfl, hb⟩ := h
      exact fun _ hx => List.mem_singleton.1 hx ▸ hb.unlinked hpid

/-- The data stage's PID fits the PID field. -/
theorem dataPid_lt (tr : Transfer) : dataPid tr < 4 := by
  unfold dataPid
  split <;> decide

/-- The status stage's PID fits the PID field. -/
theorem statusPid_lt (tr : Transfer) : statusPid tr < 4 := by
  unfold statusPid
  split <;> decide

/-- Every block of the stages is as `ehci_qtdAlloc` left it. -/
theorem Stages.unlinked {tr : Transfer} {hws : List QtdHw} (h : Stages va2pa tr maxpacksz hws) :
    ∀ hw ∈ hws, Unlinked hw := by
  unfold Stages at h
  split at h
  · obtain ⟨setup, data, status, rfl, hSetup, hData, hStatus⟩ := h
    intro hw hx
    simp only [List.cons_append, List.mem_cons, List.mem_append, List.not_mem_nil, or_false] at hx
    rcases hx with rfl | hx | rfl
    · exact hSetup.unlinked (by decide)
    · split at hData
      · exact hData.unlinked (dataPid_lt tr) hw hx
      · exact absurd (hData ▸ hx) (List.not_mem_nil hw)
    · exact hStatus.unlinked (statusPid_lt tr)
  · exact h.unlinked (dataPid_lt tr)
  · exact h.unlinked (dataPid_lt tr)
  · exact fun hw hx => absurd (h ▸ hx) (List.not_mem_nil hw)

/-- Linking's next-pointer write is undone by `stripLink`. -/
@[simp]
theorem stripLink_next (n : Nat) : stripLink { hw with next := n } = stripLink hw := rfl

/-- Linking's IOC write is undone by `stripLink`. -/
theorem stripLink_ioc : stripLink { hw with token := hw.token ||| qtdIoc } = stripLink hw := by
  simp only [stripLink, QtdHw.mk.injEq, and_true, true_and]
  exact Nat.eq_of_testBit_eq fun i => by
    simp only [testBit_clearBits, Nat.testBit_lor]
    cases qtdIoc.testBit i <;> simp

/-- `stripLink` leaves an unlinked block as it is. -/
theorem Unlinked.stripLink_eq (h : Unlinked hw) : stripLink hw = hw := by
  have hToken : clearBits hw.token qtdIoc = hw.token := Nat.eq_of_testBit_eq fun i => by
    rw [testBit_clearBits, testBit_qtdIoc]
    by_cases hi : i = 15
    · subst hi
      simp [h.noIoc]
    · simp [hi]
  cases hw
  simp only [stripLink, ← h.next, hToken]

/-- What linking writes into an unlinked block: `stripLink` undoes it, the
block stays active, and it asks for an interrupt exactly when linking set IOC. -/
theorem Unlinked.link (h : Unlinked hw) (n : Nat) (c : Prop) [Decidable c] :
    stripLink { hw with next := n, token := if c then hw.token ||| qtdIoc else hw.token } = hw ∧
      (if c then hw.token ||| qtdIoc else hw.token) &&& qtdActive ≠ 0 ∧
      ((if c then hw.token ||| qtdIoc else hw.token) &&& qtdIoc ≠ 0 ↔ c) := by
  rw [and_qtdActive_ne_zero, and_qtdIoc_ne_zero]
  by_cases hc : c
  · simp only [if_pos hc, Nat.testBit_lor, testBit_qtdIoc, h.active, h.noIoc]
    exact ⟨stripLink_ioc.trans h.stripLink_eq, by decide, by simp [hc]⟩
  · simp only [if_neg hc, h.active, h.noIoc]
    exact ⟨h.stripLink_eq, trivial, by simp [hc]⟩

end Blocks

section Stage

variable {cfg : Config} {va2pa : Nat → Nat} {token maxpacksz : Nat} {buf : Option Nat}
  {size dt : Nat} {s₀ s : Hcd} {held list : List Nat}

/-- `-ENOMEM` is an error code. -/
theorem neg_eNomem_lt_zero : -eNomem < 0 := by decide

/-- A record held, elsewhere or by the list under construction, is out of
the pool and below the allocator's count. -/
theorem Built.out (hb : Built cfg s₀ held s list) {q : Nat} (hq : q ∈ held ++ list) :
    q ∉ s.qtdPool ∧ q < s.qtdCount := by
  have hLe := hb.holds.count_le q
  have hPos := List.count_pos_iff.2 hq
  simp only [Hcd.qtdOwners] at hLe
  refine ⟨fun hp => ?_, (hb.holds.live (by omega)).1⟩
  have := List.count_pos_iff.2 hp
  omega

/-- The records of a list under construction are out of the pool, and the
pool is well formed. -/
theorem Built.taken (hb : Built cfg s₀ held s list) :
    QtdPoolOk s ∧ ∀ q ∈ list, q ∉ s.qtdPool ∧ q < s.qtdCount :=
  ⟨hb.holds.poolOk, fun _ hq => hb.out (List.mem_append_right held hq)⟩

/-- A list under construction holds each record once. -/
theorem Built.nodup (hb : Built cfg s₀ held s list) : list.Nodup :=
  List.nodup_iff_count_le_one.2 fun q => by
    have := hb.holds.count_le q
    rw [List.count_append] at this
    omega

/-- The loop of `ehci_qtdAdd` ends in success or in `-ENOMEM`. -/
theorem qtdAddLoop_status (supply : Nat) (s : Hcd) (list : List Nat) (remaining dt : Nat) :
    (qtdAddLoop va2pa token maxpacksz buf size supply s list remaining dt).2.2 = 0 ∨
      (qtdAddLoop va2pa token maxpacksz buf size supply s list remaining dt).2.2 = -eNomem := by
  induction supply generalizing s list remaining dt with
  | zero => exact .inr rfl
  | succ supply ih =>
      rcases h : qtdAlloc va2pa s token maxpacksz (buf.map (· + (size - remaining))) remaining dt
        with _ | ⟨s', q, remaining'⟩
      · rw [qtdAddLoop_of_none h]
        exact .inr rfl
      · by_cases hMore : 0 < remaining'
        · rw [qtdAddLoop_of_more h hMore]
          exact ih _ _ _ _
        · rw [qtdAddLoop_of_done h hMore]
          exact .inl rfl

/-- From no buffer the loop succeeds only with nothing left to place, after
one blank qTD. -/
theorem qtdAddLoop_blank {supply remaining : Nat} (hOk : QtdPoolOk s)
    (h : ¬(qtdAddLoop va2pa token maxpacksz none size supply s list remaining dt).2.2 < 0) :
    remaining = 0 ∧ ∃ q,
      (qtdAddLoop va2pa token maxpacksz none size supply s list remaining dt).2.1 = list ++ [q] ∧
      QtdBlank token dt ((qtdAddLoop va2pa token maxpacksz none size supply s list remaining dt).1.qtds q).hw := by
  induction supply generalizing s list remaining dt with
  | zero => exact absurd neg_eNomem_lt_zero h
  | succ supply ih =>
      rcases hA : qtdAlloc va2pa s token maxpacksz ((none : Option Nat).map (· + (size - remaining)))
        remaining dt with _ | ⟨s', q, remaining'⟩
      · rw [qtdAddLoop_of_none hA] at h
        exact absurd neg_eNomem_lt_zero h
      obtain ⟨hOk', -, -, -, old, hHw, hRest⟩ := qtdAlloc_spec hOk hA
      simp only [Option.map_none', qtdFill, Nat.sub_zero] at hHw hRest
      subst hRest
      by_cases hMore : 0 < remaining'
      · rw [qtdAddLoop_of_more hA hMore] at h
        exact absurd (ih hOk' h).1 (Nat.pos_iff_ne_zero.1 hMore)
      · rw [qtdAddLoop_of_done hA hMore]
        exact ⟨by omega, q, rfl, ⟨by rw [hHw], by rw [hHw], by rw [hHw]⟩⟩

/-- A stage of `ehci_qtdAdd` that succeeds appends the blocks of
`StageQtds` and writes no record of the list it extends. -/
theorem qtdAdd_appends (hVa : ∀ x, va2pa x % ehciPageSize = x % ehciPageSize)
    (hm : 0 < maxpacksz) (hmPage : maxpacksz ≤ ehciPageSize) (hb : Built cfg s₀ held s list)
    (h : ¬(qtdAdd va2pa s list token maxpacksz buf size dt).2.2 < 0) :
    ∃ new, (qtdAdd va2pa s list token maxpacksz buf size dt).2.1 = list ++ new ∧
      StageQtds va2pa token maxpacksz buf size dt
        (new.map fun q => ((qtdAdd va2pa s list token maxpacksz buf size dt).1.qtds q).hw) ∧
      ∀ q ∈ list, (qtdAdd va2pa s list token maxpacksz buf size dt).1.qtds q = s.qtds q := by
  obtain ⟨hOk, hTaken⟩ := hb.taken
  have hFrame : ∀ q ∈ list, (qtdAdd va2pa s list token maxpacksz buf size dt).1.qtds q = s.qtds q :=
    fun q hq => qtdAddLoop_frame hOk q (hTaken q hq).1 (hTaken q hq).2
  cases buf with
  | some addr =>
      have hSpec := @qtdAddLoop_spec va2pa token maxpacksz size s list size dt hVa hm hmPage _
        addr hOk rfl (Nat.le_refl size)
      rw [Nat.sub_self, Nat.add_zero] at hSpec
      obtain ⟨new, hList, hCover⟩ := hSpec.2 ((qtdAddLoop_status _ _ _ _ _).resolve_right
        fun e => h (by rw [qtdAdd, e]; decide))
      exact ⟨new, hList, hCover, hFrame⟩
  | none =>
      obtain ⟨rfl, q, hList, hBlank⟩ := qtdAddLoop_blank hOk h
      exact ⟨[q], hList, ⟨rfl, _, rfl, hBlank⟩, hFrame⟩

/-- The SETUP stage: a buffer that ends within four pages of its start's
page gets exactly one qTD. -/
theorem qtdAdd_single {addr : Nat} (hVa : ∀ x, va2pa x % ehciPageSize = x % ehciPageSize)
    (hm : 0 < maxpacksz) (hmPage : maxpacksz ≤ ehciPageSize) (hOk : QtdPoolOk s)
    (hFit : addr % ehciPageSize + size ≤ (ehciQhNbufs - 1) * ehciPageSize)
    (h : ¬(qtdAdd va2pa s list token maxpacksz (some addr) size dt).2.2 < 0) :
    ∃ q, (qtdAdd va2pa s list token maxpacksz (some addr) size dt).2.1 = list ++ [q] ∧
      QtdCovers va2pa token dt addr size
        ((qtdAdd va2pa s list token maxpacksz (some addr) size dt).1.qtds q).hw := by
  unfold qtdAdd at h ⊢
  generalize s.qtdPool.length + s.memory = supply at h ⊢
  cases supply with
  | zero => exact absurd neg_eNomem_lt_zero h
  | succ supply =>
      rcases hA : qtdAlloc va2pa s token maxpacksz ((some addr).map (· + (size - size))) size dt
        with _ | ⟨s', q, rest⟩
      · rw [qtdAddLoop_of_none hA] at h
        exact absurd neg_eNomem_lt_zero h
      have hA' := hA
      rw [Option.map_some', Nat.sub_self, Nat.add_zero] at hA'
      obtain ⟨-, -, -, -, old, hHw, hRest⟩ := qtdAlloc_spec hOk hA'
      have hAll := @qtdFill_takes_all va2pa hVa maxpacksz old token dt addr size hFit
      rw [hAll, Nat.sub_self] at hRest
      subst hRest
      rw [qtdAddLoop_of_done hA (Nat.lt_irrefl 0)]
      have hCov := (qtdFill_spec hVa hm hmPage old token dt addr size).1
      rw [hAll] at hCov
      exact ⟨q, rfl, hHw ▸ hCov⟩

/-- A stage that runs when `c` holds appends the blocks `StageQtds` names
and leaves the blocks built before it; a stage that does not run appends
nothing. -/
theorem stage_appends {c : Prop} [Decidable c] {r : Hcd × List Nat × Int}
    (hVa : ∀ x, va2pa x % ehciPageSize = x % ehciPageSize) (hm : 0 < maxpacksz)
    (hmPage : maxpacksz ≤ ehciPageSize)
    (h : ¬(if c then qtdAdd va2pa r.1 r.2.1 token maxpacksz buf size dt else r).2.2 < 0)
    (hb : Built cfg s₀ held r.1 r.2.1) :
    ∃ new, (if c then qtdAdd va2pa r.1 r.2.1 token maxpacksz buf size dt else r).2.1 = r.2.1 ++ new ∧
      (if c then StageQtds va2pa token maxpacksz buf size dt (new.map fun q =>
          ((if c then qtdAdd va2pa r.1 r.2.1 token maxpacksz buf size dt else r).1.qtds q).hw)
        else new = []) ∧
      ∀ q ∈ r.2.1,
        (if c then qtdAdd va2pa r.1 r.2.1 token maxpacksz buf size dt else r).1.qtds q = r.1.qtds q := by
  by_cases hc : c
  · simp only [hc, if_true] at h ⊢
    exact qtdAdd_appends hVa hm hmPage hb h
  · refine ⟨[], ?_, ?_, fun _ _ => ?_⟩ <;> simp [hc]

/-- The SETUP stage, when it runs, builds one qTD over the 8-byte packet. -/
theorem setup_stage {c : Prop} [Decidable c] {addr : Nat}
    (hVa : ∀ x, va2pa x % ehciPageSize = x % ehciPageSize) (hm : 0 < maxpacksz)
    (hmPage : maxpacksz ≤ ehciPageSize) (hOk : QtdPoolOk s)
    (h : ¬(if c then qtdAdd va2pa s [] setupToken maxpacksz (some addr) usbSetupPacketSize 0
      else (s, [], 0)).2.2 < 0) (hc : c) :
    ∃ q, (if c then qtdAdd va2pa s [] setupToken maxpacksz (some addr) usbSetupPacketSize 0
        else (s, [], 0)).2.1 = [q] ∧
      QtdCovers va2pa setupToken 0 addr usbSetupPacketSize
        ((if c then qtdAdd va2pa s [] setupToken maxpacksz (some addr) usbSetupPacketSize 0
          else (s, [], 0)).1.qtds q).hw := by
  simp only [hc, if_true] at h ⊢
  have hOff := Nat.mod_lt addr (show 0 < ehciPageSize by decide)
  exact qtdAdd_single hVa hm hmPage hOk
    (by simp only [ehciPageSize, ehciQhNbufs, usbSetupPacketSize] at hOff ⊢; omega) h

/-- A stage's failure path ends the call with `-ENOMEM`. -/
theorem stage_ok {t : Nat} {r k : Hcd × List Nat × Int}
    (h : ¬(if r.2.2 < 0 then stageFail cfg r.1 t r.2.1 else k).2.2 < 0) : ¬r.2.2 < 0 ∧ ¬k.2.2 < 0 := by
  split at h
  · exact absurd neg_eNomem_lt_zero h
  · exact ⟨‹_›, h⟩

/-- What the stages keep of the state `s₀` they start from: the blocks of the
records held elsewhere, and the allocator's count as a floor. -/
def Kept (s₀ : Hcd) (held : List Nat) (s : Hcd) : Prop :=
  (∀ x ∈ held, (s.qtds x).hw = (s₀.qtds x).hw) ∧ s₀.qtdCount ≤ s.qtdCount

/-- A stage that may run keeps what the stages keep. -/
theorem Kept.ite {c : Prop} [Decidable c] {r : Hcd × List Nat × Int} (hb : Built cfg s₀ held r.1 r.2.1)
    (hk : Kept s₀ held r.1) :
    Kept s₀ held (if c then qtdAdd va2pa r.1 r.2.1 token maxpacksz buf size dt else r).1 := by
  split
  · refine ⟨fun x hx => ?_, hk.2.trans qtdAddLoop_count_le⟩
    obtain ⟨hp, hc⟩ := hb.out (List.mem_append_left _ hx)
    exact (congrArg Qtd.hw (qtdAddLoop_frame hb.taken.1 x hp hc)).trans (hk.1 x hx)
  · exact hk

/-- The failure path pools the list, which moves no block and no count. -/
theorem Kept.fail (hk : Kept s₀ held s) (t : Nat) (list : List Nat) :
    Kept s₀ held (stageFail cfg s t list).1 := by
  obtain ⟨qtds, pool, n, hPut⟩ := @qtdsPut_eq cfg s list
  refine ⟨fun x hx => ?_, ?_⟩
  · simp only [stageFail, Hcd.modifyTr_qtds, qtdsPut_qtds_hw]
    exact hk.1 x hx
  · simp only [stageFail, Hcd.modifyTr_qtdCount, hPut]
    exact hk.2

/-- A stage that fails pools its list, one that succeeds hands on to the next:
either way what the stages keep is kept. -/
theorem Kept.stage {t : Nat} {r k : Hcd × List Nat × Int} (hr : Kept s₀ held r.1)
    (hk : ¬r.2.2 < 0 → Kept s₀ held k.1) :
    Kept s₀ held (if r.2.2 < 0 then stageFail cfg r.1 t r.2.1 else k).1 := by
  split
  · exact hr.fail t r.2.1
  · exact hk ‹_›

end Stage

section PipeQh

variable {cfg : Config} {s t : Hcd} {q : Nat}

/-- `t` is `s` with queue heads and periodic slots rewritten, nothing else. -/
def Relinked (s t : Hcd) : Prop :=
  ∃ qhs nodes list, t = { s with qhs := qhs, periodicNodes := nodes, periodicList := list }

/-- A state is a relinking of itself. -/
theorem Relinked.refl (s : Hcd) : Relinked s s := ⟨s.qhs, s.periodicNodes, s.periodicList, rfl⟩

/-- A queue-head write is a relinking. -/
theorem Relinked.modifyQh {f : Qh → Qh} (h : Relinked s t) : Relinked s (t.modifyQh q f) := by
  obtain ⟨qhs, nodes, list, rfl⟩ := h
  exact ⟨_, nodes, list, rfl⟩

/-- A branch between relinkings is a relinking. -/
theorem Relinked.ite {c : Prop} [Decidable c] {u : Hcd} (h : Relinked s t) (h' : Relinked s u) :
    Relinked s (if c then t else u) := by
  split
  exacts [h, h']

/-- The slot loop of `ehci_qhLinkPeriodic` relinks. -/
theorem Relinked.fillSlots (h : Relinked s t) (N qh period fuel i : Nat) :
    Relinked s (fillSlots N qh period fuel i t) := by
  obtain ⟨qhs, nodes, list, rfl⟩ := h
  obtain ⟨nodes', list', h'⟩ := fillSlots_eq N qh period fuel i
    { s with qhs := qhs, periodicNodes := nodes, periodicList := list }
  rw [h']
  exact ⟨qhs, nodes', list', rfl⟩

/-- `ehci_qhLinkAsync` relinks. -/
theorem relinked_qhLinkAsync : Relinked s (qhLinkAsync s q) := by
  unfold qhLinkAsync
  dsimp only
  split <;> repeat' first | exact Relinked.refl s | refine Relinked.modifyQh ?_

/-- `ehci_qhLinkPeriodic` relinks. -/
theorem relinked_qhLinkPeriodic (N : Nat) : Relinked s (qhLinkPeriodic N s q) := by
  have hBand : Relinked s (bandAlloc N s q) := by
    unfold bandAlloc
    dsimp only
    split <;> repeat' first | exact Relinked.refl s | refine Relinked.modifyQh ?_
  have hFirst : ∀ {t : Hcd}, Relinked s t → Relinked s (linkFirst N t q) := fun h =>
    h.modifyQh.fillSlots _ _ _ _ _
  have hChain : ∀ {t : Hcd}, Relinked s t → Relinked s (linkChain N t q) := fun h => by
    unfold linkChain
    dsimp only
    split
    · split
      · exact hFirst h
      · unfold linkInside
        exact h.modifyQh.modifyQh.modifyQh.modifyQh
    · exact hFirst h
  unfold qhLinkPeriodic markLast
  exact (hChain hBand.modifyQh).modifyQh.ite (hChain hBand.modifyQh)

/-- `ehci_qhAlloc` touches no qTD and no transfer. -/
theorem qhAlloc_frame {s₁ : Hcd} (h : qhAlloc s = some (s₁, q)) :
    s₁.qtds = s.qtds ∧ s₁.trs = s.trs := by
  obtain ⟨qhs, hEq, -⟩ := qhAlloc_eq h
  rw [hEq]
  exact ⟨rfl, rfl⟩

/-- The queue head `ehci_transferEnqueue` finds or makes: it touches no qTD
and no transfer, and of the pipes only the `hcdpriv` of its own. -/
theorem pipeQh_frame {s₁ : Hcd} {tr : Transfer} {pipe qh : Nat}
    (h : pipeQh cfg s tr pipe = some (s₁, qh)) :
    s₁.qtds = s.qtds ∧ s₁.trs = s.trs ∧ s₁.transfers = s.transfers ∧
      ∀ p, { s₁.pipes p with hcdpriv := (s.pipes p).hcdpriv } = s.pipes p := by
  unfold pipeQh at h
  dsimp only at h
  split at h
  · split at h
    · cases h
    rename_i s₂ q₂ hAlloc
    obtain ⟨rfl, rfl⟩ := Prod.mk.inj (Option.some.inj h)
    obtain ⟨hQtd, hPipes, -⟩ := qhAlloc_cases hAlloc
    obtain ⟨hQtds, hTrs⟩ := qhAlloc_frame hAlloc
    obtain ⟨qhs, nodes, list, hEq⟩ : Relinked ((s₂.modifyQh q₂ fun x =>
        qhConf x (s.pipes pipe)).modifyPipe pipe fun x => { x with hcdpriv := some q₂ }) _ :=
      Relinked.ite (c := tr.type = .bulk ∨ tr.type = .control) relinked_qhLinkAsync
        (relinked_qhLinkPeriodic cfg.periodicSize)
    rw [hEq]
    refine ⟨hQtds, hTrs, congrArg QtdOwners.transfers hQtd, fun p => ?_⟩
    by_cases hp : p = pipe
    · subst hp
      simp [hPipes]
    · simp [Function.update_noteq hp, hPipes]
  · obtain ⟨rfl, rfl⟩ := Prod.mk.inj (Option.some.inj h)
    split_ifs <;> exact ⟨rfl, rfl, rfl, fun _ => rfl⟩

/-- On a pipe that has its queue head, the call changes nothing but that
queue head's `info[0]`. -/
theorem pipeQh_reuse_eq {s₁ : Hcd} {tr : Transfer} {pipe qh : Nat}
    (hSome : (s.pipes pipe).hcdpriv = some qh) (h : pipeQh cfg s tr pipe = some (s₁, qh)) :
    s₁ = s.modifyQh qh fun x => { x with hw := { x.hw with info0 := (s₁.qhs qh).hw.info0 } } := by
  simp only [pipeQh, hSome, Option.some.injEq, Prod.mk.injEq] at h
  obtain ⟨rfl, -⟩ := h
  split_ifs <;> simp [Hcd.modifyQh, Function.update_idem]

end PipeQh

section Stages

variable {cfg : Config} {va2pa : Nat → Nat} {maxpacksz : Nat} {tr : Transfer}

/-- The status stage's PID is the opposite of the data stage's. -/
theorem statusPid_eq : (if dataPid tr = inToken then outToken else inToken) = statusPid tr := by
  unfold dataPid statusPid
  split <;> rfl

/-- The three stages assemble into the blocks the spec lists, whatever each
built, given what each stage appends. -/
theorem stages_of {r1 r2 r3 : Hcd × List Nat × Int}
    (h1 : tr.type = .control → ∃ q, r1.2.1 = [q] ∧
      QtdCovers va2pa setupToken 0 tr.setup usbSetupPacketSize (r1.1.qtds q).hw)
    (h1' : ¬tr.type = .control → r1.2.1 = [])
    (h2 : ∃ new, r2.2.1 = r1.2.1 ++ new ∧
      (if (tr.type = .control ∧ 0 < tr.size) ∨ tr.type = .bulk ∨ tr.type = .interrupt then
        StageQtds va2pa (dataPid tr) maxpacksz tr.buffer tr.size 1 (new.map fun q => (r2.1.qtds q).hw)
        else new = []) ∧
      ∀ q ∈ r1.2.1, r2.1.qtds q = r1.1.qtds q)
    (h3 : ∃ new, r3.2.1 = r2.2.1 ++ new ∧
      (if tr.type = .control then
        StageQtds va2pa (if dataPid tr = inToken then outToken else inToken) maxpacksz none 0 1
          (new.map fun q => (r3.1.qtds q).hw)
        else new = []) ∧
      ∀ q ∈ r2.2.1, r3.1.qtds q = r2.1.qtds q) :
    Stages va2pa tr maxpacksz (r3.2.1.map fun q => (r3.1.qtds q).hw) := by
  obtain ⟨new2, hL2, hS2, hF2⟩ := h2
  obtain ⟨new3, hL3, hS3, hF3⟩ := h3
  -- the data blocks read the same after the status stage
  have hData : new2.map (fun q => (r3.1.qtds q).hw) = new2.map fun q => (r2.1.qtds q).hw :=
    List.map_congr_left fun q hq => by rw [hF3 q (hL2 ▸ List.mem_append_right _ hq)]
  unfold Stages
  split
  · rename_i hT
    obtain ⟨q, hL1, hSetup⟩ := h1 hT
    simp only [hT, true_and, if_true, reduceCtorEq, or_false] at hS2 hS3
    obtain ⟨-, status, hStatus, hBlank⟩ := hS3
    refine ⟨(r3.1.qtds q).hw, new2.map fun q => (r3.1.qtds q).hw, status, ?_, ?_, ?_, ?_⟩
    · rw [hL3, hL2, hL1, List.map_append, hStatus, List.map_append]
      rfl
    · rwa [hF3 q (by rw [hL2, hL1]; exact List.mem_append_left _ (List.mem_singleton_self q)),
        hF2 q (by rw [hL1]; exact List.mem_singleton_self q)]
    · split
      · rw [if_pos ‹_›] at hS2
        rwa [hData]
      · rw [if_neg ‹_›] at hS2
        rw [hS2, List.map_nil]
    · rwa [statusPid_eq] at hBlank
  all_goals
    rename_i hT
    simp only [hT, reduceCtorEq, false_and, false_or, or_false, or_true, if_true, if_false]
      at hS2 hS3
    rw [hL3, hS3, List.append_nil, hL2, h1' (by rw [hT]; decide), List.nil_append]
  · rwa [hData]
  · rwa [hData]
  · rw [hS2, List.map_nil]

/-- What the stages of `ehci_transferEnqueue` build when none runs out of
descriptors: the blocks the spec lists, from records no holder had. -/
theorem transferQtds_ok {s : Hcd} {held : List Nat} {t : Nat} {p : Pipe}
    (hVa : ∀ x, va2pa x % ehciPageSize = x % ehciPageSize) (hm : 0 < p.maxPacketLen)
    (hmPage : p.maxPacketLen ≤ ehciPageSize) (hHeld : QtdsHeld s.qtdOwners held)
    (hB : PoolBound cfg s.qtdOwners) (h : ¬(transferQtds cfg va2pa s t p).2.2 < 0) :
    Stages va2pa (s.trs t) p.maxPacketLen
      ((transferQtds cfg va2pa s t p).2.1.map fun q => ((transferQtds cfg va2pa s t p).1.qtds q).hw) := by
  have h0 : Built cfg s held (s, ([] : List Nat), (0 : Int)).1 (s, ([] : List Nat), (0 : Int)).2.1 :=
    Built.start hHeld hB
  unfold transferQtds at h ⊢
  dsimp only at h ⊢
  obtain ⟨h1, h⟩ := stage_ok h
  rw [if_neg h1]
  obtain ⟨h2, h⟩ := stage_ok h
  rw [if_neg h2]
  obtain ⟨h3, -⟩ := stage_ok h
  rw [if_neg h3]
  exact stages_of (setup_stage hVa hm hmPage hHeld.poolOk h1) (fun hc => by rw [if_neg hc])
    (stage_appends hVa hm hmPage h2 (Built.ite h0))
    (stage_appends hVa hm hmPage h3 (Built.ite (Built.ite h0)))

/-- Whatever the stages end in, they leave the blocks of the records held
elsewhere as they were and never lower the allocator's count. -/
theorem transferQtds_kept {s : Hcd} {held : List Nat} {t : Nat} {p : Pipe}
    (hHeld : QtdsHeld s.qtdOwners held) (hB : PoolBound cfg s.qtdOwners) :
    Kept s held (transferQtds cfg va2pa s t p).1 := by
  have h0 : Built cfg s held (s, ([] : List Nat), (0 : Int)).1 (s, ([] : List Nat), (0 : Int)).2.1 :=
    Built.start hHeld hB
  have k0 : Kept s held (s, ([] : List Nat), (0 : Int)).1 := ⟨fun _ _ => rfl, le_rfl⟩
  unfold transferQtds
  dsimp only
  exact Kept.stage (k0.ite h0) fun _ => Kept.stage ((k0.ite h0).ite (Built.ite h0)) fun _ =>
    Kept.stage (((k0.ite h0).ite (Built.ite h0)).ite (Built.ite (Built.ite h0))) fun _ =>
      ((k0.ite h0).ite (Built.ite h0)).ite (Built.ite (Built.ite h0))

end Stages

section Link

variable {s : Hcd} {qh first last : Nat}

/-- The linking loop writes no qTD off the ring. -/
theorem qtdsLink_frame {x : Nat} : ∀ {s : Hcd} {L : List Nat}, x ∉ L →
    (qtdsLink s qh first L).qtds x = s.qtds x
  | _, [], _ => rfl
  | _, [_], hx => by
      simp [qtdsLink, qtdLink, Function.update_noteq (List.ne_of_not_mem_cons hx)]
  | _, _ :: _ :: _, hx => by
      rw [qtdsLink, qtdsLink_frame (List.not_mem_of_not_mem_cons hx)]
      simp [qtdLink, Function.update_noteq (List.ne_of_not_mem_cons hx)]

/-- The linking loop writes qTDs only. -/
@[simp]
theorem qtdsLink_trs (L : List Nat) : (qtdsLink s qh first L).trs = s.trs := by
  obtain ⟨⟨_, h⟩, -⟩ := qtdsLink_spec qh first s L
  rw [h]

/-- The linking loop leaves the in-flight list. -/
@[simp]
theorem qtdsLink_transfers (L : List Nat) : (qtdsLink s qh first L).transfers = s.transfers := by
  obtain ⟨⟨_, h⟩, -⟩ := qtdsLink_spec qh first s L
  rw [h]

/-- The linking loop leaves the pipes. -/
@[simp]
theorem qtdsLink_pipes (L : List Nat) : (qtdsLink s qh first L).pipes = s.pipes := by
  obtain ⟨⟨_, h⟩, -⟩ := qtdsLink_spec qh first s L
  rw [h]

/-- Along a ring without repeats, each qTD the loop links points at its
successor. -/
theorem qtdsLink_chain : ∀ (s : Hcd) (L : List Nat), L.Nodup →
    L.Chain' fun a b => ((qtdsLink s qh first L).qtds a).hw.next = qtdPtr b
  | _, [], _ => List.chain'_nil
  | _, [_], _ => List.chain'_singleton _
  | _, q :: q' :: rest, hN => by
      rw [qtdsLink]
      refine List.chain'_cons.2 ⟨?_, qtdsLink_chain _ (q' :: rest) hN.of_cons⟩
      rw [qtdsLink_frame (List.nodup_cons.1 hN).1]
      simp [qtdLink]

/-- Of a qTD's block the linking loop writes only the next pointer. -/
theorem qtdsLink_hw (x : Nat) : ∀ (s : Hcd) (L : List Nat),
    ∃ n, ((qtdsLink s qh first L).qtds x).hw = { (s.qtds x).hw with next := n }
  | _, [] => ⟨_, rfl⟩
  | s, [q] => by
      by_cases hx : x = q
      · subst hx
        exact ⟨qtdPtr first, by simp [qtdsLink, qtdLink]⟩
      · exact ⟨(s.qtds x).hw.next, by simp [qtdsLink, qtdLink, Function.update_noteq hx]⟩
  | s, q :: q' :: rest => by
      obtain ⟨n, hn⟩ := qtdsLink_hw x _ (q' :: rest)
      rw [qtdsLink, hn]
      by_cases hx : x = q
      · subst hx
        exact ⟨n, by simp [qtdLink]⟩
      · exact ⟨n, by simp [qtdLink, Function.update_noteq hx]⟩

/-- `ehci_enqueue` leaves the transfers. -/
@[simp]
theorem enqueue_trs : (enqueue s qh first last).trs = s.trs := by
  unfold enqueue
  dsimp only
  split <;> rfl

/-- `ehci_enqueue` leaves the in-flight list. -/
@[simp]
theorem enqueue_transfers : (enqueue s qh first last).transfers = s.transfers := by
  unfold enqueue
  dsimp only
  split <;> rfl

/-- `ehci_enqueue` leaves the pipes. -/
@[simp]
theorem enqueue_pipes : (enqueue s qh first last).pipes = s.pipes := by
  unfold enqueue
  dsimp only
  split <;> rfl

/-- `ehci_enqueue` leaves every qTD's queue head. -/
@[simp]
theorem enqueue_qh (x : Nat) : ((enqueue s qh first last).qtds x).qh = (s.qtds x).qh :=
  congrArg (fun o => o.2.qtdQh x) (owners_enqueue first last)

/-- `ehci_enqueue` writes into a qTD other than the queue head's old tail
only when it is the new last one: no next pointer, and IOC. -/
theorem enqueue_hw {x : Nat} (hx : (s.qhs qh).lastQtd ≠ some x) :
    ((enqueue s qh first last).qtds x).hw =
      { (s.qtds x).hw with
        next := if x = last then qtdPtrInvalid else (s.qtds x).hw.next
        token := if x = last then (s.qtds x).hw.token ||| qtdIoc else (s.qtds x).hw.token } := by
  unfold enqueue
  dsimp only
  split
  · by_cases h : x = last
    · subst h
      simp
    · simp [Function.update_noteq h, h]
  · rename_i l hl
    simp only [Hcd.modifyQtd_qhs] at hl
    simp only [Hcd.modifyQh_qtds, Hcd.modifyQtd_qtds]
    rw [Function.update_noteq fun e : x = l => hx (e ▸ hl)]
    by_cases h : x = last
    · subst h
      simp
    · simp [Function.update_noteq h, h]

/-- A chain along a list without repeats survives a change of relation at
every element but the last. -/
theorem chain_of_ne_getLast {R R' : Nat → Nat → Prop} :
    ∀ {L : List Nat} (hL : L ≠ []), L.Nodup → L.Chain' R →
      (∀ a ∈ L, ∀ b, a ≠ L.getLast hL → R a b → R' a b) → L.Chain' R'
  | [], hL, _, _, _ => absurd rfl hL
  | [_], _, _, _, _ => List.chain'_singleton _
  | a :: b :: rest, hL, hN, hC, hR => by
      rw [List.chain'_cons] at hC ⊢
      have hLast : (a :: b :: rest).getLast hL = (b :: rest).getLast (List.cons_ne_nil b rest) :=
        List.getLast_cons _
      refine ⟨hR a (List.mem_cons_self _ _) b (fun e => (List.nodup_cons.1 hN).1 ?_) hC.1,
        chain_of_ne_getLast _ hN.of_cons hC.2 fun x hx y hxl =>
          hR x (List.mem_cons_of_mem a hx) y (by rwa [hLast])⟩
      rw [e, hLast]
      exact List.getLast_mem _

/-- The ring `ehci_transferEnqueue` queues, from unlinked blocks and behind a
queue head whose tail lies off the ring: each block keeps what the stages
wrote, stays active, and asks for an interrupt exactly at the last qTD; each
qTD points at its successor, the last at nothing. -/
theorem queued_ring {S s' : Hcd} {L X : List Nat} (hL : L ≠ []) (hN : L.Nodup)
    (hU : ∀ q ∈ L, Unlinked (S.qtds q).hw) (hCur : ∀ l, (S.qhs qh).lastQtd = some l → l ∉ L)
    (hs' : s' = enqueue { qtdsLink S qh first L with transfers := X } qh first (L.getLast hL)) :
    (∀ q ∈ L, stripLink (s'.qtds q).hw = (S.qtds q).hw ∧ (s'.qtds q).hw.token &&& qtdActive ≠ 0 ∧
        ((s'.qtds q).hw.token &&& qtdIoc ≠ 0 ↔ q = L.getLast hL)) ∧
      L.Chain' (fun a b => (s'.qtds a).hw.next = qtdPtr b) ∧
      (s'.qtds (L.getLast hL)).hw.next = qtdPtrInvalid := by
  subst hs'
  obtain ⟨⟨qtds, hEq⟩, -⟩ := qtdsLink_spec qh first S L
  have hOff : ∀ q ∈ L, ({ qtdsLink S qh first L with transfers := X }.qhs qh).lastQtd ≠ some q :=
    fun q hq e => hCur q (by rw [hEq] at e; exact e) hq
  refine ⟨fun q hq => ?_, chain_of_ne_getLast hL hN (@qtdsLink_chain qh first S L hN)
    fun a ha b hab h => ?_, ?_⟩
  · obtain ⟨n, hn⟩ := @qtdsLink_hw qh first q S L
    have hn' : ({ qtdsLink S qh first L with transfers := X }.qtds q).hw =
        { (S.qtds q).hw with next := n } := hn
    rw [enqueue_hw (hOff q hq), hn']
    exact (hU q hq).link (if q = L.getLast hL then qtdPtrInvalid else n) (q = L.getLast hL)
  · rw [enqueue_hw (hOff a ha), if_neg hab]
    exact h
  · rw [enqueue_hw (hOff _ (List.getLast_mem hL)), if_pos rfl]

end Link

/-- A submission `ehci_transferEnqueue` accepts, from any reachable state:
the transfer is queued last, and its ring holds, in order and once each, the
blocks its stages list, all active and owned by the pipe's queue head; each
qTD points at the next, the last at nothing, and only the last asks for an
interrupt, whatever the records held before. -/
theorem transferEnqueue_queues_ring {cfg : Config} {va2pa : Nat → Nat} {s s' : Hcd}
    {pipeOf : Nat → Nat} {t pipe : Nat} (run : TransferRun cfg va2pa s pipeOf)
    (hVa : ∀ x, va2pa x % ehciPageSize = x % ehciPageSize)
    (hm : 0 < (s.pipes pipe).maxPacketLen) (hmPage : (s.pipes pipe).maxPacketLen ≤ ehciPageSize)
    (hRoot : (s.pipes pipe).roothub = false)
    (hEnq : transferEnqueue cfg va2pa s t pipe = (s', 0)) :
    ∃ qh last, (s'.pipes pipe).hcdpriv = some qh ∧ s'.transfers = s.transfers ++ [t] ∧
      (s'.trs t).hcdpriv.getLast? = some last ∧ (s'.trs t).hcdpriv.Nodup ∧
      Stages va2pa (s.trs t) (s.pipes pipe).maxPacketLen
        ((s'.trs t).hcdpriv.map fun q => stripLink (s'.qtds q).hw) ∧
      (∀ q ∈ (s'.trs t).hcdpriv, (s'.qtds q).qh = some qh ∧
        (s'.qtds q).hw.token &&& qtdActive ≠ 0 ∧ ((s'.qtds q).hw.token &&& qtdIoc ≠ 0 ↔ q = last)) ∧
      (s'.trs t).hcdpriv.Chain' (fun a b => (s'.qtds a).hw.next = qtdPtr b) ∧
      (s'.qtds last).hw.next = qtdPtrInvalid := by
  have hc := run.cursorOk
  unfold transferEnqueue at hEnq
  rw [if_neg (by rw [hRoot]; decide)] at hEnq
  split at hEnq
  · exact absurd (congrArg Prod.snd hEnq) (by simp [eNomem])
  rename_i s₁ qh hQh
  obtain ⟨h₁, hPipe, hQtd⟩ := pipeQh_owned run.owned hQh
  obtain ⟨-, hTrs, hTr, hPipes⟩ := pipeQh_frame hQh
  have hP : (s₁.pipes pipe).maxPacketLen = (s.pipes pipe).maxPacketLen := by rw [← hPipes pipe]
  dsimp only at hEnq
  rcases @transferQtds_stages cfg va2pa s₁ _ t (s₁.pipes pipe) h₁.qtds.qtds_held
    h₁.qtds.bound with ⟨s₂, L, -, hEq⟩ | ⟨hb, hOk⟩
  · rw [hEq, if_pos (by simp [stageFail, eNomem])] at hEnq
    exact absurd (congrArg Prod.snd hEnq) (by simp [stageFail, eNomem])
  have hStages := transferQtds_ok hVa (hP ▸ hm) (hP ▸ hmPage) h₁.qtds.qtds_held h₁.qtds.bound hOk
  rw [if_neg hOk] at hEnq
  split at hEnq
  · exact absurd (congrArg Prod.snd hEnq) (by simp)
  rename_i first rest hCons
  obtain ⟨hs', -⟩ := Prod.mk.inj hEnq
  set r := transferQtds cfg va2pa s₁ t (s₁.pipes pipe)
  set L := first :: rest
  have hL : L ≠ [] := List.cons_ne_nil _ _
  rw [hCons] at hb hStages
  rw [hTrs, hP] at hStages
  set S := r.1.modifyTr t fun x => { x with hcdpriv := L }
  -- the tail of the queue head is the last qTD of a transfer in flight
  have hCur : ∀ l, (S.qhs qh).lastQtd = some l → l ∉ L := fun l hl => by
    have hl' : s₁.cursors qh = some l := by rw [← hb.cursors_eq]; exact hl
    obtain ⟨t', ht', hLast, -⟩ := hc.of_cursors (pipeQh_cursors hQh) hQtd qh l hl'
    exact hb.holds.not_mem_of_mem (List.mem_flatMap.2 ⟨t', ht', List.mem_of_getLast?_eq_some hLast⟩)
  obtain ⟨hRing, hChain, hNext⟩ := @queued_ring qh first S s' L _ hL hb.nodup
    (fun q hq => hStages.unlinked _ (List.mem_map_of_mem _ hq)) hCur hs'.symm
  obtain ⟨qtds, c, pool, n, mem, hFrame⟩ := hb.frame
  have hRingEq : (s'.trs t).hcdpriv = L := by
    rw [← hs']
    simp [S]
  rw [hRingEq]
  refine ⟨qh, L.getLast hL, by rw [← hs']; simp [S, hFrame, hPipe],
    by rw [← hs']; simp [S, hFrame, hTr], List.getLast?_eq_getLast L hL, hb.nodup, ?_,
    fun q hq => ⟨?_, (hRing q hq).2⟩, hChain, hNext⟩
  · rw [List.map_congr_left fun q hq => (hRing q hq).1]
    exact hStages
  · rw [← hs', enqueue_qh]
    exact ((qtdsLink_spec qh first S L).2 q).2.trans (if_pos hq)

/-- A control read queued behind a pending one on the same queue head, from
the qTDs a cancelled read left in the pool with their links and IOC. -/
theorem queues_ring_behind_pending_control :
    let s := transferDequeue sampleConfig (transferEnqueue sampleConfig id (transferEnqueue sampleConfig id
      (ehciInit (fun _ => controlIn 0x1000 64) (fun _ => controlPipe) 16) 0 0).1 1 0).1 0
    let s' := (transferEnqueue sampleConfig id s 2 0).1
    TransferRun sampleConfig id s (Function.update (Function.update (fun _ => 0) 0 0) 1 0) ∧
      transferEnqueue sampleConfig id s 2 0 = (s', 0) ∧
      ∃ qh last, (s'.pipes 0).hcdpriv = some qh ∧ s'.transfers = s.transfers ++ [2] ∧
        (s'.trs 2).hcdpriv.getLast? = some last ∧ (s'.trs 2).hcdpriv.Nodup ∧
        Stages id (s.trs 2) (s.pipes 0).maxPacketLen
          ((s'.trs 2).hcdpriv.map fun q => stripLink (s'.qtds q).hw) ∧
        (∀ q ∈ (s'.trs 2).hcdpriv, (s'.qtds q).qh = some qh ∧
          (s'.qtds q).hw.token &&& qtdActive ≠ 0 ∧ ((s'.qtds q).hw.token &&& qtdIoc ≠ 0 ↔ q = last)) ∧
        (s'.trs 2).hcdpriv.Chain' (fun a b => (s'.qtds a).hw.next = qtdPtr b) ∧
        (s'.qtds last).hw.next = qtdPtrInvalid :=
  have run : TransferRun sampleConfig id _ (Function.update (Function.update (fun _ => 0) 0 0) 1 0) :=
    .dequeue 0 (.enqueue 1 0 (.enqueue 0 0 (.init _ _ 16 fun _ => rfl) (List.not_mem_nil 0))
      (by decide))
  ⟨run, Prod.ext rfl (by decide),
    transferEnqueue_queues_ring run (fun _ => rfl) (by decide) (by decide) rfl (Prod.ext rfl (by decide))⟩

/-- The failure path leaves the state the stages started from but for the
qTD side and the transfer's ring. -/
theorem Built.fail_eq {cfg : Config} {s₀ s : Hcd} {held list : List Nat}
    (hb : Built cfg s₀ held s list) (t : Nat) :
    ∃ qtds c pool n mem, (stageFail cfg s t list).1 =
      ({ s₀ with qtds := qtds, qtdCount := c, qtdPool := pool, nqtds := n, memory := mem }).modifyTr t
        fun x => { x with hcdpriv := [] } := by
  obtain ⟨qtds, c, pool, n, mem, rfl⟩ := hb.frame
  obtain ⟨qtds', pool', n', hPut⟩ := @qtdsPut_eq cfg _ list
  rw [stageFail, hPut]
  exact ⟨_, _, _, _, _, rfl⟩

/-- A submission from a reachable state whose stages run out of qTD
descriptors, after any number of qTDs were built: the in-flight list, the
queue words of every queue head but one the call created, and the blocks of
every qTD in flight are as before; the transfer holds no ring; every record
the call took from the pool or the allocator is pooled or freed, within the
pool's cap. Beyond the qTD side and the transfer's ring, the state is the one
the call found or made the pipe's queue head in, and a queue head the pipe
already had differs from before in `info[0]` alone. -/
theorem transferEnqueue_enomem_rolls_back {cfg : Config} {va2pa : Nat → Nat} {s s₁ s' : Hcd}
    {pipeOf : Nat → Nat} {t pipe qh : Nat} (run : TransferRun cfg va2pa s pipeOf)
    (hRoot : (s.pipes pipe).roothub = false) (hQh : pipeQh cfg s (s.trs t) pipe = some (s₁, qh))
    (hEnq : transferEnqueue cfg va2pa s t pipe = (s', -eNomem)) :
    s'.transfers = s.transfers ∧
      (∀ x, ((s.pipes pipe).hcdpriv = none → x ≠ qh) → s'.queueWords x = s.queueWords x) ∧
      (∀ t' ∈ s.transfers, ∀ q ∈ (s.trs t').hcdpriv, (s'.qtds q).hw = (s.qtds q).hw) ∧
      (s'.trs t).hcdpriv = [] ∧
      (∀ q, q ∈ s.qtdPool ∨ s.qtdCount ≤ q ∧ q < s'.qtdCount →
        q ∈ s'.qtdPool ∨ (s'.qtds q).live = false) ∧
      s'.nqtds ≤ cfg.maxQtdPool ∧
      (∃ qtds c pool n mem, s' =
        ({ s₁ with qtds := qtds, qtdCount := c, qtdPool := pool, nqtds := n, memory := mem }).modifyTr t
          fun x => { x with hcdpriv := [] }) ∧
      ((s.pipes pipe).hcdpriv = some qh →
        s₁ = s.modifyQh qh fun x => { x with hw := { x.hw with info0 := (s₁.qhs qh).hw.info0 } }) := by
  have h := run.owned
  obtain ⟨h₁, -, hQtd⟩ := pipeQh_owned h hQh
  obtain ⟨hQtds, -, hTr, -⟩ := pipeQh_frame hQh
  have hIn : s₁.qtdOwners.inFlight = s.qtdOwners.inFlight := by rw [hQtd]
  have hK := @transferQtds_kept cfg va2pa s₁ _ t (s₁.pipes pipe) h₁.qtds.qtds_held h₁.qtds.bound
  unfold transferEnqueue at hEnq
  rw [if_neg (by rw [hRoot]; decide), hQh] at hEnq
  dsimp only at hEnq
  rcases @transferQtds_stages cfg va2pa s₁ _ t (s₁.pipes pipe) h₁.qtds.qtds_held
    h₁.qtds.bound with ⟨s₂, L, hb, hEq⟩ | ⟨-, hOk⟩
  swap
  · -- a stage that succeeds ends the call in 0 or -1
    rw [if_neg hOk] at hEnq
    split at hEnq <;> exact absurd (congrArg Prod.snd hEnq) (by simp [eNomem])
  rw [hEq, if_pos (by simp [stageFail, eNomem])] at hEnq
  rw [hEq] at hK
  obtain ⟨rfl, -⟩ := Prod.mk.inj hEnq
  obtain ⟨hH, hB, -, -, hTr', -⟩ := hb.fail t
  obtain ⟨qtds, c, pool, n, mem, hShape⟩ := hb.fail_eq t
  refine ⟨hTr'.trans hTr, fun x hx => ?_, fun t' ht' q hq => ?_, by simp [stageFail], fun q hq => ?_,
    hB.1.trans_le hB.2, ⟨_, _, _, _, _, hShape⟩, fun hSome => pipeQh_reuse_eq hSome hQh⟩
  · -- no queue word moves but those of a queue head the call made
    have hW : (stageFail cfg s₂ t L).1.queueWords = s₁.queueWords := by rw [hShape]; rfl
    rw [hW, pipeQh_queueWords hQh x, if_neg fun hc => hx hc.1 hc.2]
  · -- qTDs in flight are no record the stages took
    rw [hK.1 q (hIn ▸ List.mem_flatMap.2 ⟨t', ht', hq⟩), hQtds]
  · -- a record out of flight and below the count is pooled or freed
    have hHeld := h.qtds.qtds_held
    have hc : s.qtdCount ≤ (stageFail cfg s₂ t L).1.qtdCount :=
      (congrArg QtdOwners.qtdCount hQtd).symm.trans_le hK.2
    have hOut : q ∉ s.qtdOwners.inFlight ∧ q < (stageFail cfg s₂ t L).1.qtdCount := by
      rcases hq with hq | ⟨hq, hq'⟩
      · refine ⟨fun hf => ?_, (hHeld.poolOk.lt_count q hq).trans_le hc⟩
        have hLe : s.qtdPool.count q + s.qtdOwners.inFlight.count q ≤ 1 := hHeld.count_le q
        have := List.count_pos_iff.2 hq
        have := List.count_pos_iff.2 hf
        omega
      · refine ⟨fun hf => ?_, hq'⟩
        have : q < s.qtdCount := (hHeld.live (q := q) (Nat.lt_add_left _ (List.count_pos_iff.2 hf))).1
        omega
    have hCount := hH q
    rw [hIn, List.count_eq_zero_of_not_mem hOut.1, Nat.add_zero] at hCount
    by_cases hLive : ((stageFail cfg s₂ t L).1.qtds q).live = true
    · rw [if_pos ⟨hOut.2, hLive⟩] at hCount
      exact .inl (List.count_pos_iff.1 (by simp only [Hcd.qtdOwners] at hCount; omega))
    · exact .inr (by simpa using hLive)

/-- The control pipe of a device that enumeration moved from address 0 with
8-byte packets to address 1 with 64-byte packets, after its first read was
queued at the old address, with the allocator exhausted. -/
def readdressedExhausted : Hcd :=
  let s := (transferEnqueue sampleConfig id (ehciInit (fun _ => controlIn 0x1000 8)
    (fun _ => { controlPipe with address := 0, maxPacketLen := 8 }) 8) 0 0).1
  { s.modifyPipe 0 (fun x => { controlPipe with hcdpriv := x.hcdpriv }) with memory := 0 }

/-- That state is reached under the driver's calls. -/
theorem readdressedExhausted_run :
    TransferRun sampleConfig id readdressedExhausted (Function.update (fun _ => 0) 0 0) :=
  .grant 0 (.configure 0 controlPipe (.enqueue 0 0 (.init (fun _ => controlIn 0x1000 8)
    (fun _ => { controlPipe with address := 0, maxPacketLen := 8 }) 8 fun _ => rfl)
    (List.not_mem_nil 0)))

/-- On that pipe a second read finds the queue head, brings its `info[0]` up
to the new address and packet size, and runs out of descriptors at its SETUP
stage: the call returns `-ENOMEM` and the queue head, which it did not
create, keeps the rewritten `info[0]`. -/
theorem enomem_keeps_rewritten_info0 :
    ∃ s', TransferRun sampleConfig id readdressedExhausted (Function.update (fun _ => 0) 0 0) ∧
      (readdressedExhausted.pipes 0).roothub = false ∧
      (readdressedExhausted.pipes 0).hcdpriv = some 1 ∧
      (pipeQh sampleConfig readdressedExhausted (readdressedExhausted.trs 1) 0).map Prod.snd = some 1 ∧
      transferEnqueue sampleConfig id readdressedExhausted 1 0 = (s', -eNomem) ∧
      qhDevaddr (readdressedExhausted.qhs 1).hw.info0 = 0 ∧ qhDevaddr (s'.qhs 1).hw.info0 = 1 ∧
      qhPacklen (readdressedExhausted.qhs 1).hw.info0 = 8 ∧ qhPacklen (s'.qhs 1).hw.info0 = 64 :=
  ⟨_, readdressedExhausted_run, rfl, rfl, by decide, Prod.ext rfl (by decide), by decide, by decide,
    by decide, by decide⟩

/-- The same pipe with one record left in the allocator: enough for the SETUP
stage of a control read and no more. -/
def readdressedLowMemory : Hcd := { readdressedExhausted with memory := 1 }

/-- That state is reached under the driver's calls. -/
theorem readdressedLowMemory_run :
    TransferRun sampleConfig id readdressedLowMemory (Function.update (fun _ => 0) 0 0) :=
  .grant 1 readdressedExhausted_run

/-- A second read on that pipe builds its SETUP qTD from the last record and
runs out at its data stage: the SETUP qTD goes back to the pool. -/
theorem enomem_rolls_back_readdressed :
    ∃ s₁ s', TransferRun sampleConfig id readdressedLowMemory (Function.update (fun _ => 0) 0 0) ∧
      (readdressedLowMemory.pipes 0).roothub = false ∧
      pipeQh sampleConfig readdressedLowMemory (readdressedLowMemory.trs 1) 0 = some (s₁, 1) ∧
      transferEnqueue sampleConfig id readdressedLowMemory 1 0 = (s', -eNomem) ∧
      s'.qtdCount = readdressedLowMemory.qtdCount + 1 ∧ s'.qtdPool = [readdressedLowMemory.qtdCount] ∧
      s'.transfers = readdressedLowMemory.transfers ∧
      (∀ x, ((readdressedLowMemory.pipes 0).hcdpriv = none → x ≠ 1) →
        s'.queueWords x = readdressedLowMemory.queueWords x) ∧
      (∀ t' ∈ readdressedLowMemory.transfers, ∀ q ∈ (readdressedLowMemory.trs t').hcdpriv,
        (s'.qtds q).hw = (readdressedLowMemory.qtds q).hw) ∧
      (s'.trs 1).hcdpriv = [] ∧
      (∀ q, q ∈ readdressedLowMemory.qtdPool ∨ readdressedLowMemory.qtdCount ≤ q ∧ q < s'.qtdCount →
        q ∈ s'.qtdPool ∨ (s'.qtds q).live = false) ∧
      s'.nqtds ≤ sampleConfig.maxQtdPool ∧
      (∃ qtds c pool n mem, s' =
        ({ s₁ with qtds := qtds, qtdCount := c, qtdPool := pool, nqtds := n, memory := mem }).modifyTr 1
          fun x => { x with hcdpriv := [] }) ∧
      ((readdressedLowMemory.pipes 0).hcdpriv = some 1 →
        s₁ = readdressedLowMemory.modifyQh 1 fun x =>
          { x with hw := { x.hw with info0 := (s₁.qhs 1).hw.info0 } }) :=
  ⟨_, _, readdressedLowMemory_run, rfl, rfl, Prod.ext rfl (by decide), by decide, by decide,
    transferEnqueue_enomem_rolls_back readdressedLowMemory_run rfl rfl (Prod.ext rfl (by decide))⟩

end Ehci
