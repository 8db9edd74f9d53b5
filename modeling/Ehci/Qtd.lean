import Mathlib.Algebra.Order.Ring.Nat
import Ehci.Alloc

/-! qTD allocation and the splitting of a buffer into qTDs: `ehci_qtdAlloc`
and `ehci_qtdAdd`. `va2pa` is the platform's address translation, a
parameter of every function that reads it. -/
namespace Ehci

/-- The page loop of `ehci_qtdAlloc` from slot `i`, with `slots` slots left,
`bytes` of `size` placed and `data` the next virtual address: the slots it
writes, zeros included, and the bytes placed at its end. On the last slot a
qTD that cannot take the rest is cut to a multiple of `maxpacksz`; `offs` is
negative when the cut falls below `bytes`, and the `size_t` sum then wraps to
the cut, so `bytes` becomes the cut and `data` moves by the same amount. -/
def qtdPages (va2pa : Nat → Nat) (maxpacksz size : Nat) :
    (slots i bytes data : Nat) → List Nat × Nat
  | 0, _, bytes, _ => ([], bytes)
  | slots + 1, i, bytes, data =>
      if bytes ≠ size then
        let offs := min (size - bytes) ehciPageSize
        let next := if i = ehciQhNbufs - 1 ∧ bytes + offs < size
          then (bytes + offs) / maxpacksz * maxpacksz else bytes + offs
        let rest := qtdPages va2pa maxpacksz size slots (i + 1) next (data + next - bytes)
        (pageMask (va2pa data) :: rest.1, rest.2)
      else (List.replicate (slots + 1) 0, bytes)

/-- The qTD block `ehci_qtdAlloc` writes over `old`, and the bytes of `size`
it takes. A `NULL` buffer leaves the buffer slots alone and takes nothing. -/
def qtdFill (va2pa : Nat → Nat) (old : QtdHw) (pid maxpacksz : Nat) (data : Option Nat)
    (size datax : Nat) : QtdHw × Nat :=
  let hw := { old with token := qtdTokenInit pid datax, next := qtdPtrInvalid,
                       altnext := qtdPtrInvalid }
  match data with
  | none => (hw, 0)
  | some data =>
      let offs := min (ehciPageSize - qtdOffset (va2pa data)) size
      let pages := qtdPages va2pa maxpacksz size (ehciQhNbufs - 1) 1 offs (data + offs)
      ({ hw with buf := va2pa data :: pages.1, token := hw.token ||| (pages.2 <<< 16) }, pages.2)

/-- The record `ehci_qtdAlloc` fills: the head of the pool, else a new record
while the allocator grants one. A new record holds whatever its memory held. -/
def qtdRecord (s : Hcd) : Option (Hcd × Nat) :=
  match qtdGet s with
  | (s, some q) => some (s, q)
  | (s, none) =>
      if s.memory = 0 then none
      else some ({ s with qtdCount := s.qtdCount + 1, memory := s.memory - 1 }, s.qtdCount)

/-- `ehci_qtdAlloc`: the new state, the qTD, and what is left of `*size`. -/
def qtdAlloc (va2pa : Nat → Nat) (s : Hcd) (pid maxpacksz : Nat) (data : Option Nat)
    (size datax : Nat) : Option (Hcd × Nat × Nat) :=
  match qtdRecord s with
  | none => none
  | some (s, q) =>
      let r := qtdFill va2pa (s.qtds q).hw pid maxpacksz data size datax
      some (s.modifyQtd q (fun x => { x with hw := r.1, live := true }), q, size - r.2)

/-- Every record `ehci_qtdAlloc` takes comes out of the pool or the allocator. -/
theorem qtdRecord_supply {s s' : Hcd} {q : Nat} (h : qtdRecord s = some (s', q)) :
    s'.qtdPool.length + s'.memory + 1 = s.qtdPool.length + s.memory := by
  unfold qtdRecord qtdGet at h
  cases hPool : s.qtdPool with
  | cons t rest =>
      simp only [hPool, Option.some.injEq, Prod.mk.injEq] at h
      obtain ⟨rfl, -⟩ := h
      simp only [List.length_cons]
      omega
  | nil =>
      simp only [hPool, ite_eq_left_iff, Option.some.injEq, Prod.mk.injEq] at h
      split at h
      · cases h
      · obtain ⟨rfl, -⟩ := Option.some.inj h |> Prod.mk.inj
        simp only [hPool, List.length_nil]
        omega

/-- `ehci_qtdAlloc` never lowers the allocator's count. -/
theorem qtdRecord_count_le {s s' : Hcd} {q : Nat} (h : qtdRecord s = some (s', q)) :
    s.qtdCount ≤ s'.qtdCount := by
  unfold qtdRecord qtdGet at h
  cases hPool : s.qtdPool with
  | cons t rest =>
      simp only [hPool, Option.some.injEq, Prod.mk.injEq] at h
      obtain ⟨rfl, -⟩ := h
      exact le_rfl
  | nil =>
      simp only [hPool, ite_eq_left_iff, Option.some.injEq, Prod.mk.injEq] at h
      split at h
      · cases h
      · obtain ⟨rfl, -⟩ := Option.some.inj h |> Prod.mk.inj
        exact Nat.le_succ _

theorem qtdAlloc_supply {va2pa : Nat → Nat} {s s' : Hcd} {pid maxpacksz : Nat}
    {data : Option Nat} {size datax q size' : Nat}
    (h : qtdAlloc va2pa s pid maxpacksz data size datax = some (s', q, size')) :
    s'.qtdPool.length + s'.memory + 1 = s.qtdPool.length + s.memory := by
  unfold qtdAlloc at h
  split at h
  · cases h
  · rename_i s1 q1 hRec
    cases h
    have := qtdRecord_supply hRec
    simp only [Hcd.modifyQtd_qtdPool, Hcd.modifyQtd_memory]
    omega

theorem qtdAlloc_count_le {va2pa : Nat → Nat} {s s' : Hcd} {pid maxpacksz : Nat}
    {data : Option Nat} {size datax q size' : Nat}
    (h : qtdAlloc va2pa s pid maxpacksz data size datax = some (s', q, size')) :
    s.qtdCount ≤ s'.qtdCount := by
  unfold qtdAlloc at h
  split at h
  · cases h
  · rename_i s1 q1 hRec
    cases h
    rw [Hcd.modifyQtd_qtdCount]
    exact qtdRecord_count_le hRec

/-- The loop of `ehci_qtdAdd`, with `remaining` bytes of `size` left and data
toggle `dt`, while the pool and the allocator hold `supply` records between
them. Every pass takes one, so the supply bounds the passes even when no byte
is placed; with none left `ehci_qtdAlloc` fails, as it does at zero here. -/
def qtdAddLoop (va2pa : Nat → Nat) (token maxpacksz : Nat) (buf : Option Nat) (size : Nat) :
    (supply : Nat) → (s : Hcd) → (list : List Nat) → (remaining dt : Nat) → Hcd × List Nat × Int
  | 0, s, list, _, _ => (s, list, -eNomem)
  | supply + 1, s, list, remaining, dt =>
      match qtdAlloc va2pa s token maxpacksz (buf.map (· + (size - remaining))) remaining dt with
      | none => (s, list, -eNomem)
      | some (s', q, remaining') =>
          if 0 < remaining' then
            qtdAddLoop va2pa token maxpacksz buf size supply s' (list ++ [q]) remaining' (1 - dt)
          else (s', list ++ [q], 0)

/-- `ehci_qtdAdd`: append the qTDs for `size` bytes from `buf` to `list`,
the first with data toggle `dt`; `-ENOMEM` when a qTD cannot be allocated. -/
def qtdAdd (va2pa : Nat → Nat) (s : Hcd) (list : List Nat) (token maxpacksz : Nat)
    (buf : Option Nat) (size dt : Nat) : Hcd × List Nat × Int :=
  qtdAddLoop va2pa token maxpacksz buf size (s.qtdPool.length + s.memory) s list size dt

/-- The slots from slot `i` on of a qTD whose `bytes` bytes start at virtual
address `addr`: the base of each page the range reaches, zero past its end. -/
def pageSlots (va2pa : Nat → Nat) (addr bytes : Nat) : (i slots : Nat) → List Nat
  | _, 0 => []
  | i, slots + 1 =>
      let page := addr - addr % ehciPageSize + i * ehciPageSize
      (if page < addr + bytes then va2pa page else 0) :: pageSlots va2pa addr bytes (i + 1) slots

/-- The buffer slots of a qTD whose `bytes` bytes start at virtual address
`addr`: the start, then the base of each following page the range reaches,
then zeros. -/
def qtdBufs (va2pa : Nat → Nat) (addr bytes : Nat) : List Nat :=
  va2pa addr :: pageSlots va2pa addr bytes 1 (ehciQhNbufs - 1)

/-- A qTD block `ehci_qtdAlloc` filled with `bytes` bytes from `addr`: the
count sits in the token above the PID and below the data toggle, and the
range fits the five pages from its start's page. -/
structure QtdCovers (va2pa : Nat → Nat) (pid datax addr bytes : Nat) (hw : QtdHw) : Prop where
  token : hw.token = qtdTokenInit pid datax ||| (bytes <<< 16)
  fits : addr % ehciPageSize + bytes ≤ ehciQhNbufs * ehciPageSize
  next : hw.next = qtdPtrInvalid
  altnext : hw.altnext = qtdPtrInvalid
  buf : hw.buf = qtdBufs va2pa addr bytes

/-- The qTD blocks `ehci_qtdAdd` appends for `size` bytes from `addr`, in
order, the first with data toggle `dt`: each but the last takes a positive
multiple of `maxpacksz` bytes and the last takes the rest. -/
def QtdsCover (va2pa : Nat → Nat) (pid maxpacksz : Nat) :
    (addr size dt : Nat) → List QtdHw → Prop
  | _, _, _, [] => False
  | addr, size, dt, [hw] => QtdCovers va2pa pid dt addr size hw
  | addr, size, dt, hw :: hw' :: hws => ∃ bytes, 0 < bytes ∧ maxpacksz ∣ bytes ∧ bytes < size ∧
      QtdCovers va2pa pid dt addr bytes hw ∧
      QtdsCover va2pa pid maxpacksz (addr + bytes) (size - bytes) (1 - dt) (hw' :: hws)

/-- The count of a covering qTD reads back through `QTD_LEN` and stays below
the data-toggle bit. -/
theorem QtdCovers.qtdLen_token {va2pa : Nat → Nat} {pid datax addr bytes : Nat} {hw : QtdHw}
    (h : QtdCovers va2pa pid datax addr bytes hw) (hPid : pid < 4) :
    qtdLen hw.token = bytes ∧ bytes <<< 16 < 2 ^ 31 := by
  have hFits := h.fits
  have hBytes : bytes < 2 ^ 15 := by
    simp only [ehciQhNbufs, ehciPageSize] at hFits
    omega
  refine ⟨h.token ▸ qtdLen_qtdTokenInit hPid hBytes, ?_⟩
  rw [Nat.shiftLeft_eq]
  omega

/-- The counts of the covering qTDs add up to the size. -/
theorem QtdsCover.sum_qtdLen {va2pa : Nat → Nat} {pid maxpacksz : Nat} (hPid : pid < 4) :
    ∀ {hws : List QtdHw} {addr size dt : Nat}, QtdsCover va2pa pid maxpacksz addr size dt hws →
      (hws.map fun hw => qtdLen hw.token).sum = size
  | [], _, _, _, h => h.elim
  | [_], _, _, _, h => by simp [(h.qtdLen_token hPid).1]
  | _ :: _ :: _, _, _, _, ⟨bytes, _, _, hLt, hHead, hRest⟩ => by
      rw [List.map_cons, List.sum_cons, (hHead.qtdLen_token hPid).1, sum_qtdLen hPid hRest]
      omega

/-- A zero-length buffer gets exactly one qTD, and it carries no bytes. -/
theorem QtdsCover.of_size_zero {va2pa : Nat → Nat} {pid maxpacksz addr dt : Nat}
    {hws : List QtdHw} (h : QtdsCover va2pa pid maxpacksz addr 0 dt hws) :
    ∃ hw, hws = [hw] ∧ QtdCovers va2pa pid dt addr 0 hw := by
  match hws, h with
  | [hw], h => exact ⟨hw, rfl, h⟩
  | _ :: _ :: _, ⟨_, _, _, hLt, _⟩ => exact absurd hLt (Nat.not_lt_zero _)

/-- The qTD pool as `<sys/list.h>` keeps it: no record twice, every one
allocated before. -/
structure QtdPoolOk (s : Hcd) : Prop where
  nodup : s.qtdPool.Nodup
  lt_count : ∀ q ∈ s.qtdPool, q < s.qtdCount

section Fill

variable {va2pa : Nat → Nat} (hVa : ∀ x, va2pa x % ehciPageSize = x % ehciPageSize)
  {maxpacksz : Nat} (hm : 0 < maxpacksz) (hmPage : maxpacksz ≤ ehciPageSize)

/-- No slot from `i` on is used by a range that ends before page `i`. -/
theorem pageSlots_of_le {addr bytes : Nat} :
    ∀ {i} slots, addr % ehciPageSize + bytes ≤ i * ehciPageSize →
      pageSlots va2pa addr bytes i slots = List.replicate slots 0
  | _, 0, _ => rfl
  | i, slots + 1, h => by
      have hOff := Nat.mod_le addr ehciPageSize
      have hNext : addr % ehciPageSize + bytes ≤ (i + 1) * ehciPageSize := by
        rw [Nat.succ_mul]; omega
      rw [pageSlots, pageSlots_of_le slots hNext, if_neg (by omega), List.replicate_succ]

include hVa hm hmPage in
/-- From slot `i` on, the page loop writes the base of every page the final
range reaches and zero after it; it places more bytes while any are left, and
a qTD is only cut short on a multiple of `maxpacksz`. Before slot `i` every
page was taken whole. -/
theorem qtdPages_spec (addr size : Nat) : ∀ slots i bytes, i + slots = ehciQhNbufs →
    bytes ≤ size → addr % ehciPageSize + bytes ≤ i * ehciPageSize →
    (bytes < size → addr % ehciPageSize + bytes = i * ehciPageSize ∧ 0 < slots) →
    let r := qtdPages va2pa maxpacksz size slots i bytes (addr + bytes)
    r.1 = pageSlots va2pa addr r.2 i slots ∧ bytes ≤ r.2 ∧ r.2 ≤ size ∧
      addr % ehciPageSize + r.2 ≤ ehciQhNbufs * ehciPageSize ∧
      (bytes < size → bytes < r.2) ∧ (r.2 < size → maxpacksz ∣ r.2)
  | 0, i, bytes, hSlots, hLe, hFit, hMore => by
      obtain rfl : bytes = size := by
        by_contra h
        exact absurd (hMore (by omega)).2 (Nat.lt_irrefl 0)
      rw [Nat.add_zero] at hSlots
      subst hSlots
      exact ⟨rfl, le_rfl, le_rfl, hFit, fun h => absurd h (Nat.lt_irrefl _),
        fun h => absurd h (Nat.lt_irrefl _)⟩
  | slots + 1, i, bytes, hSlots, hLe, hFit, hMore => by
      have hOff := Nat.mod_le addr ehciPageSize
      by_cases hDone : bytes = size
      · subst hDone
        rw [qtdPages, if_neg (not_not.2 rfl)]
        refine ⟨(pageSlots_of_le (slots + 1) hFit).symm, le_rfl, le_rfl, ?_,
          fun h => absurd h (Nat.lt_irrefl _), fun h => absurd h (Nat.lt_irrefl _)⟩
        calc addr % ehciPageSize + bytes ≤ i * ehciPageSize := hFit
          _ ≤ ehciQhNbufs * ehciPageSize := Nat.mul_le_mul_right _ (by omega)
      have hFull := (hMore (lt_of_le_of_ne hLe hDone)).1
      -- the page at slot `i` starts where the placed bytes end
      have hBase : addr - addr % ehciPageSize + i * ehciPageSize = addr + bytes := by omega
      have hMask : pageMask (va2pa (addr + bytes)) = va2pa (addr + bytes) := by
        have hAligned : (addr + bytes) % ehciPageSize = 0 := by
          simp only [ehciPageSize] at hFull ⊢
          omega
        rw [pageMask_eq, hVa, hAligned, Nat.sub_zero]
      rw [qtdPages, if_pos hDone]
      dsimp only
      simp only [ehciPageSize, ehciQhNbufs] at hFull hFit hSlots hmPage hBase hOff ⊢
      -- the page at slot `i` takes the rest of the buffer or all of itself
      have hNext : bytes < bytes + min (size - bytes) 4096 ∧
          bytes + min (size - bytes) 4096 ≤ size ∧
          addr % 4096 + (bytes + min (size - bytes) 4096) ≤ (i + 1) * 4096 ∧
          (bytes + min (size - bytes) 4096 < size →
            addr % 4096 + (bytes + min (size - bytes) 4096) = (i + 1) * 4096) := by
        rw [Nat.succ_mul]
        omega
      generalize bytes + min (size - bytes) 4096 = next at hNext ⊢
      obtain ⟨hStep, hNextLe, hNextFit, hNextFull⟩ := hNext
      by_cases hCut : i = 5 - 1 ∧ next < size
      · -- the last slot: the qTD is cut to a multiple of `maxpacksz`
        rw [if_pos hCut]
        have hUp := @Nat.lt_div_mul_add next _ hm
        have hDown := Nat.div_mul_le_self next maxpacksz
        obtain rfl : slots = 0 := by omega
        simp only [qtdPages, pageSlots]
        refine ⟨?_, by omega, by omega, by omega, fun _ => by omega,
          fun _ => Nat.dvd_mul_left _ _⟩
        rw [ehciPageSize, hBase, if_pos (by omega), hMask]
      · rw [if_neg hCut, Nat.add_right_comm addr bytes next, Nat.add_sub_cancel]
        obtain ⟨hPages, hGrow, hSize, hFits, -, hDvd⟩ := qtdPages_spec addr size slots (i + 1)
          next (by simp only [ehciQhNbufs]; omega) hNextLe hNextFit
          (fun h => ⟨hNextFull h, by omega⟩)
        simp only [ehciPageSize, ehciQhNbufs] at hFits
        refine ⟨?_, by omega, hSize, by omega, fun _ => by omega, hDvd⟩
        rw [pageSlots, ← hPages, ehciPageSize, hBase,
          if_pos (Nat.add_lt_add_left (hStep.trans_le hGrow) addr), hMask]

include hVa hm hmPage in
/-- `ehci_qtdAlloc` on a buffer fills a covering qTD: it takes at most what
is left, something whenever anything is left, and is only cut short on a
multiple of `maxpacksz`. -/
theorem qtdFill_spec (old : QtdHw) (pid datax addr size : Nat) :
    let r := qtdFill va2pa old pid maxpacksz (some addr) size datax
    QtdCovers va2pa pid datax addr r.2 r.1 ∧ r.2 ≤ size ∧ (0 < size → 0 < r.2) ∧
      (r.2 < size → maxpacksz ∣ r.2) := by
  have hOff := Nat.mod_lt addr (show 0 < ehciPageSize by decide)
  simp only [qtdFill, qtdOffset_eq, hVa]
  obtain ⟨hPages, hGrow, hSize, hFits, hMore, hDvd⟩ := qtdPages_spec hVa hm hmPage addr size
    (ehciQhNbufs - 1) 1 (min (ehciPageSize - addr % ehciPageSize) size) rfl (Nat.min_le_right _ _)
    (by omega) (fun h => ⟨by omega, by decide⟩)
  exact ⟨⟨rfl, hFits, rfl, rfl, by rw [qtdBufs, hPages]⟩, hSize, fun h => by omega, hDvd⟩

/-- A range that ends within four pages of its start's page is never cut:
the page loop places all of it before the last slot. -/
theorem qtdPages_takes_all (addr size : Nat)
    (hFit : addr % ehciPageSize + size ≤ (ehciQhNbufs - 1) * ehciPageSize) :
    ∀ slots i bytes data, i + slots = ehciQhNbufs → bytes ≤ size →
      (bytes < size → addr % ehciPageSize + bytes = i * ehciPageSize) →
      (qtdPages va2pa maxpacksz size slots i bytes data).2 = size
  | 0, i, bytes, _, hSlots, hLe, hFull => by
      rw [qtdPages]
      by_contra hne
      have hEnd := hFull (by omega)
      simp only [ehciQhNbufs, ehciPageSize] at hSlots hFit hEnd
      omega
  | slots + 1, i, bytes, data, hSlots, hLe, hFull => by
      by_cases hDone : bytes = size
      · rw [qtdPages, if_neg (not_not.2 hDone)]
        exact hDone
      have hEnd := hFull (by omega)
      rw [qtdPages, if_pos hDone]
      dsimp only
      have hFit' := hFit
      simp only [ehciQhNbufs, ehciPageSize] at hSlots hFit' hEnd ⊢
      rw [if_neg (by omega)]
      exact qtdPages_takes_all addr size hFit slots (i + 1) _ _
        (by simp only [ehciQhNbufs]; omega) (by omega) (fun h => by simp only [ehciPageSize]; omega)

include hVa in
/-- `ehci_qtdAlloc` takes the whole of a buffer that ends within four pages
of its start's page. -/
theorem qtdFill_takes_all (old : QtdHw) (pid datax addr size : Nat)
    (hFit : addr % ehciPageSize + size ≤ (ehciQhNbufs - 1) * ehciPageSize) :
    (qtdFill va2pa old pid maxpacksz (some addr) size datax).2 = size := by
  have hOff := Nat.mod_lt addr (show 0 < ehciPageSize by decide)
  simp only [qtdFill, qtdOffset_eq, hVa]
  exact qtdPages_takes_all addr size hFit (ehciQhNbufs - 1) 1 _ _ rfl (Nat.min_le_right _ _)
    (fun h => by simp only [ehciPageSize] at *; omega)

end Fill

section Records

variable {s s' : Hcd} {q : Nat}

/-- Taking a record keeps the pool well formed; the record is neither pooled
nor unallocated afterwards, and no record outside the pool is taken. -/
theorem qtdRecord_spec (hOk : QtdPoolOk s) (h : qtdRecord s = some (s', q)) :
    QtdPoolOk s' ∧ s'.qtds = s.qtds ∧ q ∉ s'.qtdPool ∧ q < s'.qtdCount ∧
      ∀ p, p ∉ s.qtdPool → p < s.qtdCount → p ∉ s'.qtdPool ∧ p < s'.qtdCount ∧ p ≠ q := by
  unfold qtdRecord qtdGet at h
  cases hPool : s.qtdPool with
  | cons t rest =>
      simp only [hPool, Option.some.injEq, Prod.mk.injEq] at h
      obtain ⟨rfl, rfl⟩ := h
      have hNodup := hPool ▸ hOk.nodup
      have hLt := hPool ▸ hOk.lt_count
      refine ⟨⟨(List.nodup_cons.1 hNodup).2, fun x hx => hLt x (List.mem_cons_of_mem t hx)⟩, rfl,
        (List.nodup_cons.1 hNodup).1, hLt t (List.mem_cons_self t rest), fun p hp hpc => ?_⟩
      rw [List.mem_cons, not_or] at hp
      exact ⟨hp.2, hpc, hp.1⟩
  | nil =>
      simp only [hPool] at h
      split at h
      · cases h
      · obtain ⟨rfl, rfl⟩ := Prod.mk.inj (Option.some.inj h)
        refine ⟨⟨by simp [hPool], by simp [hPool]⟩, rfl, by simp [hPool], Nat.lt_succ_self _,
          fun p _ hpc => ⟨by simp [hPool], Nat.lt_succ_of_lt hpc, Nat.ne_of_lt hpc⟩⟩

/-- `ehci_qtdAlloc` fails only when the pool is empty and the allocator is out. -/
theorem qtdAlloc_ne_none {va2pa : Nat → Nat} {pid maxpacksz : Nat} {data : Option Nat}
    {size datax : Nat} (hSupply : 0 < s.qtdPool.length + s.memory) :
    qtdAlloc va2pa s pid maxpacksz data size datax ≠ none := by
  unfold qtdAlloc qtdRecord qtdGet
  cases hPool : s.qtdPool with
  | cons t rest => simp
  | nil =>
      rw [hPool, List.length_nil] at hSupply
      simp [Nat.pos_iff_ne_zero.1 (by omega : 0 < s.memory)]

variable {va2pa : Nat → Nat} {pid maxpacksz : Nat} {data : Option Nat} {size datax size' : Nat}

/-- `ehci_qtdAlloc` writes only the record it takes, with the block `qtdFill`
computes over the old one, and leaves the rest of `*size`. -/
theorem qtdAlloc_spec (hOk : QtdPoolOk s)
    (h : qtdAlloc va2pa s pid maxpacksz data size datax = some (s', q, size')) :
    QtdPoolOk s' ∧ q ∉ s'.qtdPool ∧ q < s'.qtdCount ∧
      (∀ p, p ∉ s.qtdPool → p < s.qtdCount →
        p ∉ s'.qtdPool ∧ p < s'.qtdCount ∧ s'.qtds p = s.qtds p) ∧
      ∃ old, (s'.qtds q).hw = (qtdFill va2pa old pid maxpacksz data size datax).1 ∧
        size' = size - (qtdFill va2pa old pid maxpacksz data size datax).2 := by
  unfold qtdAlloc at h
  split at h
  · cases h
  · rename_i sR qR hRec
    simp only [Option.some.injEq, Prod.mk.injEq] at h
    obtain ⟨rfl, rfl, rfl⟩ := h
    obtain ⟨hOk', hQtds, hOut, hLt, hKeep⟩ := qtdRecord_spec hOk hRec
    refine ⟨⟨hOk'.1, hOk'.2⟩, hOut, hLt, fun p hp hpc => ?_, (sR.qtds qR).hw, by simp, rfl⟩
    obtain ⟨hp', hpc', hpq⟩ := hKeep p hp hpc
    exact ⟨hp', hpc', by simp [Function.update_noteq hpq, hQtds]⟩

end Records

section Add

variable {va2pa : Nat → Nat} {token maxpacksz : Nat} {buf : Option Nat} {size : Nat}
  {s s' : Hcd} {list : List Nat} {remaining dt q remaining' : Nat}

theorem qtdAddLoop_of_none
    (h : qtdAlloc va2pa s token maxpacksz (buf.map (· + (size - remaining))) remaining dt = none) :
    qtdAddLoop va2pa token maxpacksz buf size (supply + 1) s list remaining dt =
      (s, list, -eNomem) := by
  simp only [qtdAddLoop, h]

theorem qtdAddLoop_of_more
    (h : qtdAlloc va2pa s token maxpacksz (buf.map (· + (size - remaining))) remaining dt =
      some (s', q, remaining')) (hMore : 0 < remaining') :
    qtdAddLoop va2pa token maxpacksz buf size (supply + 1) s list remaining dt =
      qtdAddLoop va2pa token maxpacksz buf size supply s' (list ++ [q]) remaining' (1 - dt) := by
  simp only [qtdAddLoop, h, if_pos hMore]

theorem qtdAddLoop_of_done
    (h : qtdAlloc va2pa s token maxpacksz (buf.map (· + (size - remaining))) remaining dt =
      some (s', q, remaining')) (hDone : ¬0 < remaining') :
    qtdAddLoop va2pa token maxpacksz buf size (supply + 1) s list remaining dt =
      (s', list ++ [q], 0) := by
  simp only [qtdAddLoop, h, if_neg hDone]

/-- `ehci_qtdAdd` writes no record that was allocated and out of the pool
when it started. -/
theorem qtdAddLoop_frame (hOk : QtdPoolOk s) (p : Nat) (hp : p ∉ s.qtdPool)
    (hpc : p < s.qtdCount) :
    (qtdAddLoop va2pa token maxpacksz buf size supply s list remaining dt).1.qtds p = s.qtds p := by
  induction supply generalizing s list remaining dt with
  | zero => rfl
  | succ supply ih =>
      rcases h : qtdAlloc va2pa s token maxpacksz (buf.map (· + (size - remaining))) remaining dt
        with _ | ⟨s', q, remaining'⟩
      · rw [qtdAddLoop_of_none h]
      · obtain ⟨hOk', -, -, hKeep, -⟩ := qtdAlloc_spec hOk h
        obtain ⟨hp', hpc', hSame⟩ := hKeep p hp hpc
        by_cases hMore : 0 < remaining'
        · rw [qtdAddLoop_of_more h hMore, ih hOk' hp' hpc', hSame]
        · rw [qtdAddLoop_of_done h hMore]
          exact hSame

/-- Nor does `ehci_qtdAdd` lower the allocator's count. -/
theorem qtdAddLoop_count_le :
    s.qtdCount ≤ (qtdAddLoop va2pa token maxpacksz buf size supply s list remaining dt).1.qtdCount := by
  induction supply generalizing s list remaining dt with
  | zero => exact le_rfl
  | succ supply ih =>
      rcases h : qtdAlloc va2pa s token maxpacksz (buf.map (· + (size - remaining))) remaining dt
        with _ | ⟨s', q, remaining'⟩
      · rw [qtdAddLoop_of_none h]
      · by_cases hMore : 0 < remaining'
        · rw [qtdAddLoop_of_more h hMore]
          exact (qtdAlloc_count_le h).trans ih
        · rw [qtdAddLoop_of_done h hMore]
          exact qtdAlloc_count_le h

variable (hVa : ∀ x, va2pa x % ehciPageSize = x % ehciPageSize)
  (hm : 0 < maxpacksz) (hmPage : maxpacksz ≤ ehciPageSize)

include hVa hm hmPage in
/-- With `remaining` of `size` bytes from `addr` left, the loop succeeds when
the pool and the allocator hold a record per qTD it needs, and on success the
qTDs it appends cover the rest of the buffer. -/
theorem qtdAddLoop_spec (addr : Nat) (hOk : QtdPoolOk s)
    (hSupply : s.qtdPool.length + s.memory = supply) (hLe : remaining ≤ size) :
    let r := qtdAddLoop va2pa token maxpacksz (some addr) size supply s list remaining dt
    (max remaining 1 ≤ supply → r.2.2 = 0) ∧
      (r.2.2 = 0 → ∃ new, r.2.1 = list ++ new ∧
        QtdsCover va2pa token maxpacksz (addr + (size - remaining)) remaining dt
          (new.map fun q => (r.1.qtds q).hw)) := by
  induction supply generalizing s list remaining dt with
  | zero => exact ⟨fun h => by omega, fun h => absurd h (by simp only [qtdAddLoop]; decide)⟩
  | succ supply ih =>
      rcases h : qtdAlloc va2pa s token maxpacksz ((some addr).map (· + (size - remaining)))
        remaining dt with _ | ⟨s', q, remaining'⟩
      · exact absurd h (qtdAlloc_ne_none (by omega))
      have h' := h
      rw [Option.map_some'] at h'
      obtain ⟨hOk', hOut, hLt, -, old, hHw, hRest⟩ := qtdAlloc_spec hOk h'
      obtain ⟨hCov, hBytes, hPos, hDvd⟩ := qtdFill_spec hVa hm hmPage old token dt
        (addr + (size - remaining)) remaining
      set bytes := (qtdFill va2pa old token maxpacksz (some (addr + (size - remaining)))
        remaining dt).2
      subst hRest
      have hUsed := qtdAlloc_supply h
      by_cases hMore : 0 < remaining - bytes
      · -- more qTDs follow: the first is not written again, the rest cover what it left
        have hSome : 0 < bytes := hPos (by omega)
        obtain ⟨ihDone, ihCover⟩ := @ih s' (list ++ [q]) (remaining - bytes) (1 - dt) hOk'
          (by omega) (by omega)
        rw [qtdAddLoop_of_more h hMore]
        refine ⟨fun hEnough => ihDone (by omega), fun hZero => ?_⟩
        obtain ⟨new, hList, hCover⟩ := ihCover hZero
        refine ⟨q :: new, by rw [hList, List.append_assoc, List.singleton_append], ?_⟩
        rw [List.map_cons, qtdAddLoop_frame hOk' q hOut hLt, hHw]
        obtain ⟨hw', hws, hNew⟩ : ∃ hw' hws, new.map (fun p => ((qtdAddLoop va2pa token
            maxpacksz (some addr) size supply s' (list ++ [q]) (remaining - bytes)
            (1 - dt)).1.qtds p).hw) = hw' :: hws := by
          cases new with
          | nil => exact hCover.elim
          | cons a new => exact ⟨_, _, rfl⟩
        rw [hNew] at hCover ⊢
        have hAddr : addr + (size - (remaining - bytes)) = addr + (size - remaining) + bytes := by
          rw [tsub_tsub_assoc hLe hBytes, Nat.add_assoc]
        rw [hAddr] at hCover
        exact ⟨bytes, hSome, hDvd (by omega), by omega, hCov, hCover⟩
      · -- the last qTD takes the rest
        rw [qtdAddLoop_of_done h hMore]
        refine ⟨fun _ => rfl, fun _ => ⟨[q], rfl, ?_⟩⟩
        have hAll : bytes = remaining := by omega
        rw [List.map_singleton, QtdsCover, hHw]
        rwa [hAll] at hCov

end Add

/-- `ehci_qtdAdd` on a buffer at `addr`, with `va2pa` keeping the offset in
the page and `0 < maxpacksz ≤ 4096`: it succeeds whenever the pool and the
allocator hold a record per qTD it needs, and then the qTDs it appends cover
the buffer in order. -/
theorem qtdAdd_splits (va2pa : Nat → Nat)
    (hVa : ∀ x, va2pa x % ehciPageSize = x % ehciPageSize) {maxpacksz : Nat}
    (hm : 0 < maxpacksz) (hmPage : maxpacksz ≤ ehciPageSize) {s : Hcd} (hOk : QtdPoolOk s)
    (list : List Nat) (token addr size dt : Nat) :
    let r := qtdAdd va2pa s list token maxpacksz (some addr) size dt
    (max size 1 ≤ s.qtdPool.length + s.memory → r.2.2 = 0) ∧
      (r.2.2 = 0 → ∃ new, r.2.1 = list ++ new ∧
        QtdsCover va2pa token maxpacksz addr size dt (new.map fun q => (r.1.qtds q).hw)) := by
  have h := @qtdAddLoop_spec va2pa token maxpacksz size s list size dt hVa hm hmPage _ addr hOk
    rfl (Nat.le_refl size)
  rw [Nat.sub_self, Nat.add_zero] at h
  exact h

/-- A 20 KiB read from a buffer 256 bytes into a page, on a controller whose
allocator can give a record per byte: the call succeeds with two qTDs, the
first five pages long up to a whole packet and the second the packet left. -/
theorem qtdAdd_splits_five_pages :
    let s := ehciInit (fun _ => idleTransfer) (fun _ => hsInterruptPipe 1) 20480
    let r := qtdAdd id s [] inToken 512 (some 0x1100) 20480 1
    max 20480 1 ≤ s.qtdPool.length + s.memory ∧ r.2.2 = 0 ∧ r.2.1.length = 2 ∧
      (max 20480 1 ≤ s.qtdPool.length + s.memory → r.2.2 = 0) ∧
      (r.2.2 = 0 → ∃ new, r.2.1 = [] ++ new ∧
        QtdsCover id inToken 512 0x1100 20480 1 (new.map fun q => (r.1.qtds q).hw)) :=
  ⟨by decide, by decide, by decide, qtdAdd_splits id (fun _ => rfl) (by decide) (by decide)
    ⟨List.nodup_nil, fun _ h => absurd h (List.not_mem_nil _)⟩ [] inToken 0x1100 20480 1⟩

end Ehci
