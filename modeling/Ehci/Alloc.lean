import Ehci.State

/-! Descriptor pools, queue-head allocation and configuration, and the state
`ehci_init` leaves. A record and its DMA block are allocated together and
count as one grant of the system allocator. -/
namespace Ehci

/-- The record `ehci_qhAlloc` hands out. It resets every field, so a queue
head taken from the pool and a new one are the same. -/
def qhFresh : Qh where
  hw := { info0 := 0, info1 := 0, horizontal := qhPtrInvalid, current := qtdPtrInvalid,
          nextQtd := qtdPtrInvalid, altnextQtd := qtdPtrInvalid, token := 0 }
  next := none
  prev := none
  period := 0
  phase := 0
  uframe := 0
  lastQtd := none
  live := true

/-- `LIST_REMOVE` of the head `t` from the pool ring `t :: rest`. The pool is
the ring `Hcd.qhPool` lists from `ehci->qhPool`, threaded through the same
`next`/`prev` fields as the schedules: `t`'s neighbours, the last queue head
and the next one, are joined, the pool empties when `t` is alone, and `t`'s
own links are cleared. -/
def qhPoolRemove (s : Hcd) (t : Nat) (rest : List Nat) : Hcd :=
  let s := match rest with
    | [] => s
    | n :: m =>
        let p := (n :: m).getLast (List.cons_ne_nil n m)
        (s.modifyQh p fun y => { y with next := some n }).modifyQh n fun y => { y with prev := some p }
  { s.modifyQh t (fun y => { y with next := none, prev := none }) with qhPool := rest }

/-- `LIST_ADD` of `t` to the pool ring: `t` goes in before the head, as the
last queue head, or alone on a ring of its own when the pool is empty. -/
def qhPoolAdd (s : Hcd) (t : Nat) : Hcd :=
  let s' := match s.qhPool with
    | [] => s.modifyQh t fun y => { y with next := some t, prev := some t }
    | h :: m =>
        let p := (h :: m).getLast (List.cons_ne_nil h m)
        let s := s.modifyQh t fun y => { y with prev := some p }
        let s := s.modifyQh p fun y => { y with next := some t }
        let s := s.modifyQh t fun y => { y with next := some h }
        s.modifyQh h fun y => { y with prev := some t }
  { s' with qhPool := s.qhPool ++ [t] }

/-- `ehci_qhGet`: take the head of the queue-head pool. -/
def qhGet (s : Hcd) : Hcd × Option Nat :=
  match s.qhPool with
  | q :: rest => ({ qhPoolRemove s q rest with nqhs := s.nqhs - 1 }, some q)
  | [] => (s, none)

/-- `ehci_qhAlloc`: a pooled queue head, else a new record while the
allocator grants one. -/
def qhAlloc (s : Hcd) : Option (Hcd × Nat) :=
  match qhGet s with
  | (s, some q) => some (s.modifyQh q fun _ => qhFresh, q)
  | (s, none) =>
      if s.memory = 0 then none
      else some ({ s.modifyQh s.qhCount (fun _ => qhFresh) with
        qhCount := s.qhCount + 1, memory := s.memory - 1 }, s.qhCount)

/-- With an empty pool `ehci_qhAlloc` mallocs the next record of the arena. -/
theorem qhAlloc_of_pool_nil {s s' : Hcd} {q : Nat} (hPool : s.qhPool = [])
    (h : qhAlloc s = some (s', q)) :
    q = s.qhCount ∧ s' = { s.modifyQh s.qhCount (fun _ => qhFresh) with
      qhCount := s.qhCount + 1, memory := s.memory - 1 } := by
  simp only [qhAlloc, qhGet, hPool] at h
  split at h
  · cases h
  · cases h
    exact ⟨rfl, rfl⟩

/-- `ehci_qhPut`: pool a queue head, first freeing the oldest pooled one when
the pool is at its cap. An empty pool at the cap would fault in the source. -/
def qhPut (cfg : Config) (s : Hcd) (qh : Nat) : Hcd :=
  let s := if cfg.maxQhPool ≤ s.nqhs then
      match s.qhPool with
      | t :: rest => { (qhPoolRemove s t rest).modifyQh t (fun x => { x with live := false }) with
          nqhs := s.nqhs - 1 }
      | [] => s
    else s
  { qhPoolAdd s qh with nqhs := s.nqhs + 1 }

/-- Queue-head records `r'` are those of `r` up to their `next`/`prev` links
and liveness, and differ from them only at the queue heads `W`: what the
pool's ring writes and a `free` leave. -/
structure QhsRelinked (r r' : Nat → Qh) (W : Nat → Prop) : Prop where
  same : ∀ x, { r x with next := (r' x).next, prev := (r' x).prev, live := (r' x).live } = r' x
  off : ∀ x, ¬W x → r' x = r x

namespace QhsRelinked

variable {r r' : Nat → Qh} {W : Nat → Prop}

theorem refl (r : Nat → Qh) (W : Nat → Prop) : QhsRelinked r r W := ⟨fun _ => rfl, fun _ _ => rfl⟩

/-- One more write to a queue head of `W` that changes only its links or
liveness. -/
theorem modifyQh {s : Hcd} {q : Nat} {f : Qh → Qh} (h : QhsRelinked r s.qhs W)
    (hf : ∀ y, { y with next := (f y).next, prev := (f y).prev, live := (f y).live } = f y)
    (hq : W q) : QhsRelinked r (s.modifyQh q f).qhs W := by
  refine ⟨fun x => ?_, fun x hx => ?_⟩
  · by_cases hx : x = q
    · subst hx
      simp only [Hcd.modifyQh_qhs, Function.update_same]
      rw [← hf (s.qhs x), ← h.same x]
    · simp only [Hcd.modifyQh_qhs, Function.update_noteq hx]
      exact h.same x
  · rw [Hcd.modifyQh_qhs, Function.update_noteq fun e => hx (by rw [e]; exact hq)]
    exact h.off x hx

theorem mono {V : Nat → Prop} (h : QhsRelinked r r' W) (hWV : ∀ x, W x → V x) :
    QhsRelinked r r' V :=
  ⟨h.same, fun x hx => h.off x fun hw => hx (hWV x hw)⟩

theorem hw (h : QhsRelinked r r' W) (x : Nat) : (r' x).hw = (r x).hw := by rw [← h.same x]
theorem lastQtd (h : QhsRelinked r r' W) (x : Nat) : (r' x).lastQtd = (r x).lastQtd := by
  rw [← h.same x]
theorem period (h : QhsRelinked r r' W) (x : Nat) : (r' x).period = (r x).period := by rw [← h.same x]

end QhsRelinked

/-- `LIST_REMOVE` writes only the links of the ring's members. -/
theorem qhPoolRemove_eq (s : Hcd) (t : Nat) (rest : List Nat) :
    ∃ qhs, qhPoolRemove s t rest = { s with qhs := qhs, qhPool := rest } ∧
      QhsRelinked s.qhs qhs (fun x => x = t ∨ x ∈ rest) := by
  unfold qhPoolRemove
  cases rest with
  | nil => exact ⟨_, rfl, (QhsRelinked.refl _ _).modifyQh (fun _ => rfl) (Or.inl rfl)⟩
  | cons n m =>
      refine ⟨_, rfl, (((QhsRelinked.refl _ _).modifyQh (fun _ => rfl) ?_).modifyQh (fun _ => rfl)
        (Or.inr (List.mem_cons_self n m))).modifyQh (fun _ => rfl) (Or.inl rfl)⟩
      exact Or.inr (List.getLast_mem _)

/-- `LIST_ADD` writes only the links of the queue head added and of the
pool's members. -/
theorem qhPoolAdd_eq (s : Hcd) (t : Nat) :
    ∃ qhs, qhPoolAdd s t = { s with qhs := qhs, qhPool := s.qhPool ++ [t] } ∧
      QhsRelinked s.qhs qhs (fun x => x = t ∨ x ∈ s.qhPool) := by
  unfold qhPoolAdd
  split
  · exact ⟨_, rfl, (QhsRelinked.refl _ _).modifyQh (fun _ => rfl) (Or.inl rfl)⟩
  · rename_i h m hPool
    have hh : h ∈ s.qhPool := by rw [hPool]; exact List.mem_cons_self h m
    have hp : (h :: m).getLast (List.cons_ne_nil h m) ∈ s.qhPool := by
      rw [hPool]; exact List.getLast_mem _
    exact ⟨_, rfl, ((((QhsRelinked.refl _ _).modifyQh (fun _ => rfl) (Or.inl rfl)).modifyQh
      (fun _ => rfl) (Or.inr hp)).modifyQh (fun _ => rfl) (Or.inl rfl)).modifyQh (fun _ => rfl) (Or.inr hh)⟩

/-- A write that keeps liveness keeps every queue head's. -/
theorem live_modifyQh {s : Hcd} {q x : Nat} {f : Qh → Qh} (hf : ∀ y, (f y).live = y.live) :
    ((s.modifyQh q f).qhs x).live = (s.qhs x).live := by
  by_cases hx : x = q
  · subst hx
    simp [hf]
  · simp [Function.update_noteq hx]

theorem qhPoolRemove_live (s : Hcd) (t : Nat) (rest : List Nat) (x : Nat) :
    ((qhPoolRemove s t rest).qhs x).live = (s.qhs x).live := by
  unfold qhPoolRemove
  cases rest <;> simp only [live_modifyQh, implies_true]

theorem qhPoolAdd_live (s : Hcd) (t x : Nat) : ((qhPoolAdd s t).qhs x).live = (s.qhs x).live := by
  unfold qhPoolAdd
  split <;> simp only [live_modifyQh, implies_true]

/-- What `ehci_qhPut` writes: the pool, its counter, and the links and
liveness of the queue head put and of the pool's members. -/
theorem qhPut_eq (cfg : Config) (s : Hcd) (q : Nat) :
    ∃ qhs pool n, qhPut cfg s q = { s with qhs := qhs, qhPool := pool, nqhs := n } ∧
      QhsRelinked s.qhs qhs (fun x => x = q ∨ x ∈ s.qhPool) := by
  unfold qhPut
  dsimp only
  split
  · split
    · rename_i t rest hPool
      obtain ⟨qhs₁, hEq, hRel⟩ := qhPoolRemove_eq s t rest
      have hMem : ∀ x, x = t ∨ x ∈ rest → x = q ∨ x ∈ s.qhPool := fun x hx => Or.inr (by
        rw [hPool]
        rcases hx with rfl | hx
        exacts [List.mem_cons_self _ _, List.mem_cons_of_mem t hx])
      rw [hEq]
      obtain ⟨qhs₂, hEq₂, hRel₂⟩ := qhPoolAdd_eq
        { ({ s with qhs := qhs₁, qhPool := rest }).modifyQh t (fun x => { x with live := false }) with
          nqhs := s.nqhs - 1 } q
      have hRel₁ := (hRel.mono hMem).modifyQh (s := { s with qhs := qhs₁, qhPool := rest })
        (f := fun x => { x with live := false })
        (fun _ => rfl) (hMem t (Or.inl rfl))
      refine ⟨qhs₂, _, _, by rw [hEq₂]; rfl, ⟨fun x => ?_, fun x hx => ?_⟩⟩
      · rw [← hRel₂.same x, ← hRel₁.same x]
      · rw [hRel₂.off x fun h => h.elim (fun e => hx (Or.inl e)) fun hx' => hx (Or.inr ?_), hRel₁.off x hx]
        simp only [hPool]
        exact List.mem_cons_of_mem t hx'
    · obtain ⟨qhs, hEq, hRel⟩ := qhPoolAdd_eq s q
      exact ⟨_, _, _, by rw [hEq], hRel⟩
  · obtain ⟨qhs, hEq, hRel⟩ := qhPoolAdd_eq s q
    exact ⟨_, _, _, by rw [hEq], hRel⟩

/-- `ehci_qhPut` leaves the queue head it puts and every pooled one in the
pool, except the oldest, which it frees when the pool is at its cap. -/
theorem qhPut_pooled (cfg : Config) (s : Hcd) {q x : Nat} (hx : x = q ∨ x ∈ s.qhPool) :
    x ∈ (qhPut cfg s q).qhPool ∨ ((qhPut cfg s q).qhs x).live = false := by
  rcases hx with rfl | hx
  · exact Or.inl (List.mem_append_right _ (List.mem_singleton_self x))
  unfold qhPut
  dsimp only
  rw [qhPoolAdd_live]
  refine Or.imp_left (List.mem_append_left [q]) ?_
  split
  · split
    · rename_i t rest hPool
      obtain ⟨qhs, hEq, -⟩ := qhPoolRemove_eq s t rest
      rw [hPool, List.mem_cons] at hx
      rcases hx with rfl | hx
      · exact Or.inr (by simp)
      · exact Or.inl (by rw [Hcd.modifyQh_qhPool, hEq]; exact hx)
    · exact Or.inl hx
  · exact Or.inl hx

/-- What `ehci_qhAlloc` writes: a fresh record at the queue head it returns,
which is the pool's head or the next record of the arena, and the links of
the pool's members. -/
theorem qhAlloc_eq {s s₁ : Hcd} {q : Nat} (h : qhAlloc s = some (s₁, q)) :
    ∃ qhs, s₁ = { s with
        qhs := Function.update qhs q qhFresh
        qhPool := s₁.qhPool
        nqhs := s₁.nqhs
        qhCount := s₁.qhCount
        memory := s₁.memory } ∧
      QhsRelinked s.qhs qhs (· ∈ s.qhPool) ∧ (∀ x, (qhs x).live = (s.qhs x).live) ∧
      ((s.qhPool = q :: s₁.qhPool ∧ s₁.qhCount = s.qhCount ∧ s₁.nqhs = s.nqhs - 1 ∧
          s₁.memory = s.memory) ∨
        (s.qhPool = [] ∧ s₁.qhPool = [] ∧ q = s.qhCount ∧ s₁.qhCount = s.qhCount + 1 ∧
          s₁.nqhs = s.nqhs ∧ s.memory ≠ 0 ∧ s₁.memory = s.memory - 1)) := by
  unfold qhAlloc qhGet at h
  cases hPool : s.qhPool with
  | cons r rest =>
      obtain ⟨qhs, hEq, hRel⟩ := qhPoolRemove_eq s r rest
      simp only [hPool, hEq, Option.some.injEq, Prod.mk.injEq] at h
      obtain ⟨rfl, rfl⟩ := h
      refine ⟨qhs, rfl, hRel.mono fun x hx => ?_, fun x => ?_, Or.inl ⟨rfl, rfl, rfl, rfl⟩⟩
      · rcases hx with rfl | hx
        exacts [List.mem_cons_self _ _, List.mem_cons_of_mem _ hx]
      · rw [← qhPoolRemove_live s r rest x, hEq]
  | nil =>
      by_cases hMem : s.memory = 0
      · simp [hPool, hMem] at h
      simp only [hPool, if_neg hMem, Option.some.injEq, Prod.mk.injEq] at h
      obtain ⟨rfl, rfl⟩ := h
      exact ⟨s.qhs, rfl, QhsRelinked.refl _ _, fun _ => rfl, Or.inr ⟨rfl, hPool, rfl, rfl, rfl, hMem, rfl⟩⟩

/-- The full- and low-speed loop of `ehci_qhConf`:
`while (qh->period * 2 < pipe->interval) qh->period *= 2;` -/
def fsPeriod (interval : Nat) : Nat → Nat → Nat
  | 0, period => period
  | fuel + 1, period =>
      if period * 2 < interval then fsPeriod interval fuel (period * 2) else period

/-- The polling period `ehci_qhConf` derives from `bInterval`, in frames. The
high-speed value `((1 << (pipe->interval - 1))) >> 3` is computed on a 32-bit
`int` and stored as an unsigned period: at `bInterval` 32 the shift reaches
the sign bit and the arithmetic shift right gives `0xf0000000`; a wider shift
gives 0, as the ARM shifter does. -/
def qhPeriod (pipe : Pipe) : Nat :=
  if pipe.speed = usbHighSpeed then
    let period := (((1 : BitVec 32) <<< (pipe.interval - 1)).sshiftRight 3).toNat
    if period = 0 then 1 else period
  else fsPeriod pipe.interval pipe.interval 1

/-- The `info[0]` word `ehci_qhConf` builds for a pipe. -/
def qhInfo0 (pipe : Pipe) : Nat :=
  let info := pipe.address ||| (pipe.num <<< 8) ||| (pipe.speed <<< 12) |||
    (if pipe.type = .control then qhDt else 0) ||| (pipe.maxPacketLen <<< 16)
  let info := if pipe.type = .control ∧ pipe.speed ≠ usbHighSpeed then info ||| qhCtrl else info
  info ||| (3 <<< 28)

/-- `ehci_qhConf`. -/
def qhConf (qh : Qh) (pipe : Pipe) : Qh :=
  { qh with hw := { qh.hw with info0 := qhInfo0 pipe, info1 := 0 },
            period := if pipe.type = .interrupt then qhPeriod pipe else qh.period }

/-- `ehci_qtdGet`: take the head of the qTD pool. -/
def qtdGet (s : Hcd) : Hcd × Option Nat :=
  match s.qtdPool with
  | q :: rest => ({ s with qtdPool := rest, nqtds := s.nqtds - 1 }, some q)
  | [] => (s, none)

/-- One pass of the loop of `ehci_qtdsPut`. -/
def qtdPut (cfg : Config) (s : Hcd) (q : Nat) : Hcd :=
  let s := if cfg.maxQtdPool ≤ s.nqtds then
      match s.qtdPool with
      | t :: rest => { s.modifyQtd t (fun x => { x with live := false }) with
          qtdPool := rest, nqtds := s.nqtds - 1 }
      | [] => s
    else s
  { s.modifyQtd q (fun x => { x with qh := none }) with
    qtdPool := s.qtdPool ++ [q], nqtds := s.nqtds + 1 }

/-- `ehci_qtdsPut`: pool every qTD of a list, from its head. -/
def qtdsPut (cfg : Config) (s : Hcd) : List Nat → Hcd
  | [] => s
  | q :: rest => qtdsPut cfg (qtdPut cfg s q) rest

/-- The dummy head `ehci_init` puts on the async list: the H bit set, its
horizontal pointer and its `LIST_ADD` links to itself. -/
def asyncHead : Qh :=
  { qhFresh with hw := { qhFresh.hw with info0 := qhFresh.hw.info0 ||| qhHead,
                                         horizontal := qhPtr (some 0) },
                 next := some 0, prev := some 0 }

/-- The driver state after a successful `ehci_init`: queue head 0 is the
async dummy, every periodic slot is empty, pools and in-flight list empty. -/
def ehciInit (trs : Nat → Transfer) (pipes : Nat → Pipe) (memory : Nat) : Hcd where
  qhs := Function.update (fun _ => { qhFresh with live := false }) 0 asyncHead
  qhCount := 1
  qtds := fun _ => { hw := { next := qtdPtrInvalid, altnext := qtdPtrInvalid, token := 0,
                             buf := [] }, qh := none, live := false }
  qtdCount := 0
  periodicList := fun _ => qhPtrInvalid
  periodicNodes := fun _ => none
  asyncList := 0
  qhPool := []
  nqhs := 0
  qtdPool := []
  nqtds := 0
  transfers := []
  trs := trs
  pipes := pipes
  finished := []
  memory := memory

/-- A high-speed interrupt pipe with the given `bInterval`. -/
def hsInterruptPipe (interval : Nat) : Pipe :=
  { address := 1, speed := usbHighSpeed, roothub := false, num := 1, type := .interrupt,
    maxPacketLen := 8, interval := interval, hcdpriv := none }

/-- A transfer record the stack has not submitted. -/
def idleTransfer : Transfer :=
  { type := .bulk, direction := .dirIn, setup := 0, buffer := none, size := 0, hcdpriv := [] }

end Ehci
