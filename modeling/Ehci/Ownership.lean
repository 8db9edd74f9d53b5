import Ehci.Reaper

/-! Ownership of descriptors across whole runs of the transfer calls. The
invariant reads two views of a state: the queue heads with the pipes that
hold them, and the qTD records with the transfers that hold them. Most writes
move links, pointers and tokens and keep both views, so they keep the
invariant by one frame lemma each. -/
namespace Ehci

/-- What the queue-head side of the invariant reads of a state. -/
structure QhOwners where
  qhCount : Nat
  qhLive : Nat → Bool
  asyncList : Nat
  qhPool : List Nat
  nqhs : Nat
  pipeQhs : Nat → Option Nat

/-- What the qTD side of the invariant reads of a state. -/
structure QtdOwners where
  qtdCount : Nat
  qtdLive : Nat → Bool
  qtdQh : Nat → Option Nat
  qtdPool : List Nat
  nqtds : Nat
  transfers : List Nat
  rings : Nat → List Nat

namespace Hcd

/-- The queue heads of a state and the pipes' hold on them. -/
def qhOwners (s : Hcd) : QhOwners where
  qhCount := s.qhCount
  qhLive x := (s.qhs x).live
  asyncList := s.asyncList
  qhPool := s.qhPool
  nqhs := s.nqhs
  pipeQhs p := (s.pipes p).hcdpriv

/-- The qTD records of a state and the transfers' hold on them. -/
def qtdOwners (s : Hcd) : QtdOwners where
  qtdCount := s.qtdCount
  qtdLive x := (s.qtds x).live
  qtdQh x := (s.qtds x).qh
  qtdPool := s.qtdPool
  nqtds := s.nqtds
  transfers := s.transfers
  rings t := (s.trs t).hcdpriv

/-- Both views. -/
def owners (s : Hcd) : QhOwners × QtdOwners := (s.qhOwners, s.qtdOwners)

variable {s : Hcd} {q : Nat}

theorem owners_modifyQh {f : Qh → Qh} (hf : ∀ x, (f x).live = x.live) :
    (s.modifyQh q f).owners = s.owners := by
  simp only [owners, qhOwners, qtdOwners, modifyQh, Prod.mk.injEq, QhOwners.mk.injEq, true_and,
    and_true]
  funext x
  by_cases hx : x = q
  · subst hx
    simp [hf]
  · simp [Function.update_noteq hx]

theorem owners_modifyQtd {f : Qtd → Qtd} (hLive : ∀ x, (f x).live = x.live)
    (hQh : ∀ x, (f x).qh = x.qh) : (s.modifyQtd q f).owners = s.owners := by
  simp only [owners, qhOwners, qtdOwners, modifyQtd, Prod.mk.injEq, QtdOwners.mk.injEq, true_and,
    and_true]
  constructor <;> funext x <;> by_cases hx : x = q
  · subst hx
    simp [hLive]
  · simp [Function.update_noteq hx]
  · subst hx
    simp [hQh]
  · simp [Function.update_noteq hx]

/-- A write that keeps its record's life keeps every record's life. -/
theorem qtdLive_modifyQtd {f : Qtd → Qtd} (hf : (f (s.qtds q)).live = (s.qtds q).live) :
    (s.modifyQtd q f).qtdOwners.qtdLive = s.qtdOwners.qtdLive := by
  funext x
  by_cases hx : x = q
  · subst hx
    simpa [qtdOwners] using hf
  · simp [qtdOwners, Function.update_noteq hx]

/-- A write that keeps its record's queue head keeps every record's. -/
theorem qh_modifyQtd {f : Qtd → Qtd} (hf : (f (s.qtds q)).qh = (s.qtds q).qh) (x : Nat) :
    ((s.modifyQtd q f).qtds x).qh = (s.qtds x).qh := by
  by_cases hx : x = q
  · subst hx
    simpa using hf
  · simp [Function.update_noteq hx]

theorem owners_modifyTr {f : Transfer → Transfer} (hf : ∀ x, (f x).hcdpriv = x.hcdpriv) :
    (s.modifyTr q f).owners = s.owners := by
  simp only [owners, qhOwners, qtdOwners, modifyTr, Prod.mk.injEq, QtdOwners.mk.injEq, true_and,
    and_true]
  funext x
  by_cases hx : x = q
  · subst hx
    simp [hf]
  · simp [Function.update_noteq hx]

theorem owners_modifyPipe {f : Pipe → Pipe} (hf : ∀ x, (f x).hcdpriv = x.hcdpriv) :
    (s.modifyPipe q f).owners = s.owners := by
  simp only [owners, qhOwners, qtdOwners, modifyPipe, Prod.mk.injEq, QhOwners.mk.injEq, true_and,
    and_true]
  funext x
  by_cases hx : x = q
  · subst hx
    simp [hf]
  · simp [Function.update_noteq hx]

@[simp]
theorem owners_slots {nodes : Nat → Option Nat} {list : Nat → Nat} :
    ({ s with periodicNodes := nodes, periodicList := list } : Hcd).owners = s.owners := rfl

@[simp]
theorem qtdOwners_modifyQh {f : Qh → Qh} : (s.modifyQh q f).qtdOwners = s.qtdOwners := rfl

@[simp]
theorem qhOwners_modifyQtd {f : Qtd → Qtd} : (s.modifyQtd q f).qhOwners = s.qhOwners := rfl

@[simp]
theorem qhOwners_modifyTr {f : Transfer → Transfer} : (s.modifyTr q f).qhOwners = s.qhOwners := rfl

@[simp]
theorem qtdOwners_modifyPipe {f : Pipe → Pipe} : (s.modifyPipe q f).qtdOwners = s.qtdOwners := rfl

end Hcd

section Frame

variable {s : Hcd} {q : Nat}

/-- A conditional write to a queue head's hardware fields. -/
theorem owners_ite_modifyQh {c : Prop} [Decidable c] {f : Qh → Qh}
    (hf : ∀ x, (f x).live = x.live) : (if c then s.modifyQh q f else s).owners = s.owners := by
  split
  · exact Hcd.owners_modifyQh hf
  · rfl

theorem owners_qhLinkAsync : (qhLinkAsync s q).owners = s.owners := by
  unfold qhLinkAsync
  dsimp only
  split <;> simp only [Hcd.owners_modifyQh, implies_true]

theorem owners_qhUnlinkAsync : (qhUnlinkAsync s q).owners = s.owners := by
  unfold qhUnlinkAsync
  dsimp only
  repeat' split
  all_goals simp only [Hcd.owners_modifyQh, implies_true]

theorem owners_fillSlots (N qh period fuel i : Nat) :
    (fillSlots N qh period fuel i s).owners = s.owners := by
  obtain ⟨nodes, list, h⟩ := fillSlots_eq N qh period fuel i s
  rw [h]
  rfl

theorem owners_bandAlloc (N : Nat) : (bandAlloc N s q).owners = s.owners := by
  simp only [bandAlloc, owners_ite_modifyQh, Hcd.owners_modifyQh, implies_true]

theorem owners_linkFirst (N : Nat) : (linkFirst N s q).owners = s.owners := by
  simp only [linkFirst, owners_fillSlots, Hcd.owners_modifyQh, implies_true]

theorem owners_linkInside (t : Nat) : (linkInside s q t).owners = s.owners := by
  simp only [linkInside, Hcd.owners_modifyQh, implies_true]

theorem owners_linkChain (N : Nat) : (linkChain N s q).owners = s.owners := by
  unfold linkChain
  dsimp only
  split
  · split
    · exact owners_linkFirst N
    · exact owners_linkInside _
  · exact owners_linkFirst N

theorem owners_markLast : (markLast s q).owners = s.owners := by
  simp only [markLast, owners_ite_modifyQh, implies_true]

theorem owners_qhLinkPeriodic (N : Nat) : (qhLinkPeriodic N s q).owners = s.owners := by
  simp only [qhLinkPeriodic, owners_markLast, owners_linkChain, owners_bandAlloc,
    Hcd.owners_modifyQh, implies_true]

theorem owners_qhUnlinkPeriodic (N : Nat) : (qhUnlinkPeriodic N s q).owners = s.owners := by
  unfold qhUnlinkPeriodic
  generalize List.range N = slots
  induction slots generalizing s with
  | nil => rfl
  | cons i slots ih =>
      rw [List.foldl_cons, ih]
      unfold unlinkSlot
      repeat' split
      all_goals simp only [Hcd.owners_modifyQh, Hcd.owners_slots, implies_true]

theorem owners_ehciContinue (last : Nat) : (ehciContinue s q last).owners = s.owners := by
  simp only [ehciContinue, owners_ite_modifyQh, implies_true]

theorem owners_continueAfter (t : Nat) : (continueAfter s t).owners = s.owners := by
  unfold continueAfter
  dsimp only
  repeat' split
  all_goals first | rfl | exact owners_ehciContinue _

theorem owners_qtdsDeactivate (ring : List Nat) : (qtdsDeactivate s ring).owners = s.owners := by
  induction ring generalizing s with
  | nil => rfl
  | cons r ring ih =>
      rw [qtdsDeactivate, ih]
      simp only [Hcd.owners_modifyQtd, implies_true]

theorem owners_deactivateOn (qh : Nat) (ts : List Nat) :
    (deactivateOn s qh ts).owners = s.owners := by
  induction ts generalizing s with
  | nil => rfl
  | cons t ts ih =>
      rw [deactivateOn, ih]
      repeat' split
      all_goals first | rfl | exact owners_qtdsDeactivate _

theorem owners_enqueue (first last : Nat) : (enqueue s q first last).owners = s.owners := by
  unfold enqueue
  dsimp only
  split <;> simp only [Hcd.owners_modifyQh, Hcd.owners_modifyQtd, implies_true]

theorem owners_qtdWriteback (token : Nat) : (qtdWriteback s q token).owners = s.owners :=
  Hcd.owners_modifyQtd (fun _ => rfl) (fun _ => rfl)

end Frame

/-- The qTDs of the in-flight transfers, ring after ring. -/
def QtdOwners.inFlight (v : QtdOwners) : List Nat := v.transfers.flatMap v.rings

/-- Every allocated, unfreed qTD record is held exactly once, by the pool or
by `held`, and no other record is held. -/
def QtdsHeld (v : QtdOwners) (held : List Nat) : Prop :=
  ∀ q, v.qtdPool.count q + held.count q = if q < v.qtdCount ∧ v.qtdLive q = true then 1 else 0

/-- The qTD pool's length is its counter and within its cap. -/
structure PoolBound (cfg : Config) (v : QtdOwners) : Prop where
  nqtds_eq : v.nqtds = v.qtdPool.length
  qtdPool_le : v.qtdPool.length ≤ cfg.maxQtdPool

/-- The queue-head side: every allocated, unfreed queue head but the async
dummy is pooled once or held by exactly one pipe. -/
structure QhsOwned (cfg : Config) (v : QhOwners) : Prop where
  async_lt : v.asyncList < v.qhCount
  qhPool_nodup : v.qhPool.Nodup
  qhPool_free : ∀ q ∈ v.qhPool, q < v.qhCount ∧ v.qhLive q = true ∧ q ≠ v.asyncList ∧
    ∀ p, v.pipeQhs p ≠ some q
  pipe_qh : ∀ p q, v.pipeQhs p = some q → q < v.qhCount ∧ v.qhLive q = true ∧
    q ≠ v.asyncList ∧ ∀ p', v.pipeQhs p' = some q → p' = p
  qh_held : ∀ q < v.qhCount, v.qhLive q = true → q ≠ v.asyncList →
    q ∈ v.qhPool ∨ ∃ p, v.pipeQhs p = some q
  nqhs_eq : v.nqhs = v.qhPool.length
  qhPool_le : v.qhPool.length ≤ cfg.maxQhPool

/-- The qTD side, with `pipeOf` the pipe each transfer was last submitted on
and `pipeQhs` the pipes' queue heads. -/
structure QtdsOwned (cfg : Config) (pipeOf : Nat → Nat) (pipeQhs : Nat → Option Nat)
    (v : QtdOwners) : Prop where
  qtds_held : QtdsHeld v v.inFlight
  bound : PoolBound cfg v
  transfers_nodup : v.transfers.Nodup
  ring_ne_nil : ∀ t ∈ v.transfers, v.rings t ≠ []
  ring_qh : ∀ t ∈ v.transfers, ∃ qh, pipeQhs (pipeOf t) = some qh ∧
    ∀ q ∈ v.rings t, v.qtdQh q = some qh

/-- The ownership invariant of the driver. -/
structure Owned (cfg : Config) (pipeOf : Nat → Nat) (s : Hcd) : Prop where
  qhs : QhsOwned cfg s.qhOwners
  qtds : QtdsOwned cfg pipeOf s.qhOwners.pipeQhs s.qtdOwners

theorem Owned.of_owners {cfg : Config} {pipeOf : Nat → Nat} {s s' : Hcd}
    (h : Owned cfg pipeOf s) (hv : s'.owners = s.owners) : Owned cfg pipeOf s' := by
  obtain ⟨hQh, hQtd⟩ := Prod.mk.inj hv
  exact ⟨hQh ▸ h.qhs, hQh ▸ hQtd ▸ h.qtds⟩

/-- Holding depends on `held` only through how often it holds each record. -/
theorem QtdsHeld.congr {v : QtdOwners} {held held' : List Nat} (h : QtdsHeld v held)
    (hCount : ∀ q, held'.count q = held.count q) : QtdsHeld v held' := fun q => by
  rw [hCount]
  exact h q

/-- A record held at all is held once, alive, and not elsewhere. -/
theorem QtdsHeld.count_le {v : QtdOwners} {held : List Nat} (h : QtdsHeld v held) (q : Nat) :
    v.qtdPool.count q + held.count q ≤ 1 := by
  rw [h q]
  split <;> omega

/-- A record in the pool or held is alive. -/
theorem QtdsHeld.live {v : QtdOwners} {held : List Nat} (h : QtdsHeld v held) {q : Nat}
    (hq : 0 < v.qtdPool.count q + held.count q) : q < v.qtdCount ∧ v.qtdLive q = true := by
  have := h q
  by_contra hc
  rw [if_neg hc] at this
  omega

/-- Holding survives any change that shifts the holders' counts and the live
records alike: `a` counts what leaves both, `b` what joins both. -/
theorem QtdsHeld.shift {v v' : QtdOwners} {held held' : List Nat} (h : QtdsHeld v held)
    (a b : Nat → Nat)
    (hCount : ∀ x, v'.qtdPool.count x + held'.count x + a x =
      v.qtdPool.count x + held.count x + b x)
    (hLive : ∀ x, (if x < v'.qtdCount ∧ v'.qtdLive x = true then 1 else 0) + a x =
      (if x < v.qtdCount ∧ v.qtdLive x = true then 1 else 0) + b x) :
    QtdsHeld v' held' := fun x => by
  have := h x
  have := hCount x
  have := hLive x
  omega

/-- Holding survives a move between the pool and the holders in which no
record is born or dies. -/
theorem QtdsHeld.move {v v' : QtdOwners} {held held' : List Nat} (h : QtdsHeld v held)
    (hCount : ∀ x, v'.qtdPool.count x + held'.count x = v.qtdPool.count x + held.count x)
    (hc : v'.qtdCount = v.qtdCount) (hLive : v'.qtdLive = v.qtdLive) : QtdsHeld v' held' :=
  fun x => by
    rw [hCount, hc, hLive]
    exact h x

/-- Two holders sharing a record is impossible. -/
theorem QtdsHeld.not_mem_of_mem {v : QtdOwners} {held L : List Nat} (h : QtdsHeld v (held ++ L))
    {q : Nat} (hq : q ∈ held) : q ∉ L := fun hL => by
  have := h.count_le q
  rw [List.count_append] at this
  have := List.count_pos_iff.2 hq
  have := List.count_pos_iff.2 hL
  omega

/-- The pool of a holding is well formed for `ehci_qtdAlloc`. -/
theorem QtdsHeld.poolOk {s : Hcd} {held : List Nat} (h : QtdsHeld s.qtdOwners held) :
    QtdPoolOk s where
  nodup := List.nodup_iff_count_le_one.2 fun q => by
    have := h.count_le q
    simp only [Hcd.qtdOwners] at this
    omega
  lt_count q hq := (h.live (by simp only [Hcd.qtdOwners]; have := List.count_pos_iff.2 hq; omega)).1

section Pool

variable {cfg : Config} {s : Hcd} {held held' : List Nat}

/-- Freeing the head of the pool, as `ehci_qtdsPut` does when the pool is full. -/
theorem QtdsHeld.evict {h : Nat} {rest : List Nat} (hHeld : QtdsHeld s.qtdOwners held)
    (hPool : s.qtdPool = h :: rest) (n : Nat) :
    QtdsHeld { s.modifyQtd h (fun x => { x with live := false }) with
      qtdPool := rest, nqtds := n }.qtdOwners held := by
  have hAlive := hHeld.live (q := h)
    (by simp only [Hcd.qtdOwners, hPool, List.count_cons_self]; omega)
  refine hHeld.shift (fun x => if x = h then 1 else 0) (fun _ => 0) (fun x => ?_) (fun x => ?_)
  · simp only [Hcd.qtdOwners, hPool, List.count_cons, beq_iff_eq]
    split_ifs <;> omega
  · by_cases hx : x = h
    · subst hx
      simp_all [Hcd.qtdOwners]
    · simp [Hcd.qtdOwners, Function.update_noteq hx, hx]

/-- Pooling a held record at the tail of the pool. -/
theorem QtdsHeld.put {q : Nat} (hHeld : QtdsHeld s.qtdOwners held)
    (hMove : ∀ x, held.count x = held'.count x + if x = q then 1 else 0) (n : Nat) :
    QtdsHeld { s.modifyQtd q (fun x => { x with qh := none }) with
      qtdPool := s.qtdPool ++ [q], nqtds := n }.qtdOwners held' :=
  hHeld.move (fun x => by
      simp only [Hcd.qtdOwners, hMove x, List.count_append, List.count_singleton']
      split_ifs <;> omega)
    rfl (@Hcd.qtdLive_modifyQtd s q (fun x => { x with qh := none }) rfl)

/-- Pooling a held qTD keeps every record held once; the record evicted to
make room, if any, is freed. The qTD loses its queue head, nothing else does. -/
theorem qtdPut_held {q : Nat} (hHeld : QtdsHeld s.qtdOwners held)
    (hMove : ∀ x, held.count x = held'.count x + if x = q then 1 else 0)
    (hB : PoolBound cfg s.qtdOwners) :
    QtdsHeld (qtdPut cfg s q).qtdOwners held' ∧ PoolBound cfg (qtdPut cfg s q).qtdOwners ∧
      ∀ x, ((qtdPut cfg s q).qtds x).qh = if x = q then none else (s.qtds x).qh := by
  obtain ⟨hLen, hCap⟩ := hB
  simp only [Hcd.qtdOwners] at hLen hCap
  have hQh : ∀ (s' : Hcd) x, ((s'.modifyQtd q fun y => { y with qh := none }).qtds x).qh =
      if x = q then none else (s'.qtds x).qh := fun s' x => by
    by_cases hx : x = q <;> simp [hx]
  unfold qtdPut
  by_cases hFull : cfg.maxQtdPool ≤ s.nqtds
  · rw [if_pos hFull]
    cases hPool : s.qtdPool with
    | nil =>
        have := cfg.maxQtdPool_pos
        rw [hPool, List.length_nil] at hLen
        omega
    | cons h rest =>
        rw [hPool, List.length_cons] at hLen hCap
        have hLen' : (rest ++ [q]).length = s.nqtds := by
          rw [List.length_append, List.length_singleton, hLen]
        refine ⟨(hHeld.evict hPool _).put hMove _, ⟨by simp only [Hcd.qtdOwners, hLen']; omega,
          by simp only [Hcd.qtdOwners, hLen']; omega⟩, fun x => ?_⟩
        rw [hQh, Hcd.qh_modifyQtd (f := fun y => { y with live := false }) rfl]
  · rw [if_neg hFull]
    exact ⟨hHeld.put hMove _, ⟨by simp [Hcd.qtdOwners, hLen], by simp [Hcd.qtdOwners]; omega⟩,
      hQh s⟩

/-- `ehci_qtdsPut` hands a held list back to the pool: the rest of the
holding stands, and the pooled records lose their queue head. -/
theorem qtdsPut_held (L : List Nat) (hHeld : QtdsHeld s.qtdOwners (held ++ L))
    (hB : PoolBound cfg s.qtdOwners) :
    QtdsHeld (qtdsPut cfg s L).qtdOwners held ∧ PoolBound cfg (qtdsPut cfg s L).qtdOwners ∧
      ∀ x, ((qtdsPut cfg s L).qtds x).qh = if x ∈ L then none else (s.qtds x).qh := by
  induction L generalizing s with
  | nil => exact ⟨by simpa using hHeld, hB, fun x => by simp [qtdsPut]⟩
  | cons q L ih =>
      obtain ⟨hHeld', hB', hQh⟩ := @qtdPut_held cfg s (held ++ q :: L) (held ++ L) q hHeld
        (fun x => by
          simp only [List.count_append, List.count_cons, beq_iff_eq]
          split_ifs <;> omega) hB
      obtain ⟨h1, h2, h3⟩ := ih hHeld' hB'
      refine ⟨h1, h2, fun x => ?_⟩
      rw [qtdsPut, h3, hQh]
      by_cases hx : x = q <;> simp [hx]

/-- What building qTDs from `s₀` on leaves: the records built so far are held
by the list under construction besides `held`, and nothing but the qTD
records, their pool and the allocator moved. -/
structure Built (cfg : Config) (s₀ : Hcd) (held : List Nat) (s : Hcd) (list : List Nat) :
    Prop where
  holds : QtdsHeld s.qtdOwners (held ++ list)
  bound : PoolBound cfg s.qtdOwners
  qh : ∀ x, (s.qtds x).qh = (s₀.qtds x).qh
  frame : ∃ qtds c pool n mem, s =
    { s₀ with qtds := qtds, qtdCount := c, qtdPool := pool, nqtds := n, memory := mem }

variable {s₀ s' : Hcd} {list : List Nat}

theorem Built.start (hHeld : QtdsHeld s.qtdOwners held) (hB : PoolBound cfg s.qtdOwners) :
    Built cfg s held s [] :=
  ⟨by simpa using hHeld, hB, fun _ => rfl, ⟨_, _, _, _, _, rfl⟩⟩

/-- Taking the head of the pool for a holder, as `ehci_qtdAlloc` does. -/
theorem QtdsHeld.take {r : Nat} {rest : List Nat} (hHeld : QtdsHeld s.qtdOwners held)
    (hPool : s.qtdPool = r :: rest) (n : Nat) {f : Qtd → Qtd} (hf : ∀ x, (f x).live = true) :
    QtdsHeld (({ s with qtdPool := rest, nqtds := n } : Hcd).modifyQtd r f).qtdOwners
      (held ++ [r]) := by
  have hAlive := hHeld.live (q := r)
    (by simp only [Hcd.qtdOwners, hPool, List.count_cons_self]; omega)
  refine hHeld.move (fun x => ?_) rfl
    (@Hcd.qtdLive_modifyQtd { s with qtdPool := rest, nqtds := n } r f ((hf _).trans hAlive.2.symm))
  simp only [Hcd.qtdOwners, Hcd.modifyQtd, hPool, List.count_append, List.count_cons,
    List.count_nil, beq_iff_eq]
  split_ifs <;> omega

/-- A record new from the allocator joins a holder. -/
theorem QtdsHeld.grow {pool : List Nat} (hHeld : QtdsHeld s.qtdOwners held)
    (hPool : s.qtdPool = pool) (m : Nat) {f : Qtd → Qtd} (hf : ∀ x, (f x).live = true) :
    QtdsHeld (({ s with qtdCount := s.qtdCount + 1, qtdPool := pool, memory := m } : Hcd).modifyQtd
      s.qtdCount f).qtdOwners (held ++ [s.qtdCount]) := by
  subst hPool
  refine hHeld.shift (fun _ => 0) (fun x => if x = s.qtdCount then 1 else 0) (fun x => ?_)
    (fun x => ?_)
  · simp only [Hcd.qtdOwners, Hcd.modifyQtd, List.count_append, List.count_singleton']
    split_ifs <;> omega
  · by_cases hx : x = s.qtdCount
    · subst hx
      simp [Hcd.qtdOwners, hf]
    · have : x < s.qtdCount + 1 ↔ x < s.qtdCount := by omega
      simp [Hcd.qtdOwners, Function.update_noteq hx, hx, this]

/-- `ehci_qtdAlloc` adds the record it takes to the list under construction. -/
theorem Built.alloc {va2pa : Nat → Nat} {pid maxpacksz : Nat} {data : Option Nat}
    {size datax size' q : Nat} (hb : Built cfg s₀ held s list)
    (h : qtdAlloc va2pa s pid maxpacksz data size datax = some (s', q, size')) :
    Built cfg s₀ held s' (list ++ [q]) := by
  obtain ⟨hHeld, ⟨hLen, hCap⟩, hQh, qtds, c, pool, n, mem, hs⟩ := hb
  simp only [Hcd.qtdOwners] at hLen hCap
  unfold qtdAlloc qtdRecord qtdGet at h
  cases hPool : s.qtdPool with
  | cons r rest =>
      simp only [hPool, Option.some.injEq, Prod.mk.injEq] at h
      obtain ⟨rfl, rfl, -⟩ := h
      rw [hPool, List.length_cons] at hLen hCap
      refine ⟨List.append_assoc .. ▸ hHeld.take hPool _ (fun _ => rfl),
        ⟨by simp only [Hcd.qtdOwners, Hcd.modifyQtd_nqtds, Hcd.modifyQtd_qtdPool, hLen]; omega,
          by simp only [Hcd.qtdOwners, Hcd.modifyQtd_qtdPool]; omega⟩,
        fun x => (Hcd.qh_modifyQtd rfl x).trans (hQh x), by rw [hs]; exact ⟨_, _, _, _, _, rfl⟩⟩
  | nil =>
      by_cases hMem : s.memory = 0
      · simp [hPool, hMem] at h
      simp only [hPool, if_neg hMem, Option.some.injEq, Prod.mk.injEq] at h
      obtain ⟨rfl, rfl, -⟩ := h
      refine ⟨List.append_assoc .. ▸ hHeld.grow hPool _ (fun _ => rfl),
        ⟨by simp [Hcd.qtdOwners, hPool, hLen], by simp [Hcd.qtdOwners, hPool]⟩,
        fun x => (Hcd.qh_modifyQtd rfl x).trans (hQh x), by rw [hs]; exact ⟨_, _, _, _, _, rfl⟩⟩

/-- The loop of `ehci_qtdAdd` adds every record it takes, whether it ends in
success or in `-ENOMEM`. -/
theorem Built.addLoop {va2pa : Nat → Nat} {token maxpacksz : Nat} {buf : Option Nat}
    {size supply remaining dt : Nat} (hb : Built cfg s₀ held s list) :
    Built cfg s₀ held (qtdAddLoop va2pa token maxpacksz buf size supply s list remaining dt).1
      (qtdAddLoop va2pa token maxpacksz buf size supply s list remaining dt).2.1 := by
  induction supply generalizing s list remaining dt with
  | zero => exact hb
  | succ supply ih =>
      rcases h : qtdAlloc va2pa s token maxpacksz (buf.map (· + (size - remaining))) remaining dt
        with _ | ⟨s', q, remaining'⟩
      · rw [qtdAddLoop_of_none h]
        exact hb
      · by_cases hMore : 0 < remaining'
        · rw [qtdAddLoop_of_more h hMore]
          exact ih (hb.alloc h)
        · rw [qtdAddLoop_of_done h hMore]
          exact hb.alloc h

theorem Built.add {va2pa : Nat → Nat} {token maxpacksz : Nat} {buf : Option Nat} {size dt : Nat}
    (hb : Built cfg s₀ held s list) :
    Built cfg s₀ held (qtdAdd va2pa s list token maxpacksz buf size dt).1
      (qtdAdd va2pa s list token maxpacksz buf size dt).2.1 :=
  hb.addLoop

/-- The failure path of a stage pools the qTDs built: the holding is back to
`held`, the records still held keep their queue heads, and of the transfers
only the ring of `t` changed. -/
theorem Built.fail (hb : Built cfg s₀ held s list) (t : Nat) :
    let s' := (stageFail cfg s t list).1
    QtdsHeld s'.qtdOwners held ∧ PoolBound cfg s'.qtdOwners ∧
      (∀ x ∈ held, (s'.qtds x).qh = (s₀.qtds x).qh) ∧ s'.qhOwners = s₀.qhOwners ∧
      s'.transfers = s₀.transfers ∧ ∀ t' ≠ t, s'.trs t' = s₀.trs t' := by
  obtain ⟨h1, h2, h3⟩ := qtdsPut_held list hb.holds hb.bound
  obtain ⟨qtds, pool, n, hPut⟩ := @qtdsPut_eq cfg s list
  obtain ⟨qtds', c, pool', n', mem, rfl⟩ := hb.frame
  refine ⟨h1, ⟨h2.1, h2.2⟩, fun x hx => ?_, ?_, ?_, fun t' ht' => ?_⟩
  · simp only [stageFail, Hcd.modifyTr_qtds, h3, if_neg (hb.holds.not_mem_of_mem hx)]
    exact hb.qh x
  · simp only [stageFail, hPut]
    rfl
  · simp only [stageFail, hPut, Hcd.modifyTr_transfers]
  · simp only [stageFail, hPut, Hcd.modifyTr_trs, Function.update_noteq ht']

end Pool

section Transport

variable {cfg : Config} {pipeOf : Nat → Nat} {s s' : Hcd}

/-- A transfer out of flight may be resubmitted on any pipe. -/
theorem Owned.update_pipeOf (h : Owned cfg pipeOf s) {t : Nat} (ht : t ∉ s.transfers)
    (pipe : Nat) : Owned cfg (Function.update pipeOf t pipe) s := by
  refine ⟨h.qhs, { h.qtds with ring_qh := fun x hx => ?_ }⟩
  rw [Function.update_noteq (fun hxt : x = t => ht (by rwa [hxt] at hx))]
  exact h.qtds.ring_qh x hx

/-- A change to the qTD records that keeps the in-flight transfers, their
rings and the queue heads of the records they hold keeps the invariant, once
the holding is rebuilt. -/
theorem Owned.of_held (h : Owned cfg pipeOf s)
    (hHeld : QtdsHeld s'.qtdOwners s.qtdOwners.inFlight) (hB : PoolBound cfg s'.qtdOwners)
    (hQh : ∀ x ∈ s.qtdOwners.inFlight, (s'.qtds x).qh = (s.qtds x).qh)
    (hQhs : s'.qhOwners = s.qhOwners) (hTransfers : s'.transfers = s.transfers)
    (hTrs : ∀ t ∈ s.transfers, (s'.trs t).hcdpriv = (s.trs t).hcdpriv) : Owned cfg pipeOf s' := by
  have hIn : s'.qtdOwners.inFlight = s.qtdOwners.inFlight := by
    simp only [QtdOwners.inFlight, Hcd.qtdOwners, hTransfers]
    exact List.flatMap_congr hTrs
  have hRing : ∀ t ∈ s.transfers, ∀ q ∈ (s.trs t).hcdpriv, q ∈ s.qtdOwners.inFlight :=
    fun t ht q hq => List.mem_flatMap.2 ⟨t, ht, hq⟩
  refine ⟨hQhs ▸ h.qhs, ⟨hIn ▸ hHeld, hB, ?_, fun t ht => ?_, fun t ht => ?_⟩⟩
  · simpa only [Hcd.qtdOwners, hTransfers] using h.qtds.transfers_nodup
  · simp only [Hcd.qtdOwners, hTransfers] at ht ⊢
    rw [hTrs t ht]
    exact h.qtds.ring_ne_nil t ht
  · simp only [Hcd.qtdOwners, hTransfers] at ht ⊢
    obtain ⟨qh, hPipe, hAll⟩ := h.qtds.ring_qh t ht
    refine ⟨qh, hQhs ▸ hPipe, fun q hq => ?_⟩
    rw [hTrs t ht] at hq
    rw [hQh q (hRing t ht q hq)]
    exact hAll q hq

end Transport

section Submit

variable {cfg : Config} {va2pa : Nat → Nat} {s : Hcd} {held : List Nat} {t : Nat}

/-- What the stages of `ehci_transferEnqueue` return: `-ENOMEM` from the
failure path of a stage, or every qTD built. -/
def StageResult (cfg : Config) (s : Hcd) (held : List Nat) (t : Nat)
    (r : Hcd × List Nat × Int) : Prop :=
  (∃ s' list, Built cfg s held s' list ∧ r = stageFail cfg s' t list) ∨
    (Built cfg s held r.1 r.2.1 ∧ ¬r.2.2 < 0)

theorem stageResult_of_stage {r k : Hcd × List Nat × Int} (hr : Built cfg s held r.1 r.2.1)
    (hk : ¬r.2.2 < 0 → StageResult cfg s held t k) :
    StageResult cfg s held t (if r.2.2 < 0 then stageFail cfg r.1 t r.2.1 else k) := by
  split
  · exact Or.inl ⟨_, _, hr, rfl⟩
  · exact hk ‹_›

theorem Built.ite {c : Prop} [Decidable c] {r : Hcd × List Nat × Int} {token maxpacksz : Nat}
    {buf : Option Nat} {size dt : Nat} (hr : Built cfg s held r.1 r.2.1) :
    Built cfg s held (if c then qtdAdd va2pa r.1 r.2.1 token maxpacksz buf size dt else r).1
      (if c then qtdAdd va2pa r.1 r.2.1 token maxpacksz buf size dt else r).2.1 := by
  split
  · exact hr.add
  · exact hr

/-- The SETUP, data and status stages end in `-ENOMEM` after a failure path,
or with every qTD they built held by the list they return. -/
theorem transferQtds_stages (p : Pipe) (hHeld : QtdsHeld s.qtdOwners held)
    (hB : PoolBound cfg s.qtdOwners) : StageResult cfg s held t (transferQtds cfg va2pa s t p) := by
  have h0 : Built cfg s held (s, ([] : List Nat), (0 : Int)).1 (s, ([] : List Nat), (0 : Int)).2.1 :=
    Built.start hHeld hB
  unfold transferQtds
  dsimp only
  exact stageResult_of_stage (Built.ite h0) fun _ =>
    stageResult_of_stage (Built.ite (Built.ite h0)) fun _ =>
      stageResult_of_stage (Built.ite (Built.ite (Built.ite h0))) fun h =>
        Or.inr ⟨Built.ite (Built.ite (Built.ite h0)), h⟩

end Submit

section Qhs

variable {cfg : Config} {v v' : QhOwners} {pipe q : Nat}

/-- Handing a pipe that holds no queue head either the head of the pool or a
new record keeps every queue head held once. -/
theorem QhsOwned.assign (h : QhsOwned cfg v) (hFree : v.pipeQhs pipe = none)
    (hAsync : v'.asyncList = v.asyncList)
    (hPipes : ∀ p, v'.pipeQhs p = if p = pipe then some q else v.pipeQhs p)
    (hLive : ∀ x, v'.qhLive x = if x = q then true else v.qhLive x)
    (hCase : (v.qhPool = q :: v'.qhPool ∧ v'.qhCount = v.qhCount) ∨
      (v.qhPool = [] ∧ v'.qhPool = [] ∧ q = v.qhCount ∧ v'.qhCount = v.qhCount + 1))
    (hN : v'.nqhs = v'.qhPool.length) : QhsOwned cfg v' := by
  -- what both sources of `q` give: a record no pipe holds, outside the new pool
  obtain ⟨hqc, hqA, hqP, hCount, hOld, hPoolSub, hPoolKeep, hNodup, hLe⟩ :
      q < v'.qhCount ∧ q ≠ v.asyncList ∧ (∀ p, v.pipeQhs p ≠ some q) ∧
      (∀ x < v.qhCount, x < v'.qhCount) ∧ (∀ x < v'.qhCount, x ≠ q → x < v.qhCount) ∧
      (∀ x ∈ v'.qhPool, x ∈ v.qhPool ∧ x ≠ q) ∧ (∀ x ∈ v.qhPool, x ≠ q → x ∈ v'.qhPool) ∧
      v'.qhPool.Nodup ∧ v'.qhPool.length ≤ cfg.maxQhPool := by
    have hLe := h.qhPool_le
    rcases hCase with ⟨hPool, hCount⟩ | ⟨hPool, hPool', rfl, hCount⟩
    · -- the head of the pool
      obtain ⟨hqc, -, hqA, hqP⟩ := h.qhPool_free q (hPool ▸ List.mem_cons_self q _)
      obtain ⟨hqNot, hRestNodup⟩ := List.nodup_cons.1 (hPool ▸ h.qhPool_nodup)
      rw [hPool, List.length_cons] at hLe
      refine ⟨hCount ▸ hqc, hqA, hqP, fun x hx => hCount ▸ hx, fun x hx _ => hCount ▸ hx,
        fun x hx => ⟨hPool ▸ List.mem_cons_of_mem q hx, fun e => hqNot (e ▸ hx)⟩,
        fun x hx hxq => ?_, hRestNodup, by omega⟩
      rw [hPool] at hx
      exact (List.mem_cons.1 hx).resolve_left hxq
    · -- a new record
      have := h.async_lt
      exact ⟨by omega, by omega, fun p hp => Nat.lt_irrefl _ (h.pipe_qh p _ hp).1,
        fun x _ => by omega, fun x _ _ => by omega, by simp [hPool'], by simp [hPool],
        by simp [hPool'], by simp [hPool']⟩
  refine ⟨by rw [hAsync]; exact hCount _ h.async_lt, hNodup, fun x hx => ?_, fun p x hpx => ?_,
    fun x hx hLx hxA => ?_, hN, hLe⟩
  · obtain ⟨hxOld, hxq⟩ := hPoolSub x hx
    obtain ⟨h1, h2, h3, h4⟩ := h.qhPool_free x hxOld
    refine ⟨hCount _ h1, by rw [hLive, if_neg hxq]; exact h2, hAsync ▸ h3, fun p => ?_⟩
    rw [hPipes]
    split
    · simpa using hxq.symm
    · exact h4 p
  · rw [hPipes] at hpx
    split at hpx
    · obtain rfl := Option.some.inj hpx
      refine ⟨hqc, by simp [hLive], hAsync ▸ hqA, fun p' hp' => ?_⟩
      rw [hPipes] at hp'
      split at hp'
      · subst_vars
        rfl
      · exact absurd hp' (hqP p')
    · obtain ⟨h1, h2, h3, h4⟩ := h.pipe_qh p x hpx
      have hxq : x ≠ q := fun e => hqP p (e ▸ hpx)
      refine ⟨hCount _ h1, by rw [hLive, if_neg hxq]; exact h2, hAsync ▸ h3, fun p' hp' => ?_⟩
      rw [hPipes] at hp'
      split at hp'
      · exact absurd (Option.some.inj hp').symm hxq
      · exact h4 p' hp'
  · by_cases hxq : x = q
    · exact Or.inr ⟨pipe, by simp [hPipes, hxq]⟩
    rw [hLive, if_neg hxq] at hLx
    rcases h.qh_held x (hOld x hx hxq) hLx (hAsync ▸ hxA) with hIn | ⟨p, hp⟩
    · exact Or.inl (hPoolKeep x hIn hxq)
    · have hpp : p ≠ pipe := fun e => by simp [e, hFree] at hp
      exact Or.inr ⟨p, by rw [hPipes, if_neg hpp, hp]⟩

/-- What `ehci_qhAlloc` changes: the queue head it returns is live, and it
came off the head of the pool or is a new record. -/
theorem qhAlloc_cases {s s₁ : Hcd} (h : qhAlloc s = some (s₁, q)) :
    s₁.qtdOwners = s.qtdOwners ∧ s₁.pipes = s.pipes ∧ s₁.asyncList = s.asyncList ∧
      (∀ x, (s₁.qhs x).live = if x = q then true else (s.qhs x).live) ∧
      ((s.qhPool = q :: s₁.qhPool ∧ s₁.qhCount = s.qhCount ∧ s₁.nqhs = s.nqhs - 1) ∨
        (s.qhPool = [] ∧ s₁.qhPool = [] ∧ q = s.qhCount ∧ s₁.qhCount = s.qhCount + 1 ∧
          s₁.nqhs = s.nqhs)) := by
  obtain ⟨qhs, hEq, -, hLive, hCase⟩ := qhAlloc_eq h
  refine ⟨by rw [hEq]; rfl, by rw [hEq], by rw [hEq], fun x => ?_,
    hCase.imp (fun h => ⟨h.1, h.2.1, h.2.2.1⟩) fun h => ⟨h.1, h.2.1, h.2.2.1, h.2.2.2.1, h.2.2.2.2.1⟩⟩
  rw [hEq]
  by_cases hx : x = q
  · subst hx
    simp [qhFresh]
  · simp [Function.update_noteq hx, hx, hLive]

/-- The queue head `ehci_transferEnqueue` finds or makes for a pipe is held
by that pipe, and the qTD records are untouched. -/
theorem pipeQh_owned {pipeOf : Nat → Nat} {s s' : Hcd} {tr : Transfer} {qh : Nat}
    (hOwned : Owned cfg pipeOf s) (h : pipeQh cfg s tr pipe = some (s', qh)) :
    Owned cfg pipeOf s' ∧ (s'.pipes pipe).hcdpriv = some qh ∧ s'.qtdOwners = s.qtdOwners := by
  unfold pipeQh at h
  dsimp only at h
  cases hNone : (s.pipes pipe).hcdpriv with
  | none =>
    simp only [hNone] at h
    split at h
    · cases h
    rename_i s₁ q₁ hAlloc
    simp only [Option.some.injEq, Prod.mk.injEq] at h
    obtain ⟨rfl, rfl⟩ := h
    obtain ⟨hQtd, hPipes, hAsync, hLive, hCase⟩ := qhAlloc_cases hAlloc
    set s₃ := (s₁.modifyQh q₁ fun x => qhConf x (s.pipes pipe)).modifyPipe pipe
      fun x => { x with hcdpriv := some q₁ } with hs₃
    have hLink : ∀ (b : Prop) [Decidable b],
        (if b then qhLinkAsync s₃ q₁ else qhLinkPeriodic cfg.periodicSize s₃ q₁).owners =
          s₃.owners := fun b _ => by
      split
      · exact owners_qhLinkAsync
      · exact owners_qhLinkPeriodic _
    have hPipe₃ : ∀ p, (s₃.pipes p).hcdpriv = if p = pipe then some q₁ else (s.pipes p).hcdpriv :=
      fun p => by by_cases hp : p = pipe <;> simp [hs₃, hp, hPipes]
    have hOwned₃ : Owned cfg pipeOf s₃ := by
      refine ⟨hOwned.qhs.assign hNone hAsync hPipe₃ (fun x => ?_) ?_ ?_, ?_⟩
      · by_cases hx : x = q₁ <;> simp [Hcd.qhOwners, hs₃, hx, qhConf, hLive]
      · exact hCase.imp (fun h => ⟨h.1, h.2.1⟩) (fun h => ⟨h.1, h.2.1, h.2.2.1, h.2.2.2.1⟩)
      · have hN := hOwned.qhs.nqhs_eq
        show s₁.nqhs = s₁.qhPool.length
        simp only [Hcd.qhOwners] at hN
        rcases hCase with ⟨hP, -, hn⟩ | ⟨hP, hP', -, -, hn⟩
        · rw [hn, hN, hP, List.length_cons, Nat.add_sub_cancel]
        · rw [hn, hN, hP, hP']
      · rw [show s₃.qtdOwners = s.qtdOwners from hQtd]
        refine { hOwned.qtds with ring_qh := fun t ht => ?_ }
        obtain ⟨qh', hp, hAll⟩ := hOwned.qtds.ring_qh t ht
        have hne : pipeOf t ≠ pipe := fun e => by simp [Hcd.qhOwners, e, hNone] at hp
        exact ⟨qh', by simpa only [Hcd.qhOwners, hPipe₃, if_neg hne] using hp, hAll⟩
    have hp := congrArg (fun o => o.1.pipeQhs pipe) (hLink (tr.type = .bulk ∨ tr.type = .control))
    simp only [Hcd.owners, Hcd.qhOwners] at hp
    exact ⟨hOwned₃.of_owners (hLink _), by rw [hp, hPipe₃, if_pos rfl],
      (congrArg Prod.snd (hLink _)).trans hQtd⟩
  | some q₀ =>
    simp only [hNone, Option.some.injEq, Prod.mk.injEq] at h
    obtain ⟨hs', rfl⟩ := h
    have hOw : s'.owners = s.owners := by
      rw [← hs']
      simp only [owners_ite_modifyQh, implies_true]
    have hp := congrArg (fun o => o.1.pipeQhs pipe) hOw
    simp only [Hcd.owners, Hcd.qhOwners, hNone] at hp
    exact ⟨hOwned.of_owners hOw, hp, congrArg Prod.snd hOw⟩

/-- Taking a queue head from its pipe back to the pool, first freeing the
oldest pooled one when the pool is at its cap, keeps every queue head held
once. -/
theorem QhsOwned.release (h : QhsOwned cfg v) (hHeld : v.pipeQhs pipe = some q)
    (hCount : v'.qhCount = v.qhCount) (hAsync : v'.asyncList = v.asyncList)
    (hPipes : ∀ p, v'.pipeQhs p = if p = pipe then none else v.pipeQhs p)
    (hCase : (v.nqhs < cfg.maxQhPool ∧ v'.qhPool = v.qhPool ++ [q] ∧
        ∀ x, v'.qhLive x = v.qhLive x) ∨
      (∃ e rest, v.qhPool = e :: rest ∧ v'.qhPool = rest ++ [q] ∧
        ∀ x, v'.qhLive x = if x = e then false else v.qhLive x))
    (hN : v'.nqhs = v'.qhPool.length) : QhsOwned cfg v' := by
  obtain ⟨hqc, hqL, hqA, hqU⟩ := h.pipe_qh pipe q hHeld
  have hqPool : q ∉ v.qhPool := fun hq => (h.qhPool_free q hq).2.2.2 pipe hHeld
  -- a queue head another pipe holds stays held, and is neither pooled nor evicted
  have hOther : ∀ p x, v'.pipeQhs p = some x → p ≠ pipe ∧ v.pipeQhs p = some x ∧ x ≠ q := by
    intro p x hp
    rw [hPipes] at hp
    split at hp
    · cases hp
    · exact ⟨‹_›, hp, fun e => ‹¬p = pipe› (hqU p (e ▸ hp))⟩
  -- both cases append `q` to a part `P` of the pool, freeing the `dead` rest
  obtain ⟨P, dead, hPool', hPoolOld, hPNodup, hqP, hLive, hDead, hDeadPool, hPoolKeep, hLe⟩ :
      ∃ (P : List Nat) (dead : Nat → Prop), v'.qhPool = P ++ [q] ∧ (∀ x ∈ P, x ∈ v.qhPool) ∧
        P.Nodup ∧ q ∉ P ∧ (∀ x, ¬dead x → v'.qhLive x = v.qhLive x) ∧
        (∀ x, dead x → v'.qhLive x = false) ∧ (∀ x, dead x → x ∈ v.qhPool ∧ x ∉ P) ∧
        (∀ x ∈ v.qhPool, ¬dead x → x ∈ P) ∧ P.length < cfg.maxQhPool := by
    have hLe := h.qhPool_le
    have hNq := h.nqhs_eq
    rcases hCase with ⟨hRoom, hPool, hLive⟩ | ⟨e, rest, hPool, hPool', hLive⟩
    · -- room in the pool
      exact ⟨v.qhPool, fun _ => False, hPool, fun _ => id, h.qhPool_nodup, hqPool,
        fun x _ => hLive x, fun _ => False.elim, fun _ => False.elim, fun _ hx _ => hx, by omega⟩
    · -- the pool is at its cap: its oldest queue head is freed
      obtain ⟨heNot, hRestNodup⟩ := List.nodup_cons.1 (hPool ▸ h.qhPool_nodup)
      rw [hPool, List.length_cons] at hLe
      refine ⟨rest, (· = e), hPool', fun x hx => hPool ▸ List.mem_cons_of_mem e hx, hRestNodup,
        fun hq => hqPool (hPool ▸ List.mem_cons_of_mem e hq), fun x hx => by rw [hLive, if_neg hx],
        fun x hx => by rw [hLive, if_pos hx], fun x hx => ⟨hx ▸ hPool ▸ List.mem_cons_self e rest,
        hx ▸ heNot⟩, fun x hx hxe => ?_, by omega⟩
      rw [hPool] at hx
      exact (List.mem_cons.1 hx).resolve_left hxe
  have hNoPipe : ∀ x, dead x → ∀ p, v.pipeQhs p ≠ some x :=
    fun x hx => (h.qhPool_free x (hDeadPool x hx).1).2.2.2
  refine ⟨hAsync ▸ hCount ▸ h.async_lt,
    hPool' ▸ List.nodup_append.2 ⟨hPNodup, List.nodup_singleton q, List.disjoint_singleton.2 hqP⟩,
    fun x hx => ?_, fun p x hp => ?_, fun x hx hLx hxA => ?_, hN,
    by rw [hPool', List.length_append, List.length_singleton]; omega⟩
  · rw [hPool', List.mem_append, List.mem_singleton] at hx
    rcases hx with hx | rfl
    · obtain ⟨h1, h2, h3, h4⟩ := h.qhPool_free x (hPoolOld x hx)
      have hxd : ¬dead x := fun hd => (hDeadPool x hd).2 hx
      exact ⟨hCount ▸ h1, (hLive x hxd).trans h2, hAsync ▸ h3,
        fun p hp => h4 p (hOther p x hp).2.1⟩
    · have hxd : ¬dead x := fun hd => hqPool (hDeadPool x hd).1
      exact ⟨hCount ▸ hqc, (hLive x hxd).trans hqL, hAsync ▸ hqA,
        fun p hp => (hOther p x hp).2.2 rfl⟩
  · obtain ⟨-, hp', -⟩ := hOther p x hp
    obtain ⟨h1, h2, h3, h4⟩ := h.pipe_qh p x hp'
    have hxd : ¬dead x := fun hd => hNoPipe x hd p hp'
    exact ⟨hCount ▸ h1, (hLive x hxd).trans h2, hAsync ▸ h3,
      fun p' hp'' => h4 p' (hOther p' x hp'').2.1⟩
  · have hxd : ¬dead x := fun hd => by rw [hDead x hd] at hLx; cases hLx
    rw [hLive x hxd] at hLx
    by_cases hxq : x = q
    · exact Or.inl (by simp [hPool', hxq])
    rcases h.qh_held x (hCount ▸ hx) hLx (hAsync ▸ hxA) with hIn | ⟨p, hp⟩
    · exact Or.inl (by simp [hPool', hPoolKeep x hIn hxd])
    · have hpp : p ≠ pipe := fun e => hxq (by subst e; rw [hHeld] at hp; exact (Option.some.inj hp).symm)
      exact Or.inr ⟨p, by rw [hPipes, if_neg hpp, hp]⟩

/-- What `ehci_qhPut` changes: with the pool's counter right, it appends the
queue head, after freeing the oldest pooled one when the pool is at its cap. -/
theorem qhPut_cases {s : Hcd} (hN : s.nqhs = s.qhPool.length) :
    (qhPut cfg s q).qtdOwners = s.qtdOwners ∧ (qhPut cfg s q).pipes = s.pipes ∧
      (qhPut cfg s q).qhCount = s.qhCount ∧ (qhPut cfg s q).asyncList = s.asyncList ∧
      (qhPut cfg s q).nqhs = (qhPut cfg s q).qhPool.length ∧
      ((s.nqhs < cfg.maxQhPool ∧ (qhPut cfg s q).qhPool = s.qhPool ++ [q] ∧
          ∀ x, ((qhPut cfg s q).qhs x).live = (s.qhs x).live) ∨
        (∃ e rest, s.qhPool = e :: rest ∧ (qhPut cfg s q).qhPool = rest ++ [q] ∧
          ∀ x, ((qhPut cfg s q).qhs x).live = if x = e then false else (s.qhs x).live)) := by
  unfold qhPut
  dsimp only
  by_cases hFull : cfg.maxQhPool ≤ s.nqhs
  · rw [if_pos hFull]
    cases hPool : s.qhPool with
    | nil =>
        have := cfg.maxQhPool_pos
        rw [hPool, List.length_nil] at hN
        omega
    | cons e rest =>
        rw [hPool, List.length_cons] at hN
        dsimp only
        obtain ⟨qhs₁, hEq, -⟩ := qhPoolRemove_eq s e rest
        have hLive₁ := qhPoolRemove_live s e rest
        rw [hEq] at hLive₁ ⊢
        obtain ⟨qhs₂, hEq₂, -⟩ := qhPoolAdd_eq
          { ({ s with qhs := qhs₁, qhPool := rest } : Hcd).modifyQh e (fun x => { x with live := false }) with
            nqhs := s.nqhs - 1 } q
        have hLive₂ := qhPoolAdd_live
          { ({ s with qhs := qhs₁, qhPool := rest } : Hcd).modifyQh e (fun x => { x with live := false }) with
            nqhs := s.nqhs - 1 } q
        rw [hEq₂] at hLive₂ ⊢
        refine ⟨rfl, rfl, rfl, rfl, by simp [hN], Or.inr ⟨e, rest, rfl, rfl, fun x => ?_⟩⟩
        rw [hLive₂ x]
        by_cases hx : x = e
        · subst hx
          simp
        · simp only [Hcd.modifyQh_qhs, Function.update_noteq hx, if_neg hx]
          exact hLive₁ x
  · rw [if_neg hFull]
    obtain ⟨qhs₂, hEq₂, -⟩ := qhPoolAdd_eq s q
    have hLive₂ := qhPoolAdd_live s q
    rw [hEq₂] at hLive₂ ⊢
    exact ⟨rfl, rfl, rfl, rfl, by simp [hN], Or.inl ⟨by omega, rfl, hLive₂⟩⟩

end Qhs

section Enqueue

variable {cfg : Config} {va2pa : Nat → Nat} {pipeOf : Nat → Nat}

/-- The linking loop writes only the hardware next pointers and queue heads
of the ring's qTDs, and gives each of them the queue head. -/
theorem qtdsLink_spec (qh first : Nat) : ∀ (s : Hcd) (L : List Nat),
    (∃ qtds, qtdsLink s qh first L = { s with qtds := qtds }) ∧
      ∀ x, ((qtdsLink s qh first L).qtds x).live = (s.qtds x).live ∧
        ((qtdsLink s qh first L).qtds x).qh = if x ∈ L then some qh else (s.qtds x).qh
  | s, [] => ⟨⟨s.qtds, rfl⟩, fun x => by simp [qtdsLink]⟩
  | s, [q] => ⟨⟨_, rfl⟩, fun x => by by_cases hx : x = q <;> simp [qtdsLink, qtdLink, hx]⟩
  | s, q :: q' :: rest => by
      obtain ⟨⟨qtds, hEq⟩, hAll⟩ := qtdsLink_spec qh first
        ((qtdLink s q q').modifyQtd q fun x => { x with qh := some qh }) (q' :: rest)
      refine ⟨⟨qtds, by rw [qtdsLink, hEq]; rfl⟩, fun x => ?_⟩
      rw [qtdsLink, (hAll x).1, (hAll x).2]
      by_cases hx : x = q <;> simp [qtdLink, hx]

/-- A transfer built and linked on its pipe's queue head joins the in-flight
list holding its qTDs. -/
theorem Owned.submit {s s' : Hcd} {t pipe qh first : Nat} {L : List Nat}
    (h : Owned cfg pipeOf s) (hb : Built cfg s s.qtdOwners.inFlight s' L) (ht : t ∉ s.transfers)
    (hPipe : (s.pipes pipe).hcdpriv = some qh) (hL : L ≠ []) :
    let s'' := qtdsLink (s'.modifyTr t fun x => { x with hcdpriv := L }) qh first L
    Owned cfg (Function.update pipeOf t pipe) { s'' with transfers := s''.transfers ++ [t] } := by
  intro s''
  obtain ⟨⟨qtds, hLinkEq⟩, hLink⟩ := qtdsLink_spec qh first
    (s'.modifyTr t fun x => { x with hcdpriv := L }) L
  have hHeld := hb.holds
  have hQh := hb.qh
  have hB := hb.bound
  obtain ⟨qtds', c, pool, n, mem, rfl⟩ := hb.frame
  rw [hLinkEq] at hLink
  simp only [Hcd.modifyTr_qtds] at hLink hQh
  have hV : ({ s'' with transfers := s''.transfers ++ [t] } : Hcd).qtdOwners =
      { qtdCount := c, qtdLive := fun x => (qtds' x).live,
        qtdQh := fun x => if x ∈ L then some qh else (s.qtds x).qh, qtdPool := pool, nqtds := n,
        transfers := s.transfers ++ [t], rings := fun x => if x = t then L else (s.trs x).hcdpriv } := by
    simp only [s'', hLinkEq, Hcd.qtdOwners, Hcd.modifyTr, Function.update_apply,
      QtdOwners.mk.injEq, true_and]
    refine ⟨funext fun x => (hLink x).1, funext fun x => by rw [(hLink x).2, hQh], ?_⟩
    funext x
    split <;> simp_all
  have hRings : ∀ x ∈ s.transfers, (if x = t then L else (s.trs x).hcdpriv) = (s.trs x).hcdpriv :=
    fun x hx => if_neg fun e : x = t => ht (by rwa [e] at hx)
  have hIn : (s.transfers ++ [t]).flatMap
      (fun x => if x = t then L else (s.trs x).hcdpriv) = s.qtdOwners.inFlight ++ L := by
    rw [List.flatMap_append, List.flatMap_congr hRings]
    simp [QtdOwners.inFlight, Hcd.qtdOwners]
  have hQ : ({ s'' with transfers := s''.transfers ++ [t] } : Hcd).qhOwners = s.qhOwners := by
    simp only [s'', hLinkEq]
    rfl
  refine ⟨hQ ▸ h.qhs, ?_⟩
  rw [hQ, hV]
  refine ⟨fun q => ?_, ⟨hB.1, hB.2⟩, ?_, fun x hx => ?_, fun x hx => ?_⟩
  · simp only [QtdOwners.inFlight, hIn]
    exact hHeld q
  · exact List.nodup_append.2 ⟨h.qtds.transfers_nodup, List.nodup_singleton t,
      List.disjoint_singleton.2 ht⟩
  · dsimp only at hx ⊢
    split
    · exact hL
    · exact h.qtds.ring_ne_nil x ((List.mem_append.1 hx).resolve_right (by simpa using ‹¬x = t›))
  · dsimp only at hx ⊢
    by_cases hxt : x = t
    · subst hxt
      exact ⟨qh, by simpa [Hcd.qhOwners] using hPipe, fun q hq => if_pos (by simpa using hq)⟩
    · have hx' : x ∈ s.transfers := (List.mem_append.1 hx).resolve_right (by simpa using hxt)
      obtain ⟨qh', hp, hAll⟩ := h.qtds.ring_qh x hx'
      refine ⟨qh', by rwa [Function.update_noteq hxt], fun q hq => ?_⟩
      rw [if_neg hxt] at hq
      rw [if_neg (hHeld.not_mem_of_mem (List.mem_flatMap.2 ⟨x, hx', hq⟩))]
      exact hAll q hq

/-- `ehci_transferEnqueue` keeps the invariant, whether it succeeds or fails
at any stage. -/
theorem transferEnqueue_owned {s : Hcd} {t pipe : Nat} (h : Owned cfg pipeOf s)
    (ht : t ∉ s.transfers) :
    Owned cfg (Function.update pipeOf t pipe) (transferEnqueue cfg va2pa s t pipe).1 := by
  unfold transferEnqueue
  split
  · exact h.update_pipeOf ht pipe
  split
  · exact h.update_pipeOf ht pipe
  rename_i s₁ qh hQh
  obtain ⟨h₁, hPipe, hQtd⟩ := pipeQh_owned h hQh
  have ht₁ : t ∉ s₁.transfers := by
    have := congrArg QtdOwners.transfers hQtd
    simp only [Hcd.qtdOwners] at this
    rwa [this]
  dsimp only
  rcases @transferQtds_stages cfg va2pa s₁ _ t (s₁.pipes pipe) h₁.qtds.qtds_held
    h₁.qtds.bound with ⟨s', L, hb, hEq⟩ | ⟨hb, hOk⟩
  · -- `-ENOMEM` from a stage
    have hNeg : (stageFail cfg s' t L).2.2 < 0 := by simp [stageFail, eNomem]
    rw [hEq, if_pos hNeg]
    obtain ⟨hH, hB, hQh', hQhs, hTr, hTrs⟩ := hb.fail t
    refine (h₁.of_held hH hB hQh' hQhs hTr fun t' ht' => ?_).update_pipeOf ?_ pipe
    · rw [hTrs t' fun e => ht₁ (by rwa [e] at ht')]
    · rw [show (stageFail cfg s' t L).1.transfers = s₁.transfers from hTr]
      exact ht₁
  rw [if_neg hOk]
  obtain ⟨qtds, c, pool, n, mem, hFrame⟩ := hb.frame
  split
  · -- no qTD at all
    rename_i hNil
    have hHeld := hb.holds
    rw [hNil, List.append_nil] at hHeld
    refine (h₁.of_held hHeld hb.bound (fun x _ => hb.qh x) ?_ ?_ fun t' _ => ?_).update_pipeOf
      ?_ pipe
    all_goals rw [hFrame]
    all_goals first | rfl | exact ht₁
  · -- the ring is linked behind the queue head
    rename_i first rest hCons
    have hb' := hb
    rw [hCons] at hb'
    exact (Owned.submit h₁ hb' ht₁ hPipe (List.cons_ne_nil _ _)).of_owners (owners_enqueue _ _)

end Enqueue

section Reaper

variable {cfg : Config} {pipeOf : Nat → Nat}

/-- Taking an in-flight transfer out of the list with its ring pooled keeps
the invariant: the other transfers keep their rings and queue heads. -/
theorem Owned.retire {s : Hcd} {t : Nat} (h : Owned cfg pipeOf s) (ht : t ∈ s.transfers)
    (fin : List (Nat × Int)) :
    let s' := qtdsPut cfg s (s.trs t).hcdpriv
    Owned cfg pipeOf { ({ s' with transfers := s'.transfers.erase t }).modifyTr t
      (fun x => { x with hcdpriv := [] }) with finished := fin } := by
  intro s'
  have hNodup := h.qtds.transfers_nodup
  have hHeld : QtdsHeld s.qtdOwners
      ((s.transfers.erase t).flatMap (fun x => (s.trs x).hcdpriv) ++ (s.trs t).hcdpriv) :=
    h.qtds.qtds_held.congr fun q => by
      show _ = List.count q (s.transfers.flatMap fun x => (s.trs x).hcdpriv)
      rw [((List.perm_cons_erase ht).flatMap_right _).count_eq, List.flatMap_cons,
        List.count_append, List.count_append, Nat.add_comm]
  obtain ⟨h1, h2, h3⟩ := qtdsPut_held (s.trs t).hcdpriv hHeld h.qtds.bound
  obtain ⟨qtds, pool, n, hPut⟩ := @qtdsPut_eq cfg s (s.trs t).hcdpriv
  rw [hPut] at h1 h2 h3
  dsimp only at h3
  simp only [s', hPut]
  have hRings : ∀ x ∈ s.transfers.erase t,
      (Function.update s.trs t { s.trs t with hcdpriv := [] } x).hcdpriv = (s.trs x).hcdpriv :=
    fun x hx => by rw [Function.update_noteq (hNodup.mem_erase_iff.1 hx).1]
  refine ⟨h.qhs, ⟨?_, ⟨h2.1, h2.2⟩, hNodup.erase t, fun x hx => ?_, fun x hx => ?_⟩⟩
  · simp only [QtdsHeld, QtdOwners.inFlight, Hcd.qtdOwners, Hcd.modifyTr,
      List.flatMap_congr hRings] at h1 ⊢
    exact h1
  · simp only [Hcd.qtdOwners, Hcd.modifyTr] at hx ⊢
    rw [hRings x hx]
    exact h.qtds.ring_ne_nil x (List.mem_of_mem_erase hx)
  · simp only [Hcd.qtdOwners, Hcd.qhOwners, Hcd.modifyTr] at hx ⊢
    obtain ⟨qh, hp, hAll⟩ := h.qtds.ring_qh x (List.mem_of_mem_erase hx)
    refine ⟨qh, hp, fun q hq => ?_⟩
    rw [hRings x hx] at hq
    rw [h3, if_neg (hHeld.not_mem_of_mem (List.mem_flatMap.2 ⟨x, hx, hq⟩))]
    exact hAll q hq

/-- One reaping keeps the invariant. -/
theorem reap_owned {s : Hcd} {t : Nat} (h : Owned cfg pipeOf s) (ht : t ∈ s.transfers)
    (status : Int) : Owned cfg pipeOf (reap cfg s t status) := by
  obtain ⟨qhs, hCont⟩ := @continueAfter_eq s t
  have h₁ : Owned cfg pipeOf (continueAfter s t) := h.of_owners (owners_continueAfter t)
  rw [hCont] at h₁
  unfold reap
  rw [hCont]
  exact h₁.retire ht _

/-- `ehci_transUpdate` keeps the invariant. -/
theorem transUpdate_owned {s : Hcd} (h : Owned cfg pipeOf s) :
    Owned cfg pipeOf (transUpdate cfg s) :=
  transUpdate_induction (Owned cfg pipeOf) (fun s t hs ht => by
    unfold reapIfFinished
    dsimp only
    split
    · exact reap_owned hs ht _
    · exact hs) h.qtds.transfers_nodup h

/-- `ehci_transferDequeue` keeps the invariant. -/
theorem transferDequeue_owned {s : Hcd} (h : Owned cfg pipeOf s) (t : Nat) :
    Owned cfg pipeOf (transferDequeue cfg s t) :=
  transUpdate_owned (h.of_owners (owners_qtdsDeactivate _))

end Reaper

section Destroy

variable {cfg : Config} {pipeOf : Nat → Nat}

/-- `ehci_qtdsDeactivate` clears the active bit of its ring and sets none. -/
theorem qtdsDeactivate_inactive : ∀ (s : Hcd) (ring : List Nat) (x : Nat),
    (x ∈ ring ∨ (s.qtds x).hw.token &&& qtdActive = 0) →
      ((qtdsDeactivate s ring).qtds x).hw.token &&& qtdActive = 0
  | _, [], x, h => h.resolve_left (List.not_mem_nil x)
  | s, q :: ring, x, h => by
      rw [qtdsDeactivate]
      refine qtdsDeactivate_inactive _ ring x ?_
      by_cases hx : x ∈ ring
      · exact Or.inl hx
      right
      by_cases hxq : x = q
      · subst hxq
        simp [clearBits_and_self]
      · simp only [Hcd.modifyQtd_qtds, Function.update_noteq hxq]
        exact h.resolve_left (by simp [hxq, hx])

/-- One pass of the loop of `ehci_pipeDestroy`: it deactivates some list of
qTDs, the transfer's whole ring when all of it is on `qh`. -/
theorem deactivateOn_cons (s : Hcd) (qh t : Nat) (ts : List Nat) :
    ∃ L, deactivateOn s qh (t :: ts) = deactivateOn (qtdsDeactivate s L) qh ts ∧
      ((s.trs t).hcdpriv ≠ [] → (∀ q ∈ (s.trs t).hcdpriv, (s.qtds q).qh = some qh) →
        L = (s.trs t).hcdpriv) := by
  rw [deactivateOn]
  split
  · rename_i q hHead
    split
    · exact ⟨_, rfl, fun _ _ => rfl⟩
    · rename_i hNe
      exact ⟨[], rfl, fun _ hAll => absurd (hAll q (List.mem_of_mem_head? hHead)) hNe⟩
  · rename_i hHead
    exact ⟨[], rfl, fun hne _ => absurd (List.head?_eq_none_iff.1 hHead) hne⟩

/-- After the loop of `ehci_pipeDestroy`, every qTD of a transfer wholly on
`qh` is inactive, and no qTD was activated. -/
theorem deactivateOn_inactive (qh : Nat) : ∀ (s : Hcd) (ts : List Nat) (x : Nat),
    ((∃ t ∈ ts, (s.trs t).hcdpriv ≠ [] ∧ x ∈ (s.trs t).hcdpriv ∧
        ∀ q ∈ (s.trs t).hcdpriv, (s.qtds q).qh = some qh) ∨
      (s.qtds x).hw.token &&& qtdActive = 0) →
      ((deactivateOn s qh ts).qtds x).hw.token &&& qtdActive = 0
  | _, [], x, h => h.resolve_left (by simp)
  | s, t :: ts, x, h => by
      obtain ⟨L, hEq, hL⟩ := deactivateOn_cons s qh t ts
      rw [hEq]
      have hOw := owners_qtdsDeactivate (s := s) L
      have hTr : ∀ t, ((qtdsDeactivate s L).trs t).hcdpriv = (s.trs t).hcdpriv :=
        fun t => congrArg (fun o => o.2.rings t) hOw
      have hQh : ∀ q, ((qtdsDeactivate s L).qtds q).qh = (s.qtds q).qh :=
        fun q => congrArg (fun o => o.2.qtdQh q) hOw
      refine deactivateOn_inactive qh _ ts x ?_
      rcases h with ⟨t', ht', hne, hx, hAll⟩ | hx
      · rcases List.mem_cons.1 ht' with rfl | ht'
        · exact Or.inr (qtdsDeactivate_inactive s L x (Or.inl (hL hne hAll ▸ hx)))
        · exact Or.inl ⟨t', ht', by rwa [hTr], by rwa [hTr],
            fun q hq => by rw [hQh]; exact hAll q (by rwa [hTr] at hq)⟩
      · exact Or.inr (qtdsDeactivate_inactive s L x (Or.inr hx))

theorem qhOwners_reap {s : Hcd} {t : Nat} (status : Int) :
    (reap cfg s t status).qhOwners = s.qhOwners := by
  obtain ⟨qtds, pool, n, hPut⟩ := @qtdsPut_eq cfg (continueAfter s t) (s.trs t).hcdpriv
  unfold reap
  rw [hPut]
  exact congrArg Prod.fst (owners_continueAfter t)

theorem qhOwners_transUpdate {s : Hcd} (hNodup : s.transfers.Nodup) :
    (transUpdate cfg s).qhOwners = s.qhOwners :=
  transUpdate_induction (fun x => x.qhOwners = s.qhOwners) (fun s' t hs _ => by
    unfold reapIfFinished
    dsimp only
    split
    · rw [qhOwners_reap]
      exact hs
    · exact hs) hNodup rfl

/-- The reaping in `ehci_pipeDestroy` leaves no transfer submitted on the
pipe in flight. -/
theorem destroyReap_clears {s : Hcd} {pipe qh : Nat} (h : Owned cfg pipeOf s)
    (hPipe : (s.pipes pipe).hcdpriv = some qh) :
    ∀ t ∈ (transUpdate cfg (deactivateOn s qh s.transfers)).transfers, pipeOf t ≠ pipe := by
  intro t ht hp
  have hOw := owners_deactivateOn (s := s) qh s.transfers
  have hTransfers : (deactivateOn s qh s.transfers).transfers = s.transfers :=
    congrArg (fun o => o.2.transfers) hOw
  have hRing : ((deactivateOn s qh s.transfers).trs t).hcdpriv = (s.trs t).hcdpriv :=
    congrArg (fun o => o.2.rings t) hOw
  have htIn : t ∈ s.transfers :=
    hTransfers ▸ (@transUpdate_mono cfg _).1.subset ht
  obtain ⟨qh', hp', hAll⟩ := h.qtds.ring_qh t htIn
  rw [hp] at hp'
  simp only [Hcd.qhOwners, hPipe, Option.some.injEq] at hp'
  subst hp'
  obtain ⟨last, hLast⟩ := Option.ne_none_iff_exists'.1
    (mt List.getLast?_eq_none_iff.1 (h.qtds.ring_ne_nil t htIn))
  have hDone := deactivateOn_inactive qh s s.transfers last (Or.inl ⟨t, htIn,
    h.qtds.ring_ne_nil t htIn, List.mem_of_getLast?_eq_some hLast, hAll⟩)
  have hCheck := qtdsCheck_of_last_done (by rw [hRing]; exact hLast) (Or.inl hDone)
  exact (transUpdate_reaps (by rw [hTransfers]; exact h.qtds.transfers_nodup)
    (by rw [hTransfers]; exact htIn) (by rw [hCheck])).1 ht

/-- `ehci_pipeDestroy` keeps the invariant: once the pipe's transfers are
reaped, its queue head goes back to the pool. -/
theorem pipeDestroy_owned {s : Hcd} {pipe : Nat} (h : Owned cfg pipeOf s) :
    Owned cfg pipeOf (pipeDestroy cfg s pipe) := by
  unfold pipeDestroy
  dsimp only
  split
  · exact h
  rename_i qh hQh
  suffices hKey : ∀ s₁ : Hcd, s₁.owners = s.owners →
      Owned cfg pipeOf (qhPut cfg ((if s₁.transfers = [] then s₁
        else transUpdate cfg (deactivateOn s₁ qh s₁.transfers)).modifyPipe pipe
          fun x => { x with hcdpriv := none }) qh) by
    apply hKey
    split
    · exact owners_qhUnlinkAsync
    · split
      · exact owners_qhUnlinkPeriodic _
      · rfl
  intro s₁ hOw
  have h₁ := h.of_owners hOw
  have hPipe₁ : (s₁.pipes pipe).hcdpriv = some qh := by
    have := congrArg (fun o => o.1.pipeQhs pipe) hOw
    simpa [Hcd.owners, Hcd.qhOwners, hQh] using this
  -- the state once the pipe's transfers are reaped
  obtain ⟨s₂, hs₂, h₂, hq₂, hGone⟩ : ∃ s₂, (if s₁.transfers = [] then s₁
      else transUpdate cfg (deactivateOn s₁ qh s₁.transfers)) = s₂ ∧ Owned cfg pipeOf s₂ ∧
      s₂.qhOwners = s₁.qhOwners ∧ ∀ t ∈ s₂.transfers, pipeOf t ≠ pipe := by
    refine ⟨_, rfl, ?_⟩
    split
    · rename_i hNil
      exact ⟨h₁, rfl, fun t ht => absurd (hNil ▸ ht) (List.not_mem_nil t)⟩
    · have hOw₃ := owners_deactivateOn (s := s₁) qh s₁.transfers
      refine ⟨transUpdate_owned (h₁.of_owners hOw₃), ?_, destroyReap_clears h₁ hPipe₁⟩
      rw [qhOwners_transUpdate ((h₁.of_owners hOw₃).qtds.transfers_nodup)]
      exact congrArg Prod.fst hOw₃
  rw [hs₂]
  have hPipe₂ : (s₂.pipes pipe).hcdpriv = some qh := by
    have := congrArg (fun v => v.pipeQhs pipe) hq₂
    simpa [Hcd.qhOwners, hPipe₁] using this
  obtain ⟨hQtd, hPipesPut, hCount, hAsync, hN, hCase⟩ :=
    @qhPut_cases cfg qh (s₂.modifyPipe pipe fun x => { x with hcdpriv := none }) h₂.qhs.nqhs_eq
  have hPipes : ∀ p, ((qhPut cfg (s₂.modifyPipe pipe fun x => { x with hcdpriv := none }) qh).pipes
      p).hcdpriv = if p = pipe then none else (s₂.pipes p).hcdpriv := fun p => by
    by_cases hp : p = pipe <;> simp [hPipesPut, hp]
  refine ⟨h₂.qhs.release hPipe₂ hCount hAsync hPipes hCase hN, ?_⟩
  rw [show (qhPut cfg _ qh).qtdOwners = s₂.qtdOwners from hQtd]
  refine { h₂.qtds with ring_qh := fun t ht => ?_ }
  obtain ⟨qh', hp, hAll⟩ := h₂.qtds.ring_qh t ht
  exact ⟨qh', by simpa only [Hcd.qhOwners, hPipes, if_neg (hGone t ht)] using hp, hAll⟩

end Destroy

end Ehci
