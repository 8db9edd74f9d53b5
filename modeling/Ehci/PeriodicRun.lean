import Ehci.Periodic
import Ehci.Alloc

/-! Runs of the periodic schedule from `ehci_init`. The invariant says what
every slot's chain is in a reachable state; linking keeps it because the
walk of `ehci_qhLinkPeriodic` stops at the period boundary, unlinking
because every pass of its slot loop only skips the victim.

The controller follows the frame-list words and the horizontal pointers, the
driver its `periodicNodes` and `next` links. `HwCoherent` says the first
agree with the second; the slot loop of `ehci_qhUnlinkPeriodic` keeps that,
and it redirects exactly the predecessors of the victim. -/
namespace Ehci

/-- The states reached from `ehci_init` by the queue-head allocations of
`ehci_qhAlloc` and the periodic calls, with the queue heads linked so far.
A queue head is linked as `ehci_transferEnqueue` links a new interrupt pipe:
fresh from `ehci_qhAlloc` and configured by `ehci_qhConf`. -/
inductive PeriodicRun (periodicSize : Nat) : Hcd → List Nat → Prop
  | init (trs : Nat → Transfer) (pipes : Nat → Pipe) (memory : Nat) :
      PeriodicRun periodicSize (ehciInit trs pipes memory) []
  | alloc {s s' : Hcd} {linked : List Nat} {q : Nat} (prior : PeriodicRun periodicSize s linked)
      (hAlloc : qhAlloc s = some (s', q)) : PeriodicRun periodicSize s' linked
  | link {s : Hcd} {linked : List Nat} (q : Nat) (pipe : Pipe)
      (prior : PeriodicRun periodicSize s linked) (hq : q < s.qhCount) (hFresh : q ∉ linked)
      (hType : pipe.type = .interrupt) :
      PeriodicRun periodicSize
        (qhLinkPeriodic periodicSize (s.modifyQh q fun _ => qhConf qhFresh pipe) q) (q :: linked)
  | unlink {s : Hcd} {linked : List Nat} (q : Nat) (prior : PeriodicRun periodicSize s linked)
      (hLinked : q ∈ linked) :
      PeriodicRun periodicSize (qhUnlinkPeriodic periodicSize s q) (linked.erase q)

/-- Every slot's chain is finite, ordered by non-increasing period and made
of linked queue heads; slots past the frame list are empty; linked queue
heads are allocated and the queue-head pool is empty. -/
structure PeriodicInv (periodicSize : Nat) (s : Hcd) (linked : List Nat) : Prop where
  chain : ∀ i, ∃ c, Chain s.qhs (s.periodicNodes i) c ∧
    c.Pairwise (fun a b => (s.qhs b).period ≤ (s.qhs a).period) ∧ ∀ q ∈ c, q ∈ linked
  outside : ∀ i, periodicSize ≤ i → s.periodicNodes i = none
  allocated : ∀ q ∈ linked, q < s.qhCount
  pool : s.qhPool = []

/-- `s` with its queue-head pool set aside. -/
def Hcd.unpooled (s : Hcd) : Hcd := { s with qhPool := [] }

/-- The invariant holds of a reachable state with its empty pool set aside. -/
theorem PeriodicInv.unpooled {periodicSize : Nat} {s : Hcd} {linked : List Nat}
    (h : PeriodicInv periodicSize s linked) : PeriodicInv periodicSize s.unpooled linked :=
  ⟨h.chain, h.outside, h.allocated, rfl⟩

/-- `s'` has the links, periods, slot heads, arena size and pool of `s`:
it differs in fields the periodic schedule does not follow. -/
structure SameSchedule (s s' : Hcd) : Prop where
  next : ∀ x, (s'.qhs x).next = (s.qhs x).next
  period : ∀ x, (s'.qhs x).period = (s.qhs x).period
  nodes : s'.periodicNodes = s.periodicNodes
  qhCount : s'.qhCount = s.qhCount
  pool : s'.qhPool = s.qhPool

namespace SameSchedule

theorem refl (s : Hcd) : SameSchedule s s := ⟨fun _ => rfl, fun _ => rfl, rfl, rfl, rfl⟩

theorem trans {s s' s'' : Hcd} (h : SameSchedule s s') (h' : SameSchedule s' s'') :
    SameSchedule s s'' :=
  ⟨fun x => (h'.next x).trans (h.next x), fun x => (h'.period x).trans (h.period x),
    h'.nodes.trans h.nodes, h'.qhCount.trans h.qhCount, h'.pool.trans h.pool⟩

/-- A write that keeps a queue head's link and period keeps the schedule. -/
theorem modifyQh {s s' : Hcd} {q : Nat} {f : Qh → Qh} (h : SameSchedule s s')
    (hNext : ∀ x, (f x).next = x.next) (hPeriod : ∀ x, (f x).period = x.period) :
    SameSchedule s (s'.modifyQh q f) := by
  refine h.trans ⟨fun x => ?_, fun x => ?_, rfl, rfl, rfl⟩ <;>
    by_cases hx : x = q <;> simp [Function.update_apply, hx, hNext, hPeriod]

/-- Setting the pools aside keeps two states on the same schedule. -/
theorem unpooled {s s' : Hcd} (h : SameSchedule s s') : SameSchedule s.unpooled s'.unpooled :=
  ⟨h.next, h.period, h.nodes, h.qhCount, rfl⟩

end SameSchedule

theorem bandAlloc_same (periodicSize : Nat) (s : Hcd) (qh : Nat) :
    SameSchedule s (bandAlloc periodicSize s qh) := by
  unfold bandAlloc
  dsimp only
  split <;>
    repeat' first
      | exact SameSchedule.refl _
      | refine SameSchedule.modifyQh ?_ (fun _ => rfl) (fun _ => rfl)

namespace PeriodicInv

variable {periodicSize : Nat} {s : Hcd} {linked : List Nat}

theorem of_same {s' : Hcd} (hInv : PeriodicInv periodicSize s linked) (h : SameSchedule s s') :
    PeriodicInv periodicSize s' linked := by
  refine ⟨fun i => ?_, fun i hi => h.nodes ▸ hInv.outside i hi,
    fun q hq => h.qhCount ▸ hInv.allocated q hq, h.pool.trans hInv.pool⟩
  obtain ⟨c, hc, hSorted, hMem⟩ := hInv.chain i
  refine ⟨c, h.nodes ▸ hc.congr fun y _ => h.next y, ?_, hMem⟩
  simpa only [h.period] using hSorted

/-- Every chain member is allocated. -/
theorem chain_length_le (hInv : PeriodicInv periodicSize s linked) {x : Option Nat} {c : List Nat}
    (hc : Chain s.qhs x c) (hMem : ∀ q ∈ c, q ∈ linked) : c.length ≤ s.qhCount :=
  hc.length_le fun y hy => hInv.allocated y (hMem y hy)

end PeriodicInv

theorem markLast_same (s : Hcd) (qh : Nat) : SameSchedule s (markLast s qh) := by
  unfold markLast
  split
  · exact (SameSchedule.refl s).modifyQh (fun _ => rfl) (fun _ => rfl)
  · exact SameSchedule.refl s

section Link

variable {periodicSize : Nat} {s : Hcd} {linked : List Nat} {q : Nat}

/-- A write to a queue head outside every chain keeps the invariant. -/
theorem PeriodicInv.modifyQh_unlinked {f : Qh → Qh} (hInv : PeriodicInv periodicSize s linked)
    (hq : q ∉ linked) : PeriodicInv periodicSize (s.modifyQh q f) linked := by
  refine ⟨fun i => ?_, hInv.outside, hInv.allocated, hInv.pool⟩
  obtain ⟨c, hc, hSorted, hMem⟩ := hInv.chain i
  have hne : ∀ y ∈ c, y ≠ q := fun y hy he => hq (he ▸ hMem y hy)
  refine ⟨c, hc.congr fun y hy => by simp [Function.update_apply, hne y hy], ?_, hMem⟩
  refine hSorted.imp_of_mem fun {a b} ha hb hab => ?_
  simpa [Function.update_apply, hne a ha, hne b hb] using hab

private theorem pairwise_insert_after {R : Nat → Nat → Prop}
    (hTrans : ∀ x y z, R x y → R y z → R x z) {a b : List Nat} {t q : Nat}
    (h : (a ++ t :: b).Pairwise R) (htq : R t q) (hqb : ∀ y ∈ b, R q y) :
    (a ++ t :: q :: b).Pairwise R := by
  simp only [List.pairwise_append, List.pairwise_cons, List.mem_cons] at h ⊢
  obtain ⟨ha, ⟨htb, hb⟩, hab⟩ := h
  refine ⟨ha, ⟨?_, hqb, hb⟩, fun x hx y hy => ?_⟩
  · rintro y (rfl | hy)
    exacts [htq, htb y hy]
  · rcases hy with rfl | rfl | hy
    exacts [hab x hx _ (Or.inl rfl), hTrans _ _ _ (hab x hx t (Or.inl rfl)) htq,
      hab x hx y (Or.inr hy)]

/-- The new-first-element branch keeps the invariant when every queue head of
the chain at the phase has a period no longer than the new one. -/
theorem inv_linkFirst (hInv : PeriodicInv periodicSize s linked) (hq : q ∉ linked)
    (hqAlloc : q < s.qhCount)
    (hHead : ∀ c, Chain s.qhs (s.periodicNodes (s.qhs q).phase) c →
      ∀ y ∈ c, (s.qhs y).period ≤ (s.qhs q).period) :
    PeriodicInv periodicSize (linkFirst periodicSize s q) (q :: linked) := by
  set s1 := s.modifyQh q fun x => { x with next := s.periodicNodes x.phase }
  obtain ⟨nodes, list, hFill⟩ := fillSlots_eq periodicSize q (s.qhs q).period periodicSize
    (s.qhs q).phase s1
  have hQhs : (linkFirst periodicSize s q).qhs = s1.qhs := by simp only [linkFirst, hFill]
  have hCount : (linkFirst periodicSize s q).qhCount = s.qhCount := by simp [linkFirst, hFill, s1]
  have hPeriod : ∀ y, (s1.qhs y).period = (s.qhs y).period := fun y => by
    by_cases hy : y = q <;> simp [s1, Function.update_apply, hy]
  have hOld : ∀ {x c}, Chain s.qhs x c → (∀ y ∈ c, y ∈ linked) → Chain s1.qhs x c :=
    fun hc hM => hc.congr fun y hy => by
      simp [s1, Function.update_apply, show y ≠ q from fun he => hq (he ▸ hM y hy)]
  have hSorted : ∀ {c : List Nat}, c.Pairwise (fun a b => (s.qhs b).period ≤ (s.qhs a).period) →
      c.Pairwise (fun a b => ((linkFirst periodicSize s q).qhs b).period ≤
        ((linkFirst periodicSize s q).qhs a).period) := fun h => by
    simpa only [hQhs, hPeriod] using h
  refine ⟨fun i => ?_, fun i hi => ?_, fun y hy => ?_, ?_⟩
  · rcases fillSlots_nodes periodicSize q (s.qhs q).period periodicSize (s.qhs q).phase i s1
      with hNode | ⟨-, hNode⟩
    · obtain ⟨c, hc, hS, hM⟩ := hInv.chain i
      refine ⟨c, ?_, hSorted hS, fun y hy => List.mem_cons_of_mem q (hM y hy)⟩
      rw [hQhs, show (linkFirst periodicSize s q).periodicNodes i = s.periodicNodes i from hNode]
      exact hOld hc hM
    · obtain ⟨c, hc, hS, hM⟩ := hInv.chain (s.qhs q).phase
      refine ⟨q :: c, ?_, ?_, ?_⟩
      · rw [hQhs, show (linkFirst periodicSize s q).periodicNodes i = some q from hNode]
        exact Chain.cons (by simpa [s1] using hOld hc hM)
      · refine List.Pairwise.cons (fun y hy => ?_) (hSorted hS)
        simpa only [hQhs, hPeriod] using hHead c hc y hy
      · intro y hy
        rcases List.mem_cons.mp hy with rfl | hy
        exacts [List.mem_cons_self _ _, List.mem_cons_of_mem _ (hM y hy)]
  · rcases fillSlots_nodes periodicSize q (s.qhs q).period periodicSize (s.qhs q).phase i s1
      with hNode | ⟨hlt, -⟩
    · rw [show (linkFirst periodicSize s q).periodicNodes i = s.periodicNodes i from hNode]
      exact hInv.outside i hi
    · omega
  · rcases List.mem_cons.mp hy with rfl | hy
    · exact hCount ▸ hqAlloc
    · exact hCount ▸ hInv.allocated y hy
  · simpa [linkFirst, hFill, s1] using hInv.pool

/-- The insert-inside branch keeps the invariant when `t` is linked, its
period is at least the new one and its successor's is below. -/
theorem inv_linkInside {t : Nat} (hInv : PeriodicInv periodicSize s linked) (hq : q ∉ linked)
    (hqAlloc : q < s.qhCount) (ht : t ∈ linked) (hPt : (s.qhs q).period ≤ (s.qhs t).period)
    (hAfter : ∀ u, (s.qhs t).next = some u → (s.qhs u).period < (s.qhs q).period) :
    PeriodicInv periodicSize (linkInside s q t) (q :: linked) := by
  have htq : t ≠ q := fun he => hq (he ▸ ht)
  have hNext : ∀ y, ((linkInside s q t).qhs y).next =
      if y = t then some q else if y = q then (s.qhs t).next else (s.qhs y).next := fun y => by
    by_cases hyt : y = t <;> by_cases hyq : y = q <;>
      simp [linkInside, Function.update_apply, hyt, hyq, htq, Ne.symm htq]
  have hPeriod : ∀ y, ((linkInside s q t).qhs y).period = (s.qhs y).period := fun y => by
    by_cases hyt : y = t <;> by_cases hyq : y = q <;>
      simp [linkInside, Function.update_apply, hyt, hyq, htq, Ne.symm htq]
  have hNodes : (linkInside s q t).periodicNodes = s.periodicNodes := rfl
  refine ⟨fun i => ?_, hInv.outside, fun y hy => ?_, hInv.pool⟩
  · obtain ⟨c, hc, hS, hM⟩ := hInv.chain i
    have hqc : q ∉ c := fun h => hq (hM q h)
    have hMem : ∀ y ∈ c, y ∈ q :: linked := fun y hy => List.mem_cons_of_mem q (hM y hy)
    simp only [hNodes, hPeriod]
    by_cases htc : t ∈ c
    · obtain ⟨a, b, rfl, hChain⟩ : ∃ a b, c = a ++ t :: b ∧
          Chain (linkInside s q t).qhs (s.periodicNodes i) (a ++ t :: q :: b) :=
        hc.insert_after htc hqc (by simp [hNext]) (by simp [hNext, Ne.symm htq])
          (fun y hyt hyq => by simp [hNext, hyt, hyq])
      have hbChain : Chain s.qhs (s.qhs t).next b := by
        obtain ⟨b', hb', hbc⟩ := Chain.some_iff.mp (hc.drop_of_eq rfl)
        cases hb'
        exact hbc
      refine ⟨a ++ t :: q :: b, hChain, ?_, fun y hy => ?_⟩
      · refine pairwise_insert_after (fun _ _ _ h1 h2 => h2.trans h1) hS hPt fun y hy => ?_
        exact hbChain.period_le_of_head (hS.sublist ((List.sublist_cons_self t b).trans
          (List.sublist_append_right a _))) hAfter y hy
      · simp only [List.mem_append, List.mem_cons] at hy
        rcases hy with hy | rfl | rfl | hy
        · exact hMem y (by simp [hy])
        · exact hMem _ (by simp)
        · exact List.mem_cons_self _ _
        · exact hMem y (by simp [hy])
    · refine ⟨c, hc.congr fun y hy => ?_, hS, hMem⟩
      have hyt : y ≠ t := fun he => htc (he ▸ hy)
      have hyq : y ≠ q := fun he => hqc (he ▸ hy)
      simp [hNext, hyt, hyq]
  · rcases List.mem_cons.mp hy with rfl | hy
    exacts [hqAlloc, hInv.allocated y hy]

/-- The chain walk and its branch keep the invariant. -/
theorem inv_linkChain (hInv : PeriodicInv periodicSize s linked) (hq : q ∉ linked)
    (hqAlloc : q < s.qhCount) :
    PeriodicInv periodicSize (linkChain periodicSize s q) (q :: linked) := by
  obtain ⟨c, hc, hS, hM⟩ := hInv.chain (s.qhs q).phase
  unfold linkChain
  dsimp only
  cases hHead : s.periodicNodes (s.qhs q).phase with
  | none =>
      refine inv_linkFirst hInv hq hqAlloc fun c' hc' => ?_
      rw [hHead, Chain.none_iff] at hc'
      simp [hc']
  | some t0 =>
      rw [hHead] at hc
      obtain ⟨hMem, hStop, hMono⟩ := walkInsert_spec (s.qhs q).period s.qhCount hc
        (by have := hInv.chain_length_le hc hM; omega)
      simp only [Option.map_some']
      split
      · refine inv_linkFirst hInv hq hqAlloc fun c' hc' y hy => ?_
        rw [hHead] at hc'
        obtain rfl := hc.unique hc'
        have ht0 : (s.qhs t0).period < (s.qhs q).period := by
          by_contra hNot
          have := hMono (by omega)
          omega
        exact hc.period_le_of_head hS (fun u hu => by cases hu; exact ht0) y hy |>.trans le_rfl
      · exact inv_linkInside hInv hq hqAlloc (hM _ hMem) (by omega) hStop

/-- `ehci_qhLinkPeriodic` keeps the invariant for a queue head on no chain. -/
theorem inv_qhLinkPeriodic (hInv : PeriodicInv periodicSize s linked) (hq : q ∉ linked)
    (hqAlloc : q < s.qhCount) :
    PeriodicInv periodicSize (qhLinkPeriodic periodicSize s q) (q :: linked) := by
  have hSame : SameSchedule s ((bandAlloc periodicSize s q).modifyQh q
      fun x => { x with hw := { x.hw with info1 := qhInfo1 x.uframe } }) :=
    (bandAlloc_same periodicSize s q).modifyQh (fun _ => rfl) (fun _ => rfl)
  exact (inv_linkChain (hInv.of_same hSame) hq (hSame.qhCount ▸ hqAlloc)).of_same
    (markLast_same _ q)

end Link

section Unlink

/-- What one pass of the slot loop of `ehci_qhUnlinkPeriodic` can do: replace
the slot's head by its successor, redirect the predecessor it finds past `q`,
or nothing when the walk finds no predecessor. -/
theorem unlinkSlot_cases (s : Hcd) (q i : Nat) :
    (s.periodicNodes i = some q ∧ unlinkSlot s q i =
      { s with periodicList := Function.update s.periodicList i (linkPtr (s.qhs q).next),
               periodicNodes := Function.update s.periodicNodes i (s.qhs q).next }) ∨
    (∃ p, s.periodicNodes i ≠ some q ∧ walkPrev s.qhs q s.qhCount (s.periodicNodes i) = some p ∧
      (s.qhs p).next = some q ∧ unlinkSlot s q i =
        (s.modifyQh p fun x => { x with next := (s.qhs q).next }).modifyQh p
          fun x => { x with hw := { x.hw with horizontal := linkPtr x.next } }) ∨
    (s.periodicNodes i ≠ some q ∧
      (∀ p, walkPrev s.qhs q s.qhCount (s.periodicNodes i) = some p → (s.qhs p).next ≠ some q) ∧
      unlinkSlot s q i = s) := by
  unfold unlinkSlot
  by_cases hHead : s.periodicNodes i = some q
  · exact Or.inl ⟨hHead, by simp [hHead]⟩
  · simp only [hHead, if_false]
    cases hWalk : walkPrev s.qhs q s.qhCount (s.periodicNodes i) with
    | none => exact Or.inr (Or.inr ⟨hHead, by simp, rfl⟩)
    | some p =>
        by_cases hp : (s.qhs p).next = some q
        · exact Or.inr (Or.inl ⟨p, hHead, rfl, hp, by simp [hp]⟩)
        · refine Or.inr (Or.inr ⟨hHead, fun p' hp' => ?_, by simp [hp]⟩)
          cases hp'
          exact hp

/-- A pass changes no period, arena size, pool, or other slot. -/
theorem unlinkSlot_frame (s : Hcd) (q i : Nat) :
    (∀ x, ((unlinkSlot s q i).qhs x).period = (s.qhs x).period) ∧
      (unlinkSlot s q i).qhCount = s.qhCount ∧ (unlinkSlot s q i).qhPool = s.qhPool ∧
      ∀ j, j ≠ i → (unlinkSlot s q i).periodicNodes j = s.periodicNodes j := by
  rcases unlinkSlot_cases s q i with ⟨-, h⟩ | ⟨p, -, -, -, h⟩ | ⟨-, -, h⟩ <;> rw [h]
  · exact ⟨fun _ => rfl, rfl, rfl, fun j hj => by simp [hj]⟩
  · refine ⟨fun x => ?_, rfl, rfl, fun _ _ => rfl⟩
    by_cases hx : x = p <;> simp [Function.update_apply, hx]
  · exact ⟨fun _ => rfl, rfl, rfl, fun _ _ => rfl⟩

/-- The slot loop writes no queue head's liveness and leaves the pool. -/
theorem unlinkSlots_live (q x : Nat) : ∀ (L : List Nat) (t : Hcd),
    ((L.foldl (fun t i => unlinkSlot t q i) t).qhs x).live = (t.qhs x).live ∧
      (L.foldl (fun t i => unlinkSlot t q i) t).qhPool = t.qhPool
  | [], _ => ⟨rfl, rfl⟩
  | i :: L, t => by
      obtain ⟨h1, h2⟩ := unlinkSlots_live q x L (unlinkSlot t q i)
      refine ⟨h1.trans ?_, h2.trans (unlinkSlot_frame t q i).2.2.1⟩
      rcases unlinkSlot_cases t q i with ⟨-, h⟩ | ⟨p, -, -, -, h⟩ | ⟨-, -, h⟩ <;> rw [h]
      by_cases hx : x = p <;> simp [Function.update_apply, hx]

/-- A pass keeps every chain or removes `q` from it. -/
theorem unlinkSlot_chain (s : Hcd) (q i j : Nat) {c : List Nat}
    (hc : Chain s.qhs (s.periodicNodes j) c) :
    Chain (unlinkSlot s q i).qhs ((unlinkSlot s q i).periodicNodes j) c ∨
      Chain (unlinkSlot s q i).qhs ((unlinkSlot s q i).periodicNodes j) (c.erase q) := by
  rcases unlinkSlot_cases s q i with ⟨hHead, h⟩ | ⟨p, -, -, hp, h⟩ | ⟨-, -, h⟩ <;> rw [h]
  · by_cases hj : j = i
    · subst hj
      rw [hHead] at hc
      obtain ⟨c', rfl, hc'⟩ := Chain.some_iff.mp hc
      exact Or.inr (by simpa using hc')
    · exact Or.inl (by simpa [hj] using hc)
  · have hNext : ∀ y, y ≠ p → (((s.modifyQh p fun x => { x with next := (s.qhs q).next }).modifyQh p
        fun x => { x with hw := { x.hw with horizontal := linkPtr x.next } }).qhs y).next =
          (s.qhs y).next := fun y hy => by simp [Function.update_apply, hy]
    by_cases hpc : p ∈ c
    · exact Or.inr (hc.skip hpc hp (by simp) hNext)
    · exact Or.inl (hc.congr fun y hy => hNext y fun he => hpc (he ▸ hy))
  · exact Or.inl hc

/-- The pass at slot `i` removes `q` from that slot's chain. -/
theorem unlinkSlot_chain_self (s : Hcd) (q i : Nat) {c : List Nat}
    (hc : Chain s.qhs (s.periodicNodes i) c) (hLen : c.length ≤ s.qhCount) :
    Chain (unlinkSlot s q i).qhs ((unlinkSlot s q i).periodicNodes i) (c.erase q) := by
  rcases unlinkSlot_cases s q i with ⟨hHead, h⟩ | ⟨p, -, hWalk, hp, h⟩ | ⟨hHead, hNone, h⟩
  · rw [h]
    rw [hHead] at hc
    obtain ⟨c', rfl, hc'⟩ := Chain.some_iff.mp hc
    simpa using hc'
  · rw [h]
    exact hc.skip (walkPrev_mem hc hWalk) hp (by simp)
      fun y hy => by simp [Function.update_apply, hy]
  · have hqc : q ∉ c := fun hqc => by
      obtain ⟨p, hWalk, hp⟩ := walkPrev_found hc hLen hqc hHead
      exact hNone p hWalk hp
    rw [h, List.erase_of_not_mem hqc]
    exact hc

private theorem erase_again {q : Nat} {c c' : List Nat} (hc : c.Nodup) (h : c' = c ∨ c' = c.erase q) :
    c'.erase q = c.erase q := by
  rcases h with rfl | rfl
  · rfl
  · exact List.erase_of_not_mem (hc.not_mem_erase)

/-- The slot loop over `L`: chains keep or lose `q`, and those of the slots
in `L` lose it. -/
theorem unlinkSlots_spec (q : Nat) (L : List Nat) (s : Hcd)
    (hFin : ∀ j ∈ L, ∃ c, Chain s.qhs (s.periodicNodes j) c ∧ c.length ≤ s.qhCount) :
    (∀ x, ((L.foldl (fun s i => unlinkSlot s q i) s).qhs x).period = (s.qhs x).period) ∧
      (L.foldl (fun s i => unlinkSlot s q i) s).qhCount = s.qhCount ∧
      (L.foldl (fun s i => unlinkSlot s q i) s).qhPool = s.qhPool ∧
      (∀ j, j ∉ L → (L.foldl (fun s i => unlinkSlot s q i) s).periodicNodes j = s.periodicNodes j) ∧
      ∀ j c, Chain s.qhs (s.periodicNodes j) c →
        ∃ c', Chain (L.foldl (fun s i => unlinkSlot s q i) s).qhs
          ((L.foldl (fun s i => unlinkSlot s q i) s).periodicNodes j) c' ∧
          (c' = c ∨ c' = c.erase q) ∧ (j ∈ L → c' = c.erase q) := by
  induction L generalizing s with
  | nil => exact ⟨fun _ => rfl, rfl, rfl, fun _ _ => rfl, fun j c hc => ⟨c, hc, Or.inl rfl, by simp⟩⟩
  | cons i L ih =>
      obtain ⟨hPeriod, hCount, hPool, hNodes⟩ := unlinkSlot_frame s q i
      have hStep : ∀ j c, Chain s.qhs (s.periodicNodes j) c →
          ∃ c1, Chain (unlinkSlot s q i).qhs ((unlinkSlot s q i).periodicNodes j) c1 ∧
            (c1 = c ∨ c1 = c.erase q) ∧ (j = i → c1 = c.erase q) := fun j c hc => by
        by_cases hj : j = i
        · subst hj
          obtain ⟨c0, hc0, hLen⟩ := hFin j (List.mem_cons_self j L)
          obtain rfl := hc0.unique hc
          exact ⟨_, unlinkSlot_chain_self s q j hc hLen, Or.inr rfl, fun _ => rfl⟩
        · rcases unlinkSlot_chain s q i j hc with h | h
          exacts [⟨c, h, Or.inl rfl, fun hji => absurd hji hj⟩,
            ⟨_, h, Or.inr rfl, fun hji => absurd hji hj⟩]
      have hFin1 : ∀ j ∈ L, ∃ c, Chain (unlinkSlot s q i).qhs
          ((unlinkSlot s q i).periodicNodes j) c ∧ c.length ≤ (unlinkSlot s q i).qhCount :=
          fun j hj => by
        obtain ⟨c, hc, hLen⟩ := hFin j (List.mem_cons_of_mem i hj)
        obtain ⟨c1, hc1, h1, -⟩ := hStep j c hc
        refine ⟨c1, hc1, ?_⟩
        rw [hCount]
        rcases h1 with rfl | rfl
        exacts [hLen, (List.length_erase_le _ _).trans hLen]
      obtain ⟨hPeriod', hCount', hPool', hNodes', hChains'⟩ := ih (unlinkSlot s q i) hFin1
      refine ⟨fun x => (hPeriod' x).trans (hPeriod x), hCount'.trans hCount, hPool'.trans hPool,
        fun j hj => ?_, fun j c hc => ?_⟩
      · rw [List.foldl_cons, hNodes' j (fun h => hj (List.mem_cons_of_mem i h)),
          hNodes j (fun h => hj (h ▸ List.mem_cons_self i L))]
      · obtain ⟨c1, hc1, h1, hi1⟩ := hStep j c hc
        obtain ⟨c2, hc2, h2, hL2⟩ := hChains' j c1 hc1
        have hNodup := hc.nodup
        refine ⟨c2, hc2, ?_, fun hjL => ?_⟩
        · rcases h2 with rfl | rfl
          exacts [h1, Or.inr (erase_again hNodup h1)]
        · rcases List.mem_cons.mp hjL with rfl | hjL
          · rcases h2 with rfl | rfl
            exacts [hi1 rfl, (hi1 rfl) ▸ erase_again hNodup (Or.inr rfl)]
          · rw [hL2 hjL]
            exact erase_again hNodup h1

/-- `ehci_qhUnlinkPeriodic` keeps the invariant, with `q` no longer linked. -/
theorem inv_qhUnlinkPeriodic {periodicSize : Nat} {s : Hcd} {linked : List Nat} (q : Nat)
    (hInv : PeriodicInv periodicSize s linked) :
    PeriodicInv periodicSize (qhUnlinkPeriodic periodicSize s q) (linked.erase q) := by
  have hFin : ∀ j, ∃ c, Chain s.qhs (s.periodicNodes j) c ∧ c.length ≤ s.qhCount := fun j => by
    obtain ⟨c, hc, -, hM⟩ := hInv.chain j
    exact ⟨c, hc, hInv.chain_length_le hc hM⟩
  obtain ⟨hPeriod, hCount, hPool, hNodes, hChains⟩ :=
    unlinkSlots_spec q (List.range periodicSize) s fun j _ => hFin j
  refine ⟨fun j => ?_, fun j hj => ?_, fun y hy => ?_, ?_⟩
  · obtain ⟨c, hc, hS, hM⟩ := hInv.chain j
    obtain ⟨c', hc', h', hExact⟩ := hChains j c hc
    have hSub : c'.Sublist c := by
      rcases h' with rfl | rfl
      exacts [List.Sublist.refl _, List.erase_sublist _ _]
    have hq' : q ∉ c' := by
      by_cases hj : j < periodicSize
      · rw [hExact (List.mem_range.mpr hj)]
        exact hc.nodup.not_mem_erase
      · rw [hInv.outside j (by omega), Chain.none_iff] at hc
        subst hc
        simp [List.sublist_nil.mp hSub]
    refine ⟨c', hc', ?_, fun y hy => ?_⟩
    · simpa only [qhUnlinkPeriodic, hPeriod] using hS.sublist hSub
    · have hyq : y ≠ q := fun he => hq' (he ▸ hy)
      exact (List.mem_erase_of_ne hyq).mpr (hM y (hSub.subset hy))
  · rw [qhUnlinkPeriodic, hNodes j (by simpa using hj)]
    exact hInv.outside j hj
  · rw [qhUnlinkPeriodic, hCount]
    exact hInv.allocated y (List.mem_of_mem_erase hy)
  · rw [qhUnlinkPeriodic, hPool]
    exact hInv.pool

end Unlink

theorem linkPtr_eq_qhPtr {y : Option Nat} {x : Nat} : linkPtr y = qhPtr (some x) ↔ y = some x := by
  cases y with
  | none => exact ⟨fun h => absurd h (qhPtrInvalid_ne_qhPtr x), fun h => by cases h⟩
  | some y => exact ⟨fun h => congrArg some (qhPtr_some_inj h), fun h => by cases h; rfl⟩

/-- The hardware words agree with the driver's links: each frame-list word
addresses its slot's head, or is `QH_PTR_INVALID` when the slot is empty, and
a horizontal pointer that addresses a queue head addresses its `next`, for
every queue head in use. A pooled queue head's `next` is a link of the pool
ring, and a freed one's is gone. -/
structure HwCoherent (s : Hcd) : Prop where
  slots : ∀ i, s.periodicList i = linkPtr (s.periodicNodes i)
  horizontal : ∀ r x, (s.qhs r).live = true → r ∉ s.qhPool →
    (s.qhs r).hw.horizontal = qhPtr (some x) → (s.qhs r).next = some x

section Words

variable {s t : Hcd} {q : Nat}

/-- One pass of the slot loop keeps the hardware words in agreement. -/
theorem hwCoherent_unlinkSlot (h : HwCoherent t) (i : Nat) : HwCoherent (unlinkSlot t q i) := by
  rcases unlinkSlot_cases t q i with ⟨-, hEq⟩ | ⟨p, -, -, -, hEq⟩ | ⟨-, -, hEq⟩ <;> rw [hEq]
  · refine ⟨fun j => ?_, h.horizontal⟩
    by_cases hj : j = i
    · subst hj; simp
    · simp [hj, h.slots j]
  · refine ⟨h.slots, fun r x hL hP hr => ?_⟩
    by_cases hrp : r = p
    · subst hrp
      simpa [linkPtr_eq_qhPtr] using hr
    · simpa [hrp] using h.horizontal r x (by simpa [hrp] using hL) hP (by simpa [hrp] using hr)
  · exact h

theorem hwCoherent_unlinkSlots (q : Nat) :
    ∀ (L : List Nat) {t : Hcd}, HwCoherent t → HwCoherent (L.foldl (fun t i => unlinkSlot t q i) t)
  | [], _, h => h
  | i :: L, _, h => hwCoherent_unlinkSlots q L (hwCoherent_unlinkSlot h i)

/-- Queue head `r` of `t` is as in `s`, or it was redirected from `q` to
`q`'s successor, with a horizontal pointer to match: what the slot loop of
`ehci_qhUnlinkPeriodic` can have done to it. -/
def Redirected (s t : Hcd) (q r : Nat) : Prop :=
  ((t.qhs r).next = (s.qhs r).next ∧ (t.qhs r).hw.horizontal = (s.qhs r).hw.horizontal) ∨
    ((s.qhs r).next = some q ∧ (t.qhs r).next = (s.qhs q).next ∧
      (t.qhs r).hw.horizontal = linkPtr (s.qhs q).next)

/-- One pass of the slot loop keeps every queue head as in `s` or redirected,
and rewrites the frame-list word of its slot exactly when `q` heads it. -/
theorem unlinkSlot_words (hq : (s.qhs q).next ≠ some q) (hRed : ∀ r, Redirected s t q r)
    {i : Nat} (hi : t.periodicNodes i = s.periodicNodes i) :
    (∀ r, Redirected s (unlinkSlot t q i) q r) ∧
      ∀ j, (unlinkSlot t q i).periodicList j =
        if j = i ∧ s.periodicNodes i = some q then linkPtr (s.qhs q).next else t.periodicList j := by
  have hqt : (t.qhs q).next = (s.qhs q).next :=
    (hRed q).elim (·.1) fun h => absurd h.1 hq
  rcases unlinkSlot_cases t q i with ⟨hHead, hEq⟩ | ⟨p, hHead, -, hp, hEq⟩ | ⟨hHead, -, hEq⟩ <;>
    rw [hEq]
  · refine ⟨hRed, fun j => ?_⟩
    by_cases hj : j = i
    · subst hj; simp [← hi, hHead, hqt]
    · simp [hj]
  · refine ⟨fun r => ?_, fun j => by simp [← hi, hHead]⟩
    by_cases hrp : r = p
    · subst hrp
      have hs : (s.qhs r).next = some q :=
        (hRed r).elim (fun h => h.1 ▸ hp) fun h => absurd (h.2.1 ▸ hp) hq
      exact Or.inr ⟨hs, by simp [hqt], by simp [hqt]⟩
    · simpa [Redirected, hrp] using hRed r
  · exact ⟨hRed, fun j => by simp [← hi, hHead]⟩

/-- The slot loop over distinct slots `L`, from a state `t` whose slots in
`L` are still those of `s`. -/
theorem unlinkSlots_words (hq : (s.qhs q).next ≠ some q) :
    ∀ (L : List Nat) (t : Hcd), L.Nodup → (∀ r, Redirected s t q r) →
      (∀ j ∈ L, t.periodicNodes j = s.periodicNodes j) →
      (∀ r, Redirected s (L.foldl (fun t i => unlinkSlot t q i) t) q r) ∧
        ∀ j, (L.foldl (fun t i => unlinkSlot t q i) t).periodicList j =
          if j ∈ L ∧ s.periodicNodes j = some q then linkPtr (s.qhs q).next else t.periodicList j
  | [], _, _, hRed, _ => ⟨hRed, fun j => by simp⟩
  | i :: L, t, hNodup, hRed, hNodes => by
      obtain ⟨hiL, hL⟩ := List.nodup_cons.mp hNodup
      obtain ⟨hRed1, hList1⟩ := unlinkSlot_words hq hRed (hNodes i (List.mem_cons_self i L))
      have hNodes1 : ∀ j ∈ L, (unlinkSlot t q i).periodicNodes j = s.periodicNodes j := fun j hj =>
        ((unlinkSlot_frame t q i).2.2.2 j fun he => hiL (he ▸ hj)).trans
          (hNodes j (List.mem_cons_of_mem i hj))
      obtain ⟨hRed2, hList2⟩ := unlinkSlots_words hq L _ hL hRed1 hNodes1
      refine ⟨hRed2, fun j => ?_⟩
      rw [List.foldl_cons, hList2, hList1]
      by_cases hj : j = i
      · subst hj; simp [hiL]
      · simp [hj]

/-- A pass over a slot whose chain misses `q` changes nothing. -/
theorem unlinkSlot_of_not_mem {i : Nat} {c : List Nat} (hc : Chain s.qhs (s.periodicNodes i) c)
    (hq : q ∉ c) : unlinkSlot s q i = s := by
  rcases unlinkSlot_cases s q i with ⟨hHead, -⟩ | ⟨p, -, hWalk, hp, -⟩ | ⟨-, -, hEq⟩
  · rw [hHead] at hc
    obtain ⟨c', rfl, -⟩ := Chain.some_iff.mp hc
    exact absurd (List.mem_cons_self q c') hq
  · exact absurd (hc.succ_mem (walkPrev_mem hc hWalk) hp) hq
  · exact hEq

/-- Unlinking a queue head that no chain reaches changes nothing. -/
theorem qhUnlinkPeriodic_of_unlinked (periodicSize : Nat)
    (hOff : ∀ j < periodicSize, ∃ c, Chain s.qhs (s.periodicNodes j) c ∧ q ∉ c) :
    qhUnlinkPeriodic periodicSize s q = s := by
  have hStep : ∀ i ∈ List.range periodicSize, unlinkSlot s q i = s := fun i hi => by
    obtain ⟨c, hc, hq⟩ := hOff i (List.mem_range.mp hi)
    exact unlinkSlot_of_not_mem hc hq
  unfold qhUnlinkPeriodic
  generalize List.range periodicSize = L at hStep ⊢
  induction L with
  | nil => rfl
  | cons i L ih =>
      rw [List.foldl_cons, hStep i (List.mem_cons_self i L)]
      exact ih fun j hj => hStep j (List.mem_cons_of_mem i hj)

end Words

section LinkWords

variable {periodicSize : Nat} {s : Hcd} {q : Nat}

/-- A write that keeps a queue head's link, horizontal pointer and liveness. -/
theorem HwCoherent.modifyQh_keep {f : Qh → Qh} (h : HwCoherent s) (hNext : ∀ x, (f x).next = x.next)
    (hHor : ∀ x, (f x).hw.horizontal = x.hw.horizontal) (hLive : ∀ x, (f x).live = x.live) :
    HwCoherent (s.modifyQh q f) := by
  refine ⟨h.slots, fun r x hL hP hr => ?_⟩
  by_cases hrq : r = q
  · subst hrq
    simp only [Hcd.modifyQh_qhs, Function.update_same, hNext, hHor, hLive] at hL hr ⊢
    exact h.horizontal r x hL hP hr
  · simp only [Hcd.modifyQh_qhs, Function.update_noteq hrq] at hL hr ⊢
    exact h.horizontal r x hL hP hr

/-- A write whose horizontal pointer addresses no queue head. -/
theorem HwCoherent.modifyQh_unaddressed {f : Qh → Qh} (h : HwCoherent s)
    (hHor : ∀ x, (f (s.qhs q)).hw.horizontal ≠ qhPtr (some x)) : HwCoherent (s.modifyQh q f) := by
  refine ⟨h.slots, fun r x hL hP hr => ?_⟩
  by_cases hrq : r = q
  · subst hrq
    simp only [Hcd.modifyQh_qhs, Function.update_same] at hr
    exact absurd hr (hHor x)
  · simp only [Hcd.modifyQh_qhs, Function.update_noteq hrq] at hL hr ⊢
    exact h.horizontal r x hL hP hr

theorem hwCoherent_bandAlloc (h : HwCoherent s) : HwCoherent (bandAlloc periodicSize s q) := by
  unfold bandAlloc
  dsimp only
  split <;>
    repeat' first
      | exact h
      | refine HwCoherent.modifyQh_keep ?_ (fun _ => rfl) (fun _ => rfl) (fun _ => rfl)

theorem bandAlloc_horizontal (r : Nat) :
    ((bandAlloc periodicSize s q).qhs r).hw.horizontal = (s.qhs r).hw.horizontal := by
  unfold bandAlloc
  dsimp only
  split <;> by_cases hr : r = q <;> simp [Function.update_apply, hr]

theorem hwCoherent_fillSlots (period : Nat) :
    ∀ (fuel i : Nat) {s : Hcd}, HwCoherent s → HwCoherent (fillSlots periodicSize q period fuel i s)
  | 0, _, _, h => h
  | fuel + 1, i, s, h => by
      simp only [fillSlots]
      split
      · refine hwCoherent_fillSlots period fuel (i + period) ⟨fun j => ?_, h.horizontal⟩
        by_cases hj : j = i
        · subst hj; simp [linkPtr]
        · simp [hj, h.slots j]
      · exact h

theorem hwCoherent_linkFirst (h : HwCoherent s) (hq : ∀ x, (s.qhs q).hw.horizontal ≠ qhPtr (some x)) :
    HwCoherent (linkFirst periodicSize s q) :=
  hwCoherent_fillSlots _ _ _ (h.modifyQh_unaddressed hq)

theorem hwCoherent_linkInside {t : Nat} (h : HwCoherent s) (htq : t ≠ q) :
    HwCoherent (linkInside s q t) := by
  refine ⟨h.slots, fun r x hL hP hr => ?_⟩
  by_cases hrt : r = t
  · subst hrt
    simp [linkInside, htq, qhPtr_eq_qhPtr_some] at hr ⊢
    exact hr
  · by_cases hrq : r = q
    · subst hrq
      simp [linkInside, Ne.symm htq, qhPtr_eq_qhPtr_some] at hr ⊢
      exact hr
    · simp [linkInside, hrt, hrq] at hL hr ⊢
      exact h.horizontal r x hL hP hr

/-- The chains are read with the pool set aside: the words of pooled queue
heads are not constrained. -/
theorem hwCoherent_linkChain {linked : List Nat} (hInv : PeriodicInv periodicSize s.unpooled linked)
    (hq : q ∉ linked) (h : HwCoherent s) (hHor : ∀ x, (s.qhs q).hw.horizontal ≠ qhPtr (some x)) :
    HwCoherent (linkChain periodicSize s q) := by
  unfold linkChain
  dsimp only
  cases hHead : s.periodicNodes (s.qhs q).phase with
  | none => exact hwCoherent_linkFirst h hHor
  | some t0 =>
      obtain ⟨c, hc, -, hM⟩ := hInv.chain (s.qhs q).phase
      have hLen : c.length ≤ s.qhCount := hInv.chain_length_le hc hM
      change Chain s.qhs (s.periodicNodes (s.qhs q).phase) c at hc
      rw [hHead] at hc
      have hMem := (walkInsert_spec (s.qhs q).period s.qhCount hc (by omega)).1
      simp only [Option.map_some']
      split
      · exact hwCoherent_linkFirst h hHor
      · exact hwCoherent_linkInside h fun he => hq (he ▸ hM _ hMem)

theorem hwCoherent_markLast (h : HwCoherent s) : HwCoherent (markLast s q) := by
  unfold markLast
  split
  · refine h.modifyQh_unaddressed fun x hx => ?_
    have h0 := qhPtr_testBit_zero (some x)
    rw [← hx] at h0
    simp [Nat.testBit_lor, qhPtrInvalid] at h0
  · exact h

/-- `ehci_qhLinkPeriodic` keeps the hardware words in agreement, for a queue
head on no chain whose horizontal pointer addresses no queue head. -/
theorem hwCoherent_qhLinkPeriodic {linked : List Nat} (hInv : PeriodicInv periodicSize s.unpooled linked)
    (hq : q ∉ linked) (h : HwCoherent s) (hHor : ∀ x, (s.qhs q).hw.horizontal ≠ qhPtr (some x)) :
    HwCoherent (qhLinkPeriodic periodicSize s q) := by
  have hSame : SameSchedule s ((bandAlloc periodicSize s q).modifyQh q
      fun x => { x with hw := { x.hw with info1 := qhInfo1 x.uframe } }) :=
    (bandAlloc_same periodicSize s q).modifyQh (fun _ => rfl) (fun _ => rfl)
  have hBand : HwCoherent ((bandAlloc periodicSize s q).modifyQh q
      fun x => { x with hw := { x.hw with info1 := qhInfo1 x.uframe } }) :=
    (hwCoherent_bandAlloc h).modifyQh_keep (fun _ => rfl) (fun _ => rfl) (fun _ => rfl)
  refine hwCoherent_markLast (hwCoherent_linkChain (hInv.of_same hSame.unpooled) hq hBand fun x => ?_)
  simpa [bandAlloc_horizontal] using hHor x

end LinkWords

/-- Every reachable periodic schedule satisfies the invariant. -/
theorem PeriodicRun.inv {periodicSize : Nat} {s : Hcd} {linked : List Nat}
    (run : PeriodicRun periodicSize s linked) : PeriodicInv periodicSize s linked := by
  induction run with
  | init trs pipes memory =>
      exact ⟨fun i => ⟨[], by simp [ehciInit], by simp, by simp⟩, fun _ _ => rfl, by simp, rfl⟩
  | @alloc s s' linked q prior hAlloc ih =>
      obtain ⟨rfl, rfl⟩ := qhAlloc_of_pool_nil ih.pool hAlloc
      have hFresh : s.qhCount ∉ linked := fun h => Nat.lt_irrefl _ (ih.allocated _ h)
      have h := ih.modifyQh_unlinked (f := fun _ => qhFresh) hFresh
      exact ⟨h.chain, h.outside, fun y hy => Nat.lt_succ_of_lt (h.allocated y hy), h.pool⟩
  | link q pipe prior hq hFresh hType ih =>
      exact inv_qhLinkPeriodic (ih.modifyQh_unlinked hFresh) hFresh hq
  | unlink q prior hLinked ih => exact inv_qhUnlinkPeriodic q ih

/-- Every reachable periodic schedule has its hardware words in agreement
with its links. -/
theorem PeriodicRun.hwCoherent {periodicSize : Nat} {s : Hcd} {linked : List Nat}
    (run : PeriodicRun periodicSize s linked) : HwCoherent s := by
  induction run with
  | init trs pipes memory =>
      refine ⟨fun _ => rfl, fun r x _ _ hr => ?_⟩
      by_cases hr0 : r = 0
      · subst hr0
        simp only [ehciInit, Function.update_same, asyncHead] at hr ⊢
        rw [qhPtr_some_inj hr]
      · simp only [ehciInit, Function.update_noteq hr0, qhFresh] at hr
        exact absurd hr (qhPtrInvalid_ne_qhPtr x)
  | @alloc s s' linked q prior hAlloc ih =>
      obtain ⟨rfl, rfl⟩ := qhAlloc_of_pool_nil prior.inv.pool hAlloc
      have h := ih.modifyQh_unaddressed (q := s.qhCount) (f := fun _ => qhFresh)
        fun x => qhPtrInvalid_ne_qhPtr x
      exact ⟨h.slots, h.horizontal⟩
  | link q pipe prior hq hFresh hType ih =>
      exact hwCoherent_qhLinkPeriodic (prior.inv.modifyQh_unlinked hFresh).unpooled hFresh
        (ih.modifyQh_unaddressed fun x => qhPtrInvalid_ne_qhPtr x)
        fun x => by simpa [qhConf, qhFresh] using qhPtrInvalid_ne_qhPtr x
  | unlink q prior hLinked ih => exact hwCoherent_unlinkSlots q _ ih

/-- Every chain of a reachable schedule is made of allocated queue heads. -/
theorem PeriodicInv.chains_allocated {periodicSize : Nat} {s : Hcd} {linked : List Nat}
    (hInv : PeriodicInv periodicSize s linked) :
    ∀ i, ∃ c, Chain s.qhs (s.periodicNodes i) c ∧ ∀ y ∈ c, y < s.qhCount := fun i => by
  obtain ⟨c, hc, -, hM⟩ := hInv.chain i
  exact ⟨c, hc, fun y hy => hInv.allocated y (hM y hy)⟩

/-- In every reachable periodic schedule, the chain from each slot is finite,
repeats no queue head, and its periods do not increase along `next`. -/
theorem periodic_chain_sorted {periodicSize : Nat} {s : Hcd} {linked : List Nat}
    (run : PeriodicRun periodicSize s linked) (i : Nat) :
    ∃ c, Chain s.qhs (s.periodicNodes i) c ∧ c.Nodup ∧
      c.Chain' (fun a b => (s.qhs b).period ≤ (s.qhs a).period) := by
  obtain ⟨c, hc, hS, -⟩ := run.inv.chain i
  exact ⟨c, hc, hc.nodup, hS.chain'⟩

/-- Linking a period-2 endpoint and then a period-1 one on the 128-slot build:
the chain of slot 0 holds both, the longer period first, and slot 1 is empty. -/
theorem periodic_chain_sorted_two_periods :
    ∃ s, PeriodicRun 128 s [2, 1] ∧ s.periodicNodes 0 = some 1 ∧ (s.qhs 1).next = some 2 ∧
      s.periodicNodes 1 = none ∧
      ∃ c, Chain s.qhs (s.periodicNodes 0) c ∧ c.Nodup ∧
        c.Chain' (fun a b => (s.qhs b).period ≤ (s.qhs a).period) := by
  have run : PeriodicRun 128 _ [2, 1] := .link 2 (hsInterruptPipe 1) (.link 1 (hsInterruptPipe 5)
    (.alloc (.alloc (.init (fun _ => idleTransfer) (fun _ => hsInterruptPipe 1) 2) rfl) rfl)
    (by decide) (by decide) rfl) (by decide) (by decide) rfl
  exact ⟨_, run, by decide, by decide, by decide, periodic_chain_sorted run 0⟩

/-- Linking a period-2 endpoint and then a period-1 one on the 128-slot build:
the second is put behind the first at slot 0 only, so slot 1 is empty and the
period-1 endpoint is not polled in odd frames. -/
theorem periodic_link_inside_misses_slots :
    ∃ s, PeriodicRun 128 s [2, 1] ∧ (s.qhs 2).period = 1 ∧ (s.qhs 2).phase = 0 ∧
      Chain s.qhs (s.periodicNodes 1) [] := by
  refine ⟨_, .link 2 (hsInterruptPipe 1) (.link 1 (hsInterruptPipe 5)
    (.alloc (.alloc (.init (fun _ => idleTransfer) (fun _ => hsInterruptPipe 1) 2) rfl) rfl)
    (by decide) (by decide) rfl) (by decide) (by decide) rfl, by decide, by decide, ?_⟩
  convert Chain.nil using 2

set_option maxRecDepth 4000 in
/-- Linking a period-1 endpoint and then a period-2 one: the second becomes the
head of slot 0 in front of the first, but its horizontal pointer keeps the
terminate value `ehci_qhAlloc` gave it, so the controller stops after it. -/
theorem periodic_new_head_horizontal_stale :
    ∃ s, PeriodicRun 128 s [2, 1] ∧ s.periodicNodes 0 = some 2 ∧ (s.qhs 2).next = some 1 ∧
      (s.qhs 2).hw.horizontal = qhPtrInvalid := by
  refine ⟨_, .link 2 (hsInterruptPipe 5) (.link 1 (hsInterruptPipe 1)
    (.alloc (.alloc (.init (fun _ => idleTransfer) (fun _ => hsInterruptPipe 1) 2) rfl) rfl)
    (by decide) (by decide) rfl) (by decide) (by decide) rfl, ?_, ?_, ?_⟩ <;> decide

section PeriodOne

variable {periodicSize : Nat} {s : Hcd} {q : Nat}

/-- The slot loop of `ehci_bandAlloc` gives period 1 the phase 0. -/
theorem bestPhase_one (hps : 0 < periodicSize) : bestPhase periodicSize s 1 = 0 := by
  unfold bestPhase
  rw [show List.range (min 1 periodicSize) = [0] by rw [Nat.min_eq_left hps]; rfl]
  simp only [List.foldl_cons, List.foldl_nil]
  split <;> rfl

theorem bandAlloc_phase_of_period_one (hPeriod : (s.qhs q).period = 1) (hps : 0 < periodicSize) :
    ((bandAlloc periodicSize s q).qhs q).phase = 0 := by
  unfold bandAlloc
  dsimp only
  split <;> simp [hPeriod, bestPhase_one hps]

/-- Linking a period-1 queue head while slot 0 is empty takes the branch for
a new first element: it becomes the head of every slot, with nothing behind
it, whatever the other slots held. -/
theorem qhLinkPeriodic_period_one (hPeriod : (s.qhs q).period = 1) (hps : 0 < periodicSize)
    (hSlot0 : s.periodicNodes 0 = none) :
    (∀ i < periodicSize, (qhLinkPeriodic periodicSize s q).periodicNodes i = some q) ∧
      ((qhLinkPeriodic periodicSize s q).qhs q).next = none ∧
      (∀ i, periodicSize ≤ i → (qhLinkPeriodic periodicSize s q).periodicNodes i = s.periodicNodes i) ∧
      (qhLinkPeriodic periodicSize s q).qhCount = s.qhCount := by
  have hSame : SameSchedule s ((bandAlloc periodicSize s q).modifyQh q
      fun x => { x with hw := { x.hw with info1 := qhInfo1 x.uframe } }) :=
    (bandAlloc_same periodicSize s q).modifyQh (fun _ => rfl) (fun _ => rfl)
  generalize hs2 : (bandAlloc periodicSize s q).modifyQh q
      (fun x => { x with hw := { x.hw with info1 := qhInfo1 x.uframe } }) = s2 at hSame
  have hPhase : (s2.qhs q).phase = 0 := by
    simp [← hs2, bandAlloc_phase_of_period_one hPeriod hps]
  have hLink : qhLinkPeriodic periodicSize s q = markLast (fillSlots periodicSize q 1 periodicSize 0
      (s2.modifyQh q fun x => { x with next := s.periodicNodes x.phase })) q := by
    rw [qhLinkPeriodic, hs2, linkChain]
    simp only [hPhase, hSame.nodes, hSlot0, Option.map_none', linkFirst, hSame.period q, hPeriod]
  have hNext : ((s2.modifyQh q fun x => { x with next := s.periodicNodes x.phase }).qhs q).next =
      none := by simp [hPhase, hSlot0]
  have hNodes : (s2.modifyQh q fun x => { x with next := s.periodicNodes x.phase }).periodicNodes =
      s.periodicNodes := hSame.nodes
  have hCount : (s2.modifyQh q fun x => { x with next := s.periodicNodes x.phase }).qhCount =
      s.qhCount := hSame.qhCount
  generalize s2.modifyQh q (fun x => { x with next := s.periodicNodes x.phase }) = s3
    at hLink hNext hNodes hCount
  obtain ⟨nodes, list, hFill⟩ := fillSlots_eq periodicSize q 1 periodicSize 0 s3
  have hMark := markLast_same (fillSlots periodicSize q 1 periodicSize 0 s3) q
  rw [hLink]
  refine ⟨fun i hi => ?_, ?_, fun i hi => ?_, ?_⟩
  · rw [hMark.nodes]
    simpa using fillSlots_hits periodicSize q 1 periodicSize 0 i s3 hi (by simpa using hi)
  · rw [hMark.next, hFill]
    exact hNext
  · rw [hMark.nodes]
    rcases fillSlots_nodes periodicSize q 1 periodicSize 0 i s3 with h | h
    · rw [h, hNodes]
    · exact absurd h.1 (Nat.not_lt.mpr hi)
  · rw [hMark.qhCount, hFill]
    exact hCount

/-- Unlinking a queue head that heads every slot with nothing behind it
empties every slot. -/
theorem qhUnlinkPeriodic_of_sole_head (hHeads : ∀ i < periodicSize, s.periodicNodes i = some q)
    (hNext : (s.qhs q).next = none) (hq : q < s.qhCount)
    (hOutside : ∀ i, periodicSize ≤ i → s.periodicNodes i = none) (i : Nat) :
    (qhUnlinkPeriodic periodicSize s q).periodicNodes i = none := by
  have hChain : ∀ j < periodicSize, Chain s.qhs (s.periodicNodes j) [q] := fun j hj => by
    rw [hHeads j hj]
    exact .cons (hNext ▸ .nil)
  obtain ⟨-, -, -, hNodes, hChains⟩ := unlinkSlots_spec q (List.range periodicSize) s
    fun j hj => ⟨_, hChain j (List.mem_range.mp hj), by simp only [List.length_singleton]; omega⟩
  by_cases hi : i < periodicSize
  · obtain ⟨c', hc', -, hErase⟩ := hChains i _ (hChain i hi)
    rw [hErase (List.mem_range.mpr hi), List.erase_cons_head] at hc'
    exact hc'.eq_none_of_nil
  · rw [qhUnlinkPeriodic, hNodes i (by simpa using hi)]
    exact hOutside i (by omega)

/-- Linking a period-1 queue head while slot 0 is empty, then unlinking it,
empties every slot: the queue heads the other slots held are lost. -/
theorem link_unlink_period_one_empties (hPeriod : (s.qhs q).period = 1) (hps : 0 < periodicSize)
    (hq : q < s.qhCount) (hSlot0 : s.periodicNodes 0 = none)
    (hOutside : ∀ i, periodicSize ≤ i → s.periodicNodes i = none) (i : Nat) :
    (qhUnlinkPeriodic periodicSize (qhLinkPeriodic periodicSize s q) q).periodicNodes i = none := by
  obtain ⟨hHeads, hNext, hSame, hCount⟩ := qhLinkPeriodic_period_one hPeriod hps hSlot0
  exact qhUnlinkPeriodic_of_sole_head hHeads hNext (hCount ▸ hq)
    (fun j hj => (hSame j hj).trans (hOutside j hj)) i

end PeriodOne

set_option maxRecDepth 4000 in
/-- A period-2 endpoint left alone in the odd slots after its companion in the
even slots was unlinked; a period-1 endpoint linked and unlinked at once then
leaves every slot empty, so the period-2 endpoint is no longer polled. -/
theorem periodic_link_unlink_loses_chain :
    ∃ s, PeriodicRun 128 s [2] ∧ 3 < s.qhCount ∧ s.periodicNodes 1 = some 2 ∧
      ∀ i, (qhUnlinkPeriodic 128 (qhLinkPeriodic 128
        (s.modifyQh 3 fun _ => qhConf qhFresh (hsInterruptPipe 1)) 3) 3).periodicNodes i = none := by
  have run : PeriodicRun 128 _ [2] := .unlink 1 (.link 2 (hsInterruptPipe 5) (.link 1 (hsInterruptPipe 5)
    (.alloc (.alloc (.alloc (.init (fun _ => idleTransfer) (fun _ => hsInterruptPipe 1) 3) rfl) rfl)
      rfl) (by decide) (by decide) rfl) (by decide) (by decide) rfl) (by decide)
  exact ⟨_, run, by decide, by decide, link_unlink_period_one_empties rfl (by decide) (by decide)
    (by decide) run.inv.outside⟩

/-- `ehci_qhUnlinkPeriodic` on a state whose chains are finite and made of
allocated queue heads: at every slot the chain loses `q` and nothing else;
the frame-list word is rewritten to `q`'s successor where `q` was the head
and kept elsewhere; every predecessor of `q` on a chain now links, in the
driver and in hardware, to `q`'s successor. When the state's hardware words
agree with its links, no slot word and no horizontal pointer of a queue head
on a chain addresses `q` afterwards. -/
theorem qhUnlinkPeriodic_splices {periodicSize : Nat} {s : Hcd} (q : Nat)
    (hChains : ∀ i < periodicSize, ∃ c, Chain s.qhs (s.periodicNodes i) c ∧ ∀ y ∈ c, y < s.qhCount)
    {i : Nat} (hi : i < periodicSize) :
    ∃ c, Chain s.qhs (s.periodicNodes i) c ∧
      Chain (qhUnlinkPeriodic periodicSize s q).qhs
        ((qhUnlinkPeriodic periodicSize s q).periodicNodes i) (c.erase q) ∧
      (qhUnlinkPeriodic periodicSize s q).periodicList i =
        (if s.periodicNodes i = some q then linkPtr (s.qhs q).next else s.periodicList i) ∧
      (∀ p ∈ c, (s.qhs p).next = some q →
        ((qhUnlinkPeriodic periodicSize s q).qhs p).next = (s.qhs q).next ∧
          ((qhUnlinkPeriodic periodicSize s q).qhs p).hw.horizontal = linkPtr (s.qhs q).next) ∧
      (HwCoherent s → (∀ r ∈ c, (s.qhs r).live = true ∧ r ∉ s.qhPool) →
        (qhUnlinkPeriodic periodicSize s q).periodicList i ≠ qhPtr (some q) ∧
        ∀ r ∈ c.erase q,
          ((qhUnlinkPeriodic periodicSize s q).qhs r).hw.horizontal ≠ qhPtr (some q)) := by
  obtain ⟨c, hc, -⟩ := hChains i hi
  obtain ⟨-, -, -, -, hSpec⟩ := unlinkSlots_spec q (List.range periodicSize) s fun j hj => by
    obtain ⟨c, hc, hAlloc⟩ := hChains j (List.mem_range.mp hj)
    exact ⟨c, hc, hc.length_le hAlloc⟩
  obtain ⟨c', hc', -, hErase⟩ := hSpec i c hc
  rw [hErase (List.mem_range.mpr hi)] at hc'
  have hqc' : q ∉ c.erase q := hc.nodup.not_mem_erase
  -- the words: either `q` is on a chain, so it is not its own successor, or nothing moves
  obtain ⟨hList, hPred⟩ : (qhUnlinkPeriodic periodicSize s q).periodicList i =
        (if s.periodicNodes i = some q then linkPtr (s.qhs q).next else s.periodicList i) ∧
      ∀ p ∈ c, (s.qhs p).next = some q →
        ((qhUnlinkPeriodic periodicSize s q).qhs p).next = (s.qhs q).next ∧
          ((qhUnlinkPeriodic periodicSize s q).qhs p).hw.horizontal = linkPtr (s.qhs q).next := by
    by_cases hOn : ∃ j < periodicSize, ∃ d, Chain s.qhs (s.periodicNodes j) d ∧ q ∈ d
    · obtain ⟨j, -, d, hd, hqd⟩ := hOn
      obtain ⟨hRed, hWords⟩ := unlinkSlots_words (hd.next_ne_self hqd) (List.range periodicSize) s
        (List.nodup_range periodicSize) (fun r => Or.inl ⟨rfl, rfl⟩) (fun _ _ => rfl)
      refine ⟨by simp [qhUnlinkPeriodic, hWords, hi], fun p hp hpq => ?_⟩
      have hpq' : p ≠ q := fun he => hd.next_ne_self hqd (he ▸ hpq)
      refine (hRed p).elim (fun hSame => absurd ?_ hqc') (·.2)
      exact hc'.succ_mem ((List.mem_erase_of_ne hpq').mpr hp) (hSame.1.trans hpq)
    · have hOff : ∀ j < periodicSize, ∃ d, Chain s.qhs (s.periodicNodes j) d ∧ q ∉ d :=
        fun j hj => by
          obtain ⟨d, hd, -⟩ := hChains j hj
          exact ⟨d, hd, fun hqd => hOn ⟨j, hj, d, hd, hqd⟩⟩
      have hHead : s.periodicNodes i ≠ some q := fun h => by
        rw [h] at hc
        obtain ⟨d, rfl, -⟩ := Chain.some_iff.mp hc
        exact hOn ⟨i, hi, _, h ▸ hc, List.mem_cons_self q d⟩
      rw [qhUnlinkPeriodic_of_unlinked periodicSize hOff]
      exact ⟨by simp [hHead], fun p hp hpq => absurd (hc.succ_mem hp hpq) fun hqc =>
        hOn ⟨i, hi, c, hc, hqc⟩⟩
  refine ⟨c, hc, hc', hList, hPred, fun hCoh hUse => ?_⟩
  have hCoh' := hwCoherent_unlinkSlots q (List.range periodicSize) hCoh
  refine ⟨fun hAddr => ?_, fun r hr hAddr => ?_⟩
  · rw [show (qhUnlinkPeriodic periodicSize s q).periodicList i = _ from hCoh'.slots i,
      linkPtr_eq_qhPtr] at hAddr
    rw [hAddr] at hc'
    obtain ⟨d, he, -⟩ := Chain.some_iff.mp hc'
    exact hqc' (he ▸ List.mem_cons_self q d)
  · obtain ⟨hL, hP⟩ := hUse r (List.mem_of_mem_erase hr)
    obtain ⟨hL', hP'⟩ := unlinkSlots_live q r (List.range periodicSize) s
    exact hqc' (hc'.succ_mem hr (hCoh'.horizontal r q (hL'.trans hL) (hP' ▸ hP) hAddr))

end Ehci
