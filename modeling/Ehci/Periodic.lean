import Ehci.State
import Mathlib.Data.Finset.Card

/-! The periodic schedule of `ehci.c`: `ehci_bandAlloc`, `ehci_qhLinkPeriodic`
and `ehci_qhUnlinkPeriodic`. Every `while` over `next` links runs for at most
the arena size `qhCount`, which bounds every chain without repeats. -/
namespace Ehci

/-- The count loop of `ehci_bandAlloc`: the queue heads met from `tmp`. -/
def chainCount (qhs : Nat → Qh) : Nat → Option Nat → Nat
  | 0, _ => 0
  | _ + 1, none => 0
  | fuel + 1, some q => chainCount qhs fuel (qhs q).next + 1

/-- The microframe loop of `ehci_bandAlloc`: `ucnt[tmp->uframe]++` for every
queue head from `tmp` that has a microframe. -/
def uframeCounts (qhs : Nat → Qh) : Nat → Option Nat → (Nat → Nat) → Nat → Nat
  | 0, _, ucnt => ucnt
  | _ + 1, none, ucnt => ucnt
  | fuel + 1, some q, ucnt =>
      uframeCounts qhs fuel (qhs q).next
        (if (qhs q).uframe ≠ 0xff then
          Function.update ucnt (qhs q).uframe (ucnt (qhs q).uframe + 1) else ucnt)

/-- `while (t != NULL && t->next != NULL && t->next->period >= qh->period)
t = t->next;` from a non-`NULL` `t`. -/
def walkInsert (qhs : Nat → Qh) (period : Nat) : Nat → Nat → Nat
  | 0, t => t
  | fuel + 1, t =>
      match (qhs t).next with
      | some u => if period ≤ (qhs u).period then walkInsert qhs period fuel u else t
      | none => t

/-- `while (tmp != NULL && tmp->next != qh) tmp = tmp->next;` -/
def walkPrev (qhs : Nat → Qh) (qh : Nat) : Nat → Option Nat → Option Nat
  | 0, t => t
  | _ + 1, none => none
  | fuel + 1, some t => if (qhs t).next = some qh then some t else walkPrev qhs qh fuel (qhs t).next

/-- The hardware word for a driver link: `QH_PTR(next)` or `QH_PTR_INVALID`. -/
def linkPtr : Option Nat → Nat
  | some q => qhPtr (some q)
  | none => qhPtrInvalid

/-- The slot loop of `ehci_bandAlloc`: among the slots below
`min period EHCI_PERIODIC_SIZE`, the first with the fewest queue heads. -/
def bestPhase (periodicSize : Nat) (s : Hcd) (period : Nat) : Nat :=
  ((List.range (min period periodicSize)).foldl
    (fun (acc : Nat × Nat) i =>
      let n := chainCount s.qhs s.qhCount (s.periodicNodes i)
      if n < acc.1 then (n, i) else acc) (0xffffffff, 0)).2

/-- The microframe loop of `ehci_bandAlloc`: the first least used of the eight. -/
def bestUframe (ucnt : Nat → Nat) : Nat :=
  ((List.range 8).foldl
    (fun (acc : Nat × Nat) i => if ucnt i < acc.1 then (ucnt i, i) else acc)
    (0xffffffff, 0)).2

/-- `ehci_bandAlloc`. -/
def bandAlloc (periodicSize : Nat) (s : Hcd) (qh : Nat) : Hcd :=
  let s := s.modifyQh qh fun x => { x with phase := 0, uframe := 0xff }
  let s := s.modifyQh qh fun x => { x with phase := bestPhase periodicSize s x.period }
  let x := s.qhs qh
  if x.hw.info0 &&& qhHighSpeed ≠ 0 ∧ 1 < x.period then
    let ucnt := uframeCounts s.qhs s.qhCount (s.periodicNodes x.phase) fun _ => 0
    s.modifyQh qh fun x => { x with uframe := bestUframe ucnt }
  else s

/-- The S-mask and C-mask `ehci_qhLinkPeriodic` writes into `info[1]`. -/
def qhInfo1 (uframe : Nat) : Nat :=
  (if uframe ≠ 0xff then 1 <<< uframe else qhSmask) ||| qhCmask

/-- `for (i = qh->phase; i < EHCI_PERIODIC_SIZE; i += qh->period)`, making
`qh` the head of each slot met. A positive period needs at most
`EHCI_PERIODIC_SIZE` passes; for period 0 (the queue head of an isochronous
pipe) the C loop never ends, and the model stops after that many passes. -/
def fillSlots (periodicSize qh period : Nat) : Nat → Nat → Hcd → Hcd
  | 0, _, s => s
  | fuel + 1, i, s =>
      if i < periodicSize then
        fillSlots periodicSize qh period fuel (i + period)
          { s with periodicNodes := Function.update s.periodicNodes i (some qh),
                   periodicList := Function.update s.periodicList i (qhPtr (some qh)) }
      else s

/-- The new-first-element branch of `ehci_qhLinkPeriodic`. -/
def linkFirst (periodicSize : Nat) (s : Hcd) (qh : Nat) : Hcd :=
  let x := s.qhs qh
  let s := s.modifyQh qh fun x => { x with next := s.periodicNodes x.phase }
  fillSlots periodicSize qh x.period periodicSize x.phase s

/-- The insert-inside branch of `ehci_qhLinkPeriodic`, after `t`. -/
def linkInside (s : Hcd) (qh t : Nat) : Hcd :=
  let s := s.modifyQh qh fun x => { x with next := (s.qhs t).next }
  let s := s.modifyQh t fun x => { x with next := some qh }
  let s := s.modifyQh qh fun x => { x with hw := { x.hw with horizontal := qhPtr x.next } }
  s.modifyQh t fun x => { x with hw := { x.hw with horizontal := qhPtr (some qh) } }

/-- The chain walk of `ehci_qhLinkPeriodic` and the branch it selects. -/
def linkChain (periodicSize : Nat) (s : Hcd) (qh : Nat) : Hcd :=
  let x := s.qhs qh
  match (s.periodicNodes x.phase).map (walkInsert s.qhs x.period s.qhCount) with
  | some t => if (s.qhs t).period < x.period then linkFirst periodicSize s qh else linkInside s qh t
  | none => linkFirst periodicSize s qh

/-- `if (qh->next == NULL) qh->hw->horizontal |= QH_PTR_INVALID;` -/
def markLast (s : Hcd) (qh : Nat) : Hcd :=
  if (s.qhs qh).next = none then
    s.modifyQh qh fun x => { x with hw := { x.hw with horizontal := x.hw.horizontal ||| qhPtrInvalid } }
  else s

/-- `ehci_qhLinkPeriodic`. -/
def qhLinkPeriodic (periodicSize : Nat) (s : Hcd) (qh : Nat) : Hcd :=
  let s := bandAlloc periodicSize s qh
  let s := s.modifyQh qh fun x => { x with hw := { x.hw with info1 := qhInfo1 x.uframe } }
  markLast (linkChain periodicSize s qh) qh

/-- One pass of the slot loop of `ehci_qhUnlinkPeriodic`. -/
def unlinkSlot (s : Hcd) (qh i : Nat) : Hcd :=
  if s.periodicNodes i = some qh then
    { s with periodicList := Function.update s.periodicList i (linkPtr (s.qhs qh).next),
             periodicNodes := Function.update s.periodicNodes i (s.qhs qh).next }
  else
    match walkPrev s.qhs qh s.qhCount (s.periodicNodes i) with
    | some tmp =>
        if (s.qhs tmp).next = some qh then
          let s := s.modifyQh tmp fun x => { x with next := (s.qhs qh).next }
          s.modifyQh tmp fun x => { x with hw := { x.hw with horizontal := linkPtr x.next } }
        else s
    | none => s

/-- `ehci_qhUnlinkPeriodic`. -/
def qhUnlinkPeriodic (periodicSize : Nat) (s : Hcd) (qh : Nat) : Hcd :=
  (List.range periodicSize).foldl (fun s i => unlinkSlot s qh i) s

/-- Following `next` links from `x` meets exactly the queue heads of `l`, in
order, and then `NULL`. A chain is finite by construction. -/
inductive Chain (qhs : Nat → Qh) : Option Nat → List Nat → Prop
  | nil : Chain qhs none []
  | cons {q : Nat} {l : List Nat} : Chain qhs (qhs q).next l → Chain qhs (some q) (q :: l)

namespace Chain

variable {qhs qhs' : Nat → Qh} {x : Option Nat} {l l' : List Nat}

@[simp] theorem none_iff : Chain qhs none l ↔ l = [] :=
  ⟨fun h => by cases h; rfl, fun h => h ▸ nil⟩

theorem some_iff {q : Nat} : Chain qhs (some q) l ↔ ∃ l', l = q :: l' ∧ Chain qhs (qhs q).next l' :=
  ⟨fun h => by cases h with | cons h => exact ⟨_, rfl, h⟩, fun ⟨_, he, h⟩ => he ▸ cons h⟩

theorem eq_none_of_nil (h : Chain qhs x []) : x = none := by
  cases h
  rfl

/-- The links determine the chain. -/
theorem unique (h : Chain qhs x l) (h' : Chain qhs x l') : l = l' := by
  induction h generalizing l' with
  | nil => exact (none_iff.mp h').symm
  | cons _ ih =>
      obtain ⟨l'', rfl, h''⟩ := some_iff.mp h'
      rw [ih h'']

/-- The part of a chain from any of its members is the chain from that member. -/
theorem drop_of_eq {a b : List Nat} {q : Nat} (h : Chain qhs x l) (he : l = a ++ q :: b) :
    Chain qhs (some q) (q :: b) := by
  induction h generalizing a with
  | nil => simp at he
  | @cons y l _ ih =>
      cases a with
      | nil =>
          obtain ⟨rfl, rfl⟩ := List.cons.inj he
          exact cons ‹_›
      | cons z a => exact ih (List.cons.inj he).2

/-- A queue head does not come back on its own chain. -/
theorem not_mem_tail {q : Nat} (h : Chain qhs (some q) (q :: l)) : q ∉ l := by
  intro hq
  obtain ⟨a, b, rfl⟩ := List.append_of_mem hq
  have hLen := congrArg List.length (h.unique (h.drop_of_eq (List.cons_append q a (q :: b)).symm))
  simp at hLen
  omega

theorem nodup (h : Chain qhs x l) : l.Nodup := by
  induction h with
  | nil => exact List.nodup_nil
  | cons hTail ih => exact List.nodup_cons.mpr ⟨not_mem_tail (cons hTail), ih⟩

/-- Only the links of a chain's members matter for it. -/
theorem congr (h : Chain qhs x l) (hNext : ∀ y ∈ l, (qhs' y).next = (qhs y).next) :
    Chain qhs' x l := by
  induction h with
  | nil => exact nil
  | @cons q l _ ih =>
      refine cons ?_
      rw [hNext q (List.mem_cons_self q l)]
      exact ih fun y hy => hNext y (List.mem_cons_of_mem q hy)

/-- A chain of queue heads below `n` has at most `n` members. -/
theorem length_le (h : Chain qhs x l) {n : Nat} (hBound : ∀ y ∈ l, y < n) : l.length ≤ n := by
  rw [← List.toFinset_card_of_nodup h.nodup, ← Finset.card_range n]
  exact Finset.card_le_card fun y hy => Finset.mem_range.mpr (hBound y (List.mem_toFinset.mp hy))

/-- The successor of a member is a member. -/
theorem succ_mem {p r : Nat} (h : Chain qhs x l) (hp : p ∈ l) (hNext : (qhs p).next = some r) :
    r ∈ l := by
  induction h with
  | nil => simp at hp
  | @cons y l hTail ih =>
      rcases List.mem_cons.mp hp with rfl | hp
      · rw [hNext] at hTail
        obtain ⟨l', rfl, -⟩ := some_iff.mp hTail
        simp
      · exact List.mem_cons_of_mem y (ih hp)

/-- A member of a chain is not its own successor. -/
theorem next_ne_self {q : Nat} (h : Chain qhs x l) (hq : q ∈ l) : (qhs q).next ≠ some q := by
  intro hSelf
  obtain ⟨a, b, rfl⟩ := List.append_of_mem hq
  have hq' := h.drop_of_eq rfl
  obtain ⟨b', hb, hTail⟩ := Chain.some_iff.mp hq'
  rw [hSelf] at hTail
  obtain ⟨b'', rfl, -⟩ := Chain.some_iff.mp hTail
  cases hb
  exact hq'.not_mem_tail (List.mem_cons_self q b'')

/-- Linking `qh` after the member `t` puts it right behind `t` in every chain
through `t`. -/
theorem insert_after {t qh : Nat} (h : Chain qhs x l) (ht : t ∈ l) (hqh : qh ∉ l)
    (hT : (qhs' t).next = some qh) (hQh : (qhs' qh).next = (qhs t).next)
    (hOther : ∀ y, y ≠ t → y ≠ qh → (qhs' y).next = (qhs y).next) :
    ∃ a b, l = a ++ t :: b ∧ Chain qhs' x (a ++ t :: qh :: b) := by
  induction h with
  | nil => simp at ht
  | @cons y l hTail ih =>
      have hNodup := (cons hTail).nodup
      by_cases hy : y = t
      · subst hy
        refine ⟨[], l, rfl, cons ?_⟩
        rw [hT]
        refine cons ?_
        rw [hQh]
        refine hTail.congr fun z hz => hOther z ?_ ?_
        · rintro rfl
          exact (List.nodup_cons.mp hNodup).1 hz
        · rintro rfl
          exact hqh (List.mem_cons_of_mem _ hz)
      · have hyQh : y ≠ qh := fun he => hqh (he ▸ List.mem_cons_self y l)
        obtain ⟨a, b, rfl, hChain⟩ := ih ((List.mem_cons.mp ht).resolve_left (Ne.symm hy))
          (fun hm => hqh (List.mem_cons_of_mem y hm))
        exact ⟨y :: a, b, rfl, cons (by rw [hOther y hy hyQh]; exact hChain)⟩

/-- Redirecting the member `p` from `q` to `q`'s successor removes `q` from
every chain through `p`. -/
theorem skip {p q : Nat} (h : Chain qhs x l) (hp : p ∈ l) (hPq : (qhs p).next = some q)
    (hP : (qhs' p).next = (qhs q).next) (hOther : ∀ y, y ≠ p → (qhs' y).next = (qhs y).next) :
    Chain qhs' x (l.erase q) := by
  induction h with
  | nil => simp at hp
  | @cons y l hTail ih =>
      have hNodup := (cons hTail).nodup
      by_cases hy : y = p
      · subst hy
        rw [hPq] at hTail
        obtain ⟨l', rfl, hRest⟩ := some_iff.mp hTail
        have hne : y ≠ q := fun he => (List.nodup_cons.mp hNodup).1 (he ▸ List.mem_cons_self q l')
        rw [List.erase_cons_tail (by simpa using hne), List.erase_cons_head]
        refine cons ?_
        rw [hP]
        refine hRest.congr fun z hz => hOther z ?_
        rintro rfl
        exact (List.nodup_cons.mp hNodup).1 (List.mem_cons_of_mem q hz)
      · have hpl : p ∈ l := (List.mem_cons.mp hp).resolve_left (Ne.symm hy)
        have hyq : y ≠ q := by
          rintro rfl
          exact (List.nodup_cons.mp hNodup).1 (hTail.succ_mem hpl hPq)
        rw [List.erase_cons_tail (by simpa using hyq)]
        exact cons (by rw [hOther y hy]; exact ih hpl)

/-- On a chain ordered by non-increasing period, a bound on the head bounds
every member. -/
theorem period_le_of_head {P : Nat} (h : Chain qhs x l)
    (hSorted : l.Pairwise (fun a b => (qhs b).period ≤ (qhs a).period))
    (hHead : ∀ u, x = some u → (qhs u).period < P) : ∀ y ∈ l, (qhs y).period ≤ P := by
  cases h with
  | nil => simp
  | @cons u l _ =>
      intro y hy
      have hu := hHead u rfl
      rcases List.mem_cons.mp hy with rfl | hy
      · exact hu.le
      · exact ((List.pairwise_cons.mp hSorted).1 y hy).trans hu.le

end Chain

section Walks

variable {qhs : Nat → Qh} {x : Option Nat} {l : List Nat}

theorem chainCount_eq {fuel : Nat} (h : Chain qhs x l) (hFuel : l.length ≤ fuel) :
    chainCount qhs fuel x = l.length := by
  induction h generalizing fuel with
  | nil => cases fuel <;> rfl
  | cons _ ih =>
      obtain ⟨fuel, rfl⟩ : ∃ f, fuel = f + 1 := ⟨fuel - 1, by simp at hFuel; omega⟩
      simp only [chainCount, List.length_cons, ih (by simpa using hFuel)]

theorem walkPrev_mem {q p fuel : Nat} (h : Chain qhs x l) (hWalk : walkPrev qhs q fuel x = some p) :
    p ∈ l := by
  induction h generalizing fuel with
  | nil => cases fuel <;> simp [walkPrev] at hWalk
  | @cons y l _ ih =>
      cases fuel with
      | zero => simp [walkPrev] at hWalk; simp [hWalk]
      | succ fuel =>
          simp only [walkPrev] at hWalk
          split at hWalk
          · simp_all
          · exact List.mem_cons_of_mem y (ih hWalk)

/-- The walk of `ehci_qhUnlinkPeriodic` finds the predecessor of `q` on a
chain that holds `q` behind its head. -/
theorem walkPrev_found {q fuel : Nat} (h : Chain qhs x l) (hFuel : l.length ≤ fuel) (hq : q ∈ l)
    (hHead : x ≠ some q) : ∃ p, walkPrev qhs q fuel x = some p ∧ (qhs p).next = some q := by
  induction h generalizing fuel with
  | nil => simp at hq
  | @cons y l _ ih =>
      obtain ⟨fuel, rfl⟩ : ∃ f, fuel = f + 1 := ⟨fuel - 1, by simp at hFuel; omega⟩
      have hyq : y ≠ q := fun he => hHead (he ▸ rfl)
      simp only [walkPrev]
      split
      · exact ⟨y, rfl, ‹_›⟩
      · exact ih (by simpa using hFuel) ((List.mem_cons.mp hq).resolve_left (Ne.symm hyq)) ‹_›

/-- The walk of `ehci_qhLinkPeriodic` stops at a member whose successor is
missing or has a shorter period, and it only moves to queue heads whose
period is at least `period`. -/
theorem walkInsert_spec (period fuel : Nat) {t0 : Nat} (h : Chain qhs (some t0) l)
    (hFuel : l.length ≤ fuel + 1) :
    walkInsert qhs period fuel t0 ∈ l ∧
      (∀ u, (qhs (walkInsert qhs period fuel t0)).next = some u → (qhs u).period < period) ∧
      (period ≤ (qhs t0).period → period ≤ (qhs (walkInsert qhs period fuel t0)).period) := by
  induction fuel generalizing t0 l with
  | zero =>
      obtain ⟨l', rfl, hTail⟩ := Chain.some_iff.mp h
      have hNil : l' = [] := List.length_eq_zero.mp (by simpa using hFuel)
      subst hNil
      have hNone : (qhs t0).next = none := Chain.eq_none_of_nil hTail
      simp [walkInsert, hNone]
  | succ fuel ih =>
      obtain ⟨l', rfl, hTail⟩ := Chain.some_iff.mp h
      cases hNext : (qhs t0).next with
      | none => simp [walkInsert, hNext]
      | some u =>
          rw [hNext] at hTail
          by_cases hu : period ≤ (qhs u).period
          · obtain ⟨hMem, hStop, -⟩ := ih hTail (by simpa using hFuel)
            simp only [walkInsert, hNext, hu, if_true]
            exact ⟨List.mem_cons_of_mem t0 hMem, hStop, fun _ => (ih hTail (by simpa using hFuel)).2.2 hu⟩
          · simp only [walkInsert, hNext, hu, if_false]
            refine ⟨List.mem_cons_self t0 l', fun v hv => ?_, id⟩
            cases hv
            omega

end Walks

/-- The slot loop writes the two slot arrays only. -/
theorem fillSlots_eq (periodicSize qh period fuel i : Nat) (s : Hcd) :
    ∃ nodes list, fillSlots periodicSize qh period fuel i s =
      { s with periodicNodes := nodes, periodicList := list } := by
  induction fuel generalizing i s with
  | zero => exact ⟨s.periodicNodes, s.periodicList, rfl⟩
  | succ fuel ih =>
      simp only [fillSlots]
      split
      · obtain ⟨nodes, list, h⟩ := ih (i + period) _
        exact ⟨nodes, list, h⟩
      · exact ⟨s.periodicNodes, s.periodicList, rfl⟩

/-- The slot loop makes `qh` the head of some slots below the frame-list
size and leaves the others alone. -/
theorem fillSlots_nodes (periodicSize qh period fuel i j : Nat) (s : Hcd) :
    (fillSlots periodicSize qh period fuel i s).periodicNodes j = s.periodicNodes j ∨
      (j < periodicSize ∧ (fillSlots periodicSize qh period fuel i s).periodicNodes j = some qh) := by
  induction fuel generalizing i s with
  | zero => exact Or.inl rfl
  | succ fuel ih =>
      simp only [fillSlots]
      split
      · rcases ih (i + period) _ with h | h
        · rw [h]
          by_cases hj : j = i
          · subst hj
            exact Or.inr ⟨‹_›, by simp⟩
          · exact Or.inl (by simp [hj])
        · exact Or.inr h
      · exact Or.inl rfl

/-- The slot loop reaches every slot `i + k * period` below the frame-list
size within its `fuel` passes. -/
theorem fillSlots_hits (periodicSize qh period : Nat) :
    ∀ (fuel i k : Nat) (s : Hcd), k < fuel → i + k * period < periodicSize →
      (fillSlots periodicSize qh period fuel i s).periodicNodes (i + k * period) = some qh
  | 0, _, _, _, hk, _ => absurd hk (Nat.not_lt_zero _)
  | fuel + 1, i, k, s, hk, hj => by
      have hi : i < periodicSize := Nat.lt_of_le_of_lt (Nat.le_add_right i _) hj
      simp only [fillSlots, if_pos hi]
      cases k with
      | zero =>
          rcases fillSlots_nodes periodicSize qh period fuel (i + period) i
            { s with periodicNodes := Function.update s.periodicNodes i (some qh),
                     periodicList := Function.update s.periodicList i (qhPtr (some qh)) } with h | h
          · simpa using h
          · simpa using h.2
      | succ k =>
          have he : i + (k + 1) * period = i + period + k * period := by
            rw [Nat.succ_mul]; omega
          rw [he] at hj ⊢
          exact fillSlots_hits periodicSize qh period fuel (i + period) k _ (by omega) hj

end Ehci
