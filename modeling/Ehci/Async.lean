import Ehci.Alloc
import Mathlib.Data.List.Chain
import Mathlib.Data.List.Nodup

/-! The asynchronous schedule: `ehci_qhLinkAsync` and `ehci_qhUnlinkAsync`
on the ring that `ehci_init` starts with the dummy head. The schedule stop
and restart around the hardware write are register accesses and leave the
descriptors alone, so they do not appear here. -/
namespace Ehci

/-- `ehci_qhLinkAsync`: insert `qh` right after the dummy head. A `NULL`
successor would fault in the source; the ring never has one. -/
def qhLinkAsync (s : Hcd) (qh : Nat) : Hcd :=
  let head := s.asyncList
  let s := s.modifyQh qh fun x => { x with next := (s.qhs head).next }
  let s := s.modifyQh qh fun x => { x with prev := some head }
  let s := match (s.qhs qh).next with
    | some n => s.modifyQh n fun x => { x with prev := some qh }
    | none => s
  let s := s.modifyQh head fun x => { x with next := some qh }
  let s := s.modifyQh qh fun x => { x with hw := { x.hw with horizontal := (s.qhs head).hw.horizontal } }
  s.modifyQh head fun x => { x with hw := { x.hw with horizontal := qhPtr (some qh) } }

/-- `ehci_qhUnlinkAsync`: the predecessor's horizontal pointer skips `qh`,
then the driver links do. -/
def qhUnlinkAsync (s : Hcd) (qh : Nat) : Hcd :=
  let x := s.qhs qh
  let s := match x.prev with
    | some p => s.modifyQh p fun y => { y with hw := { y.hw with horizontal := x.hw.horizontal } }
    | none => s
  let s := match (s.qhs qh).prev with
    | some p => s.modifyQh p fun y => { y with next := (s.qhs qh).next }
    | none => s
  match (s.qhs qh).next with
  | some n => s.modifyQh n fun y => { y with prev := (s.qhs qh).prev }
  | none => s

/-- `b` follows `a` on the ring in both link directions and in hardware. -/
def AsyncLink (s : Hcd) (a b : Nat) : Prop :=
  (s.qhs a).next = some b ∧ (s.qhs b).prev = some a ∧ (s.qhs a).hw.horizontal = qhPtr (some b)

/-- `ring` is the async ring read from the dummy head: no queue head twice,
and the walk around it and back to the head follows `AsyncLink` at every
step, so `next` and `prev` are inverse and the horizontal pointers trace
the same single cycle. -/
def AsyncRing (s : Hcd) (ring : List Nat) : Prop :=
  ring.head? = some s.asyncList ∧ ring.Nodup ∧ (ring ++ [s.asyncList]).Chain' (AsyncLink s)

/-- The states `ehci_init` and the async-list calls reach, with the queue
heads linked after the dummy head, newest first. -/
inductive AsyncRun : Hcd → List Nat → Prop
  | init (trs : Nat → Transfer) (pipes : Nat → Pipe) (memory : Nat) :
      AsyncRun (ehciInit trs pipes memory) []
  | link {s : Hcd} {linked : List Nat} (q : Nat) (prior : AsyncRun s linked)
      (hOff : q ∉ s.asyncList :: linked) : AsyncRun (qhLinkAsync s q) (q :: linked)
  | unlink {s : Hcd} {linked : List Nat} (q : Nat) (prior : AsyncRun s linked)
      (hOn : q ∈ linked) : AsyncRun (qhUnlinkAsync s q) (linked.erase q)

/-- A chain keeps its relation when the relation only changes off the
chain's first components (`dropLast`) and second components (`tail`). -/
theorem chain'_imp_of_pairs {R R' : Nat → Nat → Prop} :
    ∀ {l : List Nat}, l.Chain' R → (∀ x ∈ l.dropLast, ∀ y ∈ l.tail, R x y → R' x y) →
      l.Chain' R'
  | [], _, _ => List.chain'_nil
  | [_], _, _ => List.chain'_singleton _
  | x :: y :: l, h, hR => by
      rw [List.chain'_cons] at h ⊢
      refine ⟨hR x (by simp) y (by simp) h.1, chain'_imp_of_pairs h.2 fun a ha b hb => hR a ?_ b ?_⟩
      · rw [List.dropLast_cons₂]
        exact List.mem_cons_of_mem x ha
      · exact List.mem_of_mem_tail hb

/-- Every first component of a chain has its successor on the chain. -/
theorem chain'_succ_of_mem_dropLast {R : Nat → Nat → Prop} {x : Nat} :
    ∀ {l : List Nat}, l.Chain' R → x ∈ l.dropLast → ∃ y ∈ l.tail, R x y
  | [], _, hx => absurd hx (List.not_mem_nil x)
  | [_], _, hx => absurd hx (List.not_mem_nil x)
  | a :: b :: l, h, hx => by
      rw [List.chain'_cons] at h
      rw [List.dropLast_cons₂, List.mem_cons] at hx
      rcases hx with rfl | hx
      · exact ⟨b, List.mem_cons_self b l, h.1⟩
      · obtain ⟨y, hy, hxy⟩ := chain'_succ_of_mem_dropLast h.2 hx
        exact ⟨y, List.mem_cons_of_mem b hy, hxy⟩

/-- Every second component of a chain has its predecessor on the chain. -/
theorem chain'_pred_of_mem_tail {R : Nat → Nat → Prop} {x : Nat} :
    ∀ {l : List Nat}, l.Chain' R → x ∈ l.tail → ∃ w ∈ l.dropLast, R w x
  | [], _, hx => absurd hx (List.not_mem_nil x)
  | [_], _, hx => absurd hx (List.not_mem_nil x)
  | a :: b :: l, h, hx => by
      rw [List.chain'_cons] at h
      rw [List.dropLast_cons₂]
      rcases List.mem_cons.1 hx with rfl | hx
      · exact ⟨a, List.mem_cons_self a _, h.1⟩
      · obtain ⟨w, hw, hwx⟩ := chain'_pred_of_mem_tail h.2 hx
        exact ⟨w, List.mem_cons_of_mem a hw, hwx⟩

/-- On the ring every queue head `x` has `x->next->prev = x` and
`x->prev->next = x`, with both neighbours on the ring. -/
theorem AsyncRing.neighbours {s : Hcd} {ring : List Nat} {x : Nat} (h : AsyncRing s ring)
    (hx : x ∈ ring) : (∃ y ∈ ring, AsyncLink s x y) ∧ ∃ w ∈ ring, AsyncLink s w x := by
  obtain ⟨hHead, -, hChain⟩ := h
  obtain ⟨rest, rfl⟩ : ∃ rest, ring = s.asyncList :: rest := by
    cases ring with
    | nil => cases hHead
    | cons a rest => cases hHead; exact ⟨rest, rfl⟩
  have hTail : ∀ {y}, y ∈ (s.asyncList :: rest ++ [s.asyncList]).tail → y ∈ s.asyncList :: rest := by
    intro y hy
    rw [List.cons_append, List.tail_cons, List.mem_append, List.mem_singleton] at hy
    rcases hy with hy | rfl
    exacts [List.mem_cons_of_mem _ hy, List.mem_cons_self _ _]
  constructor
  · obtain ⟨y, hy, hxy⟩ := chain'_succ_of_mem_dropLast hChain (by rwa [List.dropLast_concat])
    exact ⟨y, hTail hy, hxy⟩
  · have hxT : x ∈ (s.asyncList :: rest ++ [s.asyncList]).tail := by
      rcases List.mem_cons.1 hx with rfl | hx
      · simp
      · simp [hx]
    obtain ⟨w, hw, hwx⟩ := chain'_pred_of_mem_tail hChain hxT
    rw [List.dropLast_concat] at hw
    exact ⟨w, hw, hwx⟩

section Link

variable {s : Hcd} {q r : Nat}

@[simp]
theorem qhLinkAsync_asyncList : (qhLinkAsync s q).asyncList = s.asyncList := by
  unfold qhLinkAsync
  dsimp only
  split <;> rfl

/-- The links `ehci_qhLinkAsync` leaves when `q` is not the dummy head and
`r` was the head's successor. -/
theorem qhLinkAsync_fields (hqd : q ≠ s.asyncList) (hqr : q ≠ r)
    (hr : (s.qhs s.asyncList).next = some r) (y : Nat) :
    ((qhLinkAsync s q).qhs y).next =
        (if y = s.asyncList then some q else if y = q then some r else (s.qhs y).next) ∧
      ((qhLinkAsync s q).qhs y).prev =
        (if y = q then some s.asyncList else if y = r then some q else (s.qhs y).prev) ∧
      ((qhLinkAsync s q).qhs y).hw.horizontal =
        (if y = s.asyncList then qhPtr (some q)
          else if y = q then (s.qhs s.asyncList).hw.horizontal else (s.qhs y).hw.horizontal) := by
  unfold qhLinkAsync
  -- the head's old successor is the head itself, or another queue head
  rcases eq_or_ne s.asyncList r with rfl | hrA
  · by_cases hyA : y = s.asyncList
    · subst hyA
      simp [Function.update_apply, Ne.symm hqd, hr]
    by_cases hyq : y = q
    · subst hyq
      simp [Function.update_apply, hqd, hr, Ne.symm hyA]
    · simp [Function.update_apply, hyA, hyq, hr, Ne.symm hqd]
  · by_cases hyA : y = s.asyncList
    · subst hyA
      simp [Function.update_apply, Ne.symm hqd, hr, hrA]
    by_cases hyq : y = q
    · subst hyq
      simp [Function.update_apply, hqd, hr, hqr, Ne.symm hyA, hrA]
    by_cases hyr : y = r
    · subst hyr
      simp [Function.update_apply, hyA, hyq, Ne.symm hyq, hr, Ne.symm hqd, hrA]
    · simp [Function.update_apply, hyA, hyq, hr, Ne.symm hqd, hrA, hyr]

end Link

section Unlink

variable {s : Hcd} {q p n : Nat}

@[simp]
theorem qhUnlinkAsync_asyncList : (qhUnlinkAsync s q).asyncList = s.asyncList := by
  unfold qhUnlinkAsync
  dsimp only
  repeat' split
  all_goals rfl

/-- The links `ehci_qhUnlinkAsync` leaves when `q` sits between `p` and `n`. -/
theorem qhUnlinkAsync_fields (hp : (s.qhs q).prev = some p) (hn : (s.qhs q).next = some n)
    (hpq : p ≠ q) (y : Nat) :
    ((qhUnlinkAsync s q).qhs y).next = (if y = p then some n else (s.qhs y).next) ∧
      ((qhUnlinkAsync s q).qhs y).prev = (if y = n then some p else (s.qhs y).prev) ∧
      ((qhUnlinkAsync s q).qhs y).hw.horizontal =
        (if y = p then (s.qhs q).hw.horizontal else (s.qhs y).hw.horizontal) := by
  unfold qhUnlinkAsync
  simp only [hp, Hcd.modifyQh_qhs, Function.update_apply, if_neg hpq.symm, hn]
  split_ifs <;> simp_all

end Unlink

section Ring

variable {s : Hcd} {q : Nat} {rest : List Nat}

/-- `ehci_qhLinkAsync` on a queue head off the ring puts it right after the
dummy head. -/
theorem asyncRing_link (hRing : AsyncRing s (s.asyncList :: rest))
    (hq : q ∉ s.asyncList :: rest) : AsyncRing (qhLinkAsync s q) (s.asyncList :: q :: rest) := by
  obtain ⟨-, hNodup, hChain⟩ := hRing
  set d := s.asyncList
  obtain ⟨r, W, hW⟩ : ∃ r W, rest ++ [d] = r :: W :=
    ⟨(rest ++ [d]).head (by simp), (rest ++ [d]).tail, (List.head_cons_tail _ _).symm⟩
  rw [List.cons_append, hW, List.chain'_cons] at hChain
  obtain ⟨⟨hdr, hrd, hdHor⟩, hTail⟩ := hChain
  have hWalk : (rest ++ [d]).Nodup := by
    rw [List.nodup_append_comm]
    exact hNodup
  rw [hW] at hWalk
  rw [List.mem_cons, not_or] at hq
  have hWalkMem : ∀ {y}, y ∈ r :: W → y = d ∨ y ∈ rest := fun hy => by
    rw [← hW, List.mem_append, List.mem_singleton] at hy
    exact hy.symm
  have hqr : q ≠ r := by
    rintro rfl
    exact (hWalkMem (List.mem_cons_self q W)).elim hq.1 hq.2
  have hF := qhLinkAsync_fields hq.1 hqr hdr
  refine ⟨by simp, List.nodup_cons.2 ⟨?_, List.nodup_cons.2 ⟨hq.2, (List.nodup_cons.1 hNodup).2⟩⟩, ?_⟩
  · rw [List.mem_cons, not_or]
    exact ⟨Ne.symm hq.1, (List.nodup_cons.1 hNodup).1⟩
  rw [qhLinkAsync_asyncList, List.cons_append, List.cons_append, hW, List.chain'_cons, List.chain'_cons]
  refine ⟨⟨?_, ?_, ?_⟩, ⟨?_, ?_, ?_⟩, chain'_imp_of_pairs hTail fun x hx y hy hxy => ?_⟩
  · simp [(hF d).1]
  · simp [(hF q).2.1]
  · simp [(hF d).2.2]
  · simp [(hF q).1, hq.1]
  · simp [(hF r).2.1, Ne.symm hqr]
  · simp [(hF q).2.2, hq.1, hdHor]
  -- old pairs past the dummy head: neither end is written
  rw [← hW, List.dropLast_concat] at hx
  have hxd : x ≠ d := fun h => (List.nodup_cons.1 hNodup).1 (h ▸ hx)
  have hxq : x ≠ q := fun h => hq.2 (h ▸ hx)
  have hyr : y ≠ r := fun h => (List.nodup_cons.1 hWalk).1 (h ▸ hy)
  have hyq : y ≠ q := by
    rintro rfl
    exact (hWalkMem (List.mem_cons_of_mem r hy)).elim hq.1 hq.2
  obtain ⟨h1, h2, h3⟩ := hxy
  exact ⟨by simp [(hF x).1, hxd, hxq, h1], by simp [(hF y).2.1, hyq, hyr, h2],
    by simp [(hF x).2.2, hxd, hxq, h3]⟩

/-- `ehci_qhUnlinkAsync` on a queue head of the ring takes it out and joins
its neighbours. -/
theorem asyncRing_unlink (hRing : AsyncRing s (s.asyncList :: rest)) (hq : q ∈ rest) :
    AsyncRing (qhUnlinkAsync s q) (s.asyncList :: rest.erase q) := by
  obtain ⟨-, hNodup, hChain⟩ := hRing
  set d := s.asyncList
  obtain ⟨A, B, rfl⟩ := List.append_of_mem hq
  obtain ⟨P, p, hP⟩ : ∃ P p, d :: A = P ++ [p] :=
    ⟨(d :: A).dropLast, (d :: A).getLast (List.cons_ne_nil d A), (List.dropLast_append_getLast _).symm⟩
  obtain ⟨n, Q, hQ⟩ : ∃ n Q, B ++ [d] = n :: Q :=
    ⟨(B ++ [d]).head (by simp), (B ++ [d]).tail, (List.head_cons_tail _ _).symm⟩
  have hSplit : ∀ M, d :: (A ++ M) ++ [d] = P ++ p :: (M ++ [d]) := fun M => by
    rw [List.cons_append, List.append_assoc, ← List.cons_append, hP, List.append_assoc,
      List.singleton_append]
  have hND := hNodup
  simp only [List.nodup_cons, List.nodup_append, List.mem_append, List.mem_cons, not_or,
    List.disjoint_cons_right] at hND
  obtain ⟨⟨hdA, hdq, hdB⟩, hAnd, ⟨hqB, hBnd⟩, hqA, hAB⟩ := hND
  have hpMem : p ∈ d :: A := by rw [hP]; exact List.mem_concat_self P p
  have hnMem : n ∈ B ++ [d] := by rw [hQ]; exact List.mem_cons_self n Q
  rw [List.mem_append, List.mem_singleton] at hnMem
  have hpq : p ≠ q := by
    rintro rfl
    rcases List.mem_cons.1 hpMem with h | h
    exacts [hdq h.symm, hqA h]
  rw [hSplit (q :: B), List.cons_append, hQ, List.chain'_append_cons_cons, List.chain'_cons]
    at hChain
  obtain ⟨hLeft, hpq', hqn, hRight⟩ := hChain
  have hF := qhUnlinkAsync_fields hpq'.2.1 hqn.1 hpq
  have hKeep : ∀ x y, x ≠ p → y ≠ n → AsyncLink s x y → AsyncLink (qhUnlinkAsync s q) x y :=
    fun x y hxp hyn ⟨h1, h2, h3⟩ =>
      ⟨by simp [(hF x).1, hxp, h1], by simp [(hF y).2.1, hyn, h2], by simp [(hF x).2.2, hxp, h3]⟩
  refine ⟨by simp, ?_, ?_⟩
  · rw [List.erase_append_right _ hqA, List.erase_cons_head]
    exact hNodup.sublist (((List.sublist_cons_self q B).append_left A).cons_cons d)
  rw [List.erase_append_right _ hqA, List.erase_cons_head, qhUnlinkAsync_asyncList, hSplit B, hQ,
    List.chain'_append_cons_cons]
  refine ⟨chain'_imp_of_pairs hLeft fun x hx y hy => hKeep x y ?_ ?_,
    ⟨by simp [(hF p).1], by simp [(hF n).2.1], by simp [(hF p).2.2, hqn.2.2]⟩,
    chain'_imp_of_pairs hRight fun x hx y hy => hKeep x y ?_ ?_⟩
  · -- the dummy head and `A` come before `q`, so no pair there starts at `p`
    rw [List.dropLast_concat] at hx
    rintro rfl
    exact (List.nodup_append.1 (hP ▸ hNodup.sublist ((List.sublist_append_left A _).cons_cons d))).2.2
      hx (List.mem_singleton_self x)
  · rw [← hP, List.tail_cons] at hy
    rintro rfl
    rcases hnMem with h | rfl
    exacts [hAB hy h, hdA hy]
  · rw [← hQ, List.dropLast_concat] at hx
    rintro rfl
    rcases List.mem_cons.1 hpMem with rfl | h
    exacts [hdB hx, hAB h hx]
  · have hQnd : (n :: Q).Nodup := hQ ▸ List.nodup_append.2 ⟨hBnd, List.nodup_singleton d,
      List.disjoint_singleton.2 hdB⟩
    exact fun h => (List.nodup_cons.1 hQnd).1 (h ▸ hy)

end Ring

/-- In every state the async-list calls reach from `ehci_init`, the dummy
head and exactly the linked queue heads form one ring, along which `next` and
`prev` are inverse and every horizontal pointer names the `next` neighbour. -/
theorem async_ring_consistent {s : Hcd} {linked : List Nat} (run : AsyncRun s linked) :
    AsyncRing s (s.asyncList :: linked) := by
  induction run with
  | init trs pipes memory =>
      refine ⟨rfl, List.nodup_singleton _, ?_⟩
      simp [AsyncLink, ehciInit, asyncHead]
  | link q prior hOff ih =>
      rw [qhLinkAsync_asyncList]
      exact asyncRing_link ih hOff
  | unlink q prior hOn ih =>
      rw [qhUnlinkAsync_asyncList]
      exact asyncRing_unlink ih hOn

/-- Queue heads 1, 2 and 3 linked after `ehci_init` and 2, between two linked
queue heads, unlinked again: the ring is the dummy head, 3 and 1. -/
theorem async_ring_consistent_middle_unlinked :
    ∃ s, AsyncRun s [3, 1] ∧ (s.qhs 0).next = some 3 ∧ (s.qhs 3).next = some 1 ∧
      (s.qhs 1).next = some 0 ∧ AsyncRing s (s.asyncList :: [3, 1]) := by
  have run : AsyncRun _ [3, 1] := .unlink 2 (.link 3 (.link 2 (.link 1
    (.init (fun _ => idleTransfer) (fun _ => hsInterruptPipe 1) 0) (by decide)) (by decide)) (by decide))
    (by decide)
  exact ⟨_, run, by decide, by decide, by decide, async_ring_consistent run⟩

end Ehci
