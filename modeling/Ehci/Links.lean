import Ehci.Submit
import Ehci.PeriodicRun

/-! What the two schedules of the controller read of a driver state: each
queue head's driver links, horizontal pointer, period and liveness, the arena
size, the two list heads, the queue-head pool, and which queue head each pipe
holds. Every call but the linking and unlinking of a queue head and the two
pool calls leaves this view, most of them by one frame lemma each; the others
get lemmas that say which queue heads they write. -/
namespace Ehci

/-- What the schedules read of one queue head. -/
structure QhLinks where
  next : Option Nat
  prev : Option Nat
  horizontal : Nat
  period : Nat
  live : Bool

/-- The links of a queue head. -/
def Qh.links (x : Qh) : QhLinks := ⟨x.next, x.prev, x.hw.horizontal, x.period, x.live⟩

/-- What the schedules read of a state: the links of every queue head, the
arena size, the async list head, the two slot arrays, the queue-head pool,
and each pipe's queue head with the pipe's type. -/
structure Links where
  qhs : Nat → QhLinks
  qhCount : Nat
  asyncList : Nat
  periodicNodes : Nat → Option Nat
  periodicList : Nat → Nat
  qhPool : List Nat
  holders : Nat → Option Nat × TransferType

namespace Hcd

/-- The schedule view of a state. -/
def links (s : Hcd) : Links where
  qhs x := (s.qhs x).links
  qhCount := s.qhCount
  asyncList := s.asyncList
  periodicNodes := s.periodicNodes
  periodicList := s.periodicList
  qhPool := s.qhPool
  holders p := ((s.pipes p).hcdpriv, (s.pipes p).type)

variable {s : Hcd} {q : Nat}

/-- A write to a queue head that keeps its links. -/
theorem links_modifyQh {f : Qh → Qh} (hf : (f (s.qhs q)).links = (s.qhs q).links) :
    (s.modifyQh q f).links = s.links := by
  have h : (fun x => ((s.modifyQh q f).qhs x).links) = fun x => (s.qhs x).links := by
    funext x
    by_cases hx : x = q
    · subst hx
      simp [hf]
    · simp [Function.update_noteq hx]
  unfold links
  rw [h]
  rfl

/-- qTD writes leave the links. -/
@[simp]
theorem links_modifyQtd {f : Qtd → Qtd} : (s.modifyQtd q f).links = s.links := rfl

/-- Transfer writes leave the links. -/
@[simp]
theorem links_modifyTr {f : Transfer → Transfer} : (s.modifyTr q f).links = s.links := rfl

/-- A write to a pipe that keeps its queue head and its type. -/
theorem links_modifyPipe {f : Pipe → Pipe} (hq : (f (s.pipes q)).hcdpriv = (s.pipes q).hcdpriv)
    (ht : (f (s.pipes q)).type = (s.pipes q).type) : (s.modifyPipe q f).links = s.links := by
  have h : (fun p => (((s.modifyPipe q f).pipes p).hcdpriv, ((s.modifyPipe q f).pipes p).type)) =
      fun p => ((s.pipes p).hcdpriv, (s.pipes p).type) := by
    funext p
    by_cases hp : p = q
    · subst hp
      simp [hq, ht]
    · simp [Function.update_noteq hp]
  unfold links
  rw [h]
  rfl

end Hcd

section Frame

variable {cfg : Config} {va2pa : Nat → Nat} {s : Hcd} {q : Nat}

/-- A conditional write to a queue head that keeps its links. -/
theorem links_ite_modifyQh {c : Prop} [Decidable c] {f : Qh → Qh}
    (hf : ∀ x, (f x).links = x.links) : (if c then s.modifyQh q f else s).links = s.links := by
  split
  · exact Hcd.links_modifyQh (hf _)
  · rfl

/-- `ehci_continue` moves only the overlay of the queue head. -/
theorem links_ehciContinue (qh last : Nat) : (ehciContinue s qh last).links = s.links := by
  unfold ehciContinue
  rw [links_ite_modifyQh, links_ite_modifyQh, links_ite_modifyQh] <;> exact fun _ => rfl

/-- The `ehci_continue` call of a reaping moves no link. -/
theorem links_continueAfter (t : Nat) : (continueAfter s t).links = s.links := by
  unfold continueAfter
  dsimp only
  split
  · split
    · exact links_ehciContinue _ _
    · rfl
  · rfl

/-- Pooling qTDs moves no link. -/
theorem links_qtdsPut (L : List Nat) : (qtdsPut cfg s L).links = s.links := by
  obtain ⟨qtds, pool, n, h⟩ := @qtdsPut_eq cfg s L
  rw [h]
  rfl

/-- One reaping moves no link. -/
theorem links_reap (t : Nat) (st : Int) : (reap cfg s t st).links = s.links :=
  (links_qtdsPut _).trans (links_continueAfter t)

/-- One reaping leaves the pipes. -/
theorem pipes_reap (t : Nat) (st : Int) : (reap cfg s t st).pipes = s.pipes := by
  obtain ⟨_, _, _, _, -, h⟩ := @reap_eq cfg s t st
  rw [h]

/-- `ehci_transUpdate` reaps transfers, which moves no schedule link. -/
theorem transUpdate_frame (hNodup : s.transfers.Nodup) :
    (transUpdate cfg s).links = s.links ∧ (transUpdate cfg s).pipes = s.pipes :=
  transUpdate_induction (fun s' => s'.links = s.links ∧ s'.pipes = s.pipes) (fun s' t hs _ => by
    unfold reapIfFinished
    dsimp only
    split
    · exact ⟨(links_reap t _).trans hs.1, (pipes_reap t _).trans hs.2⟩
    · exact hs) hNodup ⟨rfl, rfl⟩

/-- `ehci_qtdsDeactivate` writes qTD tokens only. -/
theorem qtdsDeactivate_frame (ring : List Nat) :
    (qtdsDeactivate s ring).links = s.links ∧ (qtdsDeactivate s ring).pipes = s.pipes ∧
      (qtdsDeactivate s ring).transfers = s.transfers := by
  induction ring generalizing s with
  | nil => exact ⟨rfl, rfl, rfl⟩
  | cons r ring ih => exact ih

/-- The deactivation loop of `ehci_pipeDestroy` writes qTD tokens only. -/
theorem deactivateOn_frame (qh : Nat) (ts : List Nat) :
    (deactivateOn s qh ts).links = s.links ∧ (deactivateOn s qh ts).pipes = s.pipes ∧
      (deactivateOn s qh ts).transfers = s.transfers := by
  induction ts generalizing s with
  | nil => exact ⟨rfl, rfl, rfl⟩
  | cons t ts ih =>
      rw [deactivateOn]
      split
      · split
        · obtain ⟨h1, h2, h3⟩ := @qtdsDeactivate_frame s (s.trs t).hcdpriv
          obtain ⟨h1', h2', h3'⟩ := @ih (qtdsDeactivate s (s.trs t).hcdpriv)
          exact ⟨h1'.trans h1, h2'.trans h2, h3'.trans h3⟩
        · exact ih
      · exact ih

/-- `ehci_qhPut` leaves the pipes. -/
theorem qhPut_pipes : (qhPut cfg s q).pipes = s.pipes := by
  obtain ⟨qhs, pool, n, h, -⟩ := qhPut_eq cfg s q
  rw [h]

/-- The linking loop of `ehci_transferEnqueue` writes qTDs only. -/
theorem links_qtdsLink (qh first : Nat) (L : List Nat) : (qtdsLink s qh first L).links = s.links := by
  obtain ⟨qtds, h⟩ := (qtdsLink_spec qh first s L).1
  rw [h]
  rfl

/-- `ehci_enqueue` writes qTDs and the cursor and overlay of the queue head. -/
theorem links_enqueue (qh first last : Nat) : (enqueue s qh first last).links = s.links := by
  unfold enqueue
  dsimp only
  split <;> simp only [Hcd.links_modifyQh, Hcd.links_modifyQtd, Qh.links, implies_true]

/-- Building stages writes the qTD side only. -/
theorem Built.links_eq {s₀ : Hcd} {held list : List Nat} (hb : Built cfg s₀ held s list) :
    s.links = s₀.links ∧ s.pipes = s₀.pipes := by
  obtain ⟨qtds, c, pool, n, mem, rfl⟩ := hb.frame
  exact ⟨rfl, rfl⟩

/-- After the queue head, `ehci_transferEnqueue` builds, links and queues qTDs,
which moves no schedule link. -/
theorem transferEnqueue_frame {pipeOf : Nat → Nat} {t pipe qh : Nat} {s₁ : Hcd}
    (h : Owned cfg pipeOf s) (hRoot : (s.pipes pipe).roothub = false)
    (hQh : pipeQh cfg s (s.trs t) pipe = some (s₁, qh)) :
    (transferEnqueue cfg va2pa s t pipe).1.links = s₁.links ∧
      (transferEnqueue cfg va2pa s t pipe).1.pipes = s₁.pipes := by
  obtain ⟨h₁, -, -⟩ := pipeQh_owned h hQh
  simp only [transferEnqueue, hRoot, hQh, Bool.false_eq_true, if_false]
  rcases @transferQtds_stages cfg va2pa s₁ _ t (s₁.pipes pipe) h₁.qtds.qtds_held
    h₁.qtds.bound with ⟨s', L, hb, hEq⟩ | ⟨hb, hOk⟩
  · have hNeg : (stageFail cfg s' t L).2.2 < 0 := by simp [stageFail, eNomem]
    rw [hEq, if_pos hNeg]
    obtain ⟨hl, hp⟩ := hb.links_eq
    obtain ⟨qtds, pool, n, hPut⟩ := @qtdsPut_eq cfg s' L
    simp only [stageFail, Hcd.links_modifyTr, Hcd.modifyTr_pipes, hPut]
    exact ⟨hl, hp⟩
  rw [if_neg hOk]
  obtain ⟨hl, hp⟩ := hb.links_eq
  split
  · exact ⟨hl, hp⟩
  · exact ⟨(links_enqueue _ _ _).trans ((links_qtdsLink _ _ _).trans hl),
      enqueue_pipes.trans ((qtdsLink_pipes _).trans hp)⟩

end Frame

/-- Setting the pool aside commutes with a branch. -/
theorem Hcd.unpooled_ite {c : Prop} [Decidable c] {a b : Hcd} :
    (if c then a else b).unpooled = if c then a.unpooled else b.unpooled := by
  split <;> rfl

section Unpooled

variable {N : Nat} {s : Hcd} {q : Nat}

/-- The slot loop of `ehci_qhLinkPeriodic` does not read the pool. -/
theorem fillSlots_unpooled (qh period fuel i : Nat) (s : Hcd) :
    fillSlots N qh period fuel i s.unpooled = (fillSlots N qh period fuel i s).unpooled := by
  induction fuel generalizing i s with
  | zero => rfl
  | succ fuel ih =>
      simp only [fillSlots]
      split
      · exact ih (i + period)
          { s with periodicNodes := Function.update s.periodicNodes i (some qh),
                   periodicList := Function.update s.periodicList i (qhPtr (some qh)) }
      · rfl

/-- `ehci_bandAlloc` does not read the pool. -/
theorem bandAlloc_unpooled : bandAlloc N s.unpooled q = (bandAlloc N s q).unpooled := by
  unfold bandAlloc
  dsimp only
  rw [Hcd.unpooled_ite]
  rfl

/-- The new-first-element branch of `ehci_qhLinkPeriodic` does not read the pool. -/
theorem linkFirst_unpooled : linkFirst N s.unpooled q = (linkFirst N s q).unpooled :=
  fillSlots_unpooled _ _ _ _ (s.modifyQh q fun x => { x with next := s.periodicNodes x.phase })

/-- The insertion of `ehci_qhLinkPeriodic` does not read the pool. -/
theorem linkChain_unpooled : linkChain N s.unpooled q = (linkChain N s q).unpooled := by
  unfold linkChain
  dsimp only
  have hd : (s.unpooled.periodicNodes (s.unpooled.qhs q).phase).map
      (walkInsert s.unpooled.qhs (s.unpooled.qhs q).period s.unpooled.qhCount) =
      (s.periodicNodes (s.qhs q).phase).map (walkInsert s.qhs (s.qhs q).period s.qhCount) := rfl
  rw [hd]
  cases (s.periodicNodes (s.qhs q).phase).map (walkInsert s.qhs (s.qhs q).period s.qhCount) with
  | none => exact linkFirst_unpooled
  | some t =>
      dsimp only
      rw [Hcd.unpooled_ite, ← linkFirst_unpooled]
      rfl

/-- The last-element write of `ehci_qhLinkPeriodic` does not read the pool. -/
theorem markLast_unpooled : markLast s.unpooled q = (markLast s q).unpooled := by
  unfold markLast
  rw [Hcd.unpooled_ite]
  rfl

/-- `ehci_qhLinkPeriodic` does not read the pool. -/
theorem qhLinkPeriodic_unpooled :
    qhLinkPeriodic N s.unpooled q = (qhLinkPeriodic N s q).unpooled := by
  unfold qhLinkPeriodic
  dsimp only
  rw [bandAlloc_unpooled, ← markLast_unpooled, ← linkChain_unpooled]
  rfl

/-- One pass of the slot loop of `ehci_qhUnlinkPeriodic` does not read the pool. -/
theorem unlinkSlot_unpooled (i : Nat) : unlinkSlot s.unpooled q i = (unlinkSlot s q i).unpooled := by
  unfold unlinkSlot
  rw [Hcd.unpooled_ite]
  refine if_congr Iff.rfl rfl ?_
  have hd : walkPrev s.unpooled.qhs q s.unpooled.qhCount (s.unpooled.periodicNodes i) =
      walkPrev s.qhs q s.qhCount (s.periodicNodes i) := rfl
  rw [hd]
  cases walkPrev s.qhs q s.qhCount (s.periodicNodes i) with
  | none => rfl
  | some p =>
      dsimp only
      rw [Hcd.unpooled_ite]
      rfl

/-- `ehci_qhUnlinkPeriodic` does not read the pool. -/
theorem qhUnlinkPeriodic_unpooled :
    qhUnlinkPeriodic N s.unpooled q = (qhUnlinkPeriodic N s q).unpooled := by
  unfold qhUnlinkPeriodic
  generalize List.range N = L
  induction L generalizing s with
  | nil => rfl
  | cons i L ih => rw [List.foldl_cons, List.foldl_cons, unlinkSlot_unpooled, ih]

end Unpooled

section Touched

variable {N : Nat} {s : Hcd} {q x : Nat} {linked : List Nat}

/-- `ehci_bandAlloc` writes `q` only. -/
theorem bandAlloc_qhs_ne (hx : x ≠ q) : (bandAlloc N s q).qhs x = s.qhs x := by
  unfold bandAlloc
  dsimp only
  split <;> simp [Function.update_noteq hx]

/-- The new-first-element branch writes `q` and slots only. -/
theorem linkFirst_qhs_ne (hx : x ≠ q) : (linkFirst N s q).qhs x = s.qhs x := by
  unfold linkFirst
  obtain ⟨nodes, list, h⟩ := fillSlots_eq N q (s.qhs q).period N (s.qhs q).phase
    (s.modifyQh q fun y => { y with next := s.periodicNodes y.phase })
  rw [h]
  simp [Function.update_noteq hx]

/-- The last-element write of `ehci_qhLinkPeriodic` writes `q` only. -/
theorem markLast_qhs_ne (hx : x ≠ q) : (markLast s q).qhs x = s.qhs x := by
  unfold markLast
  split <;> simp [Function.update_noteq hx]

/-- `ehci_qhLinkPeriodic` writes `q` and the chain member it inserts `q`
after, so no queue head off the chains. -/
theorem qhLinkPeriodic_qhs_off (hInv : PeriodicInv N s linked) (hx : x ≠ q) (hxl : x ∉ linked) :
    (qhLinkPeriodic N s q).qhs x = s.qhs x := by
  set s₁ := (bandAlloc N s q).modifyQh q
    fun y => { y with hw := { y.hw with info1 := qhInfo1 y.uframe } }
  have hInv₁ : PeriodicInv N s₁ linked :=
    hInv.of_same ((bandAlloc_same N s q).modifyQh (fun _ => rfl) (fun _ => rfl))
  have h₁ : s₁.qhs x = s.qhs x := by simp [s₁, Function.update_noteq hx, bandAlloc_qhs_ne hx]
  show (markLast (linkChain N s₁ q) q).qhs x = s.qhs x
  rw [markLast_qhs_ne hx, ← h₁]
  unfold linkChain
  dsimp only
  split
  · rename_i t ht
    obtain ⟨t0, ht0, rfl⟩ := Option.map_eq_some'.1 ht
    split
    · exact linkFirst_qhs_ne hx
    -- the walk stops on a chain member, which is not `x`
    obtain ⟨c, hc, -, hMem⟩ := hInv₁.chain (s₁.qhs q).phase
    rw [ht0] at hc
    have htc := (walkInsert_spec (s₁.qhs q).period s₁.qhCount hc
      ((hInv₁.chain_length_le hc hMem).trans (Nat.le_succ _))).1
    have hxt : x ≠ walkInsert s₁.qhs (s₁.qhs q).period s₁.qhCount t0 :=
      fun he => hxl (he ▸ hMem _ htc)
    simp [linkInside, Function.update_noteq hx, Function.update_noteq hxt]
  · exact linkFirst_qhs_ne hx

/-- One pass of the slot loop of `ehci_qhUnlinkPeriodic` writes a chain
member only, and the chains after it lie within those before. -/
theorem unlinkSlot_off (hOff : ∀ j, ∃ c, Chain s.qhs (s.periodicNodes j) c ∧ x ∉ c) (i : Nat) :
    (unlinkSlot s q i).qhs x = s.qhs x ∧
      ∀ j, ∃ c, Chain (unlinkSlot s q i).qhs ((unlinkSlot s q i).periodicNodes j) c ∧ x ∉ c := by
  refine ⟨?_, fun j => ?_⟩
  · rcases unlinkSlot_cases s q i with ⟨-, h⟩ | ⟨p, -, hWalk, -, h⟩ | ⟨-, -, h⟩ <;> rw [h]
    obtain ⟨c, hc, hx⟩ := hOff i
    have hxp : x ≠ p := fun he => hx (he ▸ walkPrev_mem hc hWalk)
    simp [Function.update_noteq hxp]
  · obtain ⟨c, hc, hx⟩ := hOff j
    rcases unlinkSlot_chain s q i j hc with h | h
    exacts [⟨c, h, hx⟩, ⟨_, h, fun he => hx (List.mem_of_mem_erase he)⟩]

/-- The slot loop of `ehci_qhUnlinkPeriodic`, from any slot on, writes no queue
head off the chains. -/
theorem unlinkSlots_off (L : List Nat) :
    ∀ {s : Hcd}, (∀ j, ∃ c, Chain s.qhs (s.periodicNodes j) c ∧ x ∉ c) →
      (L.foldl (fun s i => unlinkSlot s q i) s).qhs x = s.qhs x := by
  induction L with
  | nil => exact fun _ => rfl
  | cons i L ih =>
      intro s hOff
      obtain ⟨h₁, hOff₁⟩ := unlinkSlot_off hOff i
      exact (ih hOff₁).trans h₁

/-- `ehci_qhUnlinkPeriodic` writes no queue head off the chains. -/
theorem qhUnlinkPeriodic_qhs_off (hInv : PeriodicInv N s linked) (hxl : x ∉ linked) :
    (qhUnlinkPeriodic N s q).qhs x = s.qhs x :=
  unlinkSlots_off _ fun j => by
    obtain ⟨c, hc, -, hMem⟩ := hInv.chain j
    exact ⟨c, hc, fun he => hxl (hMem x he)⟩

/-- `ehci_qhLinkAsync` writes queue heads only. -/
theorem qhLinkAsync_eq : ∃ qhs, qhLinkAsync s q = { s with qhs := qhs } := by
  unfold qhLinkAsync
  dsimp only
  split <;> exact ⟨_, rfl⟩

/-- `ehci_qhUnlinkAsync` writes queue heads only. -/
theorem qhUnlinkAsync_eq : ∃ qhs, qhUnlinkAsync s q = { s with qhs := qhs } := by
  unfold qhUnlinkAsync
  dsimp only
  repeat' split
  all_goals exact ⟨_, rfl⟩

/-- The async calls keep every queue head's liveness. -/
theorem qhLinkAsync_live : ((qhLinkAsync s q).qhs x).live = (s.qhs x).live := by
  unfold qhLinkAsync
  dsimp only
  split <;> simp only [live_modifyQh, implies_true]

/-- `ehci_qhUnlinkAsync` keeps every queue head's liveness. -/
theorem qhUnlinkAsync_live : ((qhUnlinkAsync s q).qhs x).live = (s.qhs x).live := by
  unfold qhUnlinkAsync
  dsimp only
  repeat' split
  all_goals simp only [live_modifyQh, implies_true]

/-- `ehci_qhLinkAsync` writes `q`, the dummy head and the head's old successor. -/
theorem qhLinkAsync_qhs_off (hx : x ≠ s.asyncList) (hxq : x ≠ q)
    (hxr : (s.qhs s.asyncList).next ≠ some x) : (qhLinkAsync s q).qhs x = s.qhs x := by
  unfold qhLinkAsync
  dsimp only
  split
  · rename_i n hn
    have hnx : x ≠ n := by
      rintro rfl
      exact hxr (by simpa using hn)
    simp [Function.update_noteq hx, Function.update_noteq hxq, Function.update_noteq hnx]
  · simp [Function.update_noteq hx, Function.update_noteq hxq]

/-- `ehci_qhUnlinkAsync` writes the neighbours of `q` only. -/
theorem qhUnlinkAsync_qhs_off {p n : Nat} (hp : (s.qhs q).prev = some p)
    (hn : (s.qhs q).next = some n) (hpq : p ≠ q) (hxp : x ≠ p) (hxn : x ≠ n) :
    (qhUnlinkAsync s q).qhs x = s.qhs x := by
  unfold qhUnlinkAsync
  simp [hp, Function.update_noteq hpq.symm, hn, Function.update_noteq hxp, Function.update_noteq hxn]

/-- Relinking twice is relinking. -/
theorem Relinked.trans {s t u : Hcd} (h : Relinked s t) (h' : Relinked t u) : Relinked s u := by
  obtain ⟨qhs, nodes, list, rfl⟩ := h
  obtain ⟨qhs', nodes', list', rfl⟩ := h'
  exact ⟨qhs', nodes', list', rfl⟩

/-- `ehci_qhUnlinkPeriodic` writes queue heads and slots only. -/
theorem relinked_qhUnlinkPeriodic : Relinked s (qhUnlinkPeriodic N s q) := by
  unfold qhUnlinkPeriodic
  generalize List.range N = L
  induction L generalizing s with
  | nil => exact Relinked.refl s
  | cons i L ih =>
      rw [List.foldl_cons]
      refine Relinked.trans ?_ ih
      rcases unlinkSlot_cases s q i with ⟨-, h⟩ | ⟨p, -, -, -, h⟩ | ⟨-, -, h⟩ <;> rw [h]
      · exact ⟨s.qhs, _, _, rfl⟩
      · exact (Relinked.refl s).modifyQh.modifyQh
      · exact Relinked.refl s

end Touched

end Ehci
