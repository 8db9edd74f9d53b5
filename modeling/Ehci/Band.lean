import Ehci.Driver

/-! What `ehci_bandAlloc` chooses. Both of its loops scan the candidates from
index 0 with `best` starting at `(unsigned)-1`, and keep an index only when
its count is strictly below `best`: the index kept is the first of the least
counts. For the phase the count is the number of queue heads on the slot's
periodic chain; for the microframe, the number of queue heads on the chosen
phase's chain that use it. -/
namespace Ehci

/-- `k` is the first index below `n` with the least `f`. -/
def FirstMin (f : Nat → Nat) (n k : Nat) : Prop :=
  k < n ∧ (∀ j < n, f k ≤ f j) ∧ ∀ j < k, f k < f j

/-- One pass of the two loops of `ehci_bandAlloc`: candidate `i` replaces the
best so far only when its count is strictly below. -/
def scanStep (f : Nat → Nat) (acc : Nat × Nat) (i : Nat) : Nat × Nat :=
  if f i < acc.1 then (f i, i) else acc

theorem bestPhase_eq (N : Nat) (s : Hcd) (P : Nat) : bestPhase N s P =
    ((List.range (min P N)).foldl
      (scanStep fun i => chainCount s.qhs s.qhCount (s.periodicNodes i)) (0xffffffff, 0)).2 :=
  rfl

theorem bestUframe_eq (ucnt : Nat → Nat) :
    bestUframe ucnt = ((List.range 8).foldl (scanStep ucnt) (0xffffffff, 0)).2 :=
  rfl

/-- Scanning the first `n` candidates, every count below the start `B`,
keeps the first index of the least count, with that count. -/
theorem scan_firstMin (f : Nat → Nat) (B : Nat) : ∀ n, 0 < n → (∀ i < n, f i < B) →
    ((List.range n).foldl (scanStep f) (B, 0)).1 = f ((List.range n).foldl (scanStep f) (B, 0)).2 ∧
      FirstMin f n ((List.range n).foldl (scanStep f) (B, 0)).2
  | 0, h, _ => absurd h (Nat.lt_irrefl 0)
  | 1, _, hB => by
      have h0 := hB 0 Nat.one_pos
      simp only [show List.range 1 = [0] from rfl, List.foldl_cons, List.foldl_nil, scanStep, h0,
        if_true]
      exact ⟨trivial, Nat.one_pos, fun j hj => by rw [Nat.lt_one_iff.1 hj],
        fun j hj => absurd hj (by omega)⟩
  | n + 2, _, hB => by
      obtain ⟨hBest, hk, hMin, hFirst⟩ :=
        scan_firstMin f B (n + 1) (Nat.succ_pos n) fun i hi => hB i (by omega)
      rw [List.range_succ, List.foldl_append, List.foldl_cons, List.foldl_nil]
      generalize (List.range (n + 1)).foldl (scanStep f) (B, 0) = r at hBest hk hMin hFirst
      unfold scanStep
      split
      · rename_i hLt
        rw [hBest] at hLt
        refine ⟨rfl, by omega, fun j hj => ?_, fun j hj => ?_⟩
        · rcases Nat.lt_succ_iff_lt_or_eq.1 hj with hj | rfl
          · exact hLt.le.trans (hMin j hj)
          · exact le_rfl
        · exact hLt.trans_le (hMin j hj)
      · rename_i hGe
        rw [hBest] at hGe
        refine ⟨hBest, by omega, fun j hj => ?_, hFirst⟩
        rcases Nat.lt_succ_iff_lt_or_eq.1 hj with hj | rfl
        · exact hMin j hj
        · exact Nat.le_of_not_lt hGe

section Counts

variable {qhs qhs' : Nat → Qh} {x : Option Nat} {c : List Nat}

/-- The walk of the phase loop reads only the links. -/
theorem chainCount_congr (hNext : ∀ y, (qhs' y).next = (qhs y).next) :
    ∀ fuel x, chainCount qhs' fuel x = chainCount qhs fuel x
  | 0, _ => rfl
  | _ + 1, none => rfl
  | fuel + 1, some q => by simp only [chainCount, hNext, chainCount_congr hNext fuel]

theorem chainCount_le : ∀ fuel x, chainCount qhs fuel x ≤ fuel
  | 0, _ => le_rfl
  | _ + 1, none => Nat.zero_le _
  | fuel + 1, some _ => Nat.succ_le_succ (chainCount_le fuel _)

/-- The microframe loop counts, for each microframe, the queue heads of the
chain that use it, when it has the fuel to walk the whole chain. -/
theorem uframeCounts_chain (h : Chain qhs x c) {fuel : Nat} (hFuel : c.length ≤ fuel)
    (ucnt : Nat → Nat) (u : Nat) :
    uframeCounts qhs fuel x ucnt u =
      ucnt u + c.countP fun y => (qhs y).uframe ≠ 0xff ∧ (qhs y).uframe = u := by
  induction h generalizing fuel ucnt with
  | nil => cases fuel <;> rfl
  | @cons q l _ ih =>
      obtain ⟨fuel, rfl⟩ : ∃ f, fuel = f + 1 := ⟨fuel - 1, by simp at hFuel; omega⟩
      rw [uframeCounts, ih (by simpa using hFuel), List.countP_cons]
      by_cases hff : (qhs q).uframe = 0xff
      · simp [hff]
      · by_cases hu : (qhs q).uframe = u
        · subst hu
          simp [hff]
          omega
        · simp [hff, hu, Function.update_apply, Ne.symm hu]

theorem uframeCounts_le (ucnt : Nat → Nat) (u : Nat) :
    ∀ fuel x, uframeCounts qhs fuel x ucnt u ≤ ucnt u + fuel := by
  intro fuel
  induction fuel generalizing ucnt with
  | zero => intro x; exact Nat.le_refl _
  | succ fuel ih =>
      rintro (_ | q)
      · exact Nat.le_add_right _ _
      · refine (ih _ _).trans ?_
        split
        · rw [Function.update_apply]
          split
          · subst u
            omega
          · omega
        · omega

end Counts

/-- The fields of a queue head that `ehci_bandAlloc` and the S-mask write of
`ehci_qhLinkPeriodic` set. -/
def Qh.band (x : Qh) : Nat × Nat × Nat := (x.phase, x.uframe, x.hw.info1)

section Band

variable {N : Nat} {s : Hcd} {q : Nat}

theorem band_modifyQh {f : Qh → Qh} (y : Nat) (hf : (f (s.qhs q)).band = (s.qhs q).band) :
    ((s.modifyQh q f).qhs y).band = (s.qhs y).band := by
  by_cases hy : y = q
  · subst hy
    simpa using hf
  · simp [Function.update_noteq hy]

theorem band_linkFirst (y : Nat) : ((linkFirst N s q).qhs y).band = (s.qhs y).band := by
  unfold linkFirst
  obtain ⟨nodes, list, h⟩ := fillSlots_eq N q (s.qhs q).period N (s.qhs q).phase
    (s.modifyQh q fun y => { y with next := s.periodicNodes y.phase })
  rw [h]
  show ((s.modifyQh q fun y => { y with next := s.periodicNodes y.phase }).qhs y).band = _
  exact band_modifyQh y (by rfl)

/-- The chain walk and either branch of `ehci_qhLinkPeriodic` write links
and horizontal pointers only. -/
theorem band_linkChain (y : Nat) : ((linkChain N s q).qhs y).band = (s.qhs y).band := by
  unfold linkChain
  dsimp only
  split
  · split
    · exact band_linkFirst y
    · simp only [linkInside]
      rw [band_modifyQh y rfl, band_modifyQh y rfl, band_modifyQh y rfl, band_modifyQh y rfl]
  · exact band_linkFirst y

theorem band_markLast (y : Nat) : ((markLast s q).qhs y).band = (s.qhs y).band := by
  unfold markLast
  split
  · exact band_modifyQh y rfl
  · rfl

/-- The phase loop reads only the links, the count and the slots. -/
theorem bestPhase_congr {s' : Hcd} (hNext : ∀ y, (s'.qhs y).next = (s.qhs y).next)
    (hCount : s'.qhCount = s.qhCount) (hNodes : s'.periodicNodes = s.periodicNodes) (P : Nat) :
    bestPhase N s' P = bestPhase N s P := by
  simp only [bestPhase_eq, chainCount_congr hNext, hCount, hNodes]

/-- `ehci_qhLinkPeriodic` leaves in the queue head it links the phase and
microframe `ehci_bandAlloc` chose, and the S-mask of that microframe. -/
theorem qhLinkPeriodic_band : ((qhLinkPeriodic N s q).qhs q).band =
    (((bandAlloc N s q).qhs q).phase, ((bandAlloc N s q).qhs q).uframe,
      qhInfo1 ((bandAlloc N s q).qhs q).uframe) := by
  simp only [qhLinkPeriodic, band_markLast, band_linkChain]
  simp [Qh.band]

/-- The reset of `ehci_bandAlloc`'s first lines leaves every link. -/
theorem next_reset (y : Nat) :
    ((s.modifyQh q fun x => { x with phase := 0, uframe := 0xff }).qhs y).next = (s.qhs y).next := by
  by_cases hy : y = q
  · subst hy
    simp
  · simp [Function.update_noteq hy]

/-- The phase loop runs over the schedule as `ehci_bandAlloc` found it. -/
theorem bandAlloc_phase : ((bandAlloc N s q).qhs q).phase = bestPhase N s (s.qhs q).period := by
  unfold bandAlloc
  dsimp only
  split <;> simp [bestPhase_congr next_reset rfl rfl]

/-- The microframe loop runs for a high-speed queue head of period over one
frame, counting the queue heads of the chosen phase's chain; every other
queue head keeps `uframe = 0xff`, every microframe. -/
theorem bandAlloc_uframe : ((bandAlloc N s q).qhs q).uframe =
    if (s.qhs q).hw.info0 &&& qhHighSpeed ≠ 0 ∧ 1 < (s.qhs q).period then
      bestUframe (uframeCounts (Function.update s.qhs q
        { s.qhs q with phase := ((bandAlloc N s q).qhs q).phase, uframe := 0xff })
        s.qhCount (s.periodicNodes ((bandAlloc N s q).qhs q).phase) fun _ => 0)
    else 0xff := by
  rw [bandAlloc_phase]
  unfold bandAlloc
  dsimp only
  split <;> rename_i h <;> simp only [Hcd.modifyQh_qhCount, Hcd.modifyQh_periodicNodes,
    Hcd.modifyQh_qhs, Function.update_same, bestPhase_congr next_reset rfl rfl] at h ⊢
  · rw [if_pos h]
    refine congrArg (fun qhs => bestUframe (uframeCounts qhs _ _ _)) (funext fun y => ?_)
    by_cases hy : y = q
    · subst hy
      simp
    · simp [Function.update_noteq hy]
  · rw [if_neg h]

end Band

theorem FirstMin.congr {f g : Nat → Nat} {n k : Nat} (h : FirstMin f n k)
    (hfg : ∀ i < n, f i = g i) : FirstMin g n k := by
  obtain ⟨hk, hMin, hFirst⟩ := h
  refine ⟨hk, fun j hj => ?_, fun j hj => ?_⟩
  · rw [← hfg _ hk, ← hfg _ hj]
    exact hMin j hj
  · rw [← hfg _ hk, ← hfg _ (hj.trans hk)]
    exact hFirst j hj

section Choice

variable {N : Nat} {s : Hcd} {q : Nat}

/-- What `ehci_qhLinkPeriodic` finds when `ehci_transferEnqueue` links a new
queue head into a reachable schedule: every chain is finite, of allocated
queue heads, and misses the new one. -/
theorem PeriodicRun.chains_before_link {linked : List Nat} (run : PeriodicRun N s linked)
    (hq : q ∉ linked) (f : Qh → Qh) :
    ∀ i, ∃ c, Chain (s.modifyQh q f).qhs ((s.modifyQh q f).periodicNodes i) c ∧
      c.length ≤ (s.modifyQh q f).qhCount ∧ q ∉ c := fun i => by
  have hInv := run.inv.modifyQh_unlinked (f := f) hq
  obtain ⟨c, hc, -, hM⟩ := hInv.chain i
  exact ⟨c, hc, hInv.chain_length_le hc hM, fun h => hq (hM q h)⟩

theorem qhLinkPeriodic_phase : ((qhLinkPeriodic N s q).qhs q).phase = bestPhase N s (s.qhs q).period := by
  have h := congrArg Prod.fst (@qhLinkPeriodic_band N s q)
  simpa [Qh.band, bandAlloc_phase] using h

/-- `ehci_qhLinkPeriodic` links a queue head of positive period at the first
slot, below its period and the frame-list length, whose periodic chain is
shortest: no other candidate's chain is shorter, and every earlier
candidate's is longer. -/
theorem qhLinkPeriodic_phase_shortest (hP : 0 < (s.qhs q).period) (hN : 0 < N)
    (hCount : s.qhCount < 0xffffffff)
    (hChains : ∀ i, ∃ c, Chain s.qhs (s.periodicNodes i) c ∧ c.length ≤ s.qhCount) :
    ((qhLinkPeriodic N s q).qhs q).phase < min (s.qhs q).period N ∧
      ∀ j < min (s.qhs q).period N, ∀ c c',
        Chain s.qhs (s.periodicNodes ((qhLinkPeriodic N s q).qhs q).phase) c →
        Chain s.qhs (s.periodicNodes j) c' →
          c.length ≤ c'.length ∧ (j < ((qhLinkPeriodic N s q).qhs q).phase → c.length < c'.length) := by
  obtain ⟨-, hk, hMin, hFirst⟩ := scan_firstMin (fun i => chainCount s.qhs s.qhCount (s.periodicNodes i))
    0xffffffff (min (s.qhs q).period N) (lt_min hP hN) fun i _ => (chainCount_le _ _).trans_lt hCount
  have hCountEq : ∀ i c, Chain s.qhs (s.periodicNodes i) c →
      chainCount s.qhs s.qhCount (s.periodicNodes i) = c.length := fun i c hc => by
    obtain ⟨c₀, hc₀, hLen⟩ := hChains i
    rw [hc.unique hc₀]
    exact chainCount_eq hc₀ hLen
  rw [qhLinkPeriodic_phase, bestPhase_eq]
  refine ⟨hk, fun j hj c c' hc hc' => ?_⟩
  rw [← hCountEq _ c hc, ← hCountEq j c' hc']
  exact ⟨hMin j hj, hFirst j⟩

set_option maxRecDepth 4000 in
/-- A period-4 endpoint linked after a period-2 one on the 128-slot build:
the even slots hold the period-2 queue head and the odd ones nothing, so the
new queue head goes to slot 1. -/
theorem phase_shortest_after_period_two :
    ∃ s, PeriodicRun 128 s [1] ∧ s.periodicNodes 0 = some 1 ∧ s.periodicNodes 1 = none ∧
      let s' := s.modifyQh 2 fun _ => qhConf qhFresh (hsInterruptPipe 6)
      ((qhLinkPeriodic 128 s' 2).qhs 2).phase = 1 ∧
      ((qhLinkPeriodic 128 s' 2).qhs 2).phase < min (s'.qhs 2).period 128 ∧
      ∀ j < min (s'.qhs 2).period 128, ∀ c c',
        Chain s'.qhs (s'.periodicNodes ((qhLinkPeriodic 128 s' 2).qhs 2).phase) c →
        Chain s'.qhs (s'.periodicNodes j) c' →
          c.length ≤ c'.length ∧ (j < ((qhLinkPeriodic 128 s' 2).qhs 2).phase → c.length < c'.length) := by
  have run : PeriodicRun 128 _ [1] := .alloc (.link 1 (hsInterruptPipe 5)
    (.alloc (.init (fun _ => idleTransfer) (fun _ => hsInterruptPipe 5) 2) rfl)
    (by decide) (by decide) rfl) rfl
  have hChains := run.chains_before_link (q := 2) (by decide) fun _ => qhConf qhFresh (hsInterruptPipe 6)
  exact ⟨_, run, by decide, by decide, by decide, qhLinkPeriodic_phase_shortest (by decide) (by decide)
    (by decide) fun i => (hChains i).imp fun _ h => ⟨h.1, h.2.1⟩⟩

theorem qhLinkPeriodic_uframe :
    ((qhLinkPeriodic N s q).qhs q).uframe = ((bandAlloc N s q).qhs q).uframe ∧
      ((qhLinkPeriodic N s q).qhs q).hw.info1 = qhInfo1 ((bandAlloc N s q).qhs q).uframe := by
  have h := @qhLinkPeriodic_band N s q
  simp only [Qh.band, Prod.mk.injEq] at h
  exact h.2

/-- For a high-speed queue head of period over one frame, on none of the
chains, `ehci_qhLinkPeriodic` takes the first of the eight microframes least
used by the queue heads on the chain of the phase it chose, and sets the
S-mask to that one microframe; any other queue head gets `uframe = 0xff` and
the S-mask of every microframe. -/
theorem qhLinkPeriodic_uframe_least_used (hCount : s.qhCount < 0xffffffff)
    (hChains : ∀ i, ∃ c, Chain s.qhs (s.periodicNodes i) c ∧ c.length ≤ s.qhCount ∧ q ∉ c) :
    ((s.qhs q).hw.info0 &&& qhHighSpeed ≠ 0 ∧ 1 < (s.qhs q).period →
      ∃ c, Chain s.qhs (s.periodicNodes ((qhLinkPeriodic N s q).qhs q).phase) c ∧
        FirstMin (fun u => c.countP fun y => (s.qhs y).uframe = u) 8
          ((qhLinkPeriodic N s q).qhs q).uframe ∧
        ((qhLinkPeriodic N s q).qhs q).hw.info1 =
          1 <<< ((qhLinkPeriodic N s q).qhs q).uframe ||| qhCmask) ∧
    (¬((s.qhs q).hw.info0 &&& qhHighSpeed ≠ 0 ∧ 1 < (s.qhs q).period) →
      ((qhLinkPeriodic N s q).qhs q).uframe = 0xff ∧
        ((qhLinkPeriodic N s q).qhs q).hw.info1 = qhSmask ||| qhCmask) := by
  obtain ⟨hU, hI⟩ := @qhLinkPeriodic_uframe N s q
  have hPhase : ((qhLinkPeriodic N s q).qhs q).phase = ((bandAlloc N s q).qhs q).phase := by
    rw [qhLinkPeriodic_phase, bandAlloc_phase]
  rw [hU, hI, hPhase, bandAlloc_uframe]
  refine ⟨fun h => ?_, fun h => by simp [if_neg h, qhInfo1]⟩
  rw [if_pos h]
  set φ := ((bandAlloc N s q).qhs q).phase
  set qhs₂ := Function.update s.qhs q { s.qhs q with phase := φ, uframe := 0xff }
  obtain ⟨c, hc, hLen, hq⟩ := hChains φ
  have hSame : ∀ y ∈ c, qhs₂ y = s.qhs y := fun y hy =>
    Function.update_noteq (fun he : y = q => hq (he ▸ hy)) _ _
  have hc₂ : Chain qhs₂ (s.periodicNodes φ) c := hc.congr fun y hy => by rw [hSame y hy]
  have hCounts : ∀ u < 8, uframeCounts qhs₂ s.qhCount (s.periodicNodes φ) (fun _ => 0) u =
      c.countP fun y => (s.qhs y).uframe = u := fun u hu => by
    rw [uframeCounts_chain hc₂ hLen, Nat.zero_add]
    refine List.countP_congr fun y hy => ?_
    rw [hSame y hy]
    simp only [decide_eq_true_eq]
    constructor
    · exact And.right
    · intro he
      exact ⟨by omega, he⟩
  obtain ⟨-, hFirst⟩ := scan_firstMin (uframeCounts qhs₂ s.qhCount (s.periodicNodes φ) fun _ => 0)
    0xffffffff 8 (by decide) fun i _ => (uframeCounts_le _ i _ _).trans_lt (by simpa using hCount)
  rw [← bestUframe_eq] at hFirst
  refine ⟨c, hc, hFirst.congr hCounts, ?_⟩
  have h8 : bestUframe (uframeCounts qhs₂ s.qhCount (s.periodicNodes φ) fun _ => 0) ≠ 0xff := by
    have := hFirst.1
    omega
  simp [qhInfo1, h8]

set_option maxRecDepth 4000 in
/-- A third endpoint of period 2 on the 128-slot build, after two that took
slots 0 and 1 and microframe 0: it goes to slot 0, behind the first, and
takes microframe 1. -/
theorem uframe_least_used_third_period_two :
    ∃ s, PeriodicRun 128 s [2, 1] ∧ s.periodicNodes 0 = some 1 ∧ s.periodicNodes 1 = some 2 ∧
      let s' := s.modifyQh 3 fun _ => qhConf qhFresh (hsInterruptPipe 5)
      ((qhLinkPeriodic 128 s' 3).qhs 3).uframe = 1 ∧
      ((s'.qhs 3).hw.info0 &&& qhHighSpeed ≠ 0 ∧ 1 < (s'.qhs 3).period →
        ∃ c, Chain s'.qhs (s'.periodicNodes ((qhLinkPeriodic 128 s' 3).qhs 3).phase) c ∧
          FirstMin (fun u => c.countP fun y => (s'.qhs y).uframe = u) 8
            ((qhLinkPeriodic 128 s' 3).qhs 3).uframe ∧
          ((qhLinkPeriodic 128 s' 3).qhs 3).hw.info1 =
            1 <<< ((qhLinkPeriodic 128 s' 3).qhs 3).uframe ||| qhCmask) ∧
      (¬((s'.qhs 3).hw.info0 &&& qhHighSpeed ≠ 0 ∧ 1 < (s'.qhs 3).period) →
        ((qhLinkPeriodic 128 s' 3).qhs 3).uframe = 0xff ∧
          ((qhLinkPeriodic 128 s' 3).qhs 3).hw.info1 = qhSmask ||| qhCmask) := by
  have run : PeriodicRun 128 _ [2, 1] := .alloc (.link 2 (hsInterruptPipe 5) (.link 1 (hsInterruptPipe 5)
    (.alloc (.alloc (.init (fun _ => idleTransfer) (fun _ => hsInterruptPipe 5) 3) rfl) rfl)
    (by decide) (by decide) rfl) (by decide) (by decide) rfl) rfl
  exact ⟨_, run, by decide, by decide, by decide, qhLinkPeriodic_uframe_least_used (by decide)
    (run.chains_before_link (by decide) _)⟩

end Choice

end Ehci
