import GcLite.Collect
import GcLite.MemInvariant

/-!
# Marking in slices

How a cycle is cut into calls makes no difference to it. A call that runs out of budget puts the
node it has popped back on the list, and the next call pops it again; in between nothing else is
written. So two calls are one call with the sum of their budgets, and a cycle is over after as many
calls as it takes to trace every live node once.

## Main definitions

* `markGraysSlices`, `markSlices` — one call after another, with given budgets
* `liveNodes` — the nodes of the chains, each once

## Main results

* `markGraysLoop_add` — a loop that is cut off is taken up where it stopped
* `markGrays_slicing` — two sequences of budgets that finish lead to the same heap
* `mark_terminates` — how often `while !mark(i, k) {}` goes round
* `GcHeap.garbageCollect_isSome` — so a collection ends
-/

namespace GcLite

open Transition

namespace MarkState

variable {s t : MarkState} {i : ℕ} {a : MarkAction} {as : List MarkAction}

/-! ### Progress through all partitions -/

/-- The list of partition `i` and the payloads name live nodes only. -/
structure Grounded (s : MarkState) (i : ℕ) : Prop where
  /-- Every entry is a live node of some partition. -/
  entry : ∀ n ∈ s.gray i, s.Live n
  /-- No reference dangles. -/
  refs_live : ∀ n, s.Live n → ∀ c ∈ s.refs n, s.Live c

/-- The nodes of a set that have not been traced. -/
def untraced (s : MarkState) (live : Finset NodePtr) : Finset NodePtr :=
  live.filter fun n => s.color n ≠ .black

theorem Grounded.step (h : s.Grounded i) (hst : MarkStep i s a t) : t.Grounded i := by
  cases hst with
  | skip hg hn => exact ⟨fun m hm => h.entry m (mem_gray_of_pop hg hm), h.refs_live⟩
  | @trace n rest cs hg hn hcs =>
    refine ⟨fun m hm => ?_, h.refs_live⟩
    rcases mem_gray_trace.mp hm with hm | ⟨-, hm, -, -⟩
    · exact h.entry m (mem_gray_of_pop hg hm)
    · exact h.refs_live n (h.entry n (hg ▸ List.mem_cons_self)) m ((hcs m).mp hm)
  | requeue hg hn => exact ⟨h.entry, h.refs_live⟩

/-- Tracing takes a live node off the set, and nothing enters it. -/
theorem Grounded.untraced_step {live : Finset NodePtr} (h : s.Grounded i)
    (hlive : ∀ n, s.Live n → n ∈ live) (hst : MarkStep i s a t) :
    (t.untraced live).card + (if a.isTrace then 1 else 0) ≤ (s.untraced live).card := by
  cases hst with
  | skip hg hn => exact Nat.le_refl _
  | requeue hg hn => exact Nat.le_refl _
  | @trace n rest cs hg hn hcs =>
    have hmem : n ∈ s.untraced live :=
      Finset.mem_filter.mpr ⟨hlive n (h.entry n (hg ▸ List.mem_cons_self)), by simp [hn]⟩
    have hsub : ((s.pop i n rest).trace n cs).untraced live ⊆ (s.untraced live).erase n := by
      intro m hm
      obtain ⟨hml, hb⟩ := Finset.mem_filter.mp hm
      have hmn : m ≠ n := by
        rintro rfl
        exact hb (by simp [MarkState.trace])
      refine Finset.mem_erase.mpr ⟨hmn, Finset.mem_filter.mpr ⟨hml, fun hblack => hb ?_⟩⟩
      simp [MarkState.trace, pop, hmn, hblack]
    have hcard := Finset.card_le_card hsub
    have herase := Finset.card_erase_add_one hmem
    simp only [MarkAction.isTrace, if_true]
    omega

/-- **No node is traced twice**, whatever the references. -/
theorem Grounded.traces_le {live : Finset NodePtr} (h : s.Grounded i)
    (hlive : ∀ n, s.Live n → n ∈ live) (hr : Run (MarkStep i) s as t) :
    (t.untraced live).card + traces as ≤ (s.untraced live).card := by
  induction hr with
  | nil s => simp [traces]
  | @cons s u t a as hst _ ih =>
    have hrest := ih (h.step hst) fun n hn => hlive n ?_
    · have hfirst := h.untraced_step hlive hst
      rw [traces_cons]
      omega
    · simpa only [MarkState.Live, hst.sameGraph.chain] using hn

/-- Beginning a cycle lists nothing but nodes of the chain. -/
theorem Started.grounded (hst : Started i s t) (hs : s.Grounded i) (hi : i < s.count) :
    t.Grounded i := by
  cases hst with
  | going hm => exact hs
  | fresh hm hp =>
    refine ⟨fun n hn => ?_, ?_⟩
    · simp only [MarkState.Live, hp.chain]
      rcases (hp.mem_gray i hi n).mp hn with hn | ⟨hn, -⟩
      · exact hs.entry n hn
      · exact ⟨i, hn⟩
    · simp only [MarkState.Live, hp.chain, hp.refs]
      exact hs.refs_live

end MarkState

namespace GcHeap

open MarkState

variable {h h' : GcHeap} {i k : ℕ} {n : NodePtr}

/-! ### Putting a node back -/

/-- Where popping ends. -/
theorem popGray_eq_none : ∀ (l : List NodePtr) (h : GcHeap), (h.par i).grayList = l →
    h.popGray i l = (h', none) → (h'.par i).grayList = [] := by
  intro l
  induction l with
  | nil =>
    intro h hl hpop
    cases hpop
    exact hl
  | cons n rest ih =>
    intro h hl hpop
    rw [popGray] at hpop
    split at hpop
    · cases hpop
    · refine ih _ ?_ hpop
      rw [setGrayListed, par_modifyHead, par_modifyPar_self]
      exact lt_count_of_gray hl

theorem popGray_eq_some : ∀ (l : List NodePtr) (h : GcHeap), (h.par i).grayList = l →
    h.popGray i l = (h', some n) →
    i < h'.partitions.length ∧ (h'.head n).color = .gray ∧ (h'.head n).grayListed = false := by
  intro l
  induction l with
  | nil =>
    intro h hl hpop
    cases hpop
  | cons m rest ih =>
    intro h hl hpop
    have hi : i < h.partitions.length := lt_count_of_gray hl
    rw [popGray] at hpop
    split at hpop
    · next hgray =>
      obtain ⟨rfl, rfl⟩ : _ = h' ∧ m = n := by simpa using hpop
      exact ⟨by simpa [setGrayListed] using hi, hgray, by simp [setGrayListed]⟩
    · refine ih _ ?_ hpop
      rw [setGrayListed, par_modifyHead, par_modifyPar_self hi]

/-- A node that was popped and put back is what the next pop finds, and that undoes the putting
back. -/
theorem popGray_pushGray (hi : i < h.partitions.length) (hc : (h.head n).color = .gray)
    (hl : (h.head n).grayListed = false) :
    (h.pushGray i n).popGray i ((h.pushGray i n).par i).grayList = (h, some n) := by
  have hpar : ((h.pushGray i n).par i).grayList = n :: (h.par i).grayList := by
    rw [pushGray, par_modifyPar_self hi]
  have hback : ((h.pushGray i n).modifyPar i fun q =>
      { q with grayList := (h.par i).grayList }).setGrayListed n false = h := by
    rw [pushGray, modifyPar_modifyPar, modifyPar_eq_self rfl, setGrayListed, modifyHead]
    have hhead : { h.head n with grayListed := false } = h.head n := by rw [← hl]
    rw [hhead, Function.update_eq_self]
  rw [hpar, popGray, hback]
  exact if_pos hc

/-! ### Two calls in a row -/

theorem markGraysLoop_of_none (hpop : h.popGray i (h.par i).grayList = (h', none)) (b : ℕ) :
    markGraysLoop i b h = (h', true) := by
  rw [markGraysLoop, hpop]

theorem markGraysLoop_zero_of_some (hpop : h.popGray i (h.par i).grayList = (h', some n)) :
    markGraysLoop i 0 h = (h'.pushGray i n, false) := by
  rw [markGraysLoop, hpop]

theorem markGraysLoop_succ_of_some (hpop : h.popGray i (h.par i).grayList = (h', some n)) (b : ℕ) :
    markGraysLoop i (b + 1) h = markGraysLoop i b (h'.traceGray i n) := by
  rw [markGraysLoop, hpop]

/-- **Resuming.** A loop that is cut off is taken up where it stopped, and a loop that is not has
nothing left to do. -/
theorem markGraysLoop_add (b : ℕ) : ∀ (a : ℕ) (h : GcHeap),
    markGraysLoop i b (markGraysLoop i a h).1 = markGraysLoop i (a + b) h := by
  have hdone : ∀ {h h₁ : GcHeap} (a c : ℕ), h.popGray i (h.par i).grayList = (h₁, none) →
      markGraysLoop i b (markGraysLoop i a h).1 = markGraysLoop i c h := by
    intro h h₁ a c hpop
    have hempty := popGray_eq_none _ h rfl hpop
    rw [markGraysLoop_of_none hpop, markGraysLoop_of_none hpop]
    exact markGraysLoop_of_none (by rw [hempty]; rfl) b
  intro a
  induction a with
  | zero =>
    intro h
    rcases hpop : h.popGray i (h.par i).grayList with ⟨h₁, _ | n⟩
    · exact hdone _ _ hpop
    · -- the node goes back on the list and is popped once more
      obtain ⟨hi, hc, hl⟩ := popGray_eq_some _ h rfl hpop
      have hagain := popGray_pushGray hi hc hl
      rw [markGraysLoop_zero_of_some hpop, Nat.zero_add]
      cases b with
      | zero => rw [markGraysLoop_zero_of_some hagain, markGraysLoop_zero_of_some hpop]
      | succ b => rw [markGraysLoop_succ_of_some hagain, markGraysLoop_succ_of_some hpop]
  | succ a ih =>
    intro h
    rcases hpop : h.popGray i (h.par i).grayList with ⟨h₁, _ | n⟩
    · exact hdone _ _ hpop
    · rw [show a + 1 + b = (a + b) + 1 by omega, markGraysLoop_succ_of_some hpop,
        markGraysLoop_succ_of_some hpop]
      exact ih (h₁.traceGray i n)

/-- **Slicing.** Two calls are one call with both budgets, if the second is not for nothing. -/
theorem markGrays_add (h : GcHeap) (i a : ℕ) {b : ℕ} (hb : 0 < b) :
    (h.markGrays i a).1.markGrays i b = h.markGrays i (a + b) := by
  have hloop : ∀ (h : GcHeap) {k : ℕ}, 0 < k → h.markGrays i k = markGraysLoop i k h :=
    fun h k hk => if_neg (Nat.ne_of_gt hk)
  rcases Nat.eq_zero_or_pos a with rfl | ha
  · rw [Nat.zero_add]
    rfl
  · rw [hloop _ hb, hloop _ ha, hloop _ (by omega), markGraysLoop_add]

theorem mark_eq (h : GcHeap) (i k : ℕ) : h.mark i k = (h.markPrepare i).markGrays i k := by
  unfold mark
  dsimp only
  split
  · rfl
  · next hk =>
    obtain rfl : k = 0 := by omega
    rfl

/-- The preparation of the second call finds the cycle begun. -/
theorem mark_add (h : GcHeap) (i a : ℕ) {b : ℕ} (hb : 0 < b) :
    (h.mark i a).1.mark i b = h.mark i (a + b) := by
  obtain ⟨hcount, -, -, hmark, -⟩ := markPrepare_frame (h := h) (i := i)
  obtain ⟨as, hrun, -⟩ := markGrays_run (h := h.markPrepare i) (i := i) a
  have hsame := markRun_sameGraph hrun
  have hagain : (h.mark i a).1.markPrepare i = (h.mark i a).1 := by
    rw [mark_eq]
    by_cases hi : i < h.view.count
    · refine markPrepare_of_marking ?_
      rw [hsame.marking]
      exact hmark hi
    · refine if_pos ?_
      have hlen : ((h.markPrepare i).markGrays i a).1.partitions.length = h.partitions.length :=
        hsame.count.trans hcount
      rw [hlen]
      exact Nat.le_of_not_lt hi
  rw [mark_eq, hagain, mark_eq, mark_eq, markGrays_add _ _ _ hb]

/-- A finished cycle stays as it is. -/
theorem markGrays_of_done {a c : ℕ} (hdone : (h.markGrays i a).2 = true) (hac : a ≤ c) :
    h.markGrays i c = h.markGrays i a := by
  obtain ⟨b, rfl⟩ := Nat.exists_eq_add_of_le hac
  rcases Nat.eq_zero_or_pos b with rfl | hb
  · rfl
  · obtain ⟨as, -, hempty, -⟩ := markGrays_run (h := h) (i := i) a
    have hg : ((h.markGrays i a).1.par i).grayList = [] := hempty hdone
    rw [← markGrays_add h i a hb, markGrays, if_neg (Nat.ne_of_gt hb),
      markGraysLoop_of_none (by rw [hg]; rfl), ← hdone]

/-! ### Any number of calls -/

/-- Calls of `mark_grays` with the given budgets, and what the last of them returns. -/
def markGraysSlices (h : GcHeap) (i : ℕ) (budgets : List ℕ) : GcHeap × Bool :=
  budgets.foldl (fun st k => st.1.markGrays i k) (h, false)

/-- Calls of `mark` with the given budgets, and what the last of them returns. -/
def markSlices (h : GcHeap) (i : ℕ) (budgets : List ℕ) : GcHeap × Bool :=
  budgets.foldl (fun st k => st.1.mark i k) (h, false)

/-- Calls that add up two by two add up. -/
private theorem foldl_calls {f : GcHeap → ℕ → GcHeap × Bool}
    (hf : ∀ a b, 0 < b → f (f h a).1 b = f h (a + b)) (budgets : List ℕ) :
    ∀ a, (∀ b ∈ budgets, 0 < b) →
      budgets.foldl (fun st k => f st.1 k) (f h a) = f h (a + budgets.sum) := by
  induction budgets with
  | nil => exact fun _ _ => rfl
  | cons b budgets ih =>
    intro a hpos
    obtain ⟨hb, hpos⟩ := List.forall_mem_cons.mp hpos
    rw [List.foldl_cons, hf a b hb, ih _ hpos, List.sum_cons, Nat.add_assoc]

theorem markGraysSlices_eq {budgets : List ℕ} (hpos : ∀ b ∈ budgets, 0 < b) :
    h.markGraysSlices i budgets = h.markGrays i budgets.sum := by
  have := foldl_calls (f := fun h k => h.markGrays i k) (fun a b hb => markGrays_add h i a hb)
    budgets 0 hpos
  rwa [Nat.zero_add] at this

theorem markSlices_eq {budgets : List ℕ} (hpos : ∀ b ∈ budgets, 0 < b) (hne : budgets ≠ []) :
    h.markSlices i budgets = h.mark i budgets.sum := by
  obtain ⟨b, budgets, rfl⟩ := List.exists_cons_of_ne_nil hne
  rw [List.sum_cons]
  exact foldl_calls (f := fun h k => h.mark i k) (fun a b hb => mark_add h i a hb) budgets b
    (List.forall_mem_cons.mp hpos).2

theorem markSlices_eq_prepared {budgets : List ℕ} (hpos : ∀ b ∈ budgets, 0 < b)
    (hne : budgets ≠ []) :
    h.markSlices i budgets = (h.markPrepare i).markGraysSlices i budgets := by
  rw [markSlices_eq hpos hne, mark_eq, markGraysSlices_eq hpos]

/-- Two ways of cutting a whole cycle lead to the same heap. -/
theorem markGraysSlices_done {as bs : List ℕ} (ha : ∀ a ∈ as, 0 < a) (hb : ∀ b ∈ bs, 0 < b)
    (hadone : (h.markGraysSlices i as).2 = true) (hbdone : (h.markGraysSlices i bs).2 = true) :
    h.markGraysSlices i as = h.markGraysSlices i bs := by
  rw [markGraysSlices_eq ha, markGraysSlices_eq hb] at *
  rcases Nat.le_total as.sum bs.sum with hle | hle
  · exact (markGrays_of_done hadone hle).symm
  · exact markGrays_of_done hbdone hle

/-! ### How many calls it takes -/

/-- The nodes of the chains, each once. -/
def liveNodes (h : GcHeap) : Finset NodePtr := (h.partitions.flatMap fun q => q.nodes).toFinset

theorem mem_liveNodes : n ∈ h.liveNodes ↔ h.Live n := by
  simp [liveNodes, live_iff]

theorem card_liveNodes_le : h.liveNodes.card ≤ h.nodeCount := by
  have hlen := List.toFinset_card_le (h.partitions.flatMap fun q => q.nodes)
  rwa [List.length_flatMap] at hlen

/-- If the list of partition `i` and the payloads name live nodes only, a cycle that has not ended
has not traced more nodes than there are. -/
theorem traced_le_of_mark (hgray : ∀ n ∈ (h.par i).grayList, h.Live n)
    (hrefs : ∀ n, h.Live n → ∀ c ∈ h.refs n, h.Live c) (hcut : (h.mark i k).2 = false) :
    k ≤ h.liveNodes.card := by
  obtain ⟨-, hchain, hrefs', -, hentry⟩ := markPrepare_frame (h := h) (i := i)
  have hlive : ∀ n, (h.markPrepare i).view.Live n ↔ h.Live n := fun n => by
    simp only [MarkState.Live, hchain]
    rfl
  have hground : (h.markPrepare i).view.Grounded i := by
    refine ⟨fun n hn => (hlive n).mpr ?_, fun n hn c hc => (hlive c).mpr ?_⟩
    · rcases hentry i n hn with hn | hn
      · exact hgray n hn
      · exact ⟨i, hn⟩
    · rw [hrefs'] at hc
      exact hrefs n ((hlive n).mp hn) c hc
  obtain ⟨as, hrun, -, hspent⟩ := markGrays_run (h := h.markPrepare i) (i := i) k
  rw [mark_eq] at hcut
  have hmem : ∀ n, (h.markPrepare i).Live n → n ∈ h.liveNodes :=
    fun n hn => mem_liveNodes.mpr ((hlive n).mp hn)
  have hle := hground.traces_le hmem hrun
  have hcard : ((h.markPrepare i).view.untraced h.liveNodes).card ≤ h.liveNodes.card :=
    Finset.card_filter_le _ _
  have := hspent hcut
  omega

/-- **A collection ends**, if payloads and the gray list of its partition name live nodes only. -/
theorem garbageCollect_isSome (hinv : h.MemInv) (hi : i < h.partitions.length)
    (hgray : ∀ n ∈ (h.par i).grayList, h.Live n)
    (hrefs : ∀ n, h.Live n → ∀ c ∈ h.refs n, h.Live c) :
    ∃ h' bytes, h.garbageCollect i = some (h', bytes) := by
  have hground : h.view.Grounded i := ⟨hgray, hrefs⟩
  cases hloop : markLoop i (h.nodeCount + 1) h with
  | none =>
    obtain ⟨s, as, t, hstart, hrun, htraces⟩ := markLoop_none h.nodeCount h hinv.owned hi hloop
    have hlive : ∀ n, s.Live n → n ∈ h.liveNodes := fun n hn => by
      simp only [MarkState.Live, hstart.chain] at hn
      exact mem_liveNodes.mpr hn
    have hle := (hstart.grounded hground hi).traces_le hlive hrun
    have hcard : (s.untraced h.liveNodes).card ≤ h.liveNodes.card := Finset.card_filter_le _ _
    have hcount := h.card_liveNodes_le
    omega
  | some h₁ =>
    rw [garbageCollect, if_neg (Nat.not_le.mpr hi), hloop]
    exact ⟨_, _, rfl⟩

end GcHeap

open GcHeap

/-- **Slicing changes nothing.** A call of `mark_grays`, or of `mark`, followed by another with a
positive budget does to the whole heap what one call with both budgets does, and returns the same.
So sequences of positive budgets that bring a cycle to its end all lead to the same heap. -/
theorem markGrays_slicing (h : GcHeap) (i : ℕ) :
    (∀ a b, 1 ≤ b → (h.markGrays i a).1.markGrays i b = h.markGrays i (a + b)) ∧
    (∀ a b, 1 ≤ b → (h.mark i a).1.mark i b = h.mark i (a + b)) ∧
    (∀ as bs : List ℕ, (∀ a ∈ as, 1 ≤ a) → (∀ b ∈ bs, 1 ≤ b) →
      (h.markGraysSlices i as).2 = true → (h.markGraysSlices i bs).2 = true →
      (h.markGraysSlices i as).1 = (h.markGraysSlices i bs).1) ∧
    ∀ as bs : List ℕ, (∀ a ∈ as, 1 ≤ a) → (∀ b ∈ bs, 1 ≤ b) →
      (h.markSlices i as).2 = true → (h.markSlices i bs).2 = true →
      (h.markSlices i as).1 = (h.markSlices i bs).1 := by
  have hne : ∀ ks : List ℕ, (h.markSlices i ks).2 = true → ks ≠ [] := by
    rintro ks hdone rfl
    cases hdone
  refine ⟨fun a b hb => markGrays_add h i a hb, fun a b hb => mark_add h i a hb,
    fun as bs ha hb hadone hbdone => ?_, fun as bs ha hb hadone hbdone => ?_⟩
  · exact congrArg Prod.fst (markGraysSlices_done ha hb hadone hbdone)
  · have has := markSlices_eq_prepared (h := h) (i := i) ha (hne as hadone)
    have hbs := markSlices_eq_prepared (h := h) (i := i) hb (hne bs hbdone)
    rw [has] at hadone ⊢
    rw [hbs] at hbdone ⊢
    exact congrArg Prod.fst (markGraysSlices_done ha hb hadone hbdone)

/-- A cycle over a chain of two references, one node at a time and all at once. -/
theorem markGrays_slicing_two : ∃ h : GcHeap, (h.par 0).nodes.length = 3 ∧
    (h.markSlices 0 [1, 1, 1, 1]).1 = (h.markSlices 0 [64]).1 := by
  obtain ⟨h, -, hlen, hone, hall⟩ : ∃ h, Reachable h ∧ (h.par 0).nodes.length = 3 ∧
      (h.markSlices 0 [1, 1, 1, 1]).2 = true ∧ (h.markSlices 0 [64]).2 = true :=
    exists_of_play (gcTypeTableInternal 24 8 [⟨8, 8, true, none⟩])
      [.createPartition 0 0 none, .allocRaw 0 0 [] (some 1000), .allocRaw 0 0 [1000] (some 2000),
        .allocRootRaw 0 0 [2000] (some 3000)]
      (by decide +kernel)
  exact ⟨h, hlen, (markGrays_slicing h 0).2.2.2 _ _ (by decide) (by decide) hone hall⟩

/-- **Marking ends.** If payloads and the gray list of the partition name live nodes only, then
whatever the references, `while !mark(i, k) {}` goes round at most as often as `k` goes into the
number of live nodes. The call that ends it leaves the list empty. -/
theorem mark_terminates {h : GcHeap} {i k : ℕ} (hk : 1 ≤ k)
    (hgray : ∀ n ∈ (h.par i).grayList, h.Live n)
    (hrefs : ∀ n, h.Live n → ∀ c ∈ h.refs n, h.Live c) :
    ∃ j ≤ h.liveNodes.card / k,
      (∀ m, 1 ≤ m → m ≤ j → (h.markSlices i (List.replicate m k)).2 = false) ∧
      (h.markSlices i (List.replicate (j + 1) k)).2 = true ∧
      ((h.markSlices i (List.replicate (j + 1) k)).1.par i).grayList = [] := by
  have hcalls : ∀ m, h.markSlices i (List.replicate (m + 1) k) = h.mark i ((m + 1) * k) := by
    intro m
    rw [markSlices_eq (fun b hb => List.eq_of_mem_replicate hb ▸ hk) (by simp),
      List.sum_replicate_nat]
  have hbound : ∀ m, (h.mark i ((m + 1) * k)).2 = false → m + 1 ≤ h.liveNodes.card / k :=
    fun m hcut => (Nat.le_div_iff_mul_le hk).mpr (traced_le_of_mark hgray hrefs hcut)
  have hends : ∃ m, (h.mark i ((m + 1) * k)).2 = true := by
    refine ⟨h.liveNodes.card / k, ?_⟩
    by_contra hcut
    have := hbound _ (by simpa using hcut)
    omega
  -- the first call that returns `true`
  obtain ⟨j, hj, hfirst⟩ : ∃ j, (h.mark i ((j + 1) * k)).2 = true ∧
      ∀ m < j, (h.mark i ((m + 1) * k)).2 = false :=
    ⟨Nat.find hends, Nat.find_spec hends, fun m hm => by simpa using Nat.find_min hends hm⟩
  have hcut : ∀ m, 1 ≤ m → m ≤ j → (h.markSlices i (List.replicate m k)).2 = false := by
    intro m hm hmj
    obtain ⟨m, rfl⟩ := Nat.exists_eq_add_of_le' hm
    rw [hcalls]
    exact hfirst m hmj
  refine ⟨j, ?_, hcut, hcalls j ▸ hj, ?_⟩
  · rcases Nat.eq_zero_or_pos j with rfl | hpos
    · exact Nat.zero_le _
    · obtain ⟨m, rfl⟩ := Nat.exists_eq_add_of_le' hpos
      exact hbound m (hfirst m (Nat.lt_succ_self m))
  · obtain ⟨as, -, hempty, -⟩ :=
      markGrays_run (h := h.markPrepare i) (i := i) ((j + 1) * k)
    rw [hcalls, mark_eq]
    rw [mark_eq] at hj
    exact hempty hj

/-- Two nodes that refer to each other and to themselves, one of them a root. -/
theorem mark_terminates_cycle : ∃ (h : GcHeap) (j : ℕ), h.liveNodes.card = 2 ∧ j ≤ 2 / 1 ∧
    (h.markSlices 0 (List.replicate (j + 1) 1)).2 = true := by
  obtain ⟨h, -, hcard, hgray, hrefs⟩ : ∃ h, Reachable h ∧ h.liveNodes.card = 2 ∧
      (∀ n ∈ (h.par 0).grayList, h.Live n) ∧
      ∀ q ∈ h.partitions, ∀ n ∈ q.nodes, ∀ c ∈ h.refs n, h.Live c :=
    exists_of_play (gcTypeTableInternal 24 8 [⟨8, 8, true, none⟩])
      [.createPartition 0 0 none, .allocRaw 0 0 [] (some 1000),
        .allocRootRaw 0 0 [1000] (some 2000), .withWriteBarrier 1000 [2000, 1000, 1000]]
      (by decide +kernel)
  have hlive : ∀ n, h.Live n → ∀ c ∈ h.refs n, h.Live c := by
    intro n hn
    obtain ⟨q, hq, hn⟩ := live_iff.mp hn
    exact hrefs q hq n hn
  obtain ⟨j, hj, -, hdone, -⟩ := mark_terminates (k := 1) (by decide) hgray hlive
  exact ⟨h, j, hcard, hcard ▸ hj, hdone⟩

end GcLite
