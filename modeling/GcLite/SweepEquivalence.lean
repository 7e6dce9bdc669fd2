import GcLite.Reclaim

/-!
# The two sweeps

The deprecated sweep empties the chain, disposes of the dead nodes pass by pass while it goes
through what was the chain, and puts the rest back at the end. The three-step sweep splits the chain
first and disposes of the dead nodes afterwards. Both dispose of the same nodes in the same order,
and disposing of a node does not look at the chain, so that they come to the same.

This is about release builds. In a debug build the deprecated sweep asserts that the nodes of the
chain are black or white; a cycle can end with a gray node there that is on no list, and then only
the three-step sweep returns. The last example is such a heap.

## Main definitions

* `GcHeap.detach` — a heap with another record, and with an empty chain in one partition

## Main results

* `disposeWithDrop_detach` — the two sweeps dispose of a node in the same way
* `sweep_eq_twoPhaseSweep` — the two sweeps agree, except for when drop functions run
-/

namespace GcLite

namespace GcHeap

variable {h : GcHeap} {i j : ℕ} {n : NodePtr} {log : List GcEvent}

/-- The chain of partition `i` emptied, and the record replaced. -/
def detach (i : ℕ) (log : List GcEvent) (h : GcHeap) : GcHeap :=
  { h.modifyPar i fun q => { q with nodes := [] } with log := log }

@[simp] theorem arena_detach : ((h.detach i log).par j).arena = (h.par j).arena :=
  field_modifyPar GcPartition.arena fun _ => rfl

/-- What does not look at the chain can be done before or after. -/
theorem modifyPar_detach {f : GcPartition → GcPartition}
    (hf : ∀ q : GcPartition, f { q with nodes := [] } = { f q with nodes := [] }) :
    (h.detach i log).modifyPar j f = (h.modifyPar j f).detach i log := by
  have hcomm := modifyPar_comm (h := h) (i := i) (j := j)
    (f := fun q => { q with nodes := [] }) (g := f) fun q => (hf q).symm
  exact congrArg (fun g : GcHeap => { g with log := log }) hcomm

theorem disposeNoDrop_detach (h : GcHeap) (n : NodePtr) : (h.detach i log).disposeNoDrop n =
    ((h.disposeNoDrop n).1.detach i (log ++ h.disposeEvents n), (h.disposeNoDrop n).2) := by
  obtain ⟨f, hf, heq⟩ := h.disposeNoDrop_eq n
  obtain ⟨f', hf', heq'⟩ := (h.detach i log).disposeNoDrop_eq n
  obtain rfl : f' = f := hf'.trans hf.symm
  rw [heq, heq']
  have hcomm := @modifyPar_detach h i (h.head n).partitionId log
    (fun q => { q with memoryUsed := f' q.memoryUsed }) fun _ => rfl
  refine Prod.ext ?_ rfl
  exact congrArg (fun g : GcHeap => { g with
    totalMemoryUsed := f' h.totalMemoryUsed
    weakSlots := emptySlot h.weakSlots (h.head n).weakId
    log := log ++ h.disposeEvents n }) hcomm

theorem finishSweep_detach (h : GcHeap) (holes : List Hole) :
    (h.detach i log).finishSweep i holes = (h.finishSweep i holes).detach i log := by
  unfold finishSweep
  rw [arena_detach]
  split
  · exact modifyPar_detach fun _ => rfl
  · rfl

namespace SweepState

/-- A sweep that works on the detached heap. -/
def detach (i : ℕ) (log : List GcEvent) (s : SweepState) : SweepState :=
  { s with heap := s.heap.detach i log }

variable {s : SweepState}

theorem disposeNode_detach (s : SweepState) (n : NodePtr) : (s.detach i log).disposeNode i n =
    (s.disposeNode i n).detach i (log ++ s.heap.disposeEvents n) := by
  have hdispose := @disposeNoDrop_detach i log s.heap n
  have hflag : ((s.heap.detach i log).head n).arenaAlloc = (s.heap.head n).arenaAlloc := rfl
  unfold disposeNode detach
  simp only [hdispose, hflag, arena_detach]
  cases (s.heap.head n).arenaAlloc with
  | false => rfl
  | true =>
    cases ((s.heap.disposeNoDrop n).1.par i).arena with
    | none => rfl
    | some A =>
      dsimp only
      rw [modifyPar_detach fun _ => rfl]
      rfl

/-- What one sweep does with the payload before, the other has done already. -/
theorem disposeWithDrop_detach (s : SweepState) (n : NodePtr) : ∃ log',
    (s.detach i log).disposeWithDrop i n = (s.disposeNode i n).detach i log' := by
  rw [disposeWithDrop_eq]
  exact ⟨_, @disposeNode_detach i (log ++ (s.heap.detach i log).dropPayload n) s n⟩

theorem foldl_disposeWithDrop_detach (l : List NodePtr) (s : SweepState) : ∃ log',
    l.foldl (disposeWithDrop i) (s.detach i log) = (l.foldl (disposeNode i) s).detach i log' := by
  induction l generalizing s log with
  | nil => exact ⟨log, rfl⟩
  | cons n l ih =>
    obtain ⟨log', hone⟩ := @disposeWithDrop_detach i log s n
    rw [List.foldl_cons, hone]
    exact ih (s.disposeNode i n)

end SweepState

/-! ### The two sweeps -/

/-- Everything but the record of effects. -/
def unlogged (h : GcHeap) : GcHeap := { h with log := [] }

/-- Putting the rest of the chain back undoes the detaching. -/
theorem unlogged_reattach {link : List NodePtr} (hlink : (h.par i).nodes = link) :
    (if link.isEmpty then h.detach i log else
      (h.detach i log).modifyPar i fun q => { q with nodes := link }).unlogged = h.unlogged := by
  have hself : (h.modifyPar i fun q => { q with nodes := link }) = h :=
    modifyPar_eq_self (by rw [← hlink])
  split
  · next hempty =>
    rw [List.isEmpty_iff.mp hempty] at hself
    exact (congrArg unlogged hself :)
  · have hboth : ((h.modifyPar i fun q => { q with nodes := [] }).modifyPar i fun q =>
        { q with nodes := link }) = h := by
      rw [modifyPar_modifyPar]
      exact hself
    exact (congrArg unlogged hboth :)

/-- On a complete cycle of a partition whose nodes are registered. -/
theorem sweep_twoPhaseSweep (hreg : ∀ n ∈ (h.par i).nodes, h.Registered n)
    (hdone : h.CycleDone i) : (h.sweep i).2 = (h.twoPhaseSweep i).2 ∧
      (h.sweep i).1.unlogged = (h.twoPhaseSweep i).1.unlogged := by
  by_cases hempty : (h.par i).nodes = []
  · rw [sweep_of_empty hdone hempty, twoPhaseSweep_of_empty hdone hempty]
    refine ⟨rfl, congrArg unlogged (modifyPar_congr ?_)⟩
    rw [← hempty]
  obtain ⟨s, hs, heq⟩ := twoPhaseSweep_of_done hdone hempty
  obtain ⟨s', link, hs', hlink, heq'⟩ := sweep_eq hdone hempty
  have hstart : (⟨h.modifyPar i fun q => { q with marking := false, nodes := [] }, [], 0⟩ :
      SweepState) = SweepState.detach i h.log ⟨h.dropped i, [], 0⟩ := by
    have hdetach : (h.modifyPar i fun q => { q with marking := false, nodes := [] }) =
        (h.dropped i).detach i h.log := by
      have htwice := modifyPar_modifyPar (h := h) (i := i)
        (fun q => { q with marking := false, nodes := h.survivors i })
        fun q => { q with nodes := [] }
      exact (congrArg (fun g : GcHeap => { g with log := h.log }) htwice).symm
    rw [hdetach]
    rfl
  obtain ⟨log, hlog⟩ := @SweepState.foldl_disposeWithDrop_detach i h.log
    (h.passOrder (h.unlinked i)) ⟨h.dropped i, [], 0⟩
  rw [hstart, hlog, ← hs] at hs'
  have hlink : ((h.twoPhaseSweep i).1.par i).nodes = link := by
    rw [nodes_twoPhaseSweep hdone, if_pos rfl, hlink]
    refine List.filter_congr fun n hn => ?_
    simp [(hreg n hn).mem_dropPasses]
  rw [heq', hs']
  rw [heq] at hlink ⊢
  refine ⟨rfl, ?_⟩
  have hfinish := @finishSweep_detach i log s.heap s.holes
  rw [← @unlogged_reattach _ _ log _ hlink, ← hfinish]
  rfl

end GcHeap

open GcHeap in
/-- **The two sweeps agree.** From every reachable heap, the deprecated sweep and the three-step
sweep return the same number of bytes and leave the same heap behind, the record of effects apart:
the same chains, counters, weak slots, marking flags and arenas. They run the drop functions of the
same nodes, once each. -/
theorem sweep_eq_twoPhaseSweep {h : GcHeap} (hr : Reachable h) (i : ℕ) :
    (h.sweep i).2 = (h.twoPhaseSweep i).2 ∧
      (h.sweep i).1.unlogged = (h.twoPhaseSweep i).1.unlogged ∧
      (dropsIn (h.newEvents (h.sweep i).1)).Perm
        (dropsIn (h.newEvents (h.twoPhaseSweep i).1)) ∧
      (dropsIn (h.newEvents (h.sweep i).1)).Nodup := by
  have hinv := memInv_of_reachable hr
  by_cases hdone : h.CycleDone i
  · obtain ⟨hbytes, hheap⟩ := sweep_twoPhaseSweep (hinv.dtype i) hdone
    have hperm := passOrder_perm (h := h) (l := h.unlinked i) fun n hn =>
      hinv.dtype i n (List.mem_filter.mp hn).1
    have hdrops : dropsIn (h.newEvents (h.sweep i).1) =
        (h.passOrder (h.unlinked i)).filter fun n => (h.info n).dropFn := by
      rw [newEvents_of_log (log_sweep hdone), dropsIn_each]
    have hdrops' : dropsIn (h.newEvents (h.twoPhaseSweep i).1) =
        (h.unlinked i).filter fun n => (h.info n).dropFn := by
      rw [newEvents_of_log (log_twoPhaseSweep hdone), dropsIn_append, dropsIn_payloads,
        dropsIn_disposals, List.append_nil]
    refine ⟨hbytes, hheap, ?_, ?_⟩
    · rw [hdrops, hdrops']
      exact hperm.filter _
    · rw [hdrops]
      exact (hperm.nodup_iff.mpr ((hinv.nodup i).filter _)).filter _
  · rw [sweep_of_not_done hdone, twoPhaseSweep_of_not_done hdone]
    exact ⟨rfl, rfl, .refl _, by simp [newEvents, dropsIn]⟩

/-- Two dead nodes of an arena, of different passes. -/
private theorem exists_arena_garbage : ∃ h : GcHeap, Reachable h ∧ h.CycleDone 0 ∧
    h.unlinked 0 = [1032, 1000] :=
  exists_of_play (gcTypeTableInternal 24 8 [⟨8, 8, true, none⟩, ⟨8, 8, true, some 1⟩])
    [.createPartition 4096 128 (some 1000), .allocRaw 0 0 [] none, .allocRaw 0 1 [] none,
      .mark 0 64]
    (by decide +kernel)

/-- The two sweeps agree on them. -/
theorem sweep_eq_twoPhaseSweep_arena : ∃ h : GcHeap, h.unlinked 0 = [1032, 1000] ∧
    (h.sweep 0).2 = (h.twoPhaseSweep 0).2 := by
  obtain ⟨h, hr, -, hdead⟩ := exists_arena_garbage
  exact ⟨h, hdead, (sweep_eq_twoPhaseSweep hr 0).1⟩

/-- A cycle that is done, with a gray node on the chain: `bind` made it gray while its partition was
not marking, and the cycle began with a gray list that had another node, so that it reset no
colours. -/
example : ∃ h : GcHeap, Reachable h ∧ h.CycleDone 0 ∧ 4000 ∈ (h.par 0).nodes ∧
    (h.head 4000).color = .gray :=
  exists_of_play (gcTypeTableInternal 24 8 [⟨8, 8, true, none⟩])
    [.createPartition 0 0 none, .createPartition 0 0 none, .allocRootRaw 0 0 [] (some 1000),
      .allocRootRaw 1 0 [] (some 2000), .mark 0 64, .sweep 0, .allocRaw 0 0 [] (some 3000),
      .allocRaw 0 0 [] (some 4000), .bind 2000 3000 [3000], .mark 1 64, .bind 1000 4000 [4000],
      .removeRefs 1000 [], .mark 0 64]
    (by decide +kernel)

end GcLite
