import GcLite.Accounting
import GcLite.StopTheWorld

/-!
# The order of collections

The first collection of a heap at rest begins a cycle in every partition, so the later ones find the
cycles of their partitions begun. Without references between partitions, a cycle works on its own
partition alone, and so does a sweep: what it does to the shared counters and to the table of weak
slots can be done in any order. So can the collections of a heap at rest, one for each partition.

## Main definitions

* `GcHeap.collectAll` — collect partitions one after the other
* `GcHeap.dead` — the nodes of a partition that its roots and locals do not reach
* `GcHeap.reclaimArena`, `countAll` — what a sweep does to an arena and to a counter
* `GcHeap.Collected` — the heap when some partitions have been collected

## Main results

* `Seeded.run` — a run leaves the other partitions at the beginning of their cycles
* `Collected.collect` — one more collection
* `collection_order` — any two orders lead to the same
-/

namespace GcLite

open Transition

/-! ### Cycles of other partitions -/

namespace MarkState

variable {s t : MarkState} {i j : ℕ} {n m : NodePtr} {as : List MarkAction} {a : MarkAction}

/-- The references of partition `i` stay inside it. -/
def InsideOf (s : MarkState) (i : ℕ) : Prop := ∀ n ∈ s.chain i, ∀ c ∈ s.refs n, s.pid c = i

theorem Seeded.step (hj : s.Seeded j) (hji : j ≠ i) (hlocal : s.Local i) (hin : s.InsideOf i)
    (hst : MarkStep i s a t) : t.Seeded j := by
  obtain ⟨hm, hg, hc⟩ := hj
  cases hst with
  | @skip n rest hgray hn =>
    have hpop : (s.pop i n rest).gray j = s.gray j := Function.update_of_ne hji _ _
    exact ⟨hm, fun m => hpop ▸ hg m, hc⟩
  | requeue hgray hn => exact ⟨hm, hg, hc⟩
  | @trace n rest cs hgray hn hcs =>
    have hni : n ∈ s.chain i := hlocal.entry n (hgray ▸ List.mem_cons_self)
    have hpid : ∀ c ∈ cs, s.pid c = i := fun c hc => hin n hni c ((hcs c).mp hc)
    refine ⟨hm, fun m => ?_, fun m hmj => ?_⟩
    · rw [mem_gray_trace]
      have hpop : (s.pop i n rest).gray j = s.gray j := Function.update_of_ne hji _ _
      rw [hpop, hg m]
      refine ⟨fun hmem => hmem.resolve_right ?_, .inl⟩
      rintro ⟨-, hmc, -, hmj⟩
      exact hji (hmj.symm.trans (hpid m hmc))
    · have hmi : s.pid m ≠ i := fun hmi => hji ((hlocal.own j m hmj).symm.trans hmi)
      have hmn : m ≠ n := by
        rintro rfl
        exact hmi (hlocal.own i m hni)
      have hmc : m ∉ cs := fun hmc => hmi (hpid m hmc)
      simp only [trace, pop, hmn, hmc, false_and, if_false]
      exact hc m hmj

/-- **A run leaves the other partitions** at the beginning of their cycles. -/
theorem Seeded.run (hj : s.Seeded j) (hji : j ≠ i) (hlocal : s.Local i) (hin : s.InsideOf i)
    (hr : Run (MarkStep i) s as t) : t.Seeded j := by
  refine (hr.invariant (I := fun s => (s.Local i ∧ s.InsideOf i) ∧ s.Seeded j) ?_
    ⟨⟨hlocal, hin⟩, hj⟩).2
  rintro s a t ⟨⟨hlocal, hin⟩, hj⟩ hst
  have hsame := hst.sameGraph
  refine ⟨⟨hlocal.step hst, ?_⟩, hj.step hji hlocal hin hst⟩
  rw [InsideOf, hsame.chain, hsame.refs, hsame.pid]
  exact hin

theorem Seeded.unlink (hj : s.Seeded j) (hji : j ≠ i) : (s.unlink i).Seeded j := by
  refine ⟨?_, ?_, ?_⟩
  · simpa [MarkState.unlink, hji] using hj.marking
  · simpa [MarkState.unlink, hji] using hj.mem_gray
  · simpa [MarkState.unlink, hji] using hj.color

end MarkState

/-! ### Counters and weak slots -/

/-- A counter after so many disposals. -/
def countAll (sizes : List ℕ) (m : ℕ) : ℕ := sizes.foldl (fun m size => GcHeap.countFreed size m) m

theorem countAll_nil (m : ℕ) : countAll [] m = m := rfl

theorem countAll_cons (size : ℕ) (sizes : List ℕ) (m : ℕ) :
    countAll (size :: sizes) m = countAll sizes (GcHeap.countFreed size m) := by
  rw [countAll, List.foldl_cons, countAll]

theorem countAll_append (l l' : List ℕ) (m : ℕ) :
    countAll (l ++ l') m = countAll l' (countAll l m) := by
  rw [countAll, List.foldl_append, countAll, countAll]

theorem asUsize_add (n k : ℤ) : asUsize (asUsize n + k) = asUsize (n + k) := by
  simp only [asUsize]
  omega

theorem countFreed_comm (a b m : ℕ) :
    GcHeap.countFreed a (GcHeap.countFreed b m) = GcHeap.countFreed b (GcHeap.countFreed a m) := by
  unfold GcHeap.countFreed
  rw [asUsize_add, asUsize_add, Int.add_right_comm]

theorem countAll_perm {l l' : List ℕ} (hp : l.Perm l') (m : ℕ) : countAll l m = countAll l' m :=
  hp.foldl_eq' (fun a _ b _ m => countFreed_comm b a m) m

theorem emptySlot_comm (slots : List WeakSlot) (w w' : GcWeakRawId) :
    GcHeap.emptySlot (GcHeap.emptySlot slots w) w' =
      GcHeap.emptySlot (GcHeap.emptySlot slots w') w := by
  unfold GcHeap.emptySlot
  by_cases hw : w.isNull = true
  · simp [hw]
  · by_cases hw' : w'.isNull = true
    · simp [hw']
    · simp only [if_neg hw, if_neg hw']
      by_cases hindex : w.index = w'.index
      · rw [hindex]
      · rw [List.modify_modify_ne _ _ _ hindex]

theorem foldl_emptySlot_perm {l l' : List GcWeakRawId} (hp : l.Perm l') (slots : List WeakSlot) :
    l.foldl GcHeap.emptySlot slots = l'.foldl GcHeap.emptySlot slots :=
  hp.foldl_eq' (fun w _ w' _ slots => emptySlot_comm slots w w') slots

namespace GcHeap

variable {h h' g : GcHeap} {i j : ℕ} {n m : NodePtr} {l : List NodePtr}

/-! ### What a sweep does, part by part -/

/-- The sizes of a list of nodes. -/
def sizes (h : GcHeap) (l : List NodePtr) : List ℕ := l.map fun n => (h.info n).layoutSize

theorem sizes_cons : h.sizes (n :: l) = (h.info n).layoutSize :: h.sizes l := rfl

theorem sizes_append (l l' : List NodePtr) : h.sizes (l ++ l') = h.sizes l ++ h.sizes l' :=
  List.map_append

theorem sizes_congr (hinfo : h'.info = h.info) : h'.sizes l = h.sizes l := by
  rw [sizes, sizes, hinfo]

/-- What the disposal of a node does to the arena of its partition and to the holes so far. -/
def collectNode (h : GcHeap) (st : Option GcArena × List Hole) (n : NodePtr) :
    Option GcArena × List Hole :=
  match (h.head n).arenaAlloc, st.1 with
  | true, some A =>
    (some (A.collectHole st.2 n (h.info n).layoutSize).1,
      (A.collectHole st.2 n (h.info n).layoutSize).2)
  | _, _ => st

/-- What a sweep that disposes of these nodes does to the arena of partition `i`. -/
def reclaimArena (h : GcHeap) (i : ℕ) (l : List NodePtr) : Option GcArena :=
  if (h.par i).nodes = [] then (h.par i).arena
  else
    let st := l.foldl h.collectNode ((h.par i).arena, [])
    st.1.map fun A => (A.finishSweep st.2).1

theorem collectNode_disposeNode {s : SweepState} (hi : i < s.heap.partitions.length) :
    (((s.disposeNode i n).heap.par i).arena, (s.disposeNode i n).holes) =
      s.heap.collectNode ((s.heap.par i).arena, s.holes) n := by
  cases hn : (s.heap.head n).arenaAlloc with
  | false =>
    obtain ⟨harena, hholes⟩ := SweepState.arena_disposeNode_of_system (i := i) hn
    simp only [collectNode, hn, harena, hholes]
  | true =>
    cases hA : (s.heap.par i).arena with
    | none =>
      obtain ⟨harena, hholes⟩ := SweepState.arena_disposeNode_of_none (n := n) hA
      simp only [collectNode, hn, harena, hholes]
    | some A =>
      obtain ⟨harena, hholes⟩ := SweepState.arena_disposeNode hn hA hi
      simp only [collectNode, hn, harena, hholes]

theorem collectNode_congr (hhead : ∀ n, (h'.head n).arenaAlloc = (h.head n).arenaAlloc)
    (hinfo : h'.info = h.info) : h'.collectNode = h.collectNode := by
  funext st n
  unfold collectNode
  rw [hhead, hinfo]

theorem collectNode_foldl_disposeNode (l : List NodePtr) : ∀ s : SweepState,
    i < s.heap.partitions.length →
    let s' := l.foldl (SweepState.disposeNode i) s
    ((s'.heap.par i).arena, s'.holes) =
      l.foldl s.heap.collectNode ((s.heap.par i).arena, s.holes) := by
  induction l with
  | nil => exact fun _ _ => rfl
  | cons n l ih =>
    intro s hi
    have hcongr : (s.disposeNode i n).heap.collectNode = s.heap.collectNode :=
      collectNode_congr (fun m => by rw [SweepState.head_disposeNode])
        SweepState.info_disposeNode
    have hrest := ih (s.disposeNode i n) (by rwa [SweepState.length_disposeNode])
    rw [hcongr, collectNode_disposeNode hi] at hrest
    exact hrest

theorem arena_foldl_disposeNode_of_ne (hj : j ≠ i) (l : List NodePtr) (s : SweepState) :
    ((l.foldl (SweepState.disposeNode i) s).heap.par j).arena = (s.heap.par j).arena := by
  induction l generalizing s with
  | nil => rfl
  | cons n l ih => exact (ih _).trans (SweepState.arena_disposeNode_of_ne hj)

theorem total_foldl_disposeNode (l : List NodePtr) (s : SweepState) :
    (l.foldl (SweepState.disposeNode i) s).heap.totalMemoryUsed =
      countAll (s.heap.sizes l) s.heap.totalMemoryUsed := by
  induction l generalizing s with
  | nil => rfl
  | cons n l ih =>
    rw [List.foldl_cons, ih, sizes_congr SweepState.info_disposeNode, sizes_cons, countAll_cons,
      SweepState.totalMemoryUsed_disposeNode]

theorem used_foldl_disposeNode (l : List NodePtr) (s : SweepState)
    (hi : i < s.heap.partitions.length) (hpid : ∀ n ∈ l, (s.heap.head n).partitionId = i) :
    ((l.foldl (SweepState.disposeNode i) s).heap.par j).memoryUsed =
      if j = i then countAll (s.heap.sizes l) (s.heap.par j).memoryUsed
      else (s.heap.par j).memoryUsed := by
  induction l generalizing s with
  | nil =>
    rw [sizes, List.map_nil, countAll_nil]
    split <;> rfl
  | cons n l ih =>
    have hn := hpid n List.mem_cons_self
    rw [List.foldl_cons, ih _ (by rwa [SweepState.length_disposeNode]) (fun m hm => by
      rw [SweepState.head_disposeNode]
      exact hpid m (List.mem_cons_of_mem _ hm)), sizes_congr SweepState.info_disposeNode,
      SweepState.memoryUsed_disposeNode (hn ▸ hi), hn, sizes_cons, countAll_cons]
    split <;> rfl

/-- **A sweep**, part by part. `gone` is the order of the disposals. -/
structure Swept (i : ℕ) (gone : List NodePtr) (h h' : GcHeap) (bytes : ℕ) : Prop where
  /-- The blocks of the arena are given back in that order. -/
  arena : ∀ j, (h'.par j).arena = if j = i then h.reclaimArena i gone else (h.par j).arena
  /-- The sizes are taken off the counter one by one. -/
  used : ∀ j, (h'.par j).memoryUsed =
    if j = i then countAll (h.sizes gone) (h.par j).memoryUsed else (h.par j).memoryUsed
  /-- They are taken off the total. -/
  total : h'.totalMemoryUsed = countAll (h.sizes gone) h.totalMemoryUsed
  /-- The weak slots are emptied. -/
  slots : h'.weakSlots = (gone.map fun n => (h.head n).weakId).foldl emptySlot h.weakSlots
  /-- The sizes are added up. -/
  bytes : bytes = h.bytesOf gone

theorem swept_twoPhaseSweep (hown : ∀ n ∈ (h.par i).nodes, (h.head n).partitionId = i)
    (hdone : h.CycleDone i) :
    Swept i (h.passOrder (h.unlinked i)) h (h.twoPhaseSweep i).1 (h.twoPhaseSweep i).2 := by
  have hslots := weakSlots_twoPhaseSweep hdone
  by_cases hempty : (h.par i).nodes = []
  · have hnil : h.passOrder (h.unlinked i) = [] := by
      simp [unlinked, hempty, passOrder]
    rw [twoPhaseSweep_of_empty hdone hempty] at hslots ⊢
    rw [hnil] at hslots ⊢
    refine ⟨fun j => ?_, fun j => ?_, rfl, hslots, rfl⟩
    · have harena : ((h.setMarking i false).par j).arena = (h.par j).arena :=
        field_modifyPar GcPartition.arena fun _ => rfl
      rw [harena, reclaimArena, if_pos hempty]
      split
      · next hj => rw [hj]
      · rfl
    · have hused : ((h.setMarking i false).par j).memoryUsed = (h.par j).memoryUsed :=
        field_modifyPar GcPartition.memoryUsed fun _ => rfl
      rw [hused]
      split <;> rfl
  · obtain ⟨s, hs, heq⟩ := twoPhaseSweep_of_done hdone hempty
    have hmem : ∀ n ∈ h.passOrder (h.unlinked i), n ∈ (h.par i).nodes := fun n hn =>
      (List.mem_filter.mp (mem_buckets.mp hn).1).1
    generalize h.passOrder (h.unlinked i) = l at hs hslots hmem ⊢
    have hi₀ : i < (h.dropped i).partitions.length := by
      simpa [dropped, modifyPar] using hdone.1
    have harena₀ : ∀ j, ((h.dropped i).par j).arena = (h.par j).arena := fun j =>
      field_modifyPar GcPartition.arena fun _ => rfl
    have hused₀ : ∀ j, ((h.dropped i).par j).memoryUsed = (h.par j).memoryUsed := fun j =>
      field_modifyPar GcPartition.memoryUsed fun _ => rfl
    have hcollect := collectNode_foldl_disposeNode (i := i) l ⟨h.dropped i, [], 0⟩ hi₀
    have hused := fun j => used_foldl_disposeNode (i := i) (j := j) l ⟨h.dropped i, [], 0⟩ hi₀
      fun n hn => hown n (hmem n hn)
    have htotal := total_foldl_disposeNode (i := i) l ⟨h.dropped i, [], 0⟩
    have hfreed := freedBytes_foldl_disposeNode (i := i) l ⟨h.dropped i, [], 0⟩
    have hother := fun j (hj : j ≠ i) =>
      arena_foldl_disposeNode_of_ne hj l ⟨h.dropped i, [], 0⟩
    rw [← hs] at hcollect hused htotal hfreed hother
    have hcollect : ((s.heap.par i).arena, s.holes) = l.foldl h.collectNode ((h.par i).arena, []) :=
      hcollect.trans (by rw [harena₀]; rfl)
    obtain ⟨f, hfsome, hfnone, hfinish⟩ := finishSweep_frame s.heap i s.holes
    have hcount : s.heap.partitions.length = (h.dropped i).partitions.length := by
      rw [hs]
      exact congrArg MarkState.count (view_foldl_disposeNode l _)
    have hlen : i < s.heap.partitions.length := hcount ▸ hi₀
    rw [heq] at hslots ⊢
    rw [hfinish] at hslots ⊢
    refine ⟨fun j => ?_, fun j => ?_, htotal, hslots, hfreed.trans (Nat.zero_add _)⟩
    · split
      · next hj =>
        subst hj
        rw [par_modifyPar_self hlen, reclaimArena, if_neg hempty, ← hcollect]
        dsimp only
        cases hA : (s.heap.par j).arena with
        | none => exact hfnone
        | some A => exact hfsome A
      · next hj =>
        rw [par_modifyPar_of_ne (Ne.symm hj), hother j hj]
        exact harena₀ j
    · have hsame : ((s.heap.modifyPar i fun q => { q with arena := f q.arena }).par j).memoryUsed =
          (s.heap.par j).memoryUsed := field_modifyPar GcPartition.memoryUsed fun _ => rfl
      rw [hsame, hused]
      dsimp only
      rw [hused₀]
      rfl

/-! ### Some partitions have been collected -/

/-- References stay inside their partitions. -/
def Inside (h : GcHeap) : Prop :=
  ∀ i, ∀ n ∈ (h.par i).nodes, ∀ c ∈ h.refs n, (h.head c).partitionId = i

open Classical in
/-- The nodes of a partition that its roots and locals do not reach. -/
noncomputable def dead (h : GcHeap) (i : ℕ) : List NodePtr :=
  (h.par i).nodes.filter fun n => n ∉ h.localReach i

/-- Those that they reach. -/
noncomputable def kept (h : GcHeap) (i : ℕ) : List NodePtr :=
  (h.par i).nodes.filter fun n => n ∉ h.dead i

/-- The dead nodes in the order in which a sweep disposes of them. -/
noncomputable def deadOrder (h : GcHeap) (i : ℕ) : List NodePtr := h.passOrder (h.dead i)

theorem mem_dead : n ∈ h.dead i ↔ n ∈ (h.par i).nodes ∧ n ∉ h.localReach i := by
  simp [dead]

/-- The heap `g` is the heap `h` at rest after the partitions `done` have been collected. -/
structure Collected (h : GcHeap) (done : List ℕ) (g : GcHeap) : Prop where
  /-- There are as many partitions. -/
  length : g.partitions.length = h.partitions.length
  /-- The type table is the same. -/
  types : g.nodeDtypes = h.nodeDtypes
  /-- Type, place and handle of every node are as before. -/
  head : ∀ n, (g.head n).store = (h.head n).store
  /-- So is protection. -/
  prot : ∀ n, (g.head n).isRootOrLocal = (h.head n).isRootOrLocal
  /-- So are the payloads. -/
  refs : g.refs = h.refs
  /-- The partitions that are done have lost what they do not reach. -/
  nodes : ∀ j, (g.par j).nodes = if j ∈ done then h.kept j else (h.par j).nodes
  /-- Their arenas have it back. -/
  arena : ∀ j, (g.par j).arena =
    if j ∈ done then h.reclaimArena j (h.deadOrder j) else (h.par j).arena
  /-- Their counters have gone down. -/
  used : ∀ j, (g.par j).memoryUsed =
    if j ∈ done then countAll (h.sizes (h.deadOrder j)) (h.par j).memoryUsed
    else (h.par j).memoryUsed
  /-- So has the total, in the order of the collections. -/
  total : g.totalMemoryUsed = countAll (h.sizes (done.flatMap h.deadOrder)) h.totalMemoryUsed
  /-- So have slots been emptied. -/
  slots : g.weakSlots =
    ((done.flatMap h.deadOrder).map fun n => (h.head n).weakId).foldl emptySlot h.weakSlots
  /-- No cycle has begun, or those of the other partitions are at their beginning. -/
  pending : (∀ j, (g.par j).marking = false ∧ (g.par j).grayList = []) ∨
    ∀ j < h.partitions.length, j ∉ done → g.view.Seeded j

theorem collected_nil (hrest : h.AtRest) : h.Collected [] h := by
  refine ⟨rfl, rfl, fun _ => rfl, fun _ => rfl, rfl, fun j => ?_, fun j => ?_, fun j => ?_, rfl,
    rfl, .inl fun j => ⟨hrest.marking j, hrest.gray j⟩⟩
  all_goals rw [if_neg List.not_mem_nil]

namespace Collected

variable {done : List ℕ} {h₁ : GcHeap}

theorem info (hc : h.Collected done g) : g.info = h.info := by
  funext n
  have hdtype : (g.head n).store.dtype = (h.head n).store.dtype := congrArg _ (hc.head n)
  rw [GcHeap.info, GcHeap.info, hc.types]
  exact congrArg (h.nodeDtypes.typeInfoList.getD · default) hdtype

/-- The graph of a partition that has not been collected is as it was. -/
theorem localReach (hc : h.Collected done g) (hi : i ∉ done) : g.localReach i = h.localReach i := by
  refine MarkState.localReach_congr ?_ (funext hc.prot) hc.refs
  exact (hc.nodes i).trans (if_neg hi)

/-- When the collection of such a partition begins to run, the others are at the beginning of their
cycles. -/
theorem seeded (hc : h.Collected done g) {s : MarkState} (hstart : MarkState.Started i g.view s)
    (hi : i < h.partitions.length) (hnew : i ∉ done) (hj : j < h.partitions.length)
    (hjd : j ∉ done) : s.Seeded j := by
  rcases hc.pending with hidle | hseeded
  · cases hstart with
    | going hm => exact absurd (hm.symm.trans (hidle i).1) (by simp)
    | fresh hm hp => exact hp.seeded (Nat.lt_of_lt_of_eq hj hc.length.symm) (hidle j).2
  · cases hstart with
    | going hm => exact hseeded j hj hjd
    | fresh hm hp => exact absurd ((hseeded i hi hnew).marking.symm.trans hm) (by simp)

theorem ite_concat {α : Type*} (done : List ℕ) (i j : ℕ) (x y : α) :
    (if j ∈ done ++ [i] then x else y) = if j = i then x else if j ∈ done then x else y := by
  by_cases hj : j = i <;> simp [hj]

/-! ### One more collection -/

theorem mem_of_mem (hc : h.Collected done g) (hn : n ∈ (g.par j).nodes) :
    n ∈ (h.par j).nodes := by
  rw [hc.nodes] at hn
  split at hn
  · exact (List.mem_filter.mp hn).1
  · exact hn

theorem partitionId (hc : h.Collected done g) (n : NodePtr) :
    (g.head n).partitionId = (h.head n).partitionId :=
  (congrArg GcHead.partitionId (hc.head n) :)

theorem owned (hc : h.Collected done g) (hrest : h.AtRest) : g.view.Owned :=
  ⟨fun _ => view_range, fun j n hn =>
    (hc.partitionId n).trans (hrest.own j n (hc.mem_of_mem hn))⟩

theorem insideOf (hc : h.Collected done g) (hin : h.Inside) : g.view.InsideOf i := by
  intro n hn c hcn
  change c ∈ g.refs n at hcn
  rw [hc.refs] at hcn
  exact (hc.partitionId c).trans (hin i n (hc.mem_of_mem hn) c hcn)

/-- What a partition that has not been collected refers to is still there. -/
theorem refs_live (hc : h.Collected done g) (hrest : h.AtRest) (hin : h.Inside) (hnew : i ∉ done) :
    ∀ n ∈ g.view.chain i, ∀ c ∈ g.view.refs n, g.view.Live c := by
  intro n hn c hcn
  have hci : (h.head c).partitionId = i :=
    (hc.partitionId c).symm.trans (hc.insideOf hin n hn c hcn)
  change c ∈ g.refs n at hcn
  rw [hc.refs] at hcn
  obtain ⟨k, hk⟩ := hrest.refs_live i n (hc.mem_of_mem hn) c hcn
  obtain rfl : k = i := (hrest.own k c hk).symm.trans hci
  have hnodes : (g.par k).nodes = (h.par k).nodes := (hc.nodes k).trans (if_neg hnew)
  exact ⟨k, show c ∈ (g.par k).nodes from hnodes.symm ▸ hk⟩

/-- When its marking is done, the nodes to be swept are those that were dead at the beginning. -/
theorem unlinked_eq (hc : h.Collected done g) (hnew : i ∉ done) (hstore : h₁.store = g.store)
    (hout : g.view.MarkedOut h₁.view i) :
    h₁.unlinked i = h.dead i ∧ h₁.survivors i = h.kept i := by
  have hnodes : (g.par i).nodes = (h.par i).nodes := (hc.nodes i).trans (if_neg hnew)
  have hwhite : ∀ n ∈ (h.par i).nodes, h₁.isWhiteNonRoot n = decide (n ∈ h.dead i) := by
    intro n hn
    have hgarbage : h₁.isWhiteNonRoot n = true ↔ n ∉ g.localReach i :=
      hout.garbage n (show n ∈ (g.par i).nodes from hnodes.symm ▸ hn)
    rw [hc.localReach hnew] at hgarbage
    rw [Bool.eq_iff_iff, decide_eq_true_iff, mem_dead, hgarbage]
    exact (and_iff_right hn).symm
  rw [unlinked, survivors, nodes_of_store hstore, hnodes, dead, kept]
  constructor
  · refine List.filter_congr fun n hn => ?_
    rw [hwhite n hn, decide_eq_decide, mem_dead]
    exact and_iff_right hn
  · refine List.filter_congr fun n hn => ?_
    rw [hwhite n hn, decide_not]

/-- The sweep takes them. Of the partitions that are left nothing is said but what is given. -/
theorem sweep (hc : h.Collected done g) (hrest : h.AtRest) (hlen : i < g.partitions.length)
    (hnew : i ∉ done) (hstore : h₁.store = g.store) (hout : g.view.MarkedOut h₁.view i)
    (hview : (h₁.twoPhaseSweep i).1.view = h₁.view.unlink i)
    (hpending : ∀ j < h.partitions.length, j ∉ done ++ [i] →
      (h₁.view.unlink i).Seeded j) :
    h.Collected (done ++ [i]) (h₁.twoPhaseSweep i).1 ∧
      (h₁.twoPhaseSweep i).2 = h.bytesOf (h.deadOrder i) := by
  have hnodes : (g.par i).nodes = (h.par i).nodes := (hc.nodes i).trans (if_neg hnew)
  have hdone : h₁.CycleDone i := ⟨by rwa [length_of_store hstore], hout.marking, hout.gray⟩
  have hinfo : h₁.info = h.info := (funext (info_of_store hstore)).trans hc.info
  have htypes : h₁.nodeDtypes = h.nodeDtypes := (nodeDtypes_of_store hstore).trans hc.types
  have hhead : ∀ n, (h₁.head n).store = (h.head n).store := fun n =>
    (head_of_store hstore n).trans (hc.head n)
  obtain ⟨hunlinked, hsurvivors⟩ := hc.unlinked_eq hnew hstore hout
  have horder : h₁.passOrder (h₁.unlinked i) = h.deadOrder i := by
    rw [hunlinked, deadOrder, passOrder, passOrder, hinfo, htypes]
  have hown : ∀ n ∈ (h₁.par i).nodes, (h₁.head n).partitionId = i := by
    intro n hn
    rw [nodes_of_store hstore] at hn
    exact (partitionId_of_store hstore n).trans ((hc.owned hrest).own i n hn)
  obtain ⟨harena, hused, htotal, hslots, hbytes⟩ := swept_twoPhaseSweep hown hdone
  rw [horder] at harena hused htotal hslots hbytes
  obtain ⟨hhead', htypes', -⟩ := h₁.twoPhaseSweep_frame i
  have hsizes : ∀ l, h₁.sizes l = h.sizes l := fun l => sizes_congr hinfo
  have hreclaim : ∀ l, h₁.reclaimArena i l = h.reclaimArena i l := by
    intro l
    rw [reclaimArena, reclaimArena, nodes_of_store hstore, hnodes, arena_of_store hstore, hc.arena,
      if_neg hnew, collectNode_congr (fun n => (congrArg GcHead.arenaAlloc (hhead n) :)) hinfo]
  refine ⟨⟨?_, by rw [htypes', htypes], fun n => by rw [hhead', hhead], fun n => ?_, ?_,
    fun j => ?_, fun j => ?_, fun j => ?_, ?_, ?_, .inr fun j hj hjd => ?_⟩, ?_⟩
  · have hcount := congrArg MarkState.count hview
    exact hcount.trans (hout.count.trans hc.length)
  · have hprot := congrFun (congrArg MarkState.prot hview) n
    exact hprot.trans ((congrFun hout.prot n).trans (hc.prot n))
  · have hrefs := congrArg MarkState.refs hview
    exact hrefs.trans (hout.refs.trans hc.refs)
  · rw [ite_concat, nodes_twoPhaseSweep hdone, nodes_of_store hstore, hc.nodes, hsurvivors]
    split
    · next hj => rw [hj]
    · rfl
  · rw [ite_concat, harena, arena_of_store hstore, hc.arena, hreclaim]
    split
    · next hj => rw [hj]
    · rfl
  · rw [ite_concat, hused, memoryUsed_of_store hstore, hc.used, hsizes]
    split
    · next hj => rw [hj, if_neg hnew]
    · rfl
  · rw [htotal, totalMemoryUsed_of_store hstore, hc.total, hsizes, List.flatMap_append,
      sizes_append, countAll_append, List.flatMap_singleton]
  · have hweak : ∀ n, (h₁.head n).weakId = (h.head n).weakId := fun n =>
      (congrArg GcHead.weakId (hhead n) :)
    simp only [hslots, weakSlots_of_store hstore, hc.slots, hweak, List.flatMap_append,
      List.map_append, List.foldl_append, List.flatMap_singleton]
  · rw [hview]
    exact hpending j hj hjd
  · rw [hbytes, bytesOf_congr fun n _ => congrFun hinfo n]

/-- **One more collection.** -/
theorem collect (hc : h.Collected done g) (hrest : h.AtRest) (hin : h.Inside)
    (hi : i < h.partitions.length) (hnew : i ∉ done) : ∃ g',
      g.garbageCollect i = some (g', h.bytesOf (h.deadOrder i)) ∧ h.Collected (done ++ [i]) g' := by
  have hlen : i < g.partitions.length := Nat.lt_of_lt_of_eq hi hc.length.symm
  have hown := hc.owned hrest
  have hinside := hc.insideOf (i := i) hin
  have hrefs := hc.refs_live hrest hin hnew
  have hseeded : ∀ s, MarkState.Started i g.view s → s.Seeded i := fun s hstart =>
    hc.seeded hstart hi hnew hi hnew
  obtain ⟨h₁, g', bytes, s, as, hgc, hstore, ⟨hstart, hr, hout⟩, hsweep, hview⟩ :=
    garbageCollect_seeded hown hlen hseeded hrefs
  -- marking the partition does not touch the others, which stay at their beginnings
  have hpending : ∀ j < h.partitions.length, j ∉ done ++ [i] → (h₁.view.unlink i).Seeded j := by
    intro j hj hjd
    obtain ⟨hjd, hji⟩ : j ∉ done ∧ j ≠ i := by simpa using hjd
    have hlocal : s.Local i := (hseeded s hstart).local (hstart.owned hown)
      (hstart.count ▸ hlen) <| by
        simp only [MarkState.Live, hstart.chain, hstart.refs]
        exact hrefs
    have hinside' : s.InsideOf i := by
      rw [MarkState.InsideOf, hstart.chain, hstart.refs, hstart.pid]
      exact hinside
    exact ((hc.seeded hstart hi hnew hj hjd).run hji hlocal hinside' hr).unlink hji
  obtain ⟨hcollected, hbytes⟩ := hc.sweep hrest hlen hnew hstore hout (hsweep ▸ hview) hpending
  rw [hsweep] at hcollected hbytes
  exact ⟨g', hgc.trans (congrArg (fun b => some (g', b)) hbytes), hcollected⟩

end Collected

/-! ### All partitions, in any order -/

/-- Collect partitions one after the other; also the bytes that each collection returned. -/
def collectAll : List ℕ → GcHeap → Option (GcHeap × List (ℕ × ℕ))
  | [], h => some (h, [])
  | i :: order, h => do
    let (h, bytes) ← h.garbageCollect i
    let (h, freed) ← collectAll order h
    return (h, (i, bytes) :: freed)

theorem Collected.collectAll (hrest : h.AtRest) (hin : h.Inside) (order : List ℕ) :
    ∀ (done : List ℕ) (g : GcHeap), h.Collected done g → (∀ i ∈ order, i < h.partitions.length) →
    (done ++ order).Nodup → ∃ g',
      g.collectAll order = some (g', order.map fun i => (i, h.bytesOf (h.deadOrder i))) ∧
        h.Collected (done ++ order) g' := by
  induction order with
  | nil =>
    intro done g hc _ _
    exact ⟨g, rfl, (List.append_nil done).symm ▸ hc⟩
  | cons i order ih =>
    intro done g hc hlt hnd
    have hnew : i ∉ done := fun hi =>
      (List.nodup_append.mp hnd).2.2 i hi i List.mem_cons_self rfl
    obtain ⟨g₁, hgc, hc₁⟩ := hc.collect hrest hin (hlt i List.mem_cons_self) hnew
    have hassoc : done ++ i :: order = done ++ [i] ++ order := by simp
    rw [hassoc] at hnd ⊢
    obtain ⟨g', hall, hc'⟩ := ih (done ++ [i]) g₁ hc₁
      (fun j hj => hlt j (List.mem_cons_of_mem _ hj)) hnd
    refine ⟨g', ?_, hc'⟩
    rw [GcHeap.collectAll, hgc]
    dsimp only [Option.bind_eq_bind, Option.bind_some]
    rw [hall]
    rfl

/-- What the collections of all partitions leave behind, apart from the record of effects and the
headers of nodes that are gone. -/
structure SameOutcome (g g' : GcHeap) : Prop where
  /-- The chains agree. -/
  nodes : ∀ j, (g.par j).nodes = (g'.par j).nodes
  /-- So do the partitions' counters. -/
  used : ∀ j, (g.par j).memoryUsed = (g'.par j).memoryUsed
  /-- So does the total. -/
  total : g.totalMemoryUsed = g'.totalMemoryUsed
  /-- So do the arenas, with their free lists. -/
  arena : ∀ j, (g.par j).arena = (g'.par j).arena
  /-- So do the weak slots. -/
  slots : g.weakSlots = g'.weakSlots

/-- Which partitions have been collected matters, not in which order. -/
theorem Collected.sameOutcome {g' : GcHeap} {done done' : List ℕ} (hc : h.Collected done g)
    (hc' : h.Collected done' g') (hp : done.Perm done') : SameOutcome g g' := by
  have hmem : ∀ j, j ∈ done ↔ j ∈ done' := fun j => hp.mem_iff
  have horder : (done.flatMap h.deadOrder).Perm (done'.flatMap h.deadOrder) :=
    hp.flatMap_right h.deadOrder
  refine ⟨fun j => ?_, fun j => ?_, ?_, fun j => ?_, ?_⟩
  · simp only [hc.nodes, hc'.nodes, hmem]
  · simp only [hc.used, hc'.used, hmem]
  · rw [hc.total, hc'.total]
    exact countAll_perm (horder.map _) _
  · simp only [hc.arena, hc'.arena, hmem]
  · rw [hc.slots, hc'.slots]
    exact foldl_emptySlot_perm (horder.map _) _

instance : Decidable h.Inside :=
  decidable_of_iff (∀ i < h.partitions.length, ∀ n ∈ (h.par i).nodes, ∀ c ∈ h.refs n,
      (h.head c).partitionId = i)
    ⟨fun hall i n hn => hall i (lt_length_of_mem_nodes hn) n hn, fun hall i _ n hn => hall i n hn⟩

end GcHeap

open GcHeap in
/-- **The order of collections does not matter.** In a heap at rest whose references stay inside
their partitions, collecting every partition once ends, and any two orders lead to the same chains,
counters, arenas and weak slots, and free the same bytes in each partition. -/
theorem collection_order {h : GcHeap} (hrest : h.AtRest) (hin : h.Inside) {order order' : List ℕ}
    (ho : order.Perm (List.range h.partitions.length))
    (ho' : order'.Perm (List.range h.partitions.length)) :
    ∃ (g g' : GcHeap) (freed freed' : List (ℕ × ℕ)), h.collectAll order = some (g, freed) ∧
      h.collectAll order' = some (g', freed') ∧ SameOutcome g g' ∧ freed.Perm freed' := by
  have hrun : ∀ {order : List ℕ}, order.Perm (List.range h.partitions.length) → ∃ g,
      h.collectAll order = some (g, order.map fun i => (i, h.bytesOf (h.deadOrder i))) ∧
        h.Collected order g := fun hp =>
    (collected_nil hrest).collectAll hrest hin _ [] h
      (fun i hi => List.mem_range.mp (hp.subset hi)) (hp.nodup_iff.mpr List.nodup_range)
  obtain ⟨g, hall, hc⟩ := hrun ho
  obtain ⟨g', hall', hc'⟩ := hrun ho'
  have hp := ho.trans ho'.symm
  exact ⟨g, g', _, _, hall, hall', hc.sameOutcome hc' hp, hp.map _⟩

/-- Two partitions with garbage, one with an arena. -/
theorem collection_order_two : ∃ (h g g' : GcHeap) (freed freed' : List (ℕ × ℕ)),
    ((h.par 0).nodes.length = 2 ∧ (h.par 1).nodes.length = 2) ∧
    h.collectAll [0, 1] = some (g, freed) ∧ h.collectAll [1, 0] = some (g', freed') ∧
    GcHeap.SameOutcome g g' ∧ freed.Perm freed' := by
  obtain ⟨h, -, hrest, hin, hlen, hnodes⟩ : ∃ h, Reachable h ∧ h.AtRest ∧ h.Inside ∧
      h.partitions.length = 2 ∧ (h.par 0).nodes.length = 2 ∧ (h.par 1).nodes.length = 2 :=
    exists_of_play (gcTypeTableInternal 24 8 [⟨8, 8, true, none⟩])
      [.createPartition 1024 64 (some 65536), .createPartition 0 0 none,
        .allocRaw 0 0 [] none, .allocRootRaw 0 0 [] (some 1000),
        .allocRaw 1 0 [] (some 2000), .allocRaw 1 0 [2000] (some 3000)]
      (by decide +kernel)
  obtain ⟨g, g', freed, freed', hall⟩ := @collection_order h hrest hin [0, 1] [1, 0]
    (by rw [hlen]; decide) (by rw [hlen]; decide)
  exact ⟨h, g, g', freed, freed', hnodes, hall⟩

end GcLite
