import GcLite.Incremental
import GcLite.Placement
import Mathlib.Algebra.Order.BigOperators.Group.List
import Mathlib.Algebra.Order.Group.Nat

/-!
# Memory accounting

Allocation adds the layout size of a node to two counters, a disposal takes it away again, and
teardown of a partition takes away all that the partition has counted. The deltas pass through an
`i32` and the counters wrap, so the counters are right as long as the sizes fit an `i32` and the
live nodes have room in memory.

## Main definitions

* `GcHeap.bytesOf` — the layout sizes of a list of nodes
* `GcHeap.Accounts` — the counters are right
* `GcHeap.Covers`, `GcHeap.SweepCovered` — a subtraction does not underflow
* `SmallAlloc` — the size of an allocated node fits an `i32`

## Main results

* `Accounts.step` — every operation keeps the counters right
* `Accounts.twoPhaseSweep`, `Accounts.deallocPartition` — the bytes returned are those taken away
* `memory_accounting`
-/

namespace GcLite

open Transition

/-- The size of a node that is allocated fits an `i32`. -/
def SmallAlloc (h : GcHeap) (op : Op) : Prop :=
  ∀ dtype, op.allocType = some dtype → (h.typeInfo dtype).layoutSize < 2 ^ 31

instance {h : GcHeap} {op : Op} : Decidable (SmallAlloc h op) :=
  inferInstanceAs (Decidable (∀ _, _ = some _ → _))

namespace GcHeap

/-- The bytes of a list of nodes. -/
def bytesOf (h : GcHeap) (l : List NodePtr) : ℕ := (l.map fun n => (h.info n).layoutSize).sum

/-- The counters are right. -/
structure Accounts (h : GcHeap) : Prop where
  /-- Every size fits the counters' deltas. -/
  small : ∀ n, h.Live n → (h.info n).layoutSize < 2 ^ 31
  /-- A partition's counter is the sum of its nodes' sizes. -/
  used : ∀ i, (h.par i).memoryUsed = h.bytesOf (h.par i).nodes
  /-- The total is the sum over all nodes. -/
  total : h.totalMemoryUsed = h.bytesOf h.allNodes

variable {h h' : GcHeap} {i j : ℕ} {n m : NodePtr} {l l' : List NodePtr}

/-! ### Bytes of lists -/

@[simp] theorem bytesOf_nil : h.bytesOf [] = 0 := rfl

@[simp] theorem bytesOf_cons : h.bytesOf (n :: l) = (h.info n).layoutSize + h.bytesOf l := by
  simp [bytesOf]

@[simp] theorem bytesOf_append : h.bytesOf (l ++ l') = h.bytesOf l + h.bytesOf l' := by
  simp [bytesOf]

theorem bytesOf_perm (hp : l.Perm l') : h.bytesOf l = h.bytesOf l' := (hp.map _).sum_eq

theorem bytesOf_sublist (hs : l.Sublist l') : h.bytesOf l ≤ h.bytesOf l' :=
  (hs.map _).sum_le_sum fun _ _ => Nat.zero_le _

theorem bytesOf_congr (hinfo : ∀ n ∈ l, h'.info n = h.info n) : h'.bytesOf l = h.bytesOf l := by
  rw [bytesOf, bytesOf]
  exact congrArg List.sum (List.map_congr_left fun n hn => by rw [hinfo n hn])

theorem bytesOf_flatMap (L : List GcPartition) :
    h.bytesOf (L.flatMap GcPartition.nodes) = (L.map fun q => h.bytesOf q.nodes).sum := by
  induction L with
  | nil => rfl
  | cons q L ih => rw [List.flatMap_cons, bytesOf_append, ih, List.map_cons, List.sum_cons]

theorem bytesOf_nodes_le : h.bytesOf (h.par i).nodes ≤ h.bytesOf h.allNodes := by
  by_cases hi : i < h.partitions.length
  · have hmem : h.par i ∈ h.partitions := by simp [par, hi]
    refine bytesOf_sublist ?_
    rw [allNodes, List.flatMap_def]
    exact List.sublist_flatten_of_mem (List.mem_map_of_mem hmem)
  · rw [par_of_length_le (Nat.le_of_not_lt hi)]
    exact Nat.zero_le _

/-- Nodes that are gone, and those that are left. -/
theorem allNodes_perm (hinv : h.MemInv) (hinv' : h'.MemInv) {gone : List NodePtr}
    (hnd : gone.Nodup) (hlive : ∀ n, h.Live n ↔ n ∈ gone ∨ h'.Live n)
    (hgone : ∀ n ∈ gone, ¬ h'.Live n) : h.allNodes.Perm (gone ++ h'.allNodes) := by
  refine (List.perm_ext_iff_of_nodup hinv.nodup_allNodes ?_).mpr fun n => ?_
  · refine List.nodup_append.mpr ⟨hnd, hinv'.nodup_allNodes, ?_⟩
    rintro n hn m hm rfl
    exact hgone n hn (mem_allNodes.mp hm)
  · rw [List.mem_append, mem_allNodes, mem_allNodes, hlive]

namespace Accounts

/-- The heap's counter is the sum of the partitions'. -/
theorem total_eq_sum (hacc : h.Accounts) :
    h.totalMemoryUsed = (h.partitions.map GcPartition.memoryUsed).sum := by
  rw [hacc.total, allNodes, bytesOf_flatMap]
  refine congrArg List.sum (List.map_congr_left fun q hq => ?_)
  obtain ⟨i, hi, rfl⟩ := List.getElem_of_mem hq
  simpa [par, hi] using (hacc.used i).symm

theorem used_le_total (hacc : h.Accounts) (i : ℕ) : (h.par i).memoryUsed ≤ h.totalMemoryUsed := by
  rw [hacc.used, hacc.total]
  exact bytesOf_nodes_le

theorem congr (hacc : h.Accounts) (heq : h'.store = h.store) : h'.Accounts := by
  have hbytes : ∀ l, h'.bytesOf l = h.bytesOf l := fun l =>
    bytesOf_congr fun n _ => info_of_store heq n
  have hall : h'.allNodes = h.allNodes := by
    have hparts : h'.partitions.map GcPartition.nodes = h.partitions.map GcPartition.nodes := by
      have := congrArg (fun h => h.partitions.map GcPartition.nodes) heq
      simpa [store, Function.comp_def, GcPartition.store] using this
    rw [allNodes, allNodes, List.flatMap_def, List.flatMap_def, hparts]
  refine ⟨fun n hn => ?_, fun i => ?_, ?_⟩
  · rw [info_of_store heq]
    exact hacc.small n ((live_of_store heq).mp hn)
  · rw [memoryUsed_of_store heq, nodes_of_store heq, hbytes]
    exact hacc.used i
  · rw [totalMemoryUsed_of_store heq, hall, hbytes]
    exact hacc.total

theorem new (registry : GcTypeRegistry) : (GcHeap.new registry).Accounts := by
  have hpar : ∀ i, (GcHeap.new registry).par i = default :=
    fun i => par_of_length_le (Nat.zero_le i)
  refine ⟨fun n ⟨j, hn⟩ => ?_, fun i => ?_, rfl⟩
  · simp [hpar, default] at hn
  · rw [hpar]
    rfl

/-! ### Allocation -/

theorem createPartition {capacity maxAlloc id : ℕ} {sys : Option ℕ} (hacc : h.Accounts)
    (hok : h.createPartition capacity maxAlloc sys = some (h', id)) : h'.Accounts := by
  obtain ⟨q, rfl, hpar, ⟨hnodes, -, -, hused⟩, -⟩ := createPartition_ok hok
  have hinfo : ∀ n, info { h with partitions := h.partitions ++ [q] } n = h.info n := fun _ => rfl
  have hbytes : ∀ l, bytesOf { h with partitions := h.partitions ++ [q] } l = h.bytesOf l :=
    fun l => bytesOf_congr fun n _ => hinfo n
  refine ⟨fun n hn => ?_, fun i => ?_, ?_⟩
  · obtain ⟨p, hp, hn⟩ := live_iff.mp hn
    rcases List.mem_append.mp hp with hp | hp
    · exact hacc.small n (live_iff.mpr ⟨p, hp, hn⟩)
    · rw [List.mem_singleton.mp hp, hnodes] at hn
      exact absurd hn List.not_mem_nil
  · rw [hpar, hbytes]
    split
    · rw [hused, hnodes, bytesOf_nil]
    · exact hacc.used i
  · rw [hbytes]
    have hall : allNodes { h with partitions := h.partitions ++ [q] } = h.allNodes := by
      simp [allNodes, hnodes]
    rw [hall]
    exact hacc.total

theorem attach {dtype : ℕ} {fromArena : Bool} (hacc : h.Accounts) (hn : ¬ h.Live n)
    (hatt : Attached h i dtype fromArena n h') (hsmall : (h.typeInfo dtype).layoutSize < 2 ^ 31)
    (hinv : h.MemInv) (hinv' : h'.MemInv) (hp' : h'.Placed) : h'.Accounts := by
  have hnew : (h'.info n).layoutSize = (h.typeInfo dtype).layoutSize := by
    rw [info, hatt.head, Function.update_self, hatt.types]
    rfl
  have hold : ∀ m, h.Live m → h'.info m = h.info m := by
    intro m hm
    have hmn : m ≠ n := fun heq => hn (heq ▸ hm)
    rw [info, info, hatt.head, Function.update_of_ne hmn, hatt.types]
  have hall : h'.allNodes.Perm (n :: h.allNodes) :=
    @allNodes_perm _ _ hinv' hinv [n] (List.nodup_singleton n)
      (fun m => by rw [List.mem_singleton, hatt.live_iff]) (by simpa using hn)
  have hbytes : h'.bytesOf h'.allNodes = h.totalMemoryUsed + (h.typeInfo dtype).layoutSize := by
    rw [bytesOf_perm hall, bytesOf_cons, hnew,
      bytesOf_congr fun m hm => hold m (mem_allNodes.mp hm), hacc.total, Nat.add_comm]
  have hchain : ∀ j, h'.bytesOf (h'.par j).nodes = (h.par j).memoryUsed +
      if j = i then (h.typeInfo dtype).layoutSize else 0 := by
    intro j
    rw [hatt.nodes, hacc.used]
    split
    · rw [bytesOf_cons, hnew, bytesOf_congr fun m hm => hold m ⟨j, hm⟩, Nat.add_comm]
    · rw [bytesOf_congr fun m hm => hold m ⟨j, hm⟩, Nat.add_zero]
  have hroom : ∀ j, h'.bytesOf (h'.par j).nodes < 2 ^ 64 := fun j =>
    Nat.lt_of_le_of_lt bytesOf_nodes_le (hinv'.sum_size_lt hp')
  refine ⟨fun m hm => ?_, fun j => ?_, ?_⟩
  · rcases hatt.live_iff.mp hm with rfl | hm
    · exact hnew ▸ hsmall
    · rw [hold m hm]
      exact hacc.small m hm
  · have hlt := hroom j
    rw [hchain] at hlt ⊢
    rw [hatt.used hsmall]
    split
    · next hj =>
      rw [if_pos hj] at hlt
      exact asUsize_of_lt hlt
    · rfl
  · have hlt := hinv'.sum_size_lt hp'
    change h'.bytesOf h'.allNodes < _ at hlt
    rw [hatt.total hsmall, hbytes]
    exact asUsize_of_lt (hbytes ▸ hlt)

/-! ### Disposal -/

end Accounts

/-- Taking a size away. -/
theorem countFreed_of_le {size count : ℕ} (hsize : size < 2 ^ 31) (hle : size ≤ count)
    (hcount : count < 2 ^ 64) : countFreed size count = count - size := by
  have hlt : count - size < 2 ^ 64 := by omega
  have hdiff : (count : ℤ) + -(size : ℤ) = ((count - size : ℕ) : ℤ) := by omega
  unfold countFreed
  rw [freeDelta_of_lt hsize, hdiff, asUsize_of_lt hlt]

/-- Disposing of the node takes no more from the counters than they hold. -/
def Covers (h : GcHeap) (n : NodePtr) : Prop :=
  (h.info n).layoutSize ≤ (h.par (h.head n).partitionId).memoryUsed ∧
    (h.info n).layoutSize ≤ h.totalMemoryUsed

/-- Between two heaps of a sweep of partition `i`, so many bytes have been taken away. -/
structure TakenAway (i : ℕ) (h h' : GcHeap) (bytes : ℕ) : Prop where
  /-- They were on the partition's counter. -/
  used : (h.par i).memoryUsed = (h'.par i).memoryUsed + bytes
  /-- They were on the total. -/
  total : h.totalMemoryUsed = h'.totalMemoryUsed + bytes
  /-- Other partitions have not been touched. -/
  other : ∀ j, j ≠ i → (h'.par j).memoryUsed = (h.par j).memoryUsed

theorem takenAway_disposeNode {s : SweepState} (hi : i < s.heap.partitions.length)
    (hpid : (s.heap.head n).partitionId = i) (hsmall : (s.heap.info n).layoutSize < 2 ^ 31)
    (hcov : s.heap.Covers n) (hle : (s.heap.par i).memoryUsed ≤ s.heap.totalMemoryUsed)
    (htotal : s.heap.totalMemoryUsed < 2 ^ 64) :
    TakenAway i s.heap (s.disposeNode i n).heap (s.heap.info n).layoutSize := by
  obtain ⟨hused, htot⟩ := hcov
  rw [hpid] at hused
  have hmem : ∀ j, ((s.disposeNode i n).heap.par j).memoryUsed = if j = i then
      countFreed (s.heap.info n).layoutSize (s.heap.par j).memoryUsed
      else (s.heap.par j).memoryUsed := by
    intro j
    rw [SweepState.memoryUsed_disposeNode (hpid ▸ hi), hpid]
  refine ⟨?_, ?_, fun j hj => by rw [hmem, if_neg hj]⟩
  · rw [hmem, if_pos rfl, countFreed_of_le hsmall hused (Nat.lt_of_le_of_lt hle htotal)]
    exact (Nat.sub_add_cancel hused).symm
  · rw [SweepState.totalMemoryUsed_disposeNode, countFreed_of_le hsmall htot htotal]
    exact (Nat.sub_add_cancel htot).symm

theorem freedBytes_foldl_disposeNode (l : List NodePtr) (s : SweepState) :
    (l.foldl (SweepState.disposeNode i) s).freedBytes = s.freedBytes + s.heap.bytesOf l := by
  induction l generalizing s with
  | nil => rfl
  | cons n l ih =>
    have hbytes : (s.disposeNode i n).heap.bytesOf l = s.heap.bytesOf l :=
      bytesOf_congr fun m _ => by rw [SweepState.info_disposeNode]
    rw [List.foldl_cons, ih, hbytes, SweepState.freedBytes_disposeNode, bytesOf_cons, Nat.add_assoc]

/-- One node after the other: what is taken away are the sizes, and no subtraction underflows. -/
theorem takenAway_foldl_disposeNode (l : List NodePtr) : ∀ s : SweepState,
    i < s.heap.partitions.length → (∀ n ∈ l, (s.heap.head n).partitionId = i) →
    (∀ n ∈ l, (s.heap.info n).layoutSize < 2 ^ 31) →
    s.heap.bytesOf l ≤ (s.heap.par i).memoryUsed →
    (s.heap.par i).memoryUsed ≤ s.heap.totalMemoryUsed → s.heap.totalMemoryUsed < 2 ^ 64 →
    let s' := l.foldl (SweepState.disposeNode i) s
    TakenAway i s.heap s'.heap (s.heap.bytesOf l) ∧
      ∀ pre n post, l = pre ++ n :: post →
        (pre.foldl (SweepState.disposeNode i) s).heap.Covers n := by
  induction l with
  | nil =>
    intro s _ _ _ _ _ _
    exact ⟨⟨rfl, rfl, fun _ _ => rfl⟩, fun pre n post heq => by simp at heq⟩
  | cons n l ih =>
    intro s hi hpid hsmall hbytes hle htotal
    rw [bytesOf_cons] at hbytes
    have hcov : s.heap.Covers n := by
      rw [Covers, hpid n List.mem_cons_self]
      omega
    have hone := takenAway_disposeNode hi (hpid n List.mem_cons_self)
      (hsmall n List.mem_cons_self) hcov hle htotal
    obtain ⟨hused, htot, hother⟩ := hone
    have hinfo : (s.disposeNode i n).heap.info = s.heap.info := SweepState.info_disposeNode
    have hrest : (s.disposeNode i n).heap.bytesOf l = s.heap.bytesOf l :=
      bytesOf_congr fun m _ => by rw [hinfo]
    obtain ⟨⟨hused', htot', hother'⟩, hcov'⟩ := ih (s.disposeNode i n)
      (by rwa [SweepState.length_disposeNode])
      (fun m hm => by
        rw [SweepState.head_disposeNode]
        exact hpid m (List.mem_cons_of_mem _ hm))
      (fun m hm => by
        rw [hinfo]
        exact hsmall m (List.mem_cons_of_mem _ hm))
      (by omega) (by omega) (by omega)
    rw [hrest] at hused' htot'
    rw [List.foldl_cons, bytesOf_cons]
    refine ⟨⟨by omega, by omega, fun j hj => (hother' j hj).trans (hother j hj)⟩,
      fun pre m post heq => ?_⟩
    rcases List.cons_eq_append_iff.mp heq with ⟨rfl, hpost⟩ | ⟨pre, rfl, rfl⟩
    · obtain ⟨rfl, -⟩ := List.cons.inj hpost
      exact hcov
    · exact hcov' pre m post rfl

/-- No disposal of a sweep of partition `i` takes more from a counter than it holds. -/
def SweepCovered (h : GcHeap) (i : ℕ) : Prop := ∀ pre n post,
  h.passOrder (h.unlinked i) = pre ++ n :: post →
    (pre.foldl (SweepState.disposeNode i) ⟨h.dropped i, [], 0⟩).heap.Covers n

namespace Accounts

/-- **A sweep** takes away the bytes of the nodes that it unlinks, and returns them. -/
theorem takenAway_twoPhaseSweep (hacc : h.Accounts) (hinv : h.MemInv) (hp : h.Placed)
    (hdone : h.CycleDone i) :
    TakenAway i h (h.twoPhaseSweep i).1 (h.bytesOf (h.unlinked i)) ∧
      (h.twoPhaseSweep i).2 = h.bytesOf (h.unlinked i) ∧ h.SweepCovered i := by
  have hunl : ∀ n ∈ h.unlinked i, n ∈ (h.par i).nodes := fun n hn => (List.mem_filter.mp hn).1
  have hperm : (h.passOrder (h.unlinked i)).Perm (h.unlinked i) :=
    passOrder_perm fun n hn => hinv.dtype i n (hunl n hn)
  have hmem : ∀ n ∈ h.passOrder (h.unlinked i), n ∈ (h.par i).nodes := fun n hn =>
    hunl n (hperm.subset hn)
  have hdropped : ∀ j, ((h.dropped i).par j).memoryUsed = (h.par j).memoryUsed := fun j =>
    field_modifyPar GcPartition.memoryUsed fun _ => rfl
  have hbytes : (h.dropped i).bytesOf (h.passOrder (h.unlinked i)) = h.bytesOf (h.unlinked i) :=
    (bytesOf_congr fun _ _ => rfl).trans (bytesOf_perm hperm)
  obtain ⟨⟨hused, htotal, hother⟩, hcov⟩ := takenAway_foldl_disposeNode (i := i)
    (h.passOrder (h.unlinked i)) ⟨h.dropped i, [], 0⟩
    (by simpa [dropped, modifyPar] using hdone.1)
    (fun n hn => hinv.own i n (hmem n hn))
    (fun n hn => hacc.small n ⟨i, hmem n hn⟩)
    (by
      rw [hbytes, hdropped, hacc.used]
      exact bytesOf_sublist List.filter_sublist)
    (by
      rw [hdropped]
      exact hacc.used_le_total i)
    (by
      have hlt := hinv.sum_size_lt hp
      rw [← bytesOf, ← hacc.total] at hlt
      exact hlt)
  have hfreed := freedBytes_foldl_disposeNode (i := i) (h.passOrder (h.unlinked i))
    ⟨h.dropped i, [], 0⟩
  rw [hbytes] at hused htotal hfreed
  rw [hdropped] at hused
  by_cases hempty : (h.par i).nodes = []
  · have hnil : h.unlinked i = [] := by rw [unlinked, hempty, List.filter_nil]
    rw [twoPhaseSweep_of_empty hdone hempty, hnil]
    have hsame : ∀ j, ((h.setMarking i false).par j).memoryUsed = (h.par j).memoryUsed := fun j =>
      field_modifyPar GcPartition.memoryUsed fun _ => rfl
    exact ⟨⟨(hsame i).symm, rfl, fun j _ => hsame j⟩, rfl, hcov⟩
  · obtain ⟨s, hs, heq⟩ := twoPhaseSweep_of_done hdone hempty
    obtain ⟨f, -, -, hfinish⟩ := finishSweep_frame s.heap i s.holes
    have hsame : ∀ j, ((s.heap.finishSweep i s.holes).par j).memoryUsed =
        (s.heap.par j).memoryUsed := by
      intro j
      rw [hfinish]
      exact field_modifyPar GcPartition.memoryUsed fun _ => rfl
    have htot : (s.heap.finishSweep i s.holes).totalMemoryUsed = s.heap.totalMemoryUsed := by
      rw [hfinish]
      rfl
    rw [← hs] at hused htotal hother hfreed
    rw [heq]
    refine ⟨⟨?_, ?_, fun j hj => ?_⟩, ?_, hcov⟩
    · rw [hsame]
      exact hused
    · rw [htot]
      exact htotal
    · rw [hsame, hother j hj, hdropped]
    · exact hfreed.trans (Nat.zero_add _)

/-- What stays after the nodes `gone` have left the chain of partition `i`, and their bytes have
been taken away, is counted right. -/
theorem of_takenAway {gone : List NodePtr} (hacc : h.Accounts) (hinv : h.MemInv)
    (hinv' : h'.MemInv) (htaken : TakenAway i h h' (h.bytesOf gone))
    (hinfo : ∀ n, h'.info n = h.info n)
    (hchain : (gone ++ (h'.par i).nodes).Perm (h.par i).nodes)
    (hother : ∀ j, j ≠ i → (h'.par j).nodes = (h.par j).nodes) : h'.Accounts := by
  have hnd := hchain.nodup_iff.mpr (hinv.nodup i)
  have hsame : ∀ l, h'.bytesOf l = h.bytesOf l := fun l => bytesOf_congr fun n _ => hinfo n
  have hgone : ∀ n ∈ gone, n ∈ (h.par i).nodes := fun n hn =>
    hchain.subset (List.mem_append_left _ hn)
  have hkept : ∀ j n, n ∈ (h'.par j).nodes → n ∈ (h.par j).nodes := by
    intro j n hn
    by_cases hj : j = i
    · subst hj
      exact hchain.subset (List.mem_append_right _ hn)
    · exact hother j hj ▸ hn
  have hall : h.allNodes.Perm (gone ++ h'.allNodes) := by
    refine allNodes_perm hinv hinv' (List.nodup_append.mp hnd).1 (fun n => ⟨?_, ?_⟩) ?_
    · rintro ⟨j, hn⟩
      by_cases hj : j = i
      · subst hj
        exact (List.mem_append.mp (hchain.symm.subset hn)).imp_right fun hn => ⟨j, hn⟩
      · exact .inr ⟨j, (hother j hj).symm ▸ hn⟩
    · rintro (hn | ⟨j, hn⟩)
      · exact ⟨i, hgone n hn⟩
      · exact ⟨j, hkept j n hn⟩
    · rintro n hn ⟨j, hn'⟩
      have hji : j = i := (hinv.own j n (hkept j n hn')).symm.trans (hinv.own i n (hgone n hn))
      exact (List.nodup_append.mp hnd).2.2 n hn n (hji ▸ hn') rfl
  refine ⟨fun n hn => ?_, fun j => ?_, ?_⟩
  · obtain ⟨j, hn⟩ := hn
    rw [hinfo]
    exact hacc.small n ⟨j, hkept j n hn⟩
  · rw [hsame]
    by_cases hj : j = i
    · have hused := htaken.used
      rw [hacc.used, ← bytesOf_perm hchain, bytesOf_append] at hused
      rw [hj]
      omega
    · rw [htaken.other j hj, hother j hj]
      exact hacc.used j
  · have htotal := htaken.total
    rw [hacc.total, bytesOf_perm hall, bytesOf_append] at htotal
    rw [hsame]
    omega

theorem twoPhaseSweep (hacc : h.Accounts) (hinv : h.MemInv) (hp : h.Placed) (i : ℕ) :
    (h.twoPhaseSweep i).1.Accounts := by
  by_cases hdone : h.CycleDone i
  · obtain ⟨htaken, -⟩ := hacc.takenAway_twoPhaseSweep hinv hp hdone
    obtain ⟨hhead, htypes, -⟩ := h.twoPhaseSweep_frame i
    refine hacc.of_takenAway hinv hinv.twoPhaseSweep htaken
      (fun n => by rw [info, info, hhead, htypes]) ?_ fun j hj => ?_
    · rw [nodes_twoPhaseSweep hdone, if_pos rfl]
      exact survivors_append_unlinked_perm
    · rw [nodes_twoPhaseSweep hdone, if_neg hj]
  · rw [twoPhaseSweep_of_not_done hdone]
    exact hacc

/-! ### Teardown -/

/-- **Teardown** takes away the bytes of the chain, and returns them. -/
theorem takenAway_deallocPartition {debug : Bool} {link : List NodePtr} {sys : Option ℕ}
    {bytes : ℕ} (hacc : h.Accounts) (hinv : h.MemInv) (hp : h.Placed)
    (hlink : link = (h.par i).nodes)
    (hok : h.deallocPartition debug i link sys = some (h', bytes)) :
    TakenAway i h h' (h.bytesOf (h.par i).nodes) ∧ bytes = h.bytesOf (h.par i).nodes := by
  obtain ⟨arena, log, -, heq⟩ := deallocPartition_ok hok
  have hbytes : bytes = h.bytesOf link := by
    unfold GcHeap.deallocPartition at hok
    dsimp only at hok
    split at hok
    · obtain ⟨arena, -, heq⟩ := Option.bind_eq_some_iff.mp hok
      exact (Prod.mk.inj (Option.some.inj heq)).2.symm
    · exact (Prod.mk.inj (Option.some.inj hok)).2.symm
  have hle := hacc.used_le_total i
  have hlt : h.totalMemoryUsed - (h.par i).memoryUsed < 2 ^ 64 := by
    have hroom := hinv.sum_size_lt hp
    rw [← bytesOf, ← hacc.total] at hroom
    exact Nat.lt_of_le_of_lt (Nat.sub_le _ _) hroom
  obtain ⟨⟨-, hused⟩, hother, -⟩ := par_of_torn heq
  refine ⟨⟨?_, ?_, fun j hj => by rw [hother j hj]⟩, hlink ▸ hbytes⟩
  · rw [hused, ← hacc.used, Nat.zero_add]
  · have htotal : h'.totalMemoryUsed =
        asUsize ((h.totalMemoryUsed : ℤ) - ((h.par i).memoryUsed : ℤ)) := by rw [heq]; rfl
    have hdiff : (h.totalMemoryUsed : ℤ) - ((h.par i).memoryUsed : ℤ) =
        ((h.totalMemoryUsed - (h.par i).memoryUsed : ℕ) : ℤ) := by omega
    rw [htotal, hdiff, asUsize_of_lt hlt, ← hacc.used, Nat.sub_add_cancel hle]

end Accounts

/-- Phase 1 of teardown changes scopes, weak slots and the record of effects. -/
theorem finalizePartition_frame {link : List NodePtr}
    (hok : h.finalizePartition i = some (h', link)) :
    i < h.partitions.length ∧ link = (h'.par i).nodes ∧ ∃ (g : GcHeap) (slots : List WeakSlot)
      (log : List GcEvent), g.store = h.store ∧ h' = { g with weakSlots := slots, log := log } := by
  obtain ⟨⟨h₁, l⟩, hprep, heq⟩ := Option.map_eq_some_iff.mp hok
  obtain ⟨rfl, rfl⟩ := Prod.mk.inj heq
  obtain ⟨hi, hl, hh₁⟩ := finalizePartitionPrepare_ok hprep
  refine ⟨hi, ?_, h.clearScopesOf i, h₁.weakSlots, h₁.log ++ h₁.finalizeDrops l,
    store_clearScopesOf, ?_⟩
  · rw [hl, hh₁]
    rfl
  · rw [hh₁]
    rfl

/-- What is said about memory is true of the finalized partition too. -/
theorem accounts_finalizePartition {link : List NodePtr} (hacc : h.Accounts) (hinv : h.MemInv)
    (hp : h.Placed) (hok : h.finalizePartition i = some (h', link)) :
    h'.Accounts ∧ h'.MemInv ∧ h'.Placed ∧ h'.totalMemoryUsed = h.totalMemoryUsed := by
  obtain ⟨-, -, g, slots, log, hstore, rfl⟩ := finalizePartition_frame hok
  obtain ⟨hsmall, hused, htotal⟩ := hacc.congr hstore
  obtain ⟨hin, hapart⟩ := hp.congr hstore
  refine ⟨⟨hsmall, hused, htotal⟩, ?_, ⟨hin, hapart⟩, (totalMemoryUsed_of_store hstore :)⟩
  exact (hinv.congr hstore).of_fields (fun _ => rfl) (fun _ => rfl) rfl fun _ => ⟨rfl, rfl, rfl⟩

namespace Accounts

/-- Both phases of teardown. -/
theorem teardown {debug : Bool} {link : List NodePtr} {sys : Option ℕ} {bytes : ℕ} {h₁ : GcHeap}
    (hacc : h.Accounts) (hinv : h.MemInv) (hp : h.Placed)
    (hfin : h.finalizePartition i = some (h₁, link))
    (hdealloc : h₁.deallocPartition debug i link sys = some (h', bytes)) :
    (h₁.par i).memoryUsed ≤ h₁.totalMemoryUsed ∧
      h.totalMemoryUsed = h'.totalMemoryUsed + bytes := by
  obtain ⟨hacc₁, hinv₁, hp₁, htotal⟩ := accounts_finalizePartition hacc hinv hp hfin
  obtain ⟨-, hlink, -⟩ := finalizePartition_frame hfin
  obtain ⟨htaken, hbytes⟩ := hacc₁.takenAway_deallocPartition hinv₁ hp₁ hlink hdealloc
  exact ⟨hacc₁.used_le_total i, htotal ▸ hbytes ▸ htaken.total⟩

theorem removePartition {sys : Option ℕ} {bytes : ℕ} (hacc : h.Accounts) (hinv : h.MemInv)
    (hp : h.Placed)
    (hfresh : ∀ base, sys = some base → h.RegionFresh (h.par i).nodes base (h.par i).arenaCapacity)
    (hok : h.removePartition false i sys = some (h', bytes)) : h'.Accounts := by
  have hinv' : h'.MemInv := hinv.removePartition hfresh hok
  unfold GcHeap.removePartition at hok
  split at hok
  · next h₁ link hfin =>
    obtain ⟨hacc₁, hinv₁, hp₁, -⟩ := accounts_finalizePartition hacc hinv hp hfin
    obtain ⟨-, hlink, -⟩ := finalizePartition_frame hfin
    obtain ⟨htaken, -⟩ := hacc₁.takenAway_deallocPartition hinv₁ hp₁ hlink hok
    obtain ⟨arena, log', -, heq⟩ := deallocPartition_ok hok
    obtain ⟨⟨hself, -⟩, hother, -⟩ := par_of_torn heq
    refine hacc₁.of_takenAway hinv₁ hinv' htaken (fun n => by rw [heq]; rfl) ?_
      fun j hj => by rw [hother j hj]
    rw [hself, List.append_nil]
  · obtain ⟨rfl, -⟩ := Prod.mk.inj (Option.some.inj hok)
    exact hacc

/-! ### Every step -/

/-- Nothing is counted by weak ids and weak slots. -/
theorem setWeak (hacc : h.Accounts) (slots : List WeakSlot) (n : NodePtr) (w : GcWeakRawId) :
    Accounts (modifyHead { h with weakSlots := slots } n fun hd => { hd with weakId := w }) := by
  have hinfo : (modifyHead { h with weakSlots := slots } n fun hd => { hd with weakId := w }).info =
      h.info := by
    funext m
    have hdtype := field_modifyHead (h := { h with weakSlots := slots }) (n := n) (m := m)
      (g := fun hd => { hd with weakId := w }) GcHead.dtype fun _ => rfl
    exact congrArg (h.nodeDtypes.typeInfoList.getD · default) hdtype
  refine ⟨fun m hm => ?_, fun j => ?_, ?_⟩
  · rw [hinfo]
    exact hacc.small m hm
  · rw [bytesOf, hinfo]
    exact hacc.used j
  · rw [bytesOf, hinfo]
    exact hacc.total

theorem downgrade {w : GcWeakRawId} (hacc : h.Accounts) (hok : h.downgrade n = some (h', w)) :
    h'.Accounts := by
  obtain ⟨slots, rfl⟩ := downgrade_frame hok
  exact hacc.setWeak slots n w

/-- **Every operation** keeps the counters right. -/
theorem step {op : Op} (hacc : h.Accounts) (hinv : h.MemInv) (hp : h.Placed) (hst : Step h op h')
    (hmem : SystemMemory h op) (hsmall : SmallAlloc h op) : h'.Accounts := by
  cases hst.store with
  | same heq => exact hacc.congr heq
  | create hop hfresh hok => exact hacc.createPartition hok
  | @alloc i dtype size payload skipArena sys h₁ n htype hsys hdtype hfresh hok heq =>
    obtain ⟨fromArena, hatt, -⟩ := allocNodeMem_attached hok
    obtain ⟨hn, hinv₁⟩ := hinv.allocNodeMem hdtype hfresh hok
    have hp₁ : (h₁.attachNode i n).Placed := (hp.step hinv hst hmem).congr heq.symm
    exact (hacc.attach hn hatt (hsmall dtype htype) hinv hinv₁ hp₁).congr heq
  | sweep hop hstore heq =>
    exact heq ▸ (hacc.congr hstore).twoPhaseSweep (hinv.congr hstore) (hp.congr hstore) _
  | downgrade hop hn hok => exact hacc.downgrade hok
  | remove hop hfresh hok => exact hacc.removePartition hinv hp hfresh hok

/-- **A collection** takes away the bytes that it returns. -/
theorem garbageCollect {bytes : ℕ} (hacc : h.Accounts) (hinv : h.MemInv) (hp : h.Placed)
    (hgc : h.garbageCollect i = some (h', bytes)) :
    h.totalMemoryUsed = h'.totalMemoryUsed + bytes := by
  rcases markFrame_store.garbageCollect hgc with ⟨-, rfl, rfl⟩ | ⟨g, hstore, hsweep⟩
  · rfl
  · rw [← totalMemoryUsed_of_store hstore]
    by_cases hdone : g.CycleDone i
    · obtain ⟨htaken, hbytes, -⟩ :=
        (hacc.congr hstore).takenAway_twoPhaseSweep (hinv.congr hstore) (hp.congr hstore) hdone
      rw [hsweep] at htaken hbytes
      rw [show bytes = _ from hbytes]
      exact htaken.total
    · rw [twoPhaseSweep_of_not_done hdone] at hsweep
      obtain ⟨rfl, rfl⟩ := Prod.mk.inj hsweep
      rfl

end Accounts

end GcHeap

open GcHeap in
/-- The type table does not change. -/
theorem Step.nodeDtypes {h h' : GcHeap} {op : Op} (hst : Step h op h') :
    h'.nodeDtypes = h.nodeDtypes := by
  cases hst.store with
  | same heq => exact nodeDtypes_of_store heq
  | create hop hfresh hok =>
    obtain ⟨q, rfl, -⟩ := createPartition_ok hok
    rfl
  | alloc htype hsys hdtype hfresh hok heq =>
    obtain ⟨fromArena, hatt, -⟩ := allocNodeMem_attached hok
    exact (nodeDtypes_of_store heq).trans hatt.types
  | sweep hop hstore heq =>
    rw [heq, (twoPhaseSweep_frame _ _).2.1, nodeDtypes_of_store hstore]
  | downgrade hop hn hok =>
    obtain ⟨slots, rfl⟩ := downgrade_frame hok
    rfl
  | remove hop hfresh hok =>
    obtain rfl | ⟨-, g, link, arena, log, hg, -, -, rfl⟩ := removePartition_ok hok
    · rfl
    · rw [hg]
      exact (nodeDtypes_of_store store_clearScopesOf :)

open GcHeap in
/-- In every run of small allocations. -/
theorem accounts_of_reachable {C : GcHeap → Op → Prop} {h : GcHeap} (hr : ReachableWith C h)
    (hmem : ∀ g op, C g op → SystemMemory g op) (hsmall : ∀ g op, C g op → SmallAlloc g op) :
    h.Accounts := by
  obtain ⟨registry, hr⟩ := hr
  refine (hr.invariant (I := fun h => (h.MemInv ∧ h.Placed) ∧ h.Accounts) (fun g op g' hg hst => ?_)
    ⟨⟨MemInv.new registry, placed_new registry⟩, Accounts.new registry⟩).2
  obtain ⟨⟨hinv, hp⟩, hacc⟩ := hg
  exact ⟨⟨hinv.step hst.1, hp.step hinv hst.1 (hmem _ _ hst.2)⟩,
    hacc.step hinv hp hst.1 (hmem _ _ hst.2) (hsmall _ _ hst.2)⟩

/-- With a type table of small layouts, every run is one of small allocations. -/
theorem ReachableWith.smallAlloc {C : GcHeap → Op → Prop} {h : GcHeap} (hr : ReachableWith C h)
    (hsmall : ∀ info ∈ h.nodeDtypes.typeInfoList, info.layoutSize < 2 ^ 31) :
    ReachableWith (fun g op => C g op ∧ SmallAlloc g op) h := by
  obtain ⟨registry, ops, hr⟩ := hr
  have hkept : ∀ g op g', g.nodeDtypes = registry → StepWith C g op g' → g'.nodeDtypes = registry :=
    fun g op g' hg hst => hst.1.nodeDtypes.trans hg
  have htypes : h.nodeDtypes = registry := hr.invariant hkept rfl
  refine ⟨registry, ops, (hr.strengthen hkept (C := SmallAlloc) ?_ rfl).mono
    fun g op g' hst => ⟨hst.1.1, hst.1.2, hst.2⟩⟩
  intro g op g' hg hst dtype htype
  have hdtype : dtype < g.nodeDtypes.typeInfoList.length := by
    obtain ⟨hpre, -⟩ := hst.1
    cases op with
    | allocRaw | allocRootRaw =>
      cases htype
      exact hpre.2.1
    | allocLocal =>
      cases htype
      exact hpre.1
    | _ => cases htype
  rw [GcHeap.typeInfo, List.getD_eq_getElem?_getD, List.getElem?_eq_getElem hdtype]
  exact hsmall _ (htypes ▸ hg ▸ List.getElem_mem _)

theorem accounts_of_small_types {h : GcHeap} (hr : ReachableWith SystemMemory h)
    (hsmall : ∀ info ∈ h.nodeDtypes.typeInfoList, info.layoutSize < 2 ^ 31) : h.Accounts :=
  accounts_of_reachable (hr.smallAlloc hsmall) (fun _ _ => And.left) fun _ _ => And.right

open GcHeap in
/-- **Memory accounting.** With a type table of small layouts, after every operation the heap's
counter is the sum of the partitions' counters and each of these is the bytes of the partition's
chain; a collection and a teardown return the bytes that they take away; and no subtraction
underflows, neither in the disposals of a sweep nor in teardown. If references stay inside their
partitions, every collection ends, and so does return them. -/
theorem memory_accounting {h : GcHeap} (hr : ReachableWith SystemMemory h)
    (hsmall : ∀ info ∈ h.nodeDtypes.typeInfoList, info.layoutSize < 2 ^ 31) :
    (h.totalMemoryUsed = (h.partitions.map GcPartition.memoryUsed).sum ∧
      ∀ i, (h.par i).memoryUsed = h.bytesOf (h.par i).nodes) ∧
    (∀ i h' bytes, h.garbageCollect i = some (h', bytes) →
      h.totalMemoryUsed = h'.totalMemoryUsed + bytes) ∧
    (ReachableWith InPartition h → ∀ i < h.partitions.length, ∃ h' bytes,
      h.garbageCollect i = some (h', bytes) ∧ h.totalMemoryUsed = h'.totalMemoryUsed + bytes) ∧
    (∀ i g, markLoop i (h.nodeCount + 1) h = some g → g.CycleDone i → g.SweepCovered i) ∧
    ∀ debug i h₁ link sys h' bytes, h.finalizePartition i = some (h₁, link) →
      h₁.deallocPartition debug i link sys = some (h', bytes) →
      (h₁.par i).memoryUsed ≤ h₁.totalMemoryUsed ∧
        h.totalMemoryUsed = h'.totalMemoryUsed + bytes := by
  have hacc : h.Accounts := accounts_of_small_types hr hsmall
  have hinv : h.MemInv := memInv_of_reachable hr
  have hp : h.Placed := placed_of_reachable hr fun _ _ hop => hop
  refine ⟨⟨hacc.total_eq_sum, hacc.used⟩, fun i h' bytes hgc => hacc.garbageCollect hinv hp hgc,
    fun hin i hi => ?_, fun i g hloop hdone => ?_, fun debug i h₁ link sys h' bytes hfin hdealloc =>
      hacc.teardown hinv hp hfin hdealloc⟩
  · obtain ⟨h', bytes, hgc⟩ := exists_garbageCollect hin hi
    exact ⟨h', bytes, hgc, hacc.garbageCollect hinv hp hgc⟩
  · have hstore := store_markLoop _ h hloop
    exact ((hacc.congr hstore).takenAway_twoPhaseSweep (hinv.congr hstore) (hp.congr hstore)
      hdone).2.2

/-- A partition with an arena and one without, a collection of each, and an allocation after. One
more collection returns what it takes away. -/
theorem memory_accounting_two : ∃ (h h' : GcHeap) (bytes : ℕ), (h.par 0).nodes = [65536, 1000] ∧
    (h.par 1).nodes = [2000] ∧
    h.totalMemoryUsed = (h.partitions.map GcPartition.memoryUsed).sum ∧
    h.garbageCollect 0 = some (h', bytes) ∧ h.totalMemoryUsed = h'.totalMemoryUsed + bytes := by
  obtain ⟨h, hr, ⟨hfirst, hsecond, hi⟩, hsmall⟩ : ∃ h,
      ReachableWith (fun g op => InPartition g op ∧ SystemMemory g op) h ∧
      ((h.par 0).nodes = [65536, 1000] ∧ (h.par 1).nodes = [2000] ∧ 0 < h.partitions.length) ∧
      ∀ info ∈ h.nodeDtypes.typeInfoList, info.layoutSize < 2 ^ 31 :=
    exists_of_play (gcTypeTableInternal 24 8 [⟨8, 8, true, none⟩])
      [.createPartition 1024 64 (some 65536), .createPartition 0 0 none,
        .allocRootRaw 0 0 [] (some 1000), .allocRaw 0 0 [] none, .allocRootRaw 1 0 [] (some 2000),
        .allocRaw 1 0 [] (some 3000), .garbageCollect 0, .garbageCollect 1, .allocRaw 0 0 [] none]
      (by decide +kernel)
  obtain ⟨⟨hsum, -⟩, -, hends, -⟩ := memory_accounting (hr.mono fun _ _ => And.right) hsmall
  obtain ⟨h', bytes, hgc, hbytes⟩ := hends (hr.mono fun _ _ => And.left) 0 hi
  exact ⟨h, h', bytes, hfirst, hsecond, hsum, hgc, hbytes⟩

end GcLite
