import GcLite.Accounting

/-!
# Partition ids

`create_partition` pushes a partition on a vector that never shrinks, and returns the length before
the push, as a `u16`. A run is followed here with a record of these calls: the id that each has
returned, and the place of the partition that it has created. The two agree, and the ids differ from
each other, as long as there have been at most `2 ^ 16` calls.

## Main definitions

* `CreateCall`, `PartitionLog`, `LogStep` — runs with their calls of `create_partition`
* `GcHeap.JoinsOnly` — a new node belongs to one partition and to no other
* `PartitionLog.Faithful` — the ids do what they are for

## Main results

* `Step.length` — partitions are never removed
* `calls_eq` — what the calls of a run have returned
* `partition_ids_faithful`, `create_partition_reuses`
-/

namespace GcLite

open Transition

/-- One call of `create_partition`: the id it returned, and the place of the new partition. -/
structure CreateCall where
  /-- The id returned. -/
  id : ℕ
  /-- The place of the new partition. -/
  index : ℕ
deriving DecidableEq

/-- A heap, and the calls of `create_partition` so far. -/
structure PartitionLog where
  /-- The heap. -/
  heap : GcHeap
  /-- The calls, in order. -/
  calls : List CreateCall

/-- A new heap, before any call. -/
def PartitionLog.new (registry : GcTypeRegistry) : PartitionLog := ⟨GcHeap.new registry, []⟩

/-- The call that an operation makes, if it does. -/
def Op.createCalls (h : GcHeap) : Op → List CreateCall
  | .createPartition capacity maxAlloc sys =>
    ((h.createPartition capacity maxAlloc sys).map fun r => ⟨r.2, h.partitions.length⟩).toList
  | _ => []

/-- Whether the operation is a call of `create_partition`. -/
def Op.isCreate : Op → Bool
  | .createPartition _ _ _ => true
  | _ => false

/-- A step of the heap, written down. -/
structure LogStep (g : PartitionLog) (op : Op) (g' : PartitionLog) : Prop where
  /-- The heap takes a step. -/
  step : Step g.heap op g'.heap
  /-- A call is written down. -/
  calls : g'.calls = g.calls ++ op.createCalls g.heap

namespace GcHeap

/-- The new node `n` is chained in partition `i`, counted there, and swept with it, and no other
partition has to do with it. -/
structure JoinsOnly (h : GcHeap) (i dtype : ℕ) (n : NodePtr) (h' : GcHeap) : Prop where
  /-- It is in the partition's chain, and in no other. -/
  chained : ∀ j, n ∈ (h'.par j).nodes ↔ j = i
  /-- Its header names the partition. -/
  header : (h'.head n).partitionId = i
  /-- Its size is added to the partition's counter. -/
  counted : (h.typeInfo dtype).layoutSize < 2 ^ 31 →
    (h'.par i).memoryUsed = asUsize ((h.par i).memoryUsed + (h.typeInfo dtype).layoutSize)
  /-- The other partitions have neither the node nor its bytes. -/
  others : ∀ j, j ≠ i →
    (h'.par j).nodes = (h.par j).nodes ∧ (h'.par j).memoryUsed = (h.par j).memoryUsed
  /-- Sweeping another partition leaves it alone. -/
  swept : ∀ j, n ∉ ((h'.twoPhaseSweep j).1.par i).nodes → j = i

variable {h h' : GcHeap} {i j dtype : ℕ} {n : NodePtr}

/-- A sweep of another partition leaves a chain as it is. -/
theorem eq_of_swept (hn : n ∈ (h.par i).nodes) (hgone : n ∉ ((h.twoPhaseSweep j).1.par i).nodes) :
    j = i := by
  by_contra hji
  exact hgone (mem_nodes_twoPhaseSweep.mpr ⟨hn, fun hij => absurd hij.symm hji⟩)

theorem memoryUsed_initNode_of_ne {payload : Payload} {fromArena : Bool} {size : ℕ} (hj : j ≠ i) :
    ((h.initNode i dtype n payload fromArena size).par j).memoryUsed = (h.par j).memoryUsed := by
  obtain ⟨f, hf⟩ := updateMemUse_eq (asI32 size)
  rw [initNode, hf]
  exact congrArg GcPartition.memoryUsed (par_modifyPar_of_ne (Ne.symm hj))

theorem memoryUsed_allocNodeMem_of_ne {size : ℕ} {payload : Payload} {skipArena : Bool}
    {sys : Option NodePtr} (hok : h.allocNodeMem i dtype payload skipArena sys = .ok (h', n, size))
    (hj : j ≠ i) : (h'.par j).memoryUsed = (h.par j).memoryUsed := by
  obtain ⟨-, layout, -, -, hcases⟩ := allocNodeMem_ok hok
  rcases hcases with ⟨A, A', -, -, -, heq⟩ | ⟨-, heq⟩
  · rw [heq, memoryUsed_initNode_of_ne hj]
    exact congrArg GcPartition.memoryUsed (par_modifyPar_of_ne (Ne.symm hj))
  · rw [heq, memoryUsed_initNode_of_ne hj]

/-- A node that is allocated in partition `i` belongs to it alone. -/
theorem Allocates.joinsOnly (halloc : h.Allocates i dtype n h') (hinv' : h'.MemInv) :
    h.JoinsOnly i dtype n h' := by
  obtain ⟨payload, skipArena, sys, h₁, size, hmem, hstore⟩ := halloc.nodeMem
  obtain ⟨fromArena, hatt, -⟩ := allocNodeMem_attached hmem
  have hnodes : ∀ j, (h'.par j).nodes = if j = i then n :: (h.par j).nodes else (h.par j).nodes :=
    fun j => (nodes_of_store hstore j).trans (hatt.nodes j)
  have hmemory : ∀ j, (h'.par j).memoryUsed = ((h₁.attachNode i n).par j).memoryUsed :=
    memoryUsed_of_store hstore
  have hattach : ∀ j, ((h₁.attachNode i n).par j).memoryUsed = (h₁.par j).memoryUsed := fun j =>
    field_modifyPar GcPartition.memoryUsed fun _ => rfl
  have hni : n ∈ (h'.par i).nodes := by rw [hnodes, if_pos rfl]; exact List.mem_cons_self
  have hheader := hinv'.own i n hni
  refine ⟨fun j => ⟨fun hnj => (hinv'.own j n hnj).symm.trans hheader, fun hji => hji ▸ hni⟩,
    hheader, fun hsize => ?_, fun j hj => ⟨by rw [hnodes, if_neg hj], ?_⟩, fun j => eq_of_swept hni⟩
  · rw [hmemory, hatt.used hsize, if_pos rfl]
  · rw [hmemory, hattach, memoryUsed_allocNodeMem_of_ne hmem hj]

theorem length_twoPhaseSweep : (h.twoPhaseSweep i).1.partitions.length = h.partitions.length := by
  by_cases hdone : h.CycleDone i
  · have hview := view_twoPhaseSweep (h := h) (i := i)
    rw [(view_sweepUnlink hdone.1 hdone.2.1 hdone.2.2).1] at hview
    exact congrArg MarkState.count hview
  · rw [twoPhaseSweep_of_not_done hdone]

end GcHeap

open GcHeap in
/-- Partitions are never removed. -/
theorem Step.length {h h' : GcHeap} {op : Op} (hst : Step h op h') :
    h'.partitions.length = h.partitions.length + if op.isCreate then 1 else 0 := by
  cases hcreate : op.isCreate with
  | true =>
    obtain ⟨-, hexec⟩ := hst
    cases op with
    | createPartition capacity maxAlloc sys =>
      obtain ⟨⟨h₁, id⟩, hok, rfl⟩ := Option.map_eq_some_iff.mp hexec
      obtain ⟨q, rfl, -⟩ := createPartition_ok hok
      simp
    | _ => cases hcreate
  | false =>
    rw [if_neg Bool.false_ne_true, Nat.add_zero]
    cases hst.store with
    | same heq => exact length_of_store heq
    | create hop hfresh hok =>
      subst hop
      cases hcreate
    | alloc htype hsys hdtype hfresh hok heq =>
      obtain ⟨fromArena, hatt, -⟩ := allocNodeMem_attached hok
      exact (length_of_store heq).trans hatt.length
    | sweep hop hstore heq => rw [heq, length_twoPhaseSweep, length_of_store hstore]
    | downgrade hop hn hok =>
      obtain ⟨slots, rfl⟩ := GcHeap.downgrade_frame hok
      rfl
    | remove hop hfresh hok =>
      obtain rfl | ⟨-, g, link, arena, log, hg, -, -, heq⟩ := removePartition_ok hok
      · rfl
      · rw [heq, length_modifyPar, hg]
        exact (length_of_store store_clearScopesOf :)

/-! ### What the calls return -/

namespace PartitionLog

variable {registry : GcTypeRegistry} {g g' : PartitionLog} {ops : List Op}

/-- The ids differ, each of them is the place of the partition that the call has created, a node
allocated with it belongs to that partition alone, and so it is for all nodes. -/
structure Faithful (g : PartitionLog) : Prop where
  /-- No id has been returned twice. -/
  distinct : (g.calls.map CreateCall.id).Nodup
  /-- An id is the place of the partition. -/
  indexes : ∀ c ∈ g.calls, c.id = c.index ∧ c.index < g.heap.partitions.length
  /-- An allocation with the id is one in that partition. -/
  joins : ∀ c ∈ g.calls, ∀ op dtype n h', Step g.heap op h' → g.heap.Allocates c.id dtype n h' →
    g.heap.JoinsOnly c.index dtype n h'
  /-- Every node is in one chain, and only sweeping its partition takes it out. -/
  belongs : ∀ i n, n ∈ (g.heap.par i).nodes → (∀ j, n ∈ (g.heap.par j).nodes ↔ j = i) ∧
    ∀ j, n ∉ ((g.heap.twoPhaseSweep j).1.par i).nodes → j = i

/-- The `k`-th call returns `k` as a `u16`. -/
theorem calls_step (hcalls : g.calls = (List.range g.heap.partitions.length).map fun k =>
      ⟨k % 2 ^ 16, k⟩) {op : Op} (hst : LogStep g op g') :
    g'.calls = (List.range g'.heap.partitions.length).map fun k => ⟨k % 2 ^ 16, k⟩ := by
  obtain ⟨hstep, hcalls'⟩ := hst
  rw [hcalls', hcalls, hstep.length]
  cases op with
  | createPartition capacity maxAlloc sys =>
    obtain ⟨-, hexec⟩ := hstep
    obtain ⟨⟨h₁, id⟩, hok, -⟩ := Option.map_eq_some_iff.mp hexec
    obtain ⟨q, -, heq⟩ := Option.bind_eq_some_iff.mp hok
    obtain ⟨-, rfl⟩ := Prod.mk.inj (Option.some.inj heq)
    simp [Op.createCalls, Op.isCreate, hok, List.range_succ]
  | _ => simp [Op.createCalls, Op.isCreate]

theorem calls_eq (hrun : Run LogStep (.new registry) ops g) :
    g.calls = (List.range g.heap.partitions.length).map fun k => ⟨k % 2 ^ 16, k⟩ :=
  hrun.invariant (fun _ _ _ hcalls hst => calls_step hcalls hst) rfl

/-- There are as many partitions as there were calls. -/
theorem length_run (hrun : Run LogStep g ops g') :
    g'.heap.partitions.length = g.heap.partitions.length + ops.countP Op.isCreate := by
  induction hrun with
  | nil g => rfl
  | cons hst _ ih =>
    rw [ih, hst.step.length, List.countP_cons, Nat.add_assoc, Nat.add_comm (ite _ _ _)]

/-- As `u16`s the first `k` numbers differ as long as there are at most `2 ^ 16` of them. -/
theorem nodup_ids_iff {k : ℕ} : ((List.range k).map (· % 2 ^ 16)).Nodup ↔ k ≤ 2 ^ 16 := by
  constructor
  · intro hnd
    by_contra hk
    have hzero : 0 = 2 ^ 16 := List.inj_on_of_nodup_map hnd (List.mem_range.mpr (by omega))
      (List.mem_range.mpr (by omega)) (by decide)
    cases hzero
  · intro hk
    refine List.Nodup.map_on (fun a ha b hb heq => ?_) List.nodup_range
    have ha := List.mem_range.mp ha
    have hb := List.mem_range.mp hb
    rwa [Nat.mod_eq_of_lt (by omega), Nat.mod_eq_of_lt (by omega)] at heq

/-- Writing a run down does not restrict it. -/
theorem exists_run_of_run {C : GcHeap → Op → Prop} {h' : GcHeap}
    (hrun : Run (StepWith C) g.heap ops h') : ∃ g', Run LogStep g ops g' ∧ g'.heap = h' :=
  hrun.follow heap fun g op h' hst => ⟨⟨h', g.calls ++ op.createCalls g.heap⟩, ⟨hst.1, rfl⟩, rfl⟩

theorem reachable_of_run (hrun : Run LogStep (.new registry) ops g) : Reachable g.heap := by
  refine hrun.invariant (I := fun g => Reachable g.heap) (fun g op g' hg hst => ?_)
    ⟨registry, .refl _⟩
  obtain ⟨registry, hr⟩ := hg
  exact ⟨registry, hr.tail ⟨hst.step, trivial⟩⟩

end PartitionLog

open GcHeap PartitionLog in
/-- **Partition ids are faithful** after a run exactly if it has called `create_partition` at most
`2 ^ 16` times. -/
theorem partition_ids_faithful {registry : GcTypeRegistry} {ops : List Op} {g : PartitionLog}
    (hrun : Run LogStep (.new registry) ops g) : g.Faithful ↔ ops.countP Op.isCreate ≤ 2 ^ 16 := by
  have hcalls := calls_eq hrun
  have hlen : g.heap.partitions.length = ops.countP Op.isCreate :=
    (length_run hrun).trans (Nat.zero_add _)
  have hids : g.calls.map CreateCall.id =
      (List.range g.heap.partitions.length).map (· % 2 ^ 16) := by
    rw [hcalls, List.map_map]
    rfl
  have hinv : g.heap.MemInv := memInv_of_reachable (reachable_of_run hrun)
  rw [← hlen]
  constructor
  · intro hg
    exact nodup_ids_iff.mp (hids ▸ hg.distinct)
  · intro hle
    have hindex : ∀ c ∈ g.calls, c.id = c.index ∧ c.index < g.heap.partitions.length := by
      intro c hc
      rw [hcalls] at hc
      obtain ⟨k, hk, rfl⟩ := List.mem_map.mp hc
      have hk := List.mem_range.mp hk
      exact ⟨Nat.mod_eq_of_lt (by omega), hk⟩
    refine ⟨hids ▸ nodup_ids_iff.mpr hle, hindex, fun c hc op dtype n h' hst halloc => ?_,
      fun i n hn => ⟨fun j => ⟨fun hj => ?_, fun hji => hji ▸ hn⟩, fun j => eq_of_swept hn⟩⟩
    · rw [(hindex c hc).1] at halloc
      exact halloc.joinsOnly (hinv.step hst)
    · exact (hinv.own j n hj).symm.trans (hinv.own i n hn)

/-- Two partitions, and a node in the second one. -/
theorem partition_ids_faithful_two : ∃ g : PartitionLog, (g.heap.par 1).nodes = [1000] ∧
    g.Faithful := by
  have hscript : (play (fun _ _ => True) [.createPartition 1024 64 (some 65536),
      .createPartition 0 0 none, .allocRaw 1 0 [] (some 1000)]
      (GcHeap.new (gcTypeTableInternal 24 8 [⟨8, 8, true, none⟩]))).any
        fun h => (h.par 1).nodes = [1000] := by decide +kernel
  obtain ⟨h, hplay, hnodes⟩ := (Option.any_eq_true _ _).mp hscript
  obtain ⟨g, hrun, rfl⟩ := PartitionLog.exists_run_of_run (g := .new _) (run_of_play hplay)
  exact ⟨g, of_decide_eq_true hnodes, (partition_ids_faithful hrun).mpr (by decide)⟩

/-- Creating partitions without arenas, as often as one likes. -/
theorem exists_run_create (registry : GcTypeRegistry) (k : ℕ) : ∃ g,
    Run LogStep (.new registry) (List.replicate k (.createPartition 0 0 none)) g := by
  induction k with
  | zero => exact ⟨_, .nil _⟩
  | succ k ih =>
    obtain ⟨g, hrun⟩ := ih
    obtain ⟨h', hexec⟩ : ∃ h', exec g.heap (.createPartition 0 0 none) = some h' := ⟨_, rfl⟩
    rw [List.replicate_succ']
    exact ⟨⟨h', _⟩, run_concat.mpr ⟨g, hrun, ⟨nofun, hexec⟩, rfl⟩⟩

/-- **The call after the first `2 ^ 16`** returns the id of the first once more. -/
theorem create_partition_reuses : ∃ (registry : GcTypeRegistry) (g : PartitionLog),
    Run LogStep (.new registry) (List.replicate (2 ^ 16 + 1) (.createPartition 0 0 none)) g ∧
    ⟨0, 0⟩ ∈ g.calls ∧ ⟨0, 2 ^ 16⟩ ∈ g.calls ∧ ¬ g.Faithful := by
  obtain ⟨g, hrun⟩ := exists_run_create (gcTypeTableInternal 24 8 []) (2 ^ 16 + 1)
  have hlen : g.heap.partitions.length = 2 ^ 16 + 1 := by
    rw [PartitionLog.length_run hrun, List.countP_replicate]
    rfl
  have hcall : ∀ k < 2 ^ 16 + 1, ⟨k % 2 ^ 16, k⟩ ∈ g.calls := by
    intro k hk
    rw [PartitionLog.calls_eq hrun, hlen]
    exact List.mem_map.mpr ⟨k, List.mem_range.mpr hk, rfl⟩
  have hlast : ⟨0, 2 ^ 16⟩ ∈ g.calls := hcall (2 ^ 16) (by decide)
  exact ⟨_, g, hrun, hcall 0 (by decide), hlast, fun hg => nomatch (hg.indexes _ hlast).1⟩

end GcLite
