import GcLite.MarkSweep
import GcLite.Scope

/-!
# Creating and tearing down partitions

`partition.rs`: a partition is created empty, and removed in two phases. The first clears the scopes
bound to it and the weak slots of its nodes, then drops the payloads; the second frees the memory
and resets the partition. Between the two the chain is still in place.

## Main definitions

* `createPartition`
* `finalizePartitionPrepare`, `finalizePartition`, `deallocPartition`, `removePartition`
* `dropHeap` — the end of a heap

## Main results

* `createPartition_ok` — a new partition is empty, and comes last
* `finalizePartitionPrepare_ok`, `deallocPartition_ok`, `removePartition_ok` — what the phases leave
  behind
-/

namespace GcLite

namespace GcHeap

/-- Add a partition and return its id, a `u16`. `none` is the panic of a failed arena allocation. -/
def createPartition (h : GcHeap) (arenaCapacity arenaMaxAlloc : ℕ) (sys : Option ℕ) :
    Option (GcHeap × ℕ) := do
  let q ← GcPartition.new arenaCapacity arenaMaxAlloc sys
  return ({ h with partitions := h.partitions ++ [q] }, h.partitions.length % 2 ^ 16)

/-- The new partition is empty, and comes last. -/
theorem createPartition_ok {h h' : GcHeap} {capacity maxAlloc id : ℕ} {sys : Option ℕ}
    (hok : h.createPartition capacity maxAlloc sys = some (h', id)) :
    ∃ q : GcPartition, h' = { h with partitions := h.partitions ++ [q] } ∧
      (∀ j, h'.par j = if j = h.partitions.length then q else h.par j) ∧
      (q.nodes = [] ∧ q.grayList = [] ∧ q.marking = false ∧ q.memoryUsed = 0) ∧
      (q.arena = none ∨ ∃ A, q.arena = some A ∧ GcArena.new capacity sys = some A) := by
  obtain ⟨q, hq, heq⟩ := Option.bind_eq_some_iff.mp hok
  obtain ⟨rfl, -⟩ := Prod.mk.inj (Option.some.inj heq)
  refine ⟨q, rfl, fun j => ?_, ?_⟩
  · rcases Nat.lt_trichotomy j h.partitions.length with hj | rfl | hj
    · simp [par, List.getElem?_append_left hj, Nat.ne_of_lt hj]
    · simp [par]
    · rw [if_neg (Nat.ne_of_gt hj), par_of_length_le (Nat.le_of_lt hj), par_of_length_le]
      simpa using Nat.succ_le_of_lt hj
  · unfold GcPartition.new at hq
    split at hq
    · obtain ⟨A, hA, hq⟩ := Option.bind_eq_some_iff.mp hq
      obtain rfl := Option.some.inj hq
      exact ⟨⟨rfl, rfl, rfl, rfl⟩, .inr ⟨A, rfl, hA⟩⟩
    · obtain rfl := Option.some.inj hq
      exact ⟨⟨rfl, rfl, rfl, rfl⟩, .inl rfl⟩

/-! ### Phase 1 -/

/-- Unprotect everything in every scope of a stack. -/
def clearStack (h : GcHeap) (stackId : ℕ) : GcHeap :=
  let caches := (h.stack stackId).list.flatMap fun s => s.cache.getD []
  caches.foldl clearLocalFlag
    (h.modifyStack stackId fun st =>
      { st with list := st.list.map fun s => { s with cache := none } })

/-- Clear the scopes of the stacks bound to partition `i`. -/
def clearScopesOf (h : GcHeap) (i : ℕ) : GcHeap :=
  (List.range h.scopeStacks.length).foldl
    (fun h stackId => if (h.stack stackId).partition = some i then h.clearStack stackId else h) h

/-- Phase 1a: clear the scopes and the weak slots of a partition; its chain, without dropping
payloads. `none` when there is no such partition. -/
def finalizePartitionPrepare (h : GcHeap) (i : ℕ) : Option (GcHeap × List NodePtr) :=
  if h.partitions.length ≤ i then none
  else
    let h := h.clearScopesOf i
    let link := (h.par i).nodes
    some (link.foldl clearWeakSlot h, link)

/-- The effects of dropping all payloads of a chain, pass by pass. -/
def finalizeDrops (h : GcHeap) (link : List NodePtr) : List GcEvent :=
  h.nodeDtypes.dropPasses.flatMap fun pass =>
    (link.filter fun n => (h.info n).dropPass = pass).flatMap h.dropPayload

/-- Phase 1: prepare, then drop the payloads. -/
def finalizePartition (h : GcHeap) (i : ℕ) : Option (GcHeap × List NodePtr) :=
  (h.finalizePartitionPrepare i).map fun (h, link) => (h.emit (h.finalizeDrops link), link)

/-! ### Phase 2 -/

/-- Free one finalized node. A debug build has poisoned the header by the time its `ARENA_ALLOC`
flag is read, and the poison `0xDEAD_BEEF` has that bit set. -/
def deallocNode (debug : Bool) (h : GcHeap) (n : NodePtr) : GcHeap :=
  let info := h.info n
  let h := (h.clearWeakSlot n).emit [.disposed n]
  if debug || (h.head n).arenaAlloc then h
  else h.emit [.memDealloc n info.layoutSize info.layoutAlign]

/-- Phase 2: free the finalized nodes and reset the partition. `sys` answers the request for the new
arena; `none` is the panic when that fails. -/
def deallocPartition (debug : Bool) (h : GcHeap) (i : ℕ) (link : List NodePtr) (sys : Option ℕ) :
    Option (GcHeap × ℕ) := do
  let partitionMem := (h.par i).memoryUsed
  let freedBytes := (link.map fun n => (h.info n).layoutSize).sum
  let h := link.foldl (deallocNode debug) h
  let h := { h with totalMemoryUsed := asUsize (h.totalMemoryUsed - partitionMem) }
  let capacity := (h.par i).arenaCapacity
  let arena ← if capacity > 0 then (GcArena.new capacity sys).map some else some none
  return (h.modifyPar i fun q =>
    { q with arena := arena, memoryUsed := 0, nodes := [], grayList := [], marking := false },
    freedBytes)

/-- Freeing nodes changes the weak table and the record of effects. -/
theorem foldl_deallocNode (debug : Bool) (l : List NodePtr) : ∀ h : GcHeap, ∃ log,
    l.foldl (deallocNode debug) h = { h with
      weakSlots := (l.map fun n => (h.head n).weakId).foldl emptySlot h.weakSlots
      log := log } := by
  induction l with
  | nil => exact fun h => ⟨h.log, rfl⟩
  | cons n l ih =>
    intro h
    have hone : ∃ log, deallocNode debug h n =
        { h with weakSlots := emptySlot h.weakSlots (h.head n).weakId, log := log } := by
      unfold deallocNode
      rw [clearWeakSlot_eq]
      dsimp only
      split <;> exact ⟨_, rfl⟩
    obtain ⟨log, hlog⟩ := hone
    obtain ⟨log', hlog'⟩ := ih (deallocNode debug h n)
    exact ⟨log', by rw [List.foldl_cons, hlog', hlog]; rfl⟩

/-- What phase 2 leaves behind. -/
theorem deallocPartition_ok {h h' : GcHeap} {debug : Bool} {i bytes : ℕ} {link : List NodePtr}
    {sys : Option ℕ} (hok : h.deallocPartition debug i link sys = some (h', bytes)) :
    ∃ arena log, (arena = none ∨
        ∃ A, arena = some A ∧ GcArena.new (h.par i).arenaCapacity sys = some A) ∧
      h' = GcHeap.modifyPar { h with
          totalMemoryUsed := asUsize (h.totalMemoryUsed - (h.par i).memoryUsed)
          weakSlots := (link.map fun n => (h.head n).weakId).foldl emptySlot h.weakSlots
          log := log } i fun q =>
        { q with
          arena := arena, memoryUsed := 0, nodes := [], grayList := [], marking := false } := by
  unfold deallocPartition at hok
  obtain ⟨log, hlog⟩ := foldl_deallocNode debug link h
  rw [hlog] at hok
  dsimp only at hok
  split at hok
  · obtain ⟨arena, harena, heq⟩ := Option.bind_eq_some_iff.mp hok
    obtain ⟨A, hA, rfl⟩ := Option.map_eq_some_iff.mp harena
    obtain ⟨rfl, -⟩ := Prod.mk.inj (Option.some.inj heq)
    exact ⟨some A, log, .inr ⟨A, rfl, hA⟩, rfl⟩
  · obtain ⟨rfl, -⟩ := Prod.mk.inj (Option.some.inj hok)
    exact ⟨none, log, .inl rfl, rfl⟩

/-- The partitions after that. -/
theorem par_of_torn {g h' : GcHeap} {i total : ℕ} {slots : List WeakSlot} {log : List GcEvent}
    {arena : Option GcArena}
    (heq : h' = GcHeap.modifyPar
      { g with totalMemoryUsed := total, weakSlots := slots, log := log } i fun q =>
        { q with
          arena := arena, memoryUsed := 0, nodes := [], grayList := [], marking := false }) :
    ((h'.par i).nodes = [] ∧ (h'.par i).memoryUsed = 0) ∧ (∀ j, j ≠ i → h'.par j = g.par j) ∧
      (i < g.partitions.length → (h'.par i).arena = arena) := by
  have hself : i < g.partitions.length → h'.par i = { g.par i with
      arena := arena, memoryUsed := 0, nodes := [], grayList := [], marking := false } := by
    intro hi
    rw [heq, par_modifyPar_self (by exact hi)]
    rfl
  refine ⟨?_, fun j hj => ?_, fun hi => by rw [hself hi]⟩
  · by_cases hi : i < g.partitions.length
    · rw [hself hi]
      exact ⟨rfl, rfl⟩
    · rw [par_of_length_le]
      · exact ⟨rfl, rfl⟩
      · rw [heq, length_modifyPar]
        exact Nat.le_of_not_lt hi
  · rw [heq, par_modifyPar_of_ne (Ne.symm hj)]
    rfl

/-- Both phases, one right after the other. -/
def removePartition (debug : Bool) (h : GcHeap) (i : ℕ) (sys : Option ℕ) : Option (GcHeap × ℕ) :=
  match h.finalizePartition i with
  | some (h, link) => h.deallocPartition debug i link sys
  | none => some (h, 0)

/-- What phase 1 leaves behind. -/
theorem finalizePartitionPrepare_ok {h h' : GcHeap} {i : ℕ} {link : List NodePtr}
    (hok : h.finalizePartitionPrepare i = some (h', link)) :
    i < h.partitions.length ∧ link = ((h.clearScopesOf i).par i).nodes ∧
      h' = { h.clearScopesOf i with
        weakSlots := (link.map fun n => ((h.clearScopesOf i).head n).weakId).foldl emptySlot
          (h.clearScopesOf i).weakSlots } := by
  unfold finalizePartitionPrepare at hok
  split at hok
  · cases hok
  next hi =>
  obtain ⟨rfl, rfl⟩ := Prod.mk.inj (Option.some.inj hok)
  exact ⟨Nat.lt_of_not_le hi, rfl, foldl_clearWeakSlot _ _⟩

/-- What both phases leave behind. -/
theorem removePartition_ok {h h' : GcHeap} {debug : Bool} {i bytes : ℕ} {sys : Option ℕ}
    (hok : h.removePartition debug i sys = some (h', bytes)) :
    h' = h ∨ i < h.partitions.length ∧ ∃ h₁ link arena log,
      h₁ = h.clearScopesOf i ∧ link = (h₁.par i).nodes ∧
      (arena = none ∨ ∃ A, arena = some A ∧ GcArena.new (h₁.par i).arenaCapacity sys = some A) ∧
      h' = GcHeap.modifyPar { h₁ with
          totalMemoryUsed := asUsize (h₁.totalMemoryUsed - (h₁.par i).memoryUsed)
          weakSlots := ((link ++ link).map fun n => (h₁.head n).weakId).foldl emptySlot h₁.weakSlots
          log := log } i fun q =>
        { q with
          arena := arena, memoryUsed := 0, nodes := [], grayList := [], marking := false } := by
  unfold removePartition finalizePartition at hok
  cases hprep : h.finalizePartitionPrepare i with
  | none =>
    rw [hprep] at hok
    exact .inl (Prod.mk.inj (Option.some.inj hok)).1.symm
  | some r =>
    obtain ⟨h₁, link⟩ := r
    rw [hprep] at hok
    obtain ⟨hi, hlink, hh₁⟩ := finalizePartitionPrepare_ok hprep
    obtain ⟨arena, log, harena, heq⟩ := deallocPartition_ok hok
    refine .inr ⟨hi, _, link, arena, log, rfl, hlink, ?_, ?_⟩
    · rw [hh₁] at harena
      exact harena
    · rw [heq, hh₁, List.map_append, List.foldl_append]
      rfl

/-! ### The end of a heap -/

/-- `Drop` of a heap: clear all scopes, take all chains, dispose of their nodes one chain after the
other. -/
def dropHeap (h : GcHeap) : GcHeap :=
  let caches := h.scopeStacks.flatMap fun st => st.list.flatMap fun s => s.cache.getD []
  let h := caches.foldl clearLocalFlag
    { h with scopeStacks := h.scopeStacks.map fun st => { st with list := [] } }
  let allNodes := h.partitions.map GcPartition.nodes
  let h := { h with partitions := h.partitions.map fun q => { q with nodes := [] } }
  allNodes.foldl (fun h link => (h.disposeAllNodes link).1.1) h

end GcHeap

end GcLite
