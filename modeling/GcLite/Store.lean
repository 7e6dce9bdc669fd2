import GcLite.Frame

/-!
# What is not marking

A heap without its colours and list flags, its protection, its payloads and its limits: chains,
arenas, counters, weak slots and the effects so far. The invariants about memory and about weak
references speak about this part only, and most operations do not touch it.

## Main definitions

* `GcHeap.store`
* `GcHeap.StoreFrame` — a reading that looks neither at marking nor at protection and payloads
* `GcHeap.Allocates` — one of the three entry points has succeeded
* `StoreStep` — the ways in which the store changes

## Main results

* `StoreFrame.addNode`, `StoreFrame.clear`, … — the operations that such a reading does not see
* `StoreFrame.exec`, `exec_store` — all of these at once
* `Step.store` — what a step can do to it
-/

namespace GcLite

/-- A header without colour, list flag and protection. -/
def GcHead.store (hd : GcHead) : GcHead :=
  { hd with
    color := .white, grayListed := false, isRoot := false, isLocal := false
    traverseVisited := false }

/-- A partition without its marking cycle. -/
def GcPartition.store (q : GcPartition) : GcPartition := { q with grayList := [], marking := false }

namespace GcHeap

/-- What is left when marking, protection, payloads and limits are forgotten. -/
def store (h : GcHeap) : GcHeap :=
  { h with
    partitions := h.partitions.map GcPartition.store
    memoryLimit := 0
    gcThreshold := 0
    scopeStacks := []
    head := fun n => (h.head n).store
    refs := fun _ => [] }

variable {h h' : GcHeap} {i j : ℕ} {n m : NodePtr}

/-! ### Reading it -/

theorem par_store : h.store.par i = (h.par i).store := by
  by_cases hi : i < h.partitions.length
  · simp [par, store, hi]
  · have hi := Nat.le_of_not_lt hi
    rw [par_of_length_le hi, par_of_length_le (by simpa [store] using hi)]
    rfl

section

variable (heq : h'.store = h.store)
include heq

theorem length_of_store : h'.partitions.length = h.partitions.length := by
  have := congrArg (fun h => h.partitions.length) heq
  simpa [store] using this

theorem par_store_congr (i : ℕ) : (h'.par i).store = (h.par i).store := by
  rw [← par_store, heq, par_store]

theorem nodes_of_store (i : ℕ) : (h'.par i).nodes = (h.par i).nodes :=
  (congrArg GcPartition.nodes (par_store_congr heq i) :)

theorem arena_of_store (i : ℕ) : (h'.par i).arena = (h.par i).arena :=
  (congrArg GcPartition.arena (par_store_congr heq i) :)

theorem memoryUsed_of_store (i : ℕ) : (h'.par i).memoryUsed = (h.par i).memoryUsed :=
  (congrArg GcPartition.memoryUsed (par_store_congr heq i) :)

theorem live_of_store : h'.Live n ↔ h.Live n := by
  simp only [Live, nodes_of_store heq]

theorem head_of_store (n : NodePtr) : (h'.head n).store = (h.head n).store :=
  congrFun (congrArg GcHeap.head heq) n

theorem dtype_of_store (n : NodePtr) : (h'.head n).dtype = (h.head n).dtype :=
  (congrArg GcHead.dtype (head_of_store heq n) :)

theorem partitionId_of_store (n : NodePtr) : (h'.head n).partitionId = (h.head n).partitionId :=
  (congrArg GcHead.partitionId (head_of_store heq n) :)

theorem arenaAlloc_of_store (n : NodePtr) : (h'.head n).arenaAlloc = (h.head n).arenaAlloc :=
  (congrArg GcHead.arenaAlloc (head_of_store heq n) :)

theorem weakId_of_store (n : NodePtr) : (h'.head n).weakId = (h.head n).weakId :=
  (congrArg GcHead.weakId (head_of_store heq n) :)

theorem nodeDtypes_of_store : h'.nodeDtypes = h.nodeDtypes :=
  (congrArg GcHeap.nodeDtypes heq :)

theorem weakSlots_of_store : h'.weakSlots = h.weakSlots :=
  (congrArg GcHeap.weakSlots heq :)

theorem totalMemoryUsed_of_store : h'.totalMemoryUsed = h.totalMemoryUsed :=
  (congrArg GcHeap.totalMemoryUsed heq :)

theorem info_of_store (n : NodePtr) : h'.info n = h.info n := by
  rw [info, info, dtype_of_store heq, nodeDtypes_of_store heq]

end

/-! ### Keeping it -/

theorem store_modifyHead {g : GcHead → GcHead} (hg : ∀ hd, (g hd).store = hd.store) :
    (h.modifyHead n g).store = h.store := by
  have hhead : (h.modifyHead n g).store.head = h.store.head := by
    funext m
    exact field_modifyHead GcHead.store hg
  simp only [store] at hhead ⊢
  rw [hhead]
  rfl

theorem store_modifyPar {f : GcPartition → GcPartition} (hf : ∀ q, (f q).store = q.store) :
    (h.modifyPar i f).store = h.store := by
  have hpar : (h.modifyPar i f).store.partitions = h.store.partitions := by
    refine List.ext_getElem? fun j => ?_
    simp only [store, modifyPar, List.getElem?_map, List.getElem?_modify]
    split <;> cases h.partitions[j]? <;> simp [hf]
  simp only [store] at hpar ⊢
  rw [hpar]
  rfl

@[simp] theorem store_setColor (c : GcTriColor) : (h.setColor n c).store = h.store :=
  store_modifyHead fun _ => rfl

@[simp] theorem store_setGrayListed (b : Bool) : (h.setGrayListed n b).store = h.store :=
  store_modifyHead fun _ => rfl

@[simp] theorem store_setMarking (b : Bool) : (h.setMarking i b).store = h.store :=
  store_modifyPar fun _ => rfl

theorem store_modifyGray (f : List NodePtr → List NodePtr) :
    (h.modifyPar i fun q => { q with grayList := f q.grayList }).store = h.store :=
  store_modifyPar fun _ => rfl

@[simp] theorem store_pushGray : (h.pushGray i n).store = h.store := store_modifyGray _

@[simp] theorem store_setRefs (payload : Payload) : (h.setRefs n payload).store = h.store := rfl

@[simp] theorem store_modifyStack (f : ScopeStack → ScopeStack) :
    (h.modifyStack i f).store = h.store := rfl

@[simp] theorem store_modifyScope (f : GcScopeState → GcScopeState) :
    (h.modifyScope i j f).store = h.store := rfl

theorem markFrame_store : MarkFrame store :=
  ⟨fun _ _ => store_setColor, fun _ _ => store_setGrayListed, fun _ _ => store_setMarking,
    fun _ _ => store_modifyGray, fun h => by
      simp only [store, setAllMarking, List.map_map]
      rfl⟩

@[simp] theorem store_parAddGrayNode : (h.parAddGrayNode i n).store = h.store :=
  markFrame_store.parAddGrayNode

@[simp] theorem store_markReset : (h.markReset i).store = h.store := markFrame_store.markReset

@[simp] theorem store_mark (k : ℕ) : (h.mark i k).1.store = h.store := markFrame_store.mark k

theorem store_markLoop : ∀ (fuel : ℕ) (h : GcHeap), markLoop i fuel h = some h' →
    h'.store = h.store := markFrame_store.markLoop

@[simp] theorem store_bind : (h.bind n m).store = h.store := markFrame_store.bind

/-! ### Barriers and scopes -/

/-- A reading of the heap that does not depend on protection and payloads either. -/
structure StoreFrame {α : Type*} (φ : GcHeap → α) : Prop extends MarkFrame φ where
  /-- Roots do not matter to it. -/
  root : ∀ (h : GcHeap) n, φ (h.modifyHead n fun hd => { hd with isRoot := true }) = φ h
  /-- Locals do not. -/
  protection : ∀ (h : GcHeap) n b, φ (h.modifyHead n fun hd => { hd with isLocal := b }) = φ h
  /-- Scope stacks do not. -/
  stack : ∀ (h : GcHeap) i f, φ (h.modifyStack i f) = φ h
  /-- Payloads do not. -/
  payload : ∀ (h : GcHeap) n refs, φ (h.setRefs n refs) = φ h

namespace StoreFrame

variable {α : Type*} {φ : GcHeap → α}

theorem scope (hφ : StoreFrame φ) (f : GcScopeState → GcScopeState) :
    φ (h.modifyScope i j f) = φ h := hφ.stack _ _ _

theorem clearLocalFlag (hφ : StoreFrame φ) : φ (h.clearLocalFlag n) = φ h := hφ.protection h n false

theorem addNode (hφ : StoreFrame φ) (s : GcScopeState) : φ (h.addNode i j s n) = φ h := by
  unfold GcHeap.addNode
  dsimp only
  rw [hφ.scope]
  split
  · exact hφ.parAddGrayNode.trans (hφ.protection h n true)
  · exact hφ.protection h n true

theorem addNonLocal (hφ : StoreFrame φ) (s : GcScopeState) : φ (h.addNonLocal i j s n) = φ h := by
  unfold GcHeap.addNonLocal
  split
  · rfl
  · exact hφ.addNode s

theorem removeNode (hφ : StoreFrame φ) (s : GcScopeState) : φ (h.removeNode i j s n) = φ h := by
  unfold GcHeap.removeNode
  split
  · exact hφ.clearLocalFlag.trans (hφ.scope _)
  · rfl

theorem promoteNodeTo (hφ : StoreFrame φ) (s : GcScopeState) (k l : ℕ) :
    φ (h.promoteNodeTo i j s n k l) = φ h := by
  unfold GcHeap.promoteNodeTo
  split
  · exact (hφ.scope _).trans (hφ.scope _)
  · rfl

theorem clear (hφ : StoreFrame φ) (s : GcScopeState) : φ (h.clear i j s) = φ h :=
  (reading_foldl (fun _ _ => hφ.clearLocalFlag) _ _).trans (hφ.scope _)

theorem popScope (hφ : StoreFrame φ) : φ (h.popScope i) = φ h := by
  unfold GcHeap.popScope
  split
  · exact (hφ.stack _ _ _).trans (hφ.clear _)
  · rfl

theorem protectNode (hφ : StoreFrame φ) : φ (h.protectNode i n) = φ h := by
  unfold GcHeap.protectNode
  split
  · exact hφ.addNonLocal _
  · rfl

theorem clearScopesOf (hφ : StoreFrame φ) : φ (h.clearScopesOf i) = φ h := by
  unfold GcHeap.clearScopesOf
  refine reading_foldl (fun h stackId => ?_) _ h
  split
  · exact (reading_foldl (fun _ _ => hφ.clearLocalFlag) _ _).trans (hφ.stack _ _ _)
  · rfl

end StoreFrame

theorem storeFrame_store : StoreFrame store where
  toMarkFrame := markFrame_store
  root _ _ := store_modifyHead fun _ => rfl
  protection _ _ _ := store_modifyHead fun _ => rfl
  stack _ _ _ := rfl
  payload _ _ _ := rfl

theorem store_clearLocalFlag : (h.clearLocalFlag n).store = h.store :=
  storeFrame_store.clearLocalFlag

theorem store_addNode (s : GcScopeState) : (h.addNode i j s n).store = h.store :=
  storeFrame_store.addNode s

theorem store_clear (s : GcScopeState) : (h.clear i j s).store = h.store :=
  storeFrame_store.clear s

theorem store_popScope : (h.popScope i).store = h.store := storeFrame_store.popScope

theorem store_protectNode : (h.protectNode i n).store = h.store := storeFrame_store.protectNode

theorem store_clearScopesOf : (h.clearScopesOf i).store = h.store := storeFrame_store.clearScopesOf

end GcHeap

/-! ### All of these -/

/-- The operations that may change the store. -/
def Op.isStorage : Op → Bool
  | .createPartition _ _ _ | .allocRaw _ _ _ _ | .allocRootRaw _ _ _ _
  | .allocLocal _ _ _ _ _ => true
  | .sweep _ | .garbageCollect _ | .removePartition _ _ | .downgrade _ => true
  | _ => false

/-- The others, and those on stacks and limits apart, no such reading sees. -/
theorem GcHeap.StoreFrame.exec {α : Type*} {φ : GcHeap → α} (hφ : StoreFrame φ) {h h' : GcHeap}
    {op : Op} (hop : op.isStorage = false) (hbook : op.isBookkeeping = false)
    (hexec : exec h op = some h') : φ h' = φ h := by
  cases op with
  | createPartition | allocRaw | allocRootRaw | allocLocal | sweep | garbageCollect
  | removePartition | downgrade => cases hop
  | acquireScopeStack | releaseScopeStack | newScope | setMemoryLimit | setGcThreshold =>
    cases hbook
  | addNonLocal =>
    obtain ⟨s, -, rfl⟩ := Option.map_eq_some_iff.mp hexec
    exact hφ.addNonLocal s
  | removeNode =>
    obtain ⟨s, -, rfl⟩ := Option.map_eq_some_iff.mp hexec
    exact hφ.removeNode s
  | promoteNodeTo =>
    obtain ⟨s, -, rfl⟩ := Option.map_eq_some_iff.mp hexec
    exact hφ.promoteNodeTo s _ _
  | clear =>
    obtain ⟨s, -, rfl⟩ := Option.map_eq_some_iff.mp hexec
    exact hφ.clear s
  | popScope =>
    cases hexec
    exact hφ.popScope
  | protectNode =>
    cases hexec
    exact hφ.protectNode
  | setRootNode =>
    cases hexec
    exact hφ.setRootNode hφ.root
  | bind =>
    cases hexec
    exact hφ.bind.trans (hφ.payload _ _ _)
  | withWriteBarrier =>
    cases hexec
    exact hφ.withWriteBarrier hφ.payload _
  | removeRefs =>
    cases hexec
    exact hφ.payload _ _ _
  | mark =>
    cases hexec
    exact hφ.mark _
  | markReset =>
    cases hexec
    exact hφ.markReset

/-- **Most operations keep the store.** -/
theorem exec_store {h h' : GcHeap} {op : Op} (hop : op.isStorage = false)
    (hexec : exec h op = some h') : h'.store = h.store := by
  cases hbook : op.isBookkeeping with
  | true =>
    obtain ⟨limit, threshold, scopes, rfl⟩ := exec_bookkeeping hbook hexec
    rfl
  | false => exact GcHeap.storeFrame_store.exec hop hbook hexec

/-- The type an operation allocates a node of. -/
def Op.allocType : Op → Option ℕ
  | .allocRaw _ dtype _ _ | .allocRootRaw _ dtype _ _ | .allocLocal _ _ dtype _ _ => some dtype
  | _ => none

/-- The system allocator's answer to an allocation. -/
def Op.allocSys : Op → Option NodePtr
  | .allocRaw _ _ _ sys | .allocRootRaw _ _ _ sys | .allocLocal _ _ _ _ sys => sys
  | _ => none

/-- What a step can do to the store. -/
inductive StoreStep (h : GcHeap) (op : Op) (h' : GcHeap) : Prop
  /-- The step leaves the store alone. -/
  | same (heq : h'.store = h.store)
  /-- A new partition. -/
  | create {capacity maxAlloc id : ℕ} {sys : Option ℕ}
      (hop : op = .createPartition capacity maxAlloc sys)
      (hfresh : ∀ base, sys = some base → h.RegionFresh [] base capacity)
      (hok : h.createPartition capacity maxAlloc sys = some (h', id))
  /-- A new node, from one of the three entry points. -/
  | alloc {i dtype size : ℕ} {payload : Payload} {skipArena : Bool} {sys : Option NodePtr}
      {h₁ : GcHeap} {n : NodePtr} (htype : op.allocType = some dtype) (hsys : op.allocSys = sys)
      (hdtype : dtype < h.nodeDtypes.typeInfoList.length)
      (hfresh : ∀ n, sys = some n → h.SystemFresh n)
      (hok : h.allocNodeMem i dtype payload skipArena sys = .ok (h₁, n, size))
      (heq : h'.store = (h₁.attachNode i n).store)
  /-- A sweep, after any marking. -/
  | sweep {h₁ : GcHeap} {i : ℕ} (hop : op = .sweep i ∨ op = .garbageCollect i)
      (hstore : h₁.store = h.store) (heq : h' = (h₁.twoPhaseSweep i).1)
  /-- A weak handle. -/
  | downgrade {n : NodePtr} {w : GcWeakRawId} (hop : op = .downgrade n) (hn : h.Live n)
      (hok : h.downgrade n = some (h', w))
  /-- The end of a partition. -/
  | remove {i bytes : ℕ} {sys : Option ℕ} (hop : op = .removePartition i sys)
      (hfresh : ∀ base, sys = some base →
        h.RegionFresh (h.par i).nodes base (h.par i).arenaCapacity)
      (hok : h.removePartition false i sys = some (h', bytes))

theorem store_attachNode_congr {h h' : GcHeap} (heq : h'.store = h.store) (i : ℕ) (n : NodePtr) :
    (h'.attachNode i n).store = (h.attachNode i n).store := by
  have hattach : ∀ h : GcHeap, (h.attachNode i n).store = h.store.attachNode i n := by
    intro h
    have hpar : (h.attachNode i n).store.partitions = (h.store.attachNode i n).partitions := by
      refine List.ext_getElem? fun j => ?_
      simp only [GcHeap.attachNode, GcHeap.store, GcHeap.modifyPar, List.getElem?_map,
        List.getElem?_modify]
      split <;> cases h.partitions[j]? <;> rfl
    simp only [GcHeap.store] at hpar ⊢
    rw [hpar]
    rfl
  rw [hattach, hattach, heq]

namespace GcHeap

variable {h h' : GcHeap} {i dtype : ℕ} {payload : Payload} {sys : Option NodePtr} {n : NodePtr}

/-! ### The three ways to allocate -/

theorem allocRaw_store (hok : h.allocRaw i dtype payload sys = .ok (h', n)) :
    ∃ h₁ size, h.allocNodeMem i dtype payload false sys = .ok (h₁, n, size) ∧
      h'.store = (h₁.attachNode i n).store := by
  obtain ⟨h₁, size, hmem, rfl⟩ := allocRaw_ok hok
  exact ⟨h₁, size, hmem, rfl⟩

theorem allocRootRaw_store (hok : h.allocRootRaw i dtype payload sys = .ok (h', n)) :
    ∃ h₁ size, h.allocNodeMem i dtype payload true sys = .ok (h₁, n, size) ∧
      h'.store = (h₁.attachNode i n).store := by
  obtain ⟨h₁, h₂, size, hmem, hh₂, hh'⟩ := allocRootRaw_ok hok
  refine ⟨h₁, size, hmem, ?_⟩
  have hroot : h₂.store = (h₁.attachNode i n).store := by
    rw [hh₂]
    refine store_attachNode_congr ?_ i n
    exact store_modifyHead fun _ => rfl
  rw [hh']
  split
  · rw [store_parAddGrayNode, hroot]
  · exact hroot

theorem allocLocal_store {stackId index : ℕ} {s : GcScopeState}
    (hok : h.allocLocal stackId index s dtype payload sys = .ok (h', n)) :
    ∃ h₁ size, h.allocNodeMem s.partitionId dtype payload false sys = .ok (h₁, n, size) ∧
      h'.store = (h₁.attachNode s.partitionId n).store := by
  obtain ⟨h₁, hraw, hh'⟩ := allocLocal_ok hok
  obtain ⟨h₂, size, hmem, rfl⟩ := allocRaw_ok hraw
  exact ⟨h₂, size, hmem, by rw [hh', store_addNode]⟩

/-- An allocation in partition `i` has succeeded. -/
inductive Allocates (h : GcHeap) (i dtype : ℕ) (n : NodePtr) (h' : GcHeap) : Prop
  /-- By `allocRaw`. -/
  | raw {payload : Payload} {sys : Option NodePtr}
      (hok : h.allocRaw i dtype payload sys = .ok (h', n))
  /-- By `allocRootRaw`. -/
  | root {payload : Payload} {sys : Option NodePtr}
      (hok : h.allocRootRaw i dtype payload sys = .ok (h', n))
  /-- By `allocLocal`, in a scope of that partition. -/
  | scope {payload : Payload} {sys : Option NodePtr} {stackId index : ℕ} {s : GcScopeState}
      (hs : s.partitionId = i) (hok : h.allocLocal stackId index s dtype payload sys = .ok (h', n))

theorem Allocates.of_toOption
    (hok : (h.allocRaw i dtype payload sys).toOption = some (h', n)) :
    h.Allocates i dtype n h' := by
  cases hraw : h.allocRaw i dtype payload sys with
  | error e =>
    rw [hraw] at hok
    cases hok
  | ok r =>
    rw [hraw] at hok
    exact .raw (hraw.trans (congrArg _ (Option.some.inj hok)))

theorem Allocates.nodeMem (halloc : h.Allocates i dtype n h') : ∃ payload skipArena sys h₁ size,
    h.allocNodeMem i dtype payload skipArena sys = .ok (h₁, n, size) ∧
      h'.store = (h₁.attachNode i n).store := by
  cases halloc with
  | raw hok => exact ⟨_, _, _, allocRaw_store hok⟩
  | root hok => exact ⟨_, _, _, allocRootRaw_store hok⟩
  | scope hs hok => exact hs ▸ ⟨_, _, _, allocLocal_store hok⟩

end GcHeap

/-- **Every step** does one of these things to the store. -/
theorem Step.store {h h' : GcHeap} {op : Op} (hst : Step h op h') : StoreStep h op h' := by
  obtain ⟨hpre, hexec⟩ := hst
  cases op with
  | createPartition capacity maxAlloc sys =>
    obtain ⟨⟨h₁, id⟩, hok, rfl⟩ := Option.map_eq_some_iff.mp hexec
    exact .create rfl hpre hok
  | allocRaw i dtype payload sys =>
    obtain ⟨-, hdtype, -, hfresh⟩ := hpre
    cases hexec
    cases hr : h.allocRaw i dtype payload sys with
    | error e => exact .same rfl
    | ok r =>
      obtain ⟨h₁, size, hmem, heq⟩ := GcHeap.allocRaw_store hr
      exact .alloc rfl rfl hdtype hfresh hmem heq
  | allocRootRaw i dtype payload sys =>
    obtain ⟨-, hdtype, -, hfresh⟩ := hpre
    cases hexec
    cases hr : h.allocRootRaw i dtype payload sys with
    | error e => exact .same rfl
    | ok r =>
      obtain ⟨h₁, size, hmem, heq⟩ := GcHeap.allocRootRaw_store hr
      exact .alloc rfl rfl hdtype hfresh hmem heq
  | allocLocal stackId index dtype payload sys =>
    obtain ⟨hdtype, -, hfresh⟩ := hpre
    obtain ⟨s, -, rfl⟩ := Option.map_eq_some_iff.mp hexec
    cases hr : h.allocLocal stackId index s dtype payload sys with
    | error e => exact .same rfl
    | ok r =>
      obtain ⟨h₁, size, hmem, heq⟩ := GcHeap.allocLocal_store hr
      exact .alloc rfl rfl hdtype hfresh hmem heq
  | sweep i =>
    cases hexec
    exact .sweep (.inl rfl) rfl rfl
  | garbageCollect i =>
    obtain ⟨⟨h₁, bytes⟩, hgc, rfl⟩ := Option.map_eq_some_iff.mp hexec
    rcases GcHeap.markFrame_store.garbageCollect hgc with ⟨-, rfl, -⟩ | ⟨h₂, hstore, hsweep⟩
    · exact .same rfl
    · exact .sweep (.inr rfl) hstore (congrArg Prod.fst hsweep).symm
  | downgrade n =>
    obtain ⟨⟨h₁, w⟩, hok, rfl⟩ := Option.map_eq_some_iff.mp hexec
    exact .downgrade rfl hpre hok
  | removePartition i sys =>
    obtain ⟨⟨h₁, bytes⟩, hok, rfl⟩ := Option.map_eq_some_iff.mp hexec
    exact .remove rfl hpre hok
  | acquireScopeStack | releaseScopeStack | newScope | popScope | addNonLocal | protectNode
  | removeNode | promoteNodeTo | clear | setRootNode | bind | withWriteBarrier | removeRefs | mark
  | markReset | setMemoryLimit | setGcThreshold => exact .same (exec_store rfl hexec)

end GcLite
