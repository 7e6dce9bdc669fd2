import GcLite.Arena

/-!
# The heap

The data that `node.rs`, `partition.rs`, `scope.rs`, `weak.rs` and `heap.rs` keep, and the few ways
in which they change it.

A node is known by its address. The headers of all nodes, live or not, are one function `head`, so
that reading through a stale pointer means something here too: it finds what the last owner of the
address left there. The packed `attrs` word of a header is unpacked into its flags. A payload is
known by the references that its trace function reports, in that order and with repetitions.

An intrusive chain of nodes is the list of its nodes from the head on. A `gray_list` is the list of
its entries from the top of the stack on, so pushing is `::`.

Left out: `opaque` and the `dbg_` fields, which nothing below reads, and `next`, which the chain
lists replace. Debug assertions are left out too, here and in the modules on top of this one: what
is modelled is how a release build behaves. Only the poisoning of freed headers, on which the
release of a partition's memory depends, has the build as a parameter; see `deallocPartition`.

## Main definitions

* `GcTriColor`, `GcHead`, `GcPartition`, `GcScopeState`, `ScopeStack`, `WeakSlot`, `GcHeap`
* `GcHeap.par`, `GcHeap.modifyPar`, `GcHeap.modifyHead`
* `GcHeap.Live` — some partition's chain has the node
* `updateMemUse` — the byte counters, with the `i32` that the deltas pass through
* `parAddGrayNode`, `addGrayNode`, `setRootNode` — a node enters a gray list
* `setMemoryLimit`, `setGcThreshold`, `shouldGc`

## Main results

* `par_modifyPar`, `head_modifyHead` and the field lemmas after them
* `updateMemUse_add` — what the counters do on a size that fits an `i32`
-/

namespace GcLite

/-! ### Nodes -/

/-- The address of a node's header. -/
abbrev NodePtr := ℕ

/-- A payload: the references its trace function reports. -/
abbrev Payload := List NodePtr

/-- The three colours of a node in marking. -/
inductive GcTriColor
  /-- Not reached yet. -/
  | white
  /-- Reached, and to be traced. -/
  | gray
  /-- Reached and traced. -/
  | black
deriving DecidableEq, Repr, Inhabited

/-- Bits 8 to 31 are a slot index, bits 0 to 7 a version. -/
structure GcWeakRawId where
  /-- The word as it is stored. -/
  raw : ℕ
deriving DecidableEq, Repr, Inhabited

namespace GcWeakRawId

/-- The id of no slot. -/
def null : GcWeakRawId := ⟨0⟩

/-- `GcWeak::new`. The index stays below `2 ^ 24`, see `downgrade`. -/
def new (index version : ℕ) : GcWeakRawId := ⟨index <<< 8 ||| version⟩

/-- The slot that the id is for. -/
def index (w : GcWeakRawId) : ℕ := w.raw >>> 8

/-- The number of times that the slot had been taken, as the slot counts them. -/
def version (w : GcWeakRawId) : ℕ := w.raw % 256

/-- No slot is ever at version 0. -/
def isNull (w : GcWeakRawId) : Bool := w.version == 0

@[simp] theorem isNull_null : null.isNull = true := rfl

theorem raw_new {index version : ℕ} (hv : version < 256) :
    (new index version).raw = index * 256 + version := by
  rw [new, ← Nat.shiftLeft_add_eq_or_of_lt (i := 8) hv, Nat.shiftLeft_eq]

theorem index_new {index version : ℕ} (hv : version < 256) : (new index version).index = index := by
  rw [GcWeakRawId.index, raw_new hv, Nat.shiftRight_eq_div_pow]
  omega

theorem version_new {index version : ℕ} (hv : version < 256) :
    (new index version).version = version := by
  rw [GcWeakRawId.version, raw_new hv]
  omega

theorem new_index_version (w : GcWeakRawId) : new w.index w.version = w := by
  have hv : w.version < 256 := Nat.mod_lt _ (by decide)
  have hraw : (new w.index w.version).raw = w.raw := by
    rw [raw_new hv, GcWeakRawId.index, GcWeakRawId.version, Nat.shiftRight_eq_div_pow]
    omega
  cases w
  exact congrArg GcWeakRawId.mk hraw

theorem ext_of_index {w w' : GcWeakRawId} (hindex : w.index = w'.index)
    (hversion : w.version = w'.version) : w = w' := by
  rw [← new_index_version w, hindex, hversion, new_index_version]

theorem isNull_new {index version : ℕ} (hv : version < 256) (hpos : version ≠ 0) :
    (new index version).isNull = false := by
  simp [isNull, version_new hv, hpos]

end GcWeakRawId

/-- A node's header, with `attrs` unpacked. -/
structure GcHead where
  /-- Type id, the node's row in the type table. -/
  dtype : ℕ
  /-- The colour bits. -/
  color : GcTriColor
  /-- `ARENA_ALLOC` -/
  arenaAlloc : Bool
  /-- `GRAY_LISTED` -/
  grayListed : Bool
  /-- `ROOT` -/
  isRoot : Bool
  /-- `LOCAL` -/
  isLocal : Bool
  /-- `TRAVERSE_VISITED` -/
  traverseVisited : Bool
  /-- The partition whose chain the node is in. -/
  partitionId : ℕ
  /-- The node's weak slot, null while it has none. -/
  weakId : GcWeakRawId
deriving DecidableEq, Repr, Inhabited

/-- What marking starts from. -/
def GcHead.isRootOrLocal (hd : GcHead) : Bool := hd.isRoot || hd.isLocal

/-! ### Partitions, scopes and weak slots -/

/-- A partition: its chain, its gray list, its counter and its arena. -/
structure GcPartition where
  /-- The chain of nodes, newest first. -/
  nodes : List NodePtr
  /-- Gray nodes to be traced, top of the stack first. -/
  grayList : List NodePtr
  /-- Is in a marking cycle. -/
  marking : Bool
  /-- Bytes of its nodes, as the counter has them. -/
  memoryUsed : ℕ
  /-- `none` when the arena is disabled for this partition. -/
  arena : Option GcArena
  /-- The capacity asked for when the partition was created; 0 for no arena. -/
  arenaCapacity : ℕ
  /-- Larger allocations skip the arena. -/
  arenaMaxAlloc : ℕ

instance : Inhabited GcPartition := ⟨⟨[], [], false, 0, none, 0, 0⟩⟩

/-- A new partition, or `none` for the panic when the arena cannot be allocated. `sys` is the system
allocator's answer. -/
def GcPartition.new (capacity maxAlloc : ℕ) (sys : Option ℕ) : Option GcPartition :=
  if capacity > 0 then do
    let arena ← GcArena.new capacity sys
    return ⟨[], [], false, 0, some arena, capacity, maxAlloc⟩
  else
    some ⟨[], [], false, 0, none, capacity, 0⟩

/-- A scope: the partition it allocates in and the nodes it protects. -/
structure GcScopeState where
  /-- Where `allocLocal` puts nodes. -/
  partitionId : ℕ
  /-- The nodes that it protects; `none` until there is one. -/
  cache : Option (List NodePtr)
deriving DecidableEq, Repr, Inhabited

/-- A stack of scopes. -/
structure ScopeStack where
  /-- The scopes, the current one last. -/
  list : List GcScopeState
  /-- The partition this stack is associated with, `none` when it is idle. -/
  partition : Option ℕ
deriving DecidableEq, Repr, Inhabited

/-- An entry of `weak_slots`. -/
structure WeakSlot where
  /-- The version that handles must have. -/
  version : ℕ
  /-- The node, while it is alive. -/
  node : Option NodePtr
deriving DecidableEq, Repr, Inhabited

/-! ### The heap -/

/-- What the heap does to the world outside it, in the order in which it happens. -/
inductive GcEvent
  /-- The node type's drop function runs on the payload. -/
  | dropFn (node : NodePtr)
  /-- The node's header and accounting are given up. -/
  | disposed (node : NodePtr)
  /-- A block goes back to the system allocator. -/
  | memDealloc (ptr size align : ℕ)
deriving DecidableEq, Repr

/-- The heap, with the headers and payloads in memory and the record of its effects. -/
structure GcHeap where
  /-- The type table. -/
  nodeDtypes : GcTypeRegistry
  /-- A partition's id is its place. -/
  partitions : List GcPartition
  /-- 0 for unlimited. -/
  memoryLimit : ℕ
  /-- 0 for disabled. -/
  gcThreshold : ℕ
  /-- The sum of all partitions' bytes, as the counter has it. -/
  totalMemoryUsed : ℕ
  /-- The slots that weak ids point to. -/
  weakSlots : List WeakSlot
  /-- The scope stacks, in use and idle. -/
  scopeStacks : List ScopeStack
  /-- The header at each address. -/
  head : NodePtr → GcHead
  /-- The payload at each address. -/
  refs : NodePtr → Payload
  /-- What has been done that leaves no trace in the data, in order. -/
  log : List GcEvent

/-- `GcHeap::new`: no partitions, and one idle scope stack. -/
def GcHeap.new (registry : GcTypeRegistry) : GcHeap where
  nodeDtypes := registry
  partitions := []
  memoryLimit := 0
  gcThreshold := 0
  totalMemoryUsed := 0
  weakSlots := []
  scopeStacks := [⟨[], none⟩]
  head := fun _ => default
  refs := fun _ => []
  log := []

namespace GcHeap

/-- Partition `i`; an empty one past the end. -/
def par (h : GcHeap) (i : ℕ) : GcPartition := h.partitions.getD i default

/-- Change the record of one partition. -/
def modifyPar (h : GcHeap) (i : ℕ) (f : GcPartition → GcPartition) : GcHeap :=
  { h with partitions := h.partitions.modify i f }

/-- Change the header of one node. -/
def modifyHead (h : GcHeap) (n : NodePtr) (f : GcHead → GcHead) : GcHeap :=
  { h with head := Function.update h.head n (f (h.head n)) }

/-- The type table's row for a node. -/
def info (h : GcHeap) (n : NodePtr) : GcTypeInfo :=
  h.nodeDtypes.typeInfoList.getD (h.head n).dtype default

/-- Some partition's chain has the node. -/
def Live (h : GcHeap) (n : NodePtr) : Prop := ∃ i, n ∈ (h.par i).nodes

/-- Append to the record of effects. -/
def emit (h : GcHeap) (events : List GcEvent) : GcHeap := { h with log := h.log ++ events }

variable {h : GcHeap} {i j : ℕ} {n m : NodePtr} {f : GcPartition → GcPartition}
  {g : GcHead → GcHead}

theorem par_of_length_le (hi : h.partitions.length ≤ i) : h.par i = default := by
  simp [par, List.getElem?_eq_none hi]

theorem lt_length_of_mem_nodes (hn : n ∈ (h.par i).nodes) : i < h.partitions.length := by
  by_contra hi
  rw [par_of_length_le (by omega)] at hn
  simp [default] at hn

theorem live_iff : h.Live n ↔ ∃ q ∈ h.partitions, n ∈ q.nodes := by
  constructor
  · rintro ⟨i, hn⟩
    have hi := lt_length_of_mem_nodes hn
    refine ⟨h.partitions[i], List.getElem_mem hi, ?_⟩
    simpa [par, hi] using hn
  · rintro ⟨q, hq, hn⟩
    obtain ⟨i, hi, rfl⟩ := List.getElem_of_mem hq
    exact ⟨i, by simpa [par, hi] using hn⟩

instance : Decidable (h.Live n) := decidable_of_iff' _ live_iff

theorem par_modifyPar :
    (h.modifyPar i f).par j = if i = j ∧ i < h.partitions.length then f (h.par i) else h.par j := by
  by_cases hj : j < h.partitions.length
  · by_cases hij : i = j
    · subst hij
      simp [par, modifyPar, hj]
    · simp [par, modifyPar, hj, hij]
  · have hlen : (h.modifyPar i f).partitions.length ≤ j := by
      simpa [modifyPar] using Nat.le_of_not_lt hj
    rw [par_of_length_le hlen, if_neg (by omega), par_of_length_le (Nat.le_of_not_lt hj)]

theorem par_modifyPar_self (hi : i < h.partitions.length) :
    (h.modifyPar i f).par i = f (h.par i) := by
  simp [par_modifyPar, hi]

theorem par_modifyPar_of_ne (hij : i ≠ j) : (h.modifyPar i f).par j = h.par j := by
  simp [par_modifyPar, hij]

/-- Only what `f` makes of the partition itself matters. -/
theorem modifyPar_congr {g : GcPartition → GcPartition} (hfg : f (h.par i) = g (h.par i)) :
    h.modifyPar i f = h.modifyPar i g := by
  refine congrArg (fun ps => { h with partitions := ps }) (List.ext_getElem? fun j => ?_)
  simp only [List.getElem?_modify]
  by_cases hij : i = j
  · subst hij
    by_cases hi : i < h.partitions.length
    · have hpar : h.par i = h.partitions[i] := by simp [par, hi]
      simp [hi, ← hpar, hfg]
    · simp [hi]
  · simp [hij]

theorem modifyPar_eq_self (hf : f (h.par i) = h.par i) : h.modifyPar i f = h := by
  rw [modifyPar_congr (g := id) hf]
  simp [modifyPar, List.modify_id]

theorem modifyPar_modifyPar (f g : GcPartition → GcPartition) :
    (h.modifyPar i f).modifyPar i g = h.modifyPar i (g ∘ f) := by
  simp only [modifyPar]
  rw [List.modify_modify_eq]

theorem modifyPar_comm {g : GcPartition → GcPartition} (hfg : ∀ q, f (g q) = g (f q)) :
    (h.modifyPar i f).modifyPar j g = (h.modifyPar j g).modifyPar i f := by
  by_cases hij : i = j
  · subst hij
    rw [modifyPar_modifyPar, modifyPar_modifyPar,
      show g ∘ f = f ∘ g from funext fun q => (hfg q).symm]
  · simp only [modifyPar]
    rw [List.modify_modify_ne _ _ _ hij]

/-- What `f` leaves alone in a partition, `modifyPar` leaves alone in every partition. -/
theorem field_modifyPar {α : Type*} (φ : GcPartition → α) (hf : ∀ q, φ (f q) = φ q) :
    φ ((h.modifyPar i f).par j) = φ (h.par j) := by
  rw [par_modifyPar]
  split
  · next hij => rw [hf, hij.1]
  · rfl

@[simp] theorem length_modifyPar : (h.modifyPar i f).partitions.length = h.partitions.length := by
  simp [modifyPar]

@[simp] theorem head_modifyPar : (h.modifyPar i f).head = h.head := rfl
@[simp] theorem refs_modifyPar : (h.modifyPar i f).refs = h.refs := rfl
@[simp] theorem nodeDtypes_modifyPar : (h.modifyPar i f).nodeDtypes = h.nodeDtypes := rfl
@[simp] theorem weakSlots_modifyPar : (h.modifyPar i f).weakSlots = h.weakSlots := rfl
@[simp] theorem scopeStacks_modifyPar : (h.modifyPar i f).scopeStacks = h.scopeStacks := rfl
@[simp] theorem totalMemoryUsed_modifyPar :
    (h.modifyPar i f).totalMemoryUsed = h.totalMemoryUsed := rfl

theorem head_modifyHead :
    (h.modifyHead n g).head m = if m = n then g (h.head n) else h.head m := by
  simp [modifyHead, Function.update_apply]

@[simp] theorem head_modifyHead_self : (h.modifyHead n g).head n = g (h.head n) := by
  simp [head_modifyHead]

/-- What `g` leaves alone in a header, `modifyHead` leaves alone in every header. -/
theorem field_modifyHead {α : Type*} (φ : GcHead → α) (hg : ∀ hd, φ (g hd) = φ hd) :
    φ ((h.modifyHead n g).head m) = φ (h.head m) := by
  rw [head_modifyHead]
  split
  · next hmn => rw [hg, hmn]
  · rfl

@[simp] theorem par_modifyHead : (h.modifyHead n g).par = h.par := rfl
@[simp] theorem partitions_modifyHead : (h.modifyHead n g).partitions = h.partitions := rfl
@[simp] theorem refs_modifyHead : (h.modifyHead n g).refs = h.refs := rfl
@[simp] theorem nodeDtypes_modifyHead : (h.modifyHead n g).nodeDtypes = h.nodeDtypes := rfl
@[simp] theorem weakSlots_modifyHead : (h.modifyHead n g).weakSlots = h.weakSlots := rfl
@[simp] theorem scopeStacks_modifyHead : (h.modifyHead n g).scopeStacks = h.scopeStacks := rfl
@[simp] theorem totalMemoryUsed_modifyHead :
    (h.modifyHead n g).totalMemoryUsed = h.totalMemoryUsed := rfl

/-! ### Byte counters -/

end GcHeap

/-- `n as usize`, and the wrapping of `+=` and `-=` on a `usize`. -/
def asUsize (n : ℤ) : ℕ := (n % 2 ^ 64).toNat

/-- `n as i32`, and the wrapping of a negation in `i32`. -/
def asI32 (n : ℤ) : ℤ := n.bmod (2 ^ 32)

theorem asUsize_of_lt {n : ℕ} (hn : n < 2 ^ 64) : asUsize n = n := by
  simp only [asUsize]
  omega

theorem asI32_of_lt {n : ℕ} (hn : n < 2 ^ 31) : asI32 n = n := by
  rw [asI32, Int.bmod_eq_of_le] <;> omega

theorem asI32_neg_of_lt {n : ℕ} (hn : n < 2 ^ 31) : asI32 (-asI32 n) = -n := by
  rw [asI32_of_lt hn, asI32, Int.bmod_eq_of_le] <;> omega

namespace GcHeap

/-- Add `delta` to a partition's bytes and to the heap's. The counters wrap, as they do in a build
without overflow checks. -/
def updateMemUse (h : GcHeap) (i : ℕ) (delta : ℤ) : GcHeap :=
  if delta ≥ 0 then
    let d := asUsize delta
    { h.modifyPar i fun q => { q with memoryUsed := asUsize (q.memoryUsed + d) } with
      totalMemoryUsed := asUsize (h.totalMemoryUsed + d) }
  else
    let d := asUsize (asI32 (-delta))
    { h.modifyPar i fun q => { q with memoryUsed := asUsize (q.memoryUsed - d) } with
      totalMemoryUsed := asUsize (h.totalMemoryUsed - d) }

/-- The update changes nothing but two counters, in a way that depends on nothing else. -/
theorem updateMemUse_eq (delta : ℤ) : ∃ f : ℕ → ℕ, ∀ (h : GcHeap) (i : ℕ), h.updateMemUse i delta =
    { h.modifyPar i fun q => { q with memoryUsed := f q.memoryUsed } with
      totalMemoryUsed := f h.totalMemoryUsed } := by
  by_cases hdelta : delta ≥ 0
  · exact ⟨fun m => asUsize (m + asUsize delta), fun h i => if_pos hdelta⟩
  · exact ⟨fun m => asUsize (m - asUsize (asI32 (-delta))), fun h i => if_neg hdelta⟩

/-- An allocation counts its size, if the size fits an `i32`. -/
theorem updateMemUse_add (h : GcHeap) (i : ℕ) {size : ℕ} (hsize : size < 2 ^ 31) :
    h.updateMemUse i (asI32 size) =
      { h.modifyPar i fun q => { q with memoryUsed := asUsize (q.memoryUsed + size) } with
        totalMemoryUsed := asUsize (h.totalMemoryUsed + size) } := by
  rw [asI32_of_lt hsize, updateMemUse, if_pos (by omega), asUsize_of_lt (by omega)]

/-! ### Gray lists -/

/-- Push a node on the gray list of partition `i`, unless its `GRAY_LISTED` flag is set. -/
def pushUnlisted (h : GcHeap) (i : ℕ) (n : NodePtr) : GcHeap :=
  if (h.head n).grayListed then h
  else (h.modifyHead n fun hd => { hd with grayListed := true }).modifyPar i fun q =>
    { q with grayList := n :: q.grayList }

/-- `GcPartition::add_gray_node` of partition `i`, which need not be the node's own. -/
def parAddGrayNode (h : GcHeap) (i : ℕ) (n : NodePtr) : GcHeap :=
  match (h.head n).color with
  | .white => (h.modifyHead n fun hd => { hd with color := .gray }).pushUnlisted i n
  | .gray => h.pushUnlisted i n
  | .black => h

/-- `GcHeap::add_gray_node`: the partition is the node's own. -/
def addGrayNode (h : GcHeap) (n : NodePtr) : GcHeap :=
  if (h.head n).color ≠ .black then h.parAddGrayNode (h.head n).partitionId n else h

/-- Make a node a root. -/
def setRootNode (h : GcHeap) (n : NodePtr) : GcHeap :=
  if (h.head n).isRoot then h
  else
    let h := h.modifyHead n fun hd => { hd with isRoot := true }
    let pid := (h.head n).partitionId
    if (h.par pid).marking then h.parAddGrayNode pid n else h

/-! ### Limits -/

/-- The smallest threshold: a header and the smallest aligned payload. -/
def minGcThreshold (headSize headAlign : ℕ) : ℕ := headSize + alignUp 1 headAlign

/-- `set_memory_limit`: the limit is raised to what is in use, and the threshold is kept below it.
-/
def setMemoryLimit (headSize headAlign : ℕ) (h : GcHeap) (limit : ℕ) : GcHeap :=
  if limit = 0 then { h with memoryLimit := 0 }
  else
    let applied := max h.totalMemoryUsed limit
    let h := { h with memoryLimit := applied }
    if h.gcThreshold > 0 ∧ h.gcThreshold ≥ applied then
      { h with gcThreshold := max (applied - applied >>> 2) (minGcThreshold headSize headAlign) }
    else h

/-- `set_gc_threshold`: at most four fifths of the limit, if there is one. -/
def setGcThreshold (h : GcHeap) (threshold : ℕ) : GcHeap :=
  if threshold > 0 ∧ h.memoryLimit > 0 then
    let capped := min (h.memoryLimit * 8) usizeMax / 10
    { h with gcThreshold := min threshold capped }
  else { h with gcThreshold := threshold }

/-- If the threshold is positive and memory usage reaches it, collect. -/
def shouldGc (h : GcHeap) : Bool := h.gcThreshold > 0 && h.totalMemoryUsed ≥ h.gcThreshold

theorem setMemoryLimit_frame (headSize headAlign : ℕ) (h : GcHeap) (limit : ℕ) :
    ∃ applied threshold, setMemoryLimit headSize headAlign h limit =
      { h with memoryLimit := applied, gcThreshold := threshold } := by
  rw [setMemoryLimit]
  split
  · exact ⟨_, _, rfl⟩
  · dsimp only
    split <;> exact ⟨_, _, rfl⟩

theorem setGcThreshold_frame (h : GcHeap) (threshold : ℕ) :
    ∃ capped, h.setGcThreshold threshold = { h with gcThreshold := capped } := by
  rw [setGcThreshold]
  split <;> exact ⟨_, rfl⟩

end GcHeap

end GcLite
