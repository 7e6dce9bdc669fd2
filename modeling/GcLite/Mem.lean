import GcLite.Heap

/-!
# Allocating and disposing of nodes

`mem.rs` and `weak.rs`: a node comes from its partition's arena or from the system allocator, is
chained into its partition, may get a slot in the weak table, and is disposed of.

The system allocator is a parameter: `sys` is its answer to the one request an operation makes, and
`none` means that it has no memory. What may be assumed of the answer is stated where runs are
defined.

## Main definitions

* `GcError`, `allocNodeMem`, `allocRaw`, `allocRootRaw`
* `Attached` — the heap with one more node
* `downgrade`, `upgrade`
* `dispose`, `disposeNoDrop`, `disposeMemOnly`

## Main results

* `allocNodeMem_ok` — the two ways in which an allocation succeeds
* `allocNodeMem_attached` — and what either of them leads to
-/

namespace GcLite

/-- The errors of the heap. -/
inductive GcError
  /-- The system has no memory left. -/
  | allocationFailed
  /-- Nothing returns it. -/
  | invalidReference
  /-- The memory limit would be passed. -/
  | partitionFull
  /-- There is no such partition. -/
  | partitionNotFound
  /-- Nothing returns it. -/
  | partitionNotEmpty
deriving DecidableEq, Repr

/-- The header a new node starts with. -/
def GcHead.init (i dtype : ℕ) (arenaAlloc : Bool) : GcHead where
  dtype := dtype
  color := .white
  arenaAlloc := arenaAlloc
  grayListed := false
  isRoot := false
  isLocal := false
  traverseVisited := false
  partitionId := i
  weakId := .null

namespace GcHeap

/-! ### Allocation -/

/-- The table's row for a type. -/
def typeInfo (h : GcHeap) (dtype : ℕ) : GcTypeInfo :=
  h.nodeDtypes.typeInfoList.getD dtype default

/-- The arena path, for allocations that are small enough and find room there. -/
def arenaAlloc? (h : GcHeap) (i : ℕ) (layout : Layout) (skipArena : Bool) :
    Option (NodePtr × GcArena) :=
  if !skipArena && layout.size ≤ (h.par i).arenaMaxAlloc then
    (h.par i).arena.bind fun A => A.alloc layout
  else none

/-- Write payload and header at `n` and count the bytes. -/
def initNode (h : GcHeap) (i dtype : ℕ) (n : NodePtr) (payload : Payload) (arenaAlloc : Bool)
    (grossSize : ℕ) : GcHeap :=
  { h with
    refs := Function.update h.refs n payload
    head := Function.update h.head n (.init i dtype arenaAlloc) }.updateMemUse i (asI32 grossSize)

/-- Allocate a typed node with payload data. A failure hands the payload back. -/
def allocNodeMem (h : GcHeap) (i dtype : ℕ) (payload : Payload) (skipArena : Bool)
    (sys : Option NodePtr) : Except (GcError × Payload) (GcHeap × NodePtr × ℕ) :=
  if h.partitions.length ≤ i then .error (.partitionNotFound, payload)
  else match (h.typeInfo dtype).layout? with
    | none => .error (.allocationFailed, payload)
    | some layout =>
      let grossSize := layout.size
      if h.memoryLimit > 0 ∧ asUsize (h.totalMemoryUsed + grossSize) > h.memoryLimit then
        .error (.partitionFull, payload)
      else match h.arenaAlloc? i layout skipArena with
        | some (n, A) =>
          .ok ((h.modifyPar i fun q => { q with arena := some A }).initNode i dtype n payload true
            grossSize, n, grossSize)
        | none => match sys with
          | some n => .ok (h.initNode i dtype n payload false grossSize, n, grossSize)
          | none => .error (.allocationFailed, payload)

/-- Prepend a node to the partition's chain. -/
def attachNode (h : GcHeap) (i : ℕ) (n : NodePtr) : GcHeap :=
  h.modifyPar i fun q => { q with nodes := n :: q.nodes }

/-- Allocate a node that no scope protects. -/
def allocRaw (h : GcHeap) (i dtype : ℕ) (payload : Payload) (sys : Option NodePtr) :
    Except (GcError × Payload) (GcHeap × NodePtr) := do
  let (h, n, _) ← h.allocNodeMem i dtype payload false sys
  return (h.attachNode i n, n)

/-- Allocate a root node, bypassing the arena. -/
def allocRootRaw (h : GcHeap) (i dtype : ℕ) (payload : Payload) (sys : Option NodePtr) :
    Except (GcError × Payload) (GcHeap × NodePtr) := do
  let (h, n, _) ← h.allocNodeMem i dtype payload true sys
  let h := (h.modifyHead n fun hd => { hd with isRoot := true }).attachNode i n
  return (if (h.par i).marking then h.parAddGrayNode i n else h, n)

/-- A successful allocation took the arena's block or the system's, and then initialised it. -/
theorem allocNodeMem_ok {h h' : GcHeap} {i dtype size : ℕ} {payload : Payload} {skipArena : Bool}
    {sys : Option NodePtr} {n : NodePtr}
    (hok : h.allocNodeMem i dtype payload skipArena sys = .ok (h', n, size)) :
    i < h.partitions.length ∧ ∃ layout : Layout, layout.size = (h.typeInfo dtype).layoutSize ∧
      size = layout.size ∧
      ((∃ A A', skipArena = false ∧ (h.par i).arena = some A ∧ A.alloc layout = some (n, A') ∧
          h' = (h.modifyPar i fun q => { q with arena := some A' }).initNode i dtype n payload true
            size) ∨
        (sys = some n ∧ h' = h.initNode i dtype n payload false size)) := by
  unfold allocNodeMem at hok
  split at hok
  · cases hok
  next hi =>
  refine ⟨Nat.lt_of_not_le hi, ?_⟩
  split at hok
  · cases hok
  next layout hlayout =>
  refine ⟨layout, Layout.size_of_fromSizeAlign hlayout, ?_⟩
  dsimp only at hok
  split at hok
  · cases hok
  split at hok
  · next A' harena =>
    simp only [Except.ok.injEq, Prod.mk.injEq] at hok
    obtain ⟨rfl, rfl, rfl⟩ := hok
    unfold arenaAlloc? at harena
    split at harena
    · next hsmall =>
      obtain ⟨A, hA, halloc⟩ := Option.bind_eq_some_iff.mp harena
      simp only [Bool.and_eq_true, Bool.not_eq_true', decide_eq_true_eq] at hsmall
      exact ⟨rfl, .inl ⟨A, A', hsmall.1, hA, halloc, rfl⟩⟩
    · cases harena
  · split at hok
    · simp only [Except.ok.injEq, Prod.mk.injEq] at hok
      obtain ⟨rfl, rfl, rfl⟩ := hok
      exact ⟨rfl, .inr ⟨rfl, rfl⟩⟩
    · cases hok

theorem allocRaw_ok {h h' : GcHeap} {i dtype : ℕ} {payload : Payload} {sys : Option NodePtr}
    {n : NodePtr} (hok : h.allocRaw i dtype payload sys = .ok (h', n)) : ∃ h₁ size,
      h.allocNodeMem i dtype payload false sys = .ok (h₁, n, size) ∧ h' = h₁.attachNode i n := by
  unfold allocRaw at hok
  cases hr : h.allocNodeMem i dtype payload false sys with
  | error e =>
    rw [hr] at hok
    cases hok
  | ok r =>
    obtain ⟨h₁, m, size⟩ := r
    rw [hr] at hok
    obtain ⟨rfl, rfl⟩ := Prod.mk.inj (Except.ok.inj hok)
    exact ⟨h₁, size, rfl, rfl⟩

theorem allocRootRaw_ok {h h' : GcHeap} {i dtype : ℕ} {payload : Payload} {sys : Option NodePtr}
    {n : NodePtr} (hok : h.allocRootRaw i dtype payload sys = .ok (h', n)) : ∃ h₁ h₂ size,
      h.allocNodeMem i dtype payload true sys = .ok (h₁, n, size) ∧
      h₂ = (h₁.modifyHead n fun hd => { hd with isRoot := true }).attachNode i n ∧
      h' = if (h₂.par i).marking then h₂.parAddGrayNode i n else h₂ := by
  unfold allocRootRaw at hok
  cases hr : h.allocNodeMem i dtype payload true sys with
  | error e =>
    rw [hr] at hok
    cases hok
  | ok r =>
    obtain ⟨h₁, m, size⟩ := r
    rw [hr] at hok
    obtain ⟨rfl, rfl⟩ := Prod.mk.inj (Except.ok.inj hok)
    exact ⟨h₁, _, size, rfl, rfl, rfl⟩

/-- The heap after a node has been initialised at `n` and chained into partition `i`. -/
structure Attached (h : GcHeap) (i dtype : ℕ) (fromArena : Bool) (n : NodePtr) (h' : GcHeap) :
    Prop where
  /-- The partition exists. -/
  lt_length : i < h.partitions.length
  /-- There are as many partitions as before. -/
  length : h'.partitions.length = h.partitions.length
  /-- The header is a new one, and no other has changed. -/
  head : h'.head = Function.update h.head n (.init i dtype fromArena)
  /-- The type table is as before. -/
  types : h'.nodeDtypes = h.nodeDtypes
  /-- No weak slot has changed. -/
  slots : h'.weakSlots = h.weakSlots
  /-- No scope has changed. -/
  scopes : h'.scopeStacks = h.scopeStacks
  /-- The node is the first of its chain. -/
  nodes : ∀ j, (h'.par j).nodes = if j = i then n :: (h.par j).nodes else (h.par j).nodes
  /-- Only the arena that the block came from has changed. -/
  arena : ∀ j, j ≠ i ∨ fromArena = false → (h'.par j).arena = (h.par j).arena
  /-- The size has been added to the total. -/
  total : (h.typeInfo dtype).layoutSize < 2 ^ 31 →
    h'.totalMemoryUsed = asUsize (h.totalMemoryUsed + (h.typeInfo dtype).layoutSize)
  /-- It has been added to the partition's counter. -/
  used : (h.typeInfo dtype).layoutSize < 2 ^ 31 → ∀ j, (h'.par j).memoryUsed =
    if j = i then asUsize ((h.par j).memoryUsed + (h.typeInfo dtype).layoutSize)
    else (h.par j).memoryUsed

/-- The node joins the live ones. -/
theorem Attached.live_iff {h h' : GcHeap} {i dtype : ℕ} {fromArena : Bool} {n m : NodePtr}
    (hatt : Attached h i dtype fromArena n h') : h'.Live m ↔ m = n ∨ h.Live m := by
  simp only [Live, hatt.nodes]
  constructor
  · rintro ⟨j, hm⟩
    split at hm
    · rcases List.mem_cons.mp hm with rfl | hm
      · exact .inl rfl
      · exact .inr ⟨j, hm⟩
    · exact .inr ⟨j, hm⟩
  · rintro (rfl | ⟨j, hm⟩)
    · exact ⟨i, by simp⟩
    · refine ⟨j, ?_⟩
      split
      · exact List.mem_cons_of_mem _ hm
      · exact hm

/-- Initialising and chaining, with the arena of partition `i` set to `arena` first. -/
private theorem attached_initNode {h : GcHeap} {i : ℕ} (hi : i < h.partitions.length)
    (dtype : ℕ) (n : NodePtr) (payload : Payload) (fromArena : Bool) (arena : Option GcArena)
    (harena : fromArena = false → arena = (h.par i).arena) :
    let h' := ((h.modifyPar i fun q => { q with arena := arena }).initNode i dtype n payload
      fromArena (h.typeInfo dtype).layoutSize).attachNode i n
    Attached h i dtype fromArena n h' ∧ (h'.par i).arena = arena := by
  obtain ⟨f, hf⟩ := updateMemUse_eq (asI32 (h.typeInfo dtype).layoutSize)
  have hadd : (h.typeInfo dtype).layoutSize < 2 ^ 31 →
      ∀ m : ℕ, f m = asUsize (m + (h.typeInfo dtype).layoutSize) := by
    intro hsize m
    have hm := (hf { h with totalMemoryUsed := m } 0).symm.trans (updateMemUse_add _ 0 hsize)
    exact congrArg GcHeap.totalMemoryUsed hm
  generalize hh' : ((h.modifyPar i fun q => { q with arena := arena }).initNode i dtype n payload
    fromArena (h.typeInfo dtype).layoutSize).attachNode i n = h'
  rw [initNode, hf] at hh'
  have hpar : ∀ j, h'.par j = if j = i then
      { h.par i with
        nodes := n :: (h.par i).nodes
        memoryUsed := f (h.par i).memoryUsed
        arena := arena } else h.par j := by
    intro j
    rw [← hh']
    change (((h.modifyPar i _).modifyPar i _).modifyPar i _).par j = _
    by_cases hj : j = i
    · subst hj
      rw [par_modifyPar_self (by simpa using hi), par_modifyPar_self (by simpa using hi),
        par_modifyPar_self hi, if_pos rfl]
    · rw [par_modifyPar_of_ne (Ne.symm hj), par_modifyPar_of_ne (Ne.symm hj),
        par_modifyPar_of_ne (Ne.symm hj), if_neg hj]
  refine ⟨⟨hi, ?_, ?_, ?_, ?_, ?_, fun j => ?_, fun j hj => ?_, fun hsize => ?_,
    fun hsize j => ?_⟩, ?_⟩
  · rw [← hh']
    change (((h.modifyPar i _).modifyPar i _).modifyPar i _).partitions.length = _
    rw [length_modifyPar, length_modifyPar, length_modifyPar]
  · rw [← hh']
    rfl
  · rw [← hh']
    rfl
  · rw [← hh']
    rfl
  · rw [← hh']
    rfl
  · rw [hpar]
    split
    · next hj => rw [hj]
    · rfl
  · rw [hpar]
    split
    · next hji =>
      rcases hj with hj | hj
      · exact absurd hji hj
      · rw [hji]
        exact harena hj
    · rfl
  · rw [← hadd hsize, ← hh']
    rfl
  · rw [hpar]
    split
    · next hj => rw [← hadd hsize, hj]
    · rfl
  · rw [hpar, if_pos rfl]

/-- **Allocation.** The new node is attached, with a block of its partition's arena or with one that
the system handed out. -/
theorem allocNodeMem_attached {h h' : GcHeap} {i dtype size : ℕ} {payload : Payload}
    {skipArena : Bool} {sys : Option NodePtr} {n : NodePtr}
    (hok : h.allocNodeMem i dtype payload skipArena sys = .ok (h', n, size)) :
    ∃ fromArena, Attached h i dtype fromArena n (h'.attachNode i n) ∧
      ((fromArena = true ∧ ∃ A A' layout, (h.par i).arena = some A ∧ A.alloc layout = some (n, A') ∧
          layout.size = (h.typeInfo dtype).layoutSize ∧
          ((h'.attachNode i n).par i).arena = some A') ∨
        (fromArena = false ∧ sys = some n)) := by
  obtain ⟨hi, layout, hlayout, rfl, hcases⟩ := allocNodeMem_ok hok
  rcases hcases with ⟨A, A', -, hA, halloc, heq⟩ | ⟨hsys, heq⟩
  · rw [heq, hlayout]
    obtain ⟨hatt, harena⟩ := attached_initNode hi dtype n payload true (some A') (by simp)
    exact ⟨true, hatt, .inl ⟨rfl, A, A', layout, hA, halloc, hlayout, harena⟩⟩
  · rw [heq, hlayout]
    have hsame : (h.modifyPar i fun q => { q with arena := (h.par i).arena }) = h :=
      modifyPar_eq_self rfl
    have hatt := (attached_initNode hi dtype n payload false (h.par i).arena fun _ => rfl).1
    rw [hsame] at hatt
    exact ⟨false, hatt, .inr ⟨rfl, hsys⟩⟩

/-! ### Weak references -/

/-- Take a weak handle of a node: the one it has, or one with the next version of the first empty
slot. `none` is the panic of a full table. -/
def downgrade (h : GcHeap) (n : NodePtr) : Option (GcHeap × GcWeakRawId) :=
  if !(h.head n).weakId.isNull then some (h, (h.head n).weakId)
  else if h.weakSlots.length ≥ 2 ^ 24 - 1 then none
  else
    let i := h.weakSlots.findIdx fun slot => slot.node.isNone
    -- past the end when every slot is in use, and then a slot is pushed
    let slots := if i < h.weakSlots.length then h.weakSlots else h.weakSlots ++ [⟨0, none⟩]
    let currVer := (slots.getD i default).version
    let version := if currVer = 255 then 1 else currVer + 1
    let weak := GcWeakRawId.new i version
    some ({ h with weakSlots := slots.set i ⟨version, some n⟩ }.modifyHead n fun hd =>
      { hd with weakId := weak }, weak)

/-- Taking a handle writes the slots and the weak id of the node. -/
theorem downgrade_frame {h h' : GcHeap} {n : NodePtr} {w : GcWeakRawId}
    (hok : h.downgrade n = some (h', w)) : ∃ slots,
    h' = modifyHead { h with weakSlots := slots } n fun hd => { hd with weakId := w } := by
  unfold downgrade at hok
  split at hok
  · obtain ⟨rfl, rfl⟩ := Prod.mk.inj (Option.some.inj hok)
    refine ⟨h.weakSlots, congrArg (fun head => { h with head := head }) ?_⟩
    exact (Function.update_eq_self n h.head).symm
  · split at hok
    · cases hok
    · obtain ⟨rfl, rfl⟩ := Prod.mk.inj (Option.some.inj hok)
      exact ⟨_, rfl⟩

/-- The node a weak handle stands for, if its slot still has the handle's version. -/
def upgrade (h : GcHeap) (w : GcWeakRawId) : Option NodePtr :=
  if w.isNull then none
  else h.weakSlots[w.index]?.bind fun slot =>
    if slot.version = w.version then slot.node else none

/-- Empty the slot that the node's weak id names, whatever it holds by now. -/
def clearWeakSlot (h : GcHeap) (n : NodePtr) : GcHeap :=
  let w := (h.head n).weakId
  if w.isNull then h
  else { h with weakSlots := h.weakSlots.modify w.index fun slot => { slot with node := none } }

/-- What that does to the table. -/
def emptySlot (slots : List WeakSlot) (w : GcWeakRawId) : List WeakSlot :=
  if w.isNull then slots else slots.modify w.index fun slot => { slot with node := none }

theorem clearWeakSlot_eq (h : GcHeap) (n : NodePtr) :
    h.clearWeakSlot n = { h with weakSlots := emptySlot h.weakSlots (h.head n).weakId } := by
  unfold clearWeakSlot emptySlot
  dsimp only
  split <;> rfl

theorem foldl_clearWeakSlot (l : List NodePtr) : ∀ h : GcHeap, l.foldl clearWeakSlot h =
    { h with weakSlots := (l.map fun n => (h.head n).weakId).foldl emptySlot h.weakSlots } := by
  induction l with
  | nil => exact fun h => rfl
  | cons n l ih =>
    intro h
    rw [List.foldl_cons, ih, clearWeakSlot_eq]
    rfl

/-! ### Disposal -/

/-- Give the node's memory back. Arena memory is left to `collectHole`. -/
def disposeMemOnly (h : GcHeap) (n : NodePtr) (i : ℕ) (layoutAlign grossSize : ℕ) : GcHeap × ℕ :=
  let h := h.emit [.disposed n]
  if (h.head n).arenaAlloc then (h.updateMemUse i (asI32 (-asI32 grossSize)), grossSize)
  else
    ((h.emit [.memDealloc n grossSize layoutAlign]).updateMemUse i (asI32 (-asI32 grossSize)),
      grossSize)

/-- Dispose of a node whose payload has been dropped. -/
def disposeNoDrop (h : GcHeap) (n : NodePtr) : GcHeap × ℕ :=
  let pid := (h.head n).partitionId
  let info := h.info n
  (h.clearWeakSlot n).disposeMemOnly n pid info.layoutAlign info.layoutSize

/-- The effect of dropping a node's payload. -/
def dropPayload (h : GcHeap) (n : NodePtr) : List GcEvent :=
  if (h.info n).dropFn then [.dropFn n] else []

/-- Dispose of a node: drop its payload, free its memory, update the counters. -/
def dispose (h : GcHeap) (n : NodePtr) : GcHeap × ℕ :=
  let pid := (h.head n).partitionId
  let info := h.info n
  let h := h.clearWeakSlot n
  (h.emit (h.dropPayload n)).disposeMemOnly n pid info.layoutAlign info.layoutSize

end GcHeap

end GcLite
