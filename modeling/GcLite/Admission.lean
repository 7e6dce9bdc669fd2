import GcLite.Accounting

/-!
# Which allocations are admitted

An allocation has four ways to fail. Here the heap is passed through the failing paths as well, the
walk over an arena's free list included, so that "nothing has changed" is something to prove: the
definitions below are those of `mem.rs` once more, with the state that a failure leaves behind.

In a run the memory limit is never below the memory in use. So the sum that is compared with the
limit does not wrap, if the system allocator serves no address past the middle of the address space.

## Main definitions

* `GcArena.attemptAlloc`, `GcHeap.attemptNodeMem`, `GcHeap.attemptRaw`, `GcHeap.attemptRootRaw`,
  `GcHeap.attemptLocal` — allocation, with the state after a failure
* `SmallType` — a type of the language whose nodes are small
* `UserMemory` — the system allocator stays in the lower half of the address space
* `GcHeap.LimitKept` — the limit is off or not exceeded
* `GcHeap.limits` — the memory limit and the collection threshold
* `GcHeap.Admission` — what an attempt to allocate may answer

## Main results

* `attemptRaw_eq`, `attemptRootRaw_eq`, `attemptLocal_eq` — a failure leaves the heap as it was
* `refusal_allocNodeMem` — the tests of an allocation, in order
* `limits_exec` — the limits change only when they are set
* `LimitKept.step` — every operation keeps to the limit
* `allocation_admission`
-/

namespace GcLite

open Spans Transition

/-! ### Allocation with the state after a failure -/

namespace GcArena

/-- `findFit` with the arena that it leaves behind. -/
def attemptFindFit (needed : ℕ) : ℕ → GcArena → Option ℕ → Option ℕ → GcArena × Option ℕ
  | 0, A, _, _ => (A, none)
  | _ + 1, A, _, none => (A, none)
  | fuel + 1, A, prev, some entry =>
    if needed ≤ (A.mem entry).size then
      let next := (A.mem entry).next
      match prev with
      | some p => (A.writeFreeNext p next, some entry)
      | none => ({ A with freeHead := next }, some entry)
    else attemptFindFit needed fuel A (some entry) (A.mem entry).next

/-- `alloc` with the arena that it leaves behind. -/
def attemptAlloc (A : GcArena) (layout : Layout) : GcArena × Option ℕ :=
  let needed := max layout.size minAllocSize
  let offset := alignUp A.bump layout.align
  if offset + needed ≤ A.capacity then
    ({ A with bump := offset + needed, liveCount := A.liveCount + 1 }, some (A.base + offset))
  else
    match attemptFindFit needed (A.capacity + 1) A none A.freeHead with
    | (A, some ptr) => ({ A with liveCount := A.liveCount + 1 }, some ptr)
    | (A, none) => (A, none)

/-- The result of an allocation as a pair of the arena and the answer. -/
def outcome (A : GcArena) : Option (ℕ × GcArena) → GcArena × Option ℕ
  | some (ptr, A') => (A', some ptr)
  | none => (A, none)

/-- A walk that finds nothing has written nothing. -/
theorem attemptFindFit_eq (needed : ℕ) : ∀ (fuel : ℕ) (A : GcArena) (prev curr : Option ℕ),
    attemptFindFit needed fuel A prev curr = A.outcome (findFit needed fuel A prev curr) := by
  intro fuel
  induction fuel with
  | zero => exact fun _ _ _ => rfl
  | succ fuel ih =>
    intro A prev curr
    cases curr with
    | none => rfl
    | some entry =>
      rw [attemptFindFit, findFit]
      split
      · cases prev <;> rfl
      · exact ih A (some entry) _

theorem attemptAlloc_eq (A : GcArena) (layout : Layout) :
    A.attemptAlloc layout = A.outcome (A.alloc layout) := by
  unfold attemptAlloc alloc allocFromFreeList
  dsimp only
  split
  · rfl
  · rw [attemptFindFit_eq]
    cases findFit _ (A.capacity + 1) A none A.freeHead <;> rfl

end GcArena

namespace GcHeap

/-- The arena path with the heap that it leaves behind. -/
def attemptArena (h : GcHeap) (i : ℕ) (layout : Layout) (skipArena : Bool) :
    GcHeap × Option NodePtr :=
  if !skipArena && layout.size ≤ (h.par i).arenaMaxAlloc then
    match (h.par i).arena with
    | some A =>
      let (A, ptr) := A.attemptAlloc layout
      (h.modifyPar i fun q => { q with arena := some A }, ptr)
    | none => (h, none)
  else (h, none)

/-- `allocNodeMem` with the heap that it leaves behind. -/
def attemptNodeMem (h : GcHeap) (i dtype : ℕ) (payload : Payload) (skipArena : Bool)
    (sys : Option NodePtr) : GcHeap × Except (GcError × Payload) (NodePtr × ℕ) :=
  if h.partitions.length ≤ i then (h, .error (.partitionNotFound, payload))
  else match (h.typeInfo dtype).layout? with
    | none => (h, .error (.allocationFailed, payload))
    | some layout =>
      let grossSize := layout.size
      if h.memoryLimit > 0 ∧ asUsize (h.totalMemoryUsed + grossSize) > h.memoryLimit then
        (h, .error (.partitionFull, payload))
      else match h.attemptArena i layout skipArena with
        | (h, some n) => (h.initNode i dtype n payload true grossSize, .ok (n, grossSize))
        | (h, none) => match sys with
          | some n => (h.initNode i dtype n payload false grossSize, .ok (n, grossSize))
          | none => (h, .error (.allocationFailed, payload))

/-- `allocRaw` with the heap that it leaves behind. -/
def attemptRaw (h : GcHeap) (i dtype : ℕ) (payload : Payload) (sys : Option NodePtr) :
    GcHeap × Except (GcError × Payload) NodePtr :=
  match h.attemptNodeMem i dtype payload false sys with
  | (h, .ok (n, _)) => (h.attachNode i n, .ok n)
  | (h, .error e) => (h, .error e)

/-- `allocRootRaw` with the heap that it leaves behind. -/
def attemptRootRaw (h : GcHeap) (i dtype : ℕ) (payload : Payload) (sys : Option NodePtr) :
    GcHeap × Except (GcError × Payload) NodePtr :=
  match h.attemptNodeMem i dtype payload true sys with
  | (h, .ok (n, _)) =>
    let h := (h.modifyHead n fun hd => { hd with isRoot := true }).attachNode i n
    (if (h.par i).marking then h.parAddGrayNode i n else h, .ok n)
  | (h, .error e) => (h, .error e)

/-- `allocLocal` with the heap that it leaves behind. -/
def attemptLocal (h : GcHeap) (stackId index : ℕ) (s : GcScopeState) (dtype : ℕ)
    (payload : Payload) (sys : Option NodePtr) : GcHeap × Except (GcError × Payload) NodePtr :=
  match h.attemptRaw s.partitionId dtype payload sys with
  | (h, .ok n) => (h.addNode stackId index s n, .ok n)
  | (h, .error e) => (h, .error e)

/-- The result of an operation as a pair of the heap and the answer. -/
def outcome {α : Type*} (h : GcHeap) : Except (GcError × Payload) (GcHeap × α) →
    GcHeap × Except (GcError × Payload) α
  | .ok (h', a) => (h', .ok a)
  | .error e => (h, .error e)

variable {h h' : GcHeap} {i dtype : ℕ} {payload : Payload} {sys : Option NodePtr}

theorem attemptArena_eq (h : GcHeap) (i : ℕ) (layout : Layout) (skipArena : Bool) :
    h.attemptArena i layout skipArena = match h.arenaAlloc? i layout skipArena with
      | some (n, A) => (h.modifyPar i fun q => { q with arena := some A }, some n)
      | none => (h, none) := by
  unfold attemptArena arenaAlloc?
  split
  · cases hA : (h.par i).arena with
    | none => rfl
    | some A =>
      -- the arena that the failing paths write back is the one that was there
      have hsame : (h.modifyPar i fun q => { q with arena := some A }) = h :=
        modifyPar_eq_self (by rw [← hA])
      simp only [A.attemptAlloc_eq, Option.bind_some]
      cases A.alloc layout with
      | none => exact congrArg (·, none) hsame
      | some r => rfl
  · rfl

theorem attemptNodeMem_eq (skipArena : Bool) : h.attemptNodeMem i dtype payload skipArena sys =
    h.outcome (h.allocNodeMem i dtype payload skipArena sys) := by
  unfold attemptNodeMem allocNodeMem
  split
  · rfl
  · cases (h.typeInfo dtype).layout? with
    | none => rfl
    | some layout =>
      dsimp only
      split
      · rfl
      · rw [attemptArena_eq]
        rcases h.arenaAlloc? i layout skipArena with _ | ⟨n, A⟩
        · cases sys <;> rfl
        · rfl

theorem attemptRaw_eq :
    h.attemptRaw i dtype payload sys = h.outcome (h.allocRaw i dtype payload sys) := by
  unfold attemptRaw allocRaw
  rw [attemptNodeMem_eq]
  cases h.allocNodeMem i dtype payload false sys <;> rfl

theorem attemptRootRaw_eq :
    h.attemptRootRaw i dtype payload sys = h.outcome (h.allocRootRaw i dtype payload sys) := by
  unfold attemptRootRaw allocRootRaw
  rw [attemptNodeMem_eq]
  cases h.allocNodeMem i dtype payload true sys <;> rfl

theorem attemptLocal_eq {stackId index : ℕ} {s : GcScopeState} :
    h.attemptLocal stackId index s dtype payload sys =
      h.outcome (h.allocLocal stackId index s dtype payload sys) := by
  unfold attemptLocal allocLocal
  rw [attemptRaw_eq]
  cases h.allocRaw s.partitionId dtype payload sys <;> rfl

end GcHeap

/-! ### The tests, in order -/

/-- A type of the language, whose alignment is a power of two up to `2 ^ 29`, with small nodes. -/
structure SmallType (info : GcTypeInfo) : Prop where
  /-- The node's size fits the counters' deltas. -/
  size : info.layoutSize < 2 ^ 31
  /-- The alignment is one. -/
  align_pow : info.layoutAlign.isPowerOfTwo
  /-- The language allows no larger one. -/
  align_le : info.layoutAlign ≤ 2 ^ 29

instance (info : GcTypeInfo) : Decidable (SmallType info) :=
  decidable_of_iff
    (info.layoutSize < 2 ^ 31 ∧ info.layoutAlign.isPowerOfTwo ∧ info.layoutAlign ≤ 2 ^ 29)
    ⟨fun ⟨hsize, hpow, hle⟩ => ⟨hsize, hpow, hle⟩, fun ⟨hsize, hpow, hle⟩ => ⟨hsize, hpow, hle⟩⟩

/-- Its layout is accepted. -/
theorem SmallType.exists_layout {info : GcTypeInfo} (hsmall : SmallType info) :
    ∃ layout, info.layout? = some layout := by
  have hfits : info.layoutSize + info.layoutAlign ≤ 2 ^ 63 := by
    have := hsmall.size
    have := hsmall.align_le
    omega
  exact ⟨_, dif_pos ⟨hsmall.align_pow, hfits⟩⟩

/-- The error of an allocation that is refused. -/
def refusal {α : Type*} : Except (GcError × Payload) α → Option GcError
  | .ok _ => none
  | .error (e, _) => some e

namespace GcHeap

variable {h h' : GcHeap} {i dtype : ℕ} {payload : Payload} {sys : Option NodePtr}

/-- Which of the tests an allocation fails. -/
theorem refusal_allocNodeMem {layout : Layout} (skipArena : Bool)
    (hlayout : (h.typeInfo dtype).layout? = some layout) :
    refusal (h.allocNodeMem i dtype payload skipArena sys) =
      if h.partitions.length ≤ i then some .partitionNotFound
      else if h.memoryLimit > 0 ∧
        asUsize (h.totalMemoryUsed + (h.typeInfo dtype).layoutSize) > h.memoryLimit then
        some .partitionFull
      else if (h.arenaAlloc? i layout skipArena).isSome || sys.isSome then none
      else some .allocationFailed := by
  have hsize : layout.size = (h.typeInfo dtype).layoutSize := Layout.size_of_fromSizeAlign hlayout
  unfold allocNodeMem
  rw [hlayout, ← hsize]
  split
  · rfl
  · dsimp only
    split
    · rfl
    · rcases h.arenaAlloc? i layout skipArena with _ | ⟨n, A⟩
      · cases sys <;> rfl
      · rfl

/-- A refused payload comes back. -/
theorem payload_of_refused {skipArena : Bool} {e : GcError} {p : Payload}
    (herr : h.allocNodeMem i dtype payload skipArena sys = .error (e, p)) : p = payload := by
  unfold allocNodeMem at herr
  split at herr
  · cases herr
    rfl
  · cases hlayout : (h.typeInfo dtype).layout? with
    | none =>
      rw [hlayout] at herr
      cases herr
      rfl
    | some layout =>
      rw [hlayout] at herr
      dsimp only at herr
      split at herr
      · cases herr
        rfl
      · split at herr
        · cases herr
        · cases sys <;> cases herr
          rfl

theorem allocRaw_eq_map : h.allocRaw i dtype payload sys =
    (h.allocNodeMem i dtype payload false sys).map fun r =>
      (r.1.attachNode i r.2.1, r.2.1) := by
  unfold allocRaw
  cases h.allocNodeMem i dtype payload false sys <;> rfl

theorem allocRootRaw_eq_map : h.allocRootRaw i dtype payload sys =
    (h.allocNodeMem i dtype payload true sys).map fun r =>
      let h := (r.1.modifyHead r.2.1 fun hd => { hd with isRoot := true }).attachNode i r.2.1
      (if (h.par i).marking then h.parAddGrayNode i r.2.1 else h, r.2.1) := by
  unfold allocRootRaw
  cases h.allocNodeMem i dtype payload true sys <;> rfl

theorem allocLocal_eq_map {stackId index : ℕ} {s : GcScopeState} :
    h.allocLocal stackId index s dtype payload sys =
      (h.allocNodeMem s.partitionId dtype payload false sys).map fun r =>
        ((r.1.attachNode s.partitionId r.2.1).addNode stackId index s r.2.1, r.2.1) := by
  unfold allocLocal
  rw [allocRaw_eq_map]
  cases h.allocNodeMem s.partitionId dtype payload false sys <;> rfl

/-- What an attempt to allocate a node may answer. -/
structure Admission (h : GcHeap) (i dtype : ℕ) (payload : Payload)
    (r : GcHeap × Except (GcError × Payload) NodePtr) : Prop where
  /-- A failure hands the payload back and leaves the heap as it was. -/
  kept : ∀ e p, r.2 = .error (e, p) → p = payload ∧ r.1 = h
  /-- A partition that does not exist is reported, and only that. -/
  notFound : refusal r.2 = some .partitionNotFound ↔ h.partitions.length ≤ i
  /-- A partition counts as full if the total would pass a limit that is set. -/
  full : i < h.partitions.length → (refusal r.2 = some .partitionFull ↔
    h.memoryLimit ≠ 0 ∧ h.memoryLimit < h.totalMemoryUsed + (h.typeInfo dtype).layoutSize)

/-- All three entry points do something more after a success, and nothing more after a failure. -/
theorem admission_of_map {r : GcHeap × Except (GcError × Payload) NodePtr} {skipArena : Bool}
    {f : GcHeap × NodePtr × ℕ → GcHeap × NodePtr} (hsmall : SmallType (h.typeInfo dtype))
    (hsum : h.totalMemoryUsed + (h.typeInfo dtype).layoutSize < 2 ^ 64)
    (hr : r = h.outcome ((h.allocNodeMem i dtype payload skipArena sys).map f)) :
    h.Admission i dtype payload r := by
  obtain ⟨layout, hlayout⟩ := hsmall.exists_layout
  have hreason : refusal r.2 = refusal (h.allocNodeMem i dtype payload skipArena sys) := by
    rw [hr]
    cases h.allocNodeMem i dtype payload skipArena sys <;> rfl
  have hwrap : asUsize (h.totalMemoryUsed + (h.typeInfo dtype).layoutSize) =
      h.totalMemoryUsed + (h.typeInfo dtype).layoutSize := asUsize_of_lt hsum
  rw [refusal_allocNodeMem skipArena hlayout, hwrap] at hreason
  refine ⟨fun e p herr => ?_, ?_, fun hi => ?_⟩
  · rw [hr] at herr ⊢
    cases halloc : h.allocNodeMem i dtype payload skipArena sys with
    | ok a =>
      rw [halloc] at herr
      cases herr
    | error err =>
      rw [halloc] at herr
      cases herr
      exact ⟨payload_of_refused halloc, rfl⟩
  · rw [hreason]
    constructor
    · intro heq
      by_contra hi
      rw [if_neg hi] at heq
      split at heq
      · cases heq
      · split at heq <;> cases heq
    · exact fun hi => if_pos hi
  · rw [hreason, if_neg (Nat.not_le_of_lt hi), ← Nat.pos_iff_ne_zero]
    constructor
    · intro heq
      by_contra hfull
      rw [if_neg hfull] at heq
      split at heq <;> cases heq
    · exact fun hfull => if_pos hfull

end GcHeap

/-! ### The limit and the bytes in use -/

/-- The system allocator hands out memory in the lower half of the address space only. -/
def UserMemory (h : GcHeap) (op : Op) : Prop := ∀ s, op.handsOut h = some s → s.stop ≤ 2 ^ 63

instance {h : GcHeap} {op : Op} : Decidable (UserMemory h op) :=
  inferInstanceAs (Decidable (∀ _, _ = some _ → _))

open GcHeap in
theorem stop_le_of_reachable {C : GcHeap → Op → Prop} {h : GcHeap} (hr : ReachableWith C h)
    (hC : ∀ g op, C g op → UserMemory g op) : ∀ o s, h.Holds o s → s.stop ≤ 2 ^ 63 := by
  obtain ⟨registry, hr⟩ := hr
  refine (hr.invariant (I := fun h => h.MemInv ∧ ∀ o s, h.Holds o s → s.stop ≤ 2 ^ 63)
    (fun g op g' hg hst => ⟨hg.1.step hst.1, fun o s ho => ?_⟩)
    ⟨MemInv.new registry, fun o s ho => absurd ho (not_holds_new registry o s)⟩).2
  exact (ho.of_step hg.1 hst.1).elim (hg.2 o s) (hC _ _ hst.2 s)

namespace GcHeap

/-- The limit is off, or not exceeded. -/
def LimitKept (h : GcHeap) : Prop := h.memoryLimit = 0 ∨ h.totalMemoryUsed ≤ h.memoryLimit

variable {h h' : GcHeap} {i dtype : ℕ} {payload : Payload} {sys : Option NodePtr} {n : NodePtr}

/-- The two numbers that the host sets. -/
def limits (h : GcHeap) : ℕ × ℕ := (h.memoryLimit, h.gcThreshold)

theorem storeFrame_limits : StoreFrame limits where
  color _ _ _ := rfl
  listed _ _ _ := rfl
  marking _ _ _ := rfl
  gray _ _ _ := rfl
  allMarking _ := rfl
  root _ _ := rfl
  protection _ _ _ := rfl
  stack _ _ _ := rfl
  payload _ _ _ := rfl

theorem limits_initNode {fromArena : Bool} {size : ℕ} :
    (h.initNode i dtype n payload fromArena size).limits = h.limits := by
  obtain ⟨f, hf⟩ := updateMemUse_eq (asI32 size)
  rw [initNode, hf]
  rfl

theorem limits_allocNodeMem {skipArena : Bool} {size : ℕ}
    (hok : h.allocNodeMem i dtype payload skipArena sys = .ok (h', n, size)) :
    h'.limits = h.limits := by
  obtain ⟨-, layout, -, -, hcases⟩ := allocNodeMem_ok hok
  rcases hcases with ⟨A, A', -, -, -, heq⟩ | ⟨-, heq⟩
  · rw [heq, limits_initNode]
    rfl
  · rw [heq, limits_initNode]

/-- An allocation that succeeds has passed the test of the limit. -/
theorem limit_of_allocNodeMem {skipArena : Bool} {size : ℕ}
    (hok : h.allocNodeMem i dtype payload skipArena sys = .ok (h', n, size)) :
    h.memoryLimit = 0 ∨
      asUsize (h.totalMemoryUsed + (h.typeInfo dtype).layoutSize) ≤ h.memoryLimit := by
  unfold allocNodeMem at hok
  split at hok
  · cases hok
  cases hlayout : (h.typeInfo dtype).layout? with
  | none =>
    rw [hlayout] at hok
    cases hok
  | some layout =>
    rw [hlayout] at hok
    dsimp only at hok
    split at hok
    · cases hok
    next hlimit =>
    rw [Layout.size_of_fromSizeAlign hlayout] at hlimit
    omega

theorem limits_allocRaw (hok : h.allocRaw i dtype payload sys = .ok (h', n)) :
    h'.limits = h.limits := by
  obtain ⟨h₁, size, hmem, heq⟩ := allocRaw_ok hok
  rw [heq]
  exact (limits_allocNodeMem hmem :)

theorem limits_allocRootRaw (hok : h.allocRootRaw i dtype payload sys = .ok (h', n)) :
    h'.limits = h.limits := by
  obtain ⟨h₁, h₂, size, hmem, heq₂, heq⟩ := allocRootRaw_ok hok
  have hlimits : h₂.limits = h.limits := by
    rw [heq₂]
    exact (limits_allocNodeMem hmem :)
  rw [heq]
  split
  · exact storeFrame_limits.parAddGrayNode.trans hlimits
  · exact hlimits

theorem limits_allocLocal {stackId index : ℕ} {s : GcScopeState}
    (hok : h.allocLocal stackId index s dtype payload sys = .ok (h', n)) :
    h'.limits = h.limits := by
  obtain ⟨h₁, hraw, heq⟩ := allocLocal_ok hok
  rw [heq]
  exact (storeFrame_limits.addNode s).trans (limits_allocRaw hraw)

theorem limits_twoPhaseSweep : (h.twoPhaseSweep i).1.limits = h.limits := by
  obtain ⟨ps, total, slots, log, heq⟩ := h.twoPhaseSweep_update i
  rw [heq]
  rfl

theorem limits_garbageCollect {bytes : ℕ} (hgc : h.garbageCollect i = some (h', bytes)) :
    h'.limits = h.limits := by
  rcases storeFrame_limits.garbageCollect hgc with ⟨-, rfl, -⟩ | ⟨g, hlimits, hsweep⟩
  · rfl
  · have hswept := limits_twoPhaseSweep (h := g) (i := i)
    rw [hsweep] at hswept
    exact hswept.trans hlimits

theorem limits_removePartition {debug : Bool} {bytes : ℕ} {region : Option ℕ}
    (hok : h.removePartition debug i region = some (h', bytes)) : h'.limits = h.limits := by
  obtain rfl | ⟨-, h₂, link, arena, log, hh₂, -, -, heq⟩ := removePartition_ok hok
  · rfl
  · rw [heq, hh₂]
    exact (storeFrame_limits.clearScopesOf :)

/-- The limits change only when they are set. -/
theorem limits_exec {op : Op} (hexec : exec h op = some h') :
    (∃ headSize headAlign limit, op = .setMemoryLimit headSize headAlign limit) ∨
      (∃ threshold, op = .setGcThreshold threshold) ∨ h'.limits = h.limits := by
  cases op with
  | setMemoryLimit headSize headAlign limit => exact .inl ⟨_, _, _, rfl⟩
  | setGcThreshold threshold => exact .inr (.inl ⟨_, rfl⟩)
  | acquireScopeStack i =>
    obtain ⟨⟨h₁, k⟩, hacq, rfl⟩ := Option.map_eq_some_iff.mp hexec
    obtain ⟨scopes, rfl⟩ := acquireScopeStack_frame hacq
    exact .inr (.inr rfl)
  | releaseScopeStack stackId =>
    cases hexec
    exact .inr (.inr rfl)
  | newScope stackId =>
    obtain ⟨scopes, rfl⟩ := newScope_frame hexec
    exact .inr (.inr rfl)
  | createPartition capacity maxAlloc sys =>
    obtain ⟨⟨h₁, id⟩, hok, rfl⟩ := Option.map_eq_some_iff.mp hexec
    obtain ⟨q, rfl, -⟩ := createPartition_ok hok
    exact .inr (.inr rfl)
  | allocRaw i dtype payload sys =>
    obtain rfl := Option.some.inj hexec
    exact .inr (.inr (afterAlloc_ind (P := fun g => g.limits = h.limits) rfl fun _ _ hok =>
      limits_allocRaw hok))
  | allocRootRaw i dtype payload sys =>
    obtain rfl := Option.some.inj hexec
    exact .inr (.inr (afterAlloc_ind (P := fun g => g.limits = h.limits) rfl fun _ _ hok =>
      limits_allocRootRaw hok))
  | allocLocal stackId index dtype payload sys =>
    obtain ⟨s, -, rfl⟩ := Option.map_eq_some_iff.mp hexec
    exact .inr (.inr (afterAlloc_ind (P := fun g => g.limits = h.limits) rfl fun _ _ hok =>
      limits_allocLocal hok))
  | sweep i =>
    obtain rfl := Option.some.inj hexec
    exact .inr (.inr limits_twoPhaseSweep)
  | garbageCollect i =>
    obtain ⟨⟨h₁, bytes⟩, hgc, rfl⟩ := Option.map_eq_some_iff.mp hexec
    exact .inr (.inr (limits_garbageCollect hgc))
  | downgrade n =>
    obtain ⟨⟨h₁, w⟩, hok, rfl⟩ := Option.map_eq_some_iff.mp hexec
    obtain ⟨slots, rfl⟩ := downgrade_frame hok
    exact .inr (.inr rfl)
  | removePartition i sys =>
    obtain ⟨⟨h₁, bytes⟩, hok, rfl⟩ := Option.map_eq_some_iff.mp hexec
    exact .inr (.inr (limits_removePartition hok))
  | popScope | addNonLocal | protectNode | removeNode | promoteNodeTo | clear | setRootNode | bind
  | withWriteBarrier | removeRefs | mark | markReset =>
    exact .inr (.inr (storeFrame_limits.exec rfl rfl hexec))

/-- The limit changes when it is set, and then it is at least the bytes in use. -/
theorem memoryLimit_exec {op : Op} (hexec : exec h op = some h') :
    h'.memoryLimit = h.memoryLimit ∨
      (∃ headSize headAlign limit, op = .setMemoryLimit headSize headAlign limit) ∧
        h'.totalMemoryUsed = h.totalMemoryUsed ∧ h'.LimitKept := by
  rcases limits_exec hexec with ⟨headSize, headAlign, limit, rfl⟩ | ⟨threshold, rfl⟩ | hlimits
  · cases hexec
    refine .inr ⟨⟨headSize, headAlign, limit, rfl⟩, ?_⟩
    unfold GcHeap.setMemoryLimit
    split
    · exact ⟨rfl, .inl rfl⟩
    · dsimp only
      split <;> exact ⟨rfl, .inr (Nat.le_max_left _ _)⟩
  · cases hexec
    obtain ⟨capped, heq⟩ := h.setGcThreshold_frame threshold
    rw [heq]
    exact .inl rfl
  · exact .inl (congrArg Prod.fst hlimits)

/-- The bytes in use grow in allocations only, and there the limit has been tested. -/
theorem Accounts.total_step {op : Op} (hacc : h.Accounts) (hinv : h.MemInv) (hp : h.Placed)
    (hst : Step h op h') (hsmall : SmallAlloc h op) :
    h'.totalMemoryUsed ≤ h.totalMemoryUsed ∨
      h.memoryLimit = 0 ∨ h'.totalMemoryUsed ≤ h.memoryLimit := by
  have hsweep : ∀ g : GcHeap, g.store = h.store → ∀ i,
      (g.twoPhaseSweep i).1.totalMemoryUsed ≤ h.totalMemoryUsed := by
    intro g hstore i
    rw [← totalMemoryUsed_of_store hstore]
    by_cases hdone : g.CycleDone i
    · obtain ⟨htaken, -⟩ :=
        (hacc.congr hstore).takenAway_twoPhaseSweep (hinv.congr hstore) (hp.congr hstore) hdone
      rw [htaken.total]
      exact Nat.le_add_right _ _
    · rw [twoPhaseSweep_of_not_done hdone]
  cases hst.store with
  | same heq => exact .inl (totalMemoryUsed_of_store heq).le
  | create hop hfresh hok =>
    obtain ⟨q, rfl, -⟩ := createPartition_ok hok
    exact .inl le_rfl
  | @alloc i dtype size payload skipArena sys h₁ n htype hsys hdtype hfresh hok heq =>
    obtain ⟨fromArena, hatt, -⟩ := allocNodeMem_attached hok
    right
    rw [totalMemoryUsed_of_store heq, hatt.total (hsmall dtype htype)]
    exact limit_of_allocNodeMem hok
  | sweep hop hstore heq =>
    rw [heq]
    exact .inl (hsweep _ hstore _)
  | downgrade hop hn hok =>
    left
    obtain ⟨slots, rfl⟩ := downgrade_frame hok
    exact le_rfl
  | remove hop hfresh hok =>
    left
    unfold GcHeap.removePartition at hok
    split at hok
    · next h₁ link hfin =>
      rw [(hacc.teardown hinv hp hfin hok).2]
      exact Nat.le_add_right _ _
    · cases hok
      exact le_rfl

/-- **Every operation** keeps to the limit. -/
theorem LimitKept.step {op : Op} (hkept : h.LimitKept) (hacc : h.Accounts) (hinv : h.MemInv)
    (hp : h.Placed) (hst : Step h op h') (hsmall : SmallAlloc h op) : h'.LimitKept := by
  rcases memoryLimit_exec hst.2 with hlimit | ⟨-, -, hkept'⟩
  · have htotal := hacc.total_step hinv hp hst hsmall
    unfold LimitKept at hkept ⊢
    omega
  · exact hkept'

end GcHeap

open GcHeap in
theorem limitKept_of_reachable {C : GcHeap → Op → Prop} {h : GcHeap} (hr : ReachableWith C h)
    (hC : ∀ g op, C g op → SystemMemory g op ∧ SmallAlloc g op) : h.LimitKept := by
  obtain ⟨registry, hr⟩ := hr
  refine (hr.invariant (I := fun h => (h.MemInv ∧ h.Placed ∧ h.Accounts) ∧ h.LimitKept)
    (fun g op g' hg hst => ?_) ⟨⟨MemInv.new registry, placed_new registry, Accounts.new registry⟩,
      .inl rfl⟩).2
  obtain ⟨⟨hinv, hp, hacc⟩, hkept⟩ := hg
  obtain ⟨hmem, hsmall⟩ := hC _ _ hst.2
  exact ⟨⟨hinv.step hst.1, hp.step hinv hst.1 hmem, hacc.step hinv hp hst.1 hmem hsmall⟩,
    hkept.step hacc hinv hp hst.1 hsmall⟩

/-- What runs do after an allocation is what the attempt leaves behind. -/
theorem afterAlloc_eq (h : GcHeap) (r : Except (GcError × Payload) (GcHeap × NodePtr)) :
    afterAlloc h r = (h.outcome r).1 := by
  cases r <;> rfl

open GcHeap in
/-- **Allocation admission and atomic failure.** In every reached state the limit is off or not
exceeded; and each of the three ways to allocate either succeeds or hands the payload back and
leaves the heap as it was, for a missing partition exactly if there is none, and for a full one
exactly if the limit is on and the node would exceed it. -/
theorem allocation_admission {h : GcHeap}
    (hr : ReachableWith (fun g op => SystemMemory g op ∧ UserMemory g op) h)
    (hsmall : ∀ info ∈ h.nodeDtypes.typeInfoList, SmallType info) :
    (h.memoryLimit = 0 ∨ h.totalMemoryUsed ≤ h.memoryLimit) ∧
    ∀ dtype payload sys, dtype < h.nodeDtypes.typeInfoList.length →
      (∀ i, h.Admission i dtype payload (h.attemptRaw i dtype payload sys)) ∧
      (∀ i, h.Admission i dtype payload (h.attemptRootRaw i dtype payload sys)) ∧
      ∀ stackId index s, h.scopeAt stackId index = some s → h.Admission s.partitionId dtype payload
        (h.attemptLocal stackId index s dtype payload sys) := by
  have hr' := hr.smallAlloc fun info hinfo => (hsmall info hinfo).size
  have hinv : h.MemInv := memInv_of_reachable hr
  have hp : h.Placed := placed_of_reachable hr fun _ _ => And.left
  have hacc : h.Accounts := accounts_of_reachable hr' (fun _ _ hC => hC.1.1) fun _ _ => And.right
  refine ⟨limitKept_of_reachable hr' fun _ _ hC => ⟨hC.1.1, hC.2⟩, ?_⟩
  intro dtype payload sys hdtype
  have htype : SmallType (h.typeInfo dtype) := by
    rw [typeInfo, List.getD_eq_getElem?_getD, List.getElem?_eq_getElem hdtype]
    exact hsmall _ (List.getElem_mem _)
  have hsum : h.totalMemoryUsed + (h.typeInfo dtype).layoutSize < 2 ^ 64 := by
    have hle := hinv.sum_size_le hp (stop_le_of_reachable hr fun _ _ => And.right)
    rw [← bytesOf, ← hacc.total] at hle
    have := htype.size
    omega
  refine ⟨fun i => ?_, fun i => ?_, fun stackId index s _ => ?_⟩
  · exact admission_of_map htype hsum (attemptRaw_eq.trans (congrArg h.outcome allocRaw_eq_map))
  · exact admission_of_map htype hsum
      (attemptRootRaw_eq.trans (congrArg h.outcome allocRootRaw_eq_map))
  · exact admission_of_map htype hsum
      (attemptLocal_eq.trans (congrArg h.outcome allocLocal_eq_map))

/-- A limit set below the bytes in use, and then an allocation of each kind. -/
theorem allocation_admission_full : ∃ (h : GcHeap) (s : GcScopeState),
    h.scopeAt 0 0 = some s ∧ (h.memoryLimit = 0 ∨ h.totalMemoryUsed ≤ h.memoryLimit) ∧
    (refusal (h.attemptRaw 0 0 [1000] (some 3000)).2 = some .partitionFull ∧
      (h.attemptRaw 0 0 [1000] (some 3000)).1 = h) ∧
    refusal (h.attemptRootRaw 1 0 [1000] (some 3000)).2 = some .partitionNotFound ∧
    refusal (h.attemptLocal 0 0 s 0 [1000] (some 3000)).2 = some .partitionFull := by
  obtain ⟨h, hr, hsmall, ⟨hlimit, htotal, hsize⟩, hparts, htypes, hscope⟩ :
      ∃ h, ReachableWith (fun g op => SystemMemory g op ∧ UserMemory g op) h ∧
        (∀ info ∈ h.nodeDtypes.typeInfoList, SmallType info) ∧
        (h.memoryLimit = 64 ∧ h.totalMemoryUsed = 64 ∧ (h.typeInfo 0).layoutSize = 32) ∧
        h.partitions.length = 1 ∧ h.nodeDtypes.typeInfoList.length = 1 ∧
        (h.scopeAt 0 0).map GcScopeState.partitionId = some 0 :=
    exists_of_play (gcTypeTableInternal 24 8 [⟨8, 8, true, none⟩])
      [.createPartition 1024 64 (some 65536), .acquireScopeStack 0, .newScope 0,
        .allocRootRaw 0 0 [] (some 1000), .allocLocal 0 0 0 [1000] none, .setMemoryLimit 24 8 10,
        .allocRaw 0 0 [1000] (some 3000), .garbageCollect 0]
      (by decide +kernel)
  obtain ⟨s, hs, hpid⟩ := Option.map_eq_some_iff.mp hscope
  obtain ⟨hkept, hadmit⟩ := allocation_admission hr hsmall
  obtain ⟨hraw, hroot, hlocal⟩ := hadmit 0 [1000] (some 3000) (by omega)
  have hfull := ((hraw 0).full (by omega)).mpr (by omega)
  refine ⟨h, s, hs, hkept, ⟨hfull, ?_⟩, (hroot 1).notFound.mpr (by omega),
    ((hlocal 0 0 s hs).full (by omega)).mpr (by omega)⟩
  cases hr₁ : (h.attemptRaw 0 0 [1000] (some 3000)).2 with
  | ok n =>
    rw [hr₁] at hfull
    cases hfull
  | error e => exact ((hraw 0).kept e.1 e.2 hr₁).2

end GcLite
