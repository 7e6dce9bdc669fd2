import GcLite.Barrier
import GcLite.Library.Run
import GcLite.Teardown

/-!
# Runs of the heap

One operation of the public interface after another, on one heap. `exec` is what an operation does;
`Op.Pre` is what its caller and the system allocator promise, and nothing else: that the nodes
passed in are live, that partitions, stacks and scopes exist, and that memory handed out by the
system overlaps nothing that is in use.

A result about a narrower kind of run adds a condition on its steps, see `StepWith`.

The host gives a payload as its list of references. A payload write may keep any reference that was
there before and may add references to live nodes; what each of the barriers is for is the added
ones.

## Main definitions

* `Op`, `exec` — an operation and what it does
* `GcHeap.SystemFresh`, `GcHeap.RegionFresh` — the contract of the system allocator
* `Op.Pre`, `Step` — the contract of an operation, and one step of a run
* `StepWith`, `ReachableWith` — steps that meet an extra condition, and what runs of them lead to
* `play` — run a fixed list of operations, contracts checked
-/

namespace GcLite

open Transition

/-- An operation with its arguments and the answer the system allocator gives it. -/
inductive Op
  /-- Create a partition. -/
  | createPartition (arenaCapacity arenaMaxAlloc : ℕ) (sys : Option ℕ)
  /-- Allocate a node. -/
  | allocRaw (i dtype : ℕ) (payload : Payload) (sys : Option NodePtr)
  /-- Allocate a root. -/
  | allocRootRaw (i dtype : ℕ) (payload : Payload) (sys : Option NodePtr)
  /-- Associate an idle scope stack with a partition. -/
  | acquireScopeStack (i : ℕ)
  /-- Make a scope stack idle. -/
  | releaseScopeStack (stackId : ℕ)
  /-- Push a scope. -/
  | newScope (stackId : ℕ)
  /-- Pop the current scope. -/
  | popScope (stackId : ℕ)
  /-- Allocate a node in a scope. -/
  | allocLocal (stackId index dtype : ℕ) (payload : Payload) (sys : Option NodePtr)
  /-- Put a node into a scope, unless it is a root or local. -/
  | addNonLocal (stackId index : ℕ) (n : NodePtr)
  /-- Put a node into the current scope. -/
  | protectNode (stackId : ℕ) (n : NodePtr)
  /-- Take a node out of a scope. -/
  | removeNode (stackId index : ℕ) (n : NodePtr)
  /-- Move a node from one scope to another. -/
  | promoteNodeTo (stackId index : ℕ) (n : NodePtr) (targetStack targetIndex : ℕ)
  /-- Take all nodes out of a scope. -/
  | clear (stackId index : ℕ)
  /-- Make a node a root. -/
  | setRootNode (n : NodePtr)
  /-- Write a payload that adds a reference to `slave`, and call `bind`. -/
  | bind (master slave : NodePtr) (payload : Payload)
  /-- Write a payload through the barrier. -/
  | withWriteBarrier (n : NodePtr) (payload : Payload)
  /-- Write a payload that adds nothing; no barrier is needed. -/
  | removeRefs (n : NodePtr) (payload : Payload)
  /-- One slice of marking. -/
  | mark (i maxSteps : ℕ)
  /-- Abandon a marking cycle. -/
  | markReset (i : ℕ)
  /-- The three steps of a sweep. -/
  | sweep (i : ℕ)
  /-- Collect at once. -/
  | garbageCollect (i : ℕ)
  /-- Take a weak handle. -/
  | downgrade (n : NodePtr)
  /-- Tear a partition down. -/
  | removePartition (i : ℕ) (sys : Option ℕ)
  /-- Set the memory limit. -/
  | setMemoryLimit (headSize headAlign limit : ℕ)
  /-- Set the threshold. -/
  | setGcThreshold (threshold : ℕ)

/-- The heap after an allocation, which a failure leaves as it was. -/
def afterAlloc (h : GcHeap) (r : Except (GcError × Payload) (GcHeap × NodePtr)) : GcHeap :=
  match r with
  | .ok (h', _) => h'
  | .error _ => h

/-- What holds before an allocation, and of the heap it leads to if it succeeds, holds after it. -/
theorem afterAlloc_ind {P : GcHeap → Prop} {h : GcHeap}
    {r : Except (GcError × Payload) (GcHeap × NodePtr)} (hfail : P h)
    (hok : ∀ h' n, r = .ok (h', n) → P h') : P (afterAlloc h r) := by
  cases r with
  | error e => exact hfail
  | ok r => exact hok r.1 r.2 rfl

/-- What an operation does; `none` when it panics or does not end. -/
def exec (h : GcHeap) : Op → Option GcHeap
  | .createPartition capacity maxAlloc sys => (h.createPartition capacity maxAlloc sys).map (·.1)
  | .allocRaw i dtype payload sys => some (afterAlloc h (h.allocRaw i dtype payload sys))
  | .allocRootRaw i dtype payload sys => some (afterAlloc h (h.allocRootRaw i dtype payload sys))
  | .acquireScopeStack i => (h.acquireScopeStack i).map (·.1)
  | .releaseScopeStack stackId => some (h.releaseScopeStack stackId)
  | .newScope stackId => h.newScope stackId
  | .popScope stackId => some (h.popScope stackId)
  | .allocLocal stackId index dtype payload sys => (h.scopeAt stackId index).map fun s =>
      afterAlloc h (h.allocLocal stackId index s dtype payload sys)
  | .addNonLocal stackId index n => (h.scopeAt stackId index).map fun s =>
      h.addNonLocal stackId index s n
  | .protectNode stackId n => some (h.protectNode stackId n)
  | .removeNode stackId index n => (h.scopeAt stackId index).map fun s =>
      h.removeNode stackId index s n
  | .promoteNodeTo stackId index n targetStack targetIndex => (h.scopeAt stackId index).map fun s =>
      h.promoteNodeTo stackId index s n targetStack targetIndex
  | .clear stackId index => (h.scopeAt stackId index).map fun s => h.clear stackId index s
  | .setRootNode n => some (h.setRootNode n)
  | .bind master slave payload => some ((h.setRefs master payload).bind master slave)
  | .withWriteBarrier n payload => some (h.withWriteBarrier n fun _ => payload)
  | .removeRefs n payload => some (h.setRefs n payload)
  | .mark i maxSteps => some (h.mark i maxSteps).1
  | .markReset i => some (h.markReset i)
  | .sweep i => some (h.twoPhaseSweep i).1
  | .garbageCollect i => (h.garbageCollect i).map (·.1)
  | .downgrade n => (h.downgrade n).map (·.1)
  | .removePartition i sys => (h.removePartition false i sys).map (·.1)
  | .setMemoryLimit headSize headAlign limit => some (h.setMemoryLimit headSize headAlign limit)
  | .setGcThreshold threshold => some (h.setGcThreshold threshold)

/-- The operations on scope stacks and limits. -/
def Op.isBookkeeping : Op → Bool
  | .acquireScopeStack _ | .releaseScopeStack _ | .newScope _ => true
  | .setMemoryLimit _ _ _ | .setGcThreshold _ => true
  | _ => false

/-- They change nothing else. -/
theorem exec_bookkeeping {h h' : GcHeap} {op : Op} (hop : op.isBookkeeping = true)
    (hexec : exec h op = some h') : ∃ limit threshold scopes, h' = { h with
      memoryLimit := limit, gcThreshold := threshold, scopeStacks := scopes } := by
  cases op with
  | acquireScopeStack i =>
    obtain ⟨⟨h₁, k⟩, hacq, rfl⟩ := Option.map_eq_some_iff.mp hexec
    obtain ⟨scopes, rfl⟩ := GcHeap.acquireScopeStack_frame hacq
    exact ⟨_, _, _, rfl⟩
  | releaseScopeStack stackId =>
    cases hexec
    exact ⟨_, _, _, rfl⟩
  | newScope stackId =>
    obtain ⟨scopes, rfl⟩ := GcHeap.newScope_frame hexec
    exact ⟨_, _, _, rfl⟩
  | setMemoryLimit headSize headAlign limit =>
    cases hexec
    obtain ⟨applied, threshold, heq⟩ := h.setMemoryLimit_frame headSize headAlign limit
    exact ⟨_, _, _, heq⟩
  | setGcThreshold threshold =>
    cases hexec
    obtain ⟨capped, heq⟩ := h.setGcThreshold_frame threshold
    exact ⟨_, _, _, heq⟩
  | _ => cases hop

namespace GcHeap

/-- The system hands out a node block at `n` only when no live node is there and no arena has the
address. -/
def SystemFresh (h : GcHeap) (n : NodePtr) : Prop :=
  ¬ h.Live n ∧ ∀ i A, (h.par i).arena = some A → n < A.base ∨ A.base + A.capacity ≤ n

/-- The system hands out a region for an arena only when it overlaps no arena and no live node lies
in it, apart from those that have been `freed` by then. -/
def RegionFresh (h : GcHeap) (freed : List NodePtr) (base capacity : ℕ) : Prop :=
  (∀ n, h.Live n → n ∉ freed → n < base ∨ base + capacity ≤ n) ∧
    ∀ i A, (h.par i).arena = some A → A.base + A.capacity ≤ base ∨ base + capacity ≤ A.base

end GcHeap

/-- What the caller and the system allocator promise. -/
def Op.Pre (h : GcHeap) : Op → Prop
  | .createPartition capacity _ sys => ∀ base, sys = some base → h.RegionFresh [] base capacity
  | .allocRaw i dtype payload sys => i < h.partitions.length ∧
      dtype < h.nodeDtypes.typeInfoList.length ∧ (∀ c ∈ payload, h.Live c) ∧
      ∀ n, sys = some n → h.SystemFresh n
  | .allocRootRaw i dtype payload sys => i < h.partitions.length ∧
      dtype < h.nodeDtypes.typeInfoList.length ∧ (∀ c ∈ payload, h.Live c) ∧
      ∀ n, sys = some n → h.SystemFresh n
  | .acquireScopeStack i => i < h.partitions.length
  | .releaseScopeStack stackId => (h.stack stackId).list = []
  | .newScope _ => True
  | .popScope _ => True
  | .allocLocal _ _ dtype payload sys => dtype < h.nodeDtypes.typeInfoList.length ∧
      (∀ c ∈ payload, h.Live c) ∧ ∀ n, sys = some n → h.SystemFresh n
  | .addNonLocal _ _ n => h.Live n
  | .protectNode _ n => h.Live n
  | .removeNode _ _ n => h.Live n
  | .promoteNodeTo _ _ n targetStack targetIndex =>
      h.Live n ∧ (h.scopeAt targetStack targetIndex).isSome
  | .clear _ _ => True
  | .setRootNode n => h.Live n
  | .bind master slave payload => h.Live master ∧ h.Live slave ∧
      ∀ c ∈ payload, c ∈ h.refs master ∨ c = slave
  | .withWriteBarrier n payload => h.Live n ∧ ∀ c ∈ payload, c ∈ h.refs n ∨ h.Live c
  | .removeRefs n payload => h.Live n ∧ ∀ c ∈ payload, c ∈ h.refs n
  | .mark i _ => i < h.partitions.length
  | .markReset i => i < h.partitions.length
  | .sweep _ => True
  | .garbageCollect _ => True
  | .downgrade n => h.Live n
  | .removePartition i sys => ∀ base, sys = some base →
      h.RegionFresh (h.par i).nodes base (h.par i).arenaCapacity
  | .setMemoryLimit _ _ _ => True
  | .setGcThreshold _ => True

/-- One step of a run: the operation's contract holds and it ends. -/
def Step (h : GcHeap) (op : Op) (h' : GcHeap) : Prop := op.Pre h ∧ exec h op = some h'

/-- A step that meets an extra condition. -/
def StepWith (C : GcHeap → Op → Prop) (h : GcHeap) (op : Op) (h' : GcHeap) : Prop :=
  Step h op h' ∧ C h op

theorem Step.functional {h g g' : GcHeap} {op : Op} (hst : Step h op g) (hst' : Step h op g') :
    g = g' := Option.some.inj (hst.2.symm.trans hst'.2)

/-- Some run of steps that meet the condition leads from a new heap to this one. -/
def ReachableWith (C : GcHeap → Op → Prop) (h : GcHeap) : Prop :=
  ∃ registry, Reaches (StepWith C) (GcHeap.new registry) h

/-- Some run of the heap leads to it. -/
abbrev Reachable (h : GcHeap) : Prop := ReachableWith (fun _ _ => True) h

theorem ReachableWith.mono {C D : GcHeap → Op → Prop} {h : GcHeap} (hCD : ∀ g op, C g op → D g op)
    (hr : ReachableWith C h) : ReachableWith D h := by
  obtain ⟨registry, hr⟩ := hr
  exact ⟨registry, hr.mono fun _ _ _ hst => ⟨hst.1, hCD _ _ hst.2⟩⟩

/-! ### Scripts

The contracts are decidable, so that a fixed list of operations can be run and found to keep to
them.
-/

instance decidableForallSome {α : Type*} {p : α → Prop} [DecidablePred p] :
    (o : Option α) → Decidable (∀ a, o = some a → p a)
  | none => isTrue fun _ h => nomatch h
  | some a => decidable_of_iff (p a) (by simp)

namespace GcHeap

variable {h : GcHeap} {n : NodePtr} {freed : List NodePtr} {base capacity : ℕ}

theorem forall_arena_iff {p : GcArena → Prop} :
    (∀ i A, (h.par i).arena = some A → p A) ↔ ∀ q ∈ h.partitions, ∀ A, q.arena = some A → p A := by
  constructor
  · intro hall q hq A hA
    obtain ⟨i, hi, rfl⟩ := List.getElem_of_mem hq
    exact hall i A (by simpa [par, hi] using hA)
  · intro hall i A hA
    by_cases hi : i < h.partitions.length
    · exact hall h.partitions[i] (List.getElem_mem hi) A (by simpa [par, hi] using hA)
    · rw [par_of_length_le (Nat.le_of_not_lt hi)] at hA
      cases hA

instance : Decidable (h.SystemFresh n) :=
  decidable_of_iff (¬ h.Live n ∧ ∀ q ∈ h.partitions, ∀ A, q.arena = some A →
    n < A.base ∨ A.base + A.capacity ≤ n) (by rw [SystemFresh, forall_arena_iff])

instance : Decidable (h.RegionFresh freed base capacity) :=
  decidable_of_iff
    ((∀ q ∈ h.partitions, ∀ n ∈ q.nodes, n ∉ freed → n < base ∨ base + capacity ≤ n) ∧
    ∀ q ∈ h.partitions, ∀ A, q.arena = some A →
      A.base + A.capacity ≤ base ∨ base + capacity ≤ A.base) <| by
    rw [RegionFresh, forall_arena_iff]
    refine and_congr_left fun _ => ⟨fun hall n hn => ?_, fun hall q hq n hn => ?_⟩
    · obtain ⟨q, hq, hn⟩ := live_iff.mp hn
      exact hall q hq n hn
    · exact hall n (live_iff.mpr ⟨q, hq, hn⟩)

end GcHeap

instance {h : GcHeap} {op : Op} : Decidable (op.Pre h) := by
  cases op <;> dsimp only [Op.Pre] <;> infer_instance

/-- Carry out a script; `none` if a contract or the condition fails on the way, or an operation
panics. -/
def play (C : GcHeap → Op → Prop) [∀ h op, Decidable (C h op)] : List Op → GcHeap → Option GcHeap
  | [], h => some h
  | op :: ops, h => if op.Pre h ∧ C h op then (exec h op).bind (play C ops) else none

/-- A script that is carried out is a run. -/
theorem run_of_play {C : GcHeap → Op → Prop} [∀ h op, Decidable (C h op)] {g h : GcHeap}
    {ops : List Op} (hplay : play C ops g = some h) : Run (StepWith C) g ops h := by
  induction ops generalizing g with
  | nil => exact run_nil.mpr (Option.some.inj hplay).symm
  | cons op ops ih =>
    rw [play] at hplay
    split at hplay
    · next hop =>
      obtain ⟨g', hexec, hplay⟩ := Option.bind_eq_some_iff.mp hplay
      exact .cons ⟨⟨hop.1, hexec⟩, hop.2⟩ (ih hplay)
    · cases hplay

/-- What a script leads to is reachable. -/
theorem reachableWith_of_play {C : GcHeap → Op → Prop} [∀ h op, Decidable (C h op)]
    {registry : GcTypeRegistry} {ops : List Op} {h : GcHeap}
    (hplay : play C ops (GcHeap.new registry) = some h) : ReachableWith C h :=
  ⟨registry, ops, run_of_play hplay⟩

/-- Some reachable heap is as a script makes it. -/
theorem exists_of_play {C : GcHeap → Op → Prop} [∀ h op, Decidable (C h op)] {P : GcHeap → Prop}
    [DecidablePred P] (registry : GcTypeRegistry) (ops : List Op)
    (hplay : (play C ops (GcHeap.new registry)).any fun h => P h) :
    ∃ h, ReachableWith C h ∧ P h := by
  obtain ⟨h, hh, hP⟩ := Option.any_eq_true _ _ |>.mp hplay
  exact ⟨h, reachableWith_of_play hh, of_decide_eq_true hP⟩

end GcLite
