import GcLite.Mem

/-!
# Scopes

`scope.rs`: stacks of scopes, each protecting the nodes in its cache by their `LOCAL` flag.

A scope is named by its stack and its index there. Its handle is dropped by `popScope`, which clears
it first, because that is what dropping the popped `GcScopeState` does.

A scope allocates in the partition its stack was acquired for. It may protect a node of any other
partition, and then it is still its own partition's gray list on which the node is put.

## Main definitions

* `acquireScopeStack`, `releaseScopeStack`, `newScope`, `popScope`
* `allocLocal`, `addNode`, `addNonLocal`, `protectNode`, `protectNodes`
* `removeNode`, `promoteNodeTo`, `clear`
-/

namespace GcLite

/-- `Vec::swap_remove`: the last element takes the place of the removed one. -/
def swapRemove (l : List NodePtr) (pos : ℕ) : List NodePtr :=
  (l.set pos (l.getLastD 0)).dropLast

namespace GcScopeState

/-- Put a node last in the cache, creating the cache if there is none. -/
def push (s : GcScopeState) (n : NodePtr) : GcScopeState :=
  { s with cache := some (s.cache.getD [] ++ [n]) }

/-- Where a node is in the cache. -/
def position (s : GcScopeState) (n : NodePtr) : Option ℕ :=
  s.cache.bind fun cache => if n ∈ cache then some (cache.idxOf n) else none

/-- `Vec::swap_remove` on the cache. -/
def swapRemove (s : GcScopeState) (pos : ℕ) : GcScopeState :=
  { s with cache := s.cache.map fun cache => GcLite.swapRemove cache pos }

end GcScopeState

namespace GcHeap

/-! ### Stacks -/

/-- A scope stack; an idle one past the end. -/
def stack (h : GcHeap) (stackId : ℕ) : ScopeStack := h.scopeStacks.getD stackId default

/-- Change one scope stack. -/
def modifyStack (h : GcHeap) (stackId : ℕ) (f : ScopeStack → ScopeStack) : GcHeap :=
  { h with scopeStacks := h.scopeStacks.modify stackId f }

/-- The scope at an index of a stack. -/
def scopeAt (h : GcHeap) (stackId index : ℕ) : Option GcScopeState := (h.stack stackId).list[index]?

/-- Change one scope. -/
def modifyScope (h : GcHeap) (stackId index : ℕ) (f : GcScopeState → GcScopeState) : GcHeap :=
  h.modifyStack stackId fun st => { st with list := st.list.modify index f }

/-- Find an idle scope stack, or create one; `none` is the panic when the ids run out. -/
def acquireScopeStack (h : GcHeap) (i : ℕ) : Option (GcHeap × ℕ) :=
  let stackId := h.scopeStacks.findIdx fun st => st.partition.isNone
  if stackId < h.scopeStacks.length then
    some (h.modifyStack stackId fun st => { st with partition := some i }, stackId)
  else if stackId < 2 ^ 16 then
    some ({ h with scopeStacks := h.scopeStacks ++ [⟨[], some i⟩] }, stackId)
  else none

/-- `release_scope_stack`: the stack becomes idle. -/
def releaseScopeStack (h : GcHeap) (stackId : ℕ) : GcHeap :=
  h.modifyStack stackId fun st => { st with partition := none }

/-- Push a new scope; `none` is the panic on a stack that is too deep or not acquired. -/
def newScope (h : GcHeap) (stackId : ℕ) : Option GcHeap :=
  if (h.stack stackId).list.length ≥ 2 ^ 32 - 1 then none
  else (h.stack stackId).partition.map fun i =>
    h.modifyStack stackId fun st => { st with list := st.list ++ [⟨i, none⟩] }

theorem acquireScopeStack_frame {h h' : GcHeap} {i k : ℕ}
    (hok : h.acquireScopeStack i = some (h', k)) :
    ∃ scopes, h' = { h with scopeStacks := scopes } := by
  rw [acquireScopeStack] at hok
  split at hok
  · cases hok
    exact ⟨_, rfl⟩
  · split at hok <;> cases hok
    exact ⟨_, rfl⟩

theorem newScope_frame {h h' : GcHeap} {stackId : ℕ} (hok : h.newScope stackId = some h') :
    ∃ scopes, h' = { h with scopeStacks := scopes } := by
  rw [newScope] at hok
  split at hok
  · cases hok
  · obtain ⟨i, -, rfl⟩ := Option.map_eq_some_iff.mp hok
    exact ⟨_, rfl⟩

/-! ### One scope -/

/-- Protect a node: set its `LOCAL` flag, gray it in the scope's partition if that is marking, and
put it in the cache. -/
def addNode (h : GcHeap) (stackId index : ℕ) (s : GcScopeState) (n : NodePtr) : GcHeap :=
  let h := h.modifyHead n fun hd => { hd with isLocal := true }
  let h := if s.partitionId < h.partitions.length ∧ (h.par s.partitionId).marking then
    h.parAddGrayNode s.partitionId n else h
  h.modifyScope stackId index fun s => s.push n

/-- Allocate a node that the scope protects. -/
def allocLocal (h : GcHeap) (stackId index : ℕ) (s : GcScopeState) (dtype : ℕ) (payload : Payload)
    (sys : Option NodePtr) : Except (GcError × Payload) (GcHeap × NodePtr) := do
  let (h, n) ← h.allocRaw s.partitionId dtype payload sys
  return (h.addNode stackId index s n, n)

theorem allocLocal_ok {h h' : GcHeap} {stackId index dtype : ℕ} {s : GcScopeState}
    {payload : Payload} {sys : Option NodePtr} {n : NodePtr}
    (hok : h.allocLocal stackId index s dtype payload sys = .ok (h', n)) : ∃ h₁,
      h.allocRaw s.partitionId dtype payload sys = .ok (h₁, n) ∧
      h' = h₁.addNode stackId index s n := by
  unfold allocLocal at hok
  cases hr : h.allocRaw s.partitionId dtype payload sys with
  | error e =>
    rw [hr] at hok
    cases hok
  | ok r =>
    obtain ⟨h₁, m⟩ := r
    rw [hr] at hok
    obtain ⟨rfl, rfl⟩ := Prod.mk.inj (Except.ok.inj hok)
    exact ⟨h₁, rfl, rfl⟩

/-- Protect a node that is neither root nor local; otherwise nothing happens. -/
def addNonLocal (h : GcHeap) (stackId index : ℕ) (s : GcScopeState) (n : NodePtr) : GcHeap :=
  if (h.head n).isRootOrLocal then h else h.addNode stackId index s n

/-- Take the `LOCAL` flag from a node. -/
def clearLocalFlag (h : GcHeap) (n : NodePtr) : GcHeap :=
  h.modifyHead n fun hd => { hd with isLocal := false }

/-- Stop protecting a node, if it is in this scope's cache. -/
def removeNode (h : GcHeap) (stackId index : ℕ) (s : GcScopeState) (n : NodePtr) : GcHeap :=
  match s.position n with
  | some pos => (h.modifyScope stackId index fun s => s.swapRemove pos).clearLocalFlag n
  | none => h

/-- Move a node from this scope's cache to another's, which may be the same one. -/
def promoteNodeTo (h : GcHeap) (stackId index : ℕ) (s : GcScopeState) (n : NodePtr)
    (targetStack targetIndex : ℕ) : GcHeap :=
  match s.position n with
  | some pos => (h.modifyScope stackId index fun s => s.swapRemove pos).modifyScope targetStack
      targetIndex fun s => s.push n
  | none => h

/-- Unprotect everything in the scope. -/
def clear (h : GcHeap) (stackId index : ℕ) (s : GcScopeState) : GcHeap :=
  (s.cache.getD []).foldl clearLocalFlag
    (h.modifyScope stackId index fun s => { s with cache := none })

/-- Drop the handle of the last scope of a stack. -/
def popScope (h : GcHeap) (stackId : ℕ) : GcHeap :=
  match (h.stack stackId).list.getLast? with
  | some s => (h.clear stackId ((h.stack stackId).list.length - 1) s).modifyStack stackId fun st =>
      { st with list := st.list.dropLast }
  | none => h

/-- Protect a node by the current scope of a stack, if there is one. -/
def protectNode (h : GcHeap) (stackId : ℕ) (n : NodePtr) : GcHeap :=
  match (h.stack stackId).list.getLast? with
  | some s => h.addNonLocal stackId ((h.stack stackId).list.length - 1) s n
  | none => h

/-- Protect several nodes by the current scope of a stack, if there is one. -/
def protectNodes (h : GcHeap) (stackId : ℕ) (nodes : List NodePtr) : GcHeap :=
  match (h.stack stackId).list.getLast? with
  | some s =>
    let index := (h.stack stackId).list.length - 1
    nodes.foldl (fun h n => h.addNonLocal stackId index s n) h
  | none => h

end GcHeap

end GcLite
