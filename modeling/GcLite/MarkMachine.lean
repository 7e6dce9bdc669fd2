import GcLite.Collect
import GcLite.MemInvariant

/-!
# The marker as a machine

The changes to the marker's state are the steps of a machine of their own, and every operation of
the heap is a short run of it. So what the machine's steps keep, the operations keep.

The machine says what happens to colours, lists, chains and flags. Which operation may cause which
step, and with what arguments, is kept apart in `Emits`, because the conditions under which a step
is harmless are conditions on the operations.

## Main definitions

* `MarkEvent`, `MarkState.Trans` — the machine
* `MarkState.Admits` — the conditions under which its steps keep the invariant
* `Emits` — the steps that an operation may cause
* `Op.operands`, `OperandStep` — the same, with what the operation may protect

## Main results

* `Trans.wf`, `Trans.inv` — what every step keeps, and what the admitted ones keep
* `Step.events`, `Step.operandEvents` — an operation is a run of the machine
-/

namespace GcLite

open Transition

/-- A change to the marker's state. -/
inductive MarkEvent
  /-- A new partition. -/
  | create
  /-- A new node. -/
  | alloc (i : ℕ) (n : NodePtr) (payload : Payload)
  /-- A node is made a root or local, and listed where a cycle is going on. -/
  | protect (i : ℕ) (n : NodePtr)
  /-- Nodes stop being local. -/
  | unprotect
  /-- A payload is written, and `bind` called. -/
  | bind (m c : NodePtr) (payload : Payload)
  /-- A payload is written through the barrier. -/
  | barrier (n : NodePtr) (payload : Payload)
  /-- A payload is written that adds nothing. -/
  | removeRefs (n : NodePtr) (payload : Payload)
  /-- A cycle begins. -/
  | prepare (i : ℕ)
  /-- One turn of the marking loop. -/
  | entry (i : ℕ) (a : MarkAction)
  /-- A cycle is abandoned. -/
  | reset (i : ℕ)
  /-- The white nodes leave the chain. -/
  | unlink (i : ℕ)
  /-- All nodes leave the chain, and the list is emptied. -/
  | drop (i : ℕ)

namespace MarkState

variable {s t : MarkState} {e : MarkEvent} {i : ℕ} {n : NodePtr}

/-- What the changes do, and what is true of the state when they happen. -/
inductive Trans : MarkState → MarkEvent → MarkState → Prop
  | create {s : MarkState} : Trans s .create { s with count := s.count + 1 }
  | alloc {s : MarkState} {i : ℕ} {n : NodePtr} {payload : Payload} (hi : i < s.count)
      (hn : ¬ s.Live n) (hpay : ∀ c ∈ payload, s.Live c) :
      Trans s (.alloc i n payload) (s.alloc i n payload)
  | protect {s : MarkState} {i : ℕ} {n : NodePtr} (hn : s.Live n) :
      Trans s (.protect i n) (s.protect i n)
  | unprotect {s t : MarkState} (h : Unprotects s t) : Trans s .unprotect t
  | bind {s : MarkState} {m c : NodePtr} {payload : Payload} (hm : s.Live m) (hc : s.Live c)
      (hpay : ∀ d ∈ payload, d ∈ s.refs m ∨ d = c) :
      Trans s (.bind m c payload) ((s.setRefs m payload).bind m c)
  | barrier {s : MarkState} {n : NodePtr} {payload : Payload} (hn : s.Live n)
      (hpay : ∀ c ∈ payload, c ∈ s.refs n ∨ s.Live c) :
      Trans s (.barrier n payload) ((s.regray n).setRefs n payload)
  | removeRefs {s : MarkState} {n : NodePtr} {payload : Payload} (hn : s.Live n)
      (hpay : ∀ c ∈ payload, c ∈ s.refs n) : Trans s (.removeRefs n payload) (s.setRefs n payload)
  | prepare {s t : MarkState} {i : ℕ} (hi : i < s.count) (hm : s.marking i = false)
      (hp : Prepared s t) : Trans s (.prepare i) t
  | entry {s t : MarkState} {i : ℕ} {a : MarkAction} (h : MarkStep i s a t) : Trans s (.entry i a) t
  | reset {s : MarkState} {i : ℕ} (hi : i < s.count) : Trans s (.reset i) (s.reset i)
  | unlink {s : MarkState} {i : ℕ} (hi : i < s.count) (hm : s.marking i = true)
      (hg : s.gray i = []) : Trans s (.unlink i) (s.unlink i)
  | drop {s : MarkState} {i : ℕ} : Trans s (.drop i) (s.drop i)

theorem Wf.create (hs : s.Wf) : Wf { s with count := s.count + 1 } :=
  ⟨⟨fun j hj => hs.range j (Nat.le_of_succ_le hj), hs.own⟩, hs.listed_mem⟩

theorem Inv.create (h : s.Inv) : Inv { s with count := s.count + 1 } :=
  { h.toWf.create with
    entry := h.entry, gray_mem := h.gray_mem, prot_marked := h.prot_marked, closed := h.closed,
    refs_live := h.refs_live }

/-- Every step keeps the well-formedness of the state, unless it protects a node through a foreign
partition that is marking. -/
theorem Trans.wf (ht : Trans s e t) (hs : s.Wf)
    (hok : ∀ i n, e = .protect i n → s.Harmless i n) : t.Wf := by
  cases ht with
  | create => exact hs.create
  | alloc hi hn _ => exact hs.alloc hi hn
  | protect hn => exact hs.protect hn (hok _ _ rfl)
  | unprotect h => exact hs.shades (.unprotects h)
  | bind hm hc _ =>
    rw [bind_setRefs]
    exact (hs.shades (.bind hs hc)).setRefs _ _
  | barrier hn _ => exact (hs.shades (.regray hs hn)).setRefs _ _
  | removeRefs _ _ => exact hs.setRefs _ _
  | prepare _ _ hp => exact hs.prepared hp
  | entry h => exact h.wf hs
  | reset _ => exact hs.reset _
  | unlink _ _ _ => exact hs.unlink _
  | drop => exact hs.drop _

/-- The steps that the marking invariant survives. -/
def Admits (s : MarkState) : MarkEvent → Prop
  | .protect i n => s.Harmless i n
  | .prepare _ => ∀ j, s.marking j = false → s.Startable j
  | .unlink i => ∀ j, j ≠ i → ∀ m ∈ s.chain j, ∀ c ∈ s.refs m, c ∈ s.chain i → s.garbage c = false
  | .drop i => ∀ j, j ≠ i → ∀ m ∈ s.chain j, ∀ c ∈ s.refs m, c ∉ s.chain i
  | _ => True

/-- **Every admitted step keeps the marking invariant.** -/
theorem Trans.inv (ht : Trans s e t) (hs : s.Inv) (hok : s.Admits e) : t.Inv := by
  cases ht with
  | create => exact hs.create
  | alloc hi hn hpay => exact hs.alloc hi hn hpay
  | protect hn => exact hs.protect hn hok
  | unprotect h => exact hs.shades (.unprotects h)
  | bind hm hc hpay => exact hs.setRefs_bind hc hpay
  | barrier hn hpay => exact hs.barrier hn hpay
  | removeRefs _ hpay => exact hs.setRefs fun c hc => .inl (hpay c hc)
  | prepare _ _ hp => exact hs.prepared hp hok
  | entry h => exact h.inv hs
  | reset _ => exact hs.reset _
  | unlink _ hm hg => exact hs.unlink hm hg hok
  | drop => exact hs.drop _ hok

end MarkState

/-! ### What an operation causes -/

/-- The partition an operation allocates in, and the payload. -/
def Op.allocates (h : GcHeap) : Op → Option (ℕ × Payload)
  | .allocRaw i _ payload _ => some (i, payload)
  | .allocRootRaw i _ payload _ => some (i, payload)
  | .allocLocal stackId index _ payload _ =>
      (h.scopeAt stackId index).map fun s => (s.partitionId, payload)
  | _ => none

/-- The partition through which an operation protects an old node, and the node. -/
def Op.protects (h : GcHeap) : Op → Option (ℕ × NodePtr)
  | .addNonLocal stackId index n => (h.scopeAt stackId index).map fun s => (s.partitionId, n)
  | .protectNode stackId n => (h.stack stackId).list.getLast?.map fun s => (s.partitionId, n)
  | _ => none

/-- The partition an operation marks. -/
def Op.marks : Op → Option ℕ
  | .mark i _ | .garbageCollect i => some i
  | _ => none

/-- The events an operation may cause, when it begins in the heap `h` and the marker's state is `s`
by now. -/
inductive Emits (h : GcHeap) (op : Op) (s : MarkState) : MarkEvent → Prop
  | create : Emits h op s .create
  | alloc {i : ℕ} {n : NodePtr} {payload : Payload} (hop : op.allocates h = some (i, payload))
      (hs : s = h.view) : Emits h op s (.alloc i n payload)
  /-- Roots, and new nodes of a scope. -/
  | protect_own {n : NodePtr} : Emits h op s (.protect (s.pid n) n)
  /-- Old nodes that are added to a scope. -/
  | protect {i : ℕ} {n : NodePtr} (hop : op.protects h = some (i, n)) (hs : s = h.view)
      (hn : s.prot n = false) : Emits h op s (.protect i n)
  | unprotect : Emits h op s .unprotect
  | bind {m c : NodePtr} {payload : Payload} (hop : op = .bind m c payload) (hs : s = h.view) :
      Emits h op s (.bind m c payload)
  | barrier {n : NodePtr} {payload : Payload} (hop : op = .withWriteBarrier n payload)
      (hs : s = h.view) : Emits h op s (.barrier n payload)
  | removeRefs {n : NodePtr} {payload : Payload} (hop : op = .removeRefs n payload)
      (hs : s = h.view) : Emits h op s (.removeRefs n payload)
  | prepare {i : ℕ} (hop : op.marks = some i) (hs : s = h.view) : Emits h op s (.prepare i)
  | entry {i : ℕ} {a : MarkAction} (hop : op.marks = some i) : Emits h op s (.entry i a)
  | reset {i : ℕ} (hop : op = .markReset i) : Emits h op s (.reset i)
  | unlink {i : ℕ} (hop : (op = .sweep i ∧ s = h.view) ∨ op = .garbageCollect i) :
      Emits h op s (.unlink i)
  | drop {i : ℕ} {sys : Option ℕ} (hop : op = .removePartition i sys) : Emits h op s (.drop i)

/-- A step of the machine that the operation may cause. -/
def EmitStep (h : GcHeap) (op : Op) (s : MarkState) (e : MarkEvent) (t : MarkState) : Prop :=
  MarkState.Trans s e t ∧ Emits h op s e

/-- The nodes an operation is handed: it protects them, or writes references to them. -/
def Op.operands : Op → List NodePtr
  | .allocRaw _ _ payload _ | .allocRootRaw _ _ payload _ | .allocLocal _ _ _ payload _ => payload
  | .addNonLocal _ _ n | .protectNode _ n | .setRootNode n => [n]
  | .bind _ slave _ => [slave]
  | .withWriteBarrier _ payload => payload
  | _ => []

/-- Apart from new nodes, an event protects only what the operation is handed. -/
def Op.Covers (h : GcHeap) (op : Op) (e : MarkEvent) : Prop :=
  ∀ i n, e = .protect i n → h.Live n → n ∈ op.operands

/-- A step of the machine that the operation may cause with what it is handed. -/
def OperandStep (h : GcHeap) (op : Op) (s : MarkState) (e : MarkEvent) (t : MarkState) : Prop :=
  EmitStep h op s e t ∧ op.Covers h e

section

variable {h h' : GcHeap} {op : Op}

open MarkState GcHeap

/-- Most events protect nothing. -/
theorem Op.Covers.of_ne {e : MarkEvent} (he : ∀ i n, e ≠ .protect i n) : op.Covers h e :=
  fun i n heq => absurd heq (he i n)

/-- A run on a gray list is a run of the machine. -/
theorem operandRun_of_markRun {s t : MarkState} {i : ℕ} {as : List MarkAction}
    (hop : op.marks = some i) (hr : Run (MarkStep i) s as t) :
    ∃ es, Run (OperandStep h op) s es t := by
  induction hr with
  | nil s => exact ⟨[], .nil _⟩
  | cons hst _ ih =>
    obtain ⟨es, hes⟩ := ih
    exact ⟨_, .cons ⟨⟨.entry hst, .entry hop⟩, .of_ne nofun⟩ hes⟩

theorem operandRun_of_started {h : GcHeap} {s t : MarkState} {i : ℕ} {as : List MarkAction}
    (op : Op) (hop : op.marks = some i) (hi : i < h.view.count) (hs : Started i h.view s)
    (hr : Run (MarkStep i) s as t) : ∃ es, Run (OperandStep h op) h.view es t := by
  obtain ⟨es, hes⟩ := operandRun_of_markRun (h := h) hop hr
  cases hs with
  | going _ => exact ⟨es, hes⟩
  | fresh hm hp => exact ⟨_, .cons ⟨⟨.prepare hi hm hp, .prepare hop rfl⟩, .of_ne nofun⟩ hes⟩

theorem operandRun_one {s t : MarkState} {e : MarkEvent} (ht : Trans s e t) (he : Emits h op s e)
    (hcov : op.Covers h e) : ∃ es, Run (OperandStep h op) s es t :=
  ⟨[e], .cons ⟨⟨ht, he⟩, hcov⟩ (.nil _)⟩

/-- A successful allocation. -/
theorem operandStep_alloc {i : ℕ} {n : NodePtr} {payload : Payload} (hi : i < h.view.count)
    (hn : ¬ h.Live n) (hpay : ∀ c ∈ payload, h.Live c)
    (hop : op.allocates h = some (i, payload)) :
    OperandStep h op h.view (.alloc i n payload) (h.view.alloc i n payload) :=
  ⟨⟨.alloc hi hn hpay, .alloc hop rfl⟩, .of_ne nofun⟩

/-- An allocation whose node is protected at once. -/
theorem operandRun_alloc_protect {i : ℕ} {n : NodePtr} {payload : Payload} (hi : i < h.view.count)
    (hn : ¬ h.Live n) (hpay : ∀ c ∈ payload, h.Live c)
    (hop : op.allocates h = some (i, payload)) :
    ∃ es, Run (OperandStep h op) h.view es ((h.view.alloc i n payload).protect i n) := by
  have hpid : (h.view.alloc i n payload).pid n = i := by simp [MarkState.alloc]
  have hprotect : OperandStep h op (h.view.alloc i n payload)
      (.protect ((h.view.alloc i n payload).pid n) n)
      ((h.view.alloc i n payload).protect ((h.view.alloc i n payload).pid n) n) := by
    refine ⟨⟨.protect (live_alloc.mpr (.inl rfl)), .protect_own⟩, fun j m heq hm => ?_⟩
    obtain ⟨-, rfl⟩ := MarkEvent.protect.inj heq
    exact absurd hm hn
  rw [hpid] at hprotect
  exact ⟨_, .cons (operandStep_alloc hi hn hpay hop) (.cons hprotect (.nil _))⟩

/-- Protecting a node that the operation is handed. -/
theorem Op.covers_protect {i : ℕ} {n : NodePtr} (hn : n ∈ op.operands) :
    op.Covers h (.protect i n) := by
  intro j m heq _
  obtain ⟨-, rfl⟩ := MarkEvent.protect.inj heq
  exact hn

/-- Protecting a node through a scope. -/
theorem operandRun_addNonLocal {stackId index : ℕ} {n : NodePtr} {s : GcScopeState} (hn : h.Live n)
    (hop : op.protects h = some (s.partitionId, n)) (hmem : n ∈ op.operands) :
    ∃ es, Run (OperandStep h op) h.view es (h.addNonLocal stackId index s n).view := by
  unfold addNonLocal
  split
  · exact ⟨[], .nil _⟩
  · next hprot =>
    rw [view_addNode]
    exact operandRun_one (.protect hn) (.protect hop rfl (Bool.eq_false_iff.mpr hprot))
      (Op.covers_protect hmem)

/-! ### One operation after the other -/

theorem operandRun_nil : ∃ es, Run (OperandStep h op) h.view es h.view := ⟨[], .nil _⟩

section Alloc

variable {i dtype : ℕ} {n : NodePtr} {payload : Payload} {sys : Option NodePtr}

theorem operandRun_allocRaw (hmem : h.MemInv) (hpre : Op.Pre h (.allocRaw i dtype payload sys))
    (hok : h.allocRaw i dtype payload sys = .ok (h', n)) :
    ∃ es, Run (OperandStep h (.allocRaw i dtype payload sys)) h.view es h'.view := by
  obtain ⟨-, hdtype, hpay, hfresh⟩ := hpre
  obtain ⟨hi, hview⟩ := view_allocRaw hok
  obtain ⟨_, _, hraw, -⟩ := allocRaw_ok hok
  have hn := (hmem.allocNodeMem hdtype hfresh hraw).1
  rw [hview]
  exact ⟨_, .cons (operandStep_alloc hi hn hpay rfl) (.nil _)⟩

theorem operandRun_allocRootRaw (hmem : h.MemInv)
    (hpre : Op.Pre h (.allocRootRaw i dtype payload sys))
    (hok : h.allocRootRaw i dtype payload sys = .ok (h', n)) :
    ∃ es, Run (OperandStep h (.allocRootRaw i dtype payload sys)) h.view es h'.view := by
  obtain ⟨-, hdtype, hpay, hfresh⟩ := hpre
  obtain ⟨hi, hview⟩ := view_allocRootRaw hok
  obtain ⟨_, _, _, hraw, -⟩ := allocRootRaw_ok hok
  have hn := (hmem.allocNodeMem hdtype hfresh hraw).1
  rw [hview]
  exact operandRun_alloc_protect hi hn hpay rfl

theorem operandRun_allocLocal {stackId index : ℕ} {s : GcScopeState} (hmem : h.MemInv)
    (hpre : Op.Pre h (.allocLocal stackId index dtype payload sys))
    (hs : h.scopeAt stackId index = some s)
    (hok : h.allocLocal stackId index s dtype payload sys = .ok (h', n)) :
    ∃ es, Run (OperandStep h (.allocLocal stackId index dtype payload sys)) h.view es h'.view := by
  obtain ⟨hdtype, hpay, hfresh⟩ := hpre
  obtain ⟨hi, hview⟩ := view_allocLocal hok
  obtain ⟨_, halloc, -⟩ := allocLocal_ok hok
  obtain ⟨_, _, hraw, -⟩ := allocRaw_ok halloc
  have hn := (hmem.allocNodeMem hdtype hfresh hraw).1
  rw [hview]
  exact operandRun_alloc_protect hi hn hpay (by simp [Op.allocates, hs])

end Alloc

section Cycle

variable {i : ℕ}

theorem operandRun_protectNode {stackId : ℕ} {n : NodePtr} (hn : h.Live n) :
    ∃ es, Run (OperandStep h (.protectNode stackId n)) h.view es
      (h.protectNode stackId n).view := by
  unfold protectNode
  split
  · next s hs =>
    exact operandRun_addNonLocal hn (by simp [Op.protects, hs]) (List.mem_singleton_self n)
  · exact operandRun_nil

theorem operandRun_setRootNode {n : NodePtr} (hn : h.Live n) :
    ∃ es, Run (OperandStep h (.setRootNode n)) h.view es (h.setRootNode n).view := by
  rcases view_setRootNode (h := h) (n := n) with hview | hview
  · rw [hview]
    exact operandRun_nil
  · rw [hview]
    exact operandRun_one (.protect hn) .protect_own (Op.covers_protect (List.mem_singleton_self n))

/-- A sweep unlinks when the cycle has ended, and otherwise does nothing. -/
theorem operandRun_sweep :
    ∃ es, Run (OperandStep h (.sweep i)) h.view es (h.twoPhaseSweep i).1.view := by
  rw [view_twoPhaseSweep]
  by_cases hdone : i < h.view.count ∧ h.view.marking i = true ∧ h.view.gray i = []
  · rw [(view_sweepUnlink hdone.1 hdone.2.1 hdone.2.2).1]
    exact operandRun_one (.unlink hdone.1 hdone.2.1 hdone.2.2) (.unlink (.inl ⟨rfl, rfl⟩))
      (.of_ne nofun)
  · rw [sweepUnlink_of_not_done hdone]
    exact operandRun_nil

/-- A collection marks and then unlinks. -/
theorem operandRun_garbageCollect {bytes : ℕ} (hmem : h.MemInv)
    (hgc : h.garbageCollect i = some (h', bytes)) :
    ∃ es, Run (OperandStep h (.garbageCollect i)) h.view es h'.view := by
  rcases garbageCollect_run hmem.owned hgc with ⟨-, rfl, -⟩ |
    ⟨hi, h₂, s, as, -, hstart, hr, hdone, hmark, -, hview⟩
  · exact operandRun_nil
  · obtain ⟨es, hes⟩ := operandRun_of_started (.garbageCollect i) rfl hi hstart hr
    have hi₂ : i < h₂.view.count := by rwa [(markRun_sameGraph hr).count, hstart.count]
    have hlast : OperandStep h (.garbageCollect i) h₂.view (.unlink i) (h₂.view.unlink i) :=
      ⟨⟨.unlink hi₂ hmark hdone, .unlink (.inr rfl)⟩, .of_ne nofun⟩
    rw [← hview] at hlast
    exact ⟨_, run_concat.mpr ⟨_, hes, hlast⟩⟩

/-- A teardown clears the scopes and then drops the chain. -/
theorem operandRun_removePartition {bytes : ℕ} {sys : Option ℕ}
    (hok : h.removePartition false i sys = some (h', bytes)) :
    ∃ es, Run (OperandStep h (.removePartition i sys)) h.view es h'.view := by
  rcases view_removePartition hok with rfl | ⟨s, hun, hview⟩
  · exact operandRun_nil
  · rw [hview]
    exact ⟨_, .cons ⟨⟨.unprotect hun, .unprotect⟩, .of_ne nofun⟩
      (.cons ⟨⟨.drop, .drop rfl⟩, .of_ne nofun⟩ (.nil _))⟩

end Cycle

/-- **Refinement.** Every operation is a run of the machine, and protects no old node but those it
is handed. -/
theorem Step.operandEvents (hmem : h.MemInv) (hst : Step h op h') :
    ∃ es, Run (OperandStep h op) h.view es h'.view := by
  obtain ⟨hpre, hexec⟩ := hst
  cases op with
  | createPartition capacity maxAlloc sys =>
    obtain ⟨⟨h₁, id⟩, hok, rfl⟩ := Option.map_eq_some_iff.mp hexec
    rw [view_createPartition hok]
    exact operandRun_one .create .create (.of_ne nofun)
  | allocRaw i dtype payload sys =>
    cases hexec
    exact afterAlloc_ind (P := fun g => ∃ es, Run _ h.view es g.view) operandRun_nil
      fun _ _ hok => operandRun_allocRaw hmem hpre hok
  | allocRootRaw i dtype payload sys =>
    cases hexec
    exact afterAlloc_ind (P := fun g => ∃ es, Run _ h.view es g.view) operandRun_nil
      fun _ _ hok => operandRun_allocRootRaw hmem hpre hok
  | allocLocal stackId index dtype payload sys =>
    obtain ⟨s, hs, rfl⟩ := Option.map_eq_some_iff.mp hexec
    exact afterAlloc_ind (P := fun g => ∃ es, Run _ h.view es g.view) operandRun_nil
      fun _ _ hok => operandRun_allocLocal hmem hpre hs hok
  | addNonLocal stackId index n =>
    obtain ⟨s, hs, rfl⟩ := Option.map_eq_some_iff.mp hexec
    exact operandRun_addNonLocal hpre (by simp [Op.protects, hs]) (List.mem_singleton_self n)
  | protectNode stackId n =>
    cases hexec
    exact operandRun_protectNode hpre
  | popScope stackId =>
    cases hexec
    exact operandRun_one (.unprotect unprotects_popScope) .unprotect (.of_ne nofun)
  | removeNode stackId index n =>
    obtain ⟨s, -, rfl⟩ := Option.map_eq_some_iff.mp hexec
    exact operandRun_one (.unprotect (unprotects_removeNode s)) .unprotect (.of_ne nofun)
  | clear stackId index =>
    obtain ⟨s, -, rfl⟩ := Option.map_eq_some_iff.mp hexec
    exact operandRun_one (.unprotect (unprotects_clear s)) .unprotect (.of_ne nofun)
  | promoteNodeTo stackId index n targetStack targetIndex =>
    obtain ⟨s, -, rfl⟩ := Option.map_eq_some_iff.mp hexec
    rw [view_promoteNodeTo]
    exact operandRun_nil
  | setRootNode n =>
    cases hexec
    exact operandRun_setRootNode hpre
  | bind m c payload =>
    obtain ⟨hm, hc, hpay⟩ := hpre
    cases hexec
    rw [view_bind, view_setRefs]
    exact operandRun_one (.bind hm hc hpay) (.bind rfl rfl) (.of_ne nofun)
  | withWriteBarrier n payload =>
    obtain ⟨hn, hpay⟩ := hpre
    cases hexec
    rw [view_withWriteBarrier]
    exact operandRun_one (.barrier hn hpay) (.barrier rfl rfl) (.of_ne nofun)
  | removeRefs n payload =>
    obtain ⟨hn, hpay⟩ := hpre
    cases hexec
    rw [view_setRefs]
    exact operandRun_one (.removeRefs hn hpay) (.removeRefs rfl rfl) (.of_ne nofun)
  | mark i maxSteps =>
    cases hexec
    obtain ⟨s, as, hstart, hr, -⟩ := mark_run hmem.owned hpre maxSteps
    exact operandRun_of_started (.mark i maxSteps) rfl hpre hstart hr
  | markReset i =>
    cases hexec
    rw [view_markReset hpre]
    exact operandRun_one (.reset hpre) (.reset rfl) (.of_ne nofun)
  | sweep i =>
    cases hexec
    exact operandRun_sweep
  | garbageCollect i =>
    obtain ⟨⟨h₁, bytes⟩, hgc, rfl⟩ := Option.map_eq_some_iff.mp hexec
    exact operandRun_garbageCollect hmem hgc
  | downgrade n =>
    obtain ⟨⟨h₁, w⟩, hok, rfl⟩ := Option.map_eq_some_iff.mp hexec
    rw [view_downgrade hok]
    exact operandRun_nil
  | removePartition i sys =>
    obtain ⟨⟨h₁, bytes⟩, hok, rfl⟩ := Option.map_eq_some_iff.mp hexec
    exact operandRun_removePartition hok
  | acquireScopeStack | releaseScopeStack | newScope | setMemoryLimit | setGcThreshold =>
    rw [view_of_bookkeeping rfl hexec]
    exact operandRun_nil

/-- **Refinement.** Every operation is a run of the machine. -/
theorem Step.events (hmem : h.MemInv) (hst : Step h op h') :
    ∃ es, Run (EmitStep h op) h.view es h'.view := by
  obtain ⟨es, hes⟩ := hst.operandEvents hmem
  exact ⟨es, hes.mono fun _ _ _ hem => hem.1⟩

end

end GcLite
