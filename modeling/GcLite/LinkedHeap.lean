import GcLite.Library.Queues
import GcLite.Accounting
import GcLite.Collect

/-!
# The heap with its chains in memory

The chains of all partitions as the code has them: a head for each partition, and in every header
the pointer to the next node. What a sweep does to them is carried out on these pointers. Phase 1
walks along a chain and deals its nodes out to two new chains, each of which grows at its end.
Phase 3 walks along the chain of the dead once for each pass; the nodes of the pass are disposed of
on the way, and the others are dealt out to a third chain.

A header that has been disposed of is gone, and touching it ends the program. The fuel of a walk is
the number of chained nodes.

A `GcHeap` is kept next to the pointers, for all else that the operations do. Its lists are carried
along, but the walks do not look at them.

## Main definitions

* `NodeLinks` — the heads of the chains and the pointers in the headers
* `NodeLinks.attach`, `unlinkLoop`, `disposePass`, `deallocLoop` — what writes them
* `NodeLinks.twoPhaseSweep`, `NodeLinks.removePartition`, `linkedExec`
* `Linked h L` — the pointers lead through the lists of `h`, and the headers are those of live nodes

## Main results

* `unlinkLoop_spec`, `disposePass_spec`, `deallocLoop_spec`
* `Linked.step` — every operation on the pointers does what it does on the lists
* `linked_run`
-/

namespace GcLite

open Links Transition
open GcHeap (SweepState)

/-- The heads of the chains, and the pointers in the headers. -/
structure NodeLinks where
  /-- The first node of each partition. -/
  head : ℕ → Option NodePtr
  /-- `none` where there is no header. -/
  next : NodePtr → Option (Option NodePtr)

namespace NodeLinks

/-- No partition and no header. -/
def empty : NodeLinks := ⟨fun _ => none, fun _ => none⟩

/-- Write a new header, whose pointer is null, and prepend it to the chain of partition `i`. -/
def attach (L : NodeLinks) (i : ℕ) (n : NodePtr) : Option NodeLinks := do
  let next ← setNext (Function.update L.next n (some none)) n (L.head i)
  return ⟨Function.update L.head i (some n), next⟩

/-- The walk of `sweep_unlink`: deal the nodes out to the white chain and the chain of survivors. -/
def unlinkLoop (h : GcHeap) : ℕ → Option NodePtr → Queue NodePtr → Queue NodePtr →
    (NodePtr → Option (Option NodePtr)) →
    Option (Queue NodePtr × Queue NodePtr × (NodePtr → Option (Option NodePtr)))
  | _, none, white, survivor, next => some (white, survivor, next)
  | 0, some _, _, _, _ => none
  | fuel + 1, some this, white, survivor, next => do
    let current ← next this
    if h.isWhiteNonRoot this then
      let (white, next) ← white.push next this
      unlinkLoop h fuel current white survivor next
    else
      let (survivor, next) ← survivor.push next this
      unlinkLoop h fuel current white survivor next

/-- One pass of `sweep_dispose`: dispose of the nodes whose type drops in this pass, deal the others
out to the chain of those kept. -/
def disposePass (i pass : ℕ) : ℕ → Option NodePtr → Queue NodePtr → SweepState →
    (NodePtr → Option (Option NodePtr)) →
    Option (Queue NodePtr × SweepState × (NodePtr → Option (Option NodePtr)))
  | _, none, kept, s, next => some (kept, s, next)
  | 0, some _, _, _, _ => none
  | fuel + 1, some this, kept, s, next => do
    let current ← next this
    if (s.heap.info this).dropPass = pass then
      disposePass i pass fuel current kept (s.disposeNode i this)
        (Function.update next this none)
    else
      let (kept, next) ← kept.push next this
      disposePass i pass fuel current kept s next

/-- The passes in order, until nothing remains. -/
def disposePasses (i fuel : ℕ) : List ℕ → Option NodePtr → SweepState →
    (NodePtr → Option (Option NodePtr)) →
    Option (SweepState × (NodePtr → Option (Option NodePtr)))
  | [], _, s, next => some (s, next)
  | pass :: passes, remaining, s, next => do
    let (kept, s, next) ← disposePass i pass fuel remaining ∅ s next
    if kept.head.isNone then return (s, next)
    else disposePasses i fuel passes kept.head s next

/-- The three phases of a sweep. -/
def twoPhaseSweep (h : GcHeap) (L : NodeLinks) (i : ℕ) : Option ((GcHeap × ℕ) × NodeLinks) :=
  if h.partitions.length ≤ i then some ((h, 0), L)
  else if !((h.par i).marking && (h.par i).grayList.isEmpty) then some ((h, 0), L)
  else if (L.head i).isNone then some ((h.setMarking i false, 0), L)
  else do
    let fuel := h.nodeCount
    let (white, survivor, next) ← unlinkLoop h fuel (L.head i) ∅ ∅ L.next
    let h := (h.sweepUnlink i).1
    let dead ← walk next fuel white.head
    let h := h.emit (h.sweepDropPayloads dead)
    let (s, next) ← disposePasses i fuel h.nodeDtypes.dropPasses white.head ⟨h, [], 0⟩ next
    return ((s.heap.finishSweep i s.holes, s.freedBytes),
      ⟨Function.update L.head i survivor.head, next⟩)

/-- The walk of `dealloc_partition`: the iterator moves on before the header goes. -/
def deallocLoop : ℕ → Option NodePtr → (NodePtr → Option (Option NodePtr)) →
    Option (NodePtr → Option (Option NodePtr))
  | _, none, next => some next
  | 0, some _, _ => none
  | fuel + 1, some node, next => do
    let current ← next node
    deallocLoop fuel current (Function.update next node none)

/-- Both phases of teardown. -/
def removePartition (h : GcHeap) (L : NodeLinks) (i : ℕ) (sys : Option ℕ) :
    Option ((GcHeap × ℕ) × NodeLinks) :=
  match h.finalizePartition i with
  | none => some ((h, 0), L)
  | some (h₁, _) => do
    let link ← walk L.next h.nodeCount (L.head i)
    let next ← deallocLoop h.nodeCount (L.head i) L.next
    let r ← h₁.deallocPartition false i link sys
    return (r, ⟨Function.update L.head i none, next⟩)

end NodeLinks

/-- The chains after an allocation in partition `i`. -/
def linkedAlloc (g : GcHeap × NodeLinks) (i : ℕ)
    (r : Except (GcError × Payload) (GcHeap × NodePtr)) : Option (GcHeap × NodeLinks) :=
  match r with
  | .ok (h, n) => (g.2.attach i n).map fun L => (h, L)
  | .error _ => some g

/-- What an operation does; `none` when it panics, does not end or touches a header that is not
there. -/
def linkedExec (g : GcHeap × NodeLinks) : Op → Option (GcHeap × NodeLinks)
  | .createPartition capacity maxAlloc sys =>
    (g.1.createPartition capacity maxAlloc sys).map fun (h, _) =>
      (h, { g.2 with head := Function.update g.2.head g.1.partitions.length none })
  | .allocRaw i dtype payload sys => linkedAlloc g i (g.1.allocRaw i dtype payload sys)
  | .allocRootRaw i dtype payload sys => linkedAlloc g i (g.1.allocRootRaw i dtype payload sys)
  | .allocLocal stackId index dtype payload sys => (g.1.scopeAt stackId index).bind fun s =>
      linkedAlloc g s.partitionId (g.1.allocLocal stackId index s dtype payload sys)
  | .sweep i => (g.2.twoPhaseSweep g.1 i).map fun (r, L) => (r.1, L)
  | .garbageCollect i =>
    if g.1.partitions.length ≤ i then some g
    else (GcHeap.markLoop i (g.1.nodeCount + 1) g.1).bind fun h =>
      (g.2.twoPhaseSweep h i).map fun (r, L) => (r.1, L)
  | .removePartition i sys => (g.2.removePartition g.1 i sys).map fun (r, L) => (r.1, L)
  | op => (exec g.1 op).map fun h => (h, g.2)

/-! ## The walks -/

namespace NodeLinks

variable {h : GcHeap} {i fuel : ℕ} {cur : Option NodePtr}
  {next : NodePtr → Option (Option NodePtr)} {rest : List NodePtr}

/-- **Phase 1.** The nodes not yet looked at go to the ends of the two chains, in order. Of the
rest of the memory nothing is written, and no header comes or goes. -/
theorem unlinkLoop_spec {white survivor : Queue NodePtr} {ws ss : List NodePtr}
    (hfuel : rest.length ≤ fuel) (hdeal : Dealing next cur rest white ws survivor ss) :
    ∃ white' survivor' next',
      unlinkLoop h fuel cur white survivor next = some (white', survivor', next') ∧
      Dealing next' none [] white' (ws ++ rest.filter h.isWhiteNonRoot) survivor'
        (ss ++ rest.filter fun n => !h.isWhiteNonRoot n) ∧
      (∀ b, b ∉ ws → b ∉ ss → b ∉ rest → next' b = next b) ∧
      ∀ b, (next' b).isSome = (next b).isSome := by
  induction rest generalizing fuel cur white survivor next ws ss with
  | nil =>
    obtain rfl : cur = none := hdeal.chain
    refine ⟨white, survivor, next, by cases fuel <;> rfl, ?_, fun _ _ _ _ => rfl, fun _ => rfl⟩
    simpa using hdeal
  | cons this rest ih =>
    obtain ⟨fuel, rfl⟩ : ∃ k, fuel = k + 1 :=
      Nat.exists_eq_add_of_le' ((Nat.succ_le_succ (Nat.zero_le _)).trans hfuel)
    have hfuel' : rest.length ≤ fuel := Nat.le_of_succ_le_succ hfuel
    obtain ⟨rfl, current, hthis⟩ := hdeal.exists_next
    cases hcolor : h.isWhiteNonRoot this with
    | true =>
      obtain ⟨white₁, next₁, hpush, hdeal₁, hkeep, hsome⟩ := hdeal.push hthis
      obtain ⟨white', survivor', next', hloop, hdeal', hkeep', hsome'⟩ := ih hfuel' hdeal₁
      refine ⟨white', survivor', next', ?_, ?_, fun b hw hs hrest => ?_, fun b => ?_⟩
      · simp only [unlinkLoop, hthis, hcolor, hpush, Option.bind_eq_bind, Option.bind_some,
          if_true]
        exact hloop
      · simpa [hcolor] using hdeal'
      · rw [List.mem_cons, not_or] at hrest
        rw [hkeep' b (by simp [hw, hrest.1]) hs hrest.2, hkeep b hw hrest.1]
      · rw [hsome', hsome]
    | false =>
      obtain ⟨survivor₁, next₁, hpush, hdeal₁, hkeep, hsome⟩ := hdeal.swap.push hthis
      obtain ⟨white', survivor', next', hloop, hdeal', hkeep', hsome'⟩ := ih hfuel' hdeal₁.swap
      refine ⟨white', survivor', next', ?_, ?_, fun b hw hs hrest => ?_, fun b => ?_⟩
      · simp only [unlinkLoop, hthis, hcolor, hpush, Option.bind_eq_bind, Option.bind_some,
          Bool.false_eq_true, if_false]
        exact hloop
      · simpa [hcolor] using hdeal'
      · rw [List.mem_cons, not_or] at hrest
        rw [hkeep' b hw (by simp [hs, hrest.1]) hrest.2, hkeep b hs hrest.1]
      · rw [hsome', hsome]

/-- **One pass of phase 3** does what the pass over the list does. The nodes it disposes of have no
headers any more, and of the memory outside of the two chains nothing is written. -/
theorem disposePass_spec (pass : ℕ) (s : SweepState) {kept : Queue NodePtr} {ks : List NodePtr}
    (hfuel : rest.length ≤ fuel) (hdeal : Dealing next cur rest kept ks ∅ []) :
    ∃ kept' next',
      disposePass i pass fuel cur kept s next =
        some (kept', (GcHeap.sweepPass i pass s rest).1, next') ∧
      kept'.Holds next' (ks ++ (GcHeap.sweepPass i pass s rest).2) ∧
      (∀ b, b ∉ ks → b ∉ rest → next' b = next b) ∧
      ∀ b ∈ rest, (s.heap.info b).dropPass = pass → next' b = none := by
  induction rest generalizing fuel cur kept next ks s with
  | nil =>
    obtain rfl : cur = none := hdeal.chain
    refine ⟨kept, next, by cases fuel <;> rfl, ?_, fun _ _ _ => rfl, List.forall_mem_nil _⟩
    simpa [GcHeap.sweepPass] using hdeal.left
  | cons this rest ih =>
    obtain ⟨fuel, rfl⟩ : ∃ k, fuel = k + 1 :=
      Nat.exists_eq_add_of_le' ((Nat.succ_le_succ (Nat.zero_le _)).trans hfuel)
    have hfuel' : rest.length ≤ fuel := Nat.le_of_succ_le_succ hfuel
    have hfresh := (List.nodup_cons.mp hdeal.chain.nodup).1
    have hks : this ∉ ks := fun hmem => hdeal.left_rest this hmem List.mem_cons_self
    obtain ⟨rfl, current, hthis⟩ := hdeal.exists_next
    by_cases hpass : (s.heap.info this).dropPass = pass
    · obtain ⟨kept', next', hloop, hholds, hkeep, hgone⟩ :=
        ih (s.disposeNode i this) hfuel' (hdeal.release hthis)
      rw [GcHeap.SweepState.info_disposeNode] at hgone
      refine ⟨kept', next', ?_, ?_, fun b hb hrest => ?_, ?_⟩
      · simp only [disposePass, hthis, hpass, Option.bind_eq_bind, Option.bind_some, if_true]
        rw [hloop, GcHeap.sweepPass, if_pos hpass]
      · rwa [GcHeap.sweepPass, if_pos hpass]
      · rw [List.mem_cons, not_or] at hrest
        rw [hkeep b hb hrest.2, Function.update_of_ne hrest.1]
      · refine List.forall_mem_cons.mpr ⟨fun _ => ?_, hgone⟩
        rw [hkeep this hks hfresh, Function.update_self]
    · obtain ⟨kept₁, next₁, hpush, hdeal₁, hkeep₁, -⟩ := hdeal.push hthis
      obtain ⟨kept', next', hloop, hholds, hkeep, hgone⟩ := ih s hfuel' hdeal₁
      refine ⟨kept', next', ?_, ?_, fun b hb hrest => ?_, ?_⟩
      · simp only [disposePass, hthis, hpass, hpush, Option.bind_eq_bind, Option.bind_some,
          if_false]
        rw [hloop, GcHeap.sweepPass, if_neg hpass]
      · rw [GcHeap.sweepPass, if_neg hpass]
        simpa using hholds
      · rw [List.mem_cons, not_or] at hrest
        rw [hkeep b (by simp [hb, hrest.1]) hrest.2, hkeep₁ b hb hrest.1]
      · exact List.forall_mem_cons.mpr ⟨fun h => absurd h hpass, hgone⟩

/-- **Phase 3** does what it does on the list, and no node whose pass comes has a header left. -/
theorem disposePasses_spec (passes : List ℕ) (s : SweepState) (hfuel : rest.length ≤ fuel)
    (hcur : Chain next cur rest) : ∃ next',
      disposePasses i fuel passes cur s next = some (GcHeap.sweepPasses i passes s rest, next') ∧
      (∀ b, b ∉ rest → next' b = next b) ∧
      ∀ b ∈ rest, (s.heap.info b).dropPass ∈ passes → next' b = none := by
  induction passes generalizing cur next rest s with
  | nil => exact ⟨next, rfl, fun _ _ => rfl, fun _ _ hmem => absurd hmem List.not_mem_nil⟩
  | cons pass passes ih =>
    obtain ⟨kept, next₁, hpass, hholds, hkeep, hgone⟩ :=
      disposePass_spec (i := i) pass s hfuel (Dealing.start hcur)
    rw [List.nil_append] at hholds
    have hempty : kept.head.isNone = (GcHeap.sweepPass i pass s rest).2.isEmpty := by
      rw [hholds.chain.head_eq]
      cases (GcHeap.sweepPass i pass s rest).2 <;> rfl
    have hkept : ∀ b, b ∈ (GcHeap.sweepPass i pass s rest).2 ↔
        b ∈ rest ∧ (s.heap.info b).dropPass ≠ pass := by
      intro b
      rw [GcHeap.sweepPass_eq]
      simp
    have hinfo : (GcHeap.sweepPass i pass s rest).1.heap.info = s.heap.info := by
      rw [GcHeap.sweepPass_eq]
      exact GcHeap.info_foldl_disposeNode _ _
    have hlater : ∀ next' : NodePtr → Option (Option NodePtr),
        (∀ b, b ∉ (GcHeap.sweepPass i pass s rest).2 → next' b = next₁ b) →
        (∀ b, b ∉ rest → next' b = next b) ∧
          ∀ b ∈ rest, (s.heap.info b).dropPass = pass → next' b = none := by
      intro next' hnext'
      refine ⟨fun b hb => ?_, fun b hb hdrop => ?_⟩
      · rw [hnext' b fun hmem => hb ((hkept b).mp hmem).1, hkeep b List.not_mem_nil hb]
      · rw [hnext' b fun hmem => ((hkept b).mp hmem).2 hdrop, hgone b hb hdrop]
    simp only [disposePasses, hpass, GcHeap.sweepPasses, hempty, Option.bind_eq_bind,
      Option.bind_some, Option.pure_def]
    split
    · next hnil =>
      obtain ⟨hframe, hone⟩ := hlater next₁ fun _ _ => rfl
      refine ⟨next₁, rfl, hframe, fun b hb _ => hone b hb ?_⟩
      by_contra hne
      have hmem := (hkept b).mpr ⟨hb, hne⟩
      rw [List.isEmpty_iff.mp hnil] at hmem
      exact List.not_mem_nil hmem
    · have hlen : (GcHeap.sweepPass i pass s rest).2.length ≤ fuel := by
        rw [GcHeap.sweepPass_eq]
        exact (List.length_filter_le _ _).trans hfuel
      obtain ⟨next', hpasses, hframe', hgone'⟩ :=
        ih (GcHeap.sweepPass i pass s rest).1 hlen hholds.chain
      obtain ⟨hframe, hone⟩ := hlater next' hframe'
      refine ⟨next', hpasses, hframe, fun b hb hmem => ?_⟩
      by_cases hdrop : (s.heap.info b).dropPass = pass
      · exact hone b hb hdrop
      · refine hgone' b ((hkept b).mpr ⟨hb, hdrop⟩) ?_
        rw [hinfo]
        exact (List.mem_cons.mp hmem).resolve_left hdrop

/-- **The walk of teardown** takes away the headers of the chain, and no others. -/
theorem deallocLoop_spec (hfuel : rest.length ≤ fuel) (hcur : Chain next cur rest) : ∃ next',
    deallocLoop fuel cur next = some next' ∧ (∀ b ∈ rest, next' b = none) ∧
      ∀ b, b ∉ rest → next' b = next b := by
  induction rest generalizing fuel cur next with
  | nil =>
    obtain rfl : cur = none := hcur
    exact ⟨next, by cases fuel <;> rfl, List.forall_mem_nil _, fun _ _ => rfl⟩
  | cons node rest ih =>
    obtain ⟨fuel, rfl⟩ : ∃ k, fuel = k + 1 :=
      Nat.exists_eq_add_of_le' ((Nat.succ_le_succ (Nat.zero_le _)).trans hfuel)
    have hfresh := (List.nodup_cons.mp hcur.nodup).1
    obtain ⟨rfl, current, hnode, htail⟩ := hcur
    obtain ⟨next', hloop, hgone, hkeep⟩ :=
      ih (Nat.le_of_succ_le_succ hfuel) (Chain.release htail hfresh none)
    refine ⟨next', ?_, List.forall_mem_cons.mpr ⟨?_, hgone⟩, fun b hb => ?_⟩
    · simp only [deallocLoop, hnode, Option.bind_eq_bind, Option.bind_some]
      exact hloop
    · rw [hkeep node hfresh, Function.update_self]
    · rw [List.mem_cons, not_or] at hb
      rw [hkeep b hb.2, Function.update_of_ne hb.1]

end NodeLinks

/-! ## Pointers and lists -/

/-- The pointers lead through the lists of the heap, and there are headers exactly where nodes are
live. -/
structure Linked (h : GcHeap) (L : NodeLinks) : Prop where
  /-- The pointers lead through the chain. -/
  chain : ∀ i, Chain L.next (L.head i) (h.par i).nodes
  /-- There is a header where a node is live. -/
  header : ∀ n, (L.next n).isSome = true ↔ h.Live n

namespace Linked

variable {h h' : GcHeap} {L : NodeLinks} {i : ℕ} {n : NodePtr}

theorem new (registry : GcTypeRegistry) : Linked (GcHeap.new registry) .empty := by
  have hnodes : ∀ i, ((GcHeap.new registry).par i).nodes = [] := fun i => by
    rw [GcHeap.par_of_length_le (Nat.zero_le i)]
    rfl
  refine ⟨fun i => ?_, fun n => ?_⟩
  · rw [hnodes]
    rfl
  · simp [GcHeap.Live, hnodes, NodeLinks.empty]

theorem congr (hl : Linked h L) (heq : h'.store = h.store) : Linked h' L := by
  refine ⟨fun i => ?_, fun n => ?_⟩
  · rw [GcHeap.nodes_of_store heq]
    exact hl.chain i
  · rw [GcHeap.live_of_store heq]
    exact hl.header n

/-- **A new node.** Its address is none of a live node's, so its header is written over nothing. -/
theorem attach {dtype : ℕ} {fromArena : Bool} (hl : Linked h L) (hn : ¬ h.Live n)
    (hatt : GcHeap.Attached h i dtype fromArena n h') :
    ∃ L', L.attach i n = some L' ∧ Linked h' L' := by
  have hset : setNext (Function.update L.next n (some none)) n (L.head i) =
      some (Function.update L.next n (some (L.head i))) := by
    rw [setNext_eq (by rw [Function.update_self]; rfl), Function.update_idem]
  refine ⟨⟨Function.update L.head i (some n), Function.update L.next n (some (L.head i))⟩, ?_,
    fun j => ?_, fun m => ?_⟩
  · rw [NodeLinks.attach, hset]
    rfl
  · have hold : Chain (Function.update L.next n (some (L.head i))) (L.head j) (h.par j).nodes :=
      (hl.chain j).release (fun hmem => hn ⟨j, hmem⟩) _
    rw [hatt.nodes]
    by_cases hj : j = i
    · subst hj
      rw [if_pos rfl]
      exact ⟨Function.update_self .., _, Function.update_self .., hold⟩
    · have hhead : Function.update L.head i (some n) j = L.head j := Function.update_of_ne hj ..
      show Chain _ (Function.update L.head i (some n) j) _
      rw [if_neg hj, hhead]
      exact hold
  · rw [hatt.live_iff, ← hl.header]
    by_cases hm : m = n
    · simp [hm]
    · simp [hm]

/-- Nodes of different partitions are different, so that a sweep leaves the other chains alone. -/
theorem not_mem_of_ne {j : ℕ} (hinv : h.MemInv) (hj : j ≠ i) (hn : n ∈ (h.par j).nodes) :
    n ∉ (h.par i).nodes :=
  fun hmem => hj ((hinv.own j n hn).symm.trans (hinv.own i n hmem))

theorem dropPass_mem (hinv : h.MemInv) (hn : n ∈ (h.par i).nodes) :
    (h.info n).dropPass ∈ h.nodeDtypes.dropPasses := by
  refine h.nodeDtypes.covers _ ?_
  rw [GcHeap.info, List.getD_eq_getElem?_getD, List.getElem?_eq_getElem (hinv.dtype i n hn)]
  exact List.getElem_mem _

/-- A sweep of a chain that is not empty. -/
theorem twoPhaseSweep_of_done (hl : Linked h L) (hinv : h.MemInv) (hdone : h.CycleDone i)
    (hne : (h.par i).nodes ≠ []) : ∃ L', L.twoPhaseSweep h i = some (h.twoPhaseSweep i, L') ∧
      Linked (h.twoPhaseSweep i).1 L' := by
  have ⟨hi, hm, hg⟩ := hdone
  have hfuel : (h.par i).nodes.length ≤ h.nodeCount := GcHeap.length_chain_le_nodeCount
  have hhead : (L.head i).isNone = false := by
    rw [(hl.chain i).head_eq]
    cases hnodes : (h.par i).nodes with
    | nil => exact absurd hnodes hne
    | cons a l => rfl
  -- Phase 1 deals the chain out.
  obtain ⟨white, survivor, next₁, hunlink, hdeal, hkeep₁, hsome₁⟩ :=
    NodeLinks.unlinkLoop_spec (h := h) hfuel (Dealing.start (hl.chain i))
  rw [List.nil_append, List.nil_append] at hdeal
  have hdead : (h.unlinked i).length ≤ h.nodeCount := (List.length_filter_le _ _).trans hfuel
  have hwalk : walk next₁ h.nodeCount white.head = some (h.unlinked i) :=
    walk_eq_some_iff.mpr ⟨hdeal.left.chain, hdead⟩
  rcases hun : h.sweepUnlink i with ⟨h₁, _ | dead⟩
  · simp [GcHeap.sweepUnlink, hm, hg, hne, Nat.not_le.mpr hi] at hun
  obtain ⟨-, rfl, hh₁⟩ := GcHeap.sweepUnlink_ok hun
  -- Phase 3 takes the headers of the dead away.
  obtain ⟨next₂, hdispose, hkeep₂, hgone⟩ := NodeLinks.disposePasses_spec (i := i)
    h.nodeDtypes.dropPasses ⟨h₁.emit (h₁.sweepDropPayloads (h.unlinked i)), [], 0⟩ hdead
    hdeal.left.chain
  have hinfo : (h₁.emit (h₁.sweepDropPayloads (h.unlinked i))).info = h.info := by
    rw [hh₁]
    rfl
  have htypes : h₁.nodeDtypes = h.nodeDtypes := by
    rw [hh₁]
    rfl
  have hkeep : ∀ b, b ∉ (h.par i).nodes → next₂ b = L.next b := by
    intro b hb
    rw [hkeep₂ b fun hmem => hb (List.mem_filter.mp hmem).1,
      hkeep₁ b List.not_mem_nil List.not_mem_nil hb]
  refine ⟨⟨Function.update L.head i survivor.head, next₂⟩, ?_, fun j => ?_, fun b => ?_⟩
  · rw [NodeLinks.twoPhaseSweep, if_neg (Nat.not_le.mpr hi), if_neg (by simp [hm, hg]), hhead,
      GcHeap.twoPhaseSweep, hun]
    simp only [Bool.false_eq_true, if_false, hunlink, hwalk, Option.bind_eq_bind, Option.bind_some,
      Option.pure_def, GcHeap.sweepDispose]
    rw [show (h₁.emit (h₁.sweepDropPayloads (h.unlinked i))).nodeDtypes = h.nodeDtypes from htypes,
      hdispose]
    rfl
  · rw [GcHeap.nodes_twoPhaseSweep hdone]
    by_cases hj : j = i
    · subst hj
      rw [if_pos rfl]
      have hsurvivor : Chain next₂ survivor.head (h.survivors j) :=
        hdeal.right.chain.congr fun b hb => hkeep₂ b fun hmem => hdeal.left_right b hmem hb
      have hhead : Function.update L.head j survivor.head j = survivor.head :=
        Function.update_self ..
      show Chain _ (Function.update L.head j survivor.head j) _
      rw [hhead]
      exact hsurvivor
    · have hhead : Function.update L.head i survivor.head j = L.head j :=
        Function.update_of_ne hj ..
      show Chain _ (Function.update L.head i survivor.head j) _
      rw [if_neg hj, hhead]
      exact (hl.chain j).congr fun b hb => hkeep b (not_mem_of_ne hinv hj hb)
  · rw [hinv.live_twoPhaseSweep hdone, ← hl.header b]
    show (next₂ b).isSome = true ↔ _
    by_cases hb : b ∈ h.unlinked i
    · have hpass : (h.info b).dropPass ∈ h.nodeDtypes.dropPasses :=
        dropPass_mem hinv (List.mem_filter.mp hb).1
      rw [hgone b hb (hinfo.symm ▸ hpass)]
      simp [hb]
    · rw [hkeep₂ b hb, hsome₁]
      simp [hb]

/-- **A sweep.** -/
theorem twoPhaseSweep (hl : Linked h L) (hinv : h.MemInv) (i : ℕ) :
    ∃ L', L.twoPhaseSweep h i = some (h.twoPhaseSweep i, L') ∧
      Linked (h.twoPhaseSweep i).1 L' := by
  by_cases hdone : h.CycleDone i
  · have ⟨hi, hm, hg⟩ := hdone
    by_cases hempty : (h.par i).nodes = []
    · have hhead : L.head i = none := (hl.chain i).head_eq.trans (by rw [hempty]; rfl)
      refine ⟨L, ?_, ?_⟩
      · rw [GcHeap.twoPhaseSweep_of_empty hdone hempty, NodeLinks.twoPhaseSweep,
          if_neg (Nat.not_le.mpr hi), if_neg (by simp [hm, hg]), hhead]
        rfl
      · rw [GcHeap.twoPhaseSweep_of_empty hdone hempty]
        exact hl.congr (GcHeap.store_setMarking false)
    · exact hl.twoPhaseSweep_of_done hinv hdone hempty
  · rw [GcHeap.twoPhaseSweep_of_not_done hdone]
    refine ⟨L, ?_, hl⟩
    rw [NodeLinks.twoPhaseSweep]
    split
    · rfl
    · next hi =>
      refine if_pos ?_
      by_contra hguard
      refine hdone ⟨Nat.lt_of_not_le hi, ?_⟩
      simpa [List.isEmpty_iff] using hguard

/-- **Teardown.** -/
theorem removePartition {sys : Option ℕ} {bytes : ℕ} (hl : Linked h L) (hinv : h.MemInv)
    (hok : h.removePartition false i sys = some (h', bytes)) :
    ∃ L', L.removePartition h i sys = some ((h', bytes), L') ∧ Linked h' L' := by
  unfold GcHeap.removePartition at hok
  cases hfin : h.finalizePartition i with
  | none =>
    rw [hfin] at hok
    obtain ⟨rfl, rfl⟩ := Prod.mk.inj (Option.some.inj hok)
    exact ⟨L, by rw [NodeLinks.removePartition, hfin], hl⟩
  | some r =>
    obtain ⟨h₁, link⟩ := r
    rw [hfin] at hok
    obtain ⟨-, hlink, g, slots, log, hstore, rfl⟩ := GcHeap.finalizePartition_frame hfin
    have hnodes : ∀ j, (g.par j).nodes = (h.par j).nodes := GcHeap.nodes_of_store hstore
    obtain rfl : link = (h.par i).nodes := hlink.trans (hnodes i)
    have hfuel : (h.par i).nodes.length ≤ h.nodeCount := GcHeap.length_chain_le_nodeCount
    obtain ⟨next', hloop, hgone, hkeep⟩ := NodeLinks.deallocLoop_spec hfuel (hl.chain i)
    obtain ⟨arena, log', -, heq⟩ := GcHeap.deallocPartition_ok hok
    obtain ⟨⟨hself, -⟩, hother, -⟩ := GcHeap.par_of_torn heq
    have hnodes' : ∀ j, j ≠ i → (h'.par j).nodes = (h.par j).nodes := fun j hj => by
      rw [hother j hj]
      exact hnodes j
    refine ⟨⟨Function.update L.head i none, next'⟩, ?_, fun j => ?_, fun n => ?_⟩
    · rw [NodeLinks.removePartition, hfin]
      simp only [walk_eq_some_iff.mpr ⟨hl.chain i, hfuel⟩, hloop, Option.bind_eq_bind,
        Option.bind_some, Option.pure_def]
      dsimp only at hok
      rw [hok]
      rfl
    · by_cases hj : j = i
      · subst hj
        rw [hself]
        exact Function.update_self ..
      · have hhead : Function.update L.head i none j = L.head j := Function.update_of_ne hj ..
        show Chain _ (Function.update L.head i none j) _
        rw [hnodes' j hj, hhead]
        exact (hl.chain j).congr fun b hb => hkeep b (not_mem_of_ne hinv hj hb)
    · show (next' n).isSome = true ↔ _
      by_cases hn : n ∈ (h.par i).nodes
      · rw [hgone n hn]
        refine iff_of_false Bool.false_ne_true ?_
        rintro ⟨j, hj⟩
        by_cases hji : j = i
        · rw [hji, hself] at hj
          exact List.not_mem_nil hj
        · rw [hnodes' j hji] at hj
          exact not_mem_of_ne hinv hji hj hn
      · rw [hkeep n hn, hl.header]
        constructor
        · rintro ⟨j, hj⟩
          refine ⟨j, ?_⟩
          rwa [hnodes' j (by rintro rfl; exact hn hj)]
        · rintro ⟨j, hj⟩
          refine ⟨j, ?_⟩
          by_cases hji : j = i
          · rw [hji, hself] at hj
            exact absurd hj List.not_mem_nil
          · rwa [← hnodes' j hji]

/-! ### Every operation -/

theorem createPartition {capacity maxAlloc id : ℕ} {sys : Option ℕ} (hl : Linked h L)
    (hok : h.createPartition capacity maxAlloc sys = some (h', id)) :
    Linked h' { L with head := Function.update L.head h.partitions.length none } := by
  obtain ⟨q, -, hpar, ⟨hempty, -⟩, -⟩ := GcHeap.createPartition_ok hok
  have hnodes : ∀ j, (h'.par j).nodes = (h.par j).nodes := by
    intro j
    rw [hpar]
    by_cases hj : j = h.partitions.length
    · rw [if_pos hj, hempty, hj, GcHeap.par_of_length_le (Nat.le_refl _)]
      rfl
    · rw [if_neg hj]
  have hhead : Function.update L.head h.partitions.length none = L.head := by
    refine Function.update_eq_self_iff.mpr ?_
    rw [(hl.chain _).head_eq, GcHeap.par_of_length_le (Nat.le_refl _)]
    rfl
  rw [hhead]
  exact ⟨fun j => (hnodes j).symm ▸ hl.chain j,
    fun n => (hl.header n).trans (by simp only [GcHeap.Live, hnodes])⟩

theorem allocNodeMem {dtype size : ℕ} {payload : Payload} {skipArena : Bool} {sys : Option NodePtr}
    {h₁ : GcHeap} (hl : Linked h L) (hinv : h.MemInv)
    (hdtype : dtype < h.nodeDtypes.typeInfoList.length)
    (hfresh : ∀ n, sys = some n → h.SystemFresh n)
    (hok : h.allocNodeMem i dtype payload skipArena sys = .ok (h₁, n, size))
    (heq : h'.store = (h₁.attachNode i n).store) :
    ∃ L', L.attach i n = some L' ∧ Linked h' L' := by
  obtain ⟨fromArena, hatt, -⟩ := GcHeap.allocNodeMem_attached hok
  obtain ⟨L', hattach, hl'⟩ := hl.attach (hinv.allocNodeMem hdtype hfresh hok).1 hatt
  exact ⟨L', hattach, hl'.congr heq⟩

/-- **Every operation** ends on the pointers as it does on the lists, and with the same heap. -/
theorem step {op : Op} (hl : Linked h L) (hinv : h.MemInv) (hst : Step h op h') :
    ∃ L', linkedExec (h, L) op = some (h', L') ∧ Linked h' L' := by
  have ⟨hpre, hexec⟩ := hst
  cases op with
  | createPartition capacity maxAlloc sys =>
    obtain ⟨⟨h₁, id⟩, hok, rfl⟩ := Option.map_eq_some_iff.mp hexec
    exact ⟨_, by rw [linkedExec, hok]; rfl, hl.createPartition hok⟩
  | allocRaw i dtype payload sys =>
    obtain ⟨-, hdtype, -, hfresh⟩ := hpre
    cases hexec
    cases hr : h.allocRaw i dtype payload sys with
    | error e => exact ⟨L, by rw [linkedExec, hr]; rfl, hl⟩
    | ok r =>
      obtain ⟨h₁, size, hmem, heq⟩ := GcHeap.allocRaw_store hr
      obtain ⟨L', hattach, hl'⟩ := hl.allocNodeMem hinv hdtype hfresh hmem heq
      exact ⟨L', by rw [linkedExec, hr, linkedAlloc, hattach]; rfl, hl'⟩
  | allocRootRaw i dtype payload sys =>
    obtain ⟨-, hdtype, -, hfresh⟩ := hpre
    cases hexec
    cases hr : h.allocRootRaw i dtype payload sys with
    | error e => exact ⟨L, by rw [linkedExec, hr]; rfl, hl⟩
    | ok r =>
      obtain ⟨h₁, size, hmem, heq⟩ := GcHeap.allocRootRaw_store hr
      obtain ⟨L', hattach, hl'⟩ := hl.allocNodeMem hinv hdtype hfresh hmem heq
      exact ⟨L', by rw [linkedExec, hr, linkedAlloc, hattach]; rfl, hl'⟩
  | allocLocal stackId index dtype payload sys =>
    obtain ⟨hdtype, -, hfresh⟩ := hpre
    obtain ⟨s, hs, rfl⟩ := Option.map_eq_some_iff.mp hexec
    cases hr : h.allocLocal stackId index s dtype payload sys with
    | error e => exact ⟨L, by rw [linkedExec, hs, Option.bind_some, hr]; rfl, hl⟩
    | ok r =>
      obtain ⟨h₁, size, hmem, heq⟩ := GcHeap.allocLocal_store hr
      obtain ⟨L', hattach, hl'⟩ := hl.allocNodeMem hinv hdtype hfresh hmem heq
      exact ⟨L', by rw [linkedExec, hs, Option.bind_some, hr, linkedAlloc, hattach]; rfl, hl'⟩
  | sweep i =>
    cases hexec
    obtain ⟨L', hsweep, hl'⟩ := hl.twoPhaseSweep hinv i
    exact ⟨L', by rw [linkedExec, hsweep]; rfl, hl'⟩
  | garbageCollect i =>
    obtain ⟨⟨h₁, bytes⟩, hgc, rfl⟩ := Option.map_eq_some_iff.mp hexec
    rw [GcHeap.garbageCollect] at hgc
    rw [linkedExec]
    split at hgc
    · next hi =>
      obtain ⟨rfl, -⟩ := Prod.mk.inj (Option.some.inj hgc)
      exact ⟨L, if_pos hi, hl⟩
    · next hi =>
      obtain ⟨g, hloop, hsweep⟩ := Option.map_eq_some_iff.mp hgc
      have hstore : g.store = h.store := GcHeap.markFrame_store.markLoop _ _ hloop
      obtain ⟨L', hlinked, hl'⟩ := (hl.congr hstore).twoPhaseSweep (hinv.congr hstore) i
      rw [hsweep] at hlinked hl'
      exact ⟨L', by rw [if_neg hi, hloop, Option.bind_some, hlinked]; rfl, hl'⟩
  | removePartition i sys =>
    obtain ⟨⟨h₁, bytes⟩, hok, rfl⟩ := Option.map_eq_some_iff.mp hexec
    obtain ⟨L', hremove, hl'⟩ := hl.removePartition hinv hok
    exact ⟨L', by rw [linkedExec, hremove]; rfl, hl'⟩
  | downgrade n =>
    obtain ⟨⟨h₁, w⟩, hok, rfl⟩ := Option.map_eq_some_iff.mp hexec
    obtain ⟨slots, rfl⟩ := GcHeap.downgrade_frame hok
    exact ⟨L, congrArg (Option.map fun h => (h, L)) hexec, hl.chain, hl.header⟩
  | acquireScopeStack | releaseScopeStack | newScope | popScope | addNonLocal | protectNode
  | removeNode | promoteNodeTo | clear | setRootNode | bind | withWriteBarrier | removeRefs | mark
  | markReset | setMemoryLimit | setGcThreshold =>
    exact ⟨L, congrArg (Option.map fun h => (h, L)) hexec, hl.congr (exec_store rfl hexec)⟩

end Linked

/-- A step of the heap with its chains in memory. -/
def LinkedStep (g : GcHeap × NodeLinks) (op : Op) (g' : GcHeap × NodeLinks) : Prop :=
  op.Pre g.1 ∧ linkedExec g op = some g'

/-- **The chains of a whole run.** Whatever is done in whatever order, the operations on pointers
lead to the same heap as those on lists: no walk touches a header that is gone or goes on for more
turns than there are nodes. In the end the pointers of each partition lead through its list, the
chains of two partitions have no node in common, and there are headers exactly where nodes are
live. -/
theorem linked_run {registry : GcTypeRegistry} {ops : List Op} {h : GcHeap}
    (hr : Run Step (GcHeap.new registry) ops h) :
    ∃ L, Run LinkedStep (GcHeap.new registry, .empty) ops (h, L) ∧
      (∀ i, Chain L.next (L.head i) (h.par i).nodes) ∧
      (∀ i j, i ≠ j → (h.par i).nodes.Disjoint (h.par j).nodes) ∧
      ∀ n, (L.next n).isSome = true ↔ h.Live n := by
  have hstep : ∀ ops h op h',
      (h.MemInv ∧ ∃ L, Run LinkedStep (GcHeap.new registry, .empty) ops (h, L) ∧ Linked h L) →
      Step h op h' → h'.MemInv ∧
        ∃ L, Run LinkedStep (GcHeap.new registry, .empty) (ops ++ [op]) (h', L) ∧ Linked h' L := by
    rintro ops g op g' ⟨hinv, L, hrun, hl⟩ hst
    obtain ⟨L', hexec, hl'⟩ := hl.step hinv hst
    exact ⟨hinv.step hst, L', run_concat.mpr ⟨_, hrun, hst.1, hexec⟩, hl'⟩
  obtain ⟨hinv, L, hrun, hl⟩ := hr.invariant_trace (I := fun ops h => h.MemInv ∧
    ∃ L, Run LinkedStep (GcHeap.new registry, .empty) ops (h, L) ∧ Linked h L) hstep
    ⟨GcHeap.MemInv.new registry, .empty, .nil _, .new _⟩
  exact ⟨L, hrun, hl.chain, fun i j hij n hi hj => Linked.not_mem_of_ne hinv (Ne.symm hij) hj hi,
    hl.header⟩

/-- Two of three nodes are collected, and the memory of one of them is used again. -/
theorem linked_run_reused : ∃ (registry : GcTypeRegistry) (ops : List Op) (h : GcHeap)
    (L : NodeLinks), Run LinkedStep (GcHeap.new registry, .empty) ops (h, L) ∧
      L.head 0 = some 2000 ∧ L.next 2000 = some (some 1000) ∧ L.next 1000 = some none ∧
      L.next 3000 = none := by
  have hplay : (play (fun _ _ => True)
      [.createPartition 0 0 none, .allocRootRaw 0 0 [] (some 1000), .allocRaw 0 0 [] (some 2000),
        .allocRaw 0 0 [] (some 3000), .garbageCollect 0, .allocRaw 0 0 [] (some 2000)]
      (GcHeap.new (gcTypeTableInternal 24 8 [⟨8, 8, true, none⟩]))).any fun h =>
        (h.par 0).nodes = [2000, 1000] ∧ ∀ q ∈ h.partitions, 3000 ∉ q.nodes := by decide +kernel
  obtain ⟨h, hrun, h'⟩ := Option.any_eq_true _ _ |>.mp hplay
  obtain ⟨hnodes, hfreed⟩ := of_decide_eq_true h'
  obtain ⟨L, hrun, hchain, -, hheader⟩ :=
    linked_run ((run_of_play hrun).mono fun _ _ _ => And.left)
  have hchain := hnodes ▸ hchain 0
  obtain ⟨hhead, q, hq, rfl, r, hr, rfl⟩ := hchain
  have hgone : ¬ h.Live 3000 := by
    rw [GcHeap.live_iff]
    rintro ⟨q, hq, hmem⟩
    exact hfreed q hq hmem
  refine ⟨_, _, h, L, hrun, hhead, hq, hr, ?_⟩
  rwa [← hheader, Option.not_isSome_iff_eq_none] at hgone

end GcLite
