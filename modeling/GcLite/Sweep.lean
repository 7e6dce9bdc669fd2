import GcLite.Library.Buckets
import GcLite.MarkOps
import GcLite.Store

/-!
# What a sweep disposes of

The last phase of a sweep goes through the unlinked nodes once for each drop pass. It comes to the
same as disposing of each of them once, pass by pass, because disposing of a node changes neither
headers nor the type table.

## Main definitions

* `GcHeap.passOrder` — the order in which the passes reach the nodes
* `GcHeap.survivors`, `GcHeap.unlinked` — the two parts of a chain
* `GcHeap.CycleDone` — a partition can be swept

## Main results

* `SweepState.disposeNode_frame`, and the lemmas after it — what disposing of one node changes
* `passOrder_perm` — every node is reached exactly once
* `sweepPasses_eq` — the passes are one pass over `passOrder`
* `twoPhaseSweep_of_done`, `mem_nodes_twoPhaseSweep` — a whole sweep
-/

namespace GcLite

/-- The order in which the drop passes reach the nodes of a list. -/
def GcHeap.passOrder (h : GcHeap) (l : List NodePtr) : List NodePtr :=
  buckets (fun n => (h.info n).dropPass) h.nodeDtypes.dropPasses l

/-! ### One node -/

namespace GcHeap

variable {h h' : GcHeap} {i j : ℕ} {n : NodePtr}

/-- What a disposal adds to the counters, in the arithmetic of `update_mem_use`. -/
def freeDelta (size : ℕ) : ℤ :=
  let delta := asI32 (-asI32 size)
  if delta ≥ 0 then asUsize delta else -asUsize (asI32 (-delta))

/-- It is minus the size, if that fits an `i32`. -/
theorem freeDelta_of_lt {size : ℕ} (hsize : size < 2 ^ 31) : freeDelta size = -size := by
  unfold freeDelta
  rw [asI32_neg_of_lt hsize]
  rcases Nat.eq_zero_or_pos size with rfl | hpos
  · simp [asUsize]
  · simp only []
    rw [if_neg (by omega), Int.neg_neg, asI32_of_lt hsize, asUsize_of_lt (by omega)]

/-- A counter after a disposal. -/
@[irreducible] def countFreed (size m : ℕ) : ℕ := asUsize (m + freeDelta size)

theorem updateMemUse_free (h : GcHeap) (i size : ℕ) : h.updateMemUse i (asI32 (-asI32 size)) =
    { h.modifyPar i fun q => { q with memoryUsed := countFreed size q.memoryUsed } with
      totalMemoryUsed := countFreed size h.totalMemoryUsed } := by
  unfold updateMemUse countFreed freeDelta
  by_cases hdelta : asI32 (-asI32 size) ≥ 0
  · simp only [if_pos hdelta]
  · simp only [if_neg hdelta, ← Int.sub_eq_add_neg]

/-- What disposing of a node does to the world, its payload apart. -/
def disposeEvents (h : GcHeap) (n : NodePtr) : List GcEvent :=
  .disposed n :: if (h.head n).arenaAlloc then []
    else [.memDealloc n (h.info n).layoutSize (h.info n).layoutAlign]

/-- What disposing of a node changes: its weak slot, the two counters, and the world outside. The
function of the counters is kept behind a name, so that no proof ever computes with `2 ^ 64`. -/
theorem disposeNoDrop_eq (h : GcHeap) (n : NodePtr) : ∃ f, f = countFreed (h.info n).layoutSize ∧
    h.disposeNoDrop n = ({ h.modifyPar (h.head n).partitionId fun q =>
        { q with memoryUsed := f q.memoryUsed } with
      totalMemoryUsed := f h.totalMemoryUsed
      weakSlots := emptySlot h.weakSlots (h.head n).weakId
      log := h.log ++ h.disposeEvents n }, (h.info n).layoutSize) := by
  refine ⟨_, rfl, ?_⟩
  unfold disposeNoDrop disposeMemOnly disposeEvents
  dsimp only
  rw [clearWeakSlot_eq, updateMemUse_free, updateMemUse_free]
  by_cases hn : (h.head n).arenaAlloc = true
  · simp only [emit, hn]
    rfl
  · simp only [emit, hn]
    simp only [List.append_assoc]
    rfl

theorem arena_disposeNoDrop (h : GcHeap) (n : NodePtr) (j : ℕ) :
    ((h.disposeNoDrop n).1.par j).arena = (h.par j).arena := by
  obtain ⟨f, hf, heq⟩ := h.disposeNoDrop_eq n
  rw [heq]
  exact field_modifyPar GcPartition.arena fun _ => rfl

namespace SweepState

variable {s : SweepState}

/-- Disposing of a node leaves headers, payloads, types, scopes and limits alone. -/
theorem disposeNode_frame (s : SweepState) (n : NodePtr) : ∃ ps total slots log,
    (s.disposeNode i n).heap = { s.heap with
      partitions := ps, totalMemoryUsed := total, weakSlots := slots, log := log } := by
  obtain ⟨f, hf, heq⟩ := s.heap.disposeNoDrop_eq n
  unfold disposeNode
  rw [heq]
  dsimp only
  split <;> exact ⟨_, _, _, _, rfl⟩

@[simp] theorem head_disposeNode : (s.disposeNode i n).heap.head = s.heap.head := by
  obtain ⟨ps, total, slots, log, heq⟩ := s.disposeNode_frame (i := i) n
  rw [heq]

@[simp] theorem nodeDtypes_disposeNode :
    (s.disposeNode i n).heap.nodeDtypes = s.heap.nodeDtypes := by
  obtain ⟨ps, total, slots, log, heq⟩ := s.disposeNode_frame (i := i) n
  rw [heq]

@[simp] theorem info_disposeNode : (s.disposeNode i n).heap.info = s.heap.info := by
  obtain ⟨ps, total, slots, log, heq⟩ := s.disposeNode_frame (i := i) n
  rw [heq]
  rfl

@[simp] theorem length_disposeNode :
    (s.disposeNode i n).heap.partitions.length = s.heap.partitions.length :=
  congrArg MarkState.count (view_disposeNode (i := i) (n := n) s)

@[simp] theorem freedBytes_disposeNode :
    (s.disposeNode i n).freedBytes = s.freedBytes + (s.heap.info n).layoutSize := by
  obtain ⟨f, hf, heq⟩ := s.heap.disposeNoDrop_eq n
  unfold disposeNode
  rw [heq]
  dsimp only
  split <;> rfl

@[simp] theorem weakSlots_disposeNode :
    (s.disposeNode i n).heap.weakSlots = emptySlot s.heap.weakSlots (s.heap.head n).weakId := by
  obtain ⟨f, hf, heq⟩ := s.heap.disposeNoDrop_eq n
  unfold disposeNode
  rw [heq]
  dsimp only
  split <;> rfl

theorem totalMemoryUsed_disposeNode : (s.disposeNode i n).heap.totalMemoryUsed =
    countFreed (s.heap.info n).layoutSize s.heap.totalMemoryUsed := by
  obtain ⟨f, hf, heq⟩ := s.heap.disposeNoDrop_eq n
  rw [← hf]
  unfold disposeNode
  rw [heq]
  dsimp only
  split <;> rfl

theorem memoryUsed_disposeNode (hpid : (s.heap.head n).partitionId < s.heap.partitions.length) :
    ((s.disposeNode i n).heap.par j).memoryUsed =
      if j = (s.heap.head n).partitionId then
        countFreed (s.heap.info n).layoutSize (s.heap.par j).memoryUsed
      else (s.heap.par j).memoryUsed := by
  obtain ⟨f, hf, heq⟩ := s.heap.disposeNoDrop_eq n
  have hcount : ((s.heap.modifyPar (s.heap.head n).partitionId fun q =>
      { q with memoryUsed := f q.memoryUsed }).par j).memoryUsed =
      if j = (s.heap.head n).partitionId then f (s.heap.par j).memoryUsed
      else (s.heap.par j).memoryUsed := by
    rw [par_modifyPar]
    split
    · next hj => rw [if_pos hj.1.symm, hj.1]
    · next hj => rw [if_neg fun heq => hj ⟨heq.symm, hpid⟩]
  rw [← hf, ← hcount]
  unfold disposeNode
  rw [heq]
  dsimp only
  split
  · exact field_modifyPar GcPartition.memoryUsed fun _ => rfl
  · rfl

theorem arena_disposeNode_of_ne (hj : j ≠ i) :
    ((s.disposeNode i n).heap.par j).arena = (s.heap.par j).arena := by
  obtain ⟨f, hf, heq⟩ := s.heap.disposeNoDrop_eq n
  unfold disposeNode
  rw [heq]
  dsimp only
  split
  · rw [par_modifyPar_of_ne (Ne.symm hj)]
    exact field_modifyPar GcPartition.arena fun _ => rfl
  · exact field_modifyPar GcPartition.arena fun _ => rfl

/-- A node that is not the arena's leaves the arena and the holes alone. -/
theorem arena_disposeNode_of_system (hn : (s.heap.head n).arenaAlloc = false) :
    ((s.disposeNode i n).heap.par i).arena = (s.heap.par i).arena ∧
      (s.disposeNode i n).holes = s.holes := by
  obtain ⟨f, hf, heq⟩ := s.heap.disposeNoDrop_eq n
  unfold disposeNode
  rw [heq, hn]
  exact ⟨field_modifyPar GcPartition.arena fun _ => rfl, rfl⟩

/-- Without an arena there is nothing to leave. -/
theorem arena_disposeNode_of_none (hA : (s.heap.par i).arena = none) :
    ((s.disposeNode i n).heap.par i).arena = none ∧ (s.disposeNode i n).holes = s.holes := by
  unfold disposeNode
  dsimp only
  split
  · next A _ hA' =>
    rw [arena_disposeNoDrop, hA] at hA'
    cases hA'
  · exact ⟨(arena_disposeNoDrop _ _ _).trans hA, rfl⟩

/-- A node of the arena is collected. -/
theorem arena_disposeNode {A : GcArena} (hn : (s.heap.head n).arenaAlloc = true)
    (hA : (s.heap.par i).arena = some A) (hi : i < s.heap.partitions.length) :
    ((s.disposeNode i n).heap.par i).arena =
        some (A.collectHole s.holes n (s.heap.info n).layoutSize).1 ∧
      (s.disposeNode i n).holes = (A.collectHole s.holes n (s.heap.info n).layoutSize).2 := by
  have hcase : ∀ h₁ : GcHeap, s.heap.disposeNoDrop n = (h₁, (s.heap.info n).layoutSize) →
      h₁.partitions.length = s.heap.partitions.length → (h₁.par i).arena = some A →
      ((s.disposeNode i n).heap.par i).arena =
          some (A.collectHole s.holes n (s.heap.info n).layoutSize).1 ∧
        (s.disposeNode i n).holes = (A.collectHole s.holes n (s.heap.info n).layoutSize).2 := by
    intro h₁ heq hlen hA₁
    unfold disposeNode
    rw [heq, hn]
    dsimp only
    rw [hA₁]
    exact ⟨congrArg GcPartition.arena (par_modifyPar_self (hlen ▸ hi)), rfl⟩
  obtain ⟨f, hf, heq⟩ := s.heap.disposeNoDrop_eq n
  refine hcase _ heq length_modifyPar ?_
  rw [← hA]
  exact field_modifyPar GcPartition.arena fun _ => rfl

end SweepState

/-! ### The passes -/

variable {l : List NodePtr}

theorem passOrder_perm (hl : ∀ n ∈ l, (h.head n).dtype < h.nodeDtypes.typeInfoList.length) :
    (h.passOrder l).Perm l := by
  refine buckets_perm (h.nodeDtypes.sorted.imp Nat.ne_of_lt) fun n hn => ?_
  refine h.nodeDtypes.covers _ ?_
  rw [info, List.getD_eq_getElem?_getD, List.getElem?_eq_getElem (hl n hn)]
  exact List.getElem_mem _

theorem foldl_disposeNode_frame (l : List NodePtr) : ∀ s : SweepState, ∃ ps total slots log,
    (l.foldl (SweepState.disposeNode i) s).heap = { s.heap with
      partitions := ps, totalMemoryUsed := total, weakSlots := slots, log := log } := by
  induction l with
  | nil => exact fun s => ⟨_, _, _, _, rfl⟩
  | cons n l ih =>
    intro s
    obtain ⟨ps, total, slots, log, heq⟩ := s.disposeNode_frame (i := i) n
    obtain ⟨ps', total', slots', log', heq'⟩ := ih (s.disposeNode i n)
    exact ⟨ps', total', slots', log', by rw [List.foldl_cons, heq', heq]⟩

theorem info_foldl_disposeNode (l : List NodePtr) (s : SweepState) :
    (l.foldl (SweepState.disposeNode i) s).heap.info = s.heap.info := by
  obtain ⟨ps, total, slots, log, heq⟩ := foldl_disposeNode_frame (i := i) l s
  rw [heq]
  rfl

theorem view_foldl_disposeNode (l : List NodePtr) : ∀ s : SweepState,
    (l.foldl (SweepState.disposeNode i) s).heap.view = s.heap.view := by
  induction l with
  | nil => exact fun s => rfl
  | cons n l ih => exact fun s => (ih _).trans (view_disposeNode s)

theorem sweepPass_eq (pass : ℕ) (l : List NodePtr) : ∀ s : SweepState, sweepPass i pass s l =
    ((l.filter fun n => (s.heap.info n).dropPass == pass).foldl (SweepState.disposeNode i) s,
      l.filter fun n => (s.heap.info n).dropPass != pass) := by
  induction l with
  | nil => exact fun s => rfl
  | cons n l ih =>
    intro s
    unfold sweepPass
    split
    · next hpass => simp [ih, hpass]
    · next hpass => simp [ih, hpass]

/-- Disposing pass by pass, until nothing remains, is disposing of each node in the order of the
passes. -/
theorem sweepPasses_eq {passes : List ℕ} (hnd : passes.Nodup) : ∀ (s : SweepState)
    (l : List NodePtr), sweepPasses i passes s l =
      (buckets (fun n => (s.heap.info n).dropPass) passes l).foldl (SweepState.disposeNode i)
        s := by
  induction passes with
  | nil => exact fun s l => rfl
  | cons pass passes ih =>
    intro s l
    obtain ⟨hpass, hnd⟩ := List.nodup_cons.mp hnd
    rw [buckets_cons hpass, List.foldl_append]
    simp only [sweepPasses, sweepPass_eq]
    split
    · next hnil => rw [List.isEmpty_iff.mp hnil, buckets_nil, List.foldl_nil]
    · rw [ih hnd, info_foldl_disposeNode]

theorem sweepDispose_eq (white : List NodePtr) : h.sweepDispose i white =
    let s := (h.passOrder white).foldl (SweepState.disposeNode i) ⟨h, [], 0⟩
    (s.heap.finishSweep i s.holes, s.freedBytes) := by
  rw [sweepDispose, sweepPasses_eq (h.nodeDtypes.sorted.imp Nat.ne_of_lt)]
  rfl

/-! ### A whole sweep -/

/-- Finishing a sweep changes the arena of its partition only. -/
theorem finishSweep_frame (h : GcHeap) (i : ℕ) (holes : List Hole) :
    ∃ f : Option GcArena → Option GcArena, (∀ A, f (some A) = some (A.finishSweep holes).1) ∧
      f none = none ∧
      (h.finishSweep i holes = h.modifyPar i fun q => { q with arena := f q.arena }) := by
  refine ⟨Option.map fun A => (A.finishSweep holes).1, fun A => rfl, rfl, ?_⟩
  unfold finishSweep
  split
  · next A hA => exact modifyPar_congr (by rw [hA]; rfl)
  · next hnone => exact (modifyPar_eq_self (by rw [hnone, Option.map_none, ← hnone])).symm

/-- What a sweep leaves in the chain. -/
def survivors (h : GcHeap) (i : ℕ) : List NodePtr :=
  (h.par i).nodes.filter fun n => !h.isWhiteNonRoot n

/-- What it unlinks. -/
def unlinked (h : GcHeap) (i : ℕ) : List NodePtr := (h.par i).nodes.filter h.isWhiteNonRoot

theorem survivors_append_unlinked_perm :
    (h.unlinked i ++ h.survivors i).Perm (h.par i).nodes :=
  List.filter_append_perm _ _

/-- A sweep happens when the cycle is complete and the chain is not empty. -/
theorem sweepUnlink_ok {white : List NodePtr} (hok : h.sweepUnlink i = (h', some white)) :
    (i < h.partitions.length ∧ (h.par i).marking = true ∧ (h.par i).grayList = []) ∧
      white = h.unlinked i ∧
      h' = h.modifyPar i fun q => { q with marking := false, nodes := h.survivors i } := by
  unfold sweepUnlink at hok
  split at hok
  · cases hok
  next hi =>
  split at hok
  · cases hok
  next hguard =>
  dsimp only at hok
  split at hok
  · cases hok
  obtain ⟨rfl, heq⟩ := Prod.mk.inj hok
  have hguard : (h.par i).marking = true ∧ (h.par i).grayList = [] := by
    simpa [List.isEmpty_iff] using hguard
  refine ⟨⟨Nat.lt_of_not_le hi, hguard⟩, (Option.some.inj heq).symm, ?_⟩
  exact modifyPar_modifyPar _ _

/-- The cycle of a partition is complete, so that it can be swept. -/
def CycleDone (h : GcHeap) (i : ℕ) : Prop :=
  i < h.partitions.length ∧ (h.par i).marking = true ∧ (h.par i).grayList = []

instance : Decidable (h.CycleDone i) := inferInstanceAs (Decidable (_ ∧ _ ∧ _))

theorem twoPhaseSweep_of_not_done (hdone : ¬ h.CycleDone i) : h.twoPhaseSweep i = (h, 0) := by
  rw [twoPhaseSweep, sweepUnlink_of_not_done hdone]

/-- Sweeping an empty chain only ends the cycle. -/
theorem twoPhaseSweep_of_empty (hdone : h.CycleDone i) (hempty : (h.par i).nodes = []) :
    h.twoPhaseSweep i = (h.setMarking i false, 0) := by
  obtain ⟨hi, hm, hg⟩ := hdone
  simp [twoPhaseSweep, sweepUnlink, Nat.not_le.mpr hi, hm, hg, hempty]

/-- The heap when its dead nodes have been unlinked and their payloads dropped. -/
def dropped (h : GcHeap) (i : ℕ) : GcHeap :=
  { h.modifyPar i fun q => { q with marking := false, nodes := h.survivors i } with
    log := h.log ++ (h.unlinked i).flatMap h.dropPayload }

/-- **A sweep** unlinks the white nodes, disposes of each of them once, and finishes the arena. -/
theorem twoPhaseSweep_of_done (hdone : h.CycleDone i) (hne : (h.par i).nodes ≠ []) : ∃ s,
    s = (h.passOrder (h.unlinked i)).foldl (SweepState.disposeNode i) ⟨h.dropped i, [], 0⟩ ∧
    h.twoPhaseSweep i = (s.heap.finishSweep i s.holes, s.freedBytes) := by
  refine ⟨_, rfl, ?_⟩
  unfold twoPhaseSweep
  rcases hun : h.sweepUnlink i with ⟨h₁, _ | white⟩
  · obtain ⟨hi, hm, hg⟩ := hdone
    simp [sweepUnlink, hm, hg, hne, Nat.not_le.mpr hi] at hun
  · obtain ⟨-, rfl, hh₁⟩ := sweepUnlink_ok hun
    have hdropped : h₁.emit (h₁.sweepDropPayloads (h.unlinked i)) = h.dropped i := by
      rw [hh₁]
      rfl
    dsimp only
    rw [hdropped, sweepDispose_eq]
    rfl

/-- Either that, or the store stays as it was. -/
theorem twoPhaseSweep_eq (h : GcHeap) (i : ℕ) :
    ((h.twoPhaseSweep i).1.store = h.store ∧ (h.twoPhaseSweep i).2 = 0) ∨
    (h.CycleDone i ∧ ∃ s,
      s = (h.passOrder (h.unlinked i)).foldl (SweepState.disposeNode i) ⟨h.dropped i, [], 0⟩ ∧
      h.twoPhaseSweep i = (s.heap.finishSweep i s.holes, s.freedBytes)) := by
  by_cases hdone : h.CycleDone i
  · by_cases hempty : (h.par i).nodes = []
    · rw [twoPhaseSweep_of_empty hdone hempty]
      exact .inl ⟨store_setMarking false, rfl⟩
    · exact .inr ⟨hdone, twoPhaseSweep_of_done hdone hempty⟩
  · rw [twoPhaseSweep_of_not_done hdone]
    exact .inl ⟨rfl, rfl⟩

/-- What a sweep may change. -/
theorem twoPhaseSweep_update (h : GcHeap) (i : ℕ) : ∃ ps total slots log,
    (h.twoPhaseSweep i).1 = { h with
      partitions := ps, totalMemoryUsed := total, weakSlots := slots, log := log } := by
  by_cases hdone : h.CycleDone i
  · by_cases hempty : (h.par i).nodes = []
    · rw [twoPhaseSweep_of_empty hdone hempty]
      exact ⟨_, _, _, _, rfl⟩
    · obtain ⟨s, hs, heq⟩ := twoPhaseSweep_of_done hdone hempty
      obtain ⟨ps, total, slots, log, hframe⟩ := foldl_disposeNode_frame (i := i)
        (h.passOrder (h.unlinked i)) ⟨h.dropped i, [], 0⟩
      obtain ⟨f, -, -, hfinish⟩ := finishSweep_frame s.heap i s.holes
      rw [heq, hfinish, hs, hframe]
      exact ⟨_, _, _, _, rfl⟩
  · rw [twoPhaseSweep_of_not_done hdone]
    exact ⟨_, _, _, _, rfl⟩

/-- It changes neither headers nor scopes. -/
theorem twoPhaseSweep_frame (h : GcHeap) (i : ℕ) : (h.twoPhaseSweep i).1.head = h.head ∧
    (h.twoPhaseSweep i).1.nodeDtypes = h.nodeDtypes ∧
    (h.twoPhaseSweep i).1.scopeStacks = h.scopeStacks := by
  obtain ⟨ps, total, slots, log, heq⟩ := h.twoPhaseSweep_update i
  rw [heq]
  exact ⟨rfl, rfl, rfl⟩

theorem nodes_twoPhaseSweep (hdone : h.CycleDone i) : ((h.twoPhaseSweep i).1.par j).nodes =
    if j = i then h.survivors i else (h.par j).nodes := by
  have hview := view_twoPhaseSweep (h := h) (i := i)
  rw [(view_sweepUnlink hdone.1 hdone.2.1 hdone.2.2).1] at hview
  have hchain := congrFun (congrArg MarkState.chain hview) j
  by_cases hj : j = i
  · subst hj
    simp only [MarkState.unlink, if_true] at hchain
    rw [if_pos rfl]
    exact hchain
  · simp only [MarkState.unlink, if_neg hj] at hchain
    rw [if_neg hj]
    exact hchain

/-- A sweep of a complete cycle takes the white unprotected nodes out of its own chain. -/
theorem mem_nodes_twoPhaseSweep : n ∈ ((h.twoPhaseSweep i).1.par j).nodes ↔
    n ∈ (h.par j).nodes ∧ (j = i → h.CycleDone i → h.isWhiteNonRoot n = false) := by
  by_cases hdone : h.CycleDone i
  · have hview := view_twoPhaseSweep (h := h) (i := i)
    rw [(view_sweepUnlink hdone.1 hdone.2.1 hdone.2.2).1] at hview
    change n ∈ (h.twoPhaseSweep i).1.view.chain j ↔ _
    rw [hview, MarkState.mem_chain_unlink]
    exact and_congr_right fun _ => ⟨fun hj hji _ => hj hji, fun hj hji => hj hji hdone⟩
  · rw [twoPhaseSweep_of_not_done hdone]
    simp [hdone]

theorem weakSlots_foldl_disposeNode (l : List NodePtr) : ∀ s : SweepState,
    (l.foldl (SweepState.disposeNode i) s).heap.weakSlots =
      (l.map fun n => (s.heap.head n).weakId).foldl emptySlot s.heap.weakSlots := by
  induction l with
  | nil => exact fun s => rfl
  | cons n l ih =>
    intro s
    rw [List.foldl_cons, ih, SweepState.weakSlots_disposeNode, SweepState.head_disposeNode]
    rfl

/-- A sweep empties the slots of the nodes it takes out. -/
theorem weakSlots_twoPhaseSweep (hdone : h.CycleDone i) : (h.twoPhaseSweep i).1.weakSlots =
    ((h.passOrder (h.unlinked i)).map fun n => (h.head n).weakId).foldl emptySlot h.weakSlots := by
  by_cases hempty : (h.par i).nodes = []
  · rw [twoPhaseSweep_of_empty hdone hempty]
    simp [unlinked, hempty, passOrder, setMarking]
  · obtain ⟨s, hs, heq⟩ := twoPhaseSweep_of_done hdone hempty
    obtain ⟨f, -, -, hfinish⟩ := finishSweep_frame s.heap i s.holes
    rw [heq, hfinish, weakSlots_modifyPar, hs, weakSlots_foldl_disposeNode]
    rfl

end GcHeap

end GcLite
