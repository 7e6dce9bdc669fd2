import GcLite.MemInvariant

/-!
# Destruction

What the ways of reclaiming nodes do to the world: which drop functions run, which nodes are
disposed of, which blocks go back to the system, and in which order. Each way is a list of effects
that the heap's record grows by.

## Main definitions

* `dropsIn`, `disposalsIn`, `deallocsIn` — the effects of one kind
* `DestroysOnce` — every node of a list is destroyed once, and no other node is
* `GcHeap.newEvents` — what has happened between two states of a heap

## Main results

* `log_twoPhaseSweep`, `log_sweep`, `log_disposeAllNodes`, `log_finalizePartition`,
  `log_deallocPartition` — the effects of each way
-/

namespace GcLite

/-! ### Kinds of effects -/

/-- The nodes whose drop functions run, in order. -/
def dropsIn (events : List GcEvent) : List NodePtr :=
  events.filterMap fun
    | .dropFn n => some n
    | _ => none

/-- The nodes that are disposed of, in order. -/
def disposalsIn (events : List GcEvent) : List NodePtr :=
  events.filterMap fun
    | .disposed n => some n
    | _ => none

/-- The blocks that go back to the system allocator, with the layouts they go back with. -/
def deallocsIn (events : List GcEvent) : List (NodePtr × ℕ × ℕ) :=
  events.filterMap fun
    | .memDealloc n size align => some (n, size, align)
    | _ => none

section

variable {events events' : List GcEvent} {l : List NodePtr} {f : NodePtr → List GcEvent}

@[simp] theorem dropsIn_append : dropsIn (events ++ events') = dropsIn events ++ dropsIn events' :=
  List.filterMap_append

@[simp] theorem disposalsIn_append :
    disposalsIn (events ++ events') = disposalsIn events ++ disposalsIn events' :=
  List.filterMap_append

@[simp] theorem deallocsIn_append :
    deallocsIn (events ++ events') = deallocsIn events ++ deallocsIn events' :=
  List.filterMap_append

theorem dropsIn_flatMap : dropsIn (l.flatMap f) = l.flatMap fun n => dropsIn (f n) :=
  List.filterMap_flatMap

theorem disposalsIn_flatMap : disposalsIn (l.flatMap f) = l.flatMap fun n => disposalsIn (f n) :=
  List.filterMap_flatMap

theorem deallocsIn_flatMap : deallocsIn (l.flatMap f) = l.flatMap fun n => deallocsIn (f n) :=
  List.filterMap_flatMap

end

/-- Every node of the list is destroyed exactly once, and no other node is: its drop function runs
if its type has one, and then the node is disposed of. -/
structure DestroysOnce (h : GcHeap) (l : List NodePtr) (events : List GcEvent) : Prop where
  /-- The drop functions of these nodes run, once each. -/
  drops : ∀ n, (dropsIn events).count n = if n ∈ l ∧ (h.info n).dropFn then 1 else 0
  /-- These nodes are disposed of, once each. -/
  disposals : ∀ n, (disposalsIn events).count n = if n ∈ l then 1 else 0
  /-- No payload is dropped after its node is gone. -/
  order : events.Pairwise fun e e' => ∀ n, e = .disposed n → e' ≠ .dropFn n

theorem DestroysOnce.of_perm {h : GcHeap} {l : List NodePtr} {events : List GcEvent}
    (hnd : l.Nodup) (hdrops : (dropsIn events).Perm (l.filter fun n => (h.info n).dropFn))
    (hdisposals : (disposalsIn events).Perm l)
    (horder : events.Pairwise fun e e' => ∀ n, e = .disposed n → e' ≠ .dropFn n) :
    DestroysOnce h l events := by
  refine ⟨fun n => ?_, fun n => ?_, horder⟩
  · rw [hdrops.count_eq, (hnd.filter _).count]
    simp
  · rw [hdisposals.count_eq, hnd.count]

namespace GcHeap

variable {h h' : GcHeap} {i : ℕ} {n : NodePtr} {l : List NodePtr}

/-- What has happened since `h`. -/
def newEvents (h h' : GcHeap) : List GcEvent := h'.log.drop h.log.length

theorem newEvents_of_log {events : List GcEvent} (hlog : h'.log = h.log ++ events) :
    h.newEvents h' = events := by
  rw [newEvents, hlog, List.drop_left]

/-! ### One node -/

theorem dropsIn_dropPayload :
    dropsIn (h.dropPayload n) = if (h.info n).dropFn then [n] else [] := by
  unfold dropPayload
  split <;> rfl

theorem disposalsIn_dropPayload : disposalsIn (h.dropPayload n) = [] := by
  unfold dropPayload
  split <;> rfl

theorem deallocsIn_dropPayload : deallocsIn (h.dropPayload n) = [] := by
  unfold dropPayload
  split <;> rfl

theorem mem_dropPayload {e : GcEvent} (he : e ∈ h.dropPayload n) : e = .dropFn n := by
  unfold dropPayload at he
  split at he
  · exact List.mem_singleton.mp he
  · exact absurd he List.not_mem_nil

theorem dropsIn_disposeEvents : dropsIn (h.disposeEvents n) = [] := by
  unfold disposeEvents
  split <;> rfl

theorem disposalsIn_disposeEvents : disposalsIn (h.disposeEvents n) = [n] := by
  unfold disposeEvents
  split <;> rfl

theorem mem_disposeEvents {e : GcEvent} (he : e ∈ h.disposeEvents n) :
    (∀ m, e ≠ .dropFn m) ∧ ∀ m, e = .disposed m → m = n := by
  unfold disposeEvents at he
  rcases List.mem_cons.mp he with rfl | he
  · exact ⟨fun _ => nofun, fun m hm => (GcEvent.disposed.inj hm).symm⟩
  · split at he
    · exact absurd he List.not_mem_nil
    · rw [List.mem_singleton.mp he]
      exact ⟨fun _ => nofun, fun _ => nofun⟩

/-- The effects depend on the node's type and on where it came from. -/
theorem disposeEvents_of_store (heq : h'.store = h.store) : h'.disposeEvents = h.disposeEvents := by
  funext m
  simp only [disposeEvents, arenaAlloc_of_store heq, info_of_store heq]

theorem dropPayload_of_store (heq : h'.store = h.store) : h'.dropPayload = h.dropPayload := by
  funext m
  simp only [dropPayload, info_of_store heq]

/-- Disposing of a node with its payload is dropping the payload first. -/
theorem dispose_eq (h : GcHeap) (n : NodePtr) :
    h.dispose n = (h.emit (h.dropPayload n)).disposeNoDrop n := by
  unfold dispose disposeNoDrop
  rw [clearWeakSlot_eq, clearWeakSlot_eq]
  rfl

namespace SweepState

variable {s : SweepState}

theorem log_disposeNode : (s.disposeNode i n).heap.log = s.heap.log ++ s.heap.disposeEvents n := by
  obtain ⟨f, -, heq⟩ := s.heap.disposeNoDrop_eq n
  unfold disposeNode
  rw [heq]
  dsimp only
  split <;> rfl

theorem disposeEvents_disposeNode :
    (s.disposeNode i n).heap.disposeEvents = s.heap.disposeEvents := by
  funext m
  simp only [disposeEvents, head_disposeNode, info_disposeNode]

theorem disposeWithDrop_eq (s : SweepState) (n : NodePtr) : s.disposeWithDrop i n =
    disposeNode i { s with heap := s.heap.emit (s.heap.dropPayload n) } n := by
  unfold disposeWithDrop disposeNode
  rw [dispose_eq]
  rfl

theorem head_disposeWithDrop : (s.disposeWithDrop i n).heap.head = s.heap.head := by
  rw [disposeWithDrop_eq, head_disposeNode]
  rfl

theorem info_disposeWithDrop : (s.disposeWithDrop i n).heap.info = s.heap.info := by
  rw [disposeWithDrop_eq, info_disposeNode]
  rfl

theorem log_disposeWithDrop : (s.disposeWithDrop i n).heap.log =
    s.heap.log ++ (s.heap.dropPayload n ++ s.heap.disposeEvents n) := by
  rw [disposeWithDrop_eq, log_disposeNode, emit, List.append_assoc]
  rfl

end SweepState

/-! ### Lists of nodes -/

theorem dropsIn_payloads (l : List NodePtr) :
    dropsIn (l.flatMap h.dropPayload) = l.filter fun n => (h.info n).dropFn := by
  induction l with
  | nil => rfl
  | cons n l ih =>
    rw [List.flatMap_cons, dropsIn_append, ih, dropsIn_dropPayload, List.filter_cons]
    split <;> rfl

theorem dropsIn_each (l : List NodePtr) :
    dropsIn (l.flatMap fun n => h.dropPayload n ++ h.disposeEvents n) =
      l.filter fun n => (h.info n).dropFn := by
  rw [← dropsIn_payloads]
  simp only [dropsIn_flatMap, dropsIn_append, dropsIn_disposeEvents, List.append_nil]

theorem disposalsIn_payloads (l : List NodePtr) : disposalsIn (l.flatMap h.dropPayload) = [] := by
  simp [disposalsIn_flatMap, disposalsIn_dropPayload]

theorem deallocsIn_payloads (l : List NodePtr) : deallocsIn (l.flatMap h.dropPayload) = [] := by
  simp [deallocsIn_flatMap, deallocsIn_dropPayload]

theorem dropsIn_disposals (l : List NodePtr) : dropsIn (l.flatMap h.disposeEvents) = [] := by
  simp [dropsIn_flatMap, dropsIn_disposeEvents]

theorem disposalsIn_disposals (l : List NodePtr) :
    disposalsIn (l.flatMap h.disposeEvents) = l := by
  simp [disposalsIn_flatMap, disposalsIn_disposeEvents]

/-- All payloads are dropped before the first node is disposed of. -/
theorem destroysOnce_phases {drops disposals : List NodePtr} (hnd : l.Nodup) (hdrops : drops.Perm l)
    (hdisposals : disposals.Perm l) : DestroysOnce h l
      (drops.flatMap h.dropPayload ++ disposals.flatMap h.disposeEvents) := by
  refine .of_perm hnd ?_ ?_ (List.pairwise_append.mpr ⟨?_, ?_, ?_⟩)
  · rw [dropsIn_append, dropsIn_payloads, dropsIn_disposals, List.append_nil]
    exact hdrops.filter _
  · rw [disposalsIn_append, disposalsIn_payloads, disposalsIn_disposals, List.nil_append]
    exact hdisposals
  · refine List.pairwise_of_forall_mem_list fun e he e' _ n hn => ?_
    obtain ⟨m, -, he⟩ := List.mem_flatMap.mp he
    rw [mem_dropPayload he] at hn
    cases hn
  · refine List.pairwise_of_forall_mem_list fun e _ e' he' n _ => ?_
    obtain ⟨m, -, he'⟩ := List.mem_flatMap.mp he'
    exact (mem_disposeEvents he').1 n
  · intro e he e' _ n hn
    obtain ⟨m, -, he⟩ := List.mem_flatMap.mp he
    rw [mem_dropPayload he] at hn
    cases hn

/-- Each node is disposed of right after its payload has been dropped. -/
theorem destroysOnce_each {order : List NodePtr} (hnd : l.Nodup) (horder : order.Perm l) :
    DestroysOnce h l (order.flatMap fun n => h.dropPayload n ++ h.disposeEvents n) := by
  refine .of_perm hnd ?_ ?_ (List.pairwise_flatMap.mpr ⟨fun n _ => ?_, ?_⟩)
  · rw [dropsIn_each]
    exact horder.filter _
  · have hdisposals : disposalsIn (order.flatMap fun n => h.dropPayload n ++ h.disposeEvents n) =
        order := by
      simp [disposalsIn_flatMap, disposalsIn_dropPayload, disposalsIn_disposeEvents]
    rw [hdisposals]
    exact horder
  · have hone := destroysOnce_phases (h := h) (List.nodup_singleton n) (.refl _) (.refl _)
    simpa using hone.order
  · refine (horder.nodup_iff.mpr hnd).imp fun {a b} hab e he e' he' n hn => ?_
    rcases List.mem_append.mp he with he | he
    · rw [mem_dropPayload he] at hn
      cases hn
    · obtain rfl := (mem_disposeEvents he).2 n hn
      rcases List.mem_append.mp he' with he' | he'
      · rw [mem_dropPayload he']
        exact fun heq => hab (GcEvent.dropFn.inj heq).symm
      · exact (mem_disposeEvents he').1 n

/-- A fold whose steps add to a record adds to it what its steps add. -/
theorem record_foldl {σ : Type*} {f : σ → NodePtr → σ} (record : σ → List GcEvent)
    (events : σ → NodePtr → List GcEvent) (hrecord : ∀ s n, record (f s n) = record s ++ events s n)
    (hevents : ∀ s n, events (f s n) = events s) (l : List NodePtr) : ∀ s,
    record (l.foldl f s) = record s ++ l.flatMap (events s) := by
  induction l with
  | nil => simp
  | cons n l ih =>
    intro s
    rw [List.foldl_cons, ih, hrecord, hevents, List.flatMap_cons, List.append_assoc]

/-! ### The three-step sweep -/

theorem log_foldl_disposeNode (l : List NodePtr) (s : SweepState) :
    (l.foldl (SweepState.disposeNode i) s).heap.log =
      s.heap.log ++ l.flatMap s.heap.disposeEvents :=
  record_foldl (fun s => s.heap.log) (fun s => s.heap.disposeEvents)
    (fun _ _ => SweepState.log_disposeNode) (fun _ _ => SweepState.disposeEvents_disposeNode) l s

@[simp] theorem log_finishSweep (h : GcHeap) (i : ℕ) (holes : List Hole) :
    (h.finishSweep i holes).log = h.log := by
  obtain ⟨f, -, -, hframe⟩ := finishSweep_frame h i holes
  rw [hframe]
  rfl

/-- What remains of the white list when the passes of `sweepDispose` end. -/
def sweepRemaining (i : ℕ) : List ℕ → SweepState → List NodePtr → List NodePtr
  | [], _, l => l
  | pass :: passes, s, remaining =>
    let (s, remaining) := sweepPass i pass s remaining
    if remaining.isEmpty then remaining else sweepRemaining i passes s remaining

/-- The passes of types that are not in the list remain. -/
theorem sweepRemaining_eq (passes : List ℕ) : ∀ (s : SweepState) (l : List NodePtr),
    sweepRemaining i passes s l =
      l.filter fun n => !decide ((s.heap.info n).dropPass ∈ passes) := by
  induction passes with
  | nil => simp [sweepRemaining]
  | cons pass passes ih =>
    intro s l
    simp only [sweepRemaining, sweepPass_eq, ih, info_foldl_disposeNode]
    have hrest : (l.filter fun n => !decide ((s.heap.info n).dropPass ∈ pass :: passes)) =
        (l.filter fun n => (s.heap.info n).dropPass != pass).filter
          fun n => !decide ((s.heap.info n).dropPass ∈ passes) := by
      rw [List.filter_filter]
      refine List.filter_congr fun n _ => ?_
      by_cases hn : (s.heap.info n).dropPass = pass <;> simp [hn]
    rw [hrest]
    split
    · next hnil => rw [List.isEmpty_iff.mp hnil, List.filter_nil]
    · rfl

/-- The effects of a sweep: the unlinked nodes are dropped in the order of the chain, and disposed
of in the order of their passes. -/
theorem log_twoPhaseSweep (hdone : h.CycleDone i) : (h.twoPhaseSweep i).1.log = h.log ++
    ((h.unlinked i).flatMap h.dropPayload ++
      (h.passOrder (h.unlinked i)).flatMap h.disposeEvents) := by
  by_cases hempty : (h.par i).nodes = []
  · simp [twoPhaseSweep_of_empty hdone hempty, unlinked, hempty, passOrder, setMarking, modifyPar]
  · obtain ⟨s, hs, heq⟩ := twoPhaseSweep_of_done hdone hempty
    rw [heq, log_finishSweep, hs, log_foldl_disposeNode, ← List.append_assoc]
    rfl

/-! ### The deprecated sweep -/

theorem sweep_of_not_done (hdone : ¬ h.CycleDone i) : h.sweep i = (h, 0) := by
  unfold sweep
  split
  · rfl
  next hi =>
  rw [if_pos]
  by_contra hguard
  refine hdone ⟨Nat.lt_of_not_le hi, ?_⟩
  simpa [List.isEmpty_iff] using hguard

theorem sweep_of_empty (hdone : h.CycleDone i) (hempty : (h.par i).nodes = []) :
    h.sweep i = (h.modifyPar i fun q => { q with marking := false, nodes := [] }, 0) := by
  obtain ⟨hi, hm, hg⟩ := hdone
  rw [sweep, if_neg (Nat.not_le.mpr hi), if_neg (by simp [hm, hg])]
  simp [hempty]

/-- The passes over the live chain dispose of the same nodes in the same order as those over the
unlinked nodes. -/
theorem sweep_eq (hdone : h.CycleDone i) (hne : (h.par i).nodes ≠ []) : ∃ (s : SweepState)
    (link : List NodePtr),
    s = (h.passOrder (h.unlinked i)).foldl (SweepState.disposeWithDrop i)
      ⟨h.modifyPar i fun q => { q with marking := false, nodes := [] }, [], 0⟩ ∧
    link = ((h.par i).nodes.filter fun n =>
      !(h.isWhiteNonRoot n && decide ((h.info n).dropPass ∈ h.nodeDtypes.dropPasses))) ∧
    h.sweep i = (if link.isEmpty then s.heap.finishSweep i s.holes else
      (s.heap.finishSweep i s.holes).modifyPar i fun q => { q with nodes := link },
        s.freedBytes) := by
  obtain ⟨hi, hm, hg⟩ := hdone
  refine ⟨_, _, rfl, rfl, ?_⟩
  generalize hh₁ : (h.modifyPar i fun q => { q with marking := false, nodes := [] }) = h₁
  have hinfo : h₁.info = h.info := by
    rw [← hh₁]
    rfl
  have hwhite : h₁.isWhiteNonRoot = h.isWhiteNonRoot := by
    rw [← hh₁]
    rfl
  have htypes : h₁.nodeDtypes = h.nodeDtypes := by
    rw [← hh₁]
    rfl
  have hpasses := @removePasses_eq _ _ _ _ _ (SweepState.disposeWithDrop i)
    (fun s n => (s.heap.info n).dropPass) (fun s => s.heap.isWhiteNonRoot)
    (fun s n => by rw [SweepState.info_disposeWithDrop])
    (fun s n => by
      funext m
      simp only [isWhiteNonRoot, SweepState.head_disposeWithDrop])
    (h.nodeDtypes.sorted.imp Nat.ne_of_lt) ⟨h₁, [], 0⟩ (h.par i).nodes
  simp only [hinfo, hwhite] at hpasses
  rw [sweep, if_neg (Nat.not_le.mpr hi), if_neg (by simp [hm, hg])]
  simp only [hh₁, List.isEmpty_iff, if_neg hne, htypes, hpasses]
  rfl

theorem log_sweep (hdone : h.CycleDone i) : (h.sweep i).1.log = h.log ++
    (h.passOrder (h.unlinked i)).flatMap fun n => h.dropPayload n ++ h.disposeEvents n := by
  by_cases hempty : (h.par i).nodes = []
  · simp [sweep_of_empty hdone hempty, unlinked, hempty, passOrder, modifyPar]
  · obtain ⟨s, link, hs, -, heq⟩ := sweep_eq hdone hempty
    have hlog : (h.sweep i).1.log = s.heap.log := by
      rw [heq]
      dsimp only
      split
      · exact log_finishSweep _ _ _
      · exact log_finishSweep _ _ _
    rw [hlog, hs, record_foldl (fun s : SweepState => s.heap.log)
      (fun s n => s.heap.dropPayload n ++ s.heap.disposeEvents n)
      (fun _ _ => SweepState.log_disposeWithDrop)]
    · rfl
    · intro s n
      funext m
      simp only [dropPayload, disposeEvents, SweepState.info_disposeWithDrop,
        SweepState.head_disposeWithDrop]

/-! ### Disposing of everything -/

/-- What disposing of a node with its payload changes. -/
theorem dispose_frame (h : GcHeap) (n : NodePtr) :
    ∃ (f : ℕ → ℕ) (total : ℕ) (slots : List WeakSlot),
    (h.dispose n).1 = { h.modifyPar (h.head n).partitionId fun q =>
        { q with memoryUsed := f q.memoryUsed } with
      totalMemoryUsed := total
      weakSlots := slots
      log := h.log ++ (h.dropPayload n ++ h.disposeEvents n) } := by
  obtain ⟨f, -, heq⟩ := (h.emit (h.dropPayload n)).disposeNoDrop_eq n
  rw [dispose_eq, heq]
  exact ⟨f, _, _, by rw [← List.append_assoc]; rfl⟩

theorem info_disposeCounting (s : GcHeap × ℕ) (n : NodePtr) :
    (disposeCounting s n).1.info = s.1.info := by
  obtain ⟨f, total, slots, heq⟩ := s.1.dispose_frame n
  simp only [disposeCounting, heq]
  rfl

theorem head_disposeCounting (s : GcHeap × ℕ) (n : NodePtr) :
    (disposeCounting s n).1.head = s.1.head := by
  obtain ⟨f, total, slots, heq⟩ := s.1.dispose_frame n
  simp only [disposeCounting, heq, head_modifyPar]

theorem log_disposeCounting (s : GcHeap × ℕ) (n : NodePtr) : (disposeCounting s n).1.log =
    s.1.log ++ (s.1.dropPayload n ++ s.1.disposeEvents n) := by
  obtain ⟨f, total, slots, heq⟩ := s.1.dispose_frame n
  simp only [disposeCounting, heq]

theorem nodes_disposeCounting (s : GcHeap × ℕ) (n : NodePtr) (j : ℕ) :
    ((disposeCounting s n).1.par j).nodes = (s.1.par j).nodes := by
  obtain ⟨f, total, slots, heq⟩ := s.1.dispose_frame n
  simp only [disposeCounting, heq]
  exact field_modifyPar GcPartition.nodes fun _ => rfl

theorem disposeAllNodes_eq (h : GcHeap) (link : List NodePtr) : h.disposeAllNodes link =
    ((h.passOrder link).foldl disposeCounting (h, 0),
      link.filter fun n => !decide ((h.info n).dropPass ∈ h.nodeDtypes.dropPasses)) := by
  have hpasses := @removePasses_eq _ _ _ _ _ disposeCounting
    (fun s n => (s.1.info n).dropPass) (fun _ _ => true)
    (fun s n => by rw [info_disposeCounting]) (fun _ _ => rfl)
    (h.nodeDtypes.sorted.imp Nat.ne_of_lt) (h, 0) link
  simp only [Bool.and_true, Bool.true_and, List.filter_true] at hpasses
  exact hpasses

theorem log_foldl_disposeCounting (l : List NodePtr) (s : GcHeap × ℕ) :
    (l.foldl disposeCounting s).1.log =
      s.1.log ++ l.flatMap fun n => s.1.dropPayload n ++ s.1.disposeEvents n := by
  refine record_foldl (fun s : GcHeap × ℕ => s.1.log)
    (fun s n => s.1.dropPayload n ++ s.1.disposeEvents n) log_disposeCounting (fun s n => ?_) l s
  funext m
  simp only [dropPayload, disposeEvents, info_disposeCounting, head_disposeCounting]

/-- The effects of disposing of all nodes of a link. -/
theorem log_disposeAllNodes (link : List NodePtr) : (h.disposeAllNodes link).1.1.log =
    h.log ++ (h.passOrder link).flatMap fun n => h.dropPayload n ++ h.disposeEvents n := by
  rw [disposeAllNodes_eq, log_foldl_disposeCounting]

/-- Nothing else that the effects depend on changes. -/
theorem disposeAllNodes_frame (link : List NodePtr) :
    (h.disposeAllNodes link).1.1.head = h.head ∧ (h.disposeAllNodes link).1.1.info = h.info ∧
      (h.disposeAllNodes link).1.1.nodeDtypes = h.nodeDtypes ∧
      ∀ j, ((h.disposeAllNodes link).1.1.par j).nodes = (h.par j).nodes := by
  rw [disposeAllNodes_eq]
  generalize (0 : ℕ) = freed
  induction h.passOrder link generalizing h freed with
  | nil => exact ⟨rfl, rfl, rfl, fun _ => rfl⟩
  | cons n l ih =>
    have htypes : (disposeCounting (h, freed) n).1.nodeDtypes = h.nodeDtypes := by
      obtain ⟨f, total, slots, heq⟩ := h.dispose_frame n
      simp only [disposeCounting, heq, nodeDtypes_modifyPar]
    obtain ⟨hhead, hinfo, htypes', hnodes⟩ :=
      @ih (disposeCounting (h, freed) n).1 (disposeCounting (h, freed) n).2
    rw [List.foldl_cons]
    exact ⟨hhead.trans (head_disposeCounting _ n), hinfo.trans (info_disposeCounting _ n),
      htypes'.trans htypes, fun j => (hnodes j).trans (nodes_disposeCounting _ n j)⟩

/-- The chains of all partitions. -/
def allNodes (h : GcHeap) : List NodePtr := h.partitions.flatMap GcPartition.nodes

theorem log_foldl_disposeAllNodes (links : List (List NodePtr)) : ∀ h : GcHeap,
    (links.foldl (fun h link => (h.disposeAllNodes link).1.1) h).log = h.log ++
      (links.flatMap h.passOrder).flatMap fun n => h.dropPayload n ++ h.disposeEvents n := by
  induction links with
  | nil => simp
  | cons link links ih =>
    intro h
    obtain ⟨hhead, hinfo, htypes, -⟩ := h.disposeAllNodes_frame link
    have horder : (h.disposeAllNodes link).1.1.passOrder = h.passOrder := by
      funext l
      simp only [passOrder, hinfo, htypes]
    have hevents : (fun n => (h.disposeAllNodes link).1.1.dropPayload n ++
        (h.disposeAllNodes link).1.1.disposeEvents n) =
        fun n => h.dropPayload n ++ h.disposeEvents n := by
      funext n
      simp only [dropPayload, disposeEvents, hinfo, hhead]
    rw [List.foldl_cons, ih, log_disposeAllNodes, horder, hevents, List.flatMap_cons,
      List.flatMap_append, List.append_assoc]

/-- The effects of the end of a heap. -/
theorem log_dropHeap (h : GcHeap) : h.dropHeap.log = h.log ++
    ((h.partitions.map GcPartition.nodes).flatMap h.passOrder).flatMap fun n =>
      h.dropPayload n ++ h.disposeEvents n := by
  unfold dropHeap
  dsimp only
  generalize hcaches : (h.scopeStacks.flatMap fun st => st.list.flatMap fun s =>
    s.cache.getD []) = caches
  generalize hh₁ : caches.foldl clearLocalFlag
    { h with scopeStacks := h.scopeStacks.map fun st => { st with list := [] } } = h₁
  have hstore : h₁.store = h.store := by
    rw [← hh₁]
    exact reading_foldl (fun _ _ => store_clearLocalFlag) _ _
  have hlinks : h₁.partitions.map GcPartition.nodes = h.partitions.map GcPartition.nodes := by
    have hparts := congrArg (fun g : GcHeap => g.partitions.map GcPartition.nodes) hstore
    simp only [store, List.map_map] at hparts
    exact hparts
  have hdrops : ∀ n, h₁.dropPayload n ++ h₁.disposeEvents n =
      h.dropPayload n ++ h.disposeEvents n := fun n => by
    rw [dropPayload_of_store hstore, disposeEvents_of_store hstore]
  have horder : h₁.passOrder = h.passOrder := by
    funext l
    simp only [passOrder, info_of_store hstore, nodeDtypes_of_store hstore]
  have hlog : h₁.log = h.log := (congrArg GcHeap.log hstore :)
  rw [log_foldl_disposeAllNodes, hlinks, ← hlog, ← horder, ← funext hdrops]
  rfl

/-! ### Tearing down a partition -/

/-- The passes over a finalized chain drop its payloads in the order of their passes. -/
theorem finalizeDrops_eq (h : GcHeap) (link : List NodePtr) :
    h.finalizeDrops link = (h.passOrder link).flatMap h.dropPayload := by
  rw [finalizeDrops, passOrder, buckets, List.flatMap_assoc]
  rfl

/-- The effects of phase 1, and what it leaves. -/
theorem log_finalizePartition {link : List NodePtr}
    (hok : h.finalizePartition i = some (h', link)) :
    i < h.partitions.length ∧ link = (h.par i).nodes ∧
      h'.log = h.log ++ (h.passOrder link).flatMap h.dropPayload ∧ h'.info = h.info ∧
      ∀ n, (h'.head n).arenaAlloc = (h.head n).arenaAlloc := by
  obtain ⟨⟨h₁, l⟩, hprep, heq⟩ := Option.map_eq_some_iff.mp hok
  obtain ⟨rfl, rfl⟩ := Prod.mk.inj heq
  obtain ⟨hi, hl, hh₁⟩ := finalizePartitionPrepare_ok hprep
  have hstore : (h.clearScopesOf i).store = h.store := store_clearScopesOf
  generalize h.clearScopesOf i = g at hl hh₁ hstore
  have hinfo : h₁.info = h.info := by
    rw [hh₁, ← funext (info_of_store hstore)]
    rfl
  have htypes : h₁.nodeDtypes = h.nodeDtypes := by
    rw [hh₁, ← nodeDtypes_of_store hstore]
  have hlog : h₁.log = h.log := by
    have hlog : g.log = h.log := (congrArg GcHeap.log hstore :)
    rw [hh₁, ← hlog]
  refine ⟨hi, hl.trans (nodes_of_store hstore i), ?_, hinfo, fun n => ?_⟩
  · have horder : h₁.passOrder l = h.passOrder l := by simp only [passOrder, hinfo, htypes]
    have hdrop : h₁.dropPayload = h.dropPayload := by
      funext n
      simp only [dropPayload, hinfo]
    rw [emit, hlog, finalizeDrops_eq, horder, hdrop]
  · rw [hh₁]
    exact arenaAlloc_of_store hstore n

/-- What freeing a finalized node does to the world. -/
def deallocEvents (debug : Bool) (h : GcHeap) (n : NodePtr) : List GcEvent :=
  .disposed n :: if debug || (h.head n).arenaAlloc then []
    else [.memDealloc n (h.info n).layoutSize (h.info n).layoutAlign]

theorem deallocEvents_false : deallocEvents false h n = h.disposeEvents n := by
  rw [deallocEvents, Bool.false_or]
  rfl

theorem dropsIn_deallocEvents {debug : Bool} : dropsIn (deallocEvents debug h n) = [] := by
  unfold deallocEvents
  split <;> rfl

theorem log_foldl_deallocNode (debug : Bool) (l : List NodePtr) (h : GcHeap) :
    (l.foldl (deallocNode debug) h).log = h.log ++ l.flatMap (deallocEvents debug h) := by
  refine record_foldl GcHeap.log (deallocEvents debug) (fun h n => ?_) (fun h n => ?_) l h
  · unfold deallocNode deallocEvents
    rw [clearWeakSlot_eq]
    dsimp only [emit]
    split <;> simp
  · funext m
    unfold deallocNode deallocEvents
    rw [clearWeakSlot_eq]
    dsimp only [emit]
    split <;> rfl

/-- The effects of phase 2. -/
theorem log_deallocPartition {debug : Bool} {bytes : ℕ} {link : List NodePtr} {sys : Option ℕ}
    (hok : h.deallocPartition debug i link sys = some (h', bytes)) :
    h'.log = h.log ++ link.flatMap (deallocEvents debug h) := by
  rw [← log_foldl_deallocNode]
  unfold deallocPartition at hok
  dsimp only at hok
  split at hok
  · obtain ⟨arena, -, heq⟩ := Option.bind_eq_some_iff.mp hok
    obtain ⟨rfl, -⟩ := Prod.mk.inj (Option.some.inj heq)
    rfl
  · obtain ⟨rfl, -⟩ := Prod.mk.inj (Option.some.inj hok)
    rfl

end GcHeap

end GcLite
