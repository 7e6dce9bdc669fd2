import GcLite.Destruction
import GcLite.Incremental

/-!
# Reclaiming nodes

What the ways of reclaiming nodes have in common: each destroys every node it reclaims exactly once.
And what they do not: the three-step sweep drops payloads in the order of the chain, not of the drop
passes, and a debug build gives no block back to the system when a partition is torn down.

## Main definitions

* `GcHeap.Registered` — a node's type is in the table
* `GcHeap.garbage` — the nodes that a collection reclaims
* `GcHeap.DropsInOrder` — drop functions run in the order of their passes
* `GcHeap.systemBlocks` — the blocks of a partition that came from the system

## Main results

* `reclaims_once` — exactly-once destruction
* `dropsInOrder_iff` — when drop functions run in the order of their passes
* `deallocPartition_returns_iff` — when teardown returns the system's blocks
-/

namespace GcLite

namespace GcHeap

variable {h h' : GcHeap} {i bytes : ℕ} {n : NodePtr} {l : List NodePtr}

/-! ### Exactly once -/

/-- The node's type is in the table. -/
def Registered (h : GcHeap) (n : NodePtr) : Prop :=
  (h.head n).dtype < h.nodeDtypes.typeInfoList.length

instance : Decidable (h.Registered n) := inferInstanceAs (Decidable (_ < _))

theorem Registered.mem_dropPasses (hn : h.Registered n) :
    (h.info n).dropPass ∈ h.nodeDtypes.dropPasses := by
  refine h.nodeDtypes.covers _ ?_
  rw [info, List.getD_eq_getElem?_getD, List.getElem?_eq_getElem hn]
  exact List.getElem_mem _

/-- The passes leave no registered node over. -/
theorem filter_not_dropPasses (hl : ∀ n ∈ l, h.Registered n) :
    (l.filter fun n => !decide ((h.info n).dropPass ∈ h.nodeDtypes.dropPasses)) = [] := by
  simp only [List.filter_eq_nil_iff, Bool.not_eq_true', decide_eq_false_iff_not, not_not]
  exact fun n hn => (hl n hn).mem_dropPasses

theorem destroysOnce_nil : DestroysOnce h [] (h.newEvents h) := by
  rw [@newEvents_of_log _ _ [] (by rw [List.append_nil])]
  exact @destroysOnce_phases _ _ [] [] .nil (.refl _) (.refl _)

/-- What a sweep takes out of a chain: if the cycle has ended, the white nodes that nothing
protects. -/
def swept (h : GcHeap) (i : ℕ) : List NodePtr := if h.CycleDone i then h.unlinked i else []

/-- What a collection takes out of a chain: what is swept of the heap that marking leads to. -/
def garbage (h : GcHeap) (i : ℕ) : List NodePtr :=
  (markLoop i (h.nodeCount + 1) h).elim [] fun g => g.swept i

/-- A sweep destroys what it takes out of the chain. -/
theorem destroysOnce_twoPhaseSweep (hnd : (h.par i).nodes.Nodup)
    (hreg : ∀ n ∈ (h.par i).nodes, h.Registered n) :
    (h.swept i ++ ((h.twoPhaseSweep i).1.par i).nodes).Perm (h.par i).nodes ∧
      DestroysOnce h (h.swept i) (h.newEvents (h.twoPhaseSweep i).1) := by
  unfold swept
  split
  · next hdone =>
    have hsub : ∀ n ∈ h.unlinked i, n ∈ (h.par i).nodes := fun n hn => (List.mem_filter.mp hn).1
    refine ⟨?_, ?_⟩
    · rw [nodes_twoPhaseSweep hdone, if_pos rfl]
      exact survivors_append_unlinked_perm
    · rw [newEvents_of_log (log_twoPhaseSweep hdone)]
      exact destroysOnce_phases (hnd.filter _) (.refl _)
        (passOrder_perm fun n hn => hreg n (hsub n hn))
  · next hdone =>
    rw [twoPhaseSweep_of_not_done hdone]
    exact ⟨.refl _, destroysOnce_nil⟩

/-- Where there is no partition, there is no garbage. -/
theorem garbage_of_length_le (hi : h.partitions.length ≤ i) : h.garbage i = [] := by
  rw [garbage]
  cases hloop : markLoop i (h.nodeCount + 1) h with
  | none => rfl
  | some g =>
    have hdone : ¬ g.CycleDone i := fun hdone =>
      absurd hdone.1 (Nat.not_lt.mpr (length_of_store (store_markLoop _ h hloop) ▸ hi))
    rw [Option.elim_some, swept, if_neg hdone]

/-- Marking ends the cycle, so all that is white and unprotected then goes. -/
theorem garbage_eq {g : GcHeap} (hinv : h.MemInv) (hi : i < h.partitions.length)
    (hloop : markLoop i (h.nodeCount + 1) h = some g) : h.garbage i = g.unlinked i := by
  obtain ⟨s, as, hstart, hrun, hgray⟩ := markLoop_run _ h hinv.owned hi hloop
  have hsame := MarkState.markRun_sameGraph hrun
  have hmarking : g.view.marking i = true := hsame.marking ▸ hstart.marking hi
  have hdone : g.CycleDone i :=
    ⟨length_of_store (store_markLoop _ h hloop) ▸ hi, hmarking, hgray⟩
  rw [garbage, hloop, Option.elim_some, swept, if_pos hdone]

theorem destroysOnce_garbageCollect (hnd : (h.par i).nodes.Nodup)
    (hreg : ∀ n ∈ (h.par i).nodes, h.Registered n) (hgc : h.garbageCollect i = some (h', bytes)) :
    (h.garbage i ++ (h'.par i).nodes).Perm (h.par i).nodes ∧
      DestroysOnce h (h.garbage i) (h.newEvents h') := by
  unfold garbageCollect at hgc
  split at hgc
  · next hi =>
    obtain ⟨rfl, -⟩ := Prod.mk.inj (Option.some.inj hgc)
    rw [garbage_of_length_le hi]
    exact ⟨.refl _, destroysOnce_nil⟩
  · obtain ⟨g, hloop, hsweep⟩ := Option.map_eq_some_iff.mp hgc
    have hstore := store_markLoop _ h hloop
    have hnodes := nodes_of_store hstore i
    have hlog : g.log = h.log := (congrArg GcHeap.log hstore :)
    obtain ⟨hperm, hdead⟩ := destroysOnce_twoPhaseSweep (h := g) (i := i) (hnodes ▸ hnd)
      fun n hn => by
        rw [Registered, dtype_of_store hstore, nodeDtypes_of_store hstore]
        exact hreg n (hnodes ▸ hn)
    rw [hsweep, hnodes] at hperm
    rw [hsweep, newEvents, hlog, ← newEvents] at hdead
    rw [garbage, hloop, Option.elim_some]
    exact ⟨hperm, fun n => by rw [hdead.drops, info_of_store hstore], hdead.disposals,
      hdead.order⟩

theorem destroysOnce_removePartition {h₁ : GcHeap} {link : List NodePtr} {sys : Option ℕ}
    (hnd : (h.par i).nodes.Nodup) (hreg : ∀ n ∈ (h.par i).nodes, h.Registered n)
    (hfin : h.finalizePartition i = some (h₁, link))
    (hdealloc : h₁.deallocPartition false i link sys = some (h', bytes)) :
    DestroysOnce h (h.par i).nodes (h.newEvents h') ∧ (h'.par i).nodes = [] := by
  obtain ⟨hi, rfl, hlog₁, hinfo, harena⟩ := log_finalizePartition hfin
  have hdispose : deallocEvents false h₁ = h.disposeEvents := by
    funext n
    simp only [deallocEvents_false, disposeEvents, hinfo, harena]
  have hlog := log_deallocPartition hdealloc
  rw [hlog₁, hdispose, List.append_assoc] at hlog
  refine ⟨?_, ?_⟩
  · rw [newEvents_of_log hlog]
    exact destroysOnce_phases hnd (passOrder_perm hreg) (.refl _)
  · obtain ⟨arena, log, -, heq⟩ := deallocPartition_ok hdealloc
    exact (par_of_torn heq).1.1

theorem nodes_foldl_disposeAllNodes (links : List (List NodePtr)) : ∀ (h : GcHeap) (j : ℕ),
    ((links.foldl (fun h link => (h.disposeAllNodes link).1.1) h).par j).nodes =
      (h.par j).nodes := by
  induction links with
  | nil => exact fun _ _ => rfl
  | cons link links ih =>
    exact fun h j => (ih _ j).trans ((h.disposeAllNodes_frame link).2.2.2 j)

theorem destroysOnce_dropHeap (hnd : h.allNodes.Nodup) (hreg : ∀ n ∈ h.allNodes, h.Registered n) :
    DestroysOnce h h.allNodes (h.newEvents h.dropHeap) ∧ ∀ n, ¬ h.dropHeap.Live n := by
  refine ⟨?_, ?_⟩
  · rw [newEvents_of_log h.log_dropHeap]
    refine destroysOnce_each hnd ?_
    rw [allNodes, List.flatMap_map]
    refine .flatMap_left _ fun q hq => passOrder_perm fun n hn => hreg n ?_
    exact List.mem_flatMap.mpr ⟨q, hq, hn⟩
  · rintro n ⟨j, hn⟩
    unfold dropHeap at hn
    dsimp only at hn
    rw [nodes_foldl_disposeAllNodes] at hn
    revert hn
    generalize (List.foldl clearLocalFlag _ _) = g
    by_cases hj : j < g.partitions.length <;> simp [par, hj, default]

end GcHeap

open GcHeap in
/-- **Exactly once.** A collection, a teardown and the end of a heap each run the drop function of
every node they reclaim whose type has one, once and before they dispose of the node, they dispose
of each of these nodes once, and they do neither to any other node. The passes leave nothing
over. The nodes that a collection reclaims are those that are white and unprotected when marking
has ended; and it does end, in runs inside partitions. -/
theorem reclaims_once {h : GcHeap} (hnd : h.allNodes.Nodup)
    (hreg : ∀ n ∈ h.allNodes, h.Registered n) :
    (∀ i h' bytes, h.garbageCollect i = some (h', bytes) →
      (h.garbage i ++ (h'.par i).nodes).Perm (h.par i).nodes ∧
        DestroysOnce h (h.garbage i) (h.newEvents h')) ∧
    (ReachableWith InPartition h → ∀ i < h.partitions.length, ∃ g h' bytes,
      markLoop i (h.nodeCount + 1) h = some g ∧ h.garbage i = g.unlinked i ∧
        h.garbageCollect i = some (h', bytes)) ∧
    (∀ i h₁ link sys h' bytes, h.finalizePartition i = some (h₁, link) →
      h₁.deallocPartition false i link sys = some (h', bytes) →
        DestroysOnce h (h.par i).nodes (h.newEvents h') ∧ (h'.par i).nodes = []) ∧
    (DestroysOnce h h.allNodes (h.newEvents h.dropHeap) ∧ ∀ n, ¬ h.dropHeap.Live n) ∧
    ∀ (g : GcHeap) (i : ℕ) (link : List NodePtr), (∀ n ∈ link, g.Registered n) →
      sweepRemaining i g.nodeDtypes.dropPasses ⟨g, [], 0⟩ link = [] ∧
        (g.disposeAllNodes link).2 = [] := by
  have hpart : ∀ i, (h.par i).nodes.Nodup ∧ ∀ n ∈ (h.par i).nodes, h.Registered n := by
    intro i
    by_cases hi : i < h.partitions.length
    · have hmem : h.par i ∈ h.partitions := by simp [par, hi]
      refine ⟨(List.nodup_flatMap.mp hnd).1 _ hmem, fun n hn => hreg n ?_⟩
      exact List.mem_flatMap.mpr ⟨_, hmem, hn⟩
    · rw [par_of_length_le (Nat.le_of_not_lt hi)]
      exact ⟨.nil, fun n hn => absurd hn List.not_mem_nil⟩
  refine ⟨fun i h' bytes hgc => ?_, fun hr i hi => ?_,
    fun i h₁ link sys h' bytes hfin hdealloc => ?_, ?_, ?_⟩
  · exact destroysOnce_garbageCollect (hpart i).1 (hpart i).2 hgc
  · obtain ⟨h', bytes, hgc⟩ := exists_garbageCollect hr hi
    have hloop := hgc
    rw [garbageCollect, if_neg (Nat.not_le.mpr hi)] at hloop
    obtain ⟨g, hloop, -⟩ := Option.map_eq_some_iff.mp hloop
    exact ⟨g, h', bytes, hloop, garbage_eq (memInv_of_reachable hr) hi hloop, hgc⟩
  · exact destroysOnce_removePartition (hpart i).1 (hpart i).2 hfin hdealloc
  · exact destroysOnce_dropHeap hnd hreg
  · intro g i link hlink
    rw [sweepRemaining_eq, disposeAllNodes_eq]
    exact ⟨filter_not_dropPasses hlink, filter_not_dropPasses hlink⟩

/-- Two types, of which the one that drops later is allocated last. -/
private theorem exists_two_types : ∃ h : GcHeap, Reachable h ∧ h.allNodes = [2000, 1000] ∧
    (∀ n ∈ h.allNodes, h.Registered n) ∧ (h.info 2000).dropFn ∧ h.CycleDone 0 ∧
    h.unlinked 0 = [2000, 1000] ∧ (h.info 1000).dropFn ∧
    (h.info 1000).dropPass = 0 ∧ (h.info 2000).dropPass = 1 :=
  exists_of_play
    (gcTypeTableInternal 24 8 [⟨8, 8, true, none⟩, ⟨8, 8, true, some 1⟩])
    [.createPartition 0 0 none, .allocRaw 0 0 [] (some 1000), .allocRaw 0 1 [] (some 2000),
      .mark 0 64]
    (by decide +kernel)

/-- A root and two dead nodes of different passes. -/
private theorem exists_garbage : ∃ h : GcHeap, ReachableWith InPartition h ∧
    (h.allNodes = [3000, 2000, 1000] ∧ (h.par 0).nodes = [3000, 2000, 1000] ∧
      0 < h.partitions.length) ∧
    (∀ n ∈ h.allNodes, h.Registered n) ∧ h.garbage 0 = [2000, 1000] ∧
    (h.finalizePartition 0).any fun r => (r.1.deallocPartition false 0 r.2 none).isSome :=
  exists_of_play
    (gcTypeTableInternal 24 8 [⟨8, 8, true, none⟩, ⟨8, 8, true, some 1⟩])
    [.createPartition 0 0 none, .allocRaw 0 0 [] (some 1000), .allocRaw 0 1 [] (some 2000),
      .allocRootRaw 0 0 [] (some 3000)]
    (by decide +kernel)

/-- A collection destroys the two dead nodes, a teardown of the partition and the end of the heap
all three. -/
theorem reclaims_once_three : ∃ (h h' h₁ h₂ : GcHeap) (link : List NodePtr) (bytes bytes₂ : ℕ),
    (h.par 0).nodes = [3000, 2000, 1000] ∧
    (h.garbageCollect 0 = some (h', bytes) ∧ DestroysOnce h [2000, 1000] (h.newEvents h')) ∧
    (h.finalizePartition 0 = some (h₁, link) ∧
      h₁.deallocPartition false 0 link none = some (h₂, bytes₂) ∧
      DestroysOnce h [3000, 2000, 1000] (h.newEvents h₂)) ∧
    DestroysOnce h [3000, 2000, 1000] (h.newEvents h.dropHeap) := by
  obtain ⟨h, hr, ⟨hall, hnodes, hi⟩, hreg, hgarbage, hteardown⟩ := exists_garbage
  obtain ⟨⟨h₁, link⟩, hfin, hsome⟩ := (Option.any_eq_true _ _).mp hteardown
  obtain ⟨⟨h₂, bytes₂⟩, hdealloc⟩ := Option.isSome_iff_exists.mp hsome
  obtain ⟨hcollect, hends, hremove, ⟨hdrop, -⟩, -⟩ :=
    reclaims_once (h := h) (by rw [hall]; decide) hreg
  obtain ⟨-, h', bytes, -, -, hgc⟩ := hends hr 0 hi
  have hdead := (hcollect 0 h' bytes hgc).2
  have hgone := (hremove 0 h₁ link none h₂ bytes₂ hfin hdealloc).1
  rw [hgarbage] at hdead
  rw [hnodes] at hgone
  rw [hall] at hdrop
  exact ⟨h, h', h₁, h₂, link, bytes, bytes₂, hnodes, ⟨hgc, hdead⟩, ⟨hfin, hdealloc, hgone⟩, hdrop⟩

/-! ### The order of the drop passes -/

namespace GcHeap

variable {h h' : GcHeap} {i : ℕ} {l : List NodePtr}

/-- Since `h`, drop functions have run in the order of their passes. -/
def DropsInOrder (h h' : GcHeap) : Prop :=
  (dropsIn (h.newEvents h')).Pairwise fun n m => (h.info n).dropPass ≤ (h.info m).dropPass

/-- The passes reach the nodes in their order. -/
theorem pairwise_passOrder (h : GcHeap) (l : List NodePtr) :
    (h.passOrder l).Pairwise fun n m => (h.info n).dropPass ≤ (h.info m).dropPass :=
  pairwise_buckets (r := (· ≤ ·)) le_refl (h.nodeDtypes.sorted.imp Nat.le_of_lt) _ l

/-- Dropping in the order of the passes, with whatever else happens in between. -/
theorem dropsInOrder_of_log {events : List GcEvent} (hlog : h'.log = h.log ++ events)
    (hdrops : dropsIn events = (h.passOrder l).filter fun n => (h.info n).dropFn) :
    h.DropsInOrder h' := by
  rw [DropsInOrder, newEvents_of_log hlog, hdrops]
  exact (h.pairwise_passOrder l).filter _

theorem dropsInOrder_of_same (hlog : h'.log = h.log) : h.DropsInOrder h' :=
  @dropsInOrder_of_log _ _ [] [] (by rw [hlog, List.append_nil])
    (by simp [passOrder, dropsIn])

theorem dropsInOrder_sweep (h : GcHeap) (i : ℕ) : h.DropsInOrder (h.sweep i).1 := by
  by_cases hdone : h.CycleDone i
  · exact dropsInOrder_of_log (log_sweep hdone) (dropsIn_each _)
  · rw [sweep_of_not_done hdone]
    exact dropsInOrder_of_same rfl

theorem dropsInOrder_disposeAllNodes (h : GcHeap) (link : List NodePtr) :
    h.DropsInOrder (h.disposeAllNodes link).1.1 :=
  dropsInOrder_of_log (log_disposeAllNodes link) (dropsIn_each _)

theorem dropsInOrder_finalizePartition (hfin : h.finalizePartition i = some (h', l)) :
    h.DropsInOrder h' := by
  obtain ⟨-, -, hlog, -, -⟩ := log_finalizePartition hfin
  exact dropsInOrder_of_log hlog (dropsIn_payloads _)

/-- The three-step sweep drops the dead nodes in the order of the chain. -/
theorem dropsInOrder_twoPhaseSweep_iff : h.DropsInOrder (h.twoPhaseSweep i).1 ↔
    (h.CycleDone i → ((h.unlinked i).filter fun n => (h.info n).dropFn).Pairwise
      fun n m => (h.info n).dropPass ≤ (h.info m).dropPass) := by
  by_cases hdone : h.CycleDone i
  · have hdrops : dropsIn ((h.unlinked i).flatMap h.dropPayload ++
        (h.passOrder (h.unlinked i)).flatMap h.disposeEvents) =
        (h.unlinked i).filter fun n => (h.info n).dropFn := by
      rw [dropsIn_append, dropsIn_payloads, dropsIn_disposals, List.append_nil]
    rw [DropsInOrder, newEvents_of_log (log_twoPhaseSweep hdone), hdrops]
    exact ⟨fun hpair _ => hpair, fun hpair => hpair hdone⟩
  · refine ⟨fun _ hdone' => absurd hdone' hdone, fun _ => ?_⟩
    rw [twoPhaseSweep_of_not_done hdone]
    exact dropsInOrder_of_same rfl

end GcHeap

/-- **The order of the drop passes.** The deprecated sweep, teardown and the disposal of everything
run drop functions in the order of their passes. The three-step sweep does exactly when, in the
chain, no node that is about to die comes before one of an earlier pass. -/
theorem dropsInOrder_iff (h : GcHeap) (i : ℕ) (link : List NodePtr) :
    (h.DropsInOrder (h.twoPhaseSweep i).1 ∧ h.DropsInOrder (h.sweep i).1 ∧
      (∀ r, h.finalizePartition i = some r → h.DropsInOrder r.1) ∧
      h.DropsInOrder (h.disposeAllNodes link).1.1) ↔
    (h.CycleDone i → ((h.par i).nodes.filter fun n =>
      h.isWhiteNonRoot n && (h.info n).dropFn).Pairwise
        fun n m => (h.info n).dropPass ≤ (h.info m).dropPass) := by
  have hdead : ((h.unlinked i).filter fun n => (h.info n).dropFn) =
      (h.par i).nodes.filter fun n => h.isWhiteNonRoot n && (h.info n).dropFn := by
    rw [GcHeap.unlinked, List.filter_filter]
    simp only [Bool.and_comm]
  rw [← hdead, ← GcHeap.dropsInOrder_twoPhaseSweep_iff]
  refine ⟨fun hall => hall.1, fun hthree => ⟨hthree, h.dropsInOrder_sweep i, fun r hfin => ?_,
    h.dropsInOrder_disposeAllNodes link⟩⟩
  exact GcHeap.dropsInOrder_finalizePartition hfin

/-- The newer node of a later pass is dropped before the older one of an earlier pass. -/
theorem twoPhaseSweep_drops_out_of_order : ∃ h : GcHeap, Reachable h ∧ h.CycleDone 0 ∧
    ¬ h.DropsInOrder (h.twoPhaseSweep 0).1 := by
  obtain ⟨h, hr, -, -, hdrop, hdone, hdead, hdrop', hpass, hpass'⟩ := exists_two_types
  refine ⟨h, hr, hdone, ?_⟩
  rw [GcHeap.dropsInOrder_twoPhaseSweep_iff, hdead]
  simp [hdone, hdrop, hdrop', hpass, hpass']

/-! ### The blocks of the system -/

namespace GcHeap

variable {h h₁ h₂ : GcHeap} {i : ℕ} {n : NodePtr}

/-- An address lies in the arena of partition `i`. -/
def inArena (h : GcHeap) (i : ℕ) (n : NodePtr) : Bool :=
  (h.par i).arena.any fun A => A.base ≤ n && n < A.base + A.capacity

/-- The blocks of partition `i` that lie outside its arena, which are those that the system handed
out, with their layouts. -/
def systemBlocks (h : GcHeap) (i : ℕ) : List (NodePtr × ℕ × ℕ) :=
  ((h.par i).nodes.filter fun n => !h.inArena i n).map fun n =>
    (n, (h.info n).layoutSize, (h.info n).layoutAlign)

/-- The `ARENA_ALLOC` flag tells where a node lies. -/
theorem MemInv.inArena_eq (hinv : h.MemInv) (hn : n ∈ (h.par i).nodes) :
    h.inArena i n = (h.head n).arenaAlloc := by
  cases hA : (h.par i).arena with
  | none => simp [inArena, hA, hinv.no_arena i hA n hn]
  | some A =>
    cases hflag : (h.head n).arenaAlloc with
    | true =>
      have hin := GcArena.not_outside_iff.mp (hinv.not_outside hA hn hflag)
      simpa [inArena, hA] using hin
    | false =>
      have hout := hinv.system i n hn hflag i A hA
      simp only [inArena, hA, Option.any_some, Bool.and_eq_false_imp, decide_eq_true_eq,
        decide_eq_false_iff_not]
      rcases hout with hlt | hle
      · exact fun hle => absurd hlt (Nat.not_lt.mpr hle)
      · exact fun _ => Nat.not_lt.mpr hle

theorem MemInv.systemBlocks_eq (hinv : h.MemInv) : h.systemBlocks i =
    ((h.par i).nodes.filter fun n => !(h.head n).arenaAlloc).map fun n =>
      (n, (h.info n).layoutSize, (h.info n).layoutAlign) := by
  rw [systemBlocks]
  congr 1
  exact List.filter_congr fun n hn => by rw [hinv.inArena_eq hn]

theorem MemInv.nodup_systemBlocks (hinv : h.MemInv) : (h.systemBlocks i).Nodup :=
  ((hinv.nodup i).filter _).map fun _ _ heq => (Prod.mk.inj heq).1

/-- What teardown gives back to the system. -/
theorem deallocsIn_teardown {debug : Bool} {link : List NodePtr} {sys : Option ℕ} {bytes : ℕ}
    (hinv : h.MemInv) (hfin : h.finalizePartition i = some (h₁, link))
    (hdealloc : h₁.deallocPartition debug i link sys = some (h₂, bytes)) :
    deallocsIn (h.newEvents h₂) = if debug then [] else h.systemBlocks i := by
  obtain ⟨-, rfl, hlog₁, hinfo, harena⟩ := log_finalizePartition hfin
  have hlog := log_deallocPartition hdealloc
  rw [hlog₁, List.append_assoc] at hlog
  rw [newEvents_of_log hlog, deallocsIn_append, deallocsIn_payloads, List.nil_append,
    deallocsIn_flatMap, hinv.systemBlocks_eq]
  induction (h.par i).nodes with
  | nil => cases debug <;> rfl
  | cons n l ih =>
    rw [List.flatMap_cons, ih]
    cases debug <;> cases hn : (h.head n).arenaAlloc <;>
      simp [deallocEvents, deallocsIn, hinfo, harena, hn]

end GcHeap

/-- **The blocks of the system.** Teardown of a partition gives each block that came from the system
back once, with its layout, and no other block, exactly when debug assertions are off or nothing
came from the system. The record of a debug build may differ from that of a release build. -/
theorem deallocPartition_returns_iff {h h₁ h₂ : GcHeap} {log : List GcEvent} {debug : Bool}
    {i bytes : ℕ} {link : List NodePtr} {sys : Option ℕ} (hr : Reachable { h with log := log })
    (hfin : h.finalizePartition i = some (h₁, link))
    (hdealloc : h₁.deallocPartition debug i link sys = some (h₂, bytes)) :
    (∀ b, (deallocsIn (h.newEvents h₂)).count b = if b ∈ h.systemBlocks i then 1 else 0) ↔
      debug = false ∨ h.systemBlocks i = [] := by
  have hinv : h.MemInv := (memInv_of_reachable hr).of_fields (fun _ => rfl) (fun _ => rfl) rfl
    fun _ => ⟨rfl, rfl, rfl⟩
  rw [GcHeap.deallocsIn_teardown hinv hfin hdealloc]
  constructor
  · intro hcount
    cases debug with
    | false => exact .inl rfl
    | true =>
      refine .inr (List.eq_nil_iff_forall_not_mem.mpr fun b hb => ?_)
      simpa [hb] using hcount b
  · rintro (rfl | hempty) b
    · rw [if_neg Bool.false_ne_true, hinv.nodup_systemBlocks.count]
    · simp [hempty]

/-- A partition with one root node. -/
private theorem exists_root_node : ∃ h : GcHeap, Reachable h ∧
    h.systemBlocks 0 = [(1000, 32, 8)] ∧
    ∀ debug, (h.finalizePartition 0).any fun r =>
      (r.1.deallocPartition debug 0 r.2 none).isSome :=
  exists_of_play (gcTypeTableInternal 24 8 [⟨8, 8, true, none⟩])
    [.createPartition 0 0 none, .allocRootRaw 0 0 [] (some 1000)]
    (by decide +kernel)

private theorem exists_teardown (debug : Bool) : ∃ (h h₁ h₂ : GcHeap) (link : List NodePtr)
    (bytes : ℕ), Reachable h ∧ h.systemBlocks 0 = [(1000, 32, 8)] ∧
    h.finalizePartition 0 = some (h₁, link) ∧
    h₁.deallocPartition debug 0 link none = some (h₂, bytes) := by
  obtain ⟨h, hr, hblocks, hok⟩ := exists_root_node
  obtain ⟨⟨h₁, link⟩, hfin, hok⟩ := Option.any_eq_true _ _ |>.mp (hok debug)
  obtain ⟨⟨h₂, bytes⟩, hdealloc⟩ := Option.isSome_iff_exists.mp hok
  exact ⟨h, h₁, h₂, link, bytes, hr, hblocks, hfin, hdealloc⟩

/-- A debug build does not give the block of a root node back. -/
theorem deallocPartition_leaks : ∃ (h h₁ h₂ : GcHeap) (link : List NodePtr) (bytes : ℕ),
    Reachable h ∧ h.finalizePartition 0 = some (h₁, link) ∧
    h₁.deallocPartition true 0 link none = some (h₂, bytes) ∧ (1000, 32, 8) ∈ h.systemBlocks 0 ∧
    (1000, 32, 8) ∉ deallocsIn (h.newEvents h₂) := by
  obtain ⟨h, h₁, h₂, link, bytes, hr, hblocks, hfin, hdealloc⟩ := exists_teardown true
  refine ⟨h, h₁, h₂, link, bytes, hr, hfin, hdealloc, by simp [hblocks], ?_⟩
  simp [GcHeap.deallocsIn_teardown (memInv_of_reachable hr) hfin hdealloc]

/-- A release build does. -/
theorem deallocPartition_returns_root : ∃ (h h₂ : GcHeap),
    h.systemBlocks 0 = [(1000, 32, 8)] ∧
    ∀ b, (deallocsIn (h.newEvents h₂)).count b = if b ∈ h.systemBlocks 0 then 1 else 0 := by
  obtain ⟨h, h₁, h₂, link, bytes, hr, hblocks, hfin, hdealloc⟩ := exists_teardown false
  exact ⟨h, h₂, hblocks,
    (@deallocPartition_returns_iff _ _ _ h.log _ _ _ _ _ hr hfin hdealloc).mpr (.inl rfl)⟩

end GcLite
