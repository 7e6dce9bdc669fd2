import GcLite.Collect
import GcLite.System

/-!
# Collecting a heap at rest

`garbage_collect` on a heap in which no cycle is in progress. The cycle it runs grays the roots of
all partitions, but it works off the list of the collected partition alone. So what it keeps there
is what the partition's own roots reach inside it, and the collection is safe exactly when nothing
there depends on another partition.

## Main definitions

* `GcHeap.AtRest` — no cycle is in progress

## Main results

* `garbageCollect_safe_iff` — when a collection frees nothing that is reachable
* `garbageCollect_frees_held_node` — a root in another partition does not hold a node
-/

namespace GcLite

namespace GcHeap

/-- Chains hold the partitions' own nodes, references of live nodes are live, and no partition is
marking or has gray nodes. -/
structure AtRest (h : GcHeap) : Prop where
  /-- Headers name the partitions that the nodes are in. -/
  own : ∀ i, ∀ n ∈ (h.par i).nodes, (h.head n).partitionId = i
  /-- No reference dangles. -/
  refs_live : ∀ i, ∀ n ∈ (h.par i).nodes, ∀ c ∈ h.refs n, h.Live c
  /-- No partition is in a cycle. -/
  marking : ∀ i, (h.par i).marking = false
  /-- Nothing is listed. -/
  gray : ∀ i, (h.par i).grayList = []

variable {h : GcHeap} {n : NodePtr}

theorem atRest_iff : h.AtRest ↔ (∀ i < h.partitions.length, ∀ n ∈ (h.par i).nodes,
    (h.head n).partitionId = i ∧ ∀ c ∈ h.refs n, h.Live c) ∧
    ∀ i < h.partitions.length, (h.par i).marking = false ∧ (h.par i).grayList = [] := by
  constructor
  · intro hrest
    exact ⟨fun i _ n hn => ⟨hrest.own i n hn, hrest.refs_live i n hn⟩,
      fun i _ => ⟨hrest.marking i, hrest.gray i⟩⟩
  · rintro ⟨hnodes, hidle⟩
    have hpast : ∀ {i}, ¬ i < h.partitions.length → h.par i = default :=
      fun hi => par_of_length_le (Nat.le_of_not_lt hi)
    refine ⟨fun i n hn => (hnodes i (lt_length_of_mem_nodes hn) n hn).1,
      fun i n hn => (hnodes i (lt_length_of_mem_nodes hn) n hn).2, fun i => ?_, fun i => ?_⟩ <;>
      by_cases hi : i < h.partitions.length
    · exact (hidle i hi).1
    · rw [hpast hi]
      rfl
    · exact (hidle i hi).2
    · rw [hpast hi]
      rfl

instance : Decidable h.AtRest := decidable_of_iff' _ atRest_iff

theorem AtRest.owned (hrest : h.AtRest) : h.view.Owned := ⟨fun _ => view_range, hrest.own⟩

/-- Nothing reachable has been freed. -/
theorem AtRest.live_of_reach (hrest : h.AtRest) (hn : n ∈ h.reach) : h.Live n := by
  obtain ⟨r, ⟨hr, -⟩, hpath⟩ := hn
  induction hpath with
  | refl => exact hr
  | tail _ hmc ih =>
    obtain ⟨j, hj⟩ := ih
    exact hrest.refs_live j _ hj _ hmc

/-- What a collection leaves of the chains. -/
theorem AtRest.live_garbageCollect (hrest : h.AtRest) (i : ℕ) :
    ∃ (h' : GcHeap) (bytes : ℕ), h.garbageCollect i = some (h', bytes) ∧
      ∀ n, h'.Live n ↔ h.Live n ∧ (n ∈ (h.par i).nodes → n ∈ h.localReach i) := by
  by_cases hi : i < h.partitions.length
  · obtain ⟨h₁, h', bytes, hgc, -, hout, -, hview⟩ := garbageCollect_exact hrest.owned hi
      (hrest.marking i) (hrest.gray i) (hrest.refs_live i)
    refine ⟨h', bytes, hgc, fun n => ?_⟩
    have hchain : ∀ j, n ∈ (h'.par j).nodes ↔
        n ∈ (h.par j).nodes ∧ (j = i → h₁.view.garbage n = false) := by
      intro j
      change n ∈ h'.view.chain j ↔ n ∈ h.view.chain j ∧ _
      rw [hview, MarkState.mem_chain_unlink, hout.chain]
    have hkept : n ∈ (h.par i).nodes → (h₁.view.garbage n = false ↔ n ∈ h.localReach i) := by
      intro hn
      have hgarbage := hout.garbage n hn
      rw [← not_iff_not, Bool.not_eq_false, hgarbage]
      rfl
    constructor
    · rintro ⟨j, hj⟩
      obtain ⟨hnj, hfree⟩ := (hchain j).mp hj
      refine ⟨⟨j, hnj⟩, fun hni => (hkept hni).mp (hfree ?_)⟩
      exact hrest.owned.eq_of_mem hnj hni
    · rintro ⟨⟨j, hnj⟩, hlocal⟩
      refine ⟨j, (hchain j).mpr ⟨hnj, ?_⟩⟩
      rintro rfl
      exact (hkept hnj).mpr (hlocal hnj)
  · refine ⟨h, 0, if_pos (Nat.le_of_not_lt hi), fun n => ?_⟩
    simp [par_of_length_le (Nat.le_of_not_lt hi), default]

end GcHeap

/-- **Stop the world.** A collection of partition `i` always ends, and it frees nothing that is
reachable from any root or local exactly when the partition's own roots and locals reach, inside the
partition, every node of it that is reachable at all. -/
theorem garbageCollect_safe_iff {h : GcHeap} (hrest : h.AtRest) (i : ℕ) :
    ∃ (h' : GcHeap) (bytes : ℕ), h.garbageCollect i = some (h', bytes) ∧
      ((∀ n ∈ h.reach, h'.Live n) ↔
        ∀ n ∈ (h.par i).nodes, n ∈ h.reach → n ∈ h.localReach i) := by
  obtain ⟨h', bytes, hgc, hlive⟩ := hrest.live_garbageCollect i
  refine ⟨h', bytes, hgc, fun hsafe n hn hreach => ?_, fun hlocal n hreach => ?_⟩
  · exact ((hlive n).mp (hsafe n hreach)).2 hn
  · exact (hlive n).mpr ⟨hrest.live_of_reach hreach, fun hn => hlocal n hn hreach⟩

/-- Node 1000 of partition 0, and a root of partition 1 that refers to it. -/
private theorem exists_held_node : ∃ h : GcHeap, Reachable h ∧ h.AtRest ∧
    (h.par 1).nodes = [2000] ∧ (h.head 2000).isRoot ∧ h.refs 2000 = [1000] ∧
    (h.garbageCollect 0).any fun r => ¬ r.1.Live 1000 :=
  exists_of_play (gcTypeTableInternal 24 8 [⟨8, 8, true, none⟩])
    [.createPartition 0 0 none, .createPartition 0 0 none, .allocRaw 0 0 [] (some 1000),
      .allocRootRaw 1 0 [1000] (some 2000)]
    (by decide +kernel)

/-- A root of another partition does not hold a node. -/
theorem garbageCollect_frees_held_node : ∃ (h h' : GcHeap) (bytes : ℕ), Reachable h ∧ h.AtRest ∧
    h.garbageCollect 0 = some (h', bytes) ∧ 1000 ∈ h.reach ∧ ¬ h'.Live 1000 := by
  obtain ⟨h, hr, hrest, hnodes, hroot, hrefs, hgc⟩ := exists_held_node
  obtain ⟨⟨h', bytes⟩, hgc, hdead⟩ := (Option.any_eq_true _ _).mp hgc
  have hlive : h.view.Live 2000 := ⟨1, by simp [GcHeap.view, hnodes]⟩
  refine ⟨h, h', bytes, hr, hrest, hgc, ⟨2000, ⟨hlive, ?_⟩, .single ?_⟩, of_decide_eq_true hdead⟩
  · simp [GcHeap.view, GcHead.isRootOrLocal, hroot]
  · simp [MarkState.ref, GcHeap.view, hrefs]

/-- Collecting the root's own partition is safe there. -/
theorem garbageCollect_safe_of_root : ∃ (h h' : GcHeap) (bytes : ℕ), 1000 ∈ h.refs 2000 ∧
    h.garbageCollect 1 = some (h', bytes) ∧ ∀ n ∈ h.reach, h'.Live n := by
  obtain ⟨h, -, hrest, hnodes, hroot, hrefs, -⟩ := exists_held_node
  obtain ⟨h', bytes, hgc, hsafe⟩ := garbageCollect_safe_iff hrest 1
  refine ⟨h, h', bytes, by simp [hrefs], hgc, hsafe.mpr fun n hn _ => ?_⟩
  refine TriColor.subset_reach _ ⟨hn, ?_⟩
  rw [hnodes, List.mem_singleton] at hn
  simp [GcHeap.view, GcHead.isRootOrLocal, hn, hroot]

end GcLite
