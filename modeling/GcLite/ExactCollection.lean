import GcLite.Accounting
import GcLite.Incremental

/-!
# Exact collection

In a run whose references and scopes stay inside their partitions, a collection of a partition that
is not marking keeps exactly what the partition's roots and locals reach, in the order of the chain,
and returns the bytes of the rest. It takes these bytes from the counters as long as the layout
sizes fit an `i32`.

## Main definitions

* `GcHeap.reachOf` — what the roots and locals of one partition reach
* `GcHeap.CollectedTo` — an exact collection
* `OwnPartition` — runs inside partitions, on a system allocator that keeps to its contract

## Main results

* `reachOf_eq_localReach` — with references inside partitions, paths stay inside too
* `garbageCollect_collects`
* `garbageCollect_miscounts` — what a large layout does
-/

namespace GcLite

open Relation Transition

namespace MarkState

variable {s : MarkState} {i : ℕ} {n : NodePtr}

/-- With references inside partitions, what a partition's own roots reach is in the partition. -/
theorem Enclosed.reach_eq_localReach (hs : s.Enclosed) (i : ℕ) :
    TriColor.reach s.ref {n | n ∈ s.chain i ∧ s.prot n = true} = s.localReach i := by
  ext n
  constructor
  · rintro ⟨r, hr, hpath⟩
    refine ⟨r, hr, ?_⟩
    have hpath : n ∈ s.chain i ∧ ReflTransGen (s.edge i) r n := by
      induction hpath with
      | refl => exact ⟨hr.1, .refl⟩
      | @tail m c _ hmc ih =>
        have hc : c ∈ s.chain i :=
          (hs.mem_chain_iff (hs.refs_live i m ih.1 c hmc)).mpr (hs.inside i m ih.1 c hmc)
        exact ⟨hc, ih.2.tail ⟨ih.1, hmc, hc⟩⟩
    exact hpath.2
  · rintro ⟨r, hr, hpath⟩
    exact ⟨r, hr, hpath.lift id fun _ _ hedge => hedge.2.1⟩

/-- What a sweep of the unreachable keeps is reachable afterwards. -/
theorem localReach_unlink (hkept : ∀ m ∈ s.localReach i, s.garbage m = false)
    (hn : n ∈ s.localReach i) : n ∈ (s.unlink i).localReach i := by
  obtain ⟨r, hr, hpath⟩ := hn
  have hstay : ∀ m ∈ s.localReach i, m ∈ (s.unlink i).chain i := fun m hm =>
    mem_chain_unlink.mpr ⟨mem_chain_of_localReach hm, fun _ => hkept m hm⟩
  refine ⟨r, ⟨hstay r (TriColor.subset_reach _ hr), hr.2⟩, ?_⟩
  induction hpath with
  | refl => exact .refl
  | @tail m c hrm hmc ih =>
    exact ih.tail ⟨hstay m ⟨r, hr, hrm⟩, hmc.2.1, hstay c ⟨r, hr, hrm.tail hmc⟩⟩

end MarkState

namespace GcHeap

variable {h h' : GcHeap} {i bytes : ℕ}

/-- What the roots and locals of one partition reach. -/
def reachOf (h : GcHeap) (i : ℕ) : Set NodePtr :=
  TriColor.reach (fun m c => c ∈ h.refs m)
    {n | n ∈ (h.par i).nodes ∧ (h.head n).isRootOrLocal = true}

theorem reachOf_eq_localReach (hs : h.view.Enclosed) : h.reachOf i = h.localReach i :=
  hs.reach_eq_localReach i

/-- Partition `i` has been collected: its chain is what its roots and locals reach, in the order of
before, and the bytes of the others have been taken away and returned. -/
structure CollectedTo (h : GcHeap) (i : ℕ) (h' : GcHeap) (bytes : ℕ) : Prop where
  /-- The chain and the bytes returned. -/
  exact : ∃ keep : NodePtr → Bool, (∀ n ∈ (h.par i).nodes, keep n = true ↔ n ∈ h.reachOf i) ∧
    (h'.par i).nodes = (h.par i).nodes.filter keep ∧
    bytes = h.bytesOf ((h.par i).nodes.filter fun n => !keep n)
  /-- The partition's counter goes down by the bytes returned. -/
  used : (h.par i).memoryUsed = (h'.par i).memoryUsed + bytes
  /-- So does the heap's. -/
  total : h.totalMemoryUsed = h'.totalMemoryUsed + bytes

/-- **One collection**, with its sweep. -/
theorem Accounts.collectedTo (hacc : h.Accounts) (hinv : h.MemInv) (hp : h.Placed)
    (hs : h.view.Enclosed) (hi : i < h.partitions.length) (hm : (h.par i).marking = false) :
    ∃ (h₁ h' : GcHeap) (bytes : ℕ), h.garbageCollect i = some (h', bytes) ∧
      h.CollectedTo i h' bytes ∧ MarkState.MarkedOut h.view h₁.view i ∧
      h'.view = h₁.view.unlink i := by
  obtain ⟨h₁, h', bytes, hgc, hstore, hout, hsweep, hview⟩ :=
    garbageCollect_exact ⟨hs.range, hs.own⟩ hi hm (hs.idle i hm) (hs.refs_live i)
  have hdone : h₁.CycleDone i := ⟨by rwa [length_of_store hstore], hout.marking, hout.gray⟩
  obtain ⟨htaken, hbytes, -⟩ := (hacc.congr hstore).takenAway_twoPhaseSweep
    (hinv.congr hstore) (hp.congr hstore) hdone
  rw [hsweep] at htaken hbytes
  have hbytes : bytes = h₁.bytesOf (h₁.unlinked i) := hbytes
  have hsame : ∀ l, h₁.bytesOf l = h.bytesOf l := fun l =>
    bytesOf_congr fun n _ => info_of_store hstore n
  have hnodes : (h'.par i).nodes = h₁.survivors i := by
    have := nodes_twoPhaseSweep (j := i) hdone
    rwa [hsweep, if_pos rfl] at this
  refine ⟨h₁, h', bytes, hgc, ⟨⟨fun n => !h₁.isWhiteNonRoot n, fun n hn => ?_, ?_, ?_⟩, ?_, ?_⟩,
    hout, hview⟩
  · have hgarbage : h₁.isWhiteNonRoot n = true ↔ n ∉ h.view.localReach i := hout.garbage n hn
    rw [reachOf_eq_localReach hs, localReach, ← not_iff_not, ← hgarbage]
    simp
  · rw [hnodes, survivors, nodes_of_store hstore]
  · rw [hbytes, hsame, unlinked, nodes_of_store hstore]
    simp
  · rw [← memoryUsed_of_store hstore, hbytes]
    exact htaken.used
  · rw [← totalMemoryUsed_of_store hstore, hbytes]
    exact htaken.total

/-- **And a second one right after**, which finds nothing. -/
theorem Accounts.collectedTwice {h₁ : GcHeap} (hacc : h'.Accounts) (hinv : h'.MemInv)
    (hp : h'.Placed) (hs' : h'.view.Enclosed) (hout : MarkState.MarkedOut h.view h₁.view i)
    (hview : h'.view = h₁.view.unlink i) (hi : i < h'.partitions.length) :
    ∃ h'' : GcHeap, h'.garbageCollect i = some (h'', 0) ∧
      ∀ j, (h''.par j).nodes = (h'.par j).nodes := by
  have hm : (h'.par i).marking = false := by
    change h'.view.marking i = false
    rw [hview]
    exact if_pos rfl
  obtain ⟨h₂, h'', bytes, hgc, ⟨⟨keep, hkeep, hnodes, hbytes⟩, -, -⟩, hout', hview'⟩ :=
    hacc.collectedTo hinv hp hs' hi hm
  have hlocal : h₁.view.localReach i = h.view.localReach i :=
    MarkState.localReach_congr (congrFun hout.chain i) hout.prot hout.refs
  have hall : ∀ n ∈ (h'.par i).nodes, n ∈ h'.view.localReach i := by
    intro n hn
    have hn' : n ∈ h₁.view.chain i ∧ (i = i → h₁.view.garbage n = false) := by
      rw [← MarkState.mem_chain_unlink, ← hview]
      exact hn
    have hchain : n ∈ h.view.chain i := hout.chain ▸ hn'.1
    rw [hview]
    refine MarkState.localReach_unlink (fun m hm => ?_) ?_
    · have hgarbage := hout.garbage m (hout.chain ▸ MarkState.mem_chain_of_localReach hm)
      rw [← Bool.not_eq_true, hgarbage, not_not]
      exact hlocal ▸ hm
    · have hgarbage := hout.garbage n hchain
      rw [hn'.2 rfl] at hgarbage
      rw [hlocal]
      simpa using hgarbage
  have hkept : ∀ n ∈ (h'.par i).nodes, keep n = true := by
    intro n hn
    rw [hkeep n hn, reachOf_eq_localReach hs']
    exact hall n hn
  refine ⟨h'', ?_, fun j => ?_⟩
  · have hnone : (h'.par i).nodes.filter (fun n => !keep n) = [] := by
      simpa [List.filter_eq_nil_iff] using hkept
    rw [hnone, bytesOf_nil] at hbytes
    rw [hgc, hbytes]
  · by_cases hj : j = i
    · rw [hj, hnodes, List.filter_eq_self]
      exact hkept
    · change h''.view.chain j = h'.view.chain j
      rw [hview', MarkState.unlink, hout'.chain]
      exact if_neg hj

end GcHeap

/-- References and scopes stay inside their partitions, and the system hands out free blocks. -/
def OwnPartition (h : GcHeap) (op : Op) : Prop := InPartition h op ∧ SystemMemory h op

instance {h : GcHeap} {op : Op} : Decidable (OwnPartition h op) :=
  inferInstanceAs (Decidable (_ ∧ _))

theorem ownPartition_garbageCollect (h : GcHeap) (i : ℕ) : OwnPartition h (.garbageCollect i) :=
  ⟨inPartition_iff.mpr ⟨(fun _ hr => nomatch hr), (fun _ hr => nomatch hr), trivial⟩, trivial⟩

theorem ownPartition_markReset (h : GcHeap) (i : ℕ) : OwnPartition h (.markReset i) :=
  ⟨inPartition_iff.mpr ⟨(fun _ hr => nomatch hr), (fun _ hr => nomatch hr), trivial⟩, trivial⟩

theorem smallAlloc_of_none {h : GcHeap} {op : Op} (hop : op.allocType = none) : SmallAlloc h op :=
  fun _ htype => nomatch hop.symm.trans htype

open GcHeap in
/-- **Exact collection.** In every run inside partitions that allocates nothing of a layout of
`2 ^ 31` bytes or more, a collection of a partition that is not marking, or that has just been
reset, keeps exactly what the partition's own roots and locals reach, returns the bytes of the
others and takes them away from both counters. A second collection right after returns nothing and
changes no chain. -/
theorem garbageCollect_collects {g h : GcHeap} {i : ℕ}
    (hg : ReachableWith (fun h op => OwnPartition h op ∧ SmallAlloc h op) g)
    (hi : i < g.partitions.length)
    (hh : h = g ∧ (g.par i).marking = false ∨ h = g.markReset i) :
    ∃ (h' : GcHeap) (bytes : ℕ), h.garbageCollect i = some (h', bytes) ∧
      h.CollectedTo i h' bytes ∧
      ∃ h'' : GcHeap, h'.garbageCollect i = some (h'', 0) ∧
        ∀ j, (h''.par j).nodes = (h'.par j).nodes := by
  obtain ⟨hr, hi, hm⟩ : ReachableWith (fun h op => OwnPartition h op ∧ SmallAlloc h op) h ∧
      i < h.partitions.length ∧ (h.par i).marking = false := by
    rcases hh with ⟨rfl, hm⟩ | rfl
    · exact ⟨hg, hi, hm⟩
    · obtain ⟨registry, hg⟩ := hg
      refine ⟨⟨registry, hg.tail (a := .markReset i) ⟨⟨hi, rfl⟩, ?_⟩⟩, ?_, ?_⟩
      · exact ⟨ownPartition_markReset _ _, smallAlloc_of_none rfl⟩
      · rwa [length_of_store store_markReset]
      · change (g.markReset i).view.marking i = false
        rw [view_markReset hi]
        exact if_pos rfl
  have hall : ∀ {h : GcHeap}, ReachableWith (fun h op => OwnPartition h op ∧ SmallAlloc h op) h →
      h.Accounts ∧ h.MemInv ∧ h.Placed ∧ h.view.Enclosed := fun hr =>
    ⟨accounts_of_reachable hr (fun _ _ hop => hop.1.2) (fun _ _ hop => hop.2),
      memInv_of_reachable hr, placed_of_reachable hr fun _ _ hop => hop.1.2,
      enclosed_of_reachable (hr.mono fun _ _ hop => hop.1.1)⟩
  obtain ⟨hacc, hinv, hp, hs⟩ := hall hr
  obtain ⟨h₁, h', bytes, hgc, hcoll, hout, hview⟩ := hacc.collectedTo hinv hp hs hi hm
  have hr' : ReachableWith (fun h op => OwnPartition h op ∧ SmallAlloc h op) h' := by
    obtain ⟨registry, hr⟩ := hr
    refine ⟨registry, hr.tail (a := .garbageCollect i) ⟨⟨trivial, ?_⟩, ?_⟩⟩
    · rw [exec, hgc]
      rfl
    · exact ⟨ownPartition_garbageCollect _ _, smallAlloc_of_none rfl⟩
  obtain ⟨hacc', hinv', hp', hs'⟩ := hall hr'
  have hi' : i < h'.partitions.length := by
    change i < h'.view.count
    rw [hview]
    exact hout.count.symm ▸ hi
  exact ⟨h', bytes, hgc, hcoll, hacc'.collectedTwice hinv' hp' hs' hout hview hi'⟩

/-- A root that refers to one of two nodes. -/
theorem garbageCollect_collects_one : ∃ (h h' : GcHeap) (bytes : ℕ), (h.par 0).nodes.length = 3 ∧
    h.garbageCollect 0 = some (h', bytes) ∧ h.CollectedTo 0 h' bytes := by
  obtain ⟨h, hr, hnodes, hi, hm⟩ : ∃ h,
      ReachableWith (fun h op => OwnPartition h op ∧ SmallAlloc h op) h ∧
      (h.par 0).nodes.length = 3 ∧ 0 < h.partitions.length ∧ (h.par 0).marking = false :=
    exists_of_play (gcTypeTableInternal 24 8 [⟨8, 8, true, none⟩])
      [.createPartition 0 0 none, .allocRaw 0 0 [] (some 1000),
        .allocRootRaw 0 0 [1000] (some 2000), .allocRaw 0 0 [] (some 3000)]
      (by decide +kernel)
  obtain ⟨h', bytes, hgc, hcoll, -⟩ := garbageCollect_collects hr hi (.inl ⟨rfl, hm⟩)
  exact ⟨h, h', bytes, hnodes, hgc, hcoll⟩

/-- A node of `2 ^ 32 + 32` bytes counts as 32 when it is allocated and when it is freed, but its
size is what the collection returns. -/
theorem garbageCollect_miscounts : ∃ (h h' : GcHeap) (bytes : ℕ), ReachableWith OwnPartition h ∧
    (h.par 0).marking = false ∧ h.garbageCollect 0 = some (h', bytes) ∧
    ¬ h.CollectedTo 0 h' bytes := by
  obtain ⟨h, hr, hm, hgc⟩ : ∃ h, ReachableWith OwnPartition h ∧ (h.par 0).marking = false ∧
      (h.garbageCollect 0).any fun r => (h.par 0).memoryUsed ≠ (r.1.par 0).memoryUsed + r.2 :=
    exists_of_play (gcTypeTableInternal 24 8 [⟨2 ^ 32 + 8, 8, true, none⟩])
      [.createPartition 0 0 none, .allocRaw 0 0 [] (some 4096)]
      (by decide +kernel)
  obtain ⟨⟨h', bytes⟩, hgc, hne⟩ := (Option.any_eq_true _ _).mp hgc
  exact ⟨h, h', bytes, hr, hm, hgc, fun hcoll => of_decide_eq_true hne hcoll.used⟩

end GcLite
