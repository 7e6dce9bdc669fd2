import GcLite.MarkRun
import GcLite.MarkOps
import GcLite.Store
import Mathlib.Algebra.Order.BigOperators.Group.List
import Mathlib.Algebra.Order.Group.Nat

/-!
# Marking to the end, and collecting

`mark` begins a cycle if there is none and then runs on the gray list of its partition;
`garbage_collect` repeats this until the list is empty, and sweeps.

## Main definitions

* `MarkState.Started` — where the run of a `mark` begins
* `MarkState.Seeded` — a partition at the beginning of its cycle
* `MarkState.MarkedOut` — what a whole cycle leaves behind

## Main results

* `mark_run`, `markLoop_run` — marking is a run
* `markLoop_isSome` — and comes to an end
* `garbageCollect_run` — a collection is a run and a sweep
* `garbageCollect_exact` — what it finds as garbage
-/

namespace GcLite

open Transition

namespace MarkState

variable {s t : MarkState} {i : ℕ}

/-- Where a `mark` of partition `i` begins to run: where the last one stopped, or at the beginning
of a cycle. -/
inductive Started (i : ℕ) (s : MarkState) : MarkState → Prop
  /-- In the middle of a cycle. -/
  | going (hm : s.marking i = true) : Started i s s
  /-- At the beginning of one. -/
  | fresh {t : MarkState} (hm : s.marking i = false) (hp : Prepared s t) : Started i s t

theorem Started.owned (hst : Started i s t) (hs : s.Owned) : t.Owned := by
  cases hst with
  | going hm => exact hs
  | fresh hm hp => exact hs.prepared hp

theorem Started.count (hst : Started i s t) : t.count = s.count := by
  cases hst with
  | going hm => rfl
  | fresh hm hp => exact hp.count

theorem Started.chain (hst : Started i s t) : t.chain = s.chain := by
  cases hst with
  | going hm => rfl
  | fresh hm hp => exact hp.chain

theorem Started.prot (hst : Started i s t) : t.prot = s.prot := by
  cases hst with
  | going hm => rfl
  | fresh hm hp => exact hp.prot

theorem Started.pid (hst : Started i s t) : t.pid = s.pid := by
  cases hst with
  | going hm => rfl
  | fresh hm hp => exact hp.pid

theorem Started.refs (hst : Started i s t) : t.refs = s.refs := by
  cases hst with
  | going hm => rfl
  | fresh hm hp => exact hp.refs

theorem Started.marking (hst : Started i s t) (hi : i < s.count) : t.marking i = true := by
  cases hst with
  | going hm => exact hm
  | fresh hm hp => exact hp.marking i hi

end MarkState

namespace GcHeap

open MarkState

variable {h h' : GcHeap} {i : ℕ}

/-- `mark` is a run from where the cycle stands or begins. -/
theorem mark_run (hs : h.view.Owned) (hi : i < h.view.count) (maxSteps : ℕ) : ∃ s as,
    Started i h.view s ∧ Run (MarkStep i) s as (h.mark i maxSteps).1.view ∧
      ((h.mark i maxSteps).2 = true → (h.mark i maxSteps).1.view.gray i = []) ∧
      ((h.mark i maxSteps).2 = false → traces as = maxSteps) := by
  have hstart : Started i h.view (h.markPrepare i).view := by
    cases hm : h.view.marking i with
    | true =>
      rw [markPrepare_of_marking hm]
      exact .going hm
    | false => exact .fresh hm (prepared_markPrepare hs hi hm)
  unfold mark
  dsimp only
  split
  · obtain ⟨as, hrun, hdone, hcut⟩ := markGrays_run (h := h.markPrepare i) (i := i) maxSteps
    exact ⟨_, as, hstart, hrun, hdone, hcut⟩
  · next hzero => exact ⟨_, [], hstart, .nil _, by simp, fun _ => by simp [traces]; omega⟩

/-- A `mark` that is not done has its partition marking, so the next one goes on from there. -/
private theorem mark_again (hs : h.view.Owned) (hi : i < h.view.count) {h₁ : GcHeap}
    (hmark : h.mark i 64 = (h₁, false)) : h₁.view.Owned ∧ i < h₁.view.count ∧ ∃ s as,
      Started i h.view s ∧ Run (MarkStep i) s as h₁.view ∧ traces as = 64 ∧
      ∀ t, Started i h₁.view t → t = h₁.view := by
  obtain ⟨s, as, hstart, hrun, -, hcut⟩ := mark_run hs hi 64
  rw [hmark] at hrun hcut
  have hsame := markRun_sameGraph hrun
  have hmarking : h₁.view.marking i = true := hsame.marking ▸ hstart.marking hi
  refine ⟨(hstart.owned hs).markRun hrun, ?_, s, as, hstart, hrun, hcut rfl, fun t ht => ?_⟩
  · rwa [hsame.count, hstart.count]
  · cases ht with
    | going _ => rfl
    | fresh hm _ =>
      rw [hmarking] at hm
      cases hm

/-- Repeating `mark` until it is done is one run, which ends with an empty list. -/
theorem markLoop_run : ∀ (fuel : ℕ) (h : GcHeap), h.view.Owned → i < h.view.count →
    markLoop i fuel h = some h' → ∃ s as, Started i h.view s ∧ Run (MarkStep i) s as h'.view ∧
      h'.view.gray i = [] := by
  intro fuel
  induction fuel with
  | zero =>
    intro h _ _ hloop
    cases hloop
  | succ fuel ih =>
    intro h hs hi hloop
    rw [markLoop] at hloop
    rcases hmark : h.mark i 64 with ⟨h₁, _ | _⟩ <;> rw [hmark] at hloop
    · obtain ⟨hs₁, hi₁, s, as, hstart, hrun, -, hagain⟩ := mark_again hs hi hmark
      obtain ⟨t, bs, ht, hrest, hdone⟩ := ih h₁ hs₁ hi₁ hloop
      obtain rfl := hagain t ht
      exact ⟨s, as ++ bs, hstart, run_append.mpr ⟨_, hrun, hrest⟩, hdone⟩
    · obtain rfl := Option.some.inj hloop
      obtain ⟨s, as, hstart, hrun, hdone, -⟩ := mark_run hs hi 64
      rw [hmark] at hrun hdone
      exact ⟨s, as, hstart, hrun, hdone rfl⟩

/-- If it is not done in time, it has traced that many nodes. -/
theorem markLoop_none : ∀ (fuel : ℕ) (h : GcHeap), h.view.Owned → i < h.view.count →
    markLoop i (fuel + 1) h = none → ∃ s as t, Started i h.view s ∧ Run (MarkStep i) s as t ∧
      traces as = 64 * (fuel + 1) := by
  intro fuel
  induction fuel with
  | zero =>
    intro h hs hi hloop
    rw [markLoop] at hloop
    rcases hmark : h.mark i 64 with ⟨h₁, _ | _⟩ <;> rw [hmark] at hloop
    · obtain ⟨-, -, s, as, hstart, hrun, htraces, -⟩ := mark_again hs hi hmark
      exact ⟨s, as, _, hstart, hrun, htraces⟩
    · cases hloop
  | succ fuel ih =>
    intro h hs hi hloop
    rw [markLoop] at hloop
    rcases hmark : h.mark i 64 with ⟨h₁, _ | _⟩ <;> rw [hmark] at hloop
    · obtain ⟨hs₁, hi₁, s, as, hstart, hrun, htraces, hagain⟩ := mark_again hs hi hmark
      obtain ⟨t, bs, u, ht, hrest, htraces'⟩ := ih h₁ hs₁ hi₁ hloop
      obtain rfl := hagain t ht
      refine ⟨s, as ++ bs, u, hstart, run_append.mpr ⟨_, hrun, hrest⟩, ?_⟩
      rw [traces_append]
      omega
    · cases hloop

theorem length_chain_le_nodeCount : (h.view.chain i).length ≤ h.nodeCount := by
  by_cases hi : i < h.partitions.length
  · have hmem : (h.par i).nodes.length ∈ h.partitions.map fun q => q.nodes.length := by
      refine List.mem_map.mpr ⟨h.partitions[i], List.getElem_mem hi, ?_⟩
      simp [par, hi]
    exact List.le_sum_of_mem hmem
  · have hnil : h.view.chain i = [] := by
      change (h.par i).nodes = []
      rw [par_of_length_le (Nat.le_of_not_lt hi)]
      rfl
    simp [hnil]

/-- **Termination.** No node is traced twice, so the loop of a collection comes to an end. -/
theorem markLoop_isSome (hs : h.view.Owned) (hi : i < h.view.count)
    (hlocal : ∀ s, Started i h.view s → s.Local i) :
    ∃ h', markLoop i (h.nodeCount + 1) h = some h' := by
  refine Option.isSome_iff_exists.mp (Option.isSome_iff_ne_none.mpr fun hnone => ?_)
  obtain ⟨s, as, t, hstart, hrun, htraces⟩ := markLoop_none h.nodeCount h hs hi hnone
  have hle := (hlocal s hstart).traces_le hrun
  have hlen : s.nonblack i ≤ (s.chain i).length := nonblack_le_length
  rw [hstart.chain] at hlen
  have hcount := length_chain_le_nodeCount (h := h) (i := i)
  omega

/-- **A collection** is a run that ends with an empty list, and then a sweep of what it marked. -/
theorem garbageCollect_run {bytes : ℕ} (hs : h.view.Owned)
    (hgc : h.garbageCollect i = some (h', bytes)) :
    (h.view.count ≤ i ∧ h' = h ∧ bytes = 0) ∨
    (i < h.view.count ∧ ∃ (h₁ : GcHeap) (s : MarkState) (as : List MarkAction),
      h₁.store = h.store ∧ Started i h.view s ∧
      Run (MarkStep i) s as h₁.view ∧ h₁.view.gray i = [] ∧ h₁.view.marking i = true ∧
      h₁.twoPhaseSweep i = (h', bytes) ∧ h'.view = h₁.view.unlink i) := by
  unfold garbageCollect at hgc
  split at hgc
  · next hi =>
    obtain ⟨rfl, rfl⟩ := Prod.mk.inj (Option.some.inj hgc)
    exact .inl ⟨hi, rfl, rfl⟩
  · next hi =>
    have hi : i < h.view.count := Nat.lt_of_not_le hi
    obtain ⟨h₁, hloop, hsweep⟩ := Option.map_eq_some_iff.mp hgc
    obtain ⟨s, as, hstart, hrun, hdone⟩ := markLoop_run _ h hs hi hloop
    have hsame := markRun_sameGraph hrun
    have hmarking : h₁.view.marking i = true := hsame.marking ▸ hstart.marking hi
    have hi₁ : i < h₁.view.count := by rwa [hsame.count, hstart.count]
    refine .inr ⟨hi, h₁, s, as, store_markLoop _ h hloop, hstart, hrun, hdone, hmarking, hsweep, ?_⟩
    have hview := view_twoPhaseSweep (h := h₁) (i := i)
    rwa [hsweep, (view_sweepUnlink hi₁ hmarking hdone).1] at hview

end GcHeap

/-! ### Exact collection -/

namespace MarkState

variable {s t u : MarkState} {i : ℕ} {n : NodePtr} {as : List MarkAction}

theorem localReach_congr (hchain : t.chain i = s.chain i) (hprot : t.prot = s.prot)
    (hrefs : t.refs = s.refs) : t.localReach i = s.localReach i := by
  have hedge : t.edge i = s.edge i := by
    funext m c
    simp only [edge, hchain, hrefs]
  rw [localReach, localReach, hedge, hchain, hprot]

/-- What is reachable in partition `i` is there. -/
theorem mem_chain_of_localReach (hn : n ∈ s.localReach i) : n ∈ s.chain i :=
  TriColor.reach_subset_of_closed (S := {n | n ∈ s.chain i}) (fun _ _ _ hedge => hedge.2.2)
    (TriColor.reach_mono (fun _ hm => hm.1) hn)

/-- The state `t` is `s` after a whole cycle of partition `i`. -/
structure MarkedOut (s t : MarkState) (i : ℕ) : Prop where
  /-- There are as many partitions. -/
  count : t.count = s.count
  /-- Nothing has been swept. -/
  chain : t.chain = s.chain
  /-- Protection is as before. -/
  prot : t.prot = s.prot
  /-- The headers name the same partitions. -/
  pid : t.pid = s.pid
  /-- The payloads are as before. -/
  refs : t.refs = s.refs
  /-- The cycle has not ended. -/
  marking : t.marking i = true
  /-- Nothing is left to trace. -/
  gray : t.gray i = []
  /-- A sweep would take exactly what is not reachable inside the partition. -/
  garbage : ∀ n ∈ s.chain i, t.garbage n = true ↔ n ∉ s.localReach i

/-- The cycle of partition `i` is at its beginning: the protected nodes are gray and on the list,
and the others are white. -/
structure Seeded (s : MarkState) (i : ℕ) : Prop where
  /-- The cycle has begun. -/
  marking : s.marking i = true
  /-- The list has the protected nodes. -/
  mem_gray : ∀ m, m ∈ s.gray i ↔ m ∈ s.chain i ∧ s.prot m = true
  /-- They are gray. -/
  color : ∀ m ∈ s.chain i, s.color m = if s.prot m then .gray else .white

/-- That is how a cycle begins in a partition where nothing is pending. -/
theorem Prepared.seeded (hp : Prepared s t) (hi : i < s.count) (hg : s.gray i = []) :
    t.Seeded i := by
  refine ⟨hp.marking i hi, fun m => ?_, fun m hm => ?_⟩
  · rw [hp.mem_gray i hi m, hg, hp.chain, hp.prot]
    simp
  · rw [hp.chain] at hm
    rw [hp.color i m hm, if_pos hg, hp.prot]

theorem Seeded.local (hs : s.Seeded i) (hown : s.Owned) (hi : i < s.count)
    (hrefs : ∀ n ∈ s.chain i, ∀ c ∈ s.refs n, s.Live c) : s.Local i := by
  refine ⟨hi, hown.own, fun m hm => ((hs.mem_gray m).mp hm).1, fun m hm hc => ?_, hrefs⟩
  refine (hs.mem_gray m).mpr ⟨hm, ?_⟩
  by_contra hprot
  rw [hs.color m hm, if_neg hprot] at hc
  cases hc

/-- A run from there to an empty list is a whole cycle. -/
theorem Seeded.markedOut (hs : s.Seeded i) (hlocal : s.Local i) (hr : Run (MarkStep i) s as u)
    (hdone : u.gray i = []) : MarkedOut s u i := by
  have hsame := markRun_sameGraph hr
  refine ⟨hsame.count, hsame.chain, hsame.prot, hsame.pid, hsame.refs,
    hsame.marking ▸ hs.marking, hdone, fun n hn => ?_⟩
  have hexact := hlocal.exact hr hdone hs.color hn
  have hprot : u.prot n = s.prot n := by rw [hsame.prot]
  by_cases hreach : n ∈ s.localReach i
  · simp [MarkState.garbage, hexact.1 hreach, hreach]
  · have hno : s.prot n = false := by
      by_contra hyes
      exact hreach (TriColor.subset_reach _ ⟨hn, by simpa using hyes⟩)
    simp [MarkState.garbage, hexact.2 hreach, hprot, hno, hreach]

/-- Where the run began does not matter, as long as the graph is the same. -/
theorem Started.markedOut (hst : Started i s t) (hout : MarkedOut t u i) : MarkedOut s u i := by
  have hreach : t.localReach i = s.localReach i :=
    localReach_congr (congrFun hst.chain i) hst.prot hst.refs
  refine ⟨hout.count.trans hst.count, hout.chain.trans hst.chain, hout.prot.trans hst.prot,
    hout.pid.trans hst.pid, hout.refs.trans hst.refs, hout.marking, hout.gray, fun n hn => ?_⟩
  rw [← hreach]
  exact hout.garbage n (hst.chain ▸ hn)

end MarkState

namespace GcHeap

open MarkState

variable {h : GcHeap} {i : ℕ}

/-- **A collection from the beginning of a cycle** ends, and its sweep finds as garbage exactly the
nodes that the partition's own roots and locals do not reach inside it. -/
theorem garbageCollect_seeded (hs : h.view.Owned) (hi : i < h.view.count)
    (hseeded : ∀ s, Started i h.view s → s.Seeded i)
    (hrefs : ∀ n ∈ h.view.chain i, ∀ c ∈ h.view.refs n, h.view.Live c) :
    ∃ (h₁ h' : GcHeap) (bytes : ℕ) (s : MarkState) (as : List MarkAction),
      h.garbageCollect i = some (h', bytes) ∧ h₁.store = h.store ∧
      (Started i h.view s ∧ Run (MarkStep i) s as h₁.view ∧ MarkedOut h.view h₁.view i) ∧
      h₁.twoPhaseSweep i = (h', bytes) ∧ h'.view = h₁.view.unlink i := by
  have hlocal : ∀ s, Started i h.view s → s.Local i := fun s hst => by
    refine (hseeded s hst).local (hst.owned hs) (hst.count ▸ hi) ?_
    simp only [MarkState.Live, hst.chain, hst.refs]
    exact hrefs
  obtain ⟨h₂, hloop⟩ := markLoop_isSome hs hi hlocal
  obtain ⟨⟨h', bytes⟩, hgc⟩ : ∃ r, h.garbageCollect i = some r := by
    have hlt : i < h.partitions.length := hi
    rw [garbageCollect, if_neg (Nat.not_le.mpr hlt), hloop]
    exact ⟨_, rfl⟩
  rcases garbageCollect_run hs hgc with ⟨hi', -⟩ |
    ⟨-, h₁, s, as, hstore, hstart, hr, hdone, -, hsweep, hview⟩
  · exact absurd hi (Nat.not_lt.mpr hi')
  · have hout := (hseeded s hstart).markedOut (hlocal s hstart) hr hdone
    exact ⟨h₁, h', bytes, s, as, hgc, hstore, ⟨hstart, hr, hstart.markedOut hout⟩, hsweep, hview⟩

/-- **Exact collection.** In particular, a collection of a partition in which nothing is pending. -/
theorem garbageCollect_exact (hs : h.view.Owned) (hi : i < h.view.count)
    (hm : h.view.marking i = false) (hg : h.view.gray i = [])
    (hrefs : ∀ n ∈ h.view.chain i, ∀ c ∈ h.view.refs n, h.view.Live c) :
    ∃ (h₁ h' : GcHeap) (bytes : ℕ), h.garbageCollect i = some (h', bytes) ∧ h₁.store = h.store ∧
      MarkedOut h.view h₁.view i ∧ h₁.twoPhaseSweep i = (h', bytes) ∧
      h'.view = h₁.view.unlink i := by
  have hseeded : ∀ s, Started i h.view s → s.Seeded i := by
    intro s hstart
    cases hstart with
    | going hm' =>
      rw [hm] at hm'
      cases hm'
    | fresh _ hp => exact hp.seeded hi hg
  obtain ⟨h₁, h', bytes, s, as, hgc, hstore, ⟨-, -, hout⟩, hsweep, hview⟩ :=
    garbageCollect_seeded hs hi hseeded hrefs
  exact ⟨h₁, h', bytes, hgc, hstore, hout, hsweep, hview⟩

end GcHeap

end GcLite
