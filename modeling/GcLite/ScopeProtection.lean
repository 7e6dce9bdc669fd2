import GcLite.ScopeInvariant

/-!
# What scopes protect

The invariant of the `LOCAL` flags speaks of all caches together. Here it is read scope by scope: a
live node with the flag is in the cache of one scope, promoting it takes it from there to the
target, and dropping a scope unprotects what is in its cache and leaves every other cache alone. So
a node promoted out of a scope outlives it.

## Main definitions

* `GcHeap.cacheAt` — the nodes in the cache of one scope
* `GcHeap.HeldBy` — one scope has the node, and no other

## Main results

* `GcHeap.ScopeInv.isLocal_iff` — a live node has the flag if and only if some scope holds it
* `GcHeap.cacheAt_popScope` — dropping a scope changes no other scope's cache
* `GcHeap.ScopeInv.heldBy_promoteNodeTo` — a promoted node is the target's alone
* `GcHeap.ScopeInv.heldBy_popScope` — and stays so when another scope is dropped
* `scopes_protect` — in every run without teardown, scopes protect exactly what is in them
-/

namespace GcLite

open Transition

/-- Where the entries of a list have no elements in common, an element tells the entry. -/
theorem eq_of_mem_flatMap {α β : Type*} {g : β → List α} {L : List β} (hnd : (L.flatMap g).Nodup)
    {i j : ℕ} {b c : β} {a : α} (hi : L[i]? = some b) (hj : L[j]? = some c) (hb : a ∈ g b)
    (hc : a ∈ g c) : i = j := by
  have hdisj := List.pairwise_iff_getElem.mp (List.nodup_flatMap.mp hnd).2
  obtain ⟨hilt, rfl⟩ := List.getElem?_eq_some_iff.mp hi
  obtain ⟨hjlt, rfl⟩ := List.getElem?_eq_some_iff.mp hj
  rcases Nat.lt_trichotomy i j with hlt | heq | hlt
  · exact absurd hc (hdisj i j hilt hjlt hlt hb)
  · exact heq
  · exact absurd hb (hdisj j i hjlt hilt hlt hc)

namespace GcScopeState

variable {s : GcScopeState} {n : NodePtr}

theorem position_of_mem (hn : n ∈ s.cache.getD []) :
    s.position n = some ((s.cache.getD []).idxOf n) := by
  cases hc : s.cache with
  | none => simp [hc] at hn
  | some cache =>
    have hmem : n ∈ cache := by simpa [hc] using hn
    simp [position, hc, hmem]

theorem position_of_not_mem (hn : n ∉ s.cache.getD []) : s.position n = none := by
  cases hc : s.cache with
  | none => simp [position, hc]
  | some cache =>
    have hmem : n ∉ cache := by simpa [hc] using hn
    simp [position, hc, hmem]

theorem cache_swapRemove (s : GcScopeState) (pos : ℕ) :
    (s.swapRemove pos).cache.getD [] = GcLite.swapRemove (s.cache.getD []) pos := by
  cases hc : s.cache with
  | none => simp [swapRemove, hc, GcLite.swapRemove]
  | some cache => simp [swapRemove, hc]

end GcScopeState

namespace GcHeap

variable {h h' : GcHeap} {i j k idx : ℕ} {n m : NodePtr} {s : GcScopeState}

/-! ### The cache of one scope -/

/-- The nodes in the cache of a scope; none when there is no such scope. -/
def cacheAt (h : GcHeap) (k idx : ℕ) : List NodePtr :=
  (h.scopeAt k idx).elim [] fun s => s.cache.getD []

/-- The scope has the node in its cache, once, and no other scope has it. -/
structure HeldBy (h : GcHeap) (n : NodePtr) (k idx : ℕ) : Prop where
  /-- It is in this cache once. -/
  once : (h.cacheAt k idx).count n = 1
  /-- It is in no other cache. -/
  nowhere_else : ∀ i j, (i, j) ≠ (k, idx) → n ∉ h.cacheAt i j

theorem cacheAt_eq (hs : h.scopeAt k idx = some s) : h.cacheAt k idx = s.cache.getD [] := by
  rw [cacheAt, hs, Option.elim_some]

theorem exists_of_mem_cacheAt (hn : n ∈ h.cacheAt k idx) :
    ∃ s, h.scopeAt k idx = some s ∧ n ∈ s.cache.getD [] := by
  cases hs : h.scopeAt k idx with
  | none => simp [cacheAt, hs] at hn
  | some s => exact ⟨s, rfl, cacheAt_eq hs ▸ hn⟩

theorem mem_cached : n ∈ h.cached ↔ ∃ k idx, n ∈ h.cacheAt k idx := by
  constructor
  · intro hn
    obtain ⟨st, hst, hn⟩ := List.mem_flatMap.mp hn
    obtain ⟨s, hs, hn⟩ := List.mem_flatMap.mp hn
    obtain ⟨k, hk⟩ := List.mem_iff_getElem?.mp hst
    obtain ⟨idx, hidx⟩ := List.mem_iff_getElem?.mp hs
    have hat : h.scopeAt k idx = some s := by
      rw [scopeAt, stack, List.getD_eq_getElem?_getD, hk, Option.getD_some, hidx]
    exact ⟨k, idx, (cacheAt_eq hat).symm ▸ hn⟩
  · rintro ⟨k, idx, hn⟩
    obtain ⟨s, hs, hn⟩ := exists_of_mem_cacheAt hn
    obtain ⟨hst, hidx⟩ := scopeAt_stack hs
    exact List.mem_flatMap.mpr ⟨_, List.mem_of_getElem? hst,
      List.mem_flatMap.mpr ⟨s, List.mem_of_getElem? hidx, hn⟩⟩

/-- A node that is cached once is held by the scope that has it. -/
theorem heldBy_of_mem (hnd : h.cached.Nodup) (hn : n ∈ h.cacheAt k idx) : h.HeldBy n k idx := by
  obtain ⟨s, hs, hmem⟩ := exists_of_mem_cacheAt hn
  obtain ⟨hst, hidx⟩ := scopeAt_stack hs
  have hin : n ∈ ScopeStack.cached (h.stack k) :=
    List.mem_flatMap.mpr ⟨s, List.mem_of_getElem? hidx, hmem⟩
  have hstack : (ScopeStack.cached (h.stack k)).Nodup :=
    (List.nodup_flatMap.mp hnd).1 _ (List.mem_of_getElem? hst)
  constructor
  · rw [cacheAt_eq hs]
    exact List.count_eq_one_of_mem
      ((List.nodup_flatMap.mp hstack).1 s (List.mem_of_getElem? hidx)) hmem
  · intro i j hne hn'
    obtain ⟨s', hs', hmem'⟩ := exists_of_mem_cacheAt hn'
    obtain ⟨hst', hidx'⟩ := scopeAt_stack hs'
    have hin' : n ∈ ScopeStack.cached (h.stack i) :=
      List.mem_flatMap.mpr ⟨s', List.mem_of_getElem? hidx', hmem'⟩
    obtain rfl := eq_of_mem_flatMap hnd hst' hst hin' hin
    obtain rfl := eq_of_mem_flatMap hstack hidx' hidx hmem' hmem
    exact hne rfl

theorem HeldBy.mem (hheld : h.HeldBy n k idx) : n ∈ h.cacheAt k idx := by
  refine List.count_pos_iff.mp ?_
  rw [hheld.once]
  exact Nat.one_pos

/-- **A live node has the flag if and only if some scope holds it.** -/
theorem ScopeInv.isLocal_iff (hinv : h.ScopeInv) (hn : h.Live n) :
    (h.head n).isLocal = true ↔ ∃ k idx, h.HeldBy n k idx := by
  refine (hinv.flag_iff n hn).trans (mem_cached.trans ⟨?_, ?_⟩)
  · rintro ⟨k, idx, hmem⟩
    exact ⟨k, idx, heldBy_of_mem hinv.nodup hmem⟩
  · rintro ⟨k, idx, hheld⟩
    exact ⟨k, idx, hheld.mem⟩

/-! ### Changing one cache -/

theorem scopeAt_modifyScope {f : GcScopeState → GcScopeState} :
    (h.modifyScope k idx f).scopeAt i j =
      if (i, j) = (k, idx) then (h.scopeAt i j).map f else h.scopeAt i j := by
  simp only [scopeAt, stack, modifyScope, modifyStack, List.getD_eq_getElem?_getD,
    List.getElem?_modify, Prod.mk.injEq]
  cases h.scopeStacks[i]? with
  | none => simp [default, instInhabitedScopeStack.default]
  | some st =>
    by_cases hi : i = k
    · subst hi
      by_cases hj : j = idx
      · simp [hj]
      · simp [hj, Ne.symm hj]
    · simp [hi, Ne.symm hi]

/-- A change of one scope that is a change of its cache. -/
theorem cacheAt_modifyScope {f : GcScopeState → GcScopeState} (φ : List NodePtr → List NodePtr)
    (hf : ∀ s, (f s).cache.getD [] = φ (s.cache.getD [])) (hs : (h.scopeAt k idx).isSome) :
    (h.modifyScope k idx f).cacheAt i j =
      if (i, j) = (k, idx) then φ (h.cacheAt i j) else h.cacheAt i j := by
  rw [cacheAt, scopeAt_modifyScope]
  by_cases heq : (i, j) = (k, idx)
  · obtain ⟨rfl, rfl⟩ := Prod.mk.inj heq
    obtain ⟨s, hs⟩ := Option.isSome_iff_exists.mp hs
    rw [if_pos heq, if_pos heq, cacheAt_eq hs, hs, Option.map_some, Option.elim_some, hf]
  · rw [if_neg heq, if_neg heq, cacheAt]

/-- What is left of the stacks when the last scope of one is dropped. -/
theorem stack_popScope (hs : (h.stack k).list.getLast? = some s) :
    (h.popScope k).stack i =
      if i = k then { h.stack k with list := (h.stack k).list.dropLast } else h.stack i := by
  obtain ⟨init, hinit⟩ := List.getLast?_eq_some_iff.mp hs
  have hst : h.scopeStacks[k]? = some (h.stack k) := by
    by_cases hk : k < h.scopeStacks.length
    · simp [stack, hk]
    · simp [stack, hk, default, instInhabitedScopeStack.default] at hinit
  have hscopes : (h.popScope k).scopeStacks = h.scopeStacks.modify k fun st =>
      { st with list := (st.list.modify ((h.stack k).list.length - 1) fun s =>
        { s with cache := none }).dropLast } := by
    simp only [popScope, hs, clear, modifyStack, scopeStacks_foldl_clearLocalFlag, modifyScope,
      List.modify_modify_eq]
    rfl
  rw [stack, hscopes, List.getD_eq_getElem?_getD, List.getElem?_modify]
  by_cases hik : i = k
  · subst hik
    have hdrop := dropLast_modify_length init s fun s => { s with cache := none }
    rw [if_pos rfl, hst, hinit, List.length_append, List.length_singleton, Nat.add_sub_cancel]
    simp [hinit, hdrop]
  · simp [hik, Ne.symm hik, stack]

/-- Dropping the last scope of a stack changes no other scope. -/
theorem scopeAt_popScope (hne : (i, j) ≠ (k, (h.stack k).list.length - 1)) :
    (h.popScope k).scopeAt i j = h.scopeAt i j := by
  cases hs : (h.stack k).list.getLast? with
  | none => simp [popScope, hs]
  | some s =>
    rw [scopeAt, stack_popScope hs, scopeAt]
    split
    · next hik =>
      subst hik
      rw [List.getElem?_dropLast]
      split
      · rfl
      · next hj =>
        have hj' : j ≠ (h.stack i).list.length - 1 := fun heq => hne (by rw [heq])
        rw [List.getElem?_eq_none (by omega)]
    · rfl

theorem cacheAt_popScope (hne : (i, j) ≠ (k, (h.stack k).list.length - 1)) :
    (h.popScope k).cacheAt i j = h.cacheAt i j := by
  rw [cacheAt, scopeAt_popScope hne, cacheAt]

/-! ### Promotion -/

variable {targetStack targetIndex : ℕ}

/-- A promotion takes the node out of the one cache and puts it last in the other. -/
theorem cacheAt_promoteNodeTo (hs : h.scopeAt k idx = some s)
    (ht : (h.scopeAt targetStack targetIndex).isSome) (hn : n ∈ s.cache.getD []) :
    (h.promoteNodeTo k idx s n targetStack targetIndex).cacheAt i j =
      (if (i, j) = (k, idx) then swapRemove (h.cacheAt i j) ((s.cache.getD []).idxOf n)
        else h.cacheAt i j) ++ if (i, j) = (targetStack, targetIndex) then [n] else [] := by
  have hs' : (h.scopeAt k idx).isSome := Option.isSome_iff_exists.mpr ⟨s, hs⟩
  rw [promoteNodeTo, GcScopeState.position_of_mem hn]
  dsimp only
  rw [cacheAt_modifyScope (· ++ [n]) (fun _ => rfl) (isSome_scopeAt_modifyScope.trans ht),
    cacheAt_modifyScope (swapRemove · _) (fun s => s.cache_swapRemove _) hs']
  split <;> simp

/-- A node that the scope does not have is not moved. -/
theorem promoteNodeTo_of_not_mem (hn : n ∉ s.cache.getD []) :
    h.promoteNodeTo k idx s n targetStack targetIndex = h := by
  rw [promoteNodeTo, GcScopeState.position_of_not_mem hn]

/-- The other nodes stay where they are. -/
theorem mem_cacheAt_promoteNodeTo (hs : h.scopeAt k idx = some s)
    (ht : (h.scopeAt targetStack targetIndex).isSome) (hn : n ∈ s.cache.getD []) (hm : m ≠ n) :
    m ∈ (h.promoteNodeTo k idx s n targetStack targetIndex).cacheAt i j ↔ m ∈ h.cacheAt i j := by
  have hlast : m ∉ if (i, j) = (targetStack, targetIndex) then [n] else [] := by
    split <;> simp [hm]
  rw [cacheAt_promoteNodeTo hs ht hn, List.mem_append, or_iff_left hlast]
  split
  · next heq =>
    obtain ⟨rfl, rfl⟩ := Prod.mk.inj heq
    have hswap := (swapRemove_perm hn).mem_iff (a := m)
    rw [cacheAt_eq hs, ← hswap, List.mem_cons, or_iff_right hm]
  · rfl

theorem isLocal_promoteNodeTo :
    ((h.promoteNodeTo k idx s n targetStack targetIndex).head m).isLocal =
      (h.head m).isLocal := by
  unfold promoteNodeTo
  split <;> rfl

namespace ScopeInv

/-- **A promoted node is the target's alone.** -/
theorem heldBy_promoteNodeTo (hinv : h.ScopeInv) (hs : h.scopeAt k idx = some s)
    (ht : (h.scopeAt targetStack targetIndex).isSome) (hn : n ∈ s.cache.getD []) :
    (h.promoteNodeTo k idx s n targetStack targetIndex).HeldBy n targetStack targetIndex := by
  refine heldBy_of_mem (hinv.promoteNodeTo hs ht).nodup ?_
  rw [cacheAt_promoteNodeTo hs ht hn, if_pos rfl]
  exact List.mem_append_right _ (List.mem_singleton_self n)

/-- **What another scope holds survives the drop of a scope.** -/
theorem heldBy_popScope (hinv : h.ScopeInv) (hheld : h.HeldBy n i j)
    (hne : (i, j) ≠ (k, (h.stack k).list.length - 1)) :
    (h.popScope k).HeldBy n i j ∧ ((h.popScope k).head n).isLocal = true := by
  have hmem : n ∈ (h.popScope k).cacheAt i j := by
    rw [cacheAt_popScope hne]
    exact hheld.mem
  have hpopped : (h.popScope k).ScopeInv := hinv.popScope
  exact ⟨heldBy_of_mem hpopped.nodup hmem, hpopped.flag_of_mem (mem_cached.mpr ⟨i, j, hmem⟩)⟩

end ScopeInv

/-! ### Protecting several nodes -/

/-- The current scope is still current when it has protected a node, in the same partition. -/
theorem getLast?_addNonLocal {t : GcScopeState} (hs : (h.stack k).list.getLast? = some s)
    (hidx : idx = (h.stack k).list.length - 1) :
    ∃ s', ((h.addNonLocal k idx t n).stack k).list.getLast? = some s' ∧
      s'.partitionId = s.partitionId ∧
      ((h.addNonLocal k idx t n).stack k).list.length = (h.stack k).list.length := by
  unfold addNonLocal
  split
  · exact ⟨s, hs, rfl, rfl⟩
  · have hat : h.scopeAt k idx = some s := by
      rw [scopeAt, hidx, ← hs, List.getLast?_eq_getElem?]
    obtain ⟨hst, hget⟩ := scopeAt_stack hat
    have hlist : ((h.addNode k idx t n).stack k).list =
        (h.stack k).list.modify idx fun s => s.push n := by
      rw [stack, scopeStacks_addNode, List.getD_eq_getElem?_getD]
      simp [modifyScope, modifyStack, hst]
    refine ⟨s.push n, ?_, rfl, by rw [hlist, List.length_modify]⟩
    rw [hlist, List.getLast?_eq_getElem?, List.length_modify, ← hidx, List.getElem?_modify_eq, hget]
    rfl

/-- It only matters in which partition the scope allocates. -/
theorem addNonLocal_congr {t : GcScopeState} (hst : s.partitionId = t.partitionId) :
    h.addNonLocal k idx s n = h.addNonLocal k idx t n := by
  simp only [addNonLocal, addNode, hst]

/-- Protecting several nodes is protecting one after the other. -/
theorem protectNodes_eq (h : GcHeap) (k : ℕ) (nodes : List NodePtr) :
    h.protectNodes k nodes = nodes.foldl (fun h n => h.protectNode k n) h := by
  cases hs : (h.stack k).list.getLast? with
  | none =>
    have hnone : ∀ n, h.protectNode k n = h := fun n => by simp [protectNode, hs]
    rw [protectNodes, hs]
    induction nodes with
    | nil => rfl
    | cons n nodes ih => rw [List.foldl_cons, hnone]; exact ih
  | some s =>
    rw [protectNodes, hs]
    have hfold : ∀ (nodes : List NodePtr) (g : GcHeap) (s' : GcScopeState),
        (g.stack k).list.getLast? = some s' → s'.partitionId = s.partitionId →
        (g.stack k).list.length = (h.stack k).list.length →
        nodes.foldl (fun g n => g.addNonLocal k ((h.stack k).list.length - 1) s n) g =
          nodes.foldl (fun h n => h.protectNode k n) g := by
      intro nodes
      induction nodes with
      | nil => exact fun _ _ _ _ _ => rfl
      | cons n nodes ih =>
        intro g s' hs' hpid hlen
        have hone : g.protectNode k n = g.addNonLocal k ((h.stack k).list.length - 1) s n := by
          rw [protectNode, hs', ← hlen]
          exact addNonLocal_congr hpid
        obtain ⟨s'', hs'', hpid', hlen'⟩ := getLast?_addNonLocal (n := n) (t := s) hs'
          (congrArg (· - 1) hlen.symm)
        rw [List.foldl_cons, List.foldl_cons, hone]
        exact ih _ s'' hs'' (hpid'.trans hpid) (hlen'.trans hlen)
    exact hfold nodes h s hs rfl rfl

/-- So it is a run. -/
theorem reachableWith_protectNodes {C : GcHeap → Op → Prop} (hC : ∀ g n, C g (.protectNode k n))
    (nodes : List NodePtr) (hr : ReachableWith C h) (hlive : ∀ n ∈ nodes, h.Live n) :
    ReachableWith C (h.protectNodes k nodes) := by
  rw [protectNodes_eq]
  induction nodes generalizing h with
  | nil => exact hr
  | cons n nodes ih =>
    obtain ⟨registry, hr⟩ := hr
    obtain ⟨hn, hnodes⟩ := List.forall_mem_cons.mp hlive
    have hst : StepWith C h (.protectNode k n) (h.protectNode k n) := ⟨⟨hn, rfl⟩, hC h n⟩
    refine ih ⟨registry, hr.tail hst⟩ fun m hm => ?_
    exact (live_of_store store_protectNode).mpr (hnodes m hm)

/-! ### Runs -/

/-- What promoting a node from one scope to another does. -/
structure Promoted (h h' : GcHeap) (n : NodePtr) (k idx targetStack targetIndex : ℕ) : Prop where
  /-- The target has the node, once, and no other scope has it. -/
  held : h'.HeldBy n targetStack targetIndex
  /-- The scope it came from has it no more, unless that is the target. -/
  left : (k, idx) ≠ (targetStack, targetIndex) → n ∉ h'.cacheAt k idx
  /-- The other nodes are where they were. -/
  others : ∀ m, m ≠ n → ∀ i j, m ∈ h'.cacheAt i j ↔ m ∈ h.cacheAt i j
  /-- All flags are as they were. -/
  flags : ∀ m, (h'.head m).isLocal = (h.head m).isLocal
  /-- The node stays with the target, and flagged, when the current scope of any stack is dropped
  and that is not the target. -/
  survives : ∀ i, (targetStack, targetIndex) ≠ (i, (h'.stack i).list.length - 1) →
    (h'.popScope i).HeldBy n targetStack targetIndex ∧ ((h'.popScope i).head n).isLocal = true

theorem ScopeInv.promoted (hinv : h.ScopeInv) (hs : h.scopeAt k idx = some s)
    (ht : (h.scopeAt targetStack targetIndex).isSome) (hn : n ∈ s.cache.getD []) :
    Promoted h (h.promoteNodeTo k idx s n targetStack targetIndex) n k idx targetStack
      targetIndex := by
  have hheld := hinv.heldBy_promoteNodeTo hs ht hn
  exact {
    held := hheld
    left := hheld.nowhere_else k idx
    others := fun _ hm _ _ => mem_cacheAt_promoteNodeTo hs ht hn hm
    flags := fun _ => isLocal_promoteNodeTo
    survives := fun _ hne => (hinv.promoteNodeTo hs ht).heldBy_popScope hheld hne }

end GcHeap

open GcHeap in
/-- **Scopes protect exactly what is in them.** In every run without teardown, a live node has the
`LOCAL` flag if and only if it is once in one cache of a scope, and the caches hold live nodes only.
So a collection frees no cached node, and dropping a scope unprotects exactly the nodes in its
cache, and none that is in another. Promoting a node that the scope has makes it the target's alone,
so that it outlives the scope it came from; promoting any other node does nothing. Protecting
several nodes at once is such a run, too. -/
theorem scopes_protect {h : GcHeap} (hr : ReachableWith KeepsPartitions h) :
    (∀ n, h.Live n → ((h.head n).isLocal = true ↔ h.cached.count n = 1)) ∧
    (∀ n, h.Live n → ((h.head n).isLocal = true ↔ ∃ k idx, h.HeldBy n k idx)) ∧
    (h.cached.Nodup ∧ ∀ n ∈ h.cached, h.Live n) ∧
    (∀ i h' bytes, h.garbageCollect i = some (h', bytes) → ∀ n ∈ h.cached, h'.Live n) ∧
    (∀ k s, (h.stack k).list.getLast? = some s →
      (∀ n, ((h.popScope k).head n).isLocal =
        ((h.head n).isLocal && !decide (n ∈ s.cache.getD []))) ∧
      (∀ n ∈ (h.popScope k).cached,
        n ∉ s.cache.getD [] ∧ ((h.popScope k).head n).isLocal = true) ∧
      ∀ i j, (i, j) ≠ (k, (h.stack k).list.length - 1) →
        (h.popScope k).cacheAt i j = h.cacheAt i j) ∧
    (∀ k idx s n targetStack targetIndex, h.scopeAt k idx = some s →
      (h.scopeAt targetStack targetIndex).isSome →
      (n ∈ s.cache.getD [] → Promoted h (h.promoteNodeTo k idx s n targetStack targetIndex) n k idx
        targetStack targetIndex) ∧
      (n ∉ s.cache.getD [] → h.promoteNodeTo k idx s n targetStack targetIndex = h)) ∧
    ∀ k nodes, (∀ n ∈ nodes, h.Live n) →
      ReachableWith KeepsPartitions (h.protectNodes k nodes) := by
  have hinv := scopeInv_of_reachable hr
  refine ⟨fun n hn => Mirrors.count hinv hn, fun n hn => hinv.isLocal_iff hn,
    ⟨Mirrors.nodup hinv, Mirrors.exists_of_mem hinv⟩, fun i h' bytes hgc n hn => ?_,
    fun k s hs => ⟨fun n => isLocal_popScope hs, fun n hn => ?_, fun i j => cacheAt_popScope⟩,
    fun k idx s n targetStack targetIndex hs ht => ⟨hinv.promoted hs ht, promoteNodeTo_of_not_mem⟩,
    fun k nodes hlive => reachableWith_protectNodes (fun _ _ => rfl) nodes hr hlive⟩
  · have hkept : h'.ScopeInv ∧ h'.cached = h.cached := hinv.garbageCollect hgc
    exact hkept.1.exists_of_mem n (hkept.2 ▸ hn)
  · have hpop : h.cached.Perm (s.cache.getD [] ++ (h.popScope k).cached) := cached_popScope hs
    have hnd := List.nodup_append.mp (hpop.nodup_iff.mp hinv.nodup)
    have hpopped : Mirrors _ (fun n => ((h.popScope k).head n).isLocal) _ := hinv.popScope (k := k)
    exact ⟨fun hmem => hnd.2.2 n hmem n hn rfl, hpopped.flag_of_mem hn⟩

/-- A node of an inner scope. Were the inner scope dropped now, a collection would free it. -/
private theorem exists_inner : ∃ h : GcHeap, ReachableWith KeepsPartitions h ∧
    h.Live 2000 ∧ h.scopeAt 0 0 = some ⟨0, some [1000]⟩ ∧ h.scopeAt 0 1 = some ⟨0, some [2000]⟩ ∧
    ((h.promoteNodeTo 0 1 ⟨0, some [2000]⟩ 2000 0 0).stack 0).list.length = 2 ∧
    (((h.promoteNodeTo 0 1 ⟨0, some [2000]⟩ 2000 0 0).popScope 0).garbageCollect 0).isSome ∧
    ((h.popScope 0).garbageCollect 0).any fun r => ¬ r.1.Live 2000 :=
  exists_of_play (gcTypeTableInternal 24 8 [⟨8, 8, true, none⟩])
    [.createPartition 0 0 none, .acquireScopeStack 0, .newScope 0, .allocLocal 0 0 0 [] (some 1000),
      .newScope 0, .allocLocal 0 1 0 [] (some 2000)]
    (by decide +kernel)

/-- It is promoted to the outer scope, the inner one is dropped, and a collection keeps it; without
the promotion it is freed. -/
theorem scopes_protect_promoted : ∃ (h : GcHeap) (s : GcScopeState) (h₁ h₂ : GcHeap)
    (bytes₁ bytes₂ : ℕ), h.scopeAt 0 1 = some s ∧ 2000 ∈ s.cache.getD [] ∧
    ((h.promoteNodeTo 0 1 s 2000 0 0).popScope 0).HeldBy 2000 0 0 ∧
    ((h.promoteNodeTo 0 1 s 2000 0 0).popScope 0).garbageCollect 0 = some (h₁, bytes₁) ∧
    h₁.Live 2000 ∧ (h.popScope 0).garbageCollect 0 = some (h₂, bytes₂) ∧ ¬ h₂.Live 2000 := by
  obtain ⟨h, hr, hlive, houter, hinner, hlen, hgc, hfreed⟩ := exists_inner
  obtain ⟨⟨h₁, bytes₁⟩, hgc⟩ := Option.isSome_iff_exists.mp hgc
  obtain ⟨⟨h₂, bytes₂⟩, hgc₂, hdead⟩ := Option.any_eq_true _ _ |>.mp hfreed
  have htarget : (h.scopeAt 0 0).isSome := Option.isSome_iff_exists.mpr ⟨_, houter⟩
  have hmem : 2000 ∈ (some [2000] : Option (List NodePtr)).getD [] := List.mem_singleton_self _
  obtain ⟨-, -, -, -, -, hpromote, -⟩ := scopes_protect hr
  have hpromoted := (hpromote 0 1 _ 2000 0 0 hinner htarget).1 hmem
  have hmove : StepWith KeepsPartitions h (.promoteNodeTo 0 1 2000 0 0)
      (h.promoteNodeTo 0 1 ⟨0, some [2000]⟩ 2000 0 0) :=
    ⟨⟨⟨hlive, htarget⟩, by rw [exec, hinner]; rfl⟩, rfl⟩
  have hdrop : ∀ g, StepWith KeepsPartitions g (.popScope 0) (g.popScope 0) :=
    fun g => ⟨⟨trivial, rfl⟩, rfl⟩
  have hpopped : ReachableWith KeepsPartitions
      ((h.promoteNodeTo 0 1 ⟨0, some [2000]⟩ 2000 0 0).popScope 0) := by
    obtain ⟨registry, hr⟩ := hr
    exact ⟨registry, (hr.tail hmove).tail (hdrop _)⟩
  have hother : (0, 0) ≠
      (0, ((h.promoteNodeTo 0 1 ⟨0, some [2000]⟩ 2000 0 0).stack 0).list.length - 1) := by
    rw [hlen]
    decide
  have hheld := (hpromoted.survives 0 hother).1
  obtain ⟨-, -, -, hcollect, -⟩ := scopes_protect hpopped
  have hkept := hcollect 0 h₁ bytes₁ hgc 2000 (GcHeap.mem_cached.mpr ⟨0, 0, hheld.mem⟩)
  exact ⟨h, _, h₁, h₂, bytes₁, bytes₂, hinner, hmem, hheld, hgc, hkept, hgc₂,
    of_decide_eq_true hdead⟩

end GcLite
