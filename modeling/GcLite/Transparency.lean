import GcLite.CycleStart
import GcLite.Library.ObjectGraph

/-!
# Collection is transparent

A program cannot tell that its garbage is collected. Let its objects be numbered in the order in
which they are allocated, and let everything that the program does to them be done once more to the
numbers, in a store from which nothing is ever taken away. Then what the program can reach in the
heap and in the store is the same, reference by reference. Addresses that are used a second time,
the partitions, the marker's progress and the sweeps all drop out.

What the program does is read off the operation alone, together with the address that an allocation
has returned. Marking, resetting, sweeping and collecting do nothing of the kind.

## Main definitions

* `GcHeap.objects` — the objects of a heap, their references, and the protected ones
* `Op.actions` — what an operation does to them on behalf of the program
* `NamedStep` — a step of the heap, with the numbers of its objects

## Main results

* `Step.objects` — an operation does that, and takes away unprotected objects
* `collection_transparent`
-/

namespace GcLite

open Transition ObjectGraph

namespace MarkState

variable {s t : MarkState} {i : ℕ} {n : NodePtr} {payload : Payload}

/-- The objects, as a program sees them. -/
def objects (s : MarkState) : Objects NodePtr where
  live := {n | s.Live n}
  refs := s.refs
  held := s.protectedNodes

/-- The nodes that are gone. -/
def freed (s t : MarkState) : Set NodePtr := {n | s.Live n ∧ ¬ t.Live n}

theorem closed_objects (hs : s.RefsLive) : s.objects.Closed where
  held _ hn := hn.1
  refs := fun n ⟨i, hn⟩ c hc => hs i n hn c hc

/-- Colours, lists and the marking flags are not seen. -/
theorem objects_congr (hchain : t.chain = s.chain) (hrefs : t.refs = s.refs)
    (hprot : t.prot = s.prot) : t.objects = s.objects := by
  simp only [objects, protectedNodes, Live, hchain, hrefs, hprot]

theorem SameGraph.objects (h : SameGraph s t) : t.objects = s.objects :=
  objects_congr h.chain h.refs h.prot

/-- Beginning a cycle. -/
theorem Started.objects (h : Started i s t) : t.objects = s.objects :=
  objects_congr h.chain h.refs h.prot

theorem objects_alloc (hn : ¬ s.Live n) :
    (s.alloc i n payload).objects = s.objects.act (.alloc n payload) := by
  refine Objects.ext (Set.ext fun m => ?_) rfl (Set.ext fun m => ?_)
  · exact live_alloc
  · change (s.alloc i n payload).Live m ∧ Function.update s.prot n false m = true ↔
      s.Live m ∧ s.prot m = true
    rw [live_alloc]
    by_cases hmn : m = n
    · subst hmn
      simp [hn]
    · simp [hmn]

theorem objects_protect (hn : s.Live n) : (s.protect i n).objects = s.objects.act (.hold n) := by
  have hsame : (s.protect i n).chain = s.chain ∧ (s.protect i n).refs = s.refs ∧
      (s.protect i n).prot = Function.update s.prot n true := by
    obtain ⟨-, hchain, -, -, hrefs, -⟩ := shade_same (s := s) (i := i) (n := n)
    rw [protect_eq]
    split
    · exact ⟨hchain, hrefs, rfl⟩
    · exact ⟨rfl, rfl, rfl⟩
  obtain ⟨hchain, hrefs, hprot⟩ := hsame
  have hlive : ∀ m, (s.protect i n).Live m ↔ s.Live m := fun m => by rw [Live, Live, hchain]
  refine Objects.ext (Set.ext hlive) hrefs (Set.ext fun m => ?_)
  change (s.protect i n).Live m ∧ (s.protect i n).prot m = true ↔
    m = n ∨ (s.Live m ∧ s.prot m = true)
  rw [hlive, hprot]
  by_cases hmn : m = n
  · subst hmn
    simp [hn]
  · simp [hmn]

/-- An allocation whose node is protected at once. -/
theorem objects_alloc_protect {j : ℕ} (hn : ¬ s.Live n) :
    ((s.alloc i n payload).protect j n).objects =
      (s.objects.act (.alloc n payload)).act (.hold n) := by
  rw [objects_protect (live_alloc.mpr (.inl rfl)), objects_alloc hn]

/-- What is protected already is held already. -/
theorem objects_hold (hn : s.Live n) (hprot : s.prot n = true) :
    s.objects = s.objects.act (.hold n) :=
  Objects.ext rfl rfl (Set.insert_eq_of_mem (a := n) (s := s.protectedNodes) ⟨hn, hprot⟩).symm

/-- Taking the protection away from the nodes of `S`. -/
theorem Unprotects.objects {S : Set NodePtr} (h : Unprotects s t)
    (hprot : ∀ n, t.prot n = true ↔ s.prot n = true ∧ n ∉ S) :
    t.objects = s.objects.act (.release {n | s.Live n ∧ n ∈ S}) := by
  obtain ⟨prot, rfl, -⟩ := h
  refine Objects.ext rfl rfl (Set.ext fun m => ?_)
  constructor
  · rintro ⟨hm, hp⟩
    obtain ⟨hp, hout⟩ := (hprot m).mp hp
    exact ⟨⟨hm, hp⟩, fun hin => hout hin.2⟩
  · rintro ⟨⟨hm, hp⟩, hout⟩
    exact ⟨hm, (hprot m).mpr ⟨hp, fun hin => hout ⟨hm, hin⟩⟩⟩

/-- An unlinked node was not protected. -/
theorem objects_unlink : (s.unlink i).objects = s.objects.collect (s.freed (s.unlink i)) := by
  have hlive : ∀ {m}, (s.unlink i).Live m → s.Live m := fun ⟨j, hm⟩ =>
    ⟨j, (mem_chain_unlink.mp hm).1⟩
  refine Objects.ext (Set.ext fun m => ?_) rfl (Set.ext fun m => ?_)
  · exact ⟨fun hm => ⟨hlive hm, fun hout => hout.2 hm⟩,
      fun ⟨hm, hout⟩ => by_contra fun hno => hout ⟨hm, hno⟩⟩
  · refine ⟨fun hm => ⟨hlive hm.1, hm.2⟩, fun ⟨⟨j, hm⟩, hprot⟩ => ⟨⟨j, ?_⟩, hprot⟩⟩
    refine mem_chain_unlink.mpr ⟨hm, fun _ => ?_⟩
    simp [garbage, hprot]

/-- The nodes of a partition that is dropped may have been protected. -/
theorem objects_drop (hs : s.Owned) : (s.drop i).objects =
    (s.objects.act (.release {n | n ∈ s.chain i})).collect (s.freed (s.drop i)) := by
  have hlive : ∀ {m}, (s.drop i).Live m → s.Live m := fun ⟨j, hm⟩ =>
    ⟨j, (mem_chain_drop.mp hm).1⟩
  refine Objects.ext (Set.ext fun m => ?_) rfl (Set.ext fun m => ?_)
  · exact ⟨fun hm => ⟨hlive hm, fun hout => hout.2 hm⟩,
      fun ⟨hm, hout⟩ => by_contra fun hno => hout ⟨hm, hno⟩⟩
  · constructor
    · rintro ⟨⟨j, hm⟩, hprot⟩
      obtain ⟨hm, hji⟩ := mem_chain_drop.mp hm
      exact ⟨⟨⟨j, hm⟩, hprot⟩, fun hmi => hji (hs.eq_of_mem hm hmi)⟩
    · rintro ⟨⟨⟨j, hm⟩, hprot⟩, hout⟩
      refine ⟨⟨j, mem_chain_drop.mpr ⟨hm, ?_⟩⟩, hprot⟩
      rintro rfl
      exact hout hm

end MarkState

/-- The objects of a heap, as a program sees them. -/
def GcHeap.objects (h : GcHeap) : Objects NodePtr := h.view.objects

/-- What an allocation does on behalf of the program. -/
def allocActions (r : Except (GcError × Payload) (GcHeap × NodePtr))
    (actions : NodePtr → List (Action NodePtr)) : List (Action NodePtr) :=
  match r with
  | .ok (_, n) => actions n
  | .error _ => []

/-- What an operation does to the objects on behalf of the program. -/
def Op.actions (h : GcHeap) (op : Op) : List (Action NodePtr) :=
  match op with
  | .allocRaw i dtype payload sys =>
      allocActions (h.allocRaw i dtype payload sys) fun n => [.alloc n payload]
  | .allocRootRaw i dtype payload sys =>
      allocActions (h.allocRootRaw i dtype payload sys) fun n => [.alloc n payload, .hold n]
  | .allocLocal stackId index dtype payload sys =>
      match h.scopeAt stackId index with
      | some s => allocActions (h.allocLocal stackId index s dtype payload sys) fun n =>
          [.alloc n payload, .hold n]
      | none => []
  | .addNonLocal _ _ n | .setRootNode n => [.hold n]
  | .protectNode stackId n => if (h.stack stackId).list = [] then [] else [.hold n]
  | .popScope _ | .removeNode _ _ _ | .clear _ _ =>
      [.release {n | h.Live n ∧ n ∈ op.unprotects h}]
  | .bind n _ payload | .withWriteBarrier n payload | .removeRefs n payload => [.write n payload]
  | .removePartition i _ =>
      if i < h.partitions.length then
        [.release {n | h.Live n ∧ n ∈ op.unprotects h}, .release {n | n ∈ (h.par i).nodes}]
      else []
  | _ => []

/-! ### Every operation -/

namespace GcHeap

variable {h h' : GcHeap} {i : ℕ} {n : NodePtr}

theorem objects_addNonLocal {k idx : ℕ} (s : GcScopeState) (hn : h.Live n) :
    (h.addNonLocal k idx s n).objects = h.objects.act (.hold n) := by
  unfold addNonLocal
  split
  · next hprot => exact MarkState.objects_hold hn hprot
  · rw [objects, view_addNode]
    exact MarkState.objects_protect hn

theorem prot_setRootNode_self : (h.setRootNode n).view.prot n = true := by
  unfold setRootNode
  split
  · next hroot => simp [view, GcHead.isRootOrLocal, hroot]
  · dsimp only
    split
    · rw [view_parAddGrayNode, MarkState.shade_same.2.2.2.2.2, view_insertRoot]
      simp
    · rw [view_insertRoot]
      simp

theorem objects_setRootNode (hn : h.Live n) :
    (h.setRootNode n).objects = h.objects.act (.hold n) := by
  rcases view_setRootNode (h := h) (n := n) with hview | hview
  · have hprot : h.view.prot n = true := hview ▸ prot_setRootNode_self
    rw [objects, hview]
    exact MarkState.objects_hold hn hprot
  · rw [objects, hview]
    exact MarkState.objects_protect hn

theorem prot_foldl_clearLocalFlag_iff (l : List NodePtr) :
    (l.foldl clearLocalFlag h).view.prot n = true ↔
      h.view.prot n = true ∧ ¬ ((h.head n).isRoot = false ∧ n ∈ l) := by
  simp only [view, GcHead.isRootOrLocal, isRoot_foldl_clearLocalFlag, isLocal_foldl_clearLocalFlag]
  cases hroot : (h.head n).isRoot <;> simp

/-- Clearing flags lets go of the nodes that are not roots. -/
theorem objects_foldl_clearLocalFlag (l : List NodePtr) : (l.foldl clearLocalFlag h).objects =
    h.objects.act (.release {n | h.Live n ∧ (h.head n).isRoot = false ∧ n ∈ l}) :=
  (unprotects_foldl_clearLocalFlag l h).objects fun _ => prot_foldl_clearLocalFlag_iff l

theorem isRoot_clearScopesOf : ((h.clearScopesOf i).head n).isRoot = (h.head n).isRoot := by
  refine reading_foldl (φ := fun h => (h.head n).isRoot) (fun h k => ?_) _ h
  split
  · exact isRoot_foldl_clearLocalFlag _ _
  · rfl

theorem isLocal_clearStack (k : ℕ) : ((h.clearStack k).head n).isLocal =
    ((h.head n).isLocal && !decide (n ∈ (h.stack k).cached)) :=
  isLocal_foldl_clearLocalFlag _ _

/-- Clearing the scopes of a partition clears the flag of whatever they hold. -/
theorem isLocal_clearScopesOf {st : ScopeStack} (hst : st ∈ h.scopeStacks)
    (hpart : st.partition = some i) (hn : n ∈ st.cached) :
    ((h.clearScopesOf i).head n).isLocal = false := by
  have hfold : ∀ (ks : List ℕ) (h : GcHeap), (h.head n).isLocal = false ∨
        (∃ k ∈ ks, (h.stack k).partition = some i ∧ n ∈ (h.stack k).cached) →
      ((ks.foldl (fun h k => if (h.stack k).partition = some i then h.clearStack k else h)
        h).head n).isLocal = false := by
    intro ks
    induction ks with
    | nil =>
      rintro h (hlocal | ⟨k, hk, -⟩)
      · exact hlocal
      · cases hk
    | cons k ks ih =>
      intro h hn
      rw [List.foldl_cons]
      refine ih _ ?_
      split
      · next hpart =>
        rw [isLocal_clearStack]
        rcases hn with hlocal | ⟨k', hk', hpart', hmem⟩
        · exact .inl (by simp [hlocal])
        · by_cases hkk : k' = k
          · exact .inl (by simp [← hkk, hmem])
          · refine .inr ⟨k', (List.mem_cons.mp hk').resolve_left hkk, ?_⟩
            rw [stack_clearStack, if_neg hkk]
            exact ⟨hpart', hmem⟩
      · next hpart =>
        refine hn.imp_right fun ⟨k', hk', hpart', hmem⟩ => ⟨k', ?_, hpart', hmem⟩
        refine (List.mem_cons.mp hk').resolve_left ?_
        rintro rfl
        exact hpart hpart'
  obtain ⟨k, hk, rfl⟩ := List.getElem_of_mem hst
  have hget : h.stack k = h.scopeStacks[k] := by simp [stack, hk]
  exact hfold _ h (.inr ⟨k, List.mem_range.mpr hk, hget ▸ hpart, hget ▸ hn⟩)

theorem objects_clearScopesOf (sys : Option ℕ) : (h.clearScopesOf i).objects =
    h.objects.act (.release {n | h.Live n ∧ n ∈ (Op.removePartition i sys).unprotects h}) := by
  refine unprotects_clearScopesOf.objects fun n => ⟨fun hn => ?_, fun ⟨hn, hout⟩ => ?_⟩
  · obtain ⟨prot, heq, hsub⟩ := unprotects_clearScopesOf (h := h) (i := i)
    refine ⟨hsub n (by rwa [heq] at hn), fun ⟨hroot, hin⟩ => ?_⟩
    obtain ⟨st, hst, hmem⟩ := List.mem_flatMap.mp hin
    obtain ⟨hst, hpart⟩ := List.mem_filter.mp hst
    have hlocal := isLocal_clearScopesOf hst (of_decide_eq_true hpart) hmem
    simp [view, GcHead.isRootOrLocal, isRoot_clearScopesOf, hroot, hlocal] at hn
  · refine prot_clearScopesOf hn ?_
    by_cases hroot : (h.head n).isRoot = true
    · exact .inl hroot
    · refine .inr fun st hst hpart hmem => hout ⟨by simpa using hroot, ?_⟩
      exact List.mem_flatMap.mpr ⟨st, List.mem_filter.mpr ⟨hst, decide_eq_true hpart⟩, hmem⟩

/-- **Teardown** lets go of what the scopes hold, and of the whole partition. -/
theorem objects_removePartition {sys : Option ℕ} {bytes : ℕ} (hs : h.view.Owned)
    (hok : h.removePartition false i sys = some (h', bytes)) :
    h'.objects = (((Op.removePartition i sys).actions h).foldl Objects.act h.objects).collect
      (h.view.freed h'.view) := by
  unfold removePartition at hok
  cases hfin : h.finalizePartition i with
  | none =>
    rw [hfin] at hok
    obtain rfl := (Prod.mk.inj (Option.some.inj hok)).1
    have hi : ¬ i < h.partitions.length := by
      intro hi
      simp [finalizePartition, finalizePartitionPrepare, Nat.not_le.mpr hi] at hfin
    simp [Op.actions, hi, MarkState.freed]
  | some r =>
    obtain ⟨h₁, link⟩ := r
    rw [hfin] at hok
    obtain ⟨⟨h₂, link₂⟩, hprep, heq⟩ := Option.map_eq_some_iff.mp hfin
    obtain ⟨rfl, -⟩ := Prod.mk.inj heq
    obtain ⟨hi, -, rfl⟩ := finalizePartitionPrepare_ok hprep
    have hview := view_deallocPartition hok
    obtain ⟨prot, hclear, -⟩ := unprotects_clearScopesOf (h := h) (i := i)
    have howned : (h.clearScopesOf i).view.Owned := by
      rw [hclear]
      exact ⟨hs.range, hs.own⟩
    have hchain : (h.clearScopesOf i).view.chain = h.view.chain := by rw [hclear]
    have hlive : (h.clearScopesOf i).view.Live = h.view.Live := by
      funext n
      rw [MarkState.Live, MarkState.Live, hchain]
    have hdrop := MarkState.objects_drop (i := i) howned
    rw [objects, hview]
    refine hdrop.trans ?_
    rw [MarkState.freed, MarkState.freed, hlive, hchain]
    change ((h.clearScopesOf i).objects.act _).collect _ = _
    rw [objects_clearScopesOf sys, Op.actions, if_pos hi]
    rfl

end GcHeap

section

open GcHeap MarkState

variable {h h' : GcHeap} {op : Op} {t t' : Naming NodePtr}

/-- An operation that takes nothing away. -/
theorem objects_collect_of_subset {g : GcHeap} (as : List (Action NodePtr))
    (hg : g.objects = as.foldl Objects.act h.objects) (hlive : h.objects.live ⊆ g.objects.live) :
    g.objects = (as.foldl Objects.act h.objects).collect (h.view.freed g.view) := by
  have hnone : h.view.freed g.view = ∅ :=
    Set.eq_empty_of_forall_notMem fun n hn => hn.2 (hlive hn.1)
  rw [hnone, Objects.collect_empty, hg]

/-- One that does nothing to them at all. -/
theorem objects_collect_of_eq {g : GcHeap} (hg : g.objects = h.objects) :
    g.objects = h.objects.collect (h.view.freed g.view) :=
  objects_collect_of_subset [] hg (hg ▸ subset_rfl)

theorem objects_collect_of_view {g : GcHeap} (hg : g.view = h.view) :
    g.objects = h.objects.collect (h.view.freed g.view) :=
  objects_collect_of_eq (congrArg MarkState.objects hg)

section Alloc

variable {i dtype : ℕ} {payload : Payload} {sys : Option NodePtr} {n : NodePtr}

theorem objects_allocRaw (hmem : h.MemInv) (hpre : Op.Pre h (.allocRaw i dtype payload sys))
    (hok : h.allocRaw i dtype payload sys = .ok (h', n)) :
    h'.objects = h.objects.act (.alloc n payload) := by
  obtain ⟨_, _, hraw, -⟩ := allocRaw_ok hok
  rw [GcHeap.objects, (view_allocRaw hok).2]
  exact objects_alloc (hmem.allocNodeMem hpre.2.1 hpre.2.2.2 hraw).1

theorem objects_allocRootRaw (hmem : h.MemInv)
    (hpre : Op.Pre h (.allocRootRaw i dtype payload sys))
    (hok : h.allocRootRaw i dtype payload sys = .ok (h', n)) :
    h'.objects = (h.objects.act (.alloc n payload)).act (.hold n) := by
  obtain ⟨_, _, _, hraw, -⟩ := allocRootRaw_ok hok
  rw [GcHeap.objects, (view_allocRootRaw hok).2]
  exact objects_alloc_protect (hmem.allocNodeMem hpre.2.1 hpre.2.2.2 hraw).1

theorem objects_allocLocal {stackId index : ℕ} {s : GcScopeState} (hmem : h.MemInv)
    (hpre : Op.Pre h (.allocLocal stackId index dtype payload sys))
    (hok : h.allocLocal stackId index s dtype payload sys = .ok (h', n)) :
    h'.objects = (h.objects.act (.alloc n payload)).act (.hold n) := by
  obtain ⟨_, halloc, -⟩ := allocLocal_ok hok
  obtain ⟨_, _, hraw, -⟩ := allocRaw_ok halloc
  rw [GcHeap.objects, (view_allocLocal hok).2]
  exact objects_alloc_protect (hmem.allocNodeMem hpre.1 hpre.2.2 hraw).1

end Alloc

section Scopes

variable {stackId index : ℕ} {n : NodePtr} {s : GcScopeState}

theorem objects_protectNode (hn : h.Live n) (hne : (h.stack stackId).list ≠ []) :
    (h.protectNode stackId n).objects = h.objects.act (.hold n) := by
  cases hlast : (h.stack stackId).list.getLast? with
  | some s =>
    rw [protectNode, hlast]
    exact objects_addNonLocal s hn
  | none => exact absurd (List.getLast?_eq_none_iff.mp hlast) hne

theorem objects_popScope : (h.popScope stackId).objects = h.objects.act (.release
    {n | h.Live n ∧ n ∈ (Op.popScope stackId).unprotects h}) := by
  unfold popScope
  split
  · next s hs =>
    simp only [Op.unprotects, Op.uncached, hs, Option.elim_some]
    exact objects_foldl_clearLocalFlag (h := h.modifyScope stackId _ _) _
  · next hs => simp [Op.unprotects, Op.uncached, hs, Objects.act]

theorem objects_removeNode (hs : h.scopeAt stackId index = some s) :
    (h.removeNode stackId index s n).objects = h.objects.act (.release
      {m | h.Live m ∧ m ∈ (Op.removeNode stackId index n).unprotects h}) := by
  unfold removeNode
  split
  · next pos hpos =>
    simp only [Op.unprotects, Op.uncached, hs, Option.bind_some, hpos, Option.isSome_some, if_true]
    exact objects_foldl_clearLocalFlag (h := h.modifyScope stackId index _) [n]
  · next hpos => simp [Op.unprotects, Op.uncached, hs, hpos, Objects.act]

theorem objects_clear (hs : h.scopeAt stackId index = some s) :
    (h.clear stackId index s).objects = h.objects.act (.release
      {m | h.Live m ∧ m ∈ (Op.clear stackId index).unprotects h}) := by
  simp only [Op.unprotects, Op.uncached, hs, Option.elim_some]
  exact objects_foldl_clearLocalFlag (h := h.modifyScope stackId index _) _

end Scopes

section Writes

variable {m c : NodePtr} {payload : Payload}

theorem objects_bind :
    ((h.setRefs m payload).bind m c).objects = h.objects.act (.write m payload) := by
  obtain ⟨-, hchain, -, -, hrefs, hprot⟩ :=
    bind_same (s := h.view.setRefs m payload) (m := m) (c := c)
  rw [GcHeap.objects, view_bind, view_setRefs]
  exact objects_congr hchain hrefs hprot

theorem objects_withWriteBarrier :
    (h.withWriteBarrier m fun _ => payload).objects = h.objects.act (.write m payload) := by
  obtain ⟨-, hchain, -, -, hrefs, hprot⟩ := regray_same (s := h.view) (n := m)
  rw [GcHeap.objects, view_withWriteBarrier]
  refine objects_congr (s := h.view.setRefs m payload) hchain ?_ hprot
  simp only [MarkState.setRefs, hrefs]

end Writes

/-- A sweep takes away what it unlinks. -/
theorem objects_twoPhaseSweep {i : ℕ} : (h.twoPhaseSweep i).1.objects =
    h.objects.collect (h.view.freed (h.twoPhaseSweep i).1.view) := by
  by_cases hdone : i < h.view.count ∧ h.view.marking i = true ∧ h.view.gray i = []
  · have hunlink : (h.twoPhaseSweep i).1.view = h.view.unlink i := by
      rw [view_twoPhaseSweep, (view_sweepUnlink hdone.1 hdone.2.1 hdone.2.2).1]
    rw [GcHeap.objects, hunlink]
    exact objects_unlink
  · refine objects_collect_of_view ?_
    rw [view_twoPhaseSweep, sweepUnlink_of_not_done hdone]

theorem objects_garbageCollect {i bytes : ℕ} (hs : h.view.Owned)
    (hgc : h.garbageCollect i = some (h', bytes)) :
    h'.objects = h.objects.collect (h.view.freed h'.view) := by
  rcases garbageCollect_run hs hgc with ⟨-, rfl, -⟩ |
    ⟨hi, h₂, s, as, -, hstart, hr, hdone, hmark, -, hunlink⟩
  · exact objects_collect_of_view rfl
  · have hobjects : h₂.view.objects = h.view.objects :=
      (markRun_sameGraph hr).objects.trans hstart.objects
    have hlive : h₂.view.Live = h.view.Live := congrArg Objects.live hobjects
    change h'.view.objects = h.view.objects.collect _
    rw [MarkState.freed, ← hlive, hunlink, ← hobjects]
    exact objects_unlink

/-- **What an operation does** to the objects is what it does on behalf of the program. Apart from
that, it takes some of them away. -/
theorem Step.objects (hmem : h.MemInv) (hst : Step h op h') :
    h'.objects = ((op.actions h).foldl Objects.act h.objects).collect (h.view.freed h'.view) := by
  have hs := hmem.owned
  obtain ⟨hpre, hexec⟩ := hst
  cases op with
  | createPartition capacity maxAlloc sys =>
    obtain ⟨⟨h₁, id⟩, hok, rfl⟩ := Option.map_eq_some_iff.mp hexec
    refine objects_collect_of_eq ?_
    rw [GcHeap.objects, view_createPartition hok]
    rfl
  | allocRaw i dtype payload sys =>
    cases hexec
    cases hr : h.allocRaw i dtype payload sys with
    | error e => simpa [Op.actions, allocActions, hr, afterAlloc] using objects_collect_of_view rfl
    | ok r =>
      have hobjects := objects_allocRaw hmem hpre hr
      simp only [Op.actions, allocActions, hr]
      exact objects_collect_of_subset _ hobjects (hobjects ▸ Set.subset_insert _ _)
  | allocRootRaw i dtype payload sys =>
    cases hexec
    cases hr : h.allocRootRaw i dtype payload sys with
    | error e => simpa [Op.actions, allocActions, hr, afterAlloc] using objects_collect_of_view rfl
    | ok r =>
      have hobjects := objects_allocRootRaw hmem hpre hr
      simp only [Op.actions, allocActions, hr]
      exact objects_collect_of_subset _ hobjects (hobjects ▸ Set.subset_insert _ _)
  | allocLocal stackId index dtype payload sys =>
    obtain ⟨s, hscope, rfl⟩ := Option.map_eq_some_iff.mp hexec
    cases hr : h.allocLocal stackId index s dtype payload sys with
    | error e =>
      simpa [Op.actions, allocActions, hscope, hr, afterAlloc] using objects_collect_of_view rfl
    | ok r =>
      have hobjects := objects_allocLocal hmem hpre hr
      simp only [Op.actions, allocActions, hscope, hr]
      exact objects_collect_of_subset _ hobjects (hobjects ▸ Set.subset_insert _ _)
  | addNonLocal stackId index n =>
    obtain ⟨s, -, rfl⟩ := Option.map_eq_some_iff.mp hexec
    have hobjects : (h.addNonLocal stackId index s n).objects = h.objects.act (.hold n) :=
      objects_addNonLocal s hpre
    exact objects_collect_of_subset [.hold n] hobjects (hobjects ▸ subset_rfl)
  | protectNode stackId n =>
    cases hexec
    by_cases hnil : (h.stack stackId).list = []
    · simp only [Op.actions, if_pos hnil]
      refine objects_collect_of_eq ?_
      rw [protectNode, hnil, List.getLast?_nil]
    · have hobjects := objects_protectNode hpre hnil
      simp only [Op.actions, if_neg hnil]
      exact objects_collect_of_subset _ hobjects (hobjects ▸ subset_rfl)
  | popScope stackId =>
    cases hexec
    exact objects_collect_of_subset _ objects_popScope (objects_popScope ▸ subset_rfl)
  | removeNode stackId index n =>
    obtain ⟨s, hscope, rfl⟩ := Option.map_eq_some_iff.mp hexec
    have hobjects := objects_removeNode (n := n) hscope
    exact objects_collect_of_subset _ hobjects (hobjects ▸ subset_rfl)
  | clear stackId index =>
    obtain ⟨s, hscope, rfl⟩ := Option.map_eq_some_iff.mp hexec
    exact objects_collect_of_subset _ (objects_clear hscope) (objects_clear hscope ▸ subset_rfl)
  | promoteNodeTo stackId index n targetStack targetIndex =>
    obtain ⟨s, -, rfl⟩ := Option.map_eq_some_iff.mp hexec
    exact objects_collect_of_view (view_promoteNodeTo s _ _)
  | setRootNode n =>
    cases hexec
    have hobjects := objects_setRootNode hpre
    exact objects_collect_of_subset [.hold n] hobjects (hobjects ▸ subset_rfl)
  | bind m c payload =>
    cases hexec
    exact objects_collect_of_subset _ objects_bind (objects_bind ▸ subset_rfl)
  | withWriteBarrier n payload =>
    cases hexec
    exact objects_collect_of_subset _ objects_withWriteBarrier
      (objects_withWriteBarrier ▸ subset_rfl)
  | removeRefs n payload =>
    cases hexec
    exact objects_collect_of_subset [.write n payload] rfl subset_rfl
  | mark i maxSteps =>
    cases hexec
    obtain ⟨s, as, hstart, hr, -⟩ := mark_run hs hpre maxSteps
    exact objects_collect_of_eq ((markRun_sameGraph hr).objects.trans hstart.objects)
  | markReset i =>
    cases hexec
    refine objects_collect_of_eq ?_
    rw [GcHeap.objects, view_markReset hpre]
    rfl
  | sweep i =>
    cases hexec
    exact objects_twoPhaseSweep
  | garbageCollect i =>
    obtain ⟨⟨h₁, bytes⟩, hgc, rfl⟩ := Option.map_eq_some_iff.mp hexec
    exact objects_garbageCollect hs hgc
  | downgrade n =>
    obtain ⟨⟨h₁, w⟩, hok, rfl⟩ := Option.map_eq_some_iff.mp hexec
    exact objects_collect_of_view (view_downgrade hok)
  | removePartition i sys =>
    obtain ⟨⟨h₁, bytes⟩, hok, rfl⟩ := Option.map_eq_some_iff.mp hexec
    exact objects_removePartition hs hok
  | acquireScopeStack | releaseScopeStack | newScope | setMemoryLimit | setGcThreshold =>
    exact objects_collect_of_view (view_of_bookkeeping rfl hexec)

/-- What an operation does on behalf of the program, the program may do. -/
theorem Step.allows_actions (hmem : h.MemInv) (hlive : h.view.RefsLive) (hst : Step h op h') :
    h.objects.AllowsAll (op.actions h) := by
  have hrelease : ∀ {S : Set NodePtr}, h.objects.AllowsAll [.release {n | h.Live n ∧ n ∈ S}] :=
    ⟨fun _ hn => hn.1, trivial⟩
  obtain ⟨hpre, hexec⟩ := hst
  cases op with
  | allocRaw i dtype payload sys =>
    obtain ⟨-, hdtype, hpay, hfresh⟩ := hpre
    simp only [Op.actions]
    cases hr : h.allocRaw i dtype payload sys with
    | error e => trivial
    | ok r =>
      obtain ⟨_, _, hok, -⟩ := allocRaw_ok hr
      exact ⟨⟨(hmem.allocNodeMem hdtype hfresh hok).1, hpay⟩, trivial⟩
  | allocRootRaw i dtype payload sys =>
    obtain ⟨-, hdtype, hpay, hfresh⟩ := hpre
    simp only [Op.actions]
    cases hr : h.allocRootRaw i dtype payload sys with
    | error e => trivial
    | ok r =>
      obtain ⟨_, _, _, hok, -⟩ := allocRootRaw_ok hr
      exact ⟨⟨(hmem.allocNodeMem hdtype hfresh hok).1, hpay⟩, .inl rfl, trivial⟩
  | allocLocal stackId index dtype payload sys =>
    obtain ⟨hdtype, hpay, hfresh⟩ := hpre
    simp only [Op.actions]
    split
    · next s hscope =>
      cases hr : h.allocLocal stackId index s dtype payload sys with
      | error e => trivial
      | ok r =>
        obtain ⟨_, hok, -⟩ := allocLocal_ok hr
        obtain ⟨_, _, hok, -⟩ := allocRaw_ok hok
        exact ⟨⟨(hmem.allocNodeMem hdtype hfresh hok).1, hpay⟩, .inl rfl, trivial⟩
    · trivial
  | addNonLocal | setRootNode => exact ⟨hpre, trivial⟩
  | protectNode stackId n =>
    simp only [Op.actions]
    split
    · trivial
    · exact ⟨hpre, trivial⟩
  | popScope | removeNode | clear => exact hrelease
  | bind m c payload =>
    obtain ⟨hm, hc, hpay⟩ := hpre
    refine ⟨⟨hm, fun d hd => ?_⟩, trivial⟩
    rcases hpay d hd with hd | rfl
    · obtain ⟨j, hmj⟩ := hm
      exact hlive j m hmj d hd
    · exact hc
  | withWriteBarrier n payload =>
    obtain ⟨hn, hpay⟩ := hpre
    refine ⟨⟨hn, fun d hd => (hpay d hd).elim (fun hd => ?_) id⟩, trivial⟩
    obtain ⟨j, hnj⟩ := hn
    exact hlive j n hnj d hd
  | removeRefs n payload =>
    obtain ⟨hn, hpay⟩ := hpre
    refine ⟨⟨hn, fun d hd => ?_⟩, trivial⟩
    obtain ⟨j, hnj⟩ := hn
    exact hlive j n hnj d (hpay d hd)
  | removePartition i sys =>
    simp only [Op.actions]
    split
    · exact ⟨fun _ hn => hn.1, fun n hn => ⟨i, hn⟩, trivial⟩
    · trivial
  | _ => trivial

/-! ### Numbers for the objects -/

/-- A step of the heap, and of the numbering of its objects. -/
def NamedStep (C : GcHeap → Op → Prop) (g : GcHeap × Naming NodePtr) (op : Op)
    (g' : GcHeap × Naming NodePtr) : Prop :=
  StepWith C g.1 op g'.1 ∧ g'.2 = (op.actions g.1).foldl Naming.replay g.2

/-- The numbering is no condition on a run. -/
theorem exists_namedRun {C : GcHeap → Op → Prop} {ops : List Op}
    (hrun : Run (StepWith C) h ops h') (t : Naming NodePtr) :
    ∃ t', Run (NamedStep C) (h, t) ops (h', t') := by
  have hfollow : ∃ g', Run (NamedStep C) (h, t) ops g' ∧ g'.1 = h' :=
    Run.follow Prod.fst
      (fun g op h' hst => ⟨(h', (op.actions g.1).foldl Naming.replay g.2), ⟨hst, rfl⟩, rfl⟩) hrun
  obtain ⟨⟨g, t'⟩, hnamed, rfl⟩ := hfollow
  exact ⟨t', hnamed⟩

/-- What holds in every named run. -/
structure Named (g : GcHeap × Naming NodePtr) : Prop where
  /-- The memory is in order. -/
  mem : g.1.MemInv
  /-- So is marking, with all references inside their partitions. -/
  enclosed : g.1.view.Enclosed
  /-- The heap's objects are a part of the store. -/
  tracks : g.2.Tracks g.1.objects

theorem Named.step {g g' : GcHeap × Naming NodePtr} (hg : Named g)
    (hst : NamedStep InPartition g op g') : Named g' := by
  obtain ⟨⟨hstep, hop⟩, hnaming⟩ := hst
  obtain ⟨es, hes⟩ := hstep.events hg.mem
  refine ⟨hg.mem.step hstep,
    hes.invariant (I := Enclosed) (fun _ _ _ hs he => hs.step he hop) hg.enclosed, ?_⟩
  rw [hnaming, hstep.objects hg.mem]
  exact (hg.tracks.replay_all (closed_objects hg.enclosed.refs_live)
    (hstep.allows_actions hg.mem hg.enclosed.refs_live)).collect _

/-- **Collection is transparent.** In every run whose references and scopes stay inside their
partitions, whatever the interleaving, the numbers of the nodes that are reachable in the heap are
the objects that are reachable in the store that never gives anything up: one for each, with the
same references, and protected or not alike. -/
theorem collection_transparent {registry : GcTypeRegistry} {ops : List Op} (number : NodePtr → ℕ)
    (hrun : Run (StepWith InPartition) (GcHeap.new registry) ops h) :
    ∃ t, Run (NamedStep InPartition) (GcHeap.new registry, .start number) ops (h, t) ∧
      Set.BijOn t.number h.reach t.store.reach ∧
      (∀ n ∈ h.reach, t.store.refs (t.number n) = (h.refs n).map t.number) ∧
      ∀ n ∈ h.reach, t.number n ∈ t.store.held ↔ (h.head n).isRootOrLocal = true := by
  obtain ⟨t, hnamed⟩ := exists_namedRun hrun (.start number)
  have hnew : (GcHeap.new registry).objects.live = ∅ := by
    refine Set.eq_empty_of_forall_notMem fun n hn => ?_
    obtain ⟨q, hq, -⟩ := live_iff.mp hn
    cases hq
  have hstart : Named (GcHeap.new registry, .start number) :=
    ⟨.new registry, enclosed_new registry,
      Naming.Tracks.start number (closed_objects (enclosed_new registry).refs_live) hnew⟩
  obtain ⟨-, hs, htracks⟩ := hnamed.invariant (I := Named) (fun _ _ _ hg hst => hg.step hst) hstart
  have hclosed : h.objects.Closed := closed_objects hs.refs_live
  have hlive : h.reach ⊆ h.objects.live := hclosed.reach_subset
  have hnames := htracks.renames
  refine ⟨t, hnamed, ?_, fun n hn => hnames.refs n (hlive hn), fun n hn => ?_⟩
  · rw [hnames.reach hclosed]
    exact (hnames.inj.mono hlive).bijOn_image
  · rw [hnames.held]
    constructor
    · rintro ⟨m, hm, heq⟩
      obtain rfl := hnames.inj hm.1 (hlive hn) heq
      exact hm.2
    · exact fun hprot => ⟨n, ⟨hlive hn, hprot⟩, rfl⟩

end

/-- The address 1000 is used twice. The second node there has a number of its own, and the root
refers to that one. -/
theorem collection_transparent_reused : ∃ (h : GcHeap) (t : Naming NodePtr) (ops : List Op),
    Run (NamedStep InPartition)
      (GcHeap.new (gcTypeTableInternal 24 8 [⟨8, 8, true, none⟩]), .start id) ops (h, t) ∧
    Set.BijOn t.number h.reach t.store.reach ∧
    t.store.refs (t.number 2000) = [t.number 1000] ∧ t.number 2000 ∈ t.store.held := by
  let ops : List Op := [.createPartition 0 0 none, .allocRootRaw 0 0 [] (some 2000),
    .allocRaw 0 0 [] (some 1000), .garbageCollect 0, .allocRaw 0 0 [] (some 1000),
    .bind 2000 1000 [1000]]
  obtain ⟨h, hplay, hP⟩ := Option.any_eq_true
    (fun h : GcHeap => 2000 ∈ (h.par 0).nodes ∧ (h.head 2000).isRootOrLocal = true ∧
      h.refs 2000 = [1000])
    (play InPartition ops (GcHeap.new (gcTypeTableInternal 24 8 [⟨8, 8, true, none⟩])))
    |>.mp (by decide +kernel)
  obtain ⟨hnode, hprot, hrefs⟩ := of_decide_eq_true hP
  obtain ⟨t, hnamed, hbij, hnumbers, hheld⟩ := collection_transparent id (run_of_play hplay)
  have hroot : 2000 ∈ h.reach := TriColor.subset_reach _ ⟨⟨0, hnode⟩, hprot⟩
  refine ⟨h, t, ops, hnamed, hbij, ?_, (hheld 2000 hroot).mpr hprot⟩
  rw [hnumbers 2000 hroot, hrefs]
  rfl

end GcLite
