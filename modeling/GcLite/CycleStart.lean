import GcLite.GrayLists
import GcLite.ScopeTeardown

/-!
# The beginning of a cycle

A sweep leaves its survivors black, and the next cycle of the partition whitens them, but only if
nothing waits on its list by then. What may wait there is what the cycle of another partition has
found in the meantime. So a partition that is not marking should either have an empty list, or none
but white nodes and listed gray ones among those that are not protected.

A mark step of another partition may break this by listing a node of a partition with black
survivors; the barrier, by graying a node without listing it; and a scope, by giving up a black
survivor.

## Main definitions

* `MarkState.Clean`, `MarkState.Ready` — no stale colours where something is pending
* `Op.unprotects` — from which nodes an operation takes the protection
* `KeepsStarts` — the condition on the operations
* `GcHeap.BeginsClean` — the beginning of a cycle

## Main results

* `beginsClean_iff` — which partitions begin a cycle cleanly
* `Ready.markRun`, `Ready.emitStep` — what keeps the colours
* `cycle_begins_clean` — in every run that meets the condition, every cycle would begin cleanly
-/

namespace GcLite

open Transition

namespace MarkState

variable {s t u : MarkState} {P : Set NodePtr} {i j : ℕ} {n m c : NodePtr} {a : MarkAction}
  {as : List MarkAction}

/-- None of the given nodes of partition `i` is black, and those that are gray are on its list. -/
def Clean (s : MarkState) (P : Set NodePtr) (i : ℕ) : Prop :=
  ∀ n ∈ s.chain i, n ∈ P → s.color n ≠ .black ∧ (s.color n = .gray → n ∈ s.gray i)

/-- So it is in every partition that is not marking and has entries on its list. -/
def Ready (s : MarkState) (P : Set NodePtr) : Prop :=
  ∀ i, s.marking i = false → s.gray i = [] ∨ s.Clean P i

/-- The nodes that are neither roots nor locals. -/
def unprotected (s : MarkState) : Set NodePtr := {n | s.prot n = false}

theorem Ready.mono {Q : Set NodePtr} (h : s.Ready P)
    (hsub : ∀ i, ∀ n ∈ s.chain i, n ∈ Q → n ∈ P) : s.Ready Q := fun i hi =>
  (h i hi).imp_right fun hclean n hn hQ => hclean n hn (hsub i n hn hQ)

/-- Whatever changes in partitions that are marking, or comes to an end with an empty list. -/
theorem Ready.of_others (h : s.Ready P) (hmarking : ∀ j, t.marking j = false →
      t.gray j = [] ∨ (s.marking j = false ∧ t.gray j = s.gray j ∧ ∀ m ∈ t.chain j,
        (m ∈ s.chain j ∧ t.color m = s.color m) ∨ t.color m = .white)) : t.Ready P := by
  intro j hj
  refine (hmarking j hj).elim .inl fun ⟨hj, hgray, hcolor⟩ => ?_
  rw [hgray]
  refine (h j hj).imp_right fun hclean m hm hP => ?_
  rcases hcolor m hm with ⟨hm, hc⟩ | hw
  · rw [hc, hgray]
    exact hclean m hm hP
  · simp [hw]

/-- Only a partition that is marking changes. -/
theorem Ready.of_marking (h : s.Ready P) (hs : s.Owned) (hi : s.marking i = true)
    (hmarking : t.marking = s.marking) (hchain : t.chain = s.chain)
    (hgray : ∀ j, j ≠ i → t.gray j = s.gray j)
    (hcolor : ∀ m, s.pid m ≠ i → t.color m = s.color m) : t.Ready P := by
  refine h.of_others fun j hj => .inr ?_
  rw [hmarking] at hj
  have hji : j ≠ i := by
    rintro rfl
    rw [hi] at hj
    cases hj
  rw [hchain]
  exact ⟨hj, hgray j hji, fun m hm => .inl ⟨hm, hcolor m (hs.own j m hm ▸ hji)⟩⟩

/-! ### The mutator -/

theorem Ready.shade_own (h : s.Ready P) (hs : s.Owned) (hn : s.marking (s.pid n) = true) :
    (s.shade (s.pid n) n).Ready P := by
  obtain ⟨-, hchain, hmarking, -, -, -⟩ := shade_same (s := s) (i := s.pid n) (n := n)
  refine h.of_marking hs hn hmarking hchain (fun j hj => ?_) fun m hm => shade_color ?_
  · unfold shade
    split
    · rfl
    · simp [hj]
  · rintro rfl
    exact hm rfl

theorem Ready.congr (h : s.Ready P) (hmarking : t.marking = s.marking) (hchain : t.chain = s.chain)
    (hgray : t.gray = s.gray) (hcolor : t.color = s.color) : t.Ready P := by
  unfold Ready Clean
  rw [hmarking, hchain, hgray, hcolor]
  exact h

theorem Ready.protect (h : s.Ready P) (hs : s.Orderly) (hn : s.Live n) (hok : s.Protectable i n) :
    (s.protect i n).Ready P := by
  have hmem : n ∈ s.chain (s.pid n) := (hs.mem_chain_iff hn).mpr rfl
  have hshade : (if s.marking i = true then s.shade i n else s).Ready P := by
    split
    · next hi =>
      rcases hok with rfl | hb | hok
      · exact h.shade_own hs.toOwned hi
      · rwa [shade_eq_self (.inl hb)]
      · rw [if_pos hi] at hok
        have hin := hs.listed_mem _ n hmem hok
        rwa [shade_eq_self ((hs.gray_of_mem hin).imp_right fun hg => ⟨hg, hok⟩)]
    · exact h
  rw [protect_eq]
  exact hshade.congr rfl rfl rfl rfl

/-- Graying a node of a partition that is not marking does not list it. -/
theorem Ready.grayOwn (h : s.Ready P) (hs : s.Owned)
    (hok : s.marking (s.pid c) = false → s.gray (s.pid c) ≠ [] → c ∈ P → c ∈ s.gray (s.pid c)) :
    (s.grayOwn c).Ready P := by
  unfold MarkState.grayOwn
  split
  · next hmark => exact h.shade_own hs hmark
  · intro j hj
    by_cases hg : s.gray j = []
    · exact .inl hg
    · refine .inr fun n hn hP => ?_
      by_cases hnc : n = c
      · obtain rfl : s.pid c = j := hnc ▸ hs.own j n hn
        subst hnc
        exact ⟨by simp, fun _ => hok hj hg hP⟩
      · simpa [hnc] using (h j hj).resolve_left hg n hn hP

theorem Ready.bind (h : s.Ready P) (hs : s.Wf) (hc : s.Live c)
    (hok : s.color m = .black → s.marking (s.pid c) = false → s.gray (s.pid c) ≠ [] → c ∈ P →
      c ∈ s.gray (s.pid c)) : (s.bind m c).Ready P := by
  have hfirst : (s.bindOwn m c).Ready P ∧ (s.bindOwn m c).Owned := by
    unfold bindOwn
    split
    · next hmc => exact ⟨h.grayOwn hs.toOwned (hok hmc.1), (hs.shades (.grayOwn hs hc)).toOwned⟩
    · exact ⟨h, hs.toOwned⟩
  obtain ⟨-, -, hmarking, hpid, -, -⟩ := bindOwn_same (s := s) (m := m) (c := c)
  rw [bind_eq]
  split
  · next hcross =>
    rw [← hpid]
    refine hfirst.1.shade_own hfirst.2 ?_
    rw [hmarking, hpid]
    exact hcross.2.2
  · exact hfirst.1

theorem Ready.regray (h : s.Ready P) (hs : s.Owned) : (s.regray n).Ready P := by
  rw [regray_eq]
  split
  · next hn =>
    have hgray : ({ s with color := Function.update s.color n .gray } : MarkState).Ready P := by
      refine h.of_marking hs hn.1 rfl rfl (fun _ _ => rfl) fun m hm => Function.update_of_ne ?_ _ _
      rintro rfl
      exact hm rfl
    exact hgray.shade_own ⟨hs.range, hs.own⟩ hn.1
  · exact h

theorem Ready.alloc (h : s.Ready P) (hn : ¬ s.Live n) {payload : Payload} :
    (s.alloc i n payload).Ready P := by
  refine h.of_others fun j hj => .inr ⟨hj, rfl, fun m hm => ?_⟩
  rcases mem_chain_alloc.mp hm with ⟨rfl, -⟩ | hmj
  · exact .inr (by simp [MarkState.alloc])
  · have hmn : m ≠ n := by
      rintro rfl
      exact hn ⟨j, hmj⟩
    exact .inl ⟨hmj, by simp [MarkState.alloc, hmn]⟩

/-! ### The marker -/

/-- At the beginning of a cycle, every partition is marking. -/
theorem ready_prepared (hs : s.Owned) (hp : Prepared s t) : t.Ready P := by
  intro j hj
  by_cases hjc : j < s.count
  · rw [hp.marking j hjc] at hj
    cases hj
  · have hjc := Nat.le_of_not_lt hjc
    exact .inl ((hp.range j hjc).1.trans (hs.range j hjc).2.1)

theorem Ready.reset (h : s.Ready P) (hs : s.Owned) (i : ℕ) : (s.reset i).Ready P := by
  refine h.of_others fun j hj => ?_
  by_cases hji : j = i
  · exact .inl (by simp [MarkState.reset, hji])
  · refine .inr ⟨by simpa [MarkState.reset, hji] using hj, by simp [MarkState.reset, hji],
      fun m hm => .inl ⟨hm, hs.color_reset hji hm⟩⟩

theorem Ready.unlink (h : s.Ready P) (hg : s.gray i = []) : (s.unlink i).Ready P := by
  refine h.of_others fun j hj => ?_
  by_cases hji : j = i
  · exact .inl (hji ▸ hg)
  · exact .inr ⟨by simpa [MarkState.unlink, hji] using hj, rfl,
      fun m hm => .inl ⟨(mem_chain_unlink.mp hm).1, rfl⟩⟩

theorem Ready.drop (h : s.Ready P) : (s.drop i).Ready P := by
  refine h.of_others fun j hj => ?_
  by_cases hji : j = i
  · exact .inl (by simp [MarkState.drop, hji])
  · exact .inr ⟨by simpa [MarkState.drop, hji] using hj, by simp [MarkState.drop, hji],
      fun m hm => .inl ⟨(mem_chain_drop.mp hm).1, rfl⟩⟩

/-- Where the cycle of partition `i` may list a node of partition `j`, nothing there is stale. -/
def ListsClean (s : MarkState) (P : Set NodePtr) (i : ℕ) : Prop :=
  ∀ j, s.marking j = false → s.Clean P j ∨
    ∀ m ∈ s.finds i, ∀ c ∈ s.refs m, c ∈ s.chain j → s.color c = .black

/-- Tracing a node keeps a partition clean. -/
theorem Clean.trace (h : s.Clean P j) (hs : s.Orderly) (hji : j ≠ i) {rest cs : List NodePtr}
    (hg : s.gray i = n :: rest) : ((s.pop i n rest).trace n cs).Clean P j := by
  intro m hm hP
  have hmj : m ∈ s.chain j := hm
  obtain ⟨hb, hgray⟩ := h m hmj hP
  have hmn : m ≠ n := by
    rintro rfl
    exact hji (hs.eq_of_mem hmj (hs.entry i m (hg ▸ List.mem_cons_self)))
  refine ⟨fun hb' => (color_of_trace_black hb').elim hmn hb, fun hg' => ?_⟩
  rw [mem_gray_trace]
  obtain ⟨-, hmc | hg'⟩ := color_of_trace_gray hg'
  · exact .inr ⟨hs.lt_count hmj, hmc.1, hmc.2, hs.own j m hmj⟩
  · exact .inl (mem_gray_pop hg hmn (hgray hg'))

/-- **A run** on the list of a partition whose cycle is going on. -/
theorem Ready.markRun (h : s.Ready P) (hs : s.Orderly) (hi : s.marking i = true)
    (hok : s.ListsClean P i) (hr : Run (MarkStep i) s as t) : t.Ready P := by
  -- a partition is clean, or has nothing pending and nothing that the cycle could list
  have hinv : ∀ j, s.marking j = false → t.Clean P j ∨ t.gray j = [] := by
    intro j hj
    have hji : j ≠ i := by
      rintro rfl
      rw [hi] at hj
      cases hj
    by_cases hclean : s.Clean P j
    · left
      refine (hr.invariant (I := fun u => u.Orderly ∧ u.Clean P j) ?_ ⟨hs, hclean⟩).2
      rintro u a v ⟨hu, hclean⟩ hst
      refine ⟨hu.markStep hst, ?_⟩
      cases hst with
      | skip hg hn =>
        intro m hm hP
        obtain ⟨hb, hgray⟩ := hclean m hm hP
        exact ⟨hb, fun hg' => by simpa [pop, hji] using hgray hg'⟩
      | trace hg hn hcs => exact hclean.trace hu hji hg
      | requeue hg hn => exact hclean
    · right
      have hblack := (hok j hj).resolve_left hclean
      refine (hr.invariant (I := fun u => (u.Orderly ∧ Reaches (MarkStep i) s u) ∧
        (∀ m, s.color m = .black → u.color m = .black) ∧ u.gray j = []) ?_
        ⟨⟨hs, .refl s⟩, fun _ hb => hb, (h j hj).resolve_right hclean⟩).2.2
      rintro u a v ⟨⟨hu, hreach⟩, hmono, hempty⟩ hst
      refine ⟨⟨hu.markStep hst, hreach.tail hst⟩, fun m hb => hst.color_black (hmono m hb), ?_⟩
      obtain ⟨bs, hrun⟩ := hreach
      have hsame := markRun_sameGraph hrun
      cases hst with
      | skip hg hn => simpa [pop, hji] using hempty
      | requeue hg hn => exact hempty
      | @trace n rest cs hg hn hcs =>
        have hni : n ∈ u.chain i := hu.entry i n (hg ▸ List.mem_cons_self)
        have hfound : n ∈ s.finds i := hs.mem_finds hi hrun (hg ▸ List.mem_cons_self) hn
        refine List.eq_nil_iff_forall_not_mem.mpr fun c hc => ?_
        rcases mem_gray_trace.mp hc with hc | ⟨-, hc, hcb, hpid⟩
        · simp [pop, hji, hempty] at hc
        · have hcn : c ∈ u.refs n := (hcs c).mp hc
          have hcj : c ∈ u.chain j := (hu.mem_chain_iff (hu.refs_live i n hni c hcn)).mpr hpid
          rw [hsame.refs] at hcn
          rw [hsame.chain] at hcj
          exact hcb (hmono c (hblack n hfound c hcn hcj))
  intro j hj
  rw [(markRun_sameGraph hr).marking] at hj
  exact (hinv j hj).symm

end MarkState

/-! ### Losing protection -/

/-- The nodes whose `LOCAL` flag an operation clears. -/
def Op.uncached (h : GcHeap) : Op → List NodePtr
  | .popScope stackId => (h.stack stackId).list.getLast?.elim [] fun s => s.cache.getD []
  | .removeNode stackId index n =>
      if ((h.scopeAt stackId index).bind fun s => s.position n).isSome then [n] else []
  | .clear stackId index => (h.scopeAt stackId index).elim [] fun s => s.cache.getD []
  | .removePartition i _ =>
      (h.scopeStacks.filter fun st => st.partition = some i).flatMap ScopeStack.cached
  | _ => []

/-- The nodes from which it takes the protection: those of them that are not roots. -/
def Op.unprotects (h : GcHeap) (op : Op) : Set NodePtr :=
  {n | (h.head n).isRoot = false ∧ n ∈ op.uncached h}

theorem Op.uncached_of_marks {h : GcHeap} {op : Op} {i : ℕ} (hop : op.marks = some i) :
    op.uncached h = [] := by
  cases op <;> first | rfl | cases hop

namespace GcHeap

variable {h h' : GcHeap} {i k : ℕ} {n : NodePtr}

theorem isRoot_foldl_clearLocalFlag (l : List NodePtr) (h : GcHeap) :
    ((l.foldl clearLocalFlag h).head n).isRoot = (h.head n).isRoot := by
  have hone : ∀ (h : GcHeap) m, ((h.clearLocalFlag m).head n).isRoot = (h.head n).isRoot :=
    fun h m => by
      unfold clearLocalFlag
      exact field_modifyHead GcHead.isRoot fun _ => rfl
  exact reading_foldl (φ := fun h => (h.head n).isRoot) hone l h

/-- Clearing flags unprotects no root, and no node whose flag stays. -/
theorem prot_foldl_clearLocalFlag {l : List NodePtr} (hn : h.view.prot n = true)
    (hstay : (h.head n).isRoot = true ∨ n ∉ l) : (l.foldl clearLocalFlag h).view.prot n = true := by
  simp only [view, GcHead.isRootOrLocal, Bool.or_eq_true] at hn ⊢
  rw [isRoot_foldl_clearLocalFlag, isLocal_foldl_clearLocalFlag]
  rcases hstay with hroot | hmem
  · exact .inl hroot
  · simpa [hmem] using hn

theorem stack_clearStack (k k' : ℕ) :
    (h.clearStack k).stack k' = if k' = k then (h.stack k').cleared else h.stack k' := by
  rw [stack, stack, scopeStacks_clearStack, List.getD_eq_getElem?_getD, List.getElem?_modify,
    List.getD_eq_getElem?_getD]
  by_cases hk : k' = k
  · subst hk
    cases h.scopeStacks[k']? <;> simp [ScopeStack.cleared, default, instInhabitedScopeStack.default]
  · simp [hk, Ne.symm hk]

theorem prot_clearScopesOf (hn : h.view.prot n = true) (hstay : (h.head n).isRoot = true ∨
      ∀ st ∈ h.scopeStacks, st.partition = some i → n ∉ st.cached) :
    (h.clearScopesOf i).view.prot n = true := by
  have hfold : ∀ (ks : List ℕ) (h : GcHeap), h.view.prot n = true →
      ((h.head n).isRoot = true ∨
        ∀ k, (h.stack k).partition = some i → n ∉ (h.stack k).cached) →
      (ks.foldl (fun h k => if (h.stack k).partition = some i then h.clearStack k else h)
        h).view.prot n = true := by
    intro ks
    induction ks with
    | nil => exact fun _ hn _ => hn
    | cons k ks ih =>
      intro h hn hstay
      rw [List.foldl_cons]
      split
      · next hk =>
        refine ih _ (prot_foldl_clearLocalFlag hn (hstay.imp_right fun hst => hst k hk)) ?_
        refine hstay.imp (fun hroot => (isRoot_foldl_clearLocalFlag _ _).trans hroot)
          fun hst k' hk' => ?_
        -- the cleared stack holds nothing any more
        rw [stack_clearStack] at hk' ⊢
        split at hk'
        · next hkk => simp [hkk]
        · next hkk =>
          rw [if_neg hkk]
          exact hst k' hk'
      · exact ih h hn hstay
  refine hfold _ h hn (hstay.imp_right fun hst k hk => ?_)
  by_cases hlt : k < h.scopeStacks.length
  · have hget : h.stack k = h.scopeStacks[k] := by simp [stack, hlt]
    rw [hget] at hk ⊢
    exact hst _ (List.getElem_mem hlt) hk
  · simp [stack, hlt, ScopeStack.cached, default, instInhabitedScopeStack.default]

theorem prot_removePartition {debug : Bool} {sys : Option ℕ} {bytes : ℕ}
    (hn : h.view.prot n = true)
    (hstay : (h.head n).isRoot = true ∨ n ∉ (Op.removePartition i sys).uncached h)
    (hok : h.removePartition debug i sys = some (h', bytes)) : h'.view.prot n = true := by
  have hclear : (h.clearScopesOf i).view.prot n = true := by
    refine prot_clearScopesOf hn (hstay.imp_right fun hno st hst hpart hin => hno ?_)
    exact List.mem_flatMap.mpr ⟨st, List.mem_filter.mpr ⟨hst, decide_eq_true hpart⟩, hin⟩
  unfold removePartition at hok
  cases hfin : h.finalizePartition i with
  | none =>
    rw [hfin] at hok
    rwa [← (Prod.mk.inj (Option.some.inj hok)).1]
  | some r =>
    obtain ⟨h₁, link⟩ := r
    rw [hfin] at hok
    obtain ⟨⟨h₂, link₂⟩, hprep, heq⟩ := Option.map_eq_some_iff.mp hfin
    obtain ⟨rfl, -⟩ := Prod.mk.inj heq
    obtain ⟨-, -, rfl⟩ := finalizePartitionPrepare_ok hprep
    rw [view_deallocPartition hok]
    exact hclear

end GcHeap

theorem MarkState.prot_protect {s : MarkState} {i : ℕ} {n m : NodePtr} (hm : s.prot m = true) :
    (s.protect i n).prot m = true := by
  rw [protect_eq]
  by_cases hmn : m = n <;> simp [hmn, hm]

theorem MarkState.prot_alloc {s : MarkState} {i : ℕ} {n m : NodePtr} {payload : Payload}
    (hm : s.prot m = true) (hlive : s.Live m) (hn : ¬ s.Live n) :
    (s.alloc i n payload).prot m = true := by
  have hne : m ≠ n := by
    rintro rfl
    exact hn hlive
  simpa [MarkState.alloc, hne] using hm

namespace GcHeap

open MarkState

variable {h h' : GcHeap} {i k : ℕ} {n : NodePtr}

section Alloc

variable {dtype : ℕ} {payload : Payload} {sys : Option NodePtr} {m : NodePtr}

theorem prot_allocRaw (hmem : h.MemInv) (hlive : h.Live n) (hn : h.view.prot n = true)
    (hpre : Op.Pre h (.allocRaw i dtype payload sys))
    (hok : h.allocRaw i dtype payload sys = .ok (h', m)) : h'.view.prot n = true := by
  obtain ⟨_, _, hraw, -⟩ := allocRaw_ok hok
  rw [(view_allocRaw hok).2]
  exact prot_alloc hn hlive (hmem.allocNodeMem hpre.2.1 hpre.2.2.2 hraw).1

theorem prot_allocRootRaw (hmem : h.MemInv) (hlive : h.Live n) (hn : h.view.prot n = true)
    (hpre : Op.Pre h (.allocRootRaw i dtype payload sys))
    (hok : h.allocRootRaw i dtype payload sys = .ok (h', m)) : h'.view.prot n = true := by
  obtain ⟨_, _, _, hraw, -⟩ := allocRootRaw_ok hok
  rw [(view_allocRootRaw hok).2]
  exact prot_protect (prot_alloc hn hlive (hmem.allocNodeMem hpre.2.1 hpre.2.2.2 hraw).1)

theorem prot_allocLocal {index : ℕ} {s : GcScopeState} (hmem : h.MemInv) (hlive : h.Live n)
    (hn : h.view.prot n = true) (hpre : Op.Pre h (.allocLocal k index dtype payload sys))
    (hok : h.allocLocal k index s dtype payload sys = .ok (h', m)) : h'.view.prot n = true := by
  obtain ⟨_, halloc, -⟩ := allocLocal_ok hok
  obtain ⟨_, _, hraw, -⟩ := allocRaw_ok halloc
  rw [(view_allocLocal hok).2]
  exact prot_protect (prot_alloc hn hlive (hmem.allocNodeMem hpre.1 hpre.2.2 hraw).1)

end Alloc

section Scopes

variable {index : ℕ} {m : NodePtr}

theorem prot_addNonLocal (s : GcScopeState) (hn : h.view.prot n = true) :
    (h.addNonLocal k index s m).view.prot n = true := by
  rcases view_addNonLocal (h := h) (i := k) (j := index) (n := m) s with hview | hview <;>
    rw [hview]
  · exact hn
  · exact prot_protect hn

theorem prot_protectNode (hn : h.view.prot n = true) :
    (h.protectNode k m).view.prot n = true := by
  unfold protectNode
  split
  · next s hs => exact prot_addNonLocal s hn
  · exact hn

theorem prot_popScope (hn : h.view.prot n = true)
    (hstay : (h.head n).isRoot = true ∨ n ∉ (Op.popScope k).uncached h) :
    (h.popScope k).view.prot n = true := by
  unfold popScope
  split
  · next s hs =>
    have hstay : (h.head n).isRoot = true ∨ n ∉ s.cache.getD [] := by
      simpa [Op.uncached, hs] using hstay
    exact prot_foldl_clearLocalFlag (h := h.modifyScope k _ _) hn hstay
  · exact hn

theorem prot_removeNode {s : GcScopeState} (hs : h.scopeAt k index = some s)
    (hn : h.view.prot n = true)
    (hstay : (h.head n).isRoot = true ∨ n ∉ (Op.removeNode k index m).uncached h) :
    (h.removeNode k index s m).view.prot n = true := by
  unfold removeNode
  split
  · next pos hpos =>
    have hstay : (h.head n).isRoot = true ∨ n ∉ [m] := by
      simpa [Op.uncached, hs, hpos] using hstay
    exact prot_foldl_clearLocalFlag (h := h.modifyScope k index _) hn hstay
  · exact hn

theorem prot_clear {s : GcScopeState} (hs : h.scopeAt k index = some s) (hn : h.view.prot n = true)
    (hstay : (h.head n).isRoot = true ∨ n ∉ (Op.clear k index).uncached h) :
    (h.clear k index s).view.prot n = true := by
  have hstay : (h.head n).isRoot = true ∨ n ∉ s.cache.getD [] := by
    simpa [Op.uncached, hs] using hstay
  exact prot_foldl_clearLocalFlag (h := h.modifyScope k index _) hn hstay

end Scopes

theorem prot_setRootNode {m : NodePtr} (hn : h.view.prot n = true) :
    (h.setRootNode m).view.prot n = true := by
  rcases view_setRootNode (h := h) (n := m) with hview | hview <;> rw [hview]
  · exact hn
  · exact prot_protect hn

/-- Neither marking nor sweeping touches the flags. -/
theorem prot_mark (hmem : h.MemInv) (hi : i < h.partitions.length) (maxSteps : ℕ) :
    (h.mark i maxSteps).1.view.prot = h.view.prot := by
  obtain ⟨s, as, hstart, hr, -⟩ := mark_run hmem.owned hi maxSteps
  rw [(markRun_sameGraph hr).prot, hstart.prot]

theorem prot_twoPhaseSweep : (h.twoPhaseSweep i).1.view.prot = h.view.prot := by
  rw [view_twoPhaseSweep]
  by_cases hdone : i < h.view.count ∧ h.view.marking i = true ∧ h.view.gray i = []
  · rw [(view_sweepUnlink hdone.1 hdone.2.1 hdone.2.2).1]
    rfl
  · rw [sweepUnlink_of_not_done hdone]

theorem prot_garbageCollect {bytes : ℕ} (hmem : h.MemInv)
    (hgc : h.garbageCollect i = some (h', bytes)) : h'.view.prot = h.view.prot := by
  rcases garbageCollect_run hmem.owned hgc with ⟨-, rfl, -⟩ |
    ⟨-, h₂, s, as, -, hstart, hr, -, -, -, hview⟩
  · rfl
  · rw [hview]
    change h₂.view.prot = h.view.prot
    rw [(markRun_sameGraph hr).prot, hstart.prot]

end GcHeap

open GcHeap MarkState in
/-- **Losing protection.** A live node that an operation does not unprotect stays protected. -/
theorem Step.prot_kept {h h' : GcHeap} {op : Op} {n : NodePtr} (hmem : h.MemInv)
    (hst : Step h op h') (hlive : h.Live n) (hn : h.view.prot n = true)
    (hno : n ∉ op.unprotects h) : h'.view.prot n = true := by
  have hstay : (h.head n).isRoot = true ∨ n ∉ op.uncached h := by
    by_cases hroot : (h.head n).isRoot = true
    · exact .inl hroot
    · exact .inr fun hin => hno ⟨by simpa using hroot, hin⟩
  obtain ⟨hpre, hexec⟩ := hst
  cases op with
  | createPartition capacity maxAlloc sys =>
    obtain ⟨⟨h₁, id⟩, hok, rfl⟩ := Option.map_eq_some_iff.mp hexec
    rw [view_createPartition hok]
    exact hn
  | allocRaw i dtype payload sys =>
    cases hexec
    exact afterAlloc_ind (P := fun g => g.view.prot n = true) hn
      fun _ _ hok => prot_allocRaw hmem hlive hn hpre hok
  | allocRootRaw i dtype payload sys =>
    cases hexec
    exact afterAlloc_ind (P := fun g => g.view.prot n = true) hn
      fun _ _ hok => prot_allocRootRaw hmem hlive hn hpre hok
  | allocLocal stackId index dtype payload sys =>
    obtain ⟨s, -, rfl⟩ := Option.map_eq_some_iff.mp hexec
    exact afterAlloc_ind (P := fun g => g.view.prot n = true) hn
      fun _ _ hok => prot_allocLocal hmem hlive hn hpre hok
  | addNonLocal stackId index m =>
    obtain ⟨s, -, rfl⟩ := Option.map_eq_some_iff.mp hexec
    exact prot_addNonLocal s hn
  | protectNode stackId m =>
    cases hexec
    exact prot_protectNode hn
  | popScope stackId =>
    cases hexec
    exact prot_popScope hn hstay
  | removeNode stackId index m =>
    obtain ⟨s, hs, rfl⟩ := Option.map_eq_some_iff.mp hexec
    exact prot_removeNode hs hn hstay
  | clear stackId index =>
    obtain ⟨s, hs, rfl⟩ := Option.map_eq_some_iff.mp hexec
    exact prot_clear hs hn hstay
  | promoteNodeTo stackId index m targetStack targetIndex =>
    obtain ⟨s, -, rfl⟩ := Option.map_eq_some_iff.mp hexec
    rwa [view_promoteNodeTo]
  | setRootNode m =>
    cases hexec
    exact prot_setRootNode hn
  | bind m c payload =>
    cases hexec
    rw [view_bind, view_setRefs, bind_same.2.2.2.2.2]
    exact hn
  | withWriteBarrier m payload =>
    cases hexec
    rw [view_withWriteBarrier]
    exact (congrFun regray_same.2.2.2.2.2 n).trans hn
  | removeRefs m payload =>
    cases hexec
    exact hn
  | mark i maxSteps =>
    cases hexec
    rwa [prot_mark hmem hpre]
  | markReset i =>
    cases hexec
    rw [view_markReset hpre]
    exact hn
  | sweep i =>
    cases hexec
    rwa [prot_twoPhaseSweep]
  | garbageCollect i =>
    obtain ⟨⟨h₁, bytes⟩, hgc, rfl⟩ := Option.map_eq_some_iff.mp hexec
    exact (congrFun (prot_garbageCollect hmem hgc) n).trans hn
  | downgrade m =>
    obtain ⟨⟨h₁, w⟩, hok, rfl⟩ := Option.map_eq_some_iff.mp hexec
    rwa [view_downgrade hok]
  | removePartition i sys =>
    obtain ⟨⟨h₁, bytes⟩, hok, rfl⟩ := Option.map_eq_some_iff.mp hexec
    exact prot_removePartition hn hstay hok
  | acquireScopeStack | releaseScopeStack | newScope | setMemoryLimit | setGcThreshold =>
    rwa [view_of_bookkeeping rfl hexec]

/-! ### Every step -/

/-- A mark step lists nodes of a partition that is not marking only where nothing is stale; and
where something is pending in such a partition, the barrier grays no unprotected node that is not
listed, and only listed or white nodes lose their protection. -/
structure KeepsStarts (h : GcHeap) (op : Op) : Prop extends KeepsLists h op where
  /-- A step of marking that goes on with a cycle finds nothing stale in the partitions that may get
  entries. -/
  marks : ∀ i, op.marks = some i → h.view.marking i = true →
    h.view.ListsClean h.view.unprotected i
  /-- The slave is listed already, if it is not protected, its partition is not marking but has a
  list. -/
  bind : ∀ m c payload, op = .bind m c payload → (h.head m).color = .black →
    h.view.marking (h.view.pid c) = false → h.view.gray (h.view.pid c) ≠ [] →
    h.view.prot c = false → c ∈ h.view.gray (h.view.pid c)
  /-- Who loses protection in such a partition is not black, and is listed if gray. -/
  unprotects : ∀ i, h.view.marking i = false → h.view.gray i ≠ [] →
    h.view.Clean (op.unprotects h) i

namespace MarkState

variable {h h' : GcHeap} {op : Op} {s t : MarkState} {P : Set NodePtr} {e : MarkEvent} {i : ℕ}

theorem Ready.emitStep (hr : s.Ready P) (hs : s.Orderly) (hst : EmitStep h op s e t)
    (hop : KeepsStarts h op) (hno : op.isReclaiming = false) (hmarks : op.marks = none)
    (hP : ∀ c, h.Live c → c ∈ P → op.uncached h = [] → h.view.prot c = false) : t.Ready P := by
  obtain ⟨ht, hem⟩ := hst
  cases ht with
  | create => exact hr.congr rfl rfl rfl rfl
  | alloc hi hn hpay => exact hr.alloc hn
  | protect hn =>
    cases hem with
    | protect_own => exact hr.protect hs hn (.inl rfl)
    | protect hop' hview hprot =>
      subst hview
      exact hr.protect hs hn (hop.protect _ _ hop' hprot)
  | unprotect hun =>
    obtain ⟨prot, rfl, -⟩ := hun
    exact hr.congr rfl rfl rfl rfl
  | @bind m c payload hm hc hpay =>
    cases hem with
    | bind hop' hview =>
      subst hview hop'
      rw [bind_setRefs]
      refine Ready.congr ?_ rfl rfl rfl rfl
      exact hr.bind hs.toWf hc fun hb hmark hg hcP =>
        hop.bind m c payload rfl hb hmark hg (hP c hc hcP rfl)
  | barrier hn hpay => exact (hr.regray hs.toOwned).congr rfl rfl rfl rfl
  | removeRefs hn hpay => exact hr.congr rfl rfl rfl rfl
  | prepare _ _ hp => exact ready_prepared hs.toOwned hp
  | entry hst =>
    cases hem with
    | entry hop' =>
      rw [hmarks] at hop'
      cases hop'
  | reset _ => exact hr.reset hs.toOwned _
  | unlink _ _ hg => exact hr.unlink hg
  | drop => exact hr.drop

/-- What a `mark` or a collection starts with. -/
theorem Ready.started (hr : s.Ready P) (hs : s.Orderly) (hst : Started i s t)
    (hok : s.marking i = true → s.ListsClean P i) {u : MarkState} {as : List MarkAction}
    (hi : i < s.count) (hrun : Run (MarkStep i) t as u) : u.Ready P := by
  cases hst with
  | going hm => exact hr.markRun hs hm (hok hm) hrun
  | fresh hm hp =>
    refine (ready_prepared hs.toOwned hp).markRun (hs.prepared hp) (hp.marking i hi) ?_ hrun
    intro j hj
    -- no partition is left that is not marking
    refine .inl fun n hn => ?_
    rw [hp.chain] at hn
    rw [hp.marking j (hs.lt_count hn)] at hj
    cases hj

/-- **Every operation that meets the condition keeps the colours.** -/
theorem Ready.step (hr : h.view.Ready h.view.unprotected) (hs : h.view.Orderly) (hmem : h.MemInv)
    (hst : Step h op h') (hop : KeepsStarts h op) : h'.view.Ready h'.view.unprotected := by
  -- the nodes that are not protected now, or are not any more afterwards
  set P : Set NodePtr := {n | h.Live n → h.view.prot n = true → n ∈ op.unprotects h} with hPdef
  have hP : ∀ n, h.Live n → n ∈ P → h.view.prot n = false ∨ n ∈ op.unprotects h := by
    intro n hlive hn
    cases hp : h.view.prot n with
    | false => exact .inl rfl
    | true => exact .inr (hn hlive hp)
  have hready : h.view.Ready P := by
    intro i hi
    by_cases hg : h.view.gray i = []
    · exact .inl hg
    · refine .inr fun n hn hnP => ?_
      rcases hP n ⟨i, hn⟩ hnP with hp | hun
      · exact (hr i hi).resolve_left hg n hn hp
      · exact hop.unprotects i hi hg n hn hun
  have hlists : ∀ i, op.marks = some i → h.view.marking i = true → h.view.ListsClean P i := by
    intro i hi hm j hj
    refine (hop.marks i hi hm j hj).imp_left fun hclean n hn hnP => ?_
    rcases hP n ⟨j, hn⟩ hnP with hp | hun
    · exact hclean n hn hp
    · rw [Op.unprotects, Op.uncached_of_marks hi] at hun
      cases hun.2
  suffices hready' : h'.view.Ready P by
    refine hready'.mono fun i n _ hn hlive hp => ?_
    by_contra hno
    have hkept := hst.prot_kept hmem hlive hp hno
    rw [show h'.view.prot n = false from hn] at hkept
    cases hkept
  cases op with
  | mark i maxSteps =>
    cases hst.2
    obtain ⟨s, as, hstart, hrun, -⟩ := GcHeap.mark_run hs.toOwned hst.1 maxSteps
    exact hready.started hs hstart (hlists i rfl) hst.1 hrun
  | sweep i =>
    cases hst.2
    rw [GcHeap.view_twoPhaseSweep]
    by_cases hdone : i < h.view.count ∧ h.view.marking i = true ∧ h.view.gray i = []
    · rw [(GcHeap.view_sweepUnlink hdone.1 hdone.2.1 hdone.2.2).1]
      exact hready.unlink hdone.2.2
    · rwa [GcHeap.sweepUnlink_of_not_done hdone]
  | garbageCollect i =>
    obtain ⟨⟨h₁, bytes⟩, hgc, rfl⟩ := Option.map_eq_some_iff.mp hst.2
    rcases GcHeap.garbageCollect_run hs.toOwned hgc with ⟨-, rfl, -⟩ |
      ⟨hi, h₂, s, as, -, hstart, hrun, hdone, -, -, hview⟩
    · exact hready
    · change h₁.view.Ready P
      rw [hview]
      exact (hready.started hs hstart (hlists i rfl) hi hrun).unlink hdone
  | removePartition i sys =>
    obtain ⟨⟨h₁, bytes⟩, hok, rfl⟩ := Option.map_eq_some_iff.mp hst.2
    rcases GcHeap.view_removePartition hok with rfl | ⟨s, ⟨prot, rfl, -⟩, hview⟩
    · exact hready
    · rw [hview]
      exact (hready.congr rfl rfl rfl rfl).drop
  | _ =>
    obtain ⟨es, hes⟩ := hst.events hmem
    refine (hes.invariant (I := fun s => s.Orderly ∧ s.Ready P) (fun s e t hs hem => ?_)
      ⟨hs, hready⟩).2
    refine ⟨hs.1.emitStep hem hop.toKeepsLists rfl, hs.2.emitStep hs.1 hem hop rfl rfl ?_⟩
    intro c hc hcP hnil
    refine (hP c hc hcP).resolve_right fun hun => ?_
    rw [Op.unprotects, hnil] at hun
    cases hun.2

end MarkState

theorem ready_of_reachable {h : GcHeap} (hr : ReachableWith KeepsStarts h) :
    h.view.Orderly ∧ h.view.Ready h.view.unprotected := by
  obtain ⟨registry, hr⟩ := hr
  have hnew : (GcHeap.new registry).view.Ready (GcHeap.new registry).view.unprotected := fun i hi =>
    .inl ((MarkState.enclosed_new registry).idle i hi)
  have hall := hr.invariant
    (I := fun h => h.MemInv ∧ h.view.Orderly ∧ h.view.Ready h.view.unprotected)
    (fun g op g' hg hst => ⟨hg.1.step hst.1, hg.2.1.step hg.1 hst.1 hst.2.toKeepsLists,
      hg.2.2.step hg.2.1 hg.1 hst.1 hst.2⟩)
    ⟨GcHeap.MemInv.new registry, MarkState.orderly_new registry, hnew⟩
  exact hall.2

/-! ### The beginning of a cycle -/

/-- After `mark_prepare`, no node of the partition is black, roots and locals are gray and listed,
and the others are white or gray and listed. -/
structure GcHeap.BeginsClean (h : GcHeap) (i : ℕ) : Prop where
  /-- Nothing counts as traced. -/
  no_black : ∀ n ∈ ((h.markPrepare i).par i).nodes, ((h.markPrepare i).head n).color ≠ .black
  /-- Roots and locals are waiting to be traced. -/
  roots : ∀ n ∈ ((h.markPrepare i).par i).nodes, ((h.markPrepare i).head n).isRootOrLocal = true →
    ((h.markPrepare i).head n).color = .gray ∧ n ∈ ((h.markPrepare i).par i).grayList
  /-- The others are waiting too, or have not been reached. -/
  others : ∀ n ∈ ((h.markPrepare i).par i).nodes, ((h.markPrepare i).head n).isRootOrLocal = false →
    ((h.markPrepare i).head n).color = .white ∨
      (((h.markPrepare i).head n).color = .gray ∧ n ∈ ((h.markPrepare i).par i).grayList)

open GcHeap in
/-- **Clean beginnings.** A partition begins its cycle cleanly if and only if nothing is pending in
it or nothing in it is stale. -/
theorem beginsClean_iff {h : GcHeap} {i : ℕ} (hs : h.view.Wf) (hi : i < h.view.count)
    (hm : h.view.marking i = false) : h.BeginsClean i ↔ h.view.Startable i := by
  have hp := prepared_markPrepare hs.toOwned hi hm
  set t := (h.markPrepare i).view with ht
  have hcolor := hp.color i
  have hgray := hp.mem_gray i hi
  constructor
  · intro hclean
    by_cases hg : h.view.gray i = []
    · exact .inl hg
    · refine .inr fun n hn hprot => ?_
      have hnt : n ∈ t.chain i := hp.chain ▸ hn
      have hc : t.color n = h.view.color n := by
        rw [hcolor n hn, if_neg (by simp [hprot]), if_neg hg]
      have hpt : t.prot n = false := hp.prot ▸ hprot
      rw [← hc]
      refine ⟨hclean.no_black n hnt, fun hgr => ?_⟩
      rcases hclean.others n hnt hpt with hw | ⟨-, hin⟩
      · have hw : t.color n = .white := hw
        rw [hgr] at hw
        cases hw
      · rcases (hgray n).mp hin with hin | ⟨-, hp', -⟩
        · exact hin
        · rw [hprot] at hp'
          cases hp'
  · intro hst
    have hroots : ∀ n ∈ h.view.chain i, h.view.prot n = true →
        t.color n = .gray ∧ n ∈ t.gray i := by
      intro n hn hprot
      refine ⟨by rw [hcolor n hn, if_pos hprot], (hgray n).mpr ?_⟩
      by_cases hl : h.view.listed n = true
      · exact .inl (hs.listed_mem i n hn hl)
      · exact .inr ⟨hn, hprot, .inr (by simpa using hl)⟩
    have hothers : ∀ n ∈ h.view.chain i, h.view.prot n = false →
        t.color n = .white ∨ (t.color n = .gray ∧ n ∈ t.gray i) := by
      intro n hn hprot
      rw [hcolor n hn, if_neg (by simp [hprot])]
      by_cases hg : h.view.gray i = []
      · exact .inl (if_pos hg)
      · rw [if_neg hg]
        obtain ⟨hb, hin⟩ := hst.resolve_left hg n hn hprot
        cases hc : h.view.color n with
        | white => exact .inl rfl
        | gray => exact .inr ⟨rfl, (hgray n).mpr (.inl (hin hc))⟩
        | black => exact absurd hc hb
    have hchain : ∀ n, n ∈ ((h.markPrepare i).par i).nodes → n ∈ h.view.chain i := fun n hn =>
      hp.chain ▸ hn
    have hprot : ∀ n, ((h.markPrepare i).head n).isRootOrLocal = h.view.prot n :=
      fun n => congrFun hp.prot n
    refine ⟨fun n hn hb => ?_, fun n hn hpr => hroots n (hchain n hn) (hprot n ▸ hpr),
      fun n hn hpr => hothers n (hchain n hn) (hprot n ▸ hpr)⟩
    have hb : t.color n = .black := hb
    cases hpr : h.view.prot n with
    | true => simp [(hroots n (hchain n hn) hpr).1] at hb
    | false =>
      rcases hothers n (hchain n hn) hpr with hw | ⟨hg, -⟩
      · simp [hw] at hb
      · simp [hg] at hb

/-- **No stale black at the start of a cycle.** In every run, whatever the interleaving, whose steps
meet the condition, every partition that is not marking would begin its next cycle cleanly. -/
theorem cycle_begins_clean {h : GcHeap} {i : ℕ} (hr : ReachableWith KeepsStarts h)
    (hi : i < h.partitions.length) (hm : (h.par i).marking = false) : h.BeginsClean i := by
  obtain ⟨hs, hready⟩ := ready_of_reachable hr
  exact (beginsClean_iff hs.toWf hi hm).mpr (hready i hm)

/-- Operations that free nothing, touch no scope, bind nothing and mark only to begin a cycle. -/
private def isQuiet (h : GcHeap) : Op → Bool
  | .createPartition _ _ _ | .allocRaw _ _ _ _ | .allocRootRaw _ _ _ _ => true
  | .mark i _ => !h.view.marking i
  | _ => false

private theorem keepsStarts_of_isQuiet {h : GcHeap} {op : Op} (hop : isQuiet h op = true) :
    KeepsStarts h op := by
  cases op with
  | createPartition | allocRaw | allocRootRaw =>
    exact { keepsLists_of_own rfl (fun _ hr => by cases hr) with
            marks := fun _ hi => nomatch hi
            bind := fun _ _ _ heq => nomatch heq
            unprotects := fun _ _ _ _ _ hun => absurd hun.2 List.not_mem_nil }
  | mark i maxSteps =>
    refine { keepsLists_of_own rfl (fun _ hr => by cases hr) with
             marks := fun j hj hm => ?_
             bind := fun _ _ _ heq => nomatch heq
             unprotects := fun _ _ _ _ _ hun => absurd hun.2 List.not_mem_nil }
    obtain rfl := Option.some.inj hj
    simp [isQuiet, hm] at hop
  | _ => cases hop

/-- A partition that was created while another was marking. -/
theorem cycle_begins_clean_created : ∃ h : GcHeap, ((h.par 0).marking = true ∧
    (h.par 1).nodes = [2000, 1000]) ∧ h.BeginsClean 1 := by
  obtain ⟨h, hr, hnodes, hi, hm⟩ : ∃ h, ReachableWith (fun h op => isQuiet h op = true) h ∧
      ((h.par 0).marking = true ∧ (h.par 1).nodes = [2000, 1000]) ∧
      1 < h.partitions.length ∧ (h.par 1).marking = false :=
    exists_of_play (gcTypeTableInternal 24 8 [⟨8, 8, true, none⟩])
      [.createPartition 0 0 none, .allocRootRaw 0 0 [] (some 3000), .mark 0 0,
        .createPartition 0 0 none, .allocRaw 1 0 [] (some 1000),
        .allocRootRaw 1 0 [1000] (some 2000)]
      (by decide +kernel)
  exact ⟨h, hnodes, cycle_begins_clean (hr.mono fun _ _ => keepsStarts_of_isQuiet) hi hm⟩

/-- The survivors of a sweep are black when the cycle of another partition lists a new node among
them. -/
theorem cycle_begins_stale : ∃ h : GcHeap, Reachable h ∧
    (1 < h.partitions.length ∧ (h.par 1).marking = false) ∧ ¬ h.BeginsClean 1 := by
  obtain ⟨h, hr, hnot, hmem, hblack⟩ : ∃ h, Reachable h ∧
      (1 < h.partitions.length ∧ (h.par 1).marking = false) ∧
      1000 ∈ ((h.markPrepare 1).par 1).nodes ∧ ((h.markPrepare 1).head 1000).color = .black :=
    exists_of_play (gcTypeTableInternal 24 8 [⟨8, 8, true, none⟩])
      [.createPartition 0 0 none, .createPartition 0 0 none, .allocRaw 1 0 [] (some 1000),
        .allocRootRaw 1 0 [1000] (some 2000), .allocRootRaw 0 0 [] (some 3000), .mark 1 64,
        .sweep 1, .allocRaw 1 0 [] (some 4000), .bind 3000 4000 [4000], .mark 0 64]
      (by decide +kernel)
  exact ⟨h, hr, hnot, fun hclean => hclean.no_black 1000 hmem hblack⟩

end GcLite
