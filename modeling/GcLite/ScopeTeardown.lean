import GcLite.Reclaim
import GcLite.ScopeInvariant

/-!
# Scopes and teardown

Teardown of a partition clears the scopes of the stacks that are bound to it, and these only. A
scope of another stack may hold nodes of the partition all the same.

## Main results

* `scopeStacks_clearScopesOf` — which scopes are cleared
* `teardown_cached_iff` — when no scope holds a freed node afterwards
-/

namespace GcLite

/-- A stack whose scopes have been cleared. -/
def ScopeStack.cleared (st : ScopeStack) : ScopeStack :=
  { st with list := st.list.map fun s => { s with cache := none } }

@[simp] theorem ScopeStack.cached_cleared (st : ScopeStack) : st.cleared.cached = [] := by
  simp [ScopeStack.cleared, ScopeStack.cached]

theorem modify_length_append {α : Type*} (pre : List α) (f : α → α) (a : α) (post : List α) :
    (pre ++ a :: post).modify pre.length f = pre ++ f a :: post := by
  induction pre with
  | nil => rfl
  | cons b pre ih => simpa using ih

/-- Going through the indices of a list and changing some entries on the way. -/
theorem foldl_range_modify {α : Type*} [Inhabited α] (p : α → Prop) [DecidablePred p] (f : α → α)
    (l : List α) (m : ℕ) (hm : m ≤ l.length) :
    (List.range m).foldl (fun l k => if p (l.getD k default) then l.modify k f else l) l =
      (l.take m).map (fun a => if p a then f a else a) ++ l.drop m := by
  induction m with
  | zero => simp
  | succ m ih =>
    have hlt : m < l.length := hm
    have hlen : ((l.take m).map fun a => if p a then f a else a).length = m := by
      simp [Nat.le_of_lt hlt]
    have hget : ((l.take m).map (fun a => if p a then f a else a) ++ l.drop m).getD m default =
        l[m] := by
      rw [List.getD_eq_getElem?_getD, List.getElem?_append_right (by omega), hlen]
      simp [hlt]
    rw [List.range_succ, List.foldl_append, ih (Nat.le_of_lt hlt), List.foldl_cons, List.foldl_nil,
      hget, List.take_succ_eq_append_getElem hlt, List.map_append, List.drop_eq_getElem_cons hlt,
      List.append_assoc]
    split
    · next hp =>
      have hmod := modify_length_append ((l.take m).map fun a => if p a then f a else a) f l[m]
        (l.drop (m + 1))
      rw [hlen] at hmod
      rw [hmod]
      simp [hp]
    · next hp => simp [hp]

namespace GcHeap

variable {h h₁ h₂ : GcHeap} {i bytes : ℕ} {n : NodePtr} {link : List NodePtr}

theorem scopeStacks_clearStack (k : ℕ) :
    (h.clearStack k).scopeStacks = h.scopeStacks.modify k ScopeStack.cleared := by
  rw [clearStack, scopeStacks_foldl_clearLocalFlag]
  rfl

/-- Exactly the scopes of the partition's stacks are cleared. -/
theorem scopeStacks_clearScopesOf : (h.clearScopesOf i).scopeStacks =
    h.scopeStacks.map fun st => if st.partition = some i then st.cleared else st := by
  have hfold : ∀ (ks : List ℕ) (h : GcHeap), (ks.foldl (fun h k =>
      if (h.stack k).partition = some i then h.clearStack k else h) h).scopeStacks =
      ks.foldl (fun l k => if (l.getD k default).partition = some i then
        l.modify k ScopeStack.cleared else l) h.scopeStacks := by
    intro ks
    induction ks with
    | nil => exact fun _ => rfl
    | cons k ks ih =>
      intro h
      rw [List.foldl_cons, ih, List.foldl_cons]
      congr 1
      by_cases hk : (h.stack k).partition = some i
      · have hk' : (h.scopeStacks.getD k default).partition = some i := hk
        rw [if_pos hk, if_pos hk', scopeStacks_clearStack]
      · have hk' : (h.scopeStacks.getD k default).partition ≠ some i := hk
        rw [if_neg hk, if_neg hk']
  have hrange := foldl_range_modify (fun st : ScopeStack => st.partition = some i)
    ScopeStack.cleared h.scopeStacks _ (Nat.le_refl _)
  rw [List.take_length, List.drop_length, List.append_nil] at hrange
  rw [clearScopesOf, hfold, hrange]

theorem disposalsIn_deallocs (debug : Bool) (l : List NodePtr) :
    disposalsIn (l.flatMap (deallocEvents debug h)) = l := by
  have hone : ∀ n, disposalsIn (deallocEvents debug h n) = [n] := by
    intro n
    unfold deallocEvents
    split <;> rfl
  simp [disposalsIn_flatMap, hone]

/-- What is cached after teardown is what other stacks hold. -/
theorem mem_cached_teardown {debug : Bool} {sys : Option ℕ}
    (hfin : h.finalizePartition i = some (h₁, link))
    (hdealloc : h₁.deallocPartition debug i link sys = some (h₂, bytes)) :
    n ∈ h₂.cached ↔ ∃ st ∈ h.scopeStacks, st.partition ≠ some i ∧ n ∈ st.cached := by
  have hscopes : h₂.scopeStacks = (h.clearScopesOf i).scopeStacks := by
    obtain ⟨⟨g, l⟩, hprep, heq⟩ := Option.map_eq_some_iff.mp hfin
    obtain ⟨rfl, rfl⟩ := Prod.mk.inj heq
    obtain ⟨arena, log, -, rfl⟩ := deallocPartition_ok hdealloc
    obtain ⟨-, -, rfl⟩ := finalizePartitionPrepare_ok hprep
    rfl
  rw [cached, hscopes, scopeStacks_clearScopesOf, List.flatMap_map, List.mem_flatMap]
  refine exists_congr fun st => and_congr_right fun _ => ?_
  split
  · next hst => simp [hst]
  · next hst => simp [hst]

end GcHeap

/-- **Teardown and scopes.** After both phases of the teardown of a partition, no scope holds a node
that has been freed, exactly when the scopes of the stacks that are not bound to the partition held
no node of it. -/
theorem teardown_cached_iff {h h₁ h₂ : GcHeap} {debug : Bool} {i bytes : ℕ} {link : List NodePtr}
    {sys : Option ℕ} (hfin : h.finalizePartition i = some (h₁, link))
    (hdealloc : h₁.deallocPartition debug i link sys = some (h₂, bytes)) :
    (∀ n ∈ h₂.cached, n ∉ disposalsIn (h₁.newEvents h₂)) ↔
      ∀ st ∈ h.scopeStacks, st.partition ≠ some i → ∀ n ∈ st.cached, n ∉ (h.par i).nodes := by
  obtain ⟨-, hlink, -, -, -⟩ := GcHeap.log_finalizePartition hfin
  rw [GcHeap.newEvents_of_log (GcHeap.log_deallocPartition hdealloc), GcHeap.disposalsIn_deallocs,
    hlink]
  constructor
  · intro hall st hst hne n hn
    exact hall n ((GcHeap.mem_cached_teardown hfin hdealloc).mpr ⟨st, hst, hne, hn⟩)
  · intro hall n hn
    obtain ⟨st, hst, hne, hn⟩ := (GcHeap.mem_cached_teardown hfin hdealloc).mp hn
    exact hall st hst hne n hn

/-- A scope of partition 1 with a node of its own and one of partition 0, and a scope of partition 0
with a node of its own. -/
private theorem exists_cached : ∃ h : GcHeap, Reachable h ∧
    h.scopeStacks = [⟨[⟨1, some [1000, 3000]⟩], some 1⟩, ⟨[⟨0, some [2000]⟩], some 0⟩] ∧
    (h.par 0).nodes = [2000, 1000] ∧ (h.par 1).nodes = [3000] ∧
    ∀ i < 2, (h.finalizePartition i).any fun r => (r.1.deallocPartition false i r.2 none).isSome :=
  exists_of_play (gcTypeTableInternal 24 8 [⟨8, 8, true, none⟩])
    [.createPartition 0 0 none, .createPartition 0 0 none, .acquireScopeStack 1, .newScope 0,
      .allocRaw 0 0 [] (some 1000), .addNonLocal 0 0 1000, .acquireScopeStack 0, .newScope 1,
      .allocLocal 1 0 0 [] (some 2000), .allocLocal 0 0 0 [] (some 3000)]
    (by decide +kernel)

private theorem exists_cached_teardown {i : ℕ} (hi : i < 2) : ∃ (h h₁ h₂ : GcHeap)
    (link : List NodePtr) (bytes : ℕ), Reachable h ∧
    h.scopeStacks = [⟨[⟨1, some [1000, 3000]⟩], some 1⟩, ⟨[⟨0, some [2000]⟩], some 0⟩] ∧
    (h.par 0).nodes = [2000, 1000] ∧ (h.par 1).nodes = [3000] ∧
    h.finalizePartition i = some (h₁, link) ∧
    h₁.deallocPartition false i link none = some (h₂, bytes) := by
  obtain ⟨h, hr, hscopes, hnodes, hnodes', hok⟩ := exists_cached
  obtain ⟨⟨h₁, link⟩, hfin, hok⟩ := Option.any_eq_true _ _ |>.mp (hok i hi)
  obtain ⟨⟨h₂, bytes⟩, hdealloc⟩ := Option.isSome_iff_exists.mp hok
  exact ⟨h, h₁, h₂, link, bytes, hr, hscopes, hnodes, hnodes', hfin, hdealloc⟩

/-- Teardown of partition 0 leaves its node in the other stack's scope. -/
theorem teardown_leaves_cached : ∃ (h h₁ h₂ : GcHeap) (link : List NodePtr) (bytes : ℕ),
    Reachable h ∧ h.finalizePartition 0 = some (h₁, link) ∧
    h₁.deallocPartition false 0 link none = some (h₂, bytes) ∧
    1000 ∈ h₂.cached ∧ 1000 ∈ disposalsIn (h₁.newEvents h₂) := by
  obtain ⟨h, h₁, h₂, link, bytes, hr, hscopes, hnodes, -, hfin, hdealloc⟩ :=
    exists_cached_teardown (i := 0) (by decide)
  refine ⟨h, h₁, h₂, link, bytes, hr, hfin, hdealloc, ?_, ?_⟩
  · rw [GcHeap.mem_cached_teardown hfin hdealloc, hscopes]
    exact ⟨_, List.mem_cons_self, by simp, by simp [ScopeStack.cached]⟩
  · obtain ⟨-, rfl, -⟩ := GcHeap.log_finalizePartition hfin
    rw [GcHeap.newEvents_of_log (GcHeap.log_deallocPartition hdealloc), GcHeap.disposalsIn_deallocs,
      hnodes]
    simp

/-- Teardown of partition 1, whose node is in its own stack's scope, leaves none. -/
theorem teardown_leaves_none : ∃ (h h₁ h₂ : GcHeap) (link : List NodePtr) (bytes : ℕ),
    3000 ∈ h.cached ∧ h.finalizePartition 1 = some (h₁, link) ∧
    h₁.deallocPartition false 1 link none = some (h₂, bytes) ∧
    ∀ n ∈ h₂.cached, n ∉ disposalsIn (h₁.newEvents h₂) := by
  obtain ⟨h, h₁, h₂, link, bytes, -, hscopes, -, hnodes, hfin, hdealloc⟩ :=
    exists_cached_teardown (i := 1) (by decide)
  refine ⟨h, h₁, h₂, link, bytes, ?_, hfin, hdealloc, (teardown_cached_iff hfin hdealloc).mpr ?_⟩
  · simp [GcHeap.cached, hscopes, ScopeStack.cached]
  · simp [hnodes, hscopes, ScopeStack.cached]

end GcLite
