import GcLite.Library.Bfs
import GcLite.Slicing

/-!
# Traversing the heap

`traverse` walks from a node along references and calls its callback on what it finds, with the node
it was found from. The walk is a breadth-first search with the visited flags in the nodes' headers;
the filter decides about the callback only.

The callback may do what it likes with the nodes it is given, except change the heap's graph or its
flags. So it is known by the calls, in order.

## Main definitions

* `GcHeap.traverseStart`, `GcHeap.traverse`
* `GcHeap.RefersTo` — a node has a reference to another
* `GcHeap.Passes` — what the filter lets through
* `GcHeap.Visits` — what the calls of a traversal are

## Main results

* `traverseVisited_startAll` — `traverse_start` on every partition clears every flag
* `traverseLoop_eq` — the loop is a breadth-first search
* `traverse_visits`
-/

namespace GcLite

open BreadthFirst Relation

namespace GcHeap

/-! ### The code -/

/-- `none` when there is no such partition. -/
def traverseStart (h : GcHeap) (i : ℕ) : Option GcHeap :=
  if i < h.partitions.length then
    some ((h.par i).nodes.foldl
      (fun h n => h.modifyHead n fun hd => { hd with traverseVisited := false }) h)
  else none

/-- The loop over the children that have been traced: those not visited go to the end. -/
def pushChildren (h : GcHeap) (current : NodePtr) (stack : List (NodePtr × Option NodePtr)) :
    List (NodePtr × Option NodePtr) :=
  (h.traced current).foldl (fun stack child =>
    if (h.head child).traverseVisited then stack else stack ++ [(child, some current)]) stack

/-- The loop, with the calls that have been made so far; `none` if it takes too long. -/
def traverseLoop (filter : Option ℕ) : ℕ → GcHeap → List (NodePtr × Option NodePtr) →
    List (NodePtr × Option NodePtr) → Option (GcHeap × List (NodePtr × Option NodePtr))
  | _, h, [], calls => some (h, calls)
  | 0, _, _ :: _, _ => none
  | fuel + 1, h, (current, parent) :: stack, calls =>
    if (h.head current).traverseVisited then traverseLoop filter fuel h stack calls
    else
      let h := h.modifyHead current fun hd => { hd with traverseVisited := true }
      let calls := if filter.isNone || filter == some (h.head current).partitionId then
        calls ++ [(current, parent)] else calls
      traverseLoop filter fuel h (h.pushChildren current stack) calls

/-- The heap afterwards, and the calls of the callback in order. -/
def traverse (h : GcHeap) (fuel : ℕ) (n : NodePtr) (filter : Option ℕ) :
    Option (GcHeap × List (NodePtr × Option NodePtr)) :=
  traverseLoop filter fuel h [(n, none)] []

/-! ### What it does -/

variable {h h' : GcHeap} {i : ℕ} {n m c : NodePtr} {filter : Option ℕ}

/-- The payload of a node has a reference to another. -/
def RefersTo (h : GcHeap) (n c : NodePtr) : Prop := c ∈ h.refs n

/-- The nodes that the filter lets through: all of them, or those of one partition. -/
def Passes (h : GcHeap) (filter : Option ℕ) (n : NodePtr) : Prop :=
  ∀ i, filter = some i → (h.head n).partitionId = i

instance : Decidable (h.Passes filter n) :=
  inferInstanceAs (Decidable (∀ _, _ = some _ → _))

/-- What the calls of a traversal are. -/
structure Visits (h : GcHeap) (n : NodePtr) (filter : Option ℕ)
    (calls : List (NodePtr × Option NodePtr)) : Prop where
  /-- No node is visited twice. -/
  nodup : (calls.map Prod.fst).Nodup
  /-- The callback gets what is reachable and passes the filter. -/
  mem_iff : ∀ m, m ∈ calls.map Prod.fst ↔ ReflTransGen h.RefersTo n m ∧ h.Passes filter m
  /-- The nearest nodes come first. -/
  sorted : calls.Pairwise fun a b => depth h.RefersTo n a.1 ≤ depth h.RefersTo n b.1
  /-- The first node has no parent. -/
  start : ∀ parent, (n, parent) ∈ calls → parent = none
  /-- Any other has one that refers to it and is one step nearer. -/
  parent : ∀ m parent, (m, parent) ∈ calls → m ≠ n → ∃ p, parent = some p ∧
    ReflTransGen h.RefersTo n p ∧ h.RefersTo p m ∧
      depth h.RefersTo n m = depth h.RefersTo n p + 1

/-- The heap with these flags. -/
def withVisited (h : GcHeap) (visited : NodePtr → Bool) : GcHeap :=
  { h with head := fun n => { h.head n with traverseVisited := visited n } }

/-! ### Clearing the flags -/

theorem withVisited_self : h.withVisited (fun m => (h.head m).traverseVisited) = h := rfl

theorem modifyHead_traverseVisited (b : Bool) :
    (h.modifyHead n fun hd => { hd with traverseVisited := b }) =
      h.withVisited (Function.update (fun m => (h.head m).traverseVisited) n b) := by
  refine congrArg (fun head => { h with head := head }) (funext fun m => ?_)
  simp only [Function.update_apply]
  split
  · next hm => rw [hm]
  · rfl

theorem foldl_clear (l : List NodePtr) : ∀ h : GcHeap,
    l.foldl (fun h n => h.modifyHead n fun hd => { hd with traverseVisited := false }) h =
      h.withVisited fun m => if m ∈ l then false else (h.head m).traverseVisited := by
  induction l with
  | nil => exact fun h => rfl
  | cons n l ih =>
    intro h
    rw [List.foldl_cons, modifyHead_traverseVisited, ih]
    refine congrArg (fun head => { h with head := head }) (funext fun m => ?_)
    by_cases hmn : m = n <;> by_cases hm : m ∈ l <;> simp [withVisited, hmn, hm]

theorem traverseStart_eq (hi : i < h.partitions.length) : h.traverseStart i =
    some (h.withVisited fun m =>
      if m ∈ (h.par i).nodes then false else (h.head m).traverseVisited) := by
  rw [traverseStart, if_pos hi, foldl_clear]

/-- **Calling `traverse_start` on every partition** clears every node's flag, and changes nothing
else. -/
theorem traverseVisited_startAll (h : GcHeap) : ∃ visited : NodePtr → Bool,
    (List.range h.partitions.length).foldlM traverseStart h = some (h.withVisited visited) ∧
      ∀ n, h.Live n → visited n = false := by
  have hrun : ∀ k ≤ h.partitions.length, ∃ visited : NodePtr → Bool,
      (List.range k).foldlM traverseStart h = some (h.withVisited visited) ∧
        ∀ i < k, ∀ n ∈ (h.par i).nodes, visited n = false := by
    intro k
    induction k with
    | zero => exact fun _ => ⟨_, congrArg some withVisited_self.symm, fun i hi => by omega⟩
    | succ k ih =>
      intro hk
      obtain ⟨visited, hrun, hclear⟩ := ih (Nat.le_of_succ_le hk)
      refine ⟨fun m => if m ∈ (h.par k).nodes then false else visited m, ?_, fun i hi n hn => ?_⟩
      · rw [List.range_succ, List.foldlM_append, hrun]
        exact congrArg (· >>= pure) (traverseStart_eq (h := h.withVisited visited) hk)
      · dsimp only
        split
        · rfl
        · next hnot =>
          refine hclear i ?_ n hn
          have hne : i ≠ k := fun heq => hnot (heq ▸ hn)
          omega
  obtain ⟨visited, hall, hclear⟩ := hrun _ le_rfl
  exact ⟨visited, hall, fun n ⟨i, hn⟩ => hclear i (lt_length_of_mem_nodes hn) n hn⟩

/-! ### The loop is a search -/

theorem passes_iff : h.Passes filter n ↔
    (filter.isNone || filter == some (h.head n).partitionId) = true := by
  cases filter with
  | none => exact iff_of_true nofun rfl
  | some i =>
    rw [Option.isNone_some, Bool.false_or, beq_iff_eq, Option.some.injEq]
    exact ⟨fun hpass => (hpass i rfl).symm, fun heq j hj => (heq ▸ Option.some.inj hj)⟩

/-- The children that are queued. -/
theorem pushChildren_eq {current : NodePtr} (stack : List (NodePtr × Option NodePtr)) :
    h.pushChildren current stack =
      stack ++ unvisited h.traced (fun m => (h.head m).traverseVisited) current := by
  rw [pushChildren, unvisited]
  generalize h.traced current = l
  induction l generalizing stack with
  | nil => exact (List.append_nil _).symm
  | cons child l ih =>
    rw [List.foldl_cons, ih, List.filter_cons]
    cases (h.head child).traverseVisited <;> simp

/-- **The loop is a breadth-first search** whose output is filtered. -/
theorem traverseLoop_eq (filter : Option ℕ) (fuel : ℕ) : ∀ (h : GcHeap)
    (stack out : List (NodePtr × Option NodePtr)),
    traverseLoop filter fuel h stack (out.filter fun e => h.Passes filter e.1) =
      (search h.traced fuel ⟨fun m => (h.head m).traverseVisited, stack, out⟩).map fun st =>
        (h.withVisited st.visited, st.out.filter fun e => h.Passes filter e.1) := by
  induction fuel with
  | zero =>
    rintro h (_ | ⟨e, stack⟩) out
    · rw [search_nil rfl]
      rfl
    · rw [search_zero rfl]
      rfl
  | succ fuel ih =>
    rintro h (_ | ⟨⟨current, parent⟩, stack⟩) out
    · rw [search_nil rfl]
      rfl
    rw [search_succ rfl, traverseLoop]
    by_cases hvis : (h.head current).traverseVisited = true
    · rw [if_pos hvis, Search.pop, if_pos hvis]
      exact ih h stack out
    · rw [if_neg hvis, Search.pop, if_neg hvis]
      have hcalls : (if filter.isNone || filter == some (h.head current).partitionId then
          (out.filter fun e => h.Passes filter e.1) ++ [(current, parent)]
          else out.filter fun e => h.Passes filter e.1) =
          (out ++ [(current, parent)]).filter fun e => h.Passes filter e.1 := by
        rw [List.filter_append, List.filter_singleton]
        by_cases hpass : h.Passes filter current
        · rw [if_pos (passes_iff.mp hpass)]
          simp only [hpass, decide_true, cond_true]
        · rw [if_neg (mt passes_iff.mpr hpass)]
          simp only [hpass, decide_false, cond_false, List.append_nil]
      -- the flag is set before the node is traced, so that the node is no child of its own
      dsimp only
      rw [modifyHead_traverseVisited, pushChildren_eq]
      have hpid : ((h.withVisited (Function.update (fun m => (h.head m).traverseVisited)
          current true)).head current).partitionId = (h.head current).partitionId := rfl
      rw [hpid, hcalls]
      exact ih (h.withVisited _) _ (out ++ [(current, parent)])

/-! ### What is visited -/

/-- What a search puts out, and the filter lets through. -/
theorem visits_of_layered {out : List (Entry NodePtr)} (hout : Layered h.RefersTo n out) :
    h.Visits n filter (out.filter fun e => h.Passes filter e.1) where
  nodup := hout.nodup.sublist (List.filter_sublist.map _)
  mem_iff m := by
    rw [← hout.mem_iff]
    simp [and_comm]
  sorted := hout.sorted.filter _
  start parent hmem := by
    obtain ⟨-, hlevel⟩ := hout.parent _ (List.mem_of_mem_filter hmem)
    cases parent with
    | none => rfl
    | some p =>
      rw [depth_self] at hlevel
      cases hlevel
  parent m parent hmem hne := by
    obtain ⟨hfound, hlevel⟩ := hout.parent _ (List.mem_of_mem_filter hmem)
    rcases hfound with heq | ⟨p, rfl, hp, hpm⟩
    · cases heq
      exact absurd rfl hne
    · exact ⟨p, rfl, hp, hpm, hlevel⟩

/-- **A traversal visits the reachable nodes once**, nearest first, whatever cycles there are and
whichever partitions the references cross. With live nodes only and every flag clear, it ends, and
calls back for exactly the nodes that are reachable and that the filter lets through, each with a
parent that is one step closer. -/
theorem traverse_visits (hlive : ∀ m, ReflTransGen h.RefersTo n m → h.Live m)
    (hclear : ∀ m, h.Live m → (h.head m).traverseVisited = false) (filter : Option ℕ) :
    ∃ time h' calls, (∀ fuel ≥ time, h.traverse fuel n filter = some (h', calls)) ∧
      h.Visits n filter calls := by
  obtain ⟨time, st, hsearch, hout⟩ := search_layered (E := h.RefersTo)
    (fun _ _ => mem_traced) (fun m hm => mem_liveNodes.mpr (hlive m hm))
    (fun m hm => hclear m (hlive m hm))
  refine ⟨time, h.withVisited st.visited, _, fun fuel hfuel => ?_, visits_of_layered hout⟩
  have hloop := traverseLoop_eq filter fuel h [(n, none)] []
  rw [List.filter_nil] at hloop
  exact hloop.trans (congrArg (Option.map _) (hsearch fuel hfuel))

/-- A cycle through two partitions, where the way from one node to another of its partition leads
through a third. -/
theorem traverse_visits_cycle : ∃ (h : GcHeap) (time : ℕ) (h' : GcHeap)
    (calls : List (NodePtr × Option NodePtr)),
    (h.traverse 5 1000 (some 0)).map Prod.snd = some [(1000, none), (3000, some 2000)] ∧
    (∀ fuel ≥ time, h.traverse fuel 1000 (some 0) = some (h', calls)) ∧
      h.Visits 1000 (some 0) calls := by
  obtain ⟨h, -, hroot, hrefs, hclear, hcalls⟩ : ∃ h, Reachable h ∧ 1000 ∈ h.liveNodes ∧
      (∀ n ∈ h.liveNodes, ∀ c ∈ h.refs n, c ∈ h.liveNodes) ∧
      (∀ n ∈ h.liveNodes, (h.head n).traverseVisited = false) ∧
      (h.traverse 5 1000 (some 0)).map Prod.snd = some [(1000, none), (3000, some 2000)] :=
    exists_of_play (gcTypeTableInternal 24 8 [⟨8, 8, true, none⟩])
      [.createPartition 0 0 none, .createPartition 0 0 none, .allocRaw 0 0 [] (some 1000),
        .allocRaw 0 0 [1000] (some 3000), .allocRaw 1 0 [3000] (some 2000),
        .withWriteBarrier 1000 [2000, 1000], .withWriteBarrier 2000 [3000, 2000]]
      (by decide +kernel)
  simp only [mem_liveNodes] at hroot hrefs hclear
  have hlive : ∀ m, ReflTransGen h.RefersTo 1000 m → h.Live m := by
    intro m hm
    induction hm with
    | refl => exact hroot
    | tail _ hbc ih => exact hrefs _ ih _ hbc
  obtain ⟨time, h', calls, hvisits⟩ := traverse_visits hlive hclear (some 0)
  exact ⟨h, time, h', calls, hcalls, hvisits⟩

end GcHeap

end GcLite
