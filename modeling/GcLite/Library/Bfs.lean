import Mathlib.Algebra.BigOperators.Group.Finset.Basic
import Mathlib.Data.List.Nodup
import Mathlib.Logic.Relation
import Mathlib.Order.Lattice.Nat
import Mathlib.Tactic.Common

/-!
# Breadth-first search

A search that keeps a queue of vertices, each with the vertex it was found from. A vertex that is
taken from the queue for the first time is put out, and its successors that have not been put out so
far go to the end of the queue. So a vertex may wait in the queue several times, with different
parents, and what counts is the first of them.

The level of an entry is one more than the depth of its parent. The queue is sorted by levels, and
they differ by at most one. Every vertex on the border of the search waits with the right level, or
a lower one, and that is why the first entry has the depth of its vertex as its level.

## Main definitions

* `Walk`, `depth` — walks of a length, and the length of the shortest
* `Search`, `Search.pop`, `search` — the search
* `Search.Inv` — the invariant of the queue
* `Layered` — a list of the reachable vertices in the order of their depth

## Main results

* `exists_pred` — the last vertex but one of a shortest walk is one step closer
* `Search.Inv.level_eq` — the first entry has the right parent
* `Search.Inv.drop`, `Search.Inv.visit`, `Search.Inv.pop` — the step lemma, case by case
* `search_layered` — the search ends, and puts out every reachable vertex once
-/

namespace BreadthFirst

open Relation

variable {V : Type*} {E : V → V → Prop} {s u v w : V} {k : ℕ}

/-! ### Depth -/

/-- There is a walk of this length. -/
def Walk (E : V → V → Prop) : ℕ → V → V → Prop
  | 0, u, v => u = v
  | k + 1, u, v => ∃ w, Walk E k u w ∧ E w v

theorem reflTransGen_iff : ReflTransGen E u v ↔ ∃ k, Walk E k u v := by
  constructor
  · intro h
    induction h with
    | refl => exact ⟨0, rfl⟩
    | tail _ hbc ih =>
      obtain ⟨k, hk⟩ := ih
      exact ⟨k + 1, _, hk, hbc⟩
  · rintro ⟨k, hk⟩
    induction k generalizing v with
    | zero => exact hk ▸ .refl
    | succ k ih =>
      obtain ⟨w, hw, hwv⟩ := hk
      exact (ih hw).tail hwv

/-- The length of the shortest walk. -/
noncomputable def depth (E : V → V → Prop) (s v : V) : ℕ := sInf {k | Walk E k s v}

theorem Walk.depth_le (hk : Walk E k s v) : depth E s v ≤ k := Nat.sInf_le hk

theorem walk_depth (hv : ReflTransGen E s v) : Walk E (depth E s v) s v :=
  Nat.sInf_mem (reflTransGen_iff.mp hv)

@[simp] theorem depth_self : depth E s s = 0 := Nat.le_zero.mp (Walk.depth_le rfl)

theorem eq_of_depth_eq_zero (hv : ReflTransGen E s v) (h0 : depth E s v = 0) : v = s := by
  have hwalk := walk_depth hv
  rw [h0] at hwalk
  exact Eq.symm hwalk

theorem depth_le_succ (hu : ReflTransGen E s u) (huv : E u v) : depth E s v ≤ depth E s u + 1 :=
  Walk.depth_le ⟨u, walk_depth hu, huv⟩

/-- The last vertex but one of a shortest walk is one step closer. -/
theorem exists_pred (hv : ReflTransGen E s v) (hk : depth E s v = k + 1) :
    ∃ u, ReflTransGen E s u ∧ E u v ∧ depth E s u = k := by
  have hwalk := walk_depth hv
  rw [hk] at hwalk
  obtain ⟨u, hu, huv⟩ := hwalk
  have hreach : ReflTransGen E s u := reflTransGen_iff.mpr ⟨k, hu⟩
  have := hu.depth_le
  have := depth_le_succ hreach huv
  exact ⟨u, hreach, huv, by omega⟩

/-! ### Entries -/

/-- An entry of the queue: a vertex, and the one it was found from. -/
abbrev Entry (V : Type*) := V × Option V

/-- The level at which an entry waits. -/
noncomputable def level (E : V → V → Prop) (s : V) (e : Entry V) : ℕ :=
  match e.2 with
  | none => 0
  | some u => depth E s u + 1

/-- The beginning, or found from a reachable vertex. -/
def Found (E : V → V → Prop) (s : V) (e : Entry V) : Prop :=
  e = (s, none) ∨ ∃ u, e.2 = some u ∧ ReflTransGen E s u ∧ E u e.1

theorem Found.reaches {e : Entry V} (he : Found E s e) : ReflTransGen E s e.1 := by
  rcases he with rfl | ⟨u, -, hu, huv⟩
  · exact .refl
  · exact hu.tail huv

theorem Found.depth_le {e : Entry V} (he : Found E s e) : depth E s e.1 ≤ level E s e := by
  rcases he with rfl | ⟨u, hpar, hu, huv⟩
  · simp [level]
  · simpa [level, hpar] using depth_le_succ hu huv

/-- The reachable vertices, each once, in the order of their depth, and each with a parent that is
one step closer. -/
structure Layered (E : V → V → Prop) (s : V) (out : List (Entry V)) : Prop where
  /-- No vertex comes twice. -/
  nodup : (out.map Prod.fst).Nodup
  /-- Exactly the reachable ones come. -/
  mem_iff : ∀ v, v ∈ out.map Prod.fst ↔ ReflTransGen E s v
  /-- The nearest come first. -/
  sorted : out.Pairwise fun e e' => depth E s e.1 ≤ depth E s e'.1
  /-- A parent is one step nearer. -/
  parent : ∀ e ∈ out, Found E s e ∧ depth E s e.1 = level E s e

/-! ### The state of a search -/

/-- A search that has not ended. -/
structure Search (V : Type*) where
  /-- The vertices that have been taken up. -/
  visited : V → Bool
  /-- The entries still to be taken up. -/
  queue : List (Entry V)
  /-- The entries taken up, in order. -/
  out : List (Entry V)

namespace Search

/-- Begin at a vertex. -/
def start (visited : V → Bool) (s : V) : Search V := ⟨visited, [(s, none)], []⟩

/-- The invariant. -/
structure Inv (E : V → V → Prop) (s : V) (st : Search V) : Prop where
  /-- The visited vertices are those put out. -/
  visited_iff : ∀ v, ReflTransGen E s v → (st.visited v = true ↔ v ∈ st.out.map Prod.fst)
  /-- Each has been put out once. -/
  nodup : (st.out.map Prod.fst).Nodup
  /-- The nearest have been put out first. -/
  out_sorted : st.out.Pairwise fun e e' => depth E s e.1 ≤ depth E s e'.1
  /-- Their parents are one step nearer. -/
  out_parent : ∀ e ∈ st.out, Found E s e ∧ depth E s e.1 = level E s e
  /-- What waits has been found. -/
  found : ∀ e ∈ st.queue, Found E s e
  /-- The queue is in the order of the levels. -/
  sorted : st.queue.Pairwise fun e e' => level E s e ≤ level E s e'
  /-- What waits is no nearer than what has been put out. -/
  ahead : ∀ e ∈ st.out, ∀ e' ∈ st.queue, depth E s e.1 ≤ level E s e'
  /-- The queue spans two levels at most. -/
  width : ∀ e ∈ st.queue, ∀ e' ∈ st.queue, level E s e ≤ level E s e' + 1
  /-- The border of the search waits in the queue. -/
  root : st.visited s = false → (s, none) ∈ st.queue
  /-- Whoever is next to a vertex put out is visited or waits, at the level after it. -/
  border : ∀ e ∈ st.out, ∀ v, E e.1 v → st.visited v = false →
    ∃ e' ∈ st.queue, e'.1 = v ∧ level E s e' ≤ depth E s e.1 + 1

variable {st : Search V} {e : Entry V} {rest : List (Entry V)}

theorem Inv.start {visited : V → Bool} (hclear : ∀ v, ReflTransGen E s v → visited v = false) :
    (start visited s).Inv E s where
  visited_iff v hv := by simp [Search.start, hclear v hv]
  nodup := .nil
  out_sorted := .nil
  out_parent := nofun
  found e he := .inl (List.mem_singleton.mp he)
  sorted := List.pairwise_singleton ..
  ahead := nofun
  width e he e' he' := by
    rw [List.mem_singleton.mp he, List.mem_singleton.mp he']
    exact Nat.le_succ _
  root _ := List.mem_singleton_self _
  border := nofun

/-- A reachable vertex that has not been visited keeps an entry waiting that is not further away. -/
theorem Inv.exists_waiting (hinv : st.Inv E s) : ∀ {k : ℕ} {v : V}, ReflTransGen E s v →
    depth E s v = k → st.visited v = false → ∃ e ∈ st.queue, level E s e ≤ k := by
  intro k
  induction k with
  | zero =>
    intro v hv hk hvis
    obtain rfl := eq_of_depth_eq_zero hv hk
    exact ⟨_, hinv.root hvis, le_rfl⟩
  | succ k ih =>
    intro v hv hk hvis
    obtain ⟨u, hu, huv, rfl⟩ := exists_pred hv hk
    cases hvisu : st.visited u with
    | false =>
      obtain ⟨e, he, hle⟩ := ih hu rfl hvisu
      exact ⟨e, he, hle.trans (Nat.le_succ _)⟩
    | true =>
      obtain ⟨e, he, rfl⟩ := List.mem_map.mp ((hinv.visited_iff u hu).mp hvisu)
      obtain ⟨e', he', -, hle⟩ := hinv.border e he v huv hvis
      exact ⟨e', he', hle⟩

/-- **The first entry** of a vertex comes from a parent that is one step closer. -/
theorem Inv.level_eq (hinv : st.Inv E s) (hq : st.queue = e :: rest)
    (hvis : st.visited e.1 = false) : depth E s e.1 = level E s e := by
  have he : Found E s e := hinv.found e (hq ▸ List.mem_cons_self)
  refine Nat.le_antisymm he.depth_le ?_
  obtain ⟨e', he', hle⟩ := hinv.exists_waiting he.reaches rfl hvis
  have hsorted := hinv.sorted
  rw [hq] at hsorted he'
  rcases List.mem_cons.mp he' with rfl | he'
  · exact hle
  · exact (List.rel_of_pairwise_cons hsorted he').trans hle

/-- An entry of a visited vertex is dropped. -/
theorem Inv.drop (hinv : st.Inv E s) (hq : st.queue = e :: rest) (hvis : st.visited e.1 = true) :
    { st with queue := rest }.Inv E s := by
  have hrest : ∀ e' ∈ rest, e' ∈ st.queue := fun e' he' => hq ▸ List.mem_cons_of_mem e he'
  have hother : ∀ e' ∈ st.queue, st.visited e'.1 = false → e' ∈ rest := by
    intro e' he' hvis'
    rw [hq] at he'
    refine (List.mem_cons.mp he').resolve_left ?_
    rintro rfl
    rw [hvis] at hvis'
    cases hvis'
  refine { hinv with
    found := fun e' he' => hinv.found e' (hrest e' he')
    sorted := (List.pairwise_cons.mp (hq ▸ hinv.sorted)).2
    ahead := fun a ha e' he' => hinv.ahead a ha e' (hrest e' he')
    width := fun a ha e' he' => hinv.width a (hrest a ha) e' (hrest e' he')
    root := fun hs => hother _ (hinv.root hs) hs
    border := fun a ha v hav hv => ?_ }
  obtain ⟨e', he', rfl, hle⟩ := hinv.border a ha v hav hv
  exact ⟨e', hother e' he' hv, rfl, hle⟩

/-- When nothing waits, everything reachable has been put out. -/
theorem Inv.layered (hinv : st.Inv E s) (hq : st.queue = []) : Layered E s st.out := by
  refine ⟨hinv.nodup, fun v => ⟨fun hv => ?_, fun hv => ?_⟩, hinv.out_sorted, hinv.out_parent⟩
  · obtain ⟨e, he, rfl⟩ := List.mem_map.mp hv
    exact (hinv.out_parent e he).1.reaches
  · refine (hinv.visited_iff v hv).mp ?_
    by_contra hvis
    obtain ⟨e, he, -⟩ := hinv.exists_waiting hv rfl (by simpa using hvis)
    rw [hq] at he
    cases he

end Search

/-! ### The search -/

variable [DecidableEq V] {succ : V → List V}

/-- The successors that have not been visited. -/
def unvisited (succ : V → List V) (visited : V → Bool) (u : V) : List (Entry V) :=
  ((succ u).filter fun v => !visited v).map fun v => (v, some u)

omit [DecidableEq V] in
theorem mem_unvisited {visited : V → Bool} {p : Option V} :
    (v, p) ∈ unvisited succ visited u ↔ p = some u ∧ v ∈ succ u ∧ visited v = false := by
  rw [unvisited, List.mem_map]
  constructor
  · rintro ⟨v', hv', heq⟩
    cases heq
    obtain ⟨hv', hnot⟩ := List.mem_filter.mp hv'
    exact ⟨rfl, hv', by simpa using hnot⟩
  · rintro ⟨rfl, hv, hnot⟩
    exact ⟨v, List.mem_filter.mpr ⟨hv, by simp [hnot]⟩, rfl⟩

namespace Search

/-- Take the first entry from the queue. -/
def pop (succ : V → List V) (st : Search V) (e : Entry V) (rest : List (Entry V)) : Search V :=
  if st.visited e.1 then { st with queue := rest }
  else
    let visited := Function.update st.visited e.1 true
    ⟨visited, rest ++ unvisited succ visited e.1, st.out ++ [e]⟩

end Search

/-- Search until the queue is empty; `none` if that takes too long. -/
def search (succ : V → List V) : ℕ → Search V → Option (Search V)
  | 0, st => if st.queue.isEmpty then some st else none
  | fuel + 1, st =>
    match st.queue with
    | [] => some st
    | e :: rest => search succ fuel (st.pop succ e rest)

section

variable {st : Search V} {e : Entry V} {rest : List (Entry V)} {fuel : ℕ}

theorem search_nil (hq : st.queue = []) : search succ fuel st = some st := by
  cases fuel <;> simp [search, hq]

theorem search_zero (hq : st.queue = e :: rest) : search succ 0 st = none := by
  simp [search, hq]

theorem search_succ (hq : st.queue = e :: rest) :
    search succ (fuel + 1) st = search succ fuel (st.pop succ e rest) := by
  simp [search, hq]

end

namespace Search

variable {st : Search V} {e : Entry V} {rest : List (Entry V)}

omit [DecidableEq V] in
theorem level_of_mem_unvisited {visited : V → Bool} {e' : Entry V}
    (he' : e' ∈ unvisited succ visited u) : level E s e' = depth E s u + 1 := by
  obtain ⟨v, p⟩ := e'
  obtain ⟨rfl, -⟩ := mem_unvisited.mp he'
  rfl

omit [DecidableEq V] in
/-- All that waits after a visit is on the level of the visited vertex or on the next. -/
theorem Inv.level_visit (hinv : st.Inv E s) (hq : st.queue = e :: rest)
    (hdepth : depth E s e.1 = level E s e) {visited : V → Bool} {e' : Entry V}
    (he' : e' ∈ rest ++ unvisited succ visited e.1) :
    level E s e ≤ level E s e' ∧ level E s e' ≤ level E s e + 1 := by
  have hsorted := List.pairwise_cons.mp (hq ▸ hinv.sorted)
  rcases List.mem_append.mp he' with he' | he'
  · exact ⟨hsorted.1 e' he', hinv.width e' (hq ▸ List.mem_cons_of_mem e he') e
      (hq ▸ List.mem_cons_self)⟩
  · rw [level_of_mem_unvisited he', hdepth]
    exact ⟨Nat.le_succ _, le_rfl⟩

omit [DecidableEq V] in
/-- The queue after a visit is sorted. -/
theorem Inv.sorted_visit (hinv : st.Inv E s) (hq : st.queue = e :: rest)
    (hdepth : depth E s e.1 = level E s e) {visited : V → Bool} :
    (rest ++ unvisited succ visited e.1).Pairwise fun a b => level E s a ≤ level E s b := by
  have hsorted := List.pairwise_cons.mp (hq ▸ hinv.sorted)
  refine List.pairwise_append.mpr ⟨hsorted.2, ?_, fun a ha b hb => ?_⟩
  · refine List.pairwise_iff_forall_sublist.mpr fun {a b} hab => ?_
    rw [level_of_mem_unvisited (hab.subset List.mem_cons_self),
      level_of_mem_unvisited (hab.subset (List.mem_cons_of_mem _ List.mem_cons_self))]
  · rw [level_of_mem_unvisited hb, hdepth]
    have ha := List.mem_append_left (unvisited succ visited e.1) ha
    exact (hinv.level_visit hq hdepth ha).2

theorem eq_false_of_update {visited : V → Bool} (hv : Function.update visited u true v = false) :
    v ≠ u ∧ visited v = false := by
  rw [Function.update_apply] at hv
  split at hv
  · cases hv
  · next hne => exact ⟨hne, hv⟩

/-- The border after a visit waits in the queue. -/
theorem Inv.border_visit (hsucc : ∀ u v, v ∈ succ u ↔ E u v) (hinv : st.Inv E s)
    (hq : st.queue = e :: rest) {a : Entry V} (ha : a ∈ st.out ++ [e]) (hav : E a.1 v)
    (hv : Function.update st.visited e.1 true v = false) :
    ∃ e' ∈ rest ++ unvisited succ (Function.update st.visited e.1 true) e.1,
      e'.1 = v ∧ level E s e' ≤ depth E s a.1 + 1 := by
  obtain ⟨hne, hv'⟩ := eq_false_of_update hv
  rcases List.mem_append.mp ha with ha | ha
  · obtain ⟨e', he', rfl, hle⟩ := hinv.border a ha v hav hv'
    rw [hq] at he'
    refine ⟨e', List.mem_append_left _ ((List.mem_cons.mp he').resolve_left ?_), rfl, hle⟩
    rintro rfl
    exact hne rfl
  · obtain rfl := List.mem_singleton.mp ha
    exact ⟨(v, some a.1), List.mem_append_right _
      (mem_unvisited.mpr ⟨rfl, (hsucc _ _).mpr hav, hv⟩), rfl, le_rfl⟩

/-- The entry of a vertex that is visited for the first time is put out. -/
theorem Inv.visit (hsucc : ∀ u v, v ∈ succ u ↔ E u v) (hinv : st.Inv E s)
    (hq : st.queue = e :: rest) (hvis : st.visited e.1 = false) :
    (st.pop succ e rest).Inv E s := by
  have hmem : e ∈ st.queue := hq ▸ List.mem_cons_self
  have he : Found E s e := hinv.found e hmem
  have hdepth := hinv.level_eq hq hvis
  have hnew : e.1 ∉ st.out.map Prod.fst := fun hout => by
    rw [(hinv.visited_iff e.1 he.reaches).mpr hout] at hvis
    cases hvis
  rw [pop, if_neg (by simp [hvis])]
  refine ⟨fun v hv => ?_, ?_, ?_, fun a ha => ?_, fun a ha => ?_, hinv.sorted_visit hq hdepth,
    fun a ha b hb => ?_, fun a ha b hb => ?_, fun hs => ?_,
    fun a ha v hav hv => hinv.border_visit hsucc hq ha hav hv⟩
  · simp only [Function.update_apply, List.map_append, List.mem_append, List.map_singleton,
      List.mem_singleton, ← hinv.visited_iff v hv]
    by_cases hve : v = e.1 <;> simp [hve]
  · simp only [List.map_append, List.map_singleton]
    refine List.nodup_append.mpr ⟨hinv.nodup, List.nodup_singleton _, fun a ha b hb => ?_⟩
    rw [List.mem_singleton.mp hb]
    exact ne_of_mem_of_not_mem ha hnew
  · refine List.pairwise_append.mpr ⟨hinv.out_sorted, List.pairwise_singleton .., ?_⟩
    intro a ha b hb
    rw [List.mem_singleton.mp hb, hdepth]
    exact hinv.ahead a ha e hmem
  · rcases List.mem_append.mp ha with ha | ha
    · exact hinv.out_parent a ha
    · exact List.mem_singleton.mp ha ▸ ⟨he, hdepth⟩
  · rcases List.mem_append.mp ha with ha | ha
    · exact hinv.found a (hq ▸ List.mem_cons_of_mem e ha)
    · obtain ⟨hpar, hav, -⟩ := mem_unvisited.mp ha
      exact .inr ⟨e.1, hpar, he.reaches, (hsucc _ _).mp hav⟩
  · have hle : level E s e ≤ level E s b := (hinv.level_visit hq hdepth hb).1
    rcases List.mem_append.mp ha with ha | ha
    · exact (hinv.ahead a ha e hmem).trans hle
    · rw [List.mem_singleton.mp ha, hdepth]
      exact hle
  · have := hinv.level_visit hq hdepth ha
    have := hinv.level_visit hq hdepth hb
    omega
  · obtain ⟨hne, hs⟩ := eq_false_of_update hs
    have hroot := hinv.root hs
    rw [hq] at hroot
    refine List.mem_append_left _ ((List.mem_cons.mp hroot).resolve_left ?_)
    rintro rfl
    exact hne rfl

/-- **One step** keeps the invariant. -/
theorem Inv.pop (hsucc : ∀ u v, v ∈ succ u ↔ E u v) (hinv : st.Inv E s)
    (hq : st.queue = e :: rest) : (st.pop succ e rest).Inv E s := by
  cases hvis : st.visited e.1 with
  | true =>
    rw [Search.pop, if_pos hvis]
    exact hinv.drop hq hvis
  | false => exact hinv.visit hsucc hq hvis

/-! ### The end of the search -/

/-- What waits, and what the vertices that have not been visited may yet add to it. -/
def cost (succ : V → List V) (U : Finset V) (st : Search V) : ℕ :=
  (∑ v ∈ U.filter fun v => st.visited v = false, (succ v).length) + st.queue.length

theorem cost_pop (succ : V → List V) {U : Finset V} (hU : e.1 ∈ U) (hq : st.queue = e :: rest) :
    (st.pop succ e rest).cost succ U < st.cost succ U := by
  rw [cost, cost, hq, List.length_cons, Search.pop]
  cases hvis : st.visited e.1 with
  | true =>
    rw [if_pos rfl]
    exact Nat.lt_succ_self _
  | false =>
    rw [if_neg Bool.false_ne_true]
    have hfilter : (U.filter fun v => Function.update st.visited e.1 true v = false) =
        (U.filter fun v => st.visited v = false).erase e.1 := by
      ext v
      by_cases hv : v = e.1 <;> simp [hv]
    have hmem : e.1 ∈ U.filter fun v => st.visited v = false :=
      Finset.mem_filter.mpr ⟨hU, hvis⟩
    have hsum := Finset.add_sum_erase _ (fun v => (succ v).length) hmem
    have hnew : (unvisited succ (Function.update st.visited e.1 true) e.1).length ≤
        (succ e.1).length := by
      rw [unvisited, List.length_map]
      exact List.length_filter_le ..
    simp only [hfilter, List.length_append]
    omega

end Search

variable {st st' : Search V}

/-- More time does not change the result. -/
theorem search_mono {fuel fuel' : ℕ} (hle : fuel ≤ fuel') (hs : search succ fuel st = some st') :
    search succ fuel' st = some st' := by
  induction fuel generalizing st fuel' with
  | zero =>
    cases hq : st.queue with
    | nil => rwa [search_nil hq] at hs ⊢
    | cons e rest =>
      rw [search_zero hq] at hs
      cases hs
  | succ fuel ih =>
    obtain ⟨fuel', rfl⟩ : ∃ k, fuel' = k + 1 := ⟨fuel' - 1, by omega⟩
    cases hq : st.queue with
    | nil => rwa [search_nil hq] at hs ⊢
    | cons e rest =>
      rw [search_succ hq] at hs ⊢
      exact ih (Nat.le_of_succ_le_succ hle) hs

/-- A search ends in a finite part of the graph. -/
theorem exists_search (hsucc : ∀ u v, v ∈ succ u ↔ E u v) {U : Finset V}
    (hU : ∀ v, ReflTransGen E s v → v ∈ U) : ∀ {fuel : ℕ} {st : Search V}, st.Inv E s →
    st.cost succ U ≤ fuel →
      ∃ st', search succ fuel st = some st' ∧ st'.Inv E s ∧ st'.queue = [] := by
  intro fuel
  induction fuel with
  | zero =>
    intro st hinv hcost
    have hq : st.queue = [] := by
      rw [Search.cost] at hcost
      exact List.length_eq_zero_iff.mp (by omega)
    exact ⟨st, search_nil hq, hinv, hq⟩
  | succ fuel ih =>
    intro st hinv hcost
    cases hq : st.queue with
    | nil => exact ⟨st, search_nil hq, hinv, hq⟩
    | cons e rest =>
      have he := hU e.1 (hinv.found e (hq ▸ List.mem_cons_self)).reaches
      have hlt := Search.cost_pop succ he hq
      obtain ⟨st', hs, hend⟩ := ih (hinv.pop hsucc hq) (by omega)
      exact ⟨st', (search_succ hq).trans hs, hend⟩

/-- **Breadth-first search** in a finite part of a graph, begun with nothing visited, puts out what
is reachable, each vertex once, in the order of depth, with parents that are one step closer. -/
theorem search_layered (hsucc : ∀ u v, v ∈ succ u ↔ E u v) {U : Finset V}
    (hU : ∀ v, ReflTransGen E s v → v ∈ U) {visited : V → Bool}
    (hclear : ∀ v, ReflTransGen E s v → visited v = false) :
    ∃ time st', (∀ fuel ≥ time, search succ fuel (.start visited s) = some st') ∧
      Layered E s st'.out := by
  obtain ⟨st', hs, hinv, hq⟩ := exists_search hsucc hU (.start hclear) le_rfl
  exact ⟨_, st', fun fuel hfuel => search_mono hfuel hs, hinv.layered hq⟩

end BreadthFirst
