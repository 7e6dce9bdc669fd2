import GcLite.Heap
import GcLite.Library.Buckets
import GcLite.Library.Links

/-!
# The chain of nodes, pointer by pointer

Everywhere else the chain of a partition is a list. Here it is what it is in memory: a pointer to a
header, whose `next` points to another one. Headers can be freed, and reading or writing a header
that is not there ends the program; so that a walk which ends well has touched live headers only.

`filter_remove_with` takes nodes out of the chain while it walks along it, and the node taken out
may be gone before the walk goes on. It keeps the last node it has left in the chain, or none, and
redirects that node's pointer, or the head of the chain.

## Main definitions

* `LinkedHead`, `HeadMemory` — headers with their `next`, and the memory they are in
* `GcNodeLink`, `GcNodeLink.prepend`, `GcNodeLink.iter`
* `filterRemoveLoop`, `GcNodeLink.filterRemoveWith`
* `LeavesOthers` — what `remove_fn` has to leave alone
* `FilterState.Inv` — the invariant of the loop

## Main results

* `Inv.keep`, `Inv.unlink`, `Inv.remove` — what one turn of the loop does
* `filterRemoveWith_refines` — the walk over pointers is the pass over a list
* `filterRemoveWith_exact`
-/

namespace GcLite

open Links

/-! ### Headers in memory -/

/-- A header with the pointer to the next node of its chain. -/
structure LinkedHead extends GcHead where
  /-- The node after this one. -/
  next : Option NodePtr
deriving DecidableEq, Repr, Inhabited

/-- A memory of headers, with `none` where there is none. -/
abbrev HeadMemory := NodePtr → Option LinkedHead

namespace HeadMemory

/-- The pointers of the memory. -/
def next (mem : HeadMemory) (n : NodePtr) : Option (Option NodePtr) := (mem n).map LinkedHead.next

/-- Write to the `next` of a header, which has to be there. -/
def setNext (mem : HeadMemory) (n : NodePtr) (q : Option NodePtr) : Option HeadMemory :=
  (mem n).map fun hd => Function.update mem n (some { hd with next := q })

/-- The answer of a predicate about a header, if it is there. -/
def verdict (predicate : NodePtr → LinkedHead → Bool) (mem : HeadMemory) (n : NodePtr) : Bool :=
  (mem n).any (predicate n)

theorem exists_of_next {mem : HeadMemory} {n : NodePtr} {q : Option NodePtr}
    (hn : mem.next n = some q) : ∃ hd, mem n = some hd ∧ hd.next = q :=
  Option.map_eq_some_iff.mp hn

theorem next_congr {mem mem' : HeadMemory} {n : NodePtr} (hn : mem' n = mem n) :
    mem'.next n = mem.next n := by
  rw [next, next, hn]

theorem setNext_eq {mem : HeadMemory} {n : NodePtr} (hn : (mem.next n).isSome)
    (q : Option NodePtr) : ∃ mem', mem.setNext n q = some mem' ∧ mem'.next n = some q ∧
      ∀ m ≠ n, mem' m = mem m := by
  obtain ⟨r, hr⟩ := Option.isSome_iff_exists.mp hn
  obtain ⟨hd, hhd, -⟩ := exists_of_next hr
  refine ⟨Function.update mem n (some { hd with next := q }), by rw [setNext, hhd]; rfl, ?_, ?_⟩
  · rw [next, Function.update_self]
    rfl
  · exact fun m hm => Function.update_of_ne hm _ _

end HeadMemory

/-- A chain of nodes: the pointer to its first one. -/
structure GcNodeLink where
  /-- The first node. -/
  linkHead : Option NodePtr
deriving DecidableEq, Repr

namespace GcNodeLink

/-- Prepend a node to the chain. -/
def prepend (link : GcNodeLink) (mem : HeadMemory) (node : NodePtr) :
    Option (GcNodeLink × HeadMemory) :=
  (mem.setNext node link.linkHead).map fun mem => (⟨some node⟩, mem)

/-- The nodes that the iterator finds along the chain. -/
def iter (link : GcNodeLink) (mem : HeadMemory) (fuel : ℕ) : Option (List NodePtr) :=
  walk mem.next fuel link.linkHead

theorem iter_of_chain {link : GcNodeLink} {mem : HeadMemory} {l : List NodePtr} {fuel : ℕ}
    (hchain : Chain mem.next link.linkHead l) (hfuel : l.length ≤ fuel) :
    link.iter mem fuel = some l :=
  walk_eq_some_iff.mpr ⟨hchain, hfuel⟩

/-- A node that is not in the chain becomes its first. -/
theorem chain_prepend {link : GcNodeLink} {mem : HeadMemory} {node : NodePtr} {l : List NodePtr}
    (hchain : Chain mem.next link.linkHead l) (hnode : (mem.next node).isSome) (hnew : node ∉ l) :
    ∃ link' mem', link.prepend mem node = some (link', mem') ∧
      Chain mem'.next link'.linkHead (node :: l) := by
  obtain ⟨mem', hset, hnext, hother⟩ := HeadMemory.setNext_eq hnode link.linkHead
  refine ⟨⟨some node⟩, mem', by rw [prepend, hset]; rfl, rfl, link.linkHead, hnext, ?_⟩
  exact hchain.congr fun m hm => HeadMemory.next_congr (hother m (ne_of_mem_of_not_mem hm hnew))

end GcNodeLink

/-! ### Filtering in place -/

section Filter

variable {σ : Type}

/-- The state of the walk. `env` is what the closure `remove_fn` holds on to, and `calls` records
the nodes it has been called with. -/
structure FilterState (σ : Type) where
  /-- The chain, without the nodes removed so far. -/
  link : GcNodeLink
  /-- The headers. -/
  mem : HeadMemory
  /-- The state of the closure. -/
  env : σ
  /-- The nodes removed so far, in order. -/
  calls : List NodePtr

namespace FilterState

/-- Lead the pointer to the current node past it: that of the last node left in the chain, or else
the head of the chain. -/
def unlink (s : FilterState σ) (prev next : Option NodePtr) : Option (FilterState σ) :=
  match prev with
  | some prevNode => (s.mem.setNext prevNode next).map fun mem => { s with mem := mem }
  | none => some { s with link := ⟨next⟩ }

theorem unlink_frame {s s' : FilterState σ} {prev next : Option NodePtr}
    (hunlink : s.unlink prev next = some s') :
    ∃ link mem, s' = { s with link := link, mem := mem } := by
  cases prev with
  | none => exact ⟨⟨next⟩, s.mem, (Option.some.inj hunlink).symm⟩
  | some p =>
    obtain ⟨mem, -, rfl⟩ := Option.map_eq_some_iff.mp hunlink
    exact ⟨s.link, mem, rfl⟩

/-- Call `remove_fn`. -/
def remove (removeFn : NodePtr → σ × HeadMemory → σ × HeadMemory) (s : FilterState σ)
    (node : NodePtr) : FilterState σ :=
  let (env, mem) := removeFn node (s.env, s.mem)
  { s with mem := mem, env := env, calls := s.calls ++ [node] }

end FilterState

/-- The loop of `filter_remove_with`; `none` if it runs out of fuel or touches a header that is not
there. -/
def filterRemoveLoop (predicate : NodePtr → LinkedHead → Bool)
    (removeFn : NodePtr → σ × HeadMemory → σ × HeadMemory) :
    ℕ → Option NodePtr → Option NodePtr → FilterState σ → Option (FilterState σ)
  | _, none, _, s => some s
  | 0, some _, _, _ => none
  | fuel + 1, some node, prev, s => do
    let nodeRef ← s.mem node
    if predicate node nodeRef then
      let next := nodeRef.next
      let s ← s.unlink prev next
      filterRemoveLoop predicate removeFn fuel next prev (s.remove removeFn node)
    else filterRemoveLoop predicate removeFn fuel nodeRef.next (some node) s

/-- `GcNodeLink::filter_remove_with`. -/
def GcNodeLink.filterRemoveWith (link : GcNodeLink) (predicate : NodePtr → LinkedHead → Bool)
    (removeFn : NodePtr → σ × HeadMemory → σ × HeadMemory) (fuel : ℕ) (mem : HeadMemory) (env : σ) :
    Option (FilterState σ) :=
  filterRemoveLoop predicate removeFn fuel link.linkHead none ⟨link, mem, env, []⟩

/-- `remove_fn` may do with the header it is called for whatever it likes. Of every other header it
leaves alone the pointer and all that the predicate looks at. -/
structure LeavesOthers (predicate : NodePtr → LinkedHead → Bool)
    (removeFn : NodePtr → σ × HeadMemory → σ × HeadMemory) : Prop where
  /-- The pointers of other headers stay. -/
  next : ∀ n env (mem : HeadMemory), ∀ m ≠ n, (removeFn n (env, mem)).2.next m = mem.next m
  /-- So does what the predicate says of them. -/
  verdict : ∀ n env (mem : HeadMemory), ∀ m ≠ n,
    (removeFn n (env, mem)).2.verdict predicate m = mem.verdict predicate m

/-! ### The invariant of the loop -/

variable {predicate : NodePtr → LinkedHead → Bool}
  {removeFn : NodePtr → σ × HeadMemory → σ × HeadMemory}

/-- The nodes kept so far lead from the head of the chain to the current node, from which the nodes
not yet looked at lead to the end. -/
structure FilterState.Inv (s : FilterState σ) (kept : List NodePtr) (current : Option NodePtr)
    (rest : List NodePtr) : Prop where
  /-- The nodes kept lead to the current one. -/
  kept : Segment s.mem.next s.link.linkHead kept current
  /-- The others follow. -/
  rest : Chain s.mem.next current rest

namespace FilterState.Inv

variable {s : FilterState σ} {kept rest : List NodePtr} {current : Option NodePtr} {n : NodePtr}
  {hd : LinkedHead}

theorem chain (hinv : s.Inv kept current rest) :
    Chain s.mem.next s.link.linkHead (kept ++ rest) :=
  segment_append.mpr ⟨current, hinv.kept, hinv.rest⟩

theorem current_eq (hinv : s.Inv kept current (n :: rest)) :
    current = some n ∧ ∃ hd, s.mem n = some hd ∧ Chain s.mem.next hd.next rest := by
  obtain ⟨hcurrent, q, hq, hrest⟩ := hinv.rest
  obtain ⟨hd, hhd, rfl⟩ := HeadMemory.exists_of_next hq
  exact ⟨hcurrent, hd, hhd, hrest⟩

/-- The current node is kept. -/
theorem keep (hinv : s.Inv kept (some n) (n :: rest)) (hhd : s.mem n = some hd) :
    s.Inv (kept ++ [n]) hd.next rest := by
  have hnext : s.mem.next n = some hd.next := by rw [HeadMemory.next, hhd, Option.map_some]
  obtain ⟨-, q, hq, hrest⟩ := hinv.rest
  obtain rfl := Option.some.inj (hnext.symm.trans hq)
  exact ⟨segment_concat.mpr ⟨hinv.kept, hnext⟩, hrest⟩

/-- The pointer to the current node leads past it. Of the nodes not yet looked at, nothing is
written. -/
theorem unlink (hinv : s.Inv kept (some n) (n :: rest)) (hhd : s.mem n = some hd) :
    ∃ link mem, s.unlink kept.getLast? hd.next = some { s with link := link, mem := mem } ∧
      FilterState.Inv { s with link := link, mem := mem } kept hd.next rest ∧
      ∀ m ∈ rest, mem m = s.mem m := by
  have hnodup : (kept ++ n :: rest).Nodup := hinv.chain.nodup
  have hrest : Chain s.mem.next hd.next rest := (hinv.keep hhd).rest
  rcases kept.eq_nil_or_concat' with rfl | ⟨init, p, rfl⟩
  · exact ⟨⟨hd.next⟩, s.mem, rfl, ⟨rfl, hrest⟩, fun _ _ => rfl⟩
  · have hp : s.mem.next p = some (some n) := (segment_concat.mp hinv.kept).2
    obtain ⟨mem, hset, hnext, hother⟩ := HeadMemory.setNext_eq (by rw [hp]; rfl) hd.next
    rw [List.append_assoc, List.nodup_append] at hnodup
    obtain ⟨-, hnodup, hinit⟩ := hnodup
    have hinit' : ∀ m ∈ init, mem m = s.mem m := fun m hm =>
      hother m (hinit m hm p List.mem_cons_self)
    have hrest' : ∀ m ∈ rest, mem m = s.mem m := fun m hm => hother m <| by
      rintro rfl
      exact (List.nodup_cons.mp hnodup).1 (List.mem_cons_of_mem _ hm)
    refine ⟨s.link, mem, ?_, ⟨?_, ?_⟩, hrest'⟩
    · rw [List.getLast?_concat, FilterState.unlink, hset, Option.map_some]
    · exact hinv.kept.redirect hnext fun m hm => HeadMemory.next_congr (hinit' m hm)
    · exact hrest.congr fun m hm => HeadMemory.next_congr (hrest' m hm)

/-- The node has been taken out of the chain, so that its header may go. -/
theorem remove (hinv : s.Inv kept current rest) (hleaves : LeavesOthers predicate removeFn)
    (hkept : n ∉ kept) (hrest : n ∉ rest) : (s.remove removeFn n).Inv kept current rest where
  kept := hinv.kept.congr fun m hm => hleaves.next n _ _ m (ne_of_mem_of_not_mem hm hkept)
  rest := hinv.rest.congr fun m hm => hleaves.next n _ _ m (ne_of_mem_of_not_mem hm hrest)

end FilterState.Inv

section Turn

variable {fuel : ℕ} {prev : Option NodePtr} {s s₁ : FilterState σ} {n : NodePtr} {hd : LinkedHead}

theorem filterRemoveLoop_remove (hhd : s.mem n = some hd) (hpred : predicate n hd = true)
    (hunlink : s.unlink prev hd.next = some s₁) :
    filterRemoveLoop predicate removeFn (fuel + 1) (some n) prev s =
      filterRemoveLoop predicate removeFn fuel hd.next prev (s₁.remove removeFn n) := by
  simp only [filterRemoveLoop, hhd, hpred, hunlink, Option.bind_eq_bind, Option.bind_some, if_true]

theorem filterRemoveLoop_keep (hhd : s.mem n = some hd) (hpred : predicate n hd = false) :
    filterRemoveLoop predicate removeFn (fuel + 1) (some n) prev s =
      filterRemoveLoop predicate removeFn fuel hd.next (some n) s := by
  simp [filterRemoveLoop, hhd, hpred]

end Turn

/-- **The loop.** From any turn on, the nodes not yet looked at are kept or removed by what the
predicate says of them now. -/
theorem filterRemoveLoop_spec (hleaves : LeavesOthers predicate removeFn) {fuel : ℕ}
    {s : FilterState σ} {kept rest : List NodePtr} {current : Option NodePtr}
    (hfuel : rest.length ≤ fuel) (hinv : s.Inv kept current rest) :
    ∃ s', filterRemoveLoop predicate removeFn fuel current kept.getLast? s = some s' ∧
      Chain s'.mem.next s'.link.linkHead
        (kept ++ rest.filter fun n => !s.mem.verdict predicate n) ∧
      s'.calls = s.calls ++ rest.filter (s.mem.verdict predicate) := by
  induction rest generalizing fuel s kept current with
  | nil =>
    obtain rfl : current = none := hinv.rest
    exact ⟨s, by cases fuel <;> rfl, by simpa using hinv.chain, by simp⟩
  | cons n rest ih =>
    obtain ⟨rfl, hd, hhd, -⟩ := hinv.current_eq
    obtain ⟨fuel, rfl⟩ : ∃ k, fuel = k + 1 :=
      Nat.exists_eq_add_of_le' ((Nat.succ_le_succ (Nat.zero_le _)).trans hfuel)
    have hfuel' : rest.length ≤ fuel := Nat.le_of_succ_le_succ hfuel
    have hverdict : s.mem.verdict predicate n = predicate n hd := by
      rw [HeadMemory.verdict, hhd, Option.any_some]
    cases hpred : predicate n hd with
    | true =>
      obtain ⟨link, mem, hunlink, hinv', hsame⟩ := hinv.unlink hhd
      obtain ⟨-, hnodup, hapart⟩ := List.nodup_append.mp hinv.chain.nodup
      have hkept : n ∉ kept := fun hmem => hapart n hmem n List.mem_cons_self rfl
      have hrest : n ∉ rest := (List.nodup_cons.mp hnodup).1
      obtain ⟨s', hloop, hchain, hcalls⟩ := ih hfuel' (hinv'.remove hleaves hkept hrest)
      -- Neither the unlinking nor the removal changes what the predicate says of the other nodes.
      have hlater : ∀ m ∈ rest, (FilterState.remove removeFn
          { s with link := link, mem := mem } n).mem.verdict predicate m =
            s.mem.verdict predicate m := by
        intro m hm
        have hverdict' : mem.verdict predicate m = s.mem.verdict predicate m := by
          rw [HeadMemory.verdict, HeadMemory.verdict, hsame m hm]
        exact (hleaves.verdict n s.env mem m (ne_of_mem_of_not_mem hm hrest)).trans hverdict'
      refine ⟨s', (filterRemoveLoop_remove hhd hpred hunlink).trans hloop, ?_, ?_⟩
      · rw [List.filter_cons_of_neg (by simp [hverdict, hpred])]
        rwa [List.filter_congr fun m hm => congrArg (!·) (hlater m hm)] at hchain
      · rw [List.filter_cons_of_pos (by rw [hverdict, hpred]), hcalls, List.filter_congr hlater]
        simp [FilterState.remove]
    | false =>
      obtain ⟨s', hloop, hchain, hcalls⟩ := ih hfuel' (hinv.keep hhd)
      rw [List.getLast?_concat] at hloop
      refine ⟨s', (filterRemoveLoop_keep hhd hpred).trans hloop, ?_, ?_⟩
      · simpa [hverdict, hpred] using hchain
      · simpa [hverdict, hpred] using hcalls

/-- If what `remove_fn` does to its environment does not depend on the memory, the walk folds it
over the nodes it is called with. -/
theorem env_filterRemoveLoop {remove : σ → NodePtr → σ}
    (hremove : ∀ n env mem, (removeFn n (env, mem)).1 = remove env n) {env₀ : σ} {fuel : ℕ}
    {current prev : Option NodePtr} {s s' : FilterState σ}
    (henv : s.env = s.calls.foldl remove env₀)
    (hloop : filterRemoveLoop predicate removeFn fuel current prev s = some s') :
    s'.env = s'.calls.foldl remove env₀ := by
  induction fuel generalizing current prev s with
  | zero =>
    cases current with
    | none => exact Option.some.inj hloop ▸ henv
    | some n => cases hloop
  | succ fuel ih =>
    cases current with
    | none => exact Option.some.inj hloop ▸ henv
    | some n =>
      obtain ⟨hd, hhd, hloop⟩ := Option.bind_eq_some_iff.mp hloop
      cases hpred : predicate n hd with
      | true =>
        rw [if_pos hpred] at hloop
        obtain ⟨s₁, hunlink, hloop⟩ := Option.bind_eq_some_iff.mp hloop
        refine ih ?_ hloop
        obtain ⟨link, mem, rfl⟩ := s.unlink_frame hunlink
        simp [FilterState.remove, hremove, henv]
      | false =>
        rw [if_neg (by simp [hpred])] at hloop
        exact ih henv hloop

end Filter

section Exact

variable {σ : Type} {predicate : NodePtr → LinkedHead → Bool}
  {removeFn : NodePtr → σ × HeadMemory → σ × HeadMemory} {link : GcNodeLink} {mem : HeadMemory}
  {l : List NodePtr} {fuel : ℕ}

theorem filterRemoveWith_spec (hleaves : LeavesOthers predicate removeFn)
    (hchain : Chain mem.next link.linkHead l) (hfuel : l.length ≤ fuel) (env : σ) :
    ∃ s, link.filterRemoveWith predicate removeFn fuel mem env = some s ∧
      Chain s.mem.next s.link.linkHead (l.filter fun n => !mem.verdict predicate n) ∧
      s.calls = l.filter (mem.verdict predicate) := by
  have hinv : (⟨link, mem, env, []⟩ : FilterState σ).Inv [] link.linkHead l := ⟨rfl, hchain⟩
  exact filterRemoveLoop_spec hleaves hfuel hinv

/-- **The walk over pointers is the pass over a list**, if what `remove_fn` does to its environment
does not depend on the memory. -/
theorem filterRemoveWith_refines {remove : σ → NodePtr → σ}
    (hremove : ∀ n env mem, (removeFn n (env, mem)).1 = remove env n)
    (hleaves : LeavesOthers predicate removeFn) (hchain : Chain mem.next link.linkHead l)
    (hfuel : l.length ≤ fuel) (env : σ) :
    ∃ s kept, link.filterRemoveWith predicate removeFn fuel mem env = some s ∧
      filterRemoveWith (fun _ => mem.verdict predicate) remove env l = (s.env, kept) ∧
      Chain s.mem.next s.link.linkHead kept := by
  obtain ⟨s, hloop, hkept, hcalls⟩ := filterRemoveWith_spec hleaves hchain hfuel env
  have henv : s.env = s.calls.foldl remove env := env_filterRemoveLoop hremove rfl hloop
  refine ⟨s, _, hloop, ?_, hkept⟩
  rw [henv, hcalls]
  exact @filterRemoveWith_eq _ _ remove _ (fun _ _ => rfl) l env

end Exact

end GcLite
