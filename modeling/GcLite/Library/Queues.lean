import GcLite.Library.Links

/-!
# Chains that grow at their end

A chain is extended at its end in constant time if the last cell is remembered beside the first
one. The cell that is added is taken from wherever it is: its own pointer is cleared, then the
pointer of the last cell is set to it, or it becomes the first.

Cells may be absent from the memory, and writing to an absent cell fails. A push writes to two
cells at most, the one that is added and the last one.

Two such chains can take up the cells of a third one, which is dealt out to them from its front.
A cell of it may also be released, once the walk has moved on.

## Main definitions

* `setNext` — write a pointer
* `Queue`, `Queue.push`
* `Queue.Holds next Q l` — the queue is the chain `l`
* `Dealing` — a chain that is being dealt out to two queues

## Main results

* `Queue.Holds.push` — one more cell at the end
* `Dealing.push`, `Dealing.swap`, `Dealing.release` — one turn of dealing out
-/

namespace Links

variable {α : Type*}

/-- Write to the pointer of a cell, which has to be there. -/
def setNext [DecidableEq α] (next : α → Option (Option α)) (a : α) (q : Option α) :
    Option (α → Option (Option α)) :=
  (next a).map fun _ => Function.update next a (some q)

/-- The first and the last cell of a chain. -/
structure Queue (α : Type*) where
  /-- The first cell. -/
  head : Option α
  /-- The last cell. -/
  tail : Option α
deriving DecidableEq, Repr

instance : EmptyCollection (Queue α) := ⟨⟨none, none⟩⟩

/-- Clear the pointer of a cell and append it to the chain. -/
def Queue.push [DecidableEq α] (Q : Queue α) (next : α → Option (Option α)) (a : α) :
    Option (Queue α × (α → Option (Option α))) := do
  let next ← setNext next a none
  match Q.tail with
  | some tail => return (⟨Q.head, some a⟩, ← setNext next tail (some a))
  | none => return (⟨some a, some a⟩, next)

variable {next : α → Option (Option α)} {p : Option α} {Q : Queue α} {l : List α} {a : α}

theorem setNext_eq [DecidableEq α] (ha : (next a).isSome) (q : Option α) :
    setNext next a q = some (Function.update next a (some q)) := by
  obtain ⟨r, hr⟩ := Option.isSome_iff_exists.mp ha
  rw [setNext, hr, Option.map_some]

/-- A chain does not need the cells that are not in it. -/
theorem Chain.release [DecidableEq α] (h : Chain next p l) (ha : a ∉ l) (c : Option (Option α)) :
    Chain (Function.update next a c) p l :=
  h.congr fun _ hb => Function.update_of_ne (ne_of_mem_of_not_mem hb ha) ..

/-- The queue is the chain `l`. -/
structure Queue.Holds (next : α → Option (Option α)) (Q : Queue α) (l : List α) : Prop where
  /-- The pointers lead through the list. -/
  chain : Chain next Q.head l
  /-- The last cell is the last of the list. -/
  tail : Q.tail = l.getLast?

namespace Queue.Holds

theorem empty : Holds next (∅ : Queue α) [] := ⟨rfl, rfl⟩

theorem congr {next' : α → Option (Option α)} (h : Holds next Q l)
    (heq : ∀ b ∈ l, next' b = next b) : Holds next' Q l := ⟨h.chain.congr heq, h.tail⟩

/-- **One more cell at the end.** No cell outside of the chain is written, apart from the one that
is added, and all cells that were there are still there. -/
theorem push [DecidableEq α] (h : Holds next Q l) (ha : (next a).isSome) (hnew : a ∉ l) :
    ∃ Q' next', Q.push next a = some (Q', next') ∧ Holds next' Q' (l ++ [a]) ∧
      (∀ b, b ∉ l → b ≠ a → next' b = next b) ∧ ∀ b, (next' b).isSome = (next b).isSome := by
  have hpresent : ∀ (next : α → Option (Option α)) (c : α) (q : Option α), (next c).isSome →
      ∀ b, (Function.update next c (some q) b).isSome = (next b).isSome := by
    intro next c q hc b
    by_cases hb : b = c
    · rw [hb, Function.update_self, hc, Option.isSome_some]
    · rw [Function.update_of_ne hb]
  have hcleared := h.chain.release hnew (some none)
  rcases l.eq_nil_or_concat' with rfl | ⟨init, t, rfl⟩
  · have htail : Q.tail = none := h.tail
    refine ⟨⟨some a, some a⟩, Function.update next a (some none), ?_, ⟨?_, rfl⟩, ?_,
      hpresent next a none ha⟩
    · simp [Queue.push, setNext_eq ha, htail]
    · exact ⟨rfl, none, Function.update_self .., rfl⟩
    · exact fun b _ hb => Function.update_of_ne hb ..
  · have htail : Q.tail = some t := h.tail.trans List.getLast?_concat
    have hta : t ≠ a := by
      rintro rfl
      exact hnew (by simp)
    have ht : (Function.update next a (some none) t).isSome := hcleared.isSome t (by simp)
    refine ⟨⟨Q.head, some a⟩,
      Function.update (Function.update next a (some none)) t (some (some a)),
      ?_, ⟨?_, List.getLast?_concat.symm⟩, ?_, ?_⟩
    · simp [Queue.push, setNext_eq ha, htail, setNext_eq ht]
    · refine segment_concat.mpr ⟨Segment.redirect hcleared (Function.update_self ..) ?_, ?_⟩
      · have hnodup : (init ++ [t]).Nodup := h.chain.nodup
        intro b hb
        refine Function.update_of_ne ?_ ..
        rintro rfl
        exact (List.nodup_append.mp hnodup).2.2 b hb b (by simp) rfl
      · rw [Function.update_of_ne hta.symm, Function.update_self]
    · intro b hb hba
      rw [Function.update_of_ne (by rintro rfl; exact hb (by simp)), Function.update_of_ne hba]
    · intro b
      rw [hpresent _ t _ ht, hpresent next a none ha]

end Queue.Holds

/-! ### Dealing out -/

/-- From the pointer `cur` on, the cells `rest` are still to be dealt out to the queues `P` and `Q`,
which have got the cells `ps` and `qs` so far. No cell is in two of these places. -/
structure Dealing (next : α → Option (Option α)) (cur : Option α) (rest : List α) (P : Queue α)
    (ps : List α) (Q : Queue α) (qs : List α) : Prop where
  /-- The cells of the rest are still chained. -/
  chain : Chain next cur rest
  /-- The first queue has got these. -/
  left : P.Holds next ps
  /-- The second has got those. -/
  right : Q.Holds next qs
  /-- No cell of the first is still to be dealt out. -/
  left_rest : ∀ b ∈ ps, b ∉ rest
  /-- No cell of the second is. -/
  right_rest : ∀ b ∈ qs, b ∉ rest
  /-- No cell has been dealt out twice. -/
  left_right : ∀ b ∈ ps, b ∉ qs

namespace Dealing

variable {cur current : Option α} {rest ps qs : List α} {P : Queue α}

theorem start (h : Chain next cur rest) : Dealing next cur rest ∅ [] ∅ [] :=
  ⟨h, .empty, .empty, List.forall_mem_nil _, List.forall_mem_nil _, List.forall_mem_nil _⟩

theorem swap (h : Dealing next cur rest P ps Q qs) : Dealing next cur rest Q qs P ps :=
  ⟨h.chain, h.right, h.left, h.right_rest, h.left_rest, fun b hq hp => h.left_right b hp hq⟩

/-- The first cell that is left is there and points to the next one. -/
theorem exists_next (h : Dealing next cur (a :: rest) P ps Q qs) :
    cur = some a ∧ ∃ current, next a = some current :=
  ⟨h.chain.1, h.chain.2.imp fun _ hr => hr.1⟩

/-- **The first cell goes to a queue.** -/
theorem push [DecidableEq α] (h : Dealing next cur (a :: rest) P ps Q qs)
    (ha : next a = some current) : ∃ P' next', P.push next a = some (P', next') ∧
      Dealing next' current rest P' (ps ++ [a]) Q qs ∧
      (∀ b, b ∉ ps → b ≠ a → next' b = next b) ∧ ∀ b, (next' b).isSome = (next b).isSome := by
  have hnew : a ∉ ps := fun hmem => h.left_rest a hmem List.mem_cons_self
  obtain ⟨hfresh, -⟩ := List.nodup_cons.mp h.chain.nodup
  obtain ⟨-, r, hr, htail⟩ := h.chain
  obtain rfl := Option.some.inj (ha.symm.trans hr)
  obtain ⟨P', next', hpush, hholds, hkeep, hsome⟩ := h.left.push (by rw [ha]; rfl) hnew
  refine ⟨P', next', hpush, ⟨htail.congr fun b hb => ?_, hholds, h.right.congr fun b hb => ?_, ?_,
    fun b hb hmem => h.right_rest b hb (List.mem_cons_of_mem _ hmem), ?_⟩, hkeep, hsome⟩
  · exact hkeep b (fun hmem => h.left_rest b hmem (List.mem_cons_of_mem _ hb))
      (ne_of_mem_of_not_mem hb hfresh)
  · refine hkeep b (fun hmem => h.left_right b hmem hb) ?_
    rintro rfl
    exact h.right_rest b hb List.mem_cons_self
  · intro b hb hmem
    rcases List.mem_append.mp hb with hb | hb
    · exact h.left_rest b hb (List.mem_cons_of_mem _ hmem)
    · exact hfresh (List.mem_singleton.mp hb ▸ hmem)
  · intro b hb hmem
    rcases List.mem_append.mp hb with hb | hb
    · exact h.left_right b hb hmem
    · exact h.right_rest b hmem (List.mem_singleton.mp hb ▸ List.mem_cons_self)

/-- **The first cell is released.** -/
theorem release [DecidableEq α] (h : Dealing next cur (a :: rest) P ps Q qs)
    (ha : next a = some current) :
    Dealing (Function.update next a none) current rest P ps Q qs := by
  obtain ⟨hfresh, -⟩ := List.nodup_cons.mp h.chain.nodup
  obtain ⟨-, r, hr, htail⟩ := h.chain
  obtain rfl := Option.some.inj (ha.symm.trans hr)
  have hkeep : ∀ l : List α, a ∉ l → ∀ b ∈ l, Function.update next a none b = next b :=
    fun l hl b hb => Function.update_of_ne (ne_of_mem_of_not_mem hb hl) ..
  exact ⟨htail.congr (hkeep _ hfresh),
    h.left.congr (hkeep _ fun hmem => h.left_rest a hmem List.mem_cons_self),
    h.right.congr (hkeep _ fun hmem => h.right_rest a hmem List.mem_cons_self),
    fun b hb hmem => h.left_rest b hb (List.mem_cons_of_mem _ hmem),
    fun b hb hmem => h.right_rest b hb (List.mem_cons_of_mem _ hmem), h.left_right⟩

end Dealing

end Links
