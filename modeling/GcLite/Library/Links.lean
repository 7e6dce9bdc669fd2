import Mathlib.Data.List.Basic
import Mathlib.Tactic.Common

/-!
# Chains of pointers

Cells in a memory, each of which may point to a next one. The memory is only looked at through
`next`: `next a = none` if there is no cell at `a`, and `next a = some q` if there is one that
points to `q`, where `q = none` is the null pointer.

A chain is a finite list of cells, so that a list that runs into itself is not one. No two cells of
a chain are the same; this follows and need not be asked for.

## Main definitions

* `Segment next p l q` — following the pointers from `p` visits the cells `l` and arrives at `q`
* `Chain next p l` — the same up to the null pointer
* `walk` — follow the pointers and collect the cells

## Main results

* `segment_append` — a segment can be cut anywhere
* `Segment.congr`, `Segment.redirect` — writing to other cells, and to the last one
* `Chain.unique`, `Chain.nodup`
* `walk_eq_some_iff` — a walk that ends has followed a chain
-/

namespace Links

variable {α : Type*} {next next' : α → Option (Option α)} {p q r : Option α} {l l' : List α} {a : α}

/-- Following the pointers from the first one visits the cells of the list and arrives at the
second one. -/
def Segment (next : α → Option (Option α)) : Option α → List α → Option α → Prop
  | p, [], q => p = q
  | p, a :: l, q => p = some a ∧ ∃ r, next a = some r ∧ Segment next r l q

/-- A segment that ends with the null pointer. -/
def Chain (next : α → Option (Option α)) (p : Option α) (l : List α) : Prop := Segment next p l none

theorem segment_append :
    Segment next p (l ++ l') q ↔ ∃ r, Segment next p l r ∧ Segment next r l' q := by
  induction l generalizing p with
  | nil =>
    constructor
    · exact fun h => ⟨p, rfl, h⟩
    · rintro ⟨r, rfl, h⟩
      exact h
  | cons a l ih =>
    simp only [List.cons_append, Segment, ih]
    constructor
    · rintro ⟨hp, r, ha, s, hl, hl'⟩
      exact ⟨s, ⟨hp, r, ha, hl⟩, hl'⟩
    · rintro ⟨s, ⟨hp, r, ha, hl⟩, hl'⟩
      exact ⟨hp, r, ha, s, hl, hl'⟩

theorem segment_concat :
    Segment next p (l ++ [a]) q ↔ Segment next p l (some a) ∧ next a = some q := by
  rw [segment_append]
  constructor
  · rintro ⟨r, hl, rfl, s, ha, rfl⟩
    exact ⟨hl, ha⟩
  · rintro ⟨hl, ha⟩
    exact ⟨some a, hl, rfl, q, ha, rfl⟩

/-- Only the cells of the segment matter. -/
theorem Segment.congr (h : Segment next p l q) (heq : ∀ a ∈ l, next' a = next a) :
    Segment next' p l q := by
  induction l generalizing p with
  | nil => exact h
  | cons a l ih =>
    obtain ⟨hp, r, ha, hl⟩ := h
    exact ⟨hp, r, (heq a List.mem_cons_self).trans ha,
      ih hl fun b hb => heq b (List.mem_cons_of_mem _ hb)⟩

/-- Writing a pointer to the last cell leads the segment somewhere else. -/
theorem Segment.redirect (h : Segment next p (l ++ [a]) q) (hlast : next' a = some r)
    (heq : ∀ b ∈ l, next' b = next b) : Segment next' p (l ++ [a]) r :=
  segment_concat.mpr ⟨(segment_concat.mp h).1.congr heq, hlast⟩

theorem Chain.head_eq (h : Chain next p l) : p = l.head? := by
  cases l with
  | nil => exact h
  | cons a l => exact h.1

/-- The cells of a chain are there. -/
theorem Chain.isSome (h : Chain next p l) : ∀ a ∈ l, (next a).isSome := by
  induction l generalizing p with
  | nil => exact List.forall_mem_nil _
  | cons a l ih =>
    obtain ⟨-, r, ha, hl⟩ := h
    exact List.forall_mem_cons.mpr ⟨by rw [ha]; rfl, ih hl⟩

/-- There is only one chain from a pointer. -/
theorem Chain.unique (h : Chain next p l) (h' : Chain next p l') : l = l' := by
  induction l generalizing p l' with
  | nil =>
    cases l' with
    | nil => rfl
    | cons b l' =>
      obtain rfl : p = none := h
      cases h'.1
  | cons a l ih =>
    obtain ⟨rfl, r, ha, hl⟩ := h
    cases l' with
    | nil => cases h'
    | cons b l' =>
      obtain ⟨heq, r', hb, hl'⟩ := h'
      obtain rfl := Option.some.inj heq
      obtain rfl := Option.some.inj (ha.symm.trans hb)
      rw [ih hl hl']

/-- A cell that came twice would start two chains of different lengths. -/
theorem Chain.nodup (h : Chain next p l) : l.Nodup := by
  induction l generalizing p with
  | nil => exact .nil
  | cons a l ih =>
    obtain ⟨rfl, r, ha, hl⟩ := h
    refine List.nodup_cons.mpr ⟨fun hmem => ?_, ih hl⟩
    obtain ⟨pre, post, rfl⟩ := List.append_of_mem hmem
    obtain ⟨s, -, hs⟩ := segment_append.mp hl
    obtain rfl : s = some a := hs.1
    have hlong : Chain next (some a) (a :: (pre ++ a :: post)) := ⟨rfl, r, ha, hl⟩
    have hlength := congrArg List.length (hlong.unique hs)
    simp only [List.length_cons, List.length_append] at hlength
    omega

/-! ### Walking -/

/-- Follow the pointers and collect the cells; `none` if a pointer leads nowhere or if there are
more cells than fuel. -/
def walk (next : α → Option (Option α)) : ℕ → Option α → Option (List α)
  | _, none => some []
  | 0, some _ => none
  | fuel + 1, some a => do
    let q ← next a
    let rest ← walk next fuel q
    return a :: rest

/-- A walk that ends has followed a chain, and every chain is walked to its end. -/
theorem walk_eq_some_iff {fuel : ℕ} :
    walk next fuel p = some l ↔ Chain next p l ∧ l.length ≤ fuel := by
  induction fuel generalizing p l with
  | zero =>
    cases p <;> cases l <;> simp [walk, Chain, Segment]
  | succ fuel ih =>
    cases p with
    | none => cases l <;> simp [walk, Chain, Segment]
    | some b =>
      simp only [walk, Option.bind_eq_bind, Option.bind_eq_some_iff, ih, Option.pure_def,
        Option.some.injEq]
      constructor
      · rintro ⟨q, hq, rest, ⟨hrest, hfuel⟩, rfl⟩
        exact ⟨⟨rfl, q, hq, hrest⟩, Nat.succ_le_succ hfuel⟩
      · rintro ⟨hchain, hfuel⟩
        cases l with
        | nil => cases hchain
        | cons a l =>
          obtain ⟨heq, q, hq, hrest⟩ := hchain
          obtain rfl := Option.some.inj heq
          exact ⟨q, hq, l, ⟨hrest, Nat.le_of_succ_le_succ hfuel⟩, rfl⟩

end Links
