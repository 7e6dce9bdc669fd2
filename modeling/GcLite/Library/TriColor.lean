import Mathlib.Data.Set.Insert
import Mathlib.Logic.Relation

/-!
# Tri-colour marking over an arbitrary graph

A marking snapshot splits the vertices of a graph into black, gray and white. One step takes a gray
vertex, shades its white successors gray and makes it black. When no gray vertex is left, the black
vertices are exactly those reachable from what was marked at the start, provided the start had no
edge from a black vertex to a white one.

The graph is a relation `E` on a type `V` with no finiteness assumed: termination is a matter for
the marker that takes the steps, not for what a finished run means.

## Main definitions

* `Marking V` — the gray and the black vertices; the rest are white
* `Marking.Closed E s` — no edge leads from a black vertex to a white one
* `Step E s t` — one gray vertex is traced
* `reach E S` — the vertices reachable from `S`

## Main results

* `Step.closed`, `Steps.closed` — tracing keeps the marking closed
* `Steps.reach_marked` — tracing does not change what is reachable from the marked vertices
* `Steps.black_eq_reach` — a finished run has blackened exactly the reachable vertices
-/

namespace TriColor

open Relation

variable {V : Type*} {E : V → V → Prop}

/-- A snapshot of a marking: a vertex in neither set is white. -/
structure Marking (V : Type*) where
  /-- Found, but its successors may still be white. -/
  gray : Set V
  /-- Traced. -/
  black : Set V

/-- The vertices that are not white. -/
def Marking.marked (s : Marking V) : Set V := s.gray ∪ s.black

/-- No edge from a black vertex to a white one. -/
def Marking.Closed (E : V → V → Prop) (s : Marking V) : Prop :=
  ∀ v ∈ s.black, ∀ w, E v w → w ∈ s.marked

/-- The vertices reachable from a set. -/
def reach (E : V → V → Prop) (S : Set V) : Set V := {w | ∃ v ∈ S, ReflTransGen E v w}

theorem subset_reach (S : Set V) : S ⊆ reach E S := fun v hv => ⟨v, hv, .refl⟩

theorem reach_mono {S T : Set V} (h : S ⊆ T) : reach E S ⊆ reach E T :=
  fun _ ⟨v, hv, hvw⟩ => ⟨v, h hv, hvw⟩

/-- A set closed under edges already contains everything reachable from it. -/
theorem reach_subset_of_closed {S : Set V} (h : ∀ v ∈ S, ∀ w, E v w → w ∈ S) : reach E S ⊆ S := by
  rintro w ⟨v, hv, hvw⟩
  induction hvw with
  | refl => exact hv
  | tail _ hab ih => exact h _ ih _ hab

theorem reach_subset_reach {S T : Set V} (h : S ⊆ reach E T) : reach E S ⊆ reach E T := by
  rintro w ⟨v, hv, hvw⟩
  obtain ⟨u, hu, huv⟩ := h hv
  exact ⟨u, hu, huv.trans hvw⟩

/-- Trace one gray vertex: its white successors become gray, it becomes black. The vertex may be
its own successor, in which case it is black all the same. -/
inductive Step (E : V → V → Prop) : Marking V → Marking V → Prop
  | trace {s : Marking V} {v : V} (hv : v ∈ s.gray) :
      Step E s ⟨(s.gray ∪ {w | E v w ∧ w ∉ s.black}) \ {v}, insert v s.black⟩

/-- Any number of steps. -/
abbrev Steps (E : V → V → Prop) : Marking V → Marking V → Prop := ReflTransGen (Step E)

theorem Step.marked_subset {s t : Marking V} (h : Step E s t) : s.marked ⊆ t.marked := by
  cases h with
  | @trace v hv =>
    rintro w (hw | hw)
    · by_cases hwv : w = v
      · exact .inr (.inl hwv)
      · exact .inl ⟨.inl hw, hwv⟩
    · exact .inr (.inr hw)

/-- **The tri-colour invariant.** Tracing never leaves a black vertex with a white successor. -/
theorem Step.closed {s t : Marking V} (h : Step E s t) (hs : s.Closed E) : t.Closed E := by
  have hsub := h.marked_subset
  cases h with
  | @trace v hv =>
    rintro u (rfl | hu) w huw
    · by_cases hb : w ∈ s.black
      · exact .inr (.inr hb)
      · by_cases hwu : w = u
        · exact .inr (.inl hwu)
        · exact .inl ⟨.inr ⟨huw, hb⟩, hwu⟩
    · exact hsub (hs u hu w huw)

theorem Step.marked_subset_reach {s t : Marking V} (h : Step E s t) :
    t.marked ⊆ reach E s.marked := by
  cases h with
  | @trace v hv =>
    rintro w (⟨hw | ⟨hvw, _⟩, _⟩ | rfl | hw)
    · exact subset_reach _ (.inl hw)
    · exact ⟨v, .inl hv, .single hvw⟩
    · exact subset_reach _ (.inl hv)
    · exact subset_reach _ (.inr hw)

theorem Steps.closed {s t : Marking V} (h : Steps E s t) (hs : s.Closed E) : t.Closed E := by
  induction h with
  | refl => exact hs
  | tail _ hst ih => exact hst.closed ih

theorem Steps.marked_subset {s t : Marking V} (h : Steps E s t) : s.marked ⊆ t.marked := by
  induction h with
  | refl => exact subset_rfl
  | tail _ hst ih => exact ih.trans hst.marked_subset

theorem Steps.marked_subset_reach {s t : Marking V} (h : Steps E s t) :
    t.marked ⊆ reach E s.marked := by
  induction h with
  | refl => exact subset_reach _
  | tail _ hst ih => exact hst.marked_subset_reach.trans (reach_subset_reach ih)

/-- Tracing neither loses nor invents anything reachable from the marked vertices. -/
theorem Steps.reach_marked {s t : Marking V} (h : Steps E s t) :
    reach E t.marked = reach E s.marked :=
  Set.Subset.antisymm (reach_subset_reach h.marked_subset_reach) (reach_mono h.marked_subset)

/-- **Exactness.** Once no gray vertex is left, the black vertices are the ones reachable from what
was marked at the start. -/
theorem Steps.black_eq_reach {s t : Marking V} (h : Steps E s t) (hs : s.Closed E)
    (hdone : t.gray = ∅) : t.black = reach E s.marked := by
  have hmarked : t.marked = t.black := by simp [Marking.marked, hdone]
  have hclosed : reach E t.black ⊆ t.black :=
    reach_subset_of_closed fun v hv w hvw => hmarked ▸ h.closed hs v hv w hvw
  rw [← h.reach_marked, hmarked]
  exact Set.Subset.antisymm (subset_reach _) hclosed

end TriColor
