import Mathlib.Data.List.Nodup
import Mathlib.Data.Set.Insert
import Mathlib.Tactic.Common

/-!
# Visitors that gather a set

A visitor is a function that may fail and that puts things on a list in its state, each of them
once. What is said of one is which set it adds, whatever is there already. So visitors compose: one
after the other they add the union.

Nothing here fixes the state or how the things are found.

## Main definitions

* `Adds seen S s t` — from `s` to `t` the list has grown by the set `S`, and without repetition
* `Gathers seen f S` — `f` succeeds in every state, and adds `S`

## Main results

* `Gathers.bind` — one visitor after the other
* `Gathers.foldlM` — a visitor for each element of a list
-/

namespace Gather

variable {σ α β : Type*} {seen : σ → List α} {S T : Set α} {s t u : σ} {f g : σ → Option σ}

/-- The list has grown by the set, without repetition. -/
structure Adds (seen : σ → List α) (S : Set α) (s t : σ) : Prop where
  /-- It has the old elements and those of the set. -/
  mem : ∀ a, a ∈ seen t ↔ a ∈ seen s ∨ a ∈ S
  /-- No element has been added twice. -/
  nodup : (seen s).Nodup → (seen t).Nodup

/-- The visitor succeeds in every state, and adds the set. -/
def Gathers (seen : σ → List α) (f : σ → Option σ) (S : Set α) : Prop :=
  ∀ s, ∃ t, f s = some t ∧ Adds seen S s t

theorem Adds.refl (s : σ) : Adds seen ∅ s s := ⟨fun a => by simp, id⟩

theorem Adds.trans (hst : Adds seen S s t) (htu : Adds seen T t u) : Adds seen (S ∪ T) s u :=
  ⟨fun a => by rw [htu.mem, hst.mem, Set.mem_union, or_assoc], htu.nodup ∘ hst.nodup⟩

/-- Putting one thing on the list, if it is not there yet. -/
theorem Adds.insert [DecidableEq α] {a : α}
    (hseen : seen t = if a ∈ seen s then seen s else seen s ++ [a]) : Adds seen {a} s t := by
  by_cases ha : a ∈ seen s
  · rw [if_pos ha] at hseen
    refine ⟨fun b => ?_, hseen ▸ id⟩
    rw [hseen, Set.mem_singleton_iff]
    exact ⟨.inl, fun hb => hb.elim id fun heq => heq ▸ ha⟩
  · rw [if_neg ha] at hseen
    refine ⟨fun b => by simp [hseen], fun hnd => ?_⟩
    rw [hseen, List.nodup_append]
    refine ⟨hnd, List.nodup_singleton a, fun b hb c hc => ?_⟩
    rw [List.mem_singleton.mp hc]
    exact ne_of_mem_of_not_mem hb ha

namespace Gathers

theorem congr (hf : Gathers seen f S) (hST : ∀ a, a ∈ S ↔ a ∈ T) : Gathers seen f T :=
  Set.ext hST ▸ hf

theorem skip : Gathers seen some ∅ := fun s => ⟨s, rfl, .refl s⟩

/-- One visitor after the other. -/
theorem bind (hf : Gathers seen f S) (hg : Gathers seen g T) :
    Gathers seen (fun s => (f s).bind g) (S ∪ T) := by
  intro s
  obtain ⟨t, ht, hst⟩ := hf s
  obtain ⟨u, hu, htu⟩ := hg t
  exact ⟨u, (congrArg (Option.bind · g) ht).trans hu, hst.trans htu⟩

/-- A visitor for each element of a list. -/
theorem foldlM {visit : β → σ → Option σ} {R : β → Set α} {l : List β}
    (hvisit : ∀ b ∈ l, Gathers seen (visit b) (R b)) :
    Gathers seen (fun s => l.foldlM (fun s b => visit b s) s) {a | ∃ b ∈ l, a ∈ R b} := by
  induction l with
  | nil => exact skip.congr fun a => by simp
  | cons b l ih =>
    have hb := hvisit b List.mem_cons_self
    refine (hb.bind (ih fun c hc => hvisit c (List.mem_cons_of_mem b hc))).congr fun a => ?_
    simp

end Gathers

end Gather
