import Mathlib.Data.List.Perm.Basic
import Mathlib.Logic.Function.Basic
import Mathlib.Tactic.Common

/-!
# A flag that mirrors membership

Things that come and go carry a flag, and somewhere else there is a list of those that have it. The
flag is right when a thing that exists has it exactly if it is on the list, and the list has nothing
twice and nothing that does not exist. Then one look at the flag replaces a search.

The list may really be spread over several lists. Only its elements and their multiplicities matter.

## Main definitions

* `Mirrors` — the flags are right

## Main results

* `Mirrors.count` — a thing with the flag is on the list once
* `Mirrors.insert`, `Mirrors.erase`, `Mirrors.clear` — putting on the list and taking off it
* `Mirrors.grow`, `Mirrors.shrink` — things come and go
-/

namespace GcLite

variable {α : Type*}

/-- The flags of existing things tell which of them are on the list. -/
structure Mirrors (exist : α → Prop) (flag : α → Bool) (l : List α) : Prop where
  /-- Nothing is on the list twice. -/
  nodup : l.Nodup
  /-- Only existing things are on it. -/
  exists_of_mem : ∀ a ∈ l, exist a
  /-- An existing thing is on it if and only if its flag is set. -/
  flag_iff : ∀ a, exist a → (flag a = true ↔ a ∈ l)

namespace Mirrors

variable {exist exist' : α → Prop} {flag flag' : α → Bool} {l l' : List α} {a : α}

theorem empty (hflag : ∀ a, exist a → flag a = false) : Mirrors exist flag [] :=
  ⟨.nil, fun a ha => absurd ha List.not_mem_nil, fun a ha => by simp [hflag a ha]⟩

theorem flag_of_mem (hm : Mirrors exist flag l) (ha : a ∈ l) : flag a = true :=
  (hm.flag_iff a (hm.exists_of_mem a ha)).mpr ha

/-- Where in the list a thing is does not matter. -/
theorem perm (hm : Mirrors exist flag l) (hp : l'.Perm l) : Mirrors exist flag l' :=
  ⟨hp.nodup_iff.mpr hm.nodup, fun a ha => hm.exists_of_mem a (hp.subset ha),
    fun a ha => (hm.flag_iff a ha).trans hp.mem_iff.symm⟩

/-- A thing that has the flag is on the list exactly once. -/
theorem count [DecidableEq α] (hm : Mirrors exist flag l) (ha : exist a) :
    flag a = true ↔ l.count a = 1 := by
  rw [hm.flag_iff a ha, hm.nodup.count]
  split
  · next hmem => simp [hmem]
  · next hmem => simp [hmem]

/-- A thing that did not have the flag gets it, and goes on the list. -/
theorem insert (hm : Mirrors exist flag l) (ha : exist a) (hoff : flag a = false)
    (hp : l'.Perm (a :: l)) (hself : flag' a = true) (hflag : ∀ b, b ≠ a → flag' b = flag b) :
    Mirrors exist flag' l' := by
  have hnot : a ∉ l := fun hmem => by simp [hm.flag_of_mem hmem] at hoff
  refine ⟨hp.nodup_iff.mpr (List.nodup_cons.mpr ⟨hnot, hm.nodup⟩), fun b hb => ?_, fun b hb => ?_⟩
  · rcases List.mem_cons.mp (hp.subset hb) with rfl | hb
    · exact ha
    · exact hm.exists_of_mem b hb
  · rw [hp.mem_iff, List.mem_cons]
    by_cases hba : b = a
    · simp [hba, hself]
    · rw [hflag b hba, hm.flag_iff b hb]
      simp [hba]

/-- Some things go off the list and lose the flag. -/
theorem clear {gone : List α} (hm : Mirrors exist flag l) (hp : l.Perm (gone ++ l'))
    (hgone : ∀ a ∈ gone, flag' a = false) (hflag : ∀ a, a ∉ gone → flag' a = flag a) :
    Mirrors exist flag' l' := by
  have hnd := List.nodup_append.mp (hp.nodup_iff.mp hm.nodup)
  refine ⟨hnd.2.1, fun a ha => hm.exists_of_mem a (hp.symm.subset (List.mem_append_right _ ha)),
    fun a ha => ?_⟩
  by_cases hmem : a ∈ gone
  · have hnot : a ∉ l' := fun ha' => hnd.2.2 a hmem a ha' rfl
    simp [hgone a hmem, hnot]
  · rw [hflag a hmem, hm.flag_iff a ha, hp.mem_iff, List.mem_append]
    simp [hmem]

/-- One thing goes off the list. -/
theorem erase (hm : Mirrors exist flag l) (hp : l.Perm (a :: l')) (hself : flag' a = false)
    (hflag : ∀ b, b ≠ a → flag' b = flag b) : Mirrors exist flag' l' := by
  have hp' : l.Perm ([a] ++ l') := hp
  refine hm.clear hp' (fun b hb => ?_) fun b hb => ?_
  · rw [List.mem_singleton.mp hb, hself]
  · exact hflag b fun hba => hb (List.mem_singleton.mpr hba)

/-- A new thing comes without the flag. -/
theorem grow (hm : Mirrors exist flag l) (hnew : ¬ exist a)
    (hexist : ∀ b, exist' b ↔ b = a ∨ exist b) (hself : flag' a = false)
    (hflag : ∀ b, b ≠ a → flag' b = flag b) : Mirrors exist' flag' l := by
  have hnot : a ∉ l := fun hmem => hnew (hm.exists_of_mem a hmem)
  refine ⟨hm.nodup, fun b hb => (hexist b).mpr (.inr (hm.exists_of_mem b hb)), fun b hb => ?_⟩
  by_cases hba : b = a
  · simp [hba, hself, hnot]
  · rw [hflag b hba]
    exact hm.flag_iff b (((hexist b).mp hb).resolve_left hba)

/-- Things without the flag go. -/
theorem shrink (hm : Mirrors exist flag l) (hexist : ∀ a, exist' a → exist a)
    (hkept : ∀ a, exist a → flag a = true → exist' a) (hflag : ∀ a, exist' a → flag' a = flag a) :
    Mirrors exist' flag' l := by
  refine ⟨hm.nodup, fun a ha => ?_, fun a ha => ?_⟩
  · exact hkept a (hm.exists_of_mem a ha) (hm.flag_of_mem ha)
  · rw [hflag a ha]
    exact hm.flag_iff a (hexist a ha)

end Mirrors

end GcLite
