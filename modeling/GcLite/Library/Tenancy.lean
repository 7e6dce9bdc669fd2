import Mathlib.Data.List.Nodup

/-!
# Tenancies

A resource that is given out, comes back and is given out again: a block of memory, a slot of a
table, a descriptor. One log says what becomes of all resources, in the order in which it happens,
and each of its entries is about one of them. A tenancy is to end with certain entries, in a certain
order, and with nothing about the resource before them or between them.

Nothing here fixes what the resources, the tenancies and the entries are.

## Main definitions

* `entries about k log` — the part of a log that is about one resource
* `Tenancies close begun current log` — all tenancies that have begun, but the current one, have
  ended one after the other, each with the entries that `close` says

## Main results

* `entries_flatMap` — when a list of resources is settled one by one
* `Tenancies.begin`, `Tenancies.finish` — a tenancy begins, or ends
* `Tenancies.flatMap_close` — what is missing is what ends the current one
-/

namespace Tenancy

variable {κ β ε : Type*}

section

variable [DecidableEq κ] {about : ε → κ} {k : κ} {log log' : List ε} {l : List κ}

/-- The part of a log that is about one resource. -/
def entries (about : ε → κ) (k : κ) (log : List ε) : List ε := log.filter fun e => about e = k

@[simp] theorem entries_append :
    entries about k (log ++ log') = entries about k log ++ entries about k log' :=
  List.filter_append ..

theorem entries_eq_self (hlog : ∀ e ∈ log, about e = k) : entries about k log = log :=
  List.filter_eq_self.mpr fun e he => decide_eq_true (hlog e he)

theorem entries_eq_nil (hlog : ∀ e ∈ log, about e ≠ k) : entries about k log = [] :=
  List.filter_eq_nil_iff.mpr fun e he => by simpa using hlog e he

/-- Resources that are settled one by one: each of them once, with its own entries. -/
theorem entries_flatMap {f : κ → List ε} (hf : ∀ m, ∀ e ∈ f m, about e = m) (hl : l.Nodup) :
    entries about k (l.flatMap f) = if k ∈ l then f k else [] := by
  induction l with
  | nil => rfl
  | cons m l ih =>
    obtain ⟨hm, hl⟩ := List.nodup_cons.mp hl
    rw [List.flatMap_cons, entries_append, ih hl]
    by_cases hkm : k = m
    · subst hkm
      rw [entries_eq_self (hf k), if_neg hm, if_pos List.mem_cons_self, List.append_nil]
    · rw [entries_eq_nil fun e he => hf m e he ▸ Ne.symm hkm, List.nil_append]
      simp [hkm]

end

/-- The tenancies of one resource so far, of which the current one, if there is one, is the last:
the others have ended, and the log is what they ended with. -/
def Tenancies (close : β → List ε) (begun : List β) (current : Option β) (log : List ε) : Prop :=
  ∃ ended, begun = ended ++ current.toList ∧ log = ended.flatMap close

namespace Tenancies

variable {close : β → List ε} {begun : List β} {current : Option β} {b : β} {log : List ε}

theorem start (close : β → List ε) : Tenancies close [] none [] := ⟨[], rfl, rfl⟩

theorem begin (ht : Tenancies close begun none log) (b : β) :
    Tenancies close (begun ++ [b]) (some b) log := by
  obtain ⟨ended, hbegun, hlog⟩ := ht
  exact ⟨ended, by simp [hbegun], hlog⟩

theorem finish (ht : Tenancies close begun (some b) log) :
    Tenancies close begun none (log ++ close b) := by
  obtain ⟨ended, hbegun, hlog⟩ := ht
  exact ⟨ended ++ [b], by simpa using hbegun, by simp [hlog]⟩

/-- What ends the current tenancy completes the log. -/
theorem flatMap_close (ht : Tenancies close begun current log) :
    begun.flatMap close = log ++ current.toList.flatMap close := by
  obtain ⟨ended, rfl, rfl⟩ := ht
  exact List.flatMap_append

end Tenancies

end Tenancy
