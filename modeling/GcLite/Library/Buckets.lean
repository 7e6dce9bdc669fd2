import Mathlib.Data.List.Perm.Basic
import Mathlib.Tactic.Common

/-!
# Working through a list in passes

A list is worked through once for each key of a list of keys, and each time the elements with that
key are taken, in order. If the keys are distinct and every element has one of them, every element
is taken exactly once; and if the keys increase, so do the keys of the elements in the order in
which they are taken.

The loops that do this take elements out of a list and change a state with each of them. What they
come to is one fold over the elements in that order.

## Main definitions

* `buckets` — the elements in the order in which the passes take them
* `filterRemoveWith`, `removePasses` — one pass over a list, and all of them

## Main results

* `buckets_cons` — the first pass, and the other passes over what it left
* `buckets_perm` — every element is taken exactly once
* `pairwise_buckets` — in the order of the keys
* `filterRemoveWith_eq`, `removePasses_eq` — the loops as folds
-/

namespace GcLite

variable {α κ : Type*} [DecidableEq κ] {key : α → κ} {keys : List κ} {k : κ} {l : List α}

/-- The elements in the order in which the passes take them. -/
def buckets (key : α → κ) (keys : List κ) (l : List α) : List α :=
  keys.flatMap fun k => l.filter fun a => key a == k

@[simp] theorem buckets_nil : buckets key keys [] = [] := by simp [buckets]

/-- A later pass finds the same elements, whether or not an earlier one has taken its own. -/
theorem buckets_cons (hk : k ∉ keys) : buckets key (k :: keys) l =
    l.filter (fun a => key a == k) ++ buckets key keys (l.filter fun a => key a != k) := by
  rw [buckets, List.flatMap_cons, buckets]
  congr 1
  refine List.flatMap_congr fun k' hk' => ?_
  rw [List.filter_filter]
  refine List.filter_congr fun a _ => ?_
  by_cases ha : key a = k'
  · have hne : key a ≠ k := by
      rintro rfl
      exact hk (ha ▸ hk')
    simp [ha, ha ▸ hne]
  · simp [ha]

theorem buckets_perm (hnd : keys.Nodup) (hkeys : ∀ a ∈ l, key a ∈ keys) :
    (buckets key keys l).Perm l := by
  induction keys generalizing l with
  | nil =>
    obtain rfl : l = [] := List.eq_nil_iff_forall_not_mem.mpr fun a ha => by simpa using hkeys a ha
    exact .refl _
  | cons k keys ih =>
    obtain ⟨hk, hnd⟩ := List.nodup_cons.mp hnd
    have hrest : ∀ a ∈ l.filter (fun a => key a != k), key a ∈ keys := by
      intro a ha
      obtain ⟨ha, hne⟩ := List.mem_filter.mp ha
      exact (List.mem_cons.mp (hkeys a ha)).resolve_left (by simpa using hne)
    rw [buckets_cons hk]
    exact ((ih hnd hrest).append_left _).trans (List.filter_append_perm _ l)

theorem mem_buckets {a : α} : a ∈ buckets key keys l ↔ a ∈ l ∧ key a ∈ keys := by
  simp only [buckets, List.mem_flatMap, List.mem_filter, beq_iff_eq]
  exact ⟨fun ⟨_, hk, ha, heq⟩ => ⟨ha, heq ▸ hk⟩, fun ⟨ha, hk⟩ => ⟨_, hk, ha, rfl⟩⟩

/-- Elements of different passes are in the order of their keys. -/
theorem pairwise_buckets {r : κ → κ → Prop} (hr : ∀ k, r k k) (hkeys : keys.Pairwise r)
    (key : α → κ) (l : List α) : (buckets key keys l).Pairwise fun a b => r (key a) (key b) := by
  induction keys with
  | nil => exact .nil
  | cons k keys ih =>
    obtain ⟨hk, hkeys⟩ := List.pairwise_cons.mp hkeys
    have hkey : ∀ a ∈ l.filter (fun a => key a == k), key a = k := fun a ha => by
      simpa using (List.mem_filter.mp ha).2
    rw [buckets, List.flatMap_cons]
    refine List.pairwise_append.mpr ⟨?_, ih hkeys, fun a ha b hb => ?_⟩
    · refine List.pairwise_of_forall_mem_list fun a ha b hb => ?_
      rw [hkey a ha, hkey b hb]
      exact hr k
    · rw [hkey a ha]
      exact hk _ (mem_buckets.mp hb).2

/-! ### Loops -/

variable {σ : Type*} {remove : σ → α → σ}

/-- Take the elements that satisfy the predicate out of a list, one after the other, and leave the
others in order. -/
def filterRemoveWith (predicate : σ → α → Bool) (remove : σ → α → σ) : σ → List α → σ × List α
  | s, [] => (s, [])
  | s, a :: rest =>
    if predicate s a then filterRemoveWith predicate remove (remove s a) rest
    else
      let (s, kept) := filterRemoveWith predicate remove s rest
      (s, a :: kept)

/-- One pass for each key, until nothing is left. -/
def removePasses (predicate : κ → σ → α → Bool) (remove : σ → α → σ) :
    List κ → σ → List α → σ × List α
  | [], s, l => (s, l)
  | k :: keys, s, l =>
    let (s, l) := filterRemoveWith (predicate k) remove s l
    if l.isEmpty then (s, l) else removePasses predicate remove keys s l

theorem filterRemoveWith_eq {predicate : σ → α → Bool}
    (hpred : ∀ s a, predicate (remove s a) = predicate s) (l : List α) : ∀ s,
    filterRemoveWith predicate remove s l =
      ((l.filter (predicate s)).foldl remove s, l.filter fun a => !predicate s a) := by
  induction l with
  | nil => exact fun s => rfl
  | cons a l ih =>
    intro s
    unfold filterRemoveWith
    split
    · next ha => simp [ih, ha, hpred]
    · next ha => simp [ih, ha]

theorem removePasses_eq {key : σ → α → κ} {p : σ → α → Bool}
    (hkey : ∀ s a, key (remove s a) = key s) (hp : ∀ s a, p (remove s a) = p s)
    (hnd : keys.Nodup) : ∀ (s : σ) (l : List α),
    removePasses (fun k s a => key s a == k && p s a) remove keys s l =
      ((buckets (key s) keys (l.filter (p s))).foldl remove s,
        l.filter fun a => !(p s a && decide (key s a ∈ keys))) := by
  have hfold : ∀ (s : σ) (l : List α),
      key (l.foldl remove s) = key s ∧ p (l.foldl remove s) = p s := by
    intro s l
    induction l generalizing s with
    | nil => exact ⟨rfl, rfl⟩
    | cons a l ih => exact ⟨(ih _).1.trans (hkey s a), (ih _).2.trans (hp s a)⟩
  induction keys with
  | nil => exact fun s l => by simp [removePasses, buckets]
  | cons k keys ih =>
    intro s l
    obtain ⟨hk, hnd⟩ := List.nodup_cons.mp hnd
    have hround : filterRemoveWith (fun s a => key s a == k && p s a) remove s l = _ :=
      filterRemoveWith_eq (fun s a => by rw [hkey, hp]) l s
    have htake : (l.filter fun a => key s a == k && p s a) =
        (l.filter (p s)).filter fun a => key s a == k := by
      rw [List.filter_filter]
    have hleft : (l.filter fun a => !(key s a == k && p s a)).filter (p s) =
        (l.filter (p s)).filter fun a => key s a != k := by
      rw [List.filter_filter, List.filter_filter]
      refine List.filter_congr fun a _ => ?_
      cases p s a <;> simp [bne]
    have hrest : (l.filter fun a => !(key s a == k && p s a)).filter
        (fun a => !(p s a && decide (key s a ∈ keys))) =
        l.filter fun a => !(p s a && decide (key s a ∈ k :: keys)) := by
      rw [List.filter_filter]
      refine List.filter_congr fun a _ => ?_
      by_cases hka : key s a = k <;> cases p s a <;> simp [hka]
    simp only [removePasses, hround]
    rw [buckets_cons hk, List.foldl_append, ← htake, ← hleft, ← hrest]
    generalize (l.filter fun a => !(key s a == k && p s a)) = rest
    split
    · next hnil => simp [List.isEmpty_iff.mp hnil]
    · rw [ih hnd, (hfold _ _).1, (hfold _ _).2]

end GcLite
