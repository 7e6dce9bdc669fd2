import Mathlib.Algebra.GroupWithZero.Nat
import Mathlib.Data.List.Pairwise
import Mathlib.Data.List.Sort
import Mathlib.Order.Interval.Finset.Nat
import Mathlib.Tactic.Common

/-!
# Byte ranges

Half-open ranges of natural numbers, lists of them that do not overlap, and the merging of ranges
that touch. This is the arithmetic under any allocator that hands out ranges and takes them back.

`Apart` is symmetric, so it does not care about the order of the list; `Increasing` is the same
thing for a list in address order. Merging is stated on a list in address order.

## Main definitions

* `Span`, `Span.stop`, `Span.Disjoint`, `Span.Contains`, `Span.shift`
* `Apart l`, `Increasing l` — no two spans overlap, in any order or in address order
* `Covers l b` — byte `b` lies in some span
* `coalesce l` — merge each span with the ones it touches
* `merged l` — sort the spans first

## Main results

* `Apart.perm`, `apart_cons`, `apart_append`
* `increasing_of_sorted` — sorted by offset and not overlapping is address order
* `covers_coalesce`, `covers_merged` — merging neither loses nor gains a byte
* `pairwise_gap_coalesce`, `pairwise_gap_merged` — and leaves no two spans that touch
* `Increasing.length_le` — many non-empty spans need much room
* `Apart.sum_size_le` — and so do large ones
-/

namespace Spans

/-- The range `[offset, offset + size)`. -/
structure Span where
  /-- The first place. -/
  offset : ℕ
  /-- The number of places. -/
  size : ℕ
deriving DecidableEq, Repr

namespace Span

/-- One past the last byte. -/
def stop (s : Span) : ℕ := s.offset + s.size

/-- One of the two ends before the other begins. -/
def Disjoint (s t : Span) : Prop := s.stop ≤ t.offset ∨ t.stop ≤ s.offset

instance (s t : Span) : Decidable (s.Disjoint t) := inferInstanceAs (Decidable (_ ∨ _))

/-- Byte `b` lies in the span. -/
def Contains (s : Span) (b : ℕ) : Prop := s.offset ≤ b ∧ b < s.stop

theorem Disjoint.symm {s t : Span} (h : s.Disjoint t) : t.Disjoint s := Or.symm h

/-- Parts of spans that do not overlap do not overlap either. -/
theorem Disjoint.mono {s s' t t' : Span} (h : s.Disjoint t)
    (hs : s.offset ≤ s'.offset ∧ s'.stop ≤ s.stop) (ht : t.offset ≤ t'.offset ∧ t'.stop ≤ t.stop) :
    s'.Disjoint t' :=
  h.imp (fun h => hs.2.trans (h.trans ht.1)) fun h => ht.2.trans (h.trans hs.1)

instance (s : Span) (b : ℕ) : Decidable (s.Contains b) := inferInstanceAs (Decidable (_ ∧ _))

/-- The span so many bytes further on. -/
def shift (k : ℕ) (s : Span) : Span := ⟨k + s.offset, s.size⟩

theorem contains_shift {k : ℕ} {s : Span} {b : ℕ} :
    (s.shift k).Contains b ↔ k ≤ b ∧ s.Contains (b - k) := by
  simp only [shift, Contains, stop]
  omega

/-- For non-empty spans, not overlapping means having no byte in common. -/
theorem disjoint_iff_contains {s t : Span} (hs : 0 < s.size) (ht : 0 < t.size) :
    s.Disjoint t ↔ ∀ b, s.Contains b → ¬ t.Contains b := by
  constructor
  · rintro h b ⟨hs1, hs2⟩ ⟨ht1, ht2⟩
    rcases h with h | h <;> omega
  · intro h
    by_contra hd
    simp only [Disjoint, not_or, stop] at hd
    have hs' := h (max s.offset t.offset)
    simp only [Contains, stop] at hs'
    omega

end Span

/-! ## Lists of spans -/

/-- No two spans of the list overlap. -/
def Apart (l : List Span) : Prop := l.Pairwise Span.Disjoint

instance (l : List Span) : Decidable (Apart l) := inferInstanceAs (Decidable (l.Pairwise _))

/-- No two spans overlap and the list is in address order. -/
def Increasing (l : List Span) : Prop := l.Pairwise fun s t => s.stop ≤ t.offset

/-- Byte `b` lies in some span of the list. -/
def Covers (l : List Span) (b : ℕ) : Prop := ∃ s ∈ l, s.Contains b

instance (l : List Span) (b : ℕ) : Decidable (Covers l b) :=
  inferInstanceAs (Decidable (∃ s ∈ l, _))

theorem covers_append {l m : List Span} {b : ℕ} :
    Covers (l ++ m) b ↔ Covers l b ∨ Covers m b := by
  simp only [Covers, List.mem_append, or_and_right, exists_or]

@[simp] theorem covers_cons {s : Span} {l : List Span} {b : ℕ} :
    Covers (s :: l) b ↔ s.Contains b ∨ Covers l b := by
  simp [Covers]

@[simp] theorem not_covers_nil {b : ℕ} : ¬ Covers [] b := by simp [Covers]

theorem Covers.perm {l l' : List Span} {b : ℕ} (h : Covers l b) (hp : l.Perm l') : Covers l' b := by
  obtain ⟨s, hs, hb⟩ := h
  exact ⟨s, hp.subset hs, hb⟩

/-- Shifting every span shifts the bytes. -/
theorem covers_map_shift {k : ℕ} {l : List Span} {b : ℕ} :
    Covers (l.map (Span.shift k)) b ↔ k ≤ b ∧ Covers l (b - k) := by
  simp only [Covers, List.mem_map, exists_exists_and_eq_and, Span.contains_shift]
  exact ⟨fun ⟨s, hs, hk, hb⟩ => ⟨hk, s, hs, hb⟩, fun ⟨hk, s, hs, hb⟩ => ⟨s, hs, hk, hb⟩⟩

/-- A byte of one span is in no span that does not overlap it. -/
theorem Apart.not_covers {s : Span} {l : List Span} {b : ℕ} (h : Apart (s :: l))
    (hs : s.Contains b) : ¬ Covers l b := by
  rintro ⟨t, ht, htb⟩
  have hd := List.rel_of_pairwise_cons h ht
  simp only [Span.Disjoint, Span.Contains] at hd hs htb
  omega

theorem Apart.perm {l l' : List Span} (h : Apart l) (hp : l.Perm l') : Apart l' :=
  List.Pairwise.perm h hp Span.Disjoint.symm

instance : Std.Symm Span.Disjoint := ⟨fun _ _ => Span.Disjoint.symm⟩

theorem Apart.disjoint {s t : Span} {l : List Span} (h : Apart l) (hs : s ∈ l) (ht : t ∈ l)
    (hne : s ≠ t) : s.Disjoint t := List.Pairwise.forall h hs ht hne

theorem apart_cons {s : Span} {l : List Span} :
    Apart (s :: l) ↔ (∀ t ∈ l, s.Disjoint t) ∧ Apart l := List.pairwise_cons

theorem apart_append {l m : List Span} :
    Apart (l ++ m) ↔ Apart l ∧ Apart m ∧ ∀ s ∈ l, ∀ t ∈ m, s.Disjoint t := List.pairwise_append

theorem Increasing.apart {l : List Span} (h : Increasing l) : Apart l :=
  List.Pairwise.imp (fun hst => .inl hst) h

theorem increasing_cons {s : Span} {l : List Span} :
    Increasing (s :: l) ↔ (∀ t ∈ l, s.stop ≤ t.offset) ∧ Increasing l := List.pairwise_cons

/-- Sorting by offset puts non-empty, non-overlapping spans into address order. -/
theorem increasing_of_sorted {l : List Span} (hs : l.Pairwise fun s t => s.offset ≤ t.offset)
    (ha : Apart l) (hpos : ∀ s ∈ l, 0 < s.size) : Increasing l := by
  induction l with
  | nil => exact .nil
  | cons s l ih =>
    rw [List.pairwise_cons] at hs
    rw [apart_cons] at ha
    refine increasing_cons.mpr ⟨fun t ht => ?_,
      ih hs.2 ha.2 fun u hu => hpos u (List.mem_cons_of_mem _ hu)⟩
    have hle := hs.1 t ht
    have hst := ha.1 t ht
    have htpos := hpos t (List.mem_cons_of_mem _ ht)
    have hspos := hpos s List.mem_cons_self
    simp only [Span.Disjoint, Span.stop] at hst ⊢
    omega

/-- Non-empty spans in address order below `n` are at most `n` many. -/
theorem Increasing.length_le {l : List Span} {n : ℕ} (h : Increasing l)
    (hpos : ∀ s ∈ l, 0 < s.size) (hn : ∀ s ∈ l, s.stop ≤ n) : l.length ≤ n := by
  suffices haux : ∀ k, (∀ s ∈ l, k ≤ s.offset) → l.length + k ≤ max n k by
    have := haux 0 fun _ _ => Nat.zero_le _
    omega
  induction l with
  | nil =>
    intro k _
    simp
  | cons s l ih =>
    intro k hk
    rw [increasing_cons] at h
    have hrest := ih h.2 (fun t ht => hpos t (List.mem_cons_of_mem _ ht))
      (fun t ht => hn t (List.mem_cons_of_mem _ ht)) s.stop h.1
    have hs := hk s List.mem_cons_self
    have hspos := hpos s List.mem_cons_self
    have hsn := hn s List.mem_cons_self
    simp only [Span.stop] at hrest hsn
    simp only [List.length_cons]
    omega

/-- Spans that do not overlap have together at most as many bytes as there are where they lie. -/
theorem Apart.sum_size_le {l : List Span} {a b : ℕ} (h : Apart l)
    (hl : ∀ s ∈ l, a ≤ s.offset ∧ s.stop ≤ b) : (l.map Span.size).sum ≤ b - a := by
  suffices hbytes : ∃ T : Finset ℕ, T.card = (l.map Span.size).sum ∧
      (∀ x ∈ T, ∃ s ∈ l, s.Contains x) by
    obtain ⟨T, hcard, hT⟩ := hbytes
    rw [← hcard, ← Nat.card_Ico]
    refine Finset.card_le_card fun x hx => ?_
    obtain ⟨s, hs, hsx⟩ := hT x hx
    exact Finset.mem_Ico.mpr ⟨(hl s hs).1.trans hsx.1, hsx.2.trans_le (hl s hs).2⟩
  clear hl
  induction l with
  | nil => exact ⟨∅, rfl, by simp⟩
  | cons s l ih =>
    obtain ⟨hs, hl⟩ := apart_cons.mp h
    obtain ⟨T, hcard, hT⟩ := ih hl
    refine ⟨Finset.Ico s.offset s.stop ∪ T, ?_, fun x hx => ?_⟩
    · rw [Finset.card_union_of_disjoint, hcard, Nat.card_Ico, List.map_cons, List.sum_cons,
        Span.stop, Nat.add_sub_cancel_left]
      refine Finset.disjoint_left.mpr fun x hxs hxT => ?_
      obtain ⟨t, ht, htx⟩ := hT x hxT
      obtain ⟨hle, hlt⟩ := Finset.mem_Ico.mp hxs
      obtain ⟨hle', hlt'⟩ := htx
      rcases hs t ht with hd | hd <;> omega
    · rcases Finset.mem_union.mp hx with hx | hx
      · exact ⟨s, List.mem_cons_self, Finset.mem_Ico.mp hx⟩
      · obtain ⟨t, ht, htx⟩ := hT x hx
        exact ⟨t, List.mem_cons_of_mem _ ht, htx⟩

/-! ## Merging spans that touch -/

/-- Merge `cur` with the spans at the front of the list that it touches, and so on. -/
def coalesceFrom (cur : Span) : List Span → List Span
  | [] => [cur]
  | s :: l =>
    if cur.stop = s.offset then coalesceFrom ⟨cur.offset, cur.size + s.size⟩ l
    else cur :: coalesceFrom s l

/-- Merge every run of touching spans of a list in address order. -/
def coalesce : List Span → List Span
  | [] => []
  | s :: l => coalesceFrom s l

theorem covers_coalesceFrom {cur : Span} {l : List Span} {b : ℕ} :
    Covers (coalesceFrom cur l) b ↔ cur.Contains b ∨ Covers l b := by
  induction l generalizing cur with
  | nil => simp [coalesceFrom, Covers]
  | cons s l ih =>
    rw [coalesceFrom]
    split
    · next htouch =>
      rw [ih]
      simp only [Covers, List.mem_cons, exists_eq_or_imp, ← or_assoc]
      refine or_congr_left ?_
      simp only [Span.Contains, Span.stop] at htouch ⊢
      omega
    · simp only [Covers, List.mem_cons, exists_eq_or_imp]
      exact or_congr_right ih

/-- Merging neither loses nor gains a byte. -/
theorem covers_coalesce {l : List Span} {b : ℕ} : Covers (coalesce l) b ↔ Covers l b := by
  cases l with
  | nil => rfl
  | cons s l =>
    rw [coalesce, covers_coalesceFrom]
    simp [Covers]

/-- Every merged span begins where some span began, at `cur` or later. -/
theorem le_offset_of_mem_coalesceFrom (cur : Span) {l : List Span} {k : ℕ} (hcur : k ≤ cur.offset)
    (hl : ∀ s ∈ l, k ≤ s.offset) {t : Span} (ht : t ∈ coalesceFrom cur l) : k ≤ t.offset := by
  induction l generalizing cur with
  | nil =>
    rw [coalesceFrom, List.mem_singleton] at ht
    exact ht ▸ hcur
  | cons s l ih =>
    rw [coalesceFrom] at ht
    have hs := hl s List.mem_cons_self
    have hrest := fun u hu => hl u (List.mem_cons_of_mem _ hu)
    split at ht
    · exact ih ⟨cur.offset, cur.size + s.size⟩ hcur hrest ht
    · rcases List.mem_cons.mp ht with rfl | ht
      · exact hcur
      · exact ih s hs hrest ht

/-- A merged span begins where one of the spans did. -/
theorem exists_offset_of_mem_coalesceFrom (cur : Span) {l : List Span} {t : Span}
    (ht : t ∈ coalesceFrom cur l) : ∃ s ∈ cur :: l, s.offset = t.offset := by
  induction l generalizing cur with
  | nil =>
    rw [coalesceFrom, List.mem_singleton] at ht
    exact ⟨cur, List.mem_cons_self, by rw [ht]⟩
  | cons s l ih =>
    rw [coalesceFrom] at ht
    split at ht
    · obtain ⟨u, hu, hoffset⟩ := ih _ ht
      rcases List.mem_cons.mp hu with rfl | hu
      · exact ⟨cur, List.mem_cons_self, hoffset⟩
      · exact ⟨u, List.mem_cons_of_mem _ (List.mem_cons_of_mem _ hu), hoffset⟩
    · rcases List.mem_cons.mp ht with rfl | ht
      · exact ⟨t, List.mem_cons_self, rfl⟩
      · obtain ⟨u, hu, hoffset⟩ := ih _ ht
        exact ⟨u, List.mem_cons_of_mem _ hu, hoffset⟩

theorem exists_offset_of_mem_coalesce {l : List Span} {t : Span} (ht : t ∈ coalesce l) :
    ∃ s ∈ l, s.offset = t.offset := by
  cases l with
  | nil => simp [coalesce] at ht
  | cons s l => exact exists_offset_of_mem_coalesceFrom s ht

theorem le_size_of_mem_coalesceFrom (cur : Span) {l : List Span} {k : ℕ} (hcur : k ≤ cur.size)
    (hl : ∀ s ∈ l, k ≤ s.size) {t : Span} (ht : t ∈ coalesceFrom cur l) : k ≤ t.size := by
  induction l generalizing cur with
  | nil =>
    rw [coalesceFrom, List.mem_singleton] at ht
    exact ht ▸ hcur
  | cons s l ih =>
    rw [coalesceFrom] at ht
    have hs := hl s List.mem_cons_self
    have hrest := fun u hu => hl u (List.mem_cons_of_mem _ hu)
    split at ht
    · exact ih ⟨cur.offset, cur.size + s.size⟩ (Nat.le_add_right_of_le hcur) hrest ht
    · rcases List.mem_cons.mp ht with rfl | ht
      · exact hcur
      · exact ih s hs hrest ht

theorem le_size_of_mem_coalesce {l : List Span} {k : ℕ} (hl : ∀ s ∈ l, k ≤ s.size) {t : Span}
    (ht : t ∈ coalesce l) : k ≤ t.size := by
  cases l with
  | nil => simp [coalesce] at ht
  | cons s l =>
    exact le_size_of_mem_coalesceFrom s (hl s List.mem_cons_self)
      (fun u hu => hl u (List.mem_cons_of_mem _ hu)) ht

/-- Between merged spans there is always a gap: `cur` is kept as it is only if the next span begins
further on. -/
theorem pairwise_gap_coalesceFrom {cur : Span} {l : List Span} (h : Increasing (cur :: l)) :
    (coalesceFrom cur l).Pairwise fun s t => s.stop < t.offset := by
  induction l generalizing cur with
  | nil => simp [coalesceFrom]
  | cons s l ih =>
    rw [increasing_cons, increasing_cons] at h
    obtain ⟨hcur, hs, hl⟩ := h
    have hle := hcur s List.mem_cons_self
    rw [coalesceFrom]
    split
    · next htouch =>
      refine ih (increasing_cons.mpr ⟨fun t ht => ?_, hl⟩)
      have := hs t ht
      simp only [Span.stop] at htouch this ⊢
      omega
    · next htouch =>
      refine List.pairwise_cons.mpr ⟨fun t ht => ?_, ih (increasing_cons.mpr ⟨hs, hl⟩)⟩
      refine lt_of_lt_of_le (lt_of_le_of_ne hle htouch)
        (le_offset_of_mem_coalesceFrom s le_rfl (fun u hu => ?_) ht)
      exact (Nat.le_add_right _ _).trans (hs u hu)

theorem pairwise_gap_coalesce {l : List Span} (h : Increasing l) :
    (coalesce l).Pairwise fun s t => s.stop < t.offset := by
  cases l with
  | nil => exact .nil
  | cons s l => exact pairwise_gap_coalesceFrom h

/-- A non-empty span that overlaps no span of the list overlaps no merged span either. -/
theorem disjoint_of_mem_coalesce {l : List Span} {x t : Span} (hx : 0 < x.size)
    (hl : ∀ s ∈ l, 0 < s.size) (hd : ∀ s ∈ l, x.Disjoint s) (ht : t ∈ coalesce l) :
    x.Disjoint t := by
  have htpos : 0 < t.size := le_size_of_mem_coalesce hl ht
  rw [Span.disjoint_iff_contains hx htpos]
  intro b hxb htb
  obtain ⟨s, hs, hsb⟩ := covers_coalesce.mp ⟨t, ht, htb⟩
  exact (Span.disjoint_iff_contains hx (hl s hs)).mp (hd s hs) b hxb hsb

/-- Merged spans reach no further than the spans they were merged from. -/
theorem stop_le_of_mem_coalesce {l : List Span} {n : ℕ} (hl : ∀ s ∈ l, 0 < s.size)
    (hn : ∀ s ∈ l, s.stop ≤ n) {t : Span} (ht : t ∈ coalesce l) : t.stop ≤ n := by
  have htpos : 0 < t.size := le_size_of_mem_coalesce hl ht
  have hlast : t.Contains (t.stop - 1) := by simp only [Span.Contains, Span.stop]; omega
  obtain ⟨s, hs, hsb⟩ := covers_coalesce.mp ⟨t, ht, hlast⟩
  have := hn s hs
  simp only [Span.Contains] at hsb
  omega

/-! ## Sorting first -/

/-- The spans of a list of any order, sorted and merged. -/
def merged (l : List Span) : List Span :=
  coalesce (l.insertionSort fun s t => s.offset ≤ t.offset)

section Merged

variable {l : List Span} {t : Span}

theorem covers_merged {b : ℕ} : Covers (merged l) b ↔ Covers l b := by
  rw [merged, covers_coalesce]
  simp only [Covers, List.mem_insertionSort]

theorem exists_offset_of_mem_merged (ht : t ∈ merged l) : ∃ s ∈ l, s.offset = t.offset := by
  obtain ⟨s, hs, heq⟩ := exists_offset_of_mem_coalesce ht
  exact ⟨s, (List.mem_insertionSort _).mp hs, heq⟩

theorem le_size_of_mem_merged {k : ℕ} (hl : ∀ s ∈ l, k ≤ s.size) (ht : t ∈ merged l) :
    k ≤ t.size :=
  le_size_of_mem_coalesce (fun s hs => hl s ((List.mem_insertionSort _).mp hs)) ht

theorem stop_le_of_mem_merged {n : ℕ} (hl : ∀ s ∈ l, 0 < s.size) (hn : ∀ s ∈ l, s.stop ≤ n)
    (ht : t ∈ merged l) : t.stop ≤ n :=
  stop_le_of_mem_coalesce (fun s hs => hl s ((List.mem_insertionSort _).mp hs))
    (fun s hs => hn s ((List.mem_insertionSort _).mp hs)) ht

theorem disjoint_of_mem_merged {x : Span} (hx : 0 < x.size) (hl : ∀ s ∈ l, 0 < s.size)
    (hd : ∀ s ∈ l, x.Disjoint s) (ht : t ∈ merged l) : x.Disjoint t :=
  disjoint_of_mem_coalesce hx (fun s hs => hl s ((List.mem_insertionSort _).mp hs))
    (fun s hs => hd s ((List.mem_insertionSort _).mp hs)) ht

theorem pairwise_gap_merged (ha : Apart l) (hl : ∀ s ∈ l, 0 < s.size) :
    (merged l).Pairwise fun s t => s.stop < t.offset := by
  refine pairwise_gap_coalesce (increasing_of_sorted (List.pairwise_insertionSort _ _)
    (ha.perm (List.perm_insertionSort _ _).symm) fun s hs => ?_)
  exact hl s ((List.mem_insertionSort _).mp hs)

theorem increasing_merged (ha : Apart l) (hl : ∀ s ∈ l, 0 < s.size) : Increasing (merged l) :=
  (pairwise_gap_merged ha hl).imp Nat.le_of_lt

end Merged

end Spans
