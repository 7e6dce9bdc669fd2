import Mathlib.Algebra.GroupWithZero.Nat
import Mathlib.Data.List.Dedup
import Mathlib.Data.List.Sort
import Mathlib.Tactic.Common

/-!
# Layouts and the type table

What `gctype.rs` and the registration macro compute before a heap exists: how many bytes a node of a
registered type takes, at which alignment, and in which pass its payload is dropped.

Sizes are natural numbers. `usize` has 64 bits, and the two places where that matters are written
out: the complement in `alignUp`, and the bound that `Layout::from_size_align` checks.

`headSize` and `headAlign` stand for `size_of::<GcHead>()` and `align_of::<GcHead>()`. They are
parameters because a debug build has a larger header.

## Main definitions

* `alignUp`, `payloadOffsetOf`, `layoutAlignOf`, `layoutSizeOf`
* `Layout`, `Layout.fromSizeAlign` — a size and an alignment that the standard library accepts
* `GcTypeInfo`, `GcTypeRegistry`, `gcTypeTableInternal` — the table `gc_type_register!` builds

## Main results

* `le_alignUp`, `alignUp_eq` — rounding by a bit mask is rounding up to a multiple
* `dvd_layoutAlignOf` — both alignments divide the alignment of the node
* `GcTypeRegistry.covers`, `GcTypeRegistry.sorted` — carried by every table
-/

namespace GcLite

/-- `usize::MAX` on a 64-bit target. -/
def usizeMax : ℕ := 2 ^ 64 - 1

/-! ### Rounding up -/

/-- Round `value` up to a multiple of `align` by masking. -/
def alignUp (value align : ℕ) : ℕ :=
  let mask := align - 1
  (value + mask) &&& (usizeMax - mask)

/-- Masking with the complement of `2 ^ k - 1` clears the low `k` bits of a 64-bit number. -/
theorem and_compl_mask {x k : ℕ} (hx : x < 2 ^ 64) (hk : k ≤ 64) :
    x &&& (usizeMax - (2 ^ k - 1)) = x / 2 ^ k * 2 ^ k := by
  have hmask : usizeMax - (2 ^ k - 1) = (2 ^ (64 - k) - 1) <<< k := by
    have hpow : 2 ^ (64 - k) * 2 ^ k = 2 ^ 64 := by rw [← Nat.pow_add, Nat.sub_add_cancel hk]
    have hpos : 0 < 2 ^ k := Nat.two_pow_pos k
    rw [Nat.shiftLeft_eq, Nat.sub_mul, hpow, usizeMax]
    omega
  rw [hmask, ← Nat.shiftLeft_eq, ← Nat.shiftRight_eq_div_pow]
  refine Nat.eq_of_testBit_eq fun i => ?_
  simp only [Nat.testBit_and, Nat.testBit_shiftLeft, Nat.testBit_two_pow_sub_one,
    Nat.testBit_shiftRight]
  by_cases hik : k ≤ i
  · by_cases hi : i < 64
    · simp [hik, show i - k < 64 - k by omega, show k + (i - k) = i by omega]
    · have hbit : x.testBit i = false :=
        Nat.testBit_lt_two_pow (lt_of_lt_of_le hx (Nat.pow_le_pow_right (by omega) (by omega)))
      simp [hbit, show k + (i - k) = i by omega]
  · simp [hik]

/-- On a power of two and without overflow, masking is rounding up to a multiple. -/
theorem alignUp_eq {value k : ℕ} (hk : k ≤ 64) (hv : value + (2 ^ k - 1) < 2 ^ 64) :
    alignUp value (2 ^ k) = (value + (2 ^ k - 1)) / 2 ^ k * 2 ^ k := by
  rw [alignUp, and_compl_mask hv hk]

theorem le_alignUp {value k : ℕ} (hk : k ≤ 64) (hv : value + (2 ^ k - 1) < 2 ^ 64) :
    value ≤ alignUp value (2 ^ k) := by
  rw [alignUp_eq hk hv]
  have hpos : 0 < 2 ^ k := Nat.two_pow_pos k
  have hdiv := Nat.div_add_mod (value + (2 ^ k - 1)) (2 ^ k)
  have hmod := Nat.mod_lt (value + (2 ^ k - 1)) hpos
  rw [Nat.mul_comm] at hdiv
  omega

/-- Of two powers of two the smaller divides the larger. -/
theorem dvd_of_isPowerOfTwo {a b : ℕ} (ha : a.isPowerOfTwo) (hb : b.isPowerOfTwo) (h : a ≤ b) :
    a ∣ b := by
  obtain ⟨k, rfl⟩ := ha
  obtain ⟨l, rfl⟩ := hb
  exact Nat.pow_dvd_pow 2 ((Nat.pow_le_pow_iff_right (by omega)).mp h)

/-! ### Layouts -/

/-- `std::alloc::Layout`: the fields carry what `Layout::from_size_align` has checked. -/
structure Layout where
  /-- In bytes. -/
  size : ℕ
  /-- In bytes. -/
  align : ℕ
  /-- The alignment is a power of two. -/
  pow : align.isPowerOfTwo
  /-- The size, rounded up to the alignment, does not exceed `isize::MAX`. -/
  fits : size + align ≤ 2 ^ 63

/-- `Layout::from_size_align`, with `none` for its error. -/
def Layout.fromSizeAlign (size align : ℕ) : Option Layout :=
  if h : align.isPowerOfTwo ∧ size + align ≤ 2 ^ 63 then some ⟨size, align, h.1, h.2⟩ else none

theorem Layout.size_of_fromSizeAlign {size align : ℕ} {layout : Layout}
    (h : Layout.fromSizeAlign size align = some layout) : layout.size = size := by
  unfold Layout.fromSizeAlign at h
  split at h
  · exact (congrArg Layout.size (Option.some.inj h)).symm
  · cases h

/-- Rounding an offset up to a layout's alignment never moves it down. -/
theorem Layout.le_alignUp (layout : Layout) {value : ℕ} (hv : value < 2 ^ 63) :
    value ≤ alignUp value layout.align := by
  obtain ⟨size, align, ⟨k, rfl⟩, fits⟩ := layout
  have hk : k ≤ 63 := (Nat.pow_le_pow_iff_right (by omega)).mp (by omega : 2 ^ k ≤ 2 ^ 63)
  exact GcLite.le_alignUp (by omega) (by omega)

/-! ### Node layouts -/

/-- Where the payload starts, counted from the header. -/
def payloadOffsetOf (headSize payloadAlign : ℕ) : ℕ := alignUp headSize payloadAlign

/-- The alignment of a node: the larger of the header's and the payload's. -/
def layoutAlignOf (headAlign payloadAlign : ℕ) : ℕ :=
  if headAlign > payloadAlign then headAlign else payloadAlign

section LayoutAlign

variable {headAlign payloadAlign : ℕ}

theorem layoutAlignOf_eq_max :
    layoutAlignOf headAlign payloadAlign = max headAlign payloadAlign := by
  rw [layoutAlignOf]
  split <;> omega

theorem isPowerOfTwo_layoutAlignOf (hhead : headAlign.isPowerOfTwo)
    (hpayload : payloadAlign.isPowerOfTwo) :
    (layoutAlignOf headAlign payloadAlign).isPowerOfTwo := by
  rw [layoutAlignOf]
  split
  · exact hhead
  · exact hpayload

/-- Whichever of the two is larger, both divide the alignment of the node. -/
theorem dvd_layoutAlignOf (hhead : headAlign.isPowerOfTwo) (hpayload : payloadAlign.isPowerOfTwo) :
    headAlign ∣ layoutAlignOf headAlign payloadAlign ∧
      payloadAlign ∣ layoutAlignOf headAlign payloadAlign := by
  have hpow := isPowerOfTwo_layoutAlignOf hhead hpayload
  rw [layoutAlignOf_eq_max] at hpow ⊢
  exact ⟨dvd_of_isPowerOfTwo hhead hpow (Nat.le_max_left _ _),
    dvd_of_isPowerOfTwo hpayload hpow (Nat.le_max_right _ _)⟩

end LayoutAlign

/-- The size of a node: header and payload, rounded up to the node's alignment. -/
def layoutSizeOf (headSize headAlign payloadSize payloadAlign : ℕ) : ℕ :=
  alignUp (payloadOffsetOf headSize payloadAlign + payloadSize)
    (layoutAlignOf headAlign payloadAlign)

/-! ### The type table -/

/-- What the heap knows of a registered type. The trace function is not a field: a payload is
modelled by the references its trace function reports. -/
structure GcTypeInfo where
  /-- The payload's size. -/
  size : ℕ
  /-- From the start of the header to the payload. -/
  payloadOffset : ℕ
  /-- The size of the whole node block. -/
  layoutSize : ℕ
  /-- Its alignment. -/
  layoutAlign : ℕ
  /-- Whether the type has a drop function. -/
  dropFn : Bool
  /-- The pass in which payloads of the type are dropped. -/
  dropPass : ℕ
deriving DecidableEq, Repr, Inhabited

/-- The checked layout of a node of this type. -/
def GcTypeInfo.layout? (info : GcTypeInfo) : Option Layout :=
  Layout.fromSizeAlign info.layoutSize info.layoutAlign

/-- The table of registered types, with the passes in which payloads are dropped. The two proofs
are what the loops over `dropPasses` rely on: every type has its pass in the list, and the passes
come in increasing order without repetition. -/
structure GcTypeRegistry where
  /-- A type id is its place. -/
  typeInfoList : List GcTypeInfo
  /-- The passes that some type has. -/
  dropPasses : List ℕ
  /-- Every type has its pass in the list. -/
  covers : ∀ info ∈ typeInfoList, info.dropPass ∈ dropPasses
  /-- No pass comes twice. -/
  sorted : dropPasses.Pairwise (· < ·)

/-- One line of `gc_type_register!`: a payload type and its `drop_pass`, if given. -/
structure TypeTableEntry where
  /-- The payload's size. -/
  size : ℕ
  /-- Its alignment. -/
  align : ℕ
  /-- `std::mem::needs_drop`. -/
  needsDrop : Bool
  /-- `none` if it is left out, which means pass 0. -/
  dropPass : Option ℕ

/-- The row of the table that the macro emits for one line. -/
def TypeTableEntry.info (headSize headAlign : ℕ) (entry : TypeTableEntry) : GcTypeInfo where
  size := entry.size
  payloadOffset := payloadOffsetOf headSize entry.align
  layoutSize := layoutSizeOf headSize headAlign entry.size entry.align
  layoutAlign := layoutAlignOf headAlign entry.align
  dropFn := entry.needsDrop
  dropPass := entry.dropPass.getD 0

/-- The pass list of the macro: sorted, then without repetitions. `Vec::dedup` drops consecutive
repetitions only, which on a sorted vector are all of them. -/
def dropPassesOf (passes : List ℕ) : List ℕ := (passes.insertionSort (· ≤ ·)).dedup

theorem mem_dropPassesOf {passes : List ℕ} {p : ℕ} : p ∈ dropPassesOf passes ↔ p ∈ passes := by
  simp [dropPassesOf]

theorem pairwise_dropPassesOf (passes : List ℕ) : (dropPassesOf passes).Pairwise (· < ·) := by
  have hle : (dropPassesOf passes).Pairwise (· ≤ ·) :=
    (passes.pairwise_insertionSort (· ≤ ·)).sublist (List.dedup_sublist _)
  have hne : (dropPassesOf passes).Pairwise (· ≠ ·) := List.nodup_dedup _
  exact (hle.and hne).imp fun h => lt_of_le_of_ne h.1 h.2

/-- The table that `gc_type_register!` builds from its lines. -/
def gcTypeTableInternal (headSize headAlign : ℕ) (entries : List TypeTableEntry) :
    GcTypeRegistry where
  typeInfoList := entries.map (TypeTableEntry.info headSize headAlign)
  dropPasses := dropPassesOf (entries.map fun entry => entry.dropPass.getD 0)
  covers := by
    intro info hinfo
    obtain ⟨entry, hentry, rfl⟩ := List.mem_map.mp hinfo
    exact mem_dropPassesOf.mpr (List.mem_map.mpr ⟨entry, hentry, rfl⟩)
  sorted := pairwise_dropPassesOf _

end GcLite
