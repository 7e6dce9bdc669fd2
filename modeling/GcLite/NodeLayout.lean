import GcLite.Layout
import Mathlib.Order.Bounds.Basic

/-!
# Where the payload of a node lies

A node is one block: the header, padding, the payload, padding. Nothing records where the payload
starts. Allocation, disposal, tracing and the conversions between a handle and a reference each
compute it again, and every one of them rests on the two roundings of `gctype.rs`.

The sizes are those of a row of the type table. They need not be multiples of the alignments, which
for Rust types they are: the roundings below are right for every size.

## Main definitions

* `GcTypeInfo.payloadPtr`, `payloadFor` — from a header to its payload
* `fromRefUnchecked` — from a payload back to its header

## Main results

* `isLeast_alignUp` — the masking is rounding up to the least multiple
* `node_layout` — the parts of a block do not overlap, are aligned, and fit in the block
-/

namespace GcLite

/-! ### Least multiples -/

/-- Without overflow, masking gives the least multiple of a power of two that is not below. -/
theorem isLeast_alignUp {value align : ℕ} (halign : align.isPowerOfTwo)
    (hv : value + (align - 1) ≤ usizeMax) :
    IsLeast {m | align ∣ m ∧ value ≤ m} (alignUp value align) := by
  obtain ⟨k, rfl⟩ := halign
  have hfits : value + (2 ^ k - 1) < 2 ^ 64 := by rw [usizeMax] at hv; omega
  have hk : k ≤ 64 := (Nat.pow_le_pow_iff_right (by omega)).mp (by omega : 2 ^ k ≤ 2 ^ 64)
  refine ⟨⟨?_, le_alignUp hk hfits⟩, ?_⟩
  · rw [alignUp_eq hk hfits]
    exact Nat.dvd_mul_left _ _
  · rintro _ ⟨⟨q, rfl⟩, hle⟩
    -- The quotient of the rounding is at most `q`, since `value + (2 ^ k - 1) < 2 ^ k * (q + 1)`.
    have hpos : 0 < 2 ^ k := Nat.two_pow_pos k
    have hquot : (value + (2 ^ k - 1)) / 2 ^ k < q + 1 := by
      rw [Nat.div_lt_iff_lt_mul hpos, Nat.mul_comm, Nat.mul_add]
      omega
    rw [alignUp_eq hk hfits, Nat.mul_comm]
    exact Nat.mul_le_mul_left _ (Nat.le_of_lt_succ hquot)

/-! ### Between a header and its payload -/

/-- The address of the payload, by the row of the type table. -/
def GcTypeInfo.payloadPtr (info : GcTypeInfo) (node : ℕ) : ℕ := node + info.payloadOffset

/-- The address of the payload, by the payload type alone. -/
def payloadFor (headSize payloadAlign node : ℕ) : ℕ := node + payloadOffsetOf headSize payloadAlign

/-- The header of a payload. `try_from_ref` computes the same address before it looks at the type
in the header. -/
def fromRefUnchecked (headSize payloadAlign data : ℕ) : ℕ :=
  data - payloadOffsetOf headSize payloadAlign

section Conversions

variable {headSize headAlign : ℕ} {entry : TypeTableEntry}

/-- The table and the payload type agree on where the payload starts. -/
theorem payloadPtr_info (node : ℕ) :
    (entry.info headSize headAlign).payloadPtr node = payloadFor headSize entry.align node := rfl

theorem fromRefUnchecked_payloadFor (payloadAlign node : ℕ) :
    fromRefUnchecked headSize payloadAlign (payloadFor headSize payloadAlign node) = node :=
  Nat.add_sub_cancel _ _

theorem payloadFor_fromRefUnchecked {payloadAlign data : ℕ}
    (h : payloadOffsetOf headSize payloadAlign ≤ data) :
    payloadFor headSize payloadAlign (fromRefUnchecked headSize payloadAlign data) = data :=
  Nat.sub_add_cancel h

end Conversions

/-! ### The parts of a block -/

/-- **The layout of a node is sound.** The payload starts at the first multiple of its alignment
behind the header, and the block ends at the first multiple of its own behind the payload. In a
block whose address the allocator has aligned, header and payload are aligned, come one after the
other inside the block, and either pointer is computed back from the other. -/
theorem node_layout {headSize headAlign : ℕ} {entry : TypeTableEntry}
    (hhead : headAlign.isPowerOfTwo) (hpayload : entry.align.isPowerOfTwo)
    (hoffset : headSize + (entry.align - 1) ≤ usizeMax)
    (hsize : payloadOffsetOf headSize entry.align + entry.size +
      (layoutAlignOf headAlign entry.align - 1) ≤ usizeMax) :
    let info := entry.info headSize headAlign
    IsLeast {m | entry.align ∣ m ∧ headSize ≤ m} info.payloadOffset ∧
      info.payloadOffset + info.size ≤ info.layoutSize ∧
      IsLeast {m | info.layoutAlign ∣ m ∧ info.payloadOffset + info.size ≤ m} info.layoutSize ∧
      (∀ node, info.layoutAlign ∣ node →
        headAlign ∣ node ∧ entry.align ∣ info.payloadPtr node ∧
          node + headSize ≤ info.payloadPtr node ∧
          info.payloadPtr node + info.size ≤ node + info.layoutSize) ∧
      (∀ node, fromRefUnchecked headSize entry.align (info.payloadPtr node) = node) ∧
      ∀ data, info.payloadOffset ≤ data →
        info.payloadPtr (fromRefUnchecked headSize entry.align data) = data := by
  intro info
  have hfirst : IsLeast {m | entry.align ∣ m ∧ headSize ≤ m} info.payloadOffset :=
    isLeast_alignUp hpayload hoffset
  have hlast : IsLeast {m | info.layoutAlign ∣ m ∧ info.payloadOffset + info.size ≤ m}
      info.layoutSize :=
    isLeast_alignUp (isPowerOfTwo_layoutAlignOf hhead hpayload) hsize
  obtain ⟨hheadDvd, hpayloadDvd⟩ := dvd_layoutAlignOf hhead hpayload
  refine ⟨hfirst, hlast.1.2, hlast, fun node hnode => ?_, fun node => ?_, fun data hdata => ?_⟩
  · refine ⟨Nat.dvd_trans hheadDvd hnode, ?_, ?_, ?_⟩
    · exact Nat.dvd_add (Nat.dvd_trans hpayloadDvd hnode) hfirst.1.1
    · exact Nat.add_le_add_left hfirst.1.2 node
    · show node + info.payloadOffset + info.size ≤ node + info.layoutSize
      have := hlast.1.2
      omega
  · rw [payloadPtr_info, fromRefUnchecked_payloadFor]
  · rw [payloadPtr_info, payloadFor_fromRefUnchecked hdata]

/-- A payload aligned to 64 behind a header of 24 bytes: the payload starts at 64, and the block
takes 128 bytes. -/
theorem node_layout_overaligned :
    let info := TypeTableEntry.info 24 8 ⟨8, 64, false, none⟩
    info.payloadOffset = 64 ∧ info.layoutSize = 128 ∧
      (64 ∣ info.payloadPtr 4096 ∧ 4096 + 24 ≤ info.payloadPtr 4096) ∧
      fromRefUnchecked 24 64 (info.payloadPtr 4096) = 4096 := by
  intro info
  obtain ⟨-, -, -, hblock, hback, -⟩ :=
    @node_layout 24 8 ⟨8, 64, false, none⟩ ⟨3, rfl⟩ ⟨6, rfl⟩ (by decide) (by decide)
  obtain ⟨-, haligned, hbehind, -⟩ := hblock 4096 (by decide)
  exact ⟨by decide, by decide, ⟨haligned, hbehind⟩, hback 4096⟩

end GcLite
