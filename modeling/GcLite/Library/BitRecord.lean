import Mathlib.Data.BitVec

/-!
# Records in a word

A machine word that holds several small values, each under a mask of its own. Setting a flag,
clearing one and replacing a small number are one operation: a field is overwritten. Reading a field
after that gives what was written if it is the same field, and what was there before if it is not.

## Main definitions

* `BitRecord ι w` — a mask for each field, no two of which share a bit
* `BitRecord.get`, `BitRecord.set` — the bits under a mask, and the word with other bits there
* `BitRecord.Fits` — a value has no bit outside of a field

## Main results

* `get_set_self`, `get_set_of_ne`
* `or_mask`, `and_not_mask` — setting and clearing all bits of a field
-/

/-- The fields of a word. -/
structure BitRecord (ι : Type*) (w : ℕ) where
  /-- The bits of a field. -/
  mask : ι → BitVec w
  /-- No bit belongs to two fields. -/
  apart : ∀ i j, i ≠ j → mask i &&& mask j = 0#w

namespace BitRecord

variable {ι : Type*} {w : ℕ} {r : BitRecord ι w} {i j : ι} {x v : BitVec w}

/-- The bits of a field, where they are. -/
def get (r : BitRecord ι w) (i : ι) (x : BitVec w) : BitVec w := x &&& r.mask i

/-- Other bits for a field. -/
def set (r : BitRecord ι w) (i : ι) (v x : BitVec w) : BitVec w := (x &&& ~~~(r.mask i)) ||| v

/-- The value lies under the field's mask. -/
def Fits (r : BitRecord ι w) (i : ι) (v : BitVec w) : Prop := v &&& r.mask i = v

theorem fits_mask : r.Fits i (r.mask i) := BitVec.and_self

theorem fits_zero : r.Fits i 0#w := BitVec.zero_and

theorem get_set_self (hv : r.Fits i v) : r.get i (r.set i v x) = v := by
  rw [get, set, BitVec.and_or_distrib_right, hv, BitVec.and_assoc, BitVec.not_and_self]
  simp

/-- A mask has no bit of another one. -/
theorem not_mask_and_mask (hij : i ≠ j) : ~~~(r.mask i) &&& r.mask j = r.mask j := by
  have happart := r.apart i j hij
  ext k hk
  have hbit : ((r.mask i)[k] && (r.mask j)[k]) = false := by
    rw [← BitVec.getElem_and, happart, BitVec.getElem_zero]
  rw [BitVec.getElem_and, BitVec.getElem_not]
  cases hi : (r.mask i)[k] with
  | false => rfl
  | true =>
    rw [hi, Bool.true_and] at hbit
    rw [hbit]
    rfl

theorem get_set_of_ne (hij : i ≠ j) (hv : r.Fits i v) : r.get j (r.set i v x) = r.get j x := by
  have hzero : v &&& r.mask j = 0#w := by
    rw [← hv, BitVec.and_assoc, r.apart i j hij, BitVec.and_zero]
  rw [get, set, BitVec.and_or_distrib_right, hzero, BitVec.or_zero, BitVec.and_assoc,
    not_mask_and_mask hij, get]

/-- Setting all bits of a field. -/
theorem or_mask : x ||| r.mask i = r.set i (r.mask i) x := by
  ext k hk
  rw [set, BitVec.getElem_or, BitVec.getElem_or, BitVec.getElem_and, BitVec.getElem_not]
  cases x[k] <;> cases (r.mask i)[k] <;> rfl

/-- Clearing all bits of a field. -/
theorem and_not_mask : x &&& ~~~(r.mask i) = r.set i 0#w x := BitVec.or_zero.symm

end BitRecord
