import Mathlib.Algebra.GroupWithZero.Nat
import Mathlib.Data.Nat.Notation
import Mathlib.Logic.Function.Basic
import Mathlib.Tactic.Common

/-!
# Words in a memory of bytes

A memory has a byte at every address. A word of `n` bytes is a number below `256 ^ n`, with its
lowest byte at the lowest address. Nothing stops two words from overlapping: writing one of them
then changes the other, and the lemmas below say when it does not.

## Main definitions

* `Memory`, `read m a n`, `write m a v n` — a memory, and the `n` bytes from `a` on

## Main results

* `read_write` — a word that fits is read back
* `write_of_outside`, `read_write_of_disjoint` — nothing else changes
-/

namespace Bytes

/-- A byte at every address. -/
abbrev Memory := ℕ → UInt8

/-- The word of `n` bytes at `a`. -/
def read (m : Memory) (a : ℕ) : ℕ → ℕ
  | 0 => 0
  | n + 1 => (m a).toNat + 256 * read m (a + 1) n

/-- Write the lowest `n` bytes of `v` at `a`. -/
def write (m : Memory) (a v : ℕ) : ℕ → Memory
  | 0 => m
  | n + 1 => write (Function.update m a (UInt8.ofNat v)) (a + 1) (v / 256) n

variable {m m' : Memory} {a b v n k : ℕ}

theorem read_congr (h : ∀ i, a ≤ i → i < a + n → m' i = m i) : read m' a n = read m a n := by
  induction n generalizing a with
  | zero => rfl
  | succ n ih =>
    rw [read, read, h a (Nat.le_refl a) (by omega), ih fun i hi hi' => h i (by omega) (by omega)]

theorem write_of_outside (h : b < a ∨ a + n ≤ b) : write m a v n b = m b := by
  induction n generalizing m a v with
  | zero => rfl
  | succ n ih =>
    rw [write, ih (by omega), Function.update_of_ne (by omega)]

/-- A word keeps its value when a word that does not overlap it is written. -/
theorem read_write_of_disjoint (h : b + k ≤ a ∨ a + n ≤ b) :
    read (write m a v n) b k = read m b k :=
  read_congr fun i hi hi' => write_of_outside (by omega)

/-- A word that fits is read back. -/
theorem read_write (hv : v < 256 ^ n) : read (write m a v n) a n = v := by
  induction n generalizing m a v with
  | zero => exact (Nat.lt_one_iff.mp hv).symm
  | succ n ih =>
    have hhigh : v / 256 < 256 ^ n := by
      rw [Nat.div_lt_iff_lt_mul (by omega), ← Nat.pow_succ]
      exact hv
    have hlow : write (Function.update m a (UInt8.ofNat v)) (a + 1) (v / 256) n a =
        UInt8.ofNat v := by
      rw [write_of_outside (by omega), Function.update_self]
    rw [write, read, hlow, ih hhigh, UInt8.toNat_ofNat']
    exact Nat.mod_add_div v 256

end Bytes
