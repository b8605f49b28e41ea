import Mathlib

/-! # Feedback registers

A register of `w` bits that is shifted to the right. The bit that falls out and the next bit of
the input decide whether the feedback is added. Bits that are in the register already and bits
that enter it later have the same effect, so that a block of `k` bits can enter at once: the
register is moved by `k` places, and what its low bits and the block feed back depends on their sum
only.
-/

namespace Feedback

variable {w n : ℕ} (poly : BitVec w)

/-- A bit of the input goes through the register. -/
def enter (c : BitVec w) (b : Bool) : BitVec w :=
  if c.getLsbD 0 ^^ b then poly ^^^ (c >>> 1) else c >>> 1

def shift (c : BitVec w) : BitVec w := enter poly c false

/-- The bits of a block, from the least significant one. -/
def lowBits (k : ℕ) (v : BitVec n) : List Bool := (List.range k).map v.getLsbD

def low (k : ℕ) (c : BitVec w) : BitVec w := c &&& BitVec.ofNat w (2 ^ k - 1)

theorem lowBits_succ (k : ℕ) (v : BitVec n) :
    lowBits (k + 1) v = lowBits k v ++ [v.getLsbD k] := by
  rw [lowBits, List.range_succ, List.map_append, List.map_singleton, lowBits]

theorem lowBits_congr {m k : ℕ} {u : BitVec m} {v : BitVec n}
    (h : ∀ i < k, u.getLsbD i = v.getLsbD i) : lowBits k u = lowBits k v :=
  List.map_congr_left fun i hi => h i (List.mem_range.mp hi)

theorem getLsbD_low (k i : ℕ) (c : BitVec w) :
    (low k c).getLsbD i = (c.getLsbD i && decide (i < k)) := by
  rw [low, BitVec.getLsbD_and, BitVec.getLsbD_ofNat, Nat.testBit_two_pow_sub_one]
  rcases lt_or_ge i w with hi | hi
  · rw [decide_eq_true hi, Bool.true_and]
  · rw [BitVec.getLsbD_of_ge c i hi, Bool.false_and, Bool.false_and]

theorem low_shiftRight (k : ℕ) (c : BitVec w) : low k c >>> k = 0#w := by
  apply BitVec.eq_of_getLsbD_eq
  intro i _
  rw [BitVec.getLsbD_ushiftRight, getLsbD_low, decide_eq_false (by omega), Bool.and_false]
  exact BitVec.getLsbD_zero.symm

/-- A word that was added to the register is cancelled by the input as it falls out. -/
theorem enter_xor (c v : BitVec w) :
    enter poly (c ^^^ v) (v.getLsbD 0) = shift poly c ^^^ (v >>> 1) := by
  have hbit : ((c ^^^ v).getLsbD 0 ^^ v.getLsbD 0) = (c.getLsbD 0 ^^ false) := by
    rw [BitVec.getLsbD_xor, Bool.xor_assoc, Bool.xor_self]
  rw [shift, enter, enter, hbit, BitVec.ushiftRight_xor_distrib]
  split
  · rw [BitVec.xor_assoc]
  · rfl

theorem foldl_enter_lowBits (c v : BitVec w) (k : ℕ) :
    (lowBits k v).foldl (enter poly) c = (shift poly)^[k] (c ^^^ v) ^^^ (v >>> k) := by
  induction k with
  | zero =>
    rw [Function.iterate_zero_apply, BitVec.ushiftRight_zero, BitVec.xor_assoc, BitVec.xor_self,
      BitVec.xor_zero]
    rfl
  | succ k ih =>
    have hbit : v.getLsbD k = (v >>> k).getLsbD 0 := by rw [BitVec.getLsbD_ushiftRight, add_zero]
    rw [lowBits_succ, List.foldl_concat, ih, hbit, enter_xor, Function.iterate_succ_apply',
      BitVec.shiftRight_add]

/-- A block enters the register at once. What is fed back is that of the sum of the block and the
low bits of the register. -/
theorem foldl_enter_block {k : ℕ} (hk : k ≤ w) (c : BitVec w) (v : BitVec k) :
    (lowBits k v).foldl (enter poly) c =
      (shift poly)^[k] (low k (c ^^^ v.setWidth w)) ^^^ (c >>> k) := by
  -- The block is continued by the register's own bits, which cancel what is above the low ones.
  have hblock : lowBits k v = lowBits k (c ^^^ low k (c ^^^ v.setWidth w)) := by
    apply lowBits_congr
    intro i hi
    rw [BitVec.getLsbD_xor, getLsbD_low, BitVec.getLsbD_xor, BitVec.getLsbD_setWidth,
      decide_eq_true hi, decide_eq_true (hi.trans_le hk), Bool.and_true, Bool.true_and,
      ← Bool.xor_assoc, Bool.xor_self, Bool.false_xor]
  rw [hblock, foldl_enter_lowBits, ← BitVec.xor_assoc, BitVec.xor_self, BitVec.zero_xor,
    BitVec.ushiftRight_xor_distrib, low_shiftRight, BitVec.xor_zero]

end Feedback
