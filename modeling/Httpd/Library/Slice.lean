import Mathlib

/-! # Slices and prefixes

A slice of a list, and a list in which a slice has been overwritten, as memory that is read
and written by position and length. A condition on each element of a list may depend on the
elements before it.
-/

namespace Slice

variable {α : Type*}

def slice (l : List α) (i n : ℕ) : List α := (l.drop i).take n

/-- The list with these elements in place of its own from a position on. -/
def overwrite (l : List α) (i : ℕ) (d : List α) : List α := l.take i ++ d ++ l.drop (i + d.length)

variable {l d : List α} {i j k m n : ℕ}

@[simp] theorem slice_zero : slice l i 0 = [] := List.take_zero

theorem length_slice (h : i + n ≤ l.length) : (slice l i n).length = n := by
  rw [slice, List.length_take, List.length_drop]
  omega

theorem slice_add : slice l i (m + n) = slice l i m ++ slice l (i + m) n := by
  rw [slice, slice, slice, List.take_add, List.drop_drop]

theorem drop_slice : (slice l i n).drop k = slice l (i + k) (n - k) := by
  rw [slice, slice, List.drop_take, List.drop_drop]

theorem slice_map_range {f : ℕ → α} (h : i + n ≤ k) :
    slice ((List.range k).map f) i n = (List.range' i n).map f := by
  obtain ⟨r, rfl⟩ := Nat.exists_eq_add_of_le h
  have hrange : List.range (i + n + r) =
      List.range' 0 i ++ (List.range' i n ++ List.range' (i + n) r) := by
    rw [List.range_eq_range', Nat.add_assoc, ← List.range'_append_1, ← List.range'_append_1,
      Nat.zero_add]
  rw [slice, hrange, ← List.map_drop, ← List.map_take, List.drop_left' List.length_range',
    List.take_left' List.length_range']

theorem length_overwrite (h : i + d.length ≤ l.length) : (overwrite l i d).length = l.length := by
  simp only [overwrite, List.length_append, List.length_take, List.length_drop]
  omega

theorem slice_overwrite_of_le (h : i + n ≤ j) (hj : j ≤ l.length) :
    slice (overwrite l j d) i n = slice l i n := by
  have hlen : i ≤ (l.take j).length := by rw [List.length_take]; omega
  have hn : n ≤ ((l.take j).drop i).length := by rw [List.length_drop, List.length_take]; omega
  rw [slice, overwrite, List.append_assoc, List.drop_append_of_le_length hlen,
    List.take_append_of_le_length hn, List.drop_take, List.take_take, slice]
  congr 1
  omega

theorem slice_overwrite_take (hj : j ≤ l.length) (hm : m ≤ d.length) :
    slice (overwrite l j d) j m = d.take m := by
  have hlen : (l.take j).length = j := by rw [List.length_take]; omega
  rw [slice, overwrite, List.append_assoc, List.drop_left' hlen, List.take_append_of_le_length hm]

theorem slice_overwrite_self (hj : j ≤ l.length) :
    slice (overwrite l j d) j d.length = d := by
  rw [slice_overwrite_take hj le_rfl, List.take_length]

def AtEach (P : List α → α → Prop) (l : List α) : Prop :=
  ∀ before a, before ++ [a] <+: l → P before a

variable {P : List α → α → Prop} {a : α}

theorem atEach_nil : AtEach P [] := fun before a h => absurd (List.prefix_nil.mp h) (by simp)

theorem atEach_concat : AtEach P (l ++ [a]) ↔ AtEach P l ∧ P l a := by
  constructor
  · intro h
    exact ⟨fun before x hp => h before x (hp.trans (List.prefix_append _ _)), h l a List.prefix_rfl⟩
  · rintro ⟨h, ha⟩ before x hp
    rcases List.prefix_concat_iff.mp hp with heq | hp
    · obtain ⟨rfl, hx⟩ := List.append_inj' heq rfl
      exact (List.cons.inj hx).1 ▸ ha
    · exact h before x hp

end Slice
