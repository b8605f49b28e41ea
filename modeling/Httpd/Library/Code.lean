import Mathlib

/-! # Prefix codes

A code relates words to the values that they stand for, and no word is the beginning of another.
A list is decoded into words that are there as a whole and one that has only begun; the values
are determined by the list, and what is decoded of a longer list begins with what is decoded of a
shorter one.
-/

namespace Code

variable {α ρ : Type*}

/-- Words are not empty, and a word that another begins with is that word. -/
structure PrefixFree (M : List α → ρ → Prop) : Prop where
  ne_nil : ∀ {u x}, M u x → u ≠ []
  eq_of_prefix : ∀ {u v x y}, M u x → M v y → u <+: v → u = v ∧ x = y

/-- A word has begun and is not there as a whole. -/
def Begun (M : List α → ρ → Prop) (d : List α) : Prop :=
  ∃ u x, M u x ∧ d <+: u ∧ d.length < u.length

/-- The list is made up of words for these values, and a word that has begun. -/
def Decodes (M : List α → ρ → Prop) (d : List α) (xs : List ρ) : Prop :=
  ∃ us y, d = us.flatten ++ y ∧ List.Forall₂ M us xs ∧ Begun M y

variable {M : List α → ρ → Prop} {d e : List α} {xs ys : List ρ} {us : List (List α)}

theorem Begun.of_prefix (h : Begun M d) (he : e <+: d) : Begun M e := by
  obtain ⟨u, x, hu, hpre, hlt⟩ := h
  exact ⟨u, x, hu, he.trans hpre, he.length_le.trans_lt hlt⟩

theorem Decodes.of_begun (h : Begun M d) : Decodes M d [] := ⟨[], d, rfl, .nil, h⟩

theorem Decodes.cons {u : List α} {x : ρ} (hu : M u x) (h : Decodes M d xs) :
    Decodes M (u ++ d) (x :: xs) := by
  obtain ⟨us, y, rfl, hus, hy⟩ := h
  exact ⟨u :: us, y, by simp, .cons hu hus, hy⟩

theorem Decodes.of_prefix (h : Decodes M d xs) (he : e <+: d) :
    ∃ ys, ys <+: xs ∧ Decodes M e ys := by
  obtain ⟨us, y, rfl, hus, hy⟩ := h
  induction hus generalizing e with
  | nil => exact ⟨[], List.prefix_rfl, .of_begun (hy.of_prefix (by simpa using he))⟩
  | @cons u x us xs hu _ ih =>
    rw [List.flatten_cons, List.append_assoc] at he
    rcases Nat.lt_or_ge e.length u.length with hlt | hge
    · have hpre := List.prefix_of_prefix_length_le he (List.prefix_append _ _) hlt.le
      exact ⟨[], List.nil_prefix, .of_begun ⟨u, x, hu, hpre, hlt⟩⟩
    · obtain ⟨e, rfl⟩ := List.prefix_of_prefix_length_le (List.prefix_append _ _) he hge
      obtain ⟨ys, hpre, hys⟩ := ih ((List.prefix_append_right_inj u).mp he)
      exact ⟨x :: ys, List.cons_prefix_cons.mpr ⟨rfl, hpre⟩, hys.cons hu⟩

theorem Decodes.tail (hM : PrefixFree M) {u : List α} {x : ρ} (hu : M u x)
    (h : Decodes M (u ++ d) ys) : ∃ xs, ys = x :: xs ∧ Decodes M d xs := by
  obtain ⟨vs, y, hd, hvs, hy⟩ := h
  cases hvs with
  | nil =>
    obtain ⟨v, z, hv, hpre, hlt⟩ := hy
    have hy' : u <+: y := ⟨d, by simpa using hd⟩
    have heq := (hM.eq_of_prefix hu hv (hy'.trans hpre)).1
    have hle := hy'.length_le
    rw [heq] at hle
    omega
  | @cons v z vs zs hv hvs =>
    rw [List.flatten_cons, List.append_assoc] at hd
    have hpre : u <+: v ++ (vs.flatten ++ y) := ⟨d, hd⟩
    obtain ⟨rfl, rfl⟩ : u = v ∧ x = z := by
      rcases List.prefix_or_prefix_of_prefix hpre (List.prefix_append v _) with h | h
      · exact hM.eq_of_prefix hu hv h
      · obtain ⟨rfl, rfl⟩ := hM.eq_of_prefix hv hu h
        exact ⟨rfl, rfl⟩
    rw [List.append_cancel_left_eq] at hd
    exact ⟨zs, rfl, vs, y, hd, hvs, hy⟩

theorem Decodes.drop (hM : PrefixFree M) (hus : List.Forall₂ M us xs)
    (h : Decodes M (us.flatten ++ d) ys) : ∃ zs, ys = xs ++ zs ∧ Decodes M d zs := by
  induction hus generalizing ys with
  | nil => exact ⟨ys, rfl, by simpa using h⟩
  | @cons u x us xs hu _ ih =>
    rw [List.flatten_cons, List.append_assoc] at h
    obtain ⟨ys', rfl, hrest⟩ := h.tail hM hu
    obtain ⟨zs, rfl, hd⟩ := ih hrest
    exact ⟨zs, rfl, hd⟩

/-- A list is decoded in one way only. -/
theorem Decodes.unique (hM : PrefixFree M) (h : Decodes M d xs) (h' : Decodes M d ys) :
    xs = ys := by
  obtain ⟨us, y, rfl, hus, v, z, hv, hpre, hlt⟩ := h
  obtain ⟨zs, rfl, ws, w, hw, hws, -⟩ := h'.drop hM hus
  cases hws with
  | nil => simp
  | @cons t a ws zs ht _ =>
    -- what has only begun cannot begin with a whole word
    have hty : t <+: y := ⟨ws.flatten ++ w, by rw [hw, List.flatten_cons, List.append_assoc]⟩
    have heq := (hM.eq_of_prefix ht hv (hty.trans hpre)).1
    have hle := hty.length_le
    rw [heq] at hle
    omega

end Code
