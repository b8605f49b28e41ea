import Mathlib

/-! # First occurrences

The position of the first occurrence of a pattern in a list, and how it moves
when the list is extended. A pattern without borders splits a list at exactly
the pattern-free words in front of it.
-/

namespace Search

variable {α : Type*} [DecidableEq α]

def find (pat : List α) : List α → Option ℕ
  | [] => if pat = [] then some 0 else none
  | a :: s => if pat <+: a :: s then some 0 else (find pat s).map (· + 1)

variable {pat s t l : List α} {i : ℕ}

theorem find_eq_some (h : find pat s = some i) :
    pat <+: s.drop i ∧ ∀ j < i, ¬ pat <+: s.drop j := by
  induction s generalizing i with
  | nil =>
    simp only [find] at h
    split at h
    · next hp => cases h; simp [hp]
    · cases h
  | cons a s ih =>
    simp only [find] at h
    split at h
    · next hp => cases h; exact ⟨hp, by simp⟩
    · next hp =>
      obtain ⟨j, hj, rfl⟩ := Option.map_eq_some_iff.mp h
      refine ⟨(ih hj).1, fun k hk => ?_⟩
      cases k with
      | zero => simpa using hp
      | succ k => exact (ih hj).2 k (by omega)

theorem find_eq_none (h : find pat s = none) (j : ℕ) : ¬ pat <+: s.drop j := by
  induction s generalizing j with
  | nil =>
    simp only [find] at h
    split at h
    · cases h
    · next hp => simpa using hp
  | cons a s ih =>
    simp only [find] at h
    split at h
    · cases h
    · next hp =>
      cases j with
      | zero => simpa using hp
      | succ j => exact ih (Option.map_eq_none_iff.mp h) j

theorem find_eq_some_of (h : pat <+: s.drop i) (hmin : ∀ j < i, ¬ pat <+: s.drop j) :
    find pat s = some i := by
  cases hf : find pat s with
  | none => exact (find_eq_none hf i h).elim
  | some j =>
    obtain ⟨hj, hjmin⟩ := find_eq_some hf
    rcases Nat.lt_trichotomy i j with hlt | rfl | hlt
    · exact (hjmin i hlt h).elim
    · rfl
    · exact (hmin j hlt hj).elim

theorem find_eq_none_of (h : ∀ j, ¬ pat <+: s.drop j) : find pat s = none := by
  cases hf : find pat s with
  | none => rfl
  | some j => exact (h j (find_eq_some hf).1).elim

theorem find_add_length_le (h : find pat s = some i) : i + pat.length ≤ s.length := by
  have hlen := (find_eq_some h).1.length_le
  by_cases hi : i ≤ s.length
  · rw [List.length_drop] at hlen; omega
  · have hp : pat = [] := by
      rw [List.drop_eq_nil_of_le (by omega)] at hlen
      exact List.length_eq_zero_iff.mp (by simpa using hlen)
    exact ((find_eq_some h).2 s.length (by omega) (by simp [hp])).elim

theorem find_append_of_some (t : List α) (h : find pat s = some i) :
    find pat (s ++ t) = some i := by
  have hle := find_add_length_le h
  obtain ⟨hp, hmin⟩ := find_eq_some h
  refine find_eq_some_of ?_ fun j hj hpre => hmin j hj ?_
  · rw [List.drop_append_of_le_length (by omega)]
    exact hp.trans (List.prefix_append _ _)
  · rw [List.drop_append_of_le_length (by omega)] at hpre
    exact List.prefix_of_prefix_length_le hpre (List.prefix_append _ _)
      (by rw [List.length_drop]; omega)

/-- A first occurrence created by an extension reaches into the extension. -/
theorem length_lt_of_find_append (h : find pat s = none) (ht : find pat (s ++ t) = some i) :
    s.length < i + pat.length := by
  by_contra hle
  refine find_eq_none h i ?_
  have hp := (find_eq_some ht).1
  rw [List.drop_append_of_le_length (by omega)] at hp
  exact List.prefix_of_prefix_length_le hp (List.prefix_append _ _)
    (by rw [List.length_drop]; omega)

/-- No proper suffix of the pattern is also one of its prefixes. -/
def Unbordered (pat : List α) : Prop :=
  ∀ k, 0 < k → k < pat.length → ¬ pat.drop k <+: pat

omit [DecidableEq α] in
theorem infix_iff_prefix_drop : pat <:+: s ↔ ∃ j, pat <+: s.drop j := by
  constructor
  · rintro ⟨u, v, rfl⟩
    exact ⟨u.length, by simp [List.append_assoc]⟩
  · rintro ⟨j, hj⟩
    exact hj.isInfix.trans (List.drop_suffix j s).isInfix

theorem find_isSome_iff : (find pat s).isSome = true ↔ pat <:+: s := by
  constructor
  · intro h
    obtain ⟨i, hi⟩ := Option.isSome_iff_exists.mp h
    exact infix_iff_prefix_drop.mpr ⟨i, (find_eq_some hi).1⟩
  · intro h
    obtain ⟨j, hj⟩ := infix_iff_prefix_drop.mp h
    by_contra hnone
    exact find_eq_none (Option.not_isSome_iff_eq_none.mp hnone) j hj

theorem not_infix_take_of_find (h : find pat s = some i) (hpat : pat ≠ []) :
    ¬ pat <:+: s.take i := by
  rintro hin
  obtain ⟨j, hj⟩ := infix_iff_prefix_drop.mp hin
  have hlt : j < i := by
    by_contra hge
    rw [List.drop_eq_nil_of_le (by simp; omega)] at hj
    exact hpat (List.prefix_nil.mp hj)
  refine (find_eq_some h).2 j hlt (hj.trans ?_)
  rw [List.drop_take]
  exact List.take_prefix _ _

theorem find_append_pat (hb : Unbordered pat) (hl : ¬ pat <:+: l) :
    find pat (l ++ (pat ++ t)) = some l.length := by
  refine find_eq_some_of (by simp) fun j hj hpre => ?_
  rw [List.drop_append_of_le_length (by omega)] at hpre
  by_cases hle : pat.length ≤ (l.drop j).length
  · exact hl (infix_iff_prefix_drop.mpr
      ⟨j, List.prefix_of_prefix_length_le hpre (List.prefix_append _ _) hle⟩)
  · -- the occurrence straddles the end of `l`, so the pattern overlaps itself
    have hpos : 0 < (l.drop j).length := by rw [List.length_drop]; omega
    refine hb (l.drop j).length hpos (by omega) ?_
    have hd := hpre.drop (l.drop j).length
    rw [List.drop_left] at hd
    exact List.prefix_of_prefix_length_le hd (List.prefix_append _ _)
      (by rw [List.length_drop]; omega)

/-- A first occurrence splits the list at a pattern-free word. -/
theorem find_eq_some_iff (hb : Unbordered pat) (hpat : pat ≠ []) :
    find pat s = some i ↔ ∃ l t, s = l ++ (pat ++ t) ∧ l.length = i ∧ ¬ pat <:+: l := by
  constructor
  · intro h
    obtain ⟨t, ht⟩ := (find_eq_some h).1
    have hle := find_add_length_le h
    refine ⟨s.take i, t, ?_, by simp; omega, not_infix_take_of_find h hpat⟩
    rw [ht, List.take_append_drop]
  · rintro ⟨l, t, rfl, rfl, hl⟩
    exact find_append_pat hb hl

theorem find_append_of_not_mem {a : α} {u : List α} (h : a ∉ u) :
    find (a :: pat) (u ++ s) = (find (a :: pat) s).map (u.length + ·) := by
  induction u with
  | nil => simp
  | cons b u ih =>
    simp only [List.mem_cons, not_or] at h
    have hpre : ¬ a :: pat <+: b :: (u ++ s) := fun hp => h.1 (List.cons_prefix_cons.mp hp).1
    rw [List.cons_append, find, if_neg hpre, ih h.2, Option.map_map]
    refine congrFun (congrArg _ ?_) _
    funext n
    simp only [Function.comp_apply, List.length_cons]
    omega

theorem idxOf?_eq_some_iff_append {a : α} :
    s.idxOf? a = some i ↔ ∃ u v, s = u ++ a :: v ∧ u.length = i ∧ a ∉ u := by
  induction s generalizing i with
  | nil => simp
  | cons b s ih =>
    rw [List.idxOf?_cons]
    constructor
    · intro h
      split at h
      · next hb => cases h; exact ⟨[], s, by simpa using hb, rfl, by simp⟩
      · next hb =>
        obtain ⟨j, hj, rfl⟩ := Option.map_eq_some_iff.mp h
        obtain ⟨u, v, rfl, rfl, hu⟩ := ih.mp hj
        exact ⟨b :: u, v, rfl, rfl, by simp [hu, Ne.symm (by simpa using hb : b ≠ a)]⟩
    · rintro ⟨u, v, h, rfl, hu⟩
      cases u with
      | nil => cases h; simp
      | cons c u =>
        cases h
        simp only [List.mem_cons, not_or] at hu
        rw [if_neg (by simpa using Ne.symm hu.1), ih.mpr ⟨u, v, rfl, rfl, hu.2⟩]
        rfl

/-- Cut a list at the occurrences of a pattern. -/
def pieces (pat s : List α) : List (List α) :=
  match _h : find pat s with
  | none => [s]
  | some i => if _hp : pat = [] then [s] else s.take i :: pieces pat (s.drop (i + pat.length))
termination_by s.length
decreasing_by
  have hle := find_add_length_le _h
  have hpos := List.length_pos_iff.mpr _hp
  rw [List.length_drop]
  omega

theorem pieces_of_not_infix (h : ¬ pat <:+: s) : pieces pat s = [s] := by
  have hnone : find pat s = none :=
    find_eq_none_of fun j hj => h (infix_iff_prefix_drop.mpr ⟨j, hj⟩)
  rw [pieces]
  split
  · rfl
  · next hs => cases hnone.symm.trans hs

theorem pieces_append_pat (hb : Unbordered pat) (hpat : pat ≠ []) (hl : ¬ pat <:+: l) :
    pieces pat (l ++ (pat ++ t)) = l :: pieces pat t := by
  have hsome := find_append_pat (t := t) hb hl
  rw [pieces]
  split
  · next hs => cases hsome.symm.trans hs
  · next i hs =>
    cases hsome.symm.trans hs
    rw [dif_neg hpat, List.take_left, ← List.append_assoc, ← List.length_append, List.drop_left]

theorem pieces_flatten (hb : Unbordered pat) (hpat : pat ≠ []) {ls : List (List α)}
    (hls : ∀ l ∈ ls, ¬ pat <:+: l) :
    pieces pat ((ls.map (· ++ pat)).flatten ++ t) = ls ++ pieces pat t := by
  induction ls with
  | nil => simp
  | cons l ls ih =>
    rw [List.map_cons, List.flatten_cons, List.append_assoc, List.append_assoc,
      pieces_append_pat hb hpat (hls l List.mem_cons_self),
      ih fun l hl => hls l (List.mem_cons_of_mem _ hl), List.cons_append]

omit [DecidableEq α] in
/-- A list has no separator, or it is a word without one, a separator and a list. -/
theorem split_induction {a : α} {P : List α → Prop} (hlast : ∀ u, a ∉ u → P u)
    (hcons : ∀ u v, a ∉ u → P v → P (u ++ a :: v)) (s : List α) : P s := by
  generalize hn : s.length = n
  induction n using Nat.strong_induction_on generalizing s with
  | _ n ih =>
    by_cases ha : a ∈ s
    · obtain ⟨u, v, rfl, hu⟩ := List.eq_append_cons_of_mem ha
      exact hcons u v hu (ih v.length (by simp at hn; omega) v rfl)
    · exact hlast s ha

theorem not_mem_of_mem_splitOn {a : α} {u : List α} (h : u ∈ s.splitOn a) : a ∉ u := by
  induction s using split_induction (a := a) with
  | hlast w hw =>
    rw [List.splitOn_eq_singleton hw, List.mem_singleton] at h
    exact h ▸ hw
  | hcons w v hw ih =>
    rw [List.splitOn_append_cons_self_of_not_mem hw, List.mem_cons] at h
    rcases h with rfl | h
    · exact hw
    · exact ih h

omit [DecidableEq α] in
theorem intercalate_concat (sep : List α) (ws : List (List α)) (w : List α) :
    sep.intercalate (ws ++ [w]) =
      if ws = [] then w else sep.intercalate ws ++ sep ++ w := by
  induction ws with
  | nil => simp
  | cons v ws ih =>
    cases ws with
    | nil => simp [List.intercalate_cons_cons]
    | cons v' ws =>
      simp only [List.cons_append, List.intercalate_cons_cons] at ih ⊢
      rw [ih]
      simp

theorem pieces_intercalate (hb : Unbordered pat) (hpat : pat ≠ []) {ls : List (List α)}
    (hne : ls ≠ []) (hls : ∀ l ∈ ls, ¬ pat <:+: l) : pieces pat (pat.intercalate ls) = ls := by
  induction ls with
  | nil => exact absurd rfl hne
  | cons l ls ih =>
    have hl := hls l List.mem_cons_self
    cases ls with
    | nil => rw [List.intercalate_singleton, pieces_of_not_infix hl]
    | cons l' ls =>
      rw [List.intercalate_cons_cons, List.append_assoc, pieces_append_pat hb hpat hl,
        ih (List.cons_ne_nil _ _) fun l hl => hls l (List.mem_cons_of_mem _ hl)]

section Words

variable {w u v : List α}

omit [DecidableEq α] in
theorem prefix_append_cons_iff {a : α} (ha : a ∉ w) : w <+: u ++ a :: v ↔ w <+: u := by
  constructor
  · intro h
    rcases Nat.lt_or_ge u.length w.length with hlt | hge
    · have hpre : u ++ [a] <+: w :=
        List.prefix_of_prefix_length_le ⟨v, by simp⟩ h (by simpa using hlt)
      exact absurd (hpre.subset (by simp)) ha
    · exact List.prefix_of_prefix_length_le h (List.prefix_append _ _) hge
  · exact fun h => h.trans (List.prefix_append _ _)

omit [DecidableEq α] in
theorem infix_append_cons_iff {a : α} (ha : a ∉ w) :
    w <:+: u ++ a :: v ↔ w <:+: u ∨ w <:+: v := by
  induction u with
  | nil =>
    have hnil : w <+: [] ++ a :: v ↔ w <+: [] := prefix_append_cons_iff ha
    rw [List.nil_append] at hnil ⊢
    rw [List.infix_cons_iff, hnil, List.prefix_nil, List.infix_nil]
  | cons c u ih =>
    rw [List.cons_append, List.infix_cons_iff, List.infix_cons_iff, ih, ← List.cons_append,
      prefix_append_cons_iff ha, or_assoc]

omit [DecidableEq α] in
/-- A word that shares no letter with the separator occurs in one of the joined words. -/
theorem infix_intercalate_iff {sep : List α} (hsep : sep ≠ []) (hw : ∀ a ∈ sep, a ∉ w)
    (hne : w ≠ []) {ls : List (List α)} :
    w <:+: sep.intercalate ls ↔ ∃ l ∈ ls, w <:+: l := by
  have hjoin : ∀ u v, w <:+: u ++ sep ++ v ↔ w <:+: u ∨ w <:+: v := by
    intro u v
    induction sep generalizing u with
    | nil => exact absurd rfl hsep
    | cons a sep ih =>
      have ha := hw a List.mem_cons_self
      rw [List.append_assoc, List.cons_append, infix_append_cons_iff ha]
      cases sep with
      | nil => rfl
      | cons b sep =>
        have hrest := ih (List.cons_ne_nil _ _) (fun a h => hw a (List.mem_cons_of_mem _ h)) []
        rw [List.nil_append] at hrest
        rw [hrest, List.infix_nil, or_iff_right hne]
  induction ls with
  | nil => simpa using hne
  | cons l ls ih =>
    cases ls with
    | nil => simp
    | cons l' ls =>
      rw [List.intercalate_cons_cons, hjoin, List.exists_mem_cons_iff]
      exact or_congr_right ih

end Words

end Search
