import Mathlib

/-! # Relaxed cells

Cells of numbers that threads load and store with no order but that of each cell: its stores come
one behind the other, and a thread never goes back behind a store that it has loaded or made. A
thread adds to a cell by a load and by a store of its own, modulo the size of a cell, and between
the two other threads run. If only one thread adds to a cell, nothing that is added gets lost: the
stores of the cell are its running totals, modulo that size, and what a thread loads is one of them,
never an older one than before.
-/

namespace Relaxed

variable {T L : Type*}

/-- The stores of each cell in their order, and the newest one that a thread knows. -/
structure Memory (T L : Type*) where
  stores : L → List ℕ
  seen : T → L → ℕ
  seen_lt : ∀ t l, seen t l < (stores l).length

def Memory.zero : Memory T L := ⟨fun _ => [0], fun _ _ => 0, fun _ _ => Nat.one_pos⟩

structure Load (T L : Type*) where
  thread : T
  cell : L
  place : ℕ
  value : ℕ
  /-- What had been added to the cell by then. -/
  total : ℕ

/-- Memory, the additions that threads are in the middle of, with the value that was loaded and
the amount, the amounts that have been added to each cell, and the loads besides. -/
structure System (T L : Type*) where
  memory : Memory T L
  adding : T → Option (L × ℕ × ℕ)
  added : L → List ℕ
  loads : List (Load T L)

namespace System

def start : System T L := ⟨.zero, fun _ => none, fun _ => [], []⟩

variable {M : ℕ} {owner : L → T} {s s' : System T L} {t : T} {l : L} {i v : ℕ}

/-- What is stored are the running totals of what has been added, the owner of a cell knows the
newest, and what threads load are totals, later by later. -/
structure Coherent (M : ℕ) (owner : L → T) (s : System T L) : Prop where
  stores : ∀ l, s.memory.stores l = (s.added l).partialSums.map (· % M)
  owned : ∀ l, s.memory.seen (owner l) l = (s.added l).length
  adding : ∀ {t l v n}, s.adding t = some (l, v, n) → owner l = t ∧ v = (s.added l).sum % M
  known : ∀ e ∈ s.loads, e.place ≤ s.memory.seen e.thread e.cell
  values : ∀ e ∈ s.loads, e.value = ((s.added e.cell).take e.place).sum % M
  totals : ∀ e ∈ s.loads, e.total ≤ (s.added e.cell).sum ∧
    (owner e.cell = e.thread → e.value = e.total % M)
  sorted : s.loads.Pairwise fun e f => e.thread = f.thread → e.cell = f.cell → e.place ≤ f.place

theorem coherent_start : Coherent M owner (start : System T L) where
  stores _ := by simp [start, Memory.zero]
  owned _ := rfl
  adding h := by cases h
  known := by simp [start]
  values := by simp [start]
  totals := by simp [start]
  sorted := .nil

/-- What is loaded is a running total. -/
theorem Coherent.value_eq (h : s.Coherent M owner) (hv : (s.memory.stores l)[i]? = some v) :
    i ≤ (s.added l).length ∧ v = ((s.added l).take i).sum % M := by
  rw [h.stores, List.getElem?_map, List.getElem?_partialSums] at hv
  obtain ⟨total, htotal, rfl⟩ := Option.map_eq_some_iff.mp hv
  rw [Option.ite_none_right_eq_some] at htotal
  exact ⟨htotal.1, by rw [Option.some.inj htotal.2]⟩

theorem Coherent.value_eq_sum (h : s.Coherent M owner) (ht : owner l = t)
    (hle : s.memory.seen t l ≤ i) (hv : (s.memory.stores l)[i]? = some v) :
    i = (s.added l).length ∧ v = (s.added l).sum % M := by
  obtain ⟨hi, rfl⟩ := h.value_eq hv
  rw [← ht, h.owned] at hle
  obtain rfl : i = (s.added l).length := le_antisymm hi hle
  exact ⟨rfl, by rw [List.take_length]⟩

theorem Coherent.length_stores (h : s.Coherent M owner) (l : L) :
    (s.memory.stores l).length = (s.added l).length + 1 := by
  rw [h.stores, List.length_map, List.length_partialSums]

theorem Coherent.place_le (h : s.Coherent M owner) {e : Load T L} (he : e ∈ s.loads) :
    e.place ≤ (s.added e.cell).length := by
  have hseen := s.memory.seen_lt e.thread e.cell
  rw [h.length_stores] at hseen
  exact (h.known e he).trans (Nat.le_of_lt_succ hseen)

theorem Coherent.take_lt {l : L} (hM : (s.added l).sum < M) (i : ℕ) :
    ((s.added l).take i).sum < M :=
  ((List.take_sublist i _).sum_le_sum fun _ _ => Nat.zero_le _).trans_lt hM

/-- As long as the total has not wrapped, a load of a store that is no older finds no less. -/
theorem Coherent.value_le (h : s.Coherent M owner) {e f : Load T L} (he : e ∈ s.loads)
    (hf : f ∈ s.loads) (hcell : e.cell = f.cell) (hle : e.place ≤ f.place)
    (hM : (s.added f.cell).sum < M) : e.value ≤ f.value := by
  rw [h.values e he, h.values f hf, hcell, Nat.mod_eq_of_lt (take_lt hM _),
    Nat.mod_eq_of_lt (take_lt hM _)]
  exact (List.take_prefix_take_left hle).sublist.sum_le_sum fun _ _ => Nat.zero_le _

theorem added_prefix_update [DecidableEq L] (s : System T L) (l : L) (n : ℕ) (l' : L) :
    s.added l' <+: Function.update s.added l (s.added l ++ [n]) l' := by
  by_cases hl : l' = l
  · subst hl
    rw [Function.update_self]
    exact List.prefix_append _ _
  · rw [Function.update_of_ne hl]

end System

variable [DecidableEq T] [DecidableEq L]

namespace Memory

def see (m : Memory T L) (t : T) (l : L) (i : ℕ) (hi : i < (m.stores l).length) : Memory T L where
  stores := m.stores
  seen t' l' := if t' = t ∧ l' = l then i else m.seen t' l'
  seen_lt t' l' := by
    split_ifs with h
    · rwa [h.2]
    · exact m.seen_lt t' l'

/-- The place of a store that was at `k`, after a store has been put in at `i`. -/
def shifted (i k : ℕ) : ℕ := if i ≤ k then k + 1 else k

/-- A thread makes a store, which gets a place in the order of the cell. -/
def insert (m : Memory T L) (t : T) (l : L) (v i : ℕ) (hi : i ≤ (m.stores l).length) :
    Memory T L where
  stores := Function.update m.stores l ((m.stores l).insertIdx i v)
  seen t' l' := if l' = l then if t' = t then i else shifted i (m.seen t' l') else m.seen t' l'
  seen_lt t' l' := by
    have hlt := m.seen_lt t' l'
    by_cases hl : l' = l
    · subst hl
      rw [Function.update_self, List.length_insertIdx_of_le_length hi, if_pos rfl]
      unfold shifted
      split_ifs <;> omega
    · rwa [Function.update_of_ne hl, if_neg hl]

variable (m : Memory T L) {t : T} {l : L} {v i : ℕ}

theorem seen_le_see (hi : i < (m.stores l).length) (hle : m.seen t l ≤ i) (t' : T) (l' : L) :
    m.seen t' l' ≤ (m.see t l i hi).seen t' l' := by
  unfold see
  dsimp only
  split_ifs with h
  · rwa [h.1, h.2]
  · exact le_rfl

theorem insert_stores (hi : i ≤ (m.stores l).length) (heq : i = (m.stores l).length) :
    (m.insert t l v i hi).stores = Function.update m.stores l (m.stores l ++ [v]) := by
  subst heq
  unfold insert
  dsimp only
  rw [List.insertIdx_length_self]

theorem insert_seen (hi : i ≤ (m.stores l).length) (heq : i = (m.stores l).length) (t' : T)
    (l' : L) : (m.insert t l v i hi).seen t' l' = if t' = t ∧ l' = l then i else m.seen t' l' := by
  have hlt := m.seen_lt t' l'
  unfold insert
  by_cases hl : l' = l
  · subst hl
    have hshift : shifted i (m.seen t' l') = m.seen t' l' := if_neg (by omega)
    simp only [if_true, and_true, hshift]
  · simp only [hl, if_false, and_false]

end Memory

namespace System

variable {M : ℕ} {owner : L → T} {s s' : System T L} {t : T} {l : L} {i v : ℕ}

/-- A thread loads or stores something. Each cell has an owner, which is the only one that adds
to it. -/
inductive Step (M : ℕ) (owner : L → T) (s : System T L) : System T L → Prop where
  | begin {t : T} {l : L} {v : ℕ} (n i : ℕ) (hi : i < (s.memory.stores l).length) :
      s.adding t = none → owner l = t → s.memory.seen t l ≤ i → (s.memory.stores l)[i]? = some v →
      Step M owner s { s with
        memory := s.memory.see t l i hi
        adding := Function.update s.adding t (some (l, v, n)) }
  | finish {t : T} {l : L} {v n : ℕ} (i : ℕ) (hi : i ≤ (s.memory.stores l).length) :
      s.adding t = some (l, v, n) → s.memory.seen t l < i →
      Step M owner s { s with
        memory := s.memory.insert t l ((v + n) % M) i hi
        adding := Function.update s.adding t none
        added := Function.update s.added l (s.added l ++ [n]) }
  | load {t : T} {l : L} {v : ℕ} (i : ℕ) (hi : i < (s.memory.stores l).length) :
      s.adding t = none → s.memory.seen t l ≤ i → (s.memory.stores l)[i]? = some v →
      Step M owner s { s with
        memory := s.memory.see t l i hi
        loads := s.loads ++ [⟨t, l, i, v, (s.added l).sum⟩] }

def Reachable (M : ℕ) (owner : L → T) : System T L → Prop :=
  Relation.ReflTransGen (Step M owner) start

theorem Coherent.owned_see (h : s.Coherent M owner) (hi : i < (s.memory.stores l).length)
    (hle : s.memory.seen t l ≤ i) (hv : (s.memory.stores l)[i]? = some v) (l' : L) :
    (s.memory.see t l i hi).seen (owner l') l' = (s.added l').length := by
  unfold Memory.see
  dsimp only
  split_ifs with hown
  · obtain ⟨ht, rfl⟩ := hown
    exact (h.value_eq_sum ht hle hv).1
  · exact h.owned l'

theorem Coherent.begin (h : s.Coherent M owner) (n : ℕ) (hi : i < (s.memory.stores l).length)
    (ht : owner l = t) (hle : s.memory.seen t l ≤ i) (hv : (s.memory.stores l)[i]? = some v) :
    Coherent M owner { s with
      memory := s.memory.see t l i hi
      adding := Function.update s.adding t (some (l, v, n)) } where
  stores := h.stores
  owned := h.owned_see hi hle hv
  adding {t' l' v' n'} hadd := by
    dsimp only at hadd
    by_cases htt : t' = t
    · subst htt
      rw [Function.update_self] at hadd
      cases hadd
      exact ⟨ht, (h.value_eq_sum ht hle hv).2⟩
    · rw [Function.update_of_ne htt] at hadd
      exact h.adding hadd
  known e he := (h.known e he).trans (s.memory.seen_le_see hi hle _ _)
  values := h.values
  totals := h.totals
  sorted := h.sorted

theorem Coherent.load (h : s.Coherent M owner) (hi : i < (s.memory.stores l).length)
    (hle : s.memory.seen t l ≤ i) (hv : (s.memory.stores l)[i]? = some v) :
    Coherent M owner { s with
      memory := s.memory.see t l i hi
      loads := s.loads ++ [⟨t, l, i, v, (s.added l).sum⟩] } where
  stores := h.stores
  owned := h.owned_see hi hle hv
  adding := h.adding
  known := by
    rw [List.forall_mem_append, List.forall_mem_singleton]
    constructor
    · exact fun e he => (h.known e he).trans (s.memory.seen_le_see hi hle _ _)
    · exact (if_pos ⟨rfl, rfl⟩).ge
  values := by
    rw [List.forall_mem_append, List.forall_mem_singleton]
    exact ⟨h.values, (h.value_eq hv).2⟩
  totals := by
    rw [List.forall_mem_append, List.forall_mem_singleton]
    exact ⟨h.totals, le_rfl, fun ht => (h.value_eq_sum ht hle hv).2⟩
  sorted := by
    rw [List.pairwise_append]
    refine ⟨h.sorted, List.pairwise_singleton _ _, fun e he f hf hthread hcell => ?_⟩
    obtain rfl := List.mem_singleton.mp hf
    have hknown := h.known e he
    rw [hthread, hcell] at hknown
    exact hknown.trans hle

theorem Coherent.finish (h : s.Coherent M owner) {n : ℕ} (hi : i ≤ (s.memory.stores l).length)
    (hadd : s.adding t = some (l, v, n)) (hlt : s.memory.seen t l < i) :
    Coherent M owner { s with
      memory := s.memory.insert t l ((v + n) % M) i hi
      adding := Function.update s.adding t none
      added := Function.update s.added l (s.added l ++ [n]) } := by
  obtain ⟨ht, rfl⟩ := h.adding hadd
  -- the owner knows the newest store, so that its own goes behind all others
  have hlen := h.length_stores l
  have hend : i = (s.memory.stores l).length := by
    rw [← ht, h.owned] at hlt
    omega
  constructor
  · intro l'
    dsimp only
    rw [Memory.insert_stores _ hi hend]
    by_cases hl : l' = l
    · subst hl
      rw [Function.update_self, Function.update_self, h.stores, List.partialSums_append]
      simp [List.partialSums_cons, Nat.mod_add_mod]
    · rw [Function.update_of_ne hl, Function.update_of_ne hl, h.stores]
  · intro l'
    dsimp only
    rw [Memory.insert_seen _ hi hend]
    split_ifs with hown
    · rw [hown.2, Function.update_self, List.length_append, hend, hlen]
      rfl
    · have hl : l' ≠ l := fun hl => hown ⟨by rw [hl, ht], hl⟩
      rw [Function.update_of_ne hl, h.owned]
  · intro t' l' v' n' hadd'
    dsimp only at hadd' ⊢
    by_cases htt : t' = t
    · rw [htt, Function.update_self] at hadd'
      cases hadd'
    · rw [Function.update_of_ne htt] at hadd'
      obtain ⟨ht', hv'⟩ := h.adding hadd'
      have hl : l' ≠ l := fun hl => htt (by rw [← ht', hl, ht])
      rw [Function.update_of_ne hl]
      exact ⟨ht', hv'⟩
  · intro e he
    dsimp only
    rw [Memory.insert_seen _ hi hend]
    split_ifs with hown
    · have hknown := h.known e he
      rw [hown.1, hown.2] at hknown
      exact hknown.trans hlt.le
    · exact h.known e he
  · intro e he
    dsimp only
    obtain ⟨rest, hrest⟩ := added_prefix_update s l n e.cell
    rw [h.values e he, ← hrest, List.take_append_of_le_length (h.place_le he)]
  · intro e he
    obtain ⟨htotal, hown⟩ := h.totals e he
    refine ⟨htotal.trans ?_, hown⟩
    exact (added_prefix_update s l n e.cell).sublist.sum_le_sum fun _ _ => Nat.zero_le _
  · exact h.sorted

theorem coherent_of_reachable (h : Reachable M owner s) : Coherent M owner s := by
  induction h with
  | refl => exact coherent_start
  | tail _ hstep ih =>
    cases hstep with
    | begin n i hi _ ht hle hv => exact ih.begin n hi ht hle hv
    | finish i hi hadd hlt => exact ih.finish hi hadd hlt
    | load i hi _ hle hv => exact ih.load hi hle hv

end System

end Relaxed
