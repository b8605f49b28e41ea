import Mathlib

/-! # Tables

Finite maps from keys to entries, and the total of a measure over the entries. A table is
an association list with distinct keys, of which the order carries no meaning.
-/

abbrev Table (κ α : Type*) := AList fun _ : κ => α

namespace Table

variable {κ α : Type*} (f : α → ℕ)

/-- The total of a measure over the entries. -/
def total (t : Table κ α) : ℕ := (t.entries.map fun e => f e.2).sum

@[simp] theorem total_empty : total f (∅ : Table κ α) = 0 := rfl

theorem total_one (t : Table κ α) : total (fun _ => 1) t = t.keys.length := by
  simp [total, AList.keys, List.keys]

variable [DecidableEq κ] {t : Table κ α} {k : κ} {a b : α}

theorem mem_of_lookup (h : t.lookup k = some a) : k ∈ t :=
  AList.lookup_isSome.mp (by rw [h]; rfl)

theorem total_erase (h : t.lookup k = some a) : total f t = f a + total f (t.erase k) := by
  have hk : k ∈ t.entries.keys := mem_of_lookup h
  obtain ⟨b, l₁, l₂, hnot, hentries, herase⟩ := List.exists_of_kerase hk
  have hab : a = b := by
    have hb : t.lookup k = some b := by
      apply AList.mem_lookup_iff.mpr
      rw [hentries]
      exact List.mem_append_right _ List.mem_cons_self
    exact Option.some.inj (h.symm.trans hb)
  have htotal : total f (t.erase k) = ((l₁ ++ l₂).map fun e => f e.2).sum := by
    rw [← herase]
    rfl
  rw [htotal, total, hentries, hab]
  simp only [List.map_append, List.map_cons, List.sum_append, List.sum_cons]
  omega

theorem total_insert (h : k ∉ t) : total f (t.insert k a) = f a + total f t := by
  rw [total, AList.entries_insert_of_notMem h, List.map_cons, List.sum_cons]
  rfl

theorem total_replace (h : t.lookup k = some a) :
    total f (t.insert k b) + f a = total f t + f b := by
  have herase : total f (t.insert k b) = f b + total f (t.erase k) := by
    simp [total, AList.entries_insert, AList.erase]
  rw [herase, total_erase f h]
  omega

theorem length_erase (h : t.lookup k = some a) : t.keys.length = (t.erase k).keys.length + 1 := by
  rw [← total_one, ← total_one, total_erase _ h]
  omega

theorem length_insert (h : k ∉ t) : (t.insert k a).keys.length = t.keys.length + 1 := by
  rw [← total_one, ← total_one, total_insert _ h]
  omega

theorem length_replace (h : t.lookup k = some a) :
    (t.insert k b).keys.length = t.keys.length := by
  have := total_replace (b := b) (fun _ => 1) h
  rw [← total_one, ← total_one]
  omega

end Table
