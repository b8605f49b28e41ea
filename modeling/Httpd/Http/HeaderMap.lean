import Httpd.Library.Search
import Httpd.Http.Headers

/-! # Header lists as maps

A header list is the result of a sequence of operations. The value of a name is
determined by the operations on that name: it is the value set last, or added
first, since the name was removed, followed by the values added later. The names
stand in the order in which they were inserted, in the spelling they had then.
-/

namespace Httpd.Headers

inductive Op where
  | set (name value : Bytes)
  | add (name value : Bytes)
  | remove (name : Bytes)
  | clear

namespace Op

def apply (h : Headers) : Op → Headers
  | set name value => h.set name value
  | add name value => h.add name value
  | remove name => (h.remove name).1
  | clear => h.clear

def written : Op → Option Field
  | set name value => some (name, value)
  | add name value => some (name, value)
  | remove _ => none
  | clear => none

def value (o : Op) : Bytes := (o.written.map Prod.snd).getD []

def writes (name : Bytes) (o : Op) : Bool := o.written.any fun f => iequals f.1 name

def removes (name : Bytes) : Op → Bool
  | remove n => iequals n name
  | clear => true
  | _ => false

def isAdd : Op → Bool
  | add _ _ => true
  | _ => false

end Op

def after (ops : List Op) : Headers := ops.foldl Op.apply .empty

/-- The operations that wrote a name since it was last removed. -/
def live (name : Bytes) (ops : List Op) : List Op :=
  (ops.rtakeWhile fun o => !o.removes name).filter (Op.writes name)

/-- The values given to a name: the one set last and those added since, or all that were
added if none was set. -/
def given (name : Bytes) (ops : List Op) : List Bytes :=
  (((live name ops).rdropWhile Op.isAdd).getLast?.toList ++
    (live name ops).rtakeWhile Op.isAdd).map Op.value

def joined : List Bytes → Option Bytes
  | [] => none
  | v :: vs => some ((text ", ").intercalate (v :: vs))

/-- The name inserted by the operation at an index, if it has stayed. -/
def insertedAt (ops : List Op) (i : ℕ) : Option Bytes :=
  ((ops[i]?.bind Op.written).map Prod.fst).filter fun name =>
    (given name (ops.take i)).isEmpty && !(ops.drop (i + 1)).any (Op.removes name)

/-- The names in the order and spelling of their insertion. -/
def inserted (ops : List Op) : List Bytes := (List.range ops.length).filterMap (insertedAt ops)

def others (name : Bytes) (h : Headers) : List Field := h.fields.filter fun f => !iequals f.1 name

variable {h : Headers} {name name' value : Bytes}

theorem names_upsert (g : Bytes → Bytes) : (h.upsert name g value).fields.map Prod.fst =
    h.fields.map Prod.fst ++ if h.has name then [] else [name] := by
  cases hh : h.has name with
  | true => simp [upsert_fields_of_has hh, map_fst_updateFirst]
  | false => simp [upsert_fields_of_not_has hh]

/-- Since names are distinct, removing the first field of a name removes the name. -/
theorem fields_remove : (h.remove name).1.fields = others name h := by
  obtain ⟨fs, hd⟩ := h
  change fs.eraseP (fun f => iequals f.1 name) = fs.filter fun f => !iequals f.1 name
  induction fs with
  | nil => rfl
  | cons f fs ih =>
    obtain ⟨hf, hfs⟩ := List.pairwise_cons.mp hd
    cases hn : iequals f.1 name with
    | false => rw [List.eraseP_cons_of_neg (by simp [hn]), ih hfs]; simp [hn]
    | true =>
      have hrest : ∀ g ∈ fs, iequals g.1 name = false := by
        intro g hg
        rw [iequals_comm, ← iequals_congr_left hn]
        exact hf g hg
      rw [List.eraseP_cons_of_pos (by simpa using hn), List.filter_cons_of_neg (by simp [hn]),
        eq_comm, List.filter_eq_self]
      exact fun g hg => by simp [hrest g hg]

theorem has_remove : (h.remove name).1.has name = false := by
  rw [Bool.eq_false_iff, ne_eq, has_iff, fields_remove]
  rintro ⟨f, hf, hn⟩
  simp [others, hn] at hf

theorem get_remove : (h.remove name).1.get name' =
    if iequals name name' then none else h.get name' := by
  unfold get find
  rw [fields_remove, others, List.find?_filter]
  split
  · next hn =>
    have hnone : h.fields.find? (fun f => !iequals f.1 name && iequals f.1 name') = none := by
      rw [List.find?_eq_none]
      intro f _
      rw [iequals_comm f.1 name, iequals_congr_left hn, iequals_comm name']
      simp
    simp [hnone]
  · next hn =>
    congr 2
    funext f
    cases hf : iequals f.1 name' with
    | false => simp
    | true =>
      rw [iequals_congr_left hf, iequals_comm]
      simpa using hn

theorem others_upsert (g : Bytes → Bytes) :
    others name (h.upsert name g value) = others name h := by
  unfold others
  cases hh : h.has name with
  | false => simp [upsert_fields_of_not_has hh]
  | true =>
    rw [upsert_fields_of_has hh]
    induction h.fields with
    | nil => rfl
    | cons f fs ih =>
      cases hf : iequals f.1 name with
      | true => simp [updateFirst, hf]
      | false => simp [updateFirst, hf, ih]

theorem others_remove : others name (h.remove name).1 = others name h := by
  rw [others, fields_remove]
  exact List.filter_filter.trans (by simp [others])

section
variable {ops : List Op} {o : Op}

theorem live_concat : live name (ops ++ [o]) =
    if o.removes name then [] else live name ops ++ if o.writes name then [o] else [] := by
  unfold live
  cases hr : o.removes name with
  | true => simp [hr]
  | false =>
    rw [List.rtakeWhile_concat_pos _ _ _ (by simp [hr]), List.filter_append]
    cases hw : o.writes name <;> simp [hw]

theorem given_concat_of_removes (hr : o.removes name = true) : given name (ops ++ [o]) = [] := by
  simp [given, live_concat, hr]

theorem given_concat_of_not_writes (hr : o.removes name = false) (hw : o.writes name = false) :
    given name (ops ++ [o]) = given name ops := by
  simp [given, live_concat, hr, hw]

theorem given_concat_set (hn : iequals name' name = true) :
    given name (ops ++ [.set name' value]) = [value] := by
  simp [given, live_concat, Op.removes, Op.writes, Op.written, hn, Op.isAdd, Op.value]

theorem given_concat_add (hn : iequals name' name = true) :
    given name (ops ++ [.add name' value]) = given name ops ++ [value] := by
  have hadd : Op.isAdd (.add name' value) = true := rfl
  simp [given, live_concat, Op.removes, Op.writes, Op.written, hn, Op.value,
    List.rtakeWhile_concat_pos _ _ _ hadd, List.rdropWhile_concat_pos _ _ _ hadd]

theorem joined_concat (vs : List Bytes) :
    joined (vs ++ [value]) = some (foldValue value (joined vs)) := by
  cases vs with
  | nil => simp [joined, foldValue]
  | cons v vs =>
    have hconcat := Search.intercalate_concat (text ", ") (v :: vs) value
    simp only [List.cons_append, reduceCtorEq, if_false] at hconcat
    simp [joined, foldValue, hconcat]

theorem isSome_joined (vs : List Bytes) : (joined vs).isSome = !vs.isEmpty := by cases vs <;> rfl

@[simp] theorem after_concat : after (ops ++ [o]) = o.apply (after ops) := by simp [after]

/-- What a name stands for is determined by the operations on it. -/
theorem get_after (ops : List Op) (name : Bytes) :
    (after ops).get name = joined (given name ops) := by
  induction ops using List.reverseRecOn with
  | nil => rfl
  | append_singleton ops o ih =>
    rw [after_concat]
    cases o with
    | set n v =>
      rw [Op.apply, get_set]
      split
      · next hn => rw [given_concat_set hn]; simp [joined]
      · next hn =>
        rw [given_concat_of_not_writes rfl (by simpa [Op.writes, Op.written] using hn), ih]
    | add n v =>
      rw [Op.apply, get_add]
      split
      · next hn => rw [given_concat_add hn, joined_concat, ih]
      · next hn =>
        rw [given_concat_of_not_writes rfl (by simpa [Op.writes, Op.written] using hn), ih]
    | remove n =>
      rw [Op.apply, get_remove]
      split
      · next hn => rw [given_concat_of_removes (o := .remove n) hn]; rfl
      · next hn => rw [given_concat_of_not_writes (by simpa [Op.removes] using hn) rfl, ih]
    | clear => rw [given_concat_of_removes rfl]; rfl

theorem insertedAt_concat {i : ℕ} (hi : i < ops.length) :
    insertedAt (ops ++ [o]) i = (insertedAt ops i).filter fun n => !o.removes n := by
  unfold insertedAt
  rw [List.getElem?_append_left hi, List.take_append_of_le_length hi.le,
    List.drop_append_of_le_length hi, Option.filter_filter]
  congr 1
  funext n
  simp [Bool.and_assoc]

theorem inserted_concat : inserted (ops ++ [o]) = (inserted ops).filter (fun n => !o.removes n) ++
    ((o.written.map Prod.fst).filter fun n => (given n ops).isEmpty).toList := by
  unfold inserted
  rw [List.length_append, List.length_singleton, List.range_succ, List.filterMap_append,
    List.filter_filterMap]
  congr 1
  · exact List.filterMap_congr fun i hi => insertedAt_concat (List.mem_range.mp hi)
  · have hlast : insertedAt (ops ++ [o]) ops.length =
        (o.written.map Prod.fst).filter fun n => (given n ops).isEmpty := by
      simp [insertedAt]
    rw [List.filterMap_cons, hlast]
    cases (o.written.map Prod.fst).filter fun n => (given n ops).isEmpty <;> rfl

theorem names_apply (h : Headers) (o : Op) : (o.apply h).fields.map Prod.fst =
    (h.fields.map Prod.fst).filter (fun n => !o.removes n) ++
      ((o.written.map Prod.fst).filter fun n => !h.has n).toList := by
  cases o with
  | set n v =>
    cases hh : h.has n <;>
      simp [Op.apply, Headers.set, names_upsert, Op.removes, Op.written, Option.filter, hh]
  | add n v =>
    cases hh : h.has n <;>
      simp [Op.apply, Headers.add, names_upsert, Op.removes, Op.written, Option.filter, hh]
  | remove n =>
    simp [Op.apply, fields_remove, others, Op.removes, Op.written, List.filter_map,
      Function.comp_def, iequals_comm n]
  | clear => simp [Op.apply, Headers.clear, Headers.empty, Op.removes, Op.written]

theorem names_after (ops : List Op) : (after ops).fields.map Prod.fst = inserted ops := by
  induction ops using List.reverseRecOn with
  | nil => rfl
  | append_singleton ops o ih =>
    rw [after_concat, names_apply, ih, inserted_concat]
    congr 3
    funext n
    rw [has_eq_isSome_get, get_after, isSome_joined, Bool.not_not]

end

/-- A header list is an insertion-ordered map whose names ignore case. -/
theorem ordered_map (ops : List Op) :
    ((after ops).fields.map fun f => f.1.map asciiLower).Nodup ∧
      (∀ name, (after ops).get name = joined (given name ops)) ∧
      (∀ name value, others name ((after ops).set name value) = others name (after ops) ∧
        others name ((after ops).add name value) = others name (after ops) ∧
        others name ((after ops).remove name).1 = others name (after ops)) ∧
      (∀ name, ((after ops).remove name).1.has name = false ∧
        ((after ops).remove name).2 = (after ops).has name) ∧
      (after ops).fields.map Prod.fst = inserted ops := by
  refine ⟨?_, get_after ops, fun name value => ⟨others_upsert _, others_upsert _, others_remove⟩,
    fun name => ⟨has_remove, rfl⟩, names_after ops⟩
  rw [List.Nodup, List.pairwise_map]
  refine (after ops).distinct.imp fun {f g} hfg heq => ?_
  rw [iequals_iff.mpr heq] at hfg
  cases hfg

end Httpd.Headers
