import Httpd.Http.Text

/-! # Header fields

The insertion-ordered header list of `headers.cpp`. Every operation searches for
the first field with the name it is given. That no two fields share a name up to
letter case is part of the type.
-/

namespace Httpd

abbrev Field := Bytes × Bytes

def updateFirst (name : Bytes) (g : Bytes → Bytes) : List Field → List Field
  | [] => []
  | f :: fs => if iequals f.1 name then (f.1, g f.2) :: fs else f :: updateFirst name g fs

theorem map_fst_updateFirst (name : Bytes) (g : Bytes → Bytes) (fs : List Field) :
    (updateFirst name g fs).map Prod.fst = fs.map Prod.fst := by
  induction fs with
  | nil => rfl
  | cons f fs ih => simp only [updateFirst]; split <;> simp [ih]

def Distinct (fs : List Field) : Prop := fs.Pairwise fun f g => iequals f.1 g.1 = false

theorem distinct_iff_names {fs : List Field} :
    Distinct fs ↔ (fs.map Prod.fst).Pairwise fun a b => iequals a b = false := by
  rw [List.pairwise_map]; rfl

instance (fs : List Field) : Decidable (Distinct fs) :=
  inferInstanceAs (Decidable (fs.Pairwise fun f g => iequals f.1 g.1 = false))

theorem Distinct.updateFirst {fs : List Field} (h : Distinct fs) (name : Bytes)
    (g : Bytes → Bytes) : Distinct (updateFirst name g fs) := by
  rwa [distinct_iff_names, map_fst_updateFirst, ← distinct_iff_names]

theorem Distinct.concat {fs : List Field} (h : Distinct fs) {name : Bytes} (value : Bytes)
    (hn : fs.find? (fun f => iequals f.1 name) = none) : Distinct (fs ++ [(name, value)]) := by
  refine List.pairwise_append.mpr ⟨h, List.pairwise_singleton _ _, fun f hf g hg => ?_⟩
  obtain rfl := List.mem_singleton.mp hg
  simpa using List.find?_eq_none.mp hn f hf

structure Headers where
  fields : List Field
  distinct : Distinct fields
  deriving DecidableEq

namespace Headers

def empty : Headers := ⟨[], .nil⟩

instance : Inhabited Headers := ⟨empty⟩

@[ext] theorem ext {h h' : Headers} (e : h.fields = h'.fields) : h = h' := by
  cases h; cases h'; cases e; rfl

def find (h : Headers) (name : Bytes) : Option Field := h.fields.find? fun f => iequals f.1 name

def get (h : Headers) (name : Bytes) : Option Bytes := (h.find name).map Prod.snd

def has (h : Headers) (name : Bytes) : Bool := (h.find name).isSome

/-- Change the value of an existing field, or insert a new one at the end. -/
def upsert (h : Headers) (name : Bytes) (g : Bytes → Bytes) (value : Bytes) : Headers :=
  match hf : h.fields.find? fun f => iequals f.1 name with
  | some _ => ⟨updateFirst name g h.fields, h.distinct.updateFirst name g⟩
  | none => ⟨h.fields ++ [(name, value)], h.distinct.concat value hf⟩

def set (h : Headers) (name value : Bytes) : Headers := h.upsert name (fun _ => value) value

def foldValue (value : Bytes) : Option Bytes → Bytes
  | none => value
  | some old => old ++ text ", " ++ value

/-- Appends; a repeated name is folded into one comma-separated value. -/
def add (h : Headers) (name value : Bytes) : Headers :=
  h.upsert name (fun old => old ++ text ", " ++ value) value

def remove (h : Headers) (name : Bytes) : Headers × Bool :=
  (⟨h.fields.eraseP fun f => iequals f.1 name, h.distinct.sublist List.eraseP_sublist⟩, h.has name)

def clear (_ : Headers) : Headers := empty

def members (value : Bytes) : List Bytes := value.splitOn (ch ',')

def hasToken (h : Headers) (name token : Bytes) : Bool :=
  match h.get name with
  | none => false
  | some value => (members value).any fun m => iequals (trimOws m) token

theorem upsert_fields_of_has {h : Headers} {name : Bytes} (hh : h.has name = true)
    (g : Bytes → Bytes) (value : Bytes) :
    (h.upsert name g value).fields = updateFirst name g h.fields := by
  unfold upsert
  split
  · rfl
  · next hf => simp [has, find, hf] at hh

theorem upsert_fields_of_not_has {h : Headers} {name : Bytes} (hh : h.has name = false)
    (g : Bytes → Bytes) (value : Bytes) :
    (h.upsert name g value).fields = h.fields ++ [(name, value)] := by
  unfold upsert
  split
  · next hf => simp [has, find, hf] at hh
  · rfl

theorem has_iff {h : Headers} {name : Bytes} :
    h.has name = true ↔ ∃ f ∈ h.fields, iequals f.1 name = true := by
  simp [has, find]

theorem has_eq_isSome_get (h : Headers) (name : Bytes) : h.has name = (h.get name).isSome := by
  simp [has, get]

theorem has_iff_names {h : Headers} {name : Bytes} :
    h.has name = true ↔ ∃ a ∈ h.fields.map Prod.fst, iequals a name = true := by
  simp [has_iff]

theorem has_upsert (h : Headers) (name : Bytes) (g : Bytes → Bytes) (value name' : Bytes) :
    (h.upsert name g value).has name' = (h.has name' || iequals name name') := by
  rw [Bool.eq_iff_iff, Bool.or_eq_true, has_iff_names, has_iff_names]
  cases hh : h.has name with
  | true =>
    rw [upsert_fields_of_has hh, map_fst_updateFirst]
    refine ⟨.inl, fun h' => h'.elim id fun hn => ?_⟩
    obtain ⟨a, ha, han⟩ := has_iff_names.mp hh
    exact ⟨a, ha, (iequals_congr_left han name').trans hn⟩
  | false =>
    rw [upsert_fields_of_not_has hh]
    simp [or_and_right, exists_or]

theorem has_add (h : Headers) (name value name' : Bytes) :
    (h.add name value).has name' = (h.has name' || iequals name name') := h.has_upsert ..

theorem find?_updateFirst (name name' : Bytes) (g : Bytes → Bytes) (fs : List Field) :
    (updateFirst name g fs).find? (fun f => iequals f.1 name') =
      if iequals name name' then
        (fs.find? fun f => iequals f.1 name').map fun f => (f.1, g f.2)
      else fs.find? fun f => iequals f.1 name' := by
  induction fs with
  | nil => simp [updateFirst]
  | cons f fs ih =>
    unfold updateFirst
    split
    · next hf =>
      have hname := iequals_congr_left hf name'
      cases hn : iequals name name' <;> simp [hname, hn]
    · next hf =>
      cases hf' : iequals f.1 name' with
      | false => simp [hf', ih]
      | true =>
        have hn : iequals name name' = false := by
          rw [iequals_comm, ← iequals_congr_left hf']
          simpa using hf
        simp [hf', hn]

theorem get_upsert (h : Headers) (name : Bytes) (g : Bytes → Bytes) (value name' : Bytes) :
    (h.upsert name g value).get name' =
      if iequals name name' then some ((h.get name').elim value g) else h.get name' := by
  unfold get find
  cases hh : h.has name with
  | true =>
    rw [upsert_fields_of_has hh, find?_updateFirst]
    cases hn : iequals name name' with
    | false => simp
    | true =>
      have hsome : (h.find name').isSome = true := by
        obtain ⟨f, hf, hfn⟩ := has_iff.mp hh
        exact has_iff.mpr ⟨f, hf, (iequals_congr_left hfn name').trans hn⟩
      obtain ⟨f, hf⟩ := Option.isSome_iff_exists.mp hsome
      simp only [find] at hf
      simp [hf]
  | false =>
    rw [upsert_fields_of_not_has hh, List.find?_append]
    cases hn : iequals name name' with
    | false => simp [hn]
    | true =>
      have hnone : h.fields.find? (fun f => iequals f.1 name') = none := by
        refine List.find?_eq_none.mpr fun f hf hfn => ?_
        have hname : iequals f.1 name = true := by
          rw [iequals_congr_left hfn, iequals_comm]
          exact hn
        rw [has_iff.mpr ⟨f, hf, hname⟩] at hh
        cases hh
      simp [hnone, hn]

theorem get_set (h : Headers) (name value name' : Bytes) :
    (h.set name value).get name' = if iequals name name' then some value else h.get name' := by
  rw [set, get_upsert]
  cases h.get name' <;> rfl

theorem get_add (h : Headers) (name value name' : Bytes) :
    (h.add name value).get name' =
      if iequals name name' then
        some (foldValue value (h.get name'))
      else h.get name' := by
  rw [add, get_upsert]
  cases h.get name' <;> rfl

@[simp] theorem has_empty (name : Bytes) : empty.has name = false := rfl
@[simp] theorem get_empty (name : Bytes) : empty.get name = none := rfl

end Headers

end Httpd
