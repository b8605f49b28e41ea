import Mathlib

/-! # Bytes and ASCII text

Messages are byte strings. The character classes and helpers of `headers.cpp`
are stated on bytes; the comparisons on `char` of the source agree with them,
since every character they name is ASCII.
-/

namespace Httpd

abbrev Bytes := List UInt8

/-- The byte of an ASCII character. -/
def ch (c : Char) : UInt8 := c.toNat.toUInt8

/-- The bytes of an ASCII string literal. -/
def text (s : String) : Bytes := s.toList.map ch

def CR : UInt8 := 13
def LF : UInt8 := 10
def SP : UInt8 := 32
def HTAB : UInt8 := 9

def kCRLF : Bytes := [CR, LF]

def asciiLower (c : UInt8) : UInt8 := if ch 'A' ≤ c && c ≤ ch 'Z' then c + (ch 'a' - ch 'A') else c

def iequals (a b : Bytes) : Bool :=
  a.length == b.length && (a.zip b).all fun x => asciiLower x.1 == asciiLower x.2

def isDigit (c : UInt8) : Bool := ch '0' ≤ c && c ≤ ch '9'

def isTchar (c : UInt8) : Bool :=
  isDigit c || (ch 'a' ≤ c && c ≤ ch 'z') || (ch 'A' ≤ c && c ≤ ch 'Z') ||
    -- 0x27 and 0x60 are the quote and the backquote
    [ch '!', ch '#', ch '$', ch '%', ch '&', 0x27, ch '*', ch '+', ch '-', ch '.', ch '^', ch '_',
      0x60, ch '|', ch '~'].contains c

def isToken (s : Bytes) : Bool := !s.isEmpty && s.all isTchar

theorem isToken_get : isToken (text "GET") = true := by decide

theorem isToken_host : isToken (text "Host") = true := by decide

def isOws (c : UInt8) : Bool := c == SP || c == HTAB

def trimOws (s : Bytes) : Bytes := (s.dropWhile isOws).rdropWhile isOws

def hexValue (c : UInt8) : Option ℕ :=
  if ch '0' ≤ c && c ≤ ch '9' then some (c - ch '0').toNat
  else if ch 'a' ≤ c && c ≤ ch 'f' then some ((c - ch 'a').toNat + 10)
  else if ch 'A' ≤ c && c ≤ ch 'F' then some ((c - ch 'A').toNat + 10)
  else none

theorem iequals_iff {a b : Bytes} : iequals a b = true ↔ a.map asciiLower = b.map asciiLower := by
  induction a generalizing b with
  | nil => cases b <;> simp [iequals]
  | cons x a ih =>
    cases b with
    | nil => simp [iequals]
    | cons y b =>
      have hb := @ih b
      simp only [iequals, Bool.and_eq_true, beq_iff_eq, List.all_eq_true] at hb
      simp only [iequals, Bool.and_eq_true, beq_iff_eq, List.length_cons, Nat.add_right_cancel_iff,
        List.zip_cons_cons, List.all_cons, List.all_eq_true, List.map_cons, List.cons.injEq, ← hb]
      tauto

@[simp] theorem iequals_refl (a : Bytes) : iequals a a = true := iequals_iff.mpr rfl

theorem iequals_comm (a b : Bytes) : iequals a b = iequals b a := by
  rw [Bool.eq_iff_iff, iequals_iff, iequals_iff, eq_comm]

theorem iequals_congr_left {a b : Bytes} (h : iequals a b = true) (c : Bytes) :
    iequals a c = iequals b c := by
  rw [Bool.eq_iff_iff, iequals_iff, iequals_iff, iequals_iff.mp h]

theorem mem_of_mem_trimOws {s : Bytes} {c : UInt8} (h : c ∈ trimOws s) : c ∈ s :=
  List.dropWhile_subset isOws ((List.rdropWhile_prefix isOws _).subset h)

theorem mem_of_mem_dropWhile_or {p : UInt8 → Bool} {s : Bytes} {c : UInt8} (h : c ∈ s) :
    p c = true ∨ c ∈ s.dropWhile p := by
  rw [← List.takeWhile_append_dropWhile (p := p) (l := s), List.mem_append] at h
  exact h.imp List.mem_takeWhile_imp id

theorem isOws_or_mem_trimOws {s : Bytes} {c : UInt8} (h : c ∈ s) :
    isOws c = true ∨ c ∈ trimOws s := by
  rcases mem_of_mem_dropWhile_or (p := isOws) h with hc | hc
  · exact .inl hc
  · have hr : c ∈ (s.dropWhile isOws).reverse := by simpa using hc
    exact (mem_of_mem_dropWhile_or hr).imp_right fun h => by simpa [trimOws, List.rdropWhile] using h

/-- Bytes are enumerated to decide facts about character classes. -/
theorem forall_byte {P : UInt8 → Prop} (h : ∀ i : Fin 256, P (.ofFin i)) (c : UInt8) : P c :=
  h c.toFin

theorem isToken_iff {s : Bytes} : isToken s = true ↔ s ≠ [] ∧ ∀ c ∈ s, isTchar c = true := by
  simp [isToken]

end Httpd
