import Httpd.Parser.Passes

/-! # The grammar of lines

What a request line, a field line and a chunk-size line are, said without reference
to how the validators search for their parts, and that the validators accept exactly
these lines. The digits of a size are read without overflow, since there are at most
sixteen of them.
-/

namespace Httpd

/-- Origin form, absolute form with scheme http or https, or the asterisk of `OPTIONS`. -/
inductive TargetForm (method target : Bytes) : Prop where
  | origin : target.head? = some (ch '/') → TargetForm method target
  | absolute : startsWithIcase target (text "http://") = true ∨
      startsWithIcase target (text "https://") = true → TargetForm method target
  | asterisk : target = text "*" → method = text "OPTIONS" → TargetForm method target

def httpVersion (minor : ℕ) : Bytes := if minor = 0 then text "HTTP/1.0" else text "HTTP/1.1"

structure RequestLine where
  method : Bytes
  target : Bytes
  minor : ℕ
  minor_le : minor ≤ 1
  method_token : isToken method = true
  target_ne : target ≠ []
  target_clean : ∀ c ∈ target, 0x20 < c ∧ c ≠ 0x7f
  form : TargetForm method target

def RequestLine.line (r : RequestLine) : Bytes :=
  r.method ++ SP :: (r.target ++ SP :: httpVersion r.minor)

def RequestLine.pathAndQuery (r : RequestLine) : Bytes :=
  (Httpd.pathAndQuery r.method r.target).getD []

def RequestParser.withRequestLine (p : RequestParser) (r : RequestLine) : RequestParser :=
  { p with req := { p.req with
      method := r.method
      target := r.target
      path := r.pathAndQuery.takeWhile (· != ch '?')
      query := (r.pathAndQuery.dropWhile (· != ch '?')).drop 1
      versionMajor := 1
      versionMinor := r.minor } }

structure FieldLine where
  name : Bytes
  raw : Bytes
  name_token : isToken name = true
  raw_clean : ∀ c ∈ raw, isCtl c = false

def FieldLine.line (f : FieldLine) : Bytes := f.name ++ ch ':' :: f.raw

def FieldLine.value (f : FieldLine) : Bytes := trimOws f.raw

/-- The digits of a chunk-size line: what precedes the extensions, trimmed. -/
def sizeDigits (line : Bytes) : Bytes := trimOws (line.takeWhile (· != ch ';'))

def hexNumber (digits : Bytes) : ℕ := digits.foldl (fun n c => 16 * n + (hexValue c).getD 0) 0

structure IsSizeLine (line : Bytes) (size : ℕ) : Prop where
  digits_ne : sizeDigits line ≠ []
  digits_le : (sizeDigits line).length ≤ 16
  digits_hex : ∀ c ∈ sizeDigits line, (hexValue c).isSome = true
  size_eq : size = hexNumber (sizeDigits line)

def decNumber (digits : Bytes) : ℕ := digits.foldl (fun n c => 10 * n + (c - ch '0').toNat) 0

structure IsDecimal (digits : Bytes) (n : ℕ) : Prop where
  digits_ne : digits ≠ []
  digits_le : digits.length ≤ 19
  digits_dec : ∀ c ∈ digits, isDigit c = true
  value_eq : n = decNumber digits

/-- A comma-separated list of decimal numbers that all denote the same length. -/
def IsLengthList (value : Bytes) (n : ℕ) : Prop :=
  ∀ m ∈ Headers.members value, IsDecimal (trimOws m) n

variable {line method target version name value raw digits : Bytes} {minor size : ℕ} {c : UInt8}

theorem splitRequestLine_eq_some_iff : splitRequestLine line = some (method, target, version) ↔
    line = method ++ SP :: (target ++ SP :: version) ∧ SP ∉ method ∧ SP ∉ target ∧ SP ∉ version := by
  constructor
  · intro h
    unfold splitRequestLine at h
    split at h
    · cases h
    · next sp1 h1 =>
      obtain ⟨u, v, rfl, rfl, hu⟩ := Search.idxOf?_eq_some_iff_append.mp h1
      simp only [List.drop_length_add_append, List.drop_succ_cons, List.drop_zero,
        List.take_left] at h
      split at h
      · cases h
      · next k h2 =>
        obtain ⟨u', v', rfl, rfl, hu'⟩ := Search.idxOf?_eq_some_iff_append.mp h2
        simp only [List.drop_length_add_append, List.drop_succ_cons, List.drop_zero,
          List.take_left] at h
        split at h
        · cases h
        · next hv =>
          cases h
          exact ⟨rfl, hu, hu', by simpa using hv⟩
  · rintro ⟨rfl, hm, ht, hv⟩
    have h1 : (method ++ SP :: (target ++ SP :: version)).idxOf? SP = some method.length :=
      Search.idxOf?_eq_some_iff_append.mpr ⟨_, _, rfl, rfl, hm⟩
    have h2 : (target ++ SP :: version).idxOf? SP = some target.length :=
      Search.idxOf?_eq_some_iff_append.mpr ⟨_, _, rfl, rfl, ht⟩
    simp [splitRequestLine, h1, h2, hv, List.drop_length_add_append]

theorem validTarget_iff : validTarget target = true ↔
    target ≠ [] ∧ ∀ c ∈ target, 0x20 < c ∧ c ≠ 0x7f := by
  simp [validTarget]

theorem pathAndQuery_isSome_iff :
    (∃ pq, pathAndQuery method target = some pq) ↔ TargetForm method target := by
  unfold pathAndQuery
  constructor
  · rintro ⟨pq, h⟩
    split at h
    · next hs => exact .absolute (by simpa using hs)
    · split at h
      · cases h
      · next ho =>
        simp only [bne_iff_ne, ne_eq, Bool.and_eq_true, Bool.not_eq_true',
          Bool.and_eq_false_iff, beq_eq_false_iff_ne, not_and_or, not_not, not_or] at ho
        rcases ho with ho | ⟨ht, hm⟩
        · exact .origin ho
        · exact .asterisk ht hm
  · rintro (h | h | ⟨ht, hm⟩)
    · split
      · dsimp only; split <;> exact ⟨_, rfl⟩
      · exact ⟨target, by simp [h]⟩
    · rw [if_pos (by simpa using h)]
      dsimp only
      split <;> exact ⟨_, rfl⟩
    · subst ht hm
      exact ⟨text "*", by decide⟩

theorem digit_eq_of_toNat {n : ℕ} (h : (c - ch '0').toNat = n) : c = ch '0' + .ofNat n := by
  rw [← h, UInt8.ofNat_toNat, UInt8.add_comm, UInt8.sub_add_cancel]

theorem versionDigits_eq_some_iff :
    (versionDigits version = some (1, minor) ∧ minor ≤ 1) ↔
      (version = httpVersion minor ∧ minor ≤ 1) := by
  constructor
  · rintro ⟨h, hle⟩
    refine ⟨?_, hle⟩
    unfold versionDigits at h
    split at h
    · cases h
    · next hv =>
      simp only [bne_iff_ne, ne_eq, Bool.or_eq_true, Bool.not_eq_true', not_or,
        not_not, Bool.not_eq_false] at hv
      obtain ⟨⟨⟨⟨hlen, hhead⟩, -⟩, hdot⟩, -⟩ := hv
      match version, hlen with
      | [a₀, a₁, a₂, a₃, a₄, a₅, a₆, a₇], _ =>
        simp only [Option.some.injEq, Prod.mk.injEq] at h
        obtain ⟨rfl, rfl, rfl, rfl, rfl⟩ : a₀ = ch 'H' ∧ a₁ = ch 'T' ∧ a₂ = ch 'T' ∧
            a₃ = ch 'P' ∧ a₄ = ch '/' := by simpa [text] using hhead
        obtain rfl : a₅ = ch '0' + 1 := digit_eq_of_toNat h.1
        obtain rfl : a₆ = ch '.' := hdot
        obtain rfl : a₇ = ch '0' + .ofNat minor := digit_eq_of_toNat h.2
        obtain rfl | rfl : minor = 0 ∨ minor = 1 := by omega
        all_goals rfl
  · rintro ⟨rfl, hle⟩
    refine ⟨?_, hle⟩
    obtain rfl | rfl : minor = 0 ∨ minor = 1 := by omega
    all_goals decide

theorem sp_not_mem_of_isToken (h : isToken method = true) : SP ∉ method :=
  fun hm => absurd ((isToken_iff.mp h).2 SP hm) (by decide)

theorem sp_not_mem_httpVersion : SP ∉ httpVersion minor := by
  unfold httpVersion
  split <;> decide

theorem RequestParser.parseRequestLine_ok_iff {p q : RequestParser} :
    p.parseRequestLine line = .ok q ↔ ∃ r : RequestLine, r.line = line ∧ q = p.withRequestLine r := by
  constructor
  · intro h
    obtain ⟨method, target, version, minor, pq, hs, hm, ht, hv, hle, hpq, rfl⟩ :=
      parseRequestLine_ok h
    obtain ⟨rfl, -, -, -⟩ := splitRequestLine_eq_some_iff.mp hs
    obtain ⟨rfl, -⟩ := versionDigits_eq_some_iff.mp ⟨hv, hle⟩
    obtain ⟨hne, hclean⟩ := validTarget_iff.mp ht
    refine ⟨⟨method, target, minor, hle, hm, hne, hclean, pathAndQuery_isSome_iff.mp ⟨pq, hpq⟩⟩,
      rfl, ?_⟩
    simp [withRequestLine, RequestLine.pathAndQuery, hpq]
  · rintro ⟨r, rfl, rfl⟩
    have hsp : SP ∉ r.target := fun hm => absurd (r.target_clean SP hm).1 (by decide)
    have hs : splitRequestLine r.line = some (r.method, r.target, httpVersion r.minor) :=
      splitRequestLine_eq_some_iff.mpr
        ⟨rfl, sp_not_mem_of_isToken r.method_token, hsp, sp_not_mem_httpVersion⟩
    have ht := validTarget_iff.mpr ⟨r.target_ne, r.target_clean⟩
    have hv := (versionDigits_eq_some_iff.mpr ⟨rfl, r.minor_le⟩).1
    obtain ⟨pq, hpq⟩ := pathAndQuery_isSome_iff.mpr r.form
    simp [parseRequestLine, hs, r.method_token, ht, hv, Nat.not_lt.mpr r.minor_le, hpq,
      withRequestLine, RequestLine.pathAndQuery]

theorem colon_not_mem_of_isToken (h : isToken name = true) : ch ':' ∉ name :=
  fun hm => absurd ((isToken_iff.mp h).2 _ hm) (by decide)

theorem isCtl_eq_false_of_isOws : isOws c = true → isCtl c = false :=
  forall_byte (P := fun c => isOws c = true → isCtl c = false) (by decide +kernel) c

theorem any_isCtl_trimOws_eq_false_iff :
    (trimOws raw).any isCtl = false ↔ ∀ c ∈ raw, isCtl c = false := by
  simp only [List.any_eq_false, Bool.not_eq_true]
  constructor
  · intro h c hc
    rcases isOws_or_mem_trimOws hc with ho | ht
    · exact isCtl_eq_false_of_isOws ho
    · exact h c ht
  · exact fun h c hc => h c (mem_of_mem_trimOws hc)

theorem splitFieldLine_eq_ok_iff : splitFieldLine line = .ok (name, value) ↔
    ∃ f : FieldLine, f.line = line ∧ f.name = name ∧ f.value = value := by
  constructor
  · intro h
    unfold splitFieldLine at h
    split at h
    · cases h
    · next colon hc =>
      obtain ⟨u, v, rfl, rfl, hu⟩ := Search.idxOf?_eq_some_iff_append.mp hc
      simp only [List.drop_length_add_append, List.drop_succ_cons, List.drop_zero,
        List.take_left] at h
      split at h
      · cases h
      · next ht =>
        split at h
        · cases h
        · next hv =>
          cases h
          exact ⟨⟨_, v, by simpa using ht, any_isCtl_trimOws_eq_false_iff.mp (by simpa using hv)⟩,
            rfl, rfl, rfl⟩
  · rintro ⟨f, rfl, rfl, rfl⟩
    have hc : f.line.idxOf? (ch ':') = some f.name.length :=
      Search.idxOf?_eq_some_iff_append.mpr
        ⟨f.name, f.raw, rfl, rfl, colon_not_mem_of_isToken f.name_token⟩
    have hv := any_isCtl_trimOws_eq_false_iff.mpr f.raw_clean
    simp only [splitFieldLine, hc]
    simp only [FieldLine.line, List.drop_length_add_append, List.drop_succ_cons, List.drop_zero,
      List.take_left, f.name_token, hv]
    rfl

/-- A loop that stops at what is no digit, and is exact below a limit, reads a number of so many
digits that it stays below. The invariant is that `j` digits make less than `base ^ j`. -/
theorem foldlM_digits {base limit j k n : ℕ} {digit : UInt8 → Bool} {val : UInt8 → ℕ}
    {step : ℕ → UInt8 → Option ℕ} (hval : ∀ c, digit c = true → val c < base)
    (hstep : ∀ n c, digit c = true → base * n + val c < limit → step n c = some (base * n + val c))
    (hstop : ∀ n c, digit c = false → step n c = none) (hk : base ^ k ≤ limit)
    (hn : n < base ^ j) (hj : j + digits.length ≤ k) :
    digits.foldlM step n =
      if digits.all digit then some (digits.foldl (fun n c => base * n + val c) n) else none := by
  induction digits generalizing n j with
  | nil => simp
  | cons c digits ih =>
    cases hc : digit c with
    | false => simp [hc, hstop n c hc]
    | true =>
      have hv := hval c hc
      rw [List.length_cons] at hj
      have hnext : base * n + val c < base ^ (j + 1) := by
        calc base * n + val c < base * (n + 1) := by rw [Nat.mul_add_one]; omega
          _ ≤ base * base ^ j := Nat.mul_le_mul_left base hn
          _ = base ^ (j + 1) := (pow_succ' base j).symm
      have hpow : base ^ (j + 1) ≤ base ^ k := Nat.pow_le_pow_right (by omega) (by omega)
      have hlimit : base * n + val c < limit := hnext.trans_le (hpow.trans hk)
      simp [hc, hstep n c hc hlimit, ih hnext (by omega)]

theorem hexValue_lt {v : ℕ} (h : hexValue c = some v) : v < 16 := by
  have hall := forall_byte (P := fun c => ∀ v ∈ hexValue c, v < 16) (by decide +kernel) c
  exact hall v h

theorem shiftLeft_or_hex {n v : ℕ} (hv : v < 16) : n <<< 4 ||| v = 16 * n + v := by
  rw [← Nat.shiftLeft_add_eq_or_of_lt (show v < 2 ^ 4 by omega), Nat.shiftLeft_eq]
  omega

theorem foldlM_hexValue (h : digits.length ≤ 16) :
    digits.foldlM (fun size c => (hexValue c).map fun v => wrap (size <<< 4) ||| v) 0 =
      if digits.all fun c => (hexValue c).isSome then
        some (digits.foldl (fun n c => 16 * n + (hexValue c).getD 0) 0)
      else none := by
  refine foldlM_digits ?_ ?_ ?_ (show 16 ^ 16 ≤ 2 ^ 64 by norm_num) (show 0 < 16 ^ 0 by norm_num)
    (by omega)
  · intro c hc
    obtain ⟨v, hv⟩ := Option.isSome_iff_exists.mp hc
    rw [hv]
    exact hexValue_lt hv
  · intro n c hc hlt
    obtain ⟨v, hv⟩ := Option.isSome_iff_exists.mp hc
    rw [hv, Option.getD_some] at hlt
    have hshift : n <<< 4 < 2 ^ 64 := by rw [Nat.shiftLeft_eq]; omega
    rw [hv, Option.map_some, Option.getD_some, wrap, Nat.mod_eq_of_lt hshift,
      shiftLeft_or_hex (hexValue_lt hv)]
  · intro n c hc
    rw [Option.isSome_eq_false_iff, Option.isNone_iff_eq_none] at hc
    rw [hc, Option.map_none]

theorem chunkSizeOf_eq_some_iff : chunkSizeOf line = some size ↔ IsSizeLine line size := by
  unfold chunkSizeOf
  change (if (sizeDigits line).isEmpty || (sizeDigits line).length > 16 then none else _) = _ ↔ _
  split
  · next h =>
    simp only [Bool.or_eq_true, List.isEmpty_iff, gt_iff_lt, decide_eq_true_eq] at h
    refine ⟨by simp, fun hs => ?_⟩
    rcases h with h | h
    · exact absurd h hs.digits_ne
    · exact absurd hs.digits_le (by omega)
  · next h =>
    simp only [Bool.or_eq_true, List.isEmpty_iff, gt_iff_lt, decide_eq_true_eq, not_or,
      not_lt] at h
    rw [show trimOws (line.takeWhile (· != ch ';')) = sizeDigits line from rfl,
      foldlM_hexValue h.2]
    split
    · next hd =>
      rw [Option.some.injEq, eq_comm]
      exact ⟨fun e => ⟨h.1, h.2, List.all_eq_true.mp hd, e⟩, fun hs => hs.size_eq⟩
    · next hd => exact ⟨by simp, fun hs => absurd (List.all_eq_true.mpr hs.digits_hex) hd⟩

theorem digit_toNat_lt (h : isDigit c = true) : (c - ch '0').toNat < 10 :=
  forall_byte (P := fun c => isDigit c = true → (c - ch '0').toNat < 10) (by decide +kernel) c h

theorem foldlM_isDigit (h : digits.length ≤ 19) :
    digits.foldlM
        (fun v c => if isDigit c then some (wrap (v * 10 + (c - ch '0').toNat)) else none) 0 =
      if digits.all isDigit then
        some (digits.foldl (fun n c => 10 * n + (c - ch '0').toNat) 0)
      else none := by
  refine foldlM_digits ?_ ?_ ?_ (show 10 ^ 19 ≤ 2 ^ 64 by norm_num) (show 0 < 10 ^ 0 by norm_num)
    (by omega)
  · exact fun c hc => digit_toNat_lt hc
  · intro n c hc hlt
    rw [if_pos hc, Nat.mul_comm n, wrap, Nat.mod_eq_of_lt hlt]
  · intro n c hc
    rw [if_neg (by simp [hc])]

theorem parseDecimal_eq_some_iff {n : ℕ} : parseDecimal digits = some n ↔ IsDecimal digits n := by
  unfold parseDecimal
  split
  · next h =>
    simp only [Bool.or_eq_true, List.isEmpty_iff, gt_iff_lt, decide_eq_true_eq] at h
    refine ⟨by simp, fun hd => ?_⟩
    rcases h with h | h
    · exact absurd h hd.digits_ne
    · exact absurd hd.digits_le (by omega)
  · next h =>
    simp only [Bool.or_eq_true, List.isEmpty_iff, gt_iff_lt, decide_eq_true_eq, not_or,
      not_lt] at h
    rw [foldlM_isDigit h.2]
    split
    · next hd =>
      rw [Option.some.injEq, eq_comm]
      exact ⟨fun e => ⟨h.1, h.2, List.all_eq_true.mp hd, e⟩, fun hn => hn.value_eq⟩
    · next hd => exact ⟨by simp, fun hn => absurd (List.all_eq_true.mpr hn.digits_dec) hd⟩

theorem IsDecimal.unique {n m : ℕ} (hn : IsDecimal digits n) (hm : IsDecimal digits m) : n = m :=
  hn.value_eq.trans hm.value_eq.symm

theorem IsLengthList.unique {n m : ℕ} (hn : IsLengthList value n) (hm : IsLengthList value m) :
    n = m := by
  obtain ⟨v, hv⟩ := List.exists_mem_of_ne_nil _ (List.splitOn_ne_nil (ch ',') value)
  exact (hn v hv).unique (hm v hv)

theorem contentLengthLoop_eq_some_iff {vs : List Bytes} {first : Bool} {out n : ℕ} :
    contentLengthLoop vs first out = some n ↔
      (∀ v ∈ vs, IsDecimal (trimOws v) n) ∧ (vs = [] ∨ first = false → out = n) := by
  induction vs generalizing first out with
  | nil => simp [contentLengthLoop]
  | cons v vs ih =>
    simp only [contentLengthLoop, List.forall_mem_cons]
    split
    · next hp =>
      refine ⟨by simp, fun h => ?_⟩
      cases hp.symm.trans (parseDecimal_eq_some_iff.mpr h.1.1)
    · next k hp =>
      have hk := parseDecimal_eq_some_iff.mp hp
      split
      · next hne =>
        simp only [Bool.and_eq_true, Bool.not_eq_true', bne_iff_ne, ne_eq] at hne
        refine ⟨by simp, fun h => absurd ?_ hne.2⟩
        exact (hk.unique h.1.1).trans (h.2 (.inr hne.1)).symm
      · next heq =>
        simp only [Bool.and_eq_true, Bool.not_eq_true', bne_iff_ne, ne_eq, not_and,
          not_not] at heq
        rw [ih]
        constructor
        · rintro ⟨hall, hout⟩
          obtain rfl := hout (.inr rfl)
          exact ⟨⟨hk, hall⟩, fun h => (heq (h.resolve_left (by simp))).symm⟩
        · rintro ⟨⟨hv, hall⟩, _⟩
          exact ⟨hall, fun _ => hk.unique hv⟩

theorem parseContentLength_eq_some_iff {n : ℕ} :
    parseContentLength value = some n ↔ IsLengthList value n := by
  rw [parseContentLength, contentLengthLoop_eq_some_iff, IsLengthList]
  refine and_iff_left fun h => ?_
  rcases h with h | h
  · exact absurd h (List.splitOn_ne_nil _ _)
  · cases h

end Httpd
