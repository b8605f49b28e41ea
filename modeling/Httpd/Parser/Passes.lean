import Httpd.Parser.Basic

/-! # What a pass of the parser does

Each pass that goes on reads one syntactic unit from the front of the input: an
empty line, a request line, a field line, the blank line that ends a section, body
bytes, or a line of the chunked coding. Every other pass waits for more input, or
fails. All later results about the parser start from these two inversions.
-/

namespace Httpd

open Incremental (Turn Machine)

@[simp] theorem length_kCRLF : kCRLF.length = 2 := rfl

theorem kCRLF_ne_nil : kCRLF ≠ [] := by decide

theorem unbordered_kCRLF : Search.Unbordered kCRLF := by
  intro k hpos hlt
  obtain rfl : k = 1 := by simp at hlt; omega
  decide

/-- A line found by searching for CRLF. -/
def CrlfFree (line : Bytes) : Prop := ¬ kCRLF <:+: line

instance (line : Bytes) : Decidable (CrlfFree line) := inferInstanceAs (Decidable (¬ _))

theorem crlfFree_nil : CrlfFree [] := by decide

/-- A failure that can occur under the limits: an exception needs a body limit beyond what a
string holds. -/
def Failure.Under (l : ParserLimits) (f : Failure) : Prop :=
  f.error = .lengthError → l.maxSize < l.maxBodyBytes

theorem splitFieldLine_error {line : Bytes} {f : Failure} (h : splitFieldLine line = .error f) :
    f.error = .badRequest := by
  unfold splitFieldLine at h
  dsimp only at h
  repeat' split at h
  all_goals cases h
  all_goals rfl

namespace RequestParser

variable {p p' q : RequestParser} {rest line u t : Bytes} {n : ℕ} {f : Failure}

section Lines

variable {c : ℕ → Bool} {g : ℕ → Turn RequestParser} {h : Bytes → Turn RequestParser}
  {T : Turn RequestParser}

theorem withLine_line (hl : CrlfFree line) (t : Bytes) :
    withLine (line ++ (kCRLF ++ t)) g h = h line := by
  rw [withLine, Search.find_append_pat unbordered_kCRLF hl]
  simp

theorem withLine_cases (hT : withLine rest g h = T) :
    (Search.find kCRLF rest = none ∧ T = g rest.length) ∨
      ∃ line t, rest = line ++ (kCRLF ++ t) ∧ CrlfFree line ∧ T = h line := by
  unfold withLine at hT
  split at hT
  · next hf => exact .inl ⟨hf, hT.symm⟩
  · next eol hf =>
    obtain ⟨line, t, rfl, rfl, hl⟩ :=
      (Search.find_eq_some_iff unbordered_kCRLF kCRLF_ne_nil).mp hf
    exact .inr ⟨line, t, rfl, hl, by simpa using hT.symm⟩

theorem withLine_more (hT : withLine rest (fun n => p.awaitLine (c n) f) h = .more p' n) :
    ∃ line t, rest = line ++ (kCRLF ++ t) ∧ CrlfFree line ∧ h line = .more p' n := by
  rcases withLine_cases hT with ⟨_, hT⟩ | ⟨line, t, hr, hl, hT⟩
  · unfold awaitLine at hT; split at hT <;> cases hT
  · exact ⟨line, t, hr, hl, hT.symm⟩

theorem withLine_stop (hT : withLine rest (fun n => p.awaitLine (c n) f) h = .stop p' n) :
    (Search.find kCRLF rest = none ∧ c rest.length = false ∧ p' = p ∧ n = 0) ∨
      (p' = p.fail f ∧ n = 0) ∨
      ∃ line t, rest = line ++ (kCRLF ++ t) ∧ CrlfFree line ∧ h line = .stop p' n := by
  rcases withLine_cases hT with ⟨hf, hT⟩ | ⟨line, t, hr, hl, hT⟩
  · unfold awaitLine at hT
    split at hT
    · cases hT; exact .inr (.inl ⟨rfl, rfl⟩)
    · next hc => cases hT; exact .inl ⟨hf, by simpa using hc, rfl, rfl⟩
  · exact .inr (.inr ⟨line, t, hr, hl, hT.symm⟩)

end Lines

@[simp] theorem fail_state : (p.fail f).state = .error := rfl
@[simp] theorem fail_limits : (p.fail f).limits = p.limits := rfl
@[simp] theorem fail_req : (p.fail f).req = p.req := rfl
@[simp] theorem countLine_state : (p.countLine line).state = p.state := rfl
@[simp] theorem countLine_limits : (p.countLine line).limits = p.limits := rfl
@[simp] theorem countLine_req : (p.countLine line).req = p.req := rfl
@[simp] theorem countLine_headerCount : (p.countLine line).headerCount = p.headerCount := rfl
@[simp] theorem countLine_remaining : (p.countLine line).remaining = p.remaining := rfl
@[simp] theorem countLine_headerBytes :
    (p.countLine line).headerBytes = p.headerBytes + (line.length + 2) := rfl
@[simp] theorem countField_state : p.countField.state = p.state := rfl
@[simp] theorem countField_limits : p.countField.limits = p.limits := rfl
@[simp] theorem countField_req : p.countField.req = p.req := rfl
@[simp] theorem countField_headerBytes : p.countField.headerBytes = p.headerBytes := rfl
@[simp] theorem countField_remaining : p.countField.remaining = p.remaining := rfl
@[simp] theorem countField_headerCount : p.countField.headerCount = p.headerCount + 1 := rfl

theorem parseRequestLine_ok (h : p.parseRequestLine line = .ok q) :
    ∃ method target version minor pq, splitRequestLine line = some (method, target, version) ∧
      isToken method = true ∧ validTarget target = true ∧
      versionDigits version = some (1, minor) ∧ minor ≤ 1 ∧
      pathAndQuery method target = some pq ∧
      q = { p with req := { p.req with
        method := method
        target := target
        path := pq.takeWhile (· != ch '?')
        query := (pq.dropWhile (· != ch '?')).drop 1
        versionMajor := 1
        versionMinor := minor } } := by
  unfold parseRequestLine at h
  split at h
  · cases h
  · next method target version hs =>
    split at h
    · cases h
    · next hm =>
      split at h
      · cases h
      · next ht =>
        split at h
        · cases h
        · next major minor hv =>
          split at h
          · cases h
          · next hmm =>
            simp only [bne_iff_ne, ne_eq, gt_iff_lt, Bool.or_eq_true, decide_eq_true_eq, not_or,
              not_not, not_lt] at hmm
            obtain ⟨rfl, hle⟩ := hmm
            split at h
            · cases h
            · next pq hpq =>
              cases h
              exact ⟨method, target, version, minor, pq, hs, by simpa using hm, by simpa using ht,
                hv, hle, hpq, rfl⟩

theorem parseFieldLine_ok {intoHeaders : Bool} (h : p.parseFieldLine line intoHeaders = .ok q) :
    ∃ name value, splitFieldLine line = .ok (name, value) ∧
      ((intoHeaders = true ∧
          (iequals name (text "Host") && p.req.headers.has (text "Host")) = false ∧
          q = { p with req := { p.req with headers := p.req.headers.add name value } }) ∨
        (intoHeaders = false ∧
          q = { p with req := { p.req with trailers := p.req.trailers.add name value } })) := by
  unfold parseFieldLine at h
  split at h
  · cases h
  · next name value hs =>
    refine ⟨name, value, hs, ?_⟩
    cases intoHeaders with
    | true =>
      simp only [if_true] at h
      split at h
      · cases h
      · next hh => cases h; exact .inl ⟨rfl, by simpa using hh, rfl⟩
    | false => simp only [Bool.false_eq_true, if_false] at h; cases h; exact .inr ⟨rfl, rfl⟩

theorem parseRequestLine_error (h : p.parseRequestLine line = .error f) : f.Under p.limits := by
  unfold parseRequestLine at h
  repeat' split at h
  all_goals cases h
  all_goals exact fun hf => ParseError.noConfusion hf

theorem parseFieldLine_error {intoHeaders : Bool}
    (h : p.parseFieldLine line intoHeaders = .error f) :
    f.Under p.limits := by
  intro hf
  unfold parseFieldLine at h
  split at h
  · next f' hs =>
    cases h
    cases hf.symm.trans (splitFieldLine_error hs)
  · repeat' split at h
    all_goals cases h
    cases hf

theorem parseChunkSize_error (h : p.parseChunkSize line = .error f) : f.Under p.limits := by
  unfold parseChunkSize at h
  repeat' split at h
  all_goals cases h
  all_goals exact fun hf => ParseError.noConfusion hf

theorem finishHeaders_error (h : p.finishHeaders = .error f) : f.Under p.limits := by
  intro hf
  unfold finishHeaders at h
  split at h
  · next f' hb =>
    cases h
    unfold bodyFraming at hb
    dsimp only at hb
    repeat' split at hb
    all_goals cases hb
    any_goals cases hf
    next hle hlt => exact hlt.trans_le (Nat.le_of_not_lt hle)
  · cases h

theorem bodyFraming_state {s : State} {r : ℕ} (h : p.bodyFraming = .ok (s, r)) :
    s = .chunkSize ∨ s = .body ∨ s = .done := by
  unfold bodyFraming at h
  dsimp only at h
  split at h
  · cases h
  · split at h
    · cases h
    · split at h
      · cases h
      · split at h <;> cases h; exact .inl rfl
    · split at h
      · cases h
      · split at h
        · cases h
        · split at h
          · cases h
          · cases h; split <;> simp
    · cases h; simp

theorem finishHeaders_ok (h : p.finishHeaders = .ok q) :
    ∃ s r e, p.bodyFraming = .ok (s, r) ∧ (e = true → s ≠ .done) ∧
      q = { p with state := s, remaining := r, req := { p.req with expectContinue := e } } := by
  unfold finishHeaders at h
  split at h
  · cases h
  · next s r hb =>
    cases h
    exact ⟨s, r, _, hb, by simp, rfl⟩

theorem parseChunkSize_ok (h : p.parseChunkSize line = .ok q) :
    ∃ size, chunkSizeOf line = some size ∧
      ((size = 0 ∧ q = { p with state := .trailers }) ∨
        (size ≠ 0 ∧ size ≤ p.limits.maxBodyBytes ∧
          wrap (p.req.body.length + size) ≤ p.limits.maxBodyBytes ∧
          q = { p with remaining := size, state := .chunkData })) := by
  unfold parseChunkSize at h
  split at h
  · cases h
  · next size hs =>
    refine ⟨size, hs, ?_⟩
    split at h
    · next h0 => cases h; exact .inl ⟨h0, rfl⟩
    · next h0 =>
      split at h
      · cases h
      · next hle =>
        cases h
        simp only [gt_iff_lt, Bool.or_eq_true, decide_eq_true_eq, not_or, not_lt] at hle
        exact .inr ⟨h0, hle.1, hle.2, rfl⟩

/-- The parser reads a unit of its input. -/
inductive Reads (p : RequestParser) : Bytes → RequestParser → Prop where
  | blank : p.state = .requestLine → Reads p kCRLF p
  | requestLine {line : Bytes} {q : RequestParser} : p.state = .requestLine → line ≠ [] →
      CrlfFree line → line.length ≤ p.limits.maxRequestLine → p.parseRequestLine line = .ok q →
      Reads p (line ++ kCRLF) { q with state := .headers }
  | field {line : Bytes} {q : RequestParser} : p.state = .headers ∨ p.state = .trailers →
      line ≠ [] → CrlfFree line →
      p.headerBytes + (line.length + 2) ≤ p.limits.maxHeaderBytes →
      p.headerCount + 1 ≤ p.limits.maxHeaderCount →
      (p.countLine line).countField.parseFieldLine line (p.state == .headers) = .ok q →
      Reads p (line ++ kCRLF) q
  | finish {q : RequestParser} : p.state = .headers →
      p.headerBytes + 2 ≤ p.limits.maxHeaderBytes → (p.countLine []).finishHeaders = .ok q →
      Reads p kCRLF q
  | trailersEnd : p.state = .trailers → p.headerBytes + 2 ≤ p.limits.maxHeaderBytes →
      Reads p kCRLF { p.countLine [] with state := .done }
  | data {d : Bytes} : p.state = .body ∨ p.state = .chunkData → d.length ≤ p.remaining →
      (d = [] → p.remaining = 0) → Reads p d (p.takeData d)
  | dataEnd : p.state = .chunkDataEnd → Reads p kCRLF { p with state := .chunkSize }
  | chunkSize {line : Bytes} {q : RequestParser} : p.state = .chunkSize → CrlfFree line →
      line.length ≤ p.limits.maxChunkLine → p.parseChunkSize line = .ok q →
      Reads p (line ++ kCRLF) q

/-- The parser can do nothing before it gets more input, or has ended. -/
inductive Waits (p : RequestParser) : Bytes → Prop where
  | requestLine {rest : Bytes} : p.state = .requestLine → Search.find kCRLF rest = none →
      rest.length ≤ wrap (p.limits.maxRequestLine + 1) → Waits p rest
  | headers {rest : Bytes} : p.state = .headers ∨ p.state = .trailers →
      Search.find kCRLF rest = none →
      p.headerBytes + rest.length + 1 ≤ p.limits.maxHeaderBytes → Waits p rest
  | body : p.state = .body ∨ p.state = .chunkData → Waits p []
  | chunkDataEnd {rest : Bytes} : p.state = .chunkDataEnd → rest.length < 2 → Waits p rest
  | chunkSize {rest : Bytes} : p.state = .chunkSize → Search.find kCRLF rest = none →
      rest.length ≤ wrap (p.limits.maxChunkLine + 1) → Waits p rest
  | ended {rest : Bytes} : p.state = .done ∨ p.state = .error → Waits p rest

/-- The parser records an error, before or after it has counted the line at fault. -/
inductive Fails (p : RequestParser) (rest : Bytes) : RequestParser → ℕ → Prop where
  | early (f : Failure) : f.Under p.limits → Fails p rest (p.fail f) 0
  | counted {line t : Bytes} (f : Failure) : f.Under p.limits → rest = line ++ (kCRLF ++ t) →
      p.headerBytes + (line.length + 2) ≤ p.limits.maxHeaderBytes →
      Fails p rest ((p.countLine line).fail f) (line.length + 2)
  | field {line t : Bytes} (f : Failure) : f.Under p.limits → rest = line ++ (kCRLF ++ t) →
      p.headerBytes + (line.length + 2) ≤ p.limits.maxHeaderBytes →
      Fails p rest ((p.countLine line).countField.fail f) (line.length + 2)

theorem onRequestLine_more (hs : p.state = .requestLine) (hl : CrlfFree line)
    (h : p.onRequestLine line = .more p' n) :
    n = (line ++ kCRLF).length ∧ p.Reads (line ++ kCRLF) p' := by
  unfold onRequestLine at h
  split at h
  · next h0 =>
    cases h
    obtain rfl := List.length_eq_zero_iff.mp h0
    exact ⟨rfl, .blank hs⟩
  · next h0 =>
    split at h
    · cases h
    · next hlen =>
      split at h
      · cases h
      · next q hq =>
        cases h
        exact ⟨by simp, .requestLine hs (fun e => h0 (by simp [e])) hl (by omega) hq⟩

theorem onHeaderLine_more (hs : p.state = .headers ∨ p.state = .trailers) (hl : CrlfFree line)
    (h : p.onHeaderLine line = .more p' n) :
    n = (line ++ kCRLF).length ∧ p.Reads (line ++ kCRLF) p' := by
  unfold onHeaderLine at h
  split at h
  · cases h
  · next hbytes =>
    simp only [length_kCRLF, not_lt, gt_iff_lt] at hbytes
    split at h
    · next h0 =>
      obtain rfl := List.length_eq_zero_iff.mp h0
      unfold onBlankLine at h
      split at h
      · next htr => cases h; exact ⟨rfl, .trailersEnd htr hbytes⟩
      · next htr =>
        split at h
        · cases h
        · next q hq => cases h; exact ⟨rfl, .finish (hs.resolve_right htr) hbytes hq⟩
    · next h0 =>
      unfold onField at h
      split at h
      · cases h
      · next hcount =>
        split at h
        · cases h
        · next q hq =>
          cases h
          exact ⟨by simp, .field hs (fun e => h0 (by simp [e])) hl hbytes
            (by simpa using hcount) hq⟩

theorem onChunkSizeLine_more (hs : p.state = .chunkSize) (hl : CrlfFree line)
    (h : p.onChunkSizeLine line = .more p' n) :
    n = (line ++ kCRLF).length ∧ p.Reads (line ++ kCRLF) p' := by
  unfold onChunkSizeLine at h
  split at h
  · cases h
  · next hlen =>
    split at h
    · cases h
    · next q hq => cases h; exact ⟨by simp, .chunkSize hs hl (by omega) hq⟩

theorem feedChunkDataEnd_more (hs : p.state = .chunkDataEnd)
    (h : p.feedChunkDataEnd rest = .more p' n) :
    ∃ u t, rest = u ++ t ∧ u.length = n ∧ p.Reads u p' := by
  unfold feedChunkDataEnd at h
  split at h
  · cases h
  · split at h
    · cases h
    · next hcr =>
      cases h
      exact ⟨kCRLF, rest.drop 2, by
        rw [← not_not.mp hcr, length_kCRLF, List.take_append_drop], rfl, .dataEnd hs⟩

theorem feedBody_more (hs : p.state = .body ∨ p.state = .chunkData)
    (h : p.feedBody rest = .more p' n) :
    ∃ u t, rest = u ++ t ∧ u.length = n ∧ p.Reads u p' := by
  unfold feedBody at h
  split at h
  · cases h
  · next hne =>
    cases h
    have hlen : (rest.take (min rest.length p.remaining)).length = min rest.length p.remaining := by
      simp
    refine ⟨_, _, (List.take_append_drop _ rest).symm, hlen, .data hs (by omega) fun e => ?_⟩
    have hpos := List.length_pos_iff.mpr hne
    rw [e, List.length_nil] at hlen
    omega

/-- A pass that goes on reads a unit from the front of its input. -/
theorem feedStep_more (h : p.feedStep rest = .more p' n) :
    ∃ u t, rest = u ++ t ∧ u.length = n ∧ p.Reads u p' := by
  have ofLine : ∀ {g : Bytes → Turn RequestParser} {c : ℕ → Bool} {f : Failure},
      (∀ {line}, CrlfFree line → g line = .more p' n →
        n = (line ++ kCRLF).length ∧ p.Reads (line ++ kCRLF) p') →
      withLine rest (fun n => p.awaitLine (c n) f) g = .more p' n →
      ∃ u t, rest = u ++ t ∧ u.length = n ∧ p.Reads u p' := by
    intro g c f hg h
    obtain ⟨line, t, rfl, hl, hT⟩ := withLine_more h
    exact ⟨line ++ kCRLF, t, by simp, (hg hl hT).1.symm, (hg hl hT).2⟩
  unfold RequestParser.feedStep at h
  split at h
  case h_1 hs => exact ofLine (onRequestLine_more hs) h
  case h_2 hs => exact ofLine (onHeaderLine_more (.inl hs)) h
  case h_3 hs => exact ofLine (onHeaderLine_more (.inr hs)) h
  case h_4 hs => exact feedBody_more (.inl hs) h
  case h_5 hs => exact feedBody_more (.inr hs) h
  case h_6 hs => exact feedChunkDataEnd_more hs h
  case h_7 hs => exact ofLine (onChunkSizeLine_more hs) h
  case h_8 => cases h
  case h_9 => cases h

theorem feedStep_requestLine (hs : p.state = .requestLine) :
    p.feedStep rest = p.feedRequestLine rest := by rw [feedStep, hs]

theorem feedStep_headers (hs : p.state = .headers ∨ p.state = .trailers) :
    p.feedStep rest = p.feedHeaders rest := by rcases hs with hs | hs <;> rw [feedStep, hs]

theorem feedStep_body (hs : p.state = .body ∨ p.state = .chunkData) :
    p.feedStep rest = p.feedBody rest := by rcases hs with hs | hs <;> rw [feedStep, hs]

theorem feedStep_chunkDataEnd (hs : p.state = .chunkDataEnd) :
    p.feedStep rest = p.feedChunkDataEnd rest := by rw [feedStep, hs]

theorem feedStep_chunkSize (hs : p.state = .chunkSize) :
    p.feedStep rest = p.feedChunkSize rest := by rw [feedStep, hs]

theorem feedStep_ended (hs : p.state = .done ∨ p.state = .error) :
    p.feedStep rest = .stop p 0 := by rcases hs with hs | hs <;> rw [feedStep, hs]

/-- A unit at the front of the input is read by a pass; body bytes are read as far as
they are there. -/
theorem Reads.feedStep (h : p.Reads u p') (t : Bytes)
    (hdata : p.state = .body ∨ p.state = .chunkData →
      u ≠ [] ∧ u.length = min (u ++ t).length p.remaining) :
    p.feedStep (u ++ t) = .more p' u.length := by
  cases h with
  | blank hs =>
    rw [feedStep_requestLine hs]
    exact withLine_line crlfFree_nil t
  | @requestLine line q hs hne hl hlen hq =>
    rw [feedStep_requestLine hs, List.append_assoc, feedRequestLine, withLine_line hl]
    simp [onRequestLine, hne, Nat.not_lt.mpr hlen, hq]
  | @field line q hs hne hl hbytes hcount hq =>
    rw [feedStep_headers hs, List.append_assoc, feedHeaders, withLine_line hl]
    simp [onHeaderLine, Nat.not_lt.mpr hbytes, onField, hne, Nat.not_lt.mpr hcount, hq]
  | finish hs hbytes hq =>
    rw [feedStep_headers (.inl hs)]
    refine (withLine_line crlfFree_nil t).trans ?_
    simp [onHeaderLine, Nat.not_lt.mpr hbytes, onBlankLine, hs, hq]
  | trailersEnd hs hbytes =>
    rw [feedStep_headers (.inr hs)]
    refine (withLine_line crlfFree_nil t).trans ?_
    simp [onHeaderLine, Nat.not_lt.mpr hbytes, onBlankLine, hs]
  | data hs hle he =>
    obtain ⟨hne, hmin⟩ := hdata hs
    rw [feedStep_body hs, feedBody, if_neg (by simp [hne]), ← hmin]
    simp
  | dataEnd hs =>
    rw [feedStep_chunkDataEnd hs]
    simp [feedChunkDataEnd, kCRLF]
  | @chunkSize line q hs hl hlen hq =>
    rw [feedStep_chunkSize hs, List.append_assoc, feedChunkSize, withLine_line hl]
    simp [onChunkSizeLine, Nat.not_lt.mpr hlen, hq]

theorem takeData_of_lt {d : Bytes} (h : d.length < p.remaining) :
    p.takeData d = { p with
      req := { p.req with body := p.req.body ++ d }
      remaining := p.remaining - d.length } := by
  unfold takeData
  exact if_neg (by dsimp only; omega)

theorem feedBody_of_ne_nil (h : rest ≠ []) : p.feedBody rest =
    .more (p.takeData (rest.take (min rest.length p.remaining))) (min rest.length p.remaining) :=
  if_neg h

def inContent (p : RequestParser) : Bool := p.state == .body || p.state == .chunkData

theorem feedStep_more_iff (hc : p.inContent = false) :
    p.feedStep rest = .more p' n ↔ ∃ u t, rest = u ++ t ∧ u.length = n ∧ p.Reads u p' := by
  refine ⟨feedStep_more, ?_⟩
  rintro ⟨u, t, rfl, rfl, hu⟩
  refine hu.feedStep t fun hs => ?_
  rcases hs with hs | hs <;> simp [inContent, hs] at hc

theorem onRequestLine_stop (h : p.onRequestLine line = .stop p' n) :
    ∃ f, f.Under p.limits ∧ p' = p.fail f ∧ n = 0 := by
  unfold onRequestLine at h
  split at h
  · cases h
  · split at h
    · cases h; exact ⟨_, fun hf => ParseError.noConfusion hf, rfl, rfl⟩
    · split at h <;> cases h
      next hp => exact ⟨_, parseRequestLine_error hp, rfl, rfl⟩

theorem onChunkSizeLine_stop (h : p.onChunkSizeLine line = .stop p' n) :
    ∃ f, f.Under p.limits ∧ p' = p.fail f ∧ n = 0 := by
  unfold onChunkSizeLine at h
  split at h
  · cases h; exact ⟨_, fun hf => ParseError.noConfusion hf, rfl, rfl⟩
  · split at h <;> cases h
    next hp => exact ⟨_, parseChunkSize_error hp, rfl, rfl⟩

theorem onHeaderLine_stop (h : p.onHeaderLine line = .stop p' n) (t : Bytes) :
    p.Fails (line ++ (kCRLF ++ t)) p' n := by
  unfold onHeaderLine at h
  split at h
  · cases h; exact .early _ fun hf => ParseError.noConfusion hf
  · next hbytes =>
    simp only [length_kCRLF, not_lt, gt_iff_lt] at hbytes
    split at h
    · next h0 =>
      obtain rfl := List.length_eq_zero_iff.mp h0
      unfold onBlankLine at h
      split at h
      · cases h
      · split at h <;> cases h
        next hp =>
          have hf := finishHeaders_error hp
          exact .counted _ hf rfl hbytes
    · unfold onField at h
      split at h
      · cases h; exact .field _ (fun hf => ParseError.noConfusion hf) rfl hbytes
      · split at h <;> cases h
        next hp =>
          have hf := parseFieldLine_error hp
          exact .field _ hf rfl hbytes

/-- A pass that returns waits for more input, or fails. -/
theorem feedStep_stop (h : p.feedStep rest = .stop p' n) :
    (p' = p ∧ n = 0 ∧ p.Waits rest) ∨ p.Fails rest p' n := by
  unfold RequestParser.feedStep at h
  split at h
  case h_1 hs =>
    rcases withLine_stop h with ⟨hf, hc, rfl, rfl⟩ | ⟨rfl, rfl⟩ | ⟨line, t, rfl, hl, hT⟩
    · exact .inl ⟨rfl, rfl, .requestLine hs hf (by simpa using hc)⟩
    · exact .inr (.early _ fun hf => ParseError.noConfusion hf)
    · obtain ⟨f, hf, rfl, rfl⟩ := onRequestLine_stop hT; exact .inr (.early f hf)
  case h_2 hs =>
    rcases withLine_stop h with ⟨hf, hc, rfl, rfl⟩ | ⟨rfl, rfl⟩ | ⟨line, t, rfl, hl, hT⟩
    · exact .inl ⟨rfl, rfl, .headers (.inl hs) hf (by simpa using hc)⟩
    · exact .inr (.early _ fun hf => ParseError.noConfusion hf)
    · exact .inr (onHeaderLine_stop hT t)
  case h_3 hs =>
    rcases withLine_stop h with ⟨hf, hc, rfl, rfl⟩ | ⟨rfl, rfl⟩ | ⟨line, t, rfl, hl, hT⟩
    · exact .inl ⟨rfl, rfl, .headers (.inr hs) hf (by simpa using hc)⟩
    · exact .inr (.early _ fun hf => ParseError.noConfusion hf)
    · exact .inr (onHeaderLine_stop hT t)
  case h_4 hs =>
    unfold feedBody at h
    split at h
    · next he => cases h; exact .inl ⟨rfl, rfl, he ▸ .body (.inl hs)⟩
    · cases h
  case h_5 hs =>
    unfold feedBody at h
    split at h
    · next he => cases h; exact .inl ⟨rfl, rfl, he ▸ .body (.inr hs)⟩
    · cases h
  case h_6 hs =>
    unfold feedChunkDataEnd at h
    split at h
    · next hlt => cases h; exact .inl ⟨rfl, rfl, .chunkDataEnd hs hlt⟩
    · split at h <;> cases h
      exact .inr (.early _ fun hf => ParseError.noConfusion hf)
  case h_7 hs =>
    rcases withLine_stop h with ⟨hf, hc, rfl, rfl⟩ | ⟨rfl, rfl⟩ | ⟨line, t, rfl, hl, hT⟩
    · exact .inl ⟨rfl, rfl, .chunkSize hs hf (by simpa using hc)⟩
    · exact .inr (.early _ fun hf => ParseError.noConfusion hf)
    · obtain ⟨f, hf, rfl, rfl⟩ := onChunkSizeLine_stop hT; exact .inr (.early f hf)
  case h_8 hs => cases h; exact .inl ⟨rfl, rfl, .ended (.inl hs)⟩
  case h_9 hs => cases h; exact .inl ⟨rfl, rfl, .ended (.inr hs)⟩

theorem Fails.state (h : p.Fails rest p' n) : p'.state = .error := by cases h <;> rfl

theorem Fails.limits (h : p.Fails rest p' n) : p'.limits = p.limits := by cases h <;> rfl

theorem Fails.used_le (h : p.Fails rest p' n) : n ≤ rest.length := by
  cases h with
  | early => simp
  | counted f _ hr _ => simp [hr]
  | field f _ hr _ => simp [hr]

theorem takeData_cases (d : Bytes) :
    (p.takeData d = { p with
      req := { p.req with body := p.req.body ++ d }
      remaining := p.remaining - d.length }) ∨
    (p.takeData d = { p with
      req := { p.req with body := p.req.body ++ d }
      remaining := p.remaining - d.length
      state := if p.state = .body then .done else .chunkDataEnd }) := by
  unfold takeData
  dsimp only
  split
  · exact .inr rfl
  · exact .inl rfl

theorem takeData_req (d : Bytes) : (p.takeData d).req = { p.req with body := p.req.body ++ d } := by
  unfold takeData
  dsimp only
  split <;> rfl

@[simp] theorem takeData_limits {d : Bytes} : (p.takeData d).limits = p.limits := by
  unfold takeData; dsimp only; split <;> rfl

theorem Fails.req (h : p.Fails rest q n) : q.req = p.req := by cases h <;> rfl

theorem Fails.maxSize_lt (h : p.Fails rest q n) (hq : q.error = .lengthError) :
    p.limits.maxSize < p.limits.maxBodyBytes := by
  cases h with
  | early f hf => exact hf hq
  | counted f hf => exact hf hq
  | field f hf => exact hf hq

theorem Reads.frame (h : p.Reads u p') : p'.limits = p.limits ∧ p'.error = p.error := by
  cases h with
  | blank => exact ⟨rfl, rfl⟩
  | requestLine _ _ _ _ hq =>
    obtain ⟨_, _, _, _, _, _, _, _, _, _, _, rfl⟩ := parseRequestLine_ok hq
    exact ⟨rfl, rfl⟩
  | field _ _ _ _ _ hq =>
    obtain ⟨_, _, _, ⟨_, _, rfl⟩ | ⟨_, rfl⟩⟩ := parseFieldLine_ok hq <;> exact ⟨rfl, rfl⟩
  | finish _ _ hq =>
    obtain ⟨_, _, _, _, _, rfl⟩ := finishHeaders_ok hq
    exact ⟨rfl, rfl⟩
  | trailersEnd => exact ⟨rfl, rfl⟩
  | data =>
    unfold takeData
    dsimp only
    split <;> exact ⟨rfl, rfl⟩
  | dataEnd => exact ⟨rfl, rfl⟩
  | chunkSize _ _ _ hq =>
    obtain ⟨_, _, ⟨_, rfl⟩ | ⟨_, _, _, rfl⟩⟩ := parseChunkSize_ok hq <;> exact ⟨rfl, rfl⟩

theorem Reads.limits (h : p.Reads u p') : p'.limits = p.limits := h.frame.1

/-- Body bytes may end their state without using input, and a finished request waits
to be taken. -/
def rank (p : RequestParser) : ℕ :=
  match p.state with
  | .body | .chunkData => 2
  | .done => 1
  | _ => 0

theorem rank_le_two (p : RequestParser) : p.rank ≤ 2 := by unfold rank; split <;> omega

theorem rank_takeData_lt {d : Bytes} (hs : p.state = .body ∨ p.state = .chunkData)
    (he : d = [] → p.remaining = 0) : (p.takeData d).rank < p.rank + 2 * d.length := by
  have hp : p.rank = 2 := by rcases hs with hs | hs <;> simp [rank, hs]
  rcases eq_or_ne d [] with rfl | hd
  · rcases hs with hs | hs <;> simp [takeData, he rfl, rank, hs]
  · have := List.length_pos_iff.mpr hd
    have := (p.takeData d).rank_le_two
    omega

theorem Reads.rank_lt (h : p.Reads u p') : p'.rank < p.rank + 2 * u.length := by
  have hp' := p'.rank_le_two
  cases h with
  | data hs _ he => exact rank_takeData_lt hs he
  | _ => exact lt_of_le_of_lt hp' (by simp only [List.length_append, length_kCRLF]; omega)

def machine : Machine RequestParser UInt8 where
  step := feedStep
  rank := rank
  stop_le h := by
    rcases feedStep_stop h with ⟨rfl, rfl, _⟩ | hf
    · simp
    · exact ⟨hf.used_le, by simp [rank, hf.state]⟩
  more_lt h := by
    obtain ⟨u, t, rfl, rfl, hu⟩ := feedStep_more h
    exact ⟨by simp, hu.rank_lt⟩

theorem Reads.step_eq (h : p.Reads u p') (hc : p.inContent = false) (t : Bytes) :
    machine.step p (u ++ t) = .more p' u.length :=
  (feedStep_more_iff hc).mpr ⟨u, t, rfl, rfl, h⟩

theorem until_reads_iff {P : RequestParser → Prop} {k : ℕ} (hc : p.inContent = false)
    (hP : ∀ {u s}, p.Reads u s → ¬ P s) :
    machine.Until P p rest q k ↔ ∃ u t s j, rest = u ++ t ∧ p.Reads u s ∧
      machine.Until P s t q j ∧ k = u.length + j := by
  constructor
  · rintro (⟨hstep, hq⟩ | ⟨hstep, _, hrest⟩)
    · obtain ⟨u, t, rfl, rfl, hu⟩ := feedStep_more hstep
      exact absurd hq (hP hu)
    · obtain ⟨u, t, rfl, rfl, hu⟩ := feedStep_more hstep
      rw [List.drop_left] at hrest
      exact ⟨u, t, _, _, rfl, hu, hrest, rfl⟩
  · rintro ⟨u, t, s, j, rfl, hu, hrest, rfl⟩
    exact .later (hu.step_eq hc t) (hP hu) (by rwa [List.drop_left])

/-- Consume every complete unit; the result is the parser and the number of bytes used. -/
def feed (p : RequestParser) (data : Bytes) : RequestParser × ℕ := machine.feed p data

/-- What units and failures preserve holds when a call returns. -/
theorem feed_keeps {I : RequestParser → Prop} (hreads : ∀ {p u q}, p.Reads u q → I p → I q)
    (hfails : ∀ {p rest q n}, p.Fails rest q n → I p → I q) (h : I p) (d : Bytes) :
    I (p.feed d).1 := by
  apply machine.feed_invariant _ _ p d h
  · intro p d q n hs hp
    rcases feedStep_stop hs with ⟨rfl, _, _⟩ | hf
    · exact hp
    · exact hfails hf hp
  · intro p d q n hs hp
    obtain ⟨_, _, _, _, hu⟩ := feedStep_more hs
    exact hreads hu hp

theorem feed_limits (p : RequestParser) (d : Bytes) : (p.feed d).1.limits = p.limits :=
  feed_keeps (I := fun q => q.limits = p.limits) (fun hu hq => hu.limits.trans hq)
    (fun hf hq => hf.limits.trans hq) rfl d

/-- A string can hold every body within the limit, so that no exception is thrown. -/
structure Tame (p : RequestParser) : Prop where
  fits : p.limits.maxBodyBytes ≤ p.limits.maxSize
  error : p.error ≠ .lengthError

theorem Tame.threw (h : p.Tame) : p.threw = false := by
  simp [RequestParser.threw, h.error]

theorem Tame.reset (h : p.Tame) : p.reset.Tame := ⟨h.fits, by simp [RequestParser.reset]⟩

theorem Tame.feed (h : p.Tame) (d : Bytes) : (p.feed d).1.Tame := by
  apply feed_keeps _ _ h
  · intro q u q' hu hq
    exact ⟨by rw [hu.limits]; exact hq.fits, by rw [hu.frame.2]; exact hq.error⟩
  · intro q rest q' n hf hq
    exact ⟨by rw [hf.limits]; exact hq.fits, fun he => absurd hq.fits (hf.maxSize_lt he).not_ge⟩

theorem Waits.feedStep (h : p.Waits rest) : p.feedStep rest = .stop p 0 := by
  cases h with
  | requestLine hs hf hle =>
    simp [feedStep_requestLine hs, feedRequestLine, withLine, hf, awaitLine, Nat.not_lt.mpr hle]
  | headers hs hf hle =>
    simp [feedStep_headers hs, feedHeaders, withLine, hf, awaitLine, Nat.not_lt.mpr hle]
  | body hs => simp [feedStep_body hs, feedBody]
  | chunkDataEnd hs hlt => simp [feedStep_chunkDataEnd hs, feedChunkDataEnd, hlt]
  | chunkSize hs hf hle =>
    simp [feedStep_chunkSize hs, feedChunkSize, withLine, hf, awaitLine, Nat.not_lt.mpr hle]
  | ended hs => exact feedStep_ended hs

theorem Waits.feed (h : p.Waits rest) : p.feed rest = (p, 0) := machine.feed_stop h.feedStep

theorem feed_waits (h : (p.feed rest).1.failed = false) :
    (p.feed rest).1.Waits (rest.drop (p.feed rest).2) := by
  obtain ⟨q, k, n, hstep, hused⟩ := machine.feed_stops p rest
  rcases feedStep_stop hstep with ⟨hq, rfl, hw⟩ | hf
  · rw [Nat.add_zero] at hused
    rwa [← hused, ← hq] at hw
  · simp [failed, feed, hf.state] at h

end RequestParser

end Httpd
