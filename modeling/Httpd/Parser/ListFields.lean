import Httpd.Parser.Body
import Httpd.Parser.Retained

/-! # List-valued fields

The lines of one field name are folded into a comma-separated value, and the value is
split again where it is used. Splitting undoes the folding: the members of the folded
value are the members of the lines. So neither the length of a body nor the
persistence of a connection depends on how a sender spreads the members over lines.
-/

namespace Httpd

open Incremental

variable {value : Bytes} {l : ParserLimits}

def items (value : Bytes) : List Bytes := (Headers.members value).map trimOws

theorem members_append (u v : Bytes) :
    Headers.members (u ++ ch ',' :: v) = Headers.members u ++ Headers.members v := by
  unfold Headers.members
  induction u using Search.split_induction (a := ch ',') with
  | hlast u hu =>
    rw [List.splitOn_append_cons_self_of_not_mem hu, List.splitOn_eq_singleton hu]
    rfl
  | hcons u w hu ih =>
    rw [List.append_assoc, List.cons_append, List.splitOn_append_cons_self_of_not_mem hu, ih,
      List.splitOn_append_cons_self_of_not_mem hu]
    rfl

theorem trimOws_sp_cons (u : Bytes) : trimOws (SP :: u) = trimOws u := rfl

theorem items_sp_cons (v : Bytes) : items (SP :: v) = items v := by
  have hsp {u : Bytes} (hu : ch ',' ∉ u) : ch ',' ∉ SP :: u :=
    List.not_mem_cons_of_ne_of_not_mem (by decide) hu
  unfold items Headers.members
  by_cases hv : ch ',' ∈ v
  · obtain ⟨u, w, rfl, hu⟩ := List.eq_append_cons_of_mem hv
    rw [← List.cons_append, List.splitOn_append_cons_self_of_not_mem (hsp hu),
      List.splitOn_append_cons_self_of_not_mem hu]
    simp [trimOws_sp_cons]
  · rw [List.splitOn_eq_singleton (hsp hv), List.splitOn_eq_singleton hv]
    simp [trimOws_sp_cons]

theorem items_append (a v : Bytes) : items (a ++ text ", " ++ v) = items a ++ items v := by
  have htext : a ++ text ", " ++ v = a ++ ch ',' :: (SP :: v) := by simp [text, ch, SP]
  rw [htext, ← items_sp_cons v, items, members_append, List.map_append]
  rfl

theorem items_intercalate (v : Bytes) (vs : List Bytes) :
    items ((text ", ").intercalate (v :: vs)) = (v :: vs).flatMap items := by
  induction vs generalizing v with
  | nil => simp
  | cons w vs ih => rw [List.intercalate_cons_cons, items_append, ih, ← List.flatMap_cons]

/-- The members of all lines of a name. -/
def listed (fs : List FieldLine) (name : Bytes) : List Bytes :=
  (fs.filter fun f => iequals f.name name).flatMap fun f => items f.value

theorem items_folded {fs : List FieldLine} {name v : Bytes} (h : folded fs name = some v) :
    items v = listed fs name := by
  unfold folded at h
  split at h
  · cases h
  · next w ws hw =>
    cases h
    rw [items_intercalate, ← hw, List.flatMap_map]
    rfl

theorem listed_eq_nil_iff {fs : List FieldLine} {name : Bytes} :
    listed fs name = [] ↔ folded fs name = none := by
  constructor
  · intro h
    cases hv : folded fs name with
    | none => rfl
    | some v =>
      rw [← items_folded hv, items, List.map_eq_nil_iff] at h
      exact absurd h (List.splitOn_ne_nil _ _)
  · intro h
    unfold folded at h
    split at h
    · next hnil =>
      rw [List.map_eq_nil_iff] at hnil
      simp [listed, hnil]
    · cases h

namespace Headers

variable {h : Headers} {name name' token : Bytes}

theorem hasToken_eq : h.hasToken name token =
    (h.get name).elim false fun v => (items v).any fun m => iequals m token := by
  unfold hasToken
  cases h.get name <;> simp [items, List.any_map, Function.comp_def]

theorem hasToken_add (hn : iequals name name' = true) (value : Bytes) :
    (h.add name value).hasToken name' token =
      (h.hasToken name' token || (items value).any fun m => iequals m token) := by
  rw [hasToken_eq, hasToken_eq, get_add, if_pos hn]
  cases h.get name' with
  | none => simp [foldValue]
  | some old => simp only [foldValue, Option.elim_some, items_append, List.any_append]

theorem hasToken_foldFields (fs : List FieldLine) :
    (foldFields .empty fs).hasToken name token = (listed fs name).any fun m => iequals m token := by
  rw [hasToken_eq, get_foldFields_empty]
  cases hv : folded fs name with
  | none => simp [listed_eq_nil_iff.mpr hv]
  | some v => simp [items_folded hv]

end Headers

namespace RequestParser

variable {p q : RequestParser} {u rest : Bytes} {n : ℕ}

/-- The header section has been read, with these fields and this version. -/
structure KeepsHead (h : Headers) (minor : ℕ) (p : RequestParser) : Prop where
  state : p.state ≠ .requestLine ∧ p.state ≠ .headers
  headers : p.req.headers = h
  minor : p.req.versionMinor = minor

theorem Reads.keepsHead {h : Headers} {minor : ℕ} (hr : p.Reads u q) (hp : p.KeepsHead h minor) :
    q.KeepsHead h minor := by
  obtain ⟨⟨hline, hsection⟩, hheaders, hminor⟩ := hp
  cases hr with
  | blank hs => exact absurd hs hline
  | requestLine hs => exact absurd hs hline
  | field hs _ _ _ _ hq =>
    obtain ⟨f, -, rfl, -⟩ := parseFieldLine_eq_ok_iff.mp hq
    have hs := hs.resolve_left hsection
    constructor <;> simp [addField, hs, hheaders, hminor]
  | finish hs => exact absurd hs hsection
  | trailersEnd => exact ⟨by simp, hheaders, hminor⟩
  | data hs =>
    refine ⟨?_, by rw [takeData_req]; exact hheaders, by rw [takeData_req]; exact hminor⟩
    rcases p.takeData_cases u with he | he <;> rw [he]
    · exact ⟨hline, hsection⟩
    · dsimp only
      split <;> simp
  | dataEnd => exact ⟨by simp, hheaders, hminor⟩
  | chunkSize hs _ _ hq =>
    obtain ⟨_, _, ⟨_, rfl⟩ | ⟨_, _, _, rfl⟩⟩ := parseChunkSize_ok hq
    · exact ⟨by simp, hheaders, hminor⟩
    · exact ⟨by simp, hheaders, hminor⟩

theorem Fails.keepsHead {h : Headers} {minor : ℕ} (hf : p.Fails rest q n)
    (hp : p.KeepsHead h minor) : q.KeepsHead h minor :=
  ⟨by simp [hf.state], by rw [hf.req]; exact hp.headers, by rw [hf.req]; exact hp.minor⟩

theorem keepsHead_of_head (h : Head l) :
    h.parser.KeepsHead (foldFields .empty h.fields) h.requestLine.minor := by
  refine ⟨?_, rfl, rfl⟩
  change h.framing.state ≠ _ ∧ h.framing.state ≠ _
  cases h.framing with
  | none => simp [BodyFraming.state]
  | length n => simp only [BodyFraming.state]; split <;> simp
  | chunked => simp [BodyFraming.state]

variable {x : Bytes} {R : Request} {k : ℕ}

theorem Finishes.exists_head (hR : Finishes l x R k) : ∃ h : Head l, h.bytes <+: x := by
  have hdone := (until_done_iff (p := { limits := l }) (by simp)).mpr ⟨rfl, hR.done⟩
  obtain ⟨q, j, hq⟩ := hdone.exists_of_imp (Q := HeadersComplete) fun hs => by
    simp [HeadersComplete, headersComplete, done_iff.mp hs]
  obtain ⟨h, hpre, -, -⟩ := until_head_iff.mp hq
  exact ⟨h, hpre⟩

/-- The body and the trailers leave the head of a request as it is. -/
theorem Finishes.keepsHead (hR : Finishes l x R k) {h : Head l} (hx : h.bytes <+: x) :
    R.headers = foldFields .empty h.fields ∧ R.versionMinor = h.requestLine.minor := by
  obtain ⟨y, rfl⟩ := hx
  have hkeeps := feed_keeps (fun hu hp => hu.keepsHead hp) (fun hf hp => hf.keepsHead hp)
    (keepsHead_of_head h) y
  rw [← hR.req, feed_head]
  exact ⟨hkeeps.headers, hkeeps.minor⟩

/-- Whether a connection persists depends on the members of all `Connection` lines and on the
version only. A token is listed after an addition exactly if it was before or has been added. -/
theorem keep_alive_exact (l : ParserLimits) :
    (∀ {x R k}, Finishes l x R k → (∃ h : Head l, h.bytes <+: x) ∧ ∀ h : Head l, h.bytes <+: x →
      let options := listed h.fields (text "Connection")
      (R.keepAlive = true ↔ (∀ m ∈ options, iequals m (text "close") = false) ∧
        (h.requestLine.minor = 1 ∨ ∃ m ∈ options, iequals m (text "keep-alive") = true))) ∧
    ∀ (h : Headers) (name name' value token : Bytes), iequals name name' = true →
      (h.add name value).hasToken name' token =
        (h.hasToken name' token || (items value).any fun m => iequals m token) := by
  refine ⟨fun {x R k} hR => ⟨hR.exists_head, fun h hx => ?_⟩,
    fun h name name' value token hn => Headers.hasToken_add hn value⟩
  obtain ⟨hheaders, hminor⟩ := hR.keepsHead hx
  have hle := h.requestLine.minor_le
  simp only [Request.keepAlive, hheaders, hminor, Headers.hasToken_foldFields]
  cases hclose : (listed h.fields (text "Connection")).any fun m => iequals m (text "close") with
  | true =>
    obtain ⟨m, hm, hc⟩ := List.any_eq_true.mp hclose
    simp only [if_true, Bool.false_eq_true, false_iff]
    rintro ⟨hall, -⟩
    cases (hall m hm).symm.trans hc
  | false =>
    simp only [List.any_eq_false, Bool.not_eq_true] at hclose
    rcases Nat.le_one_iff_eq_zero_or_eq_one.mp hle with h0 | h1
    · simpa [h0] using fun _ _ _ => hclose
    · simpa [h1] using hclose

def optionsHead : Head {} where
  blanks := 0
  requestLine := { shortestLine with minor := 0, minor_le := Nat.zero_le 1 }
  fields := [⟨text "Connection", text "te,, closed", by decide, by decide +kernel⟩,
    ⟨text "CONNECTION", text " x , Keep-Alive", by decide, by decide +kernel⟩]
  framing := .none
  line_le := by decide
  bytes_le := by decide
  count_le := by decide
  host_le := by decide
  host_pos := by decide
  frames := ⟨by decide, by decide⟩
  fits := by decide

theorem keep_alive_exact_options :
    Finishes {} (optionsHead.bytes ++ []) optionsHead.request (optionsHead.bytes.length + 0) ∧
      optionsHead.request.keepAlive = true := by
  have hfin : Finishes {} (optionsHead.bytes ++ []) optionsHead.request
      (optionsHead.bytes.length + 0) := (finishes_iff_of_done rfl).mpr ⟨rfl, rfl⟩
  refine ⟨hfin, ((keep_alive_exact {}).1 hfin).2 optionsHead (List.prefix_append _ _) |>.mpr ?_⟩
  exact ⟨by decide, .inr ⟨text "Keep-Alive", by decide, by decide⟩⟩

end RequestParser

/-- A head that is acceptable but for its framing, which is left to `Content-Length` lines. -/
structure LengthHead (l : ParserLimits) extends HeadLines l where
  no_coding : ∀ f ∈ fields, iequals f.name (text "Transfer-Encoding") = false
  has_length : ∃ f ∈ fields, iequals f.name (text "Content-Length") = true

namespace LengthHead

variable (h : LengthHead l)

def lengths : List Bytes := listed h.fields (text "Content-Length")

/-- Every member is a decimal number of at most 19 digits, and denotes this length. -/
def Agrees (n : ℕ) : Prop := ∀ m ∈ h.lengths, IsDecimal m n

end LengthHead

namespace RequestParser

variable {p q : RequestParser} {u : Bytes}

def lengthFraming (l : ParserLimits) : Option ℕ → Except Failure (State × ℕ)
  | none => .error ⟨.badRequest, "invalid Content-Length"⟩
  | some n =>
    if n > l.maxBodyBytes then .error ⟨.payloadTooLarge, "body exceeds limit"⟩
    else if n > l.maxSize then .error ⟨.lengthError, ""⟩
    else .ok ((BodyFraming.length n).state, n)

theorem bodyFraming_of_length {v : Bytes}
    (hhost : (p.req.versionMinor == 1 && !p.req.headers.has (text "Host")) = false)
    (hte : p.req.headers.get (text "Transfer-Encoding") = none)
    (hcl : p.req.headers.get (text "Content-Length") = some v) :
    p.bodyFraming = lengthFraming p.limits (parseContentLength v) := by
  simp only [bodyFraming, hhost, hte, hcl]
  cases parseContentLength v with
  | none => rfl
  | some n => cases n <;> rfl

end RequestParser

namespace LengthHead

open RequestParser

variable (h : LengthHead l) {n : ℕ}

theorem folded_coding : folded h.fields (text "Transfer-Encoding") = none := by
  rw [← listed_eq_nil_iff, listed,
    List.filter_eq_nil_iff.mpr fun f hf => by simp [h.no_coding f hf]]
  rfl

theorem exists_folded : ∃ v, folded h.fields (text "Content-Length") = some v ∧
    ∀ n, h.Agrees n ↔ parseContentLength v = some n := by
  obtain ⟨f, hf, hname⟩ := h.has_length
  cases hv : folded h.fields (text "Content-Length") with
  | none =>
    have hnil := listed_eq_nil_iff.mpr hv
    rw [listed, List.flatMap_eq_nil_iff] at hnil
    have hitems := hnil f (List.mem_filter.mpr ⟨hf, hname⟩)
    rw [items, List.map_eq_nil_iff] at hitems
    exact absurd hitems (List.splitOn_ne_nil _ _)
  | some v =>
    refine ⟨v, rfl, fun n => ?_⟩
    rw [parseContentLength_eq_some_iff, Agrees, lengths, ← items_folded hv, items]
    simp [IsLengthList]

def parser (n : ℕ) : RequestParser :=
  { h.unframed.countLine [] with
    state := (BodyFraming.length n).state
    remaining := n
    req := { h.unframed.req with
      expectContinue := expectsContinue (folded h.fields (text "Expect")) &&
        (BodyFraming.length n).state != .done } }

/-- What the empty line makes of the lengths that have been announced. -/
theorem finishHeaders_cases :
    (∃ n, h.Agrees n ∧ (n ≤ l.maxBodyBytes ∧ n ≤ l.maxSize) ∧
      (h.unframed.countLine []).finishHeaders = .ok (h.parser n)) ∨
    (∃ n, h.Agrees n ∧ (n ≤ l.maxBodyBytes ∧ l.maxSize < n) ∧
      (h.unframed.countLine []).finishHeaders = .error ⟨.lengthError, ""⟩) ∨
    (∃ n, h.Agrees n ∧ l.maxBodyBytes < n ∧
      (h.unframed.countLine []).finishHeaders = .error ⟨.payloadTooLarge, "body exceeds limit"⟩) ∨
    ((∀ n, ¬ h.Agrees n) ∧
      (h.unframed.countLine []).finishHeaders =
        .error ⟨.badRequest, "invalid Content-Length"⟩) := by
  obtain ⟨v, hv, hagrees⟩ := h.exists_folded
  have hframes := bodyFraming_of_length (by simpa using h.host_unframed)
    ((h.get_unframed _).trans h.folded_coding) ((h.get_unframed _).trans hv)
  rw [h.unframed_limits] at hframes
  cases hp : parseContentLength v with
  | none =>
    refine .inr (.inr (.inr ⟨fun n hn => ?_, ?_⟩))
    · cases hp.symm.trans ((hagrees n).mp hn)
    · simp only [finishHeaders, hframes, hp, lengthFraming]
  | some n =>
    have hn := (hagrees n).mpr hp
    rcases Nat.lt_or_ge l.maxBodyBytes n with hlt | hle
    · refine .inr (.inr (.inl ⟨n, hn, hlt, ?_⟩))
      simp only [finishHeaders, hframes, hp, lengthFraming, if_pos hlt]
    · rcases Nat.lt_or_ge l.maxSize n with hlt | hfits
      · refine .inr (.inl ⟨n, hn, ⟨hle, hlt⟩, ?_⟩)
        simp only [finishHeaders, hframes, hp, lengthFraming, if_neg (Nat.not_lt.mpr hle),
          if_pos hlt]
      · refine .inl ⟨n, hn, ⟨hle, hfits⟩, ?_⟩
        simp only [finishHeaders, hframes, hp, lengthFraming, if_neg (Nat.not_lt.mpr hle),
          if_neg (Nat.not_lt.mpr hfits), h.get_unframed]
        rfl

theorem Agrees.unique {h : LengthHead l} {n m : ℕ} (hn : h.Agrees n) (hm : h.Agrees m) : n = m := by
  obtain ⟨v, -, hv⟩ := h.exists_folded
  exact Option.some.inj (((hv n).mp hn).symm.trans ((hv m).mp hm))

/-- The header section is completed, at the end of the head, only with the length agreed on. -/
theorem until_iff {y : Bytes} {q : RequestParser} {k : ℕ} :
    machine.Until HeadersComplete { limits := l } (h.bytes ++ y) q k ↔
      ∃ n, h.Agrees n ∧ (n ≤ l.maxBodyBytes ∧ n ≤ l.maxSize) ∧ q = h.parser n ∧
        k = h.bytes.length := by
  have hs := h.unframed_state
  rcases h.finishHeaders_cases with
    ⟨n, hn, hle, hok⟩ | ⟨n, hn, hlt, hf⟩ | ⟨n, hn, hlt, hf⟩ | ⟨hn, hf⟩
  · obtain ⟨u, hu, hpass⟩ := h.passes_unframed
    have hread : h.unframed.Reads kCRLF (h.parser n) := .finish hs h.headerBytes_unframed hok
    have hcomplete : (h.parser n).HeadersComplete :=
      EndsSection.headersComplete hs (.inl ⟨hs, hok⟩)
    have hstep := hread.step_eq (inContent_of_section (.inl hs)) y
    rw [hu, List.append_assoc, hpass.until_iff]
    simp only [Machine.until_iff_of_here hstep hcomplete]
    constructor
    · rintro ⟨_, ⟨rfl, rfl⟩, rfl⟩
      exact ⟨n, hn, hle, rfl, by simp⟩
    · rintro ⟨n', hn', -, rfl, rfl⟩
      obtain rfl := hn'.unique hn
      exact ⟨2, ⟨rfl, rfl⟩, by simp⟩
  · refine iff_of_false (h.not_until_of_error hf y q k) ?_
    rintro ⟨n', hn', hle, -⟩
    obtain rfl := hn'.unique hn
    omega
  · refine iff_of_false (h.not_until_of_error hf y q k) ?_
    rintro ⟨n', hn', hle, -⟩
    obtain rfl := hn'.unique hn
    omega
  · refine iff_of_false (h.not_until_of_error hf y q k) ?_
    rintro ⟨n', hn', -⟩
    exact hn n' hn'

/-- A request with a head is rejected with a status, at the end of the head. -/
def Rejects (y : Bytes) (status : ℕ) : Prop :=
  let u := RequestParser.feed { limits := l } (h.bytes ++ y)
  u.1.failed = true ∧ u.1.threw = false ∧ statusFor u.1.error = status ∧ u.2 = h.bytes.length

/-- An exception leaves `feed` at the end of the head. -/
def Throws (y : Bytes) : Prop :=
  let u := RequestParser.feed { limits := l } (h.bytes ++ y)
  u.1.threw = true ∧ u.2 = h.bytes.length

theorem decNumber_lt {digits : Bytes} (hd : ∀ c ∈ digits, isDigit c = true) :
    decNumber digits < 10 ^ digits.length := by
  induction digits using List.reverseRecOn with
  | nil => decide
  | append_singleton digits c ih =>
    have hlt := ih fun c hc => hd c (by simp [hc])
    have hc := digit_toNat_lt (hd c (by simp))
    rw [decNumber, List.foldl_concat, ← decNumber, List.length_append, List.length_singleton,
      pow_succ]
    omega

/-- The length of a body is accepted if and only if all members of all `Content-Length` lines
denote it, within the limit and within the size of a string. A length within the limit that no
string can have is not rejected: `feed` throws. -/
theorem content_length_exact (h : LengthHead l) (y : Bytes) :
    (∀ n, (∃ q, machine.Until HeadersComplete { limits := l } (h.bytes ++ y) q h.bytes.length ∧
        q.state = (if n = 0 then .done else .body) ∧ q.remaining = n) ↔
      h.Agrees n ∧ n ≤ l.maxBodyBytes ∧ n ≤ l.maxSize) ∧
    (∀ n, h.Agrees n → n ≤ l.maxBodyBytes → l.maxSize < n → h.Throws y) ∧
    (∀ n, h.Agrees n → l.maxBodyBytes < n → h.Rejects y 413) ∧
    ((∀ n, ¬ h.Agrees n) → h.Rejects y 400) ∧
    -- no digit makes the accumulator of a member wrap around
    ∀ m ∈ h.lengths, m.length ≤ 19 → ∀ digits, digits <+: m →
      (∀ c ∈ digits, isDigit c = true) → decNumber digits < 2 ^ 64 := by
  have hrejects {f : Failure} (hf : (h.unframed.countLine []).finishHeaders = .error f)
      (hne : f.error ≠ .lengthError) : h.Rejects y (statusFor f.error) := by
    rw [Rejects, h.feed_error hf]
    exact ⟨rfl, by simpa [threw, fail] using fun _ => hne, rfl, rfl⟩
  refine ⟨fun n => ?_, fun n hn hle hlt => ?_, fun n hn hlt => ?_, fun hn => ?_,
    fun m _ hm digits hpre hd => ?_⟩
  · constructor
    · rintro ⟨q, hq, -, hrem⟩
      obtain ⟨n', hn', hle, rfl, -⟩ := h.until_iff.mp hq
      obtain rfl : n' = n := hrem
      exact ⟨hn', hle⟩
    · rintro ⟨hn, hle⟩
      exact ⟨_, h.until_iff.mpr ⟨n, hn, hle, rfl, rfl⟩, rfl, rfl⟩
  · rcases h.finishHeaders_cases with
      ⟨n', hn', hle', -⟩ | ⟨_, -, -, hf⟩ | ⟨n', hn', hlt', -⟩ | ⟨hnone, -⟩
    · obtain rfl := hn'.unique hn
      omega
    · rw [Throws, h.feed_error hf]
      exact ⟨rfl, rfl⟩
    · obtain rfl := hn'.unique hn
      omega
    · exact absurd hn (hnone n)
  · rcases h.finishHeaders_cases with
      ⟨n', hn', hle', -⟩ | ⟨n', hn', hle', -⟩ | ⟨_, -, -, hf⟩ | ⟨hnone, -⟩
    · obtain rfl := hn'.unique hn
      omega
    · obtain rfl := hn'.unique hn
      omega
    · exact hrejects hf (by simp)
    · exact absurd hn (hnone n)
  · rcases h.finishHeaders_cases with ⟨n', hn', -⟩ | ⟨n', hn', -⟩ | ⟨n', hn', -⟩ | ⟨-, hf⟩
    · exact absurd hn' (hn n')
    · exact absurd hn' (hn n')
    · exact absurd hn' (hn n')
    · exact hrejects hf (by simp)
  · calc decNumber digits < 10 ^ digits.length := decNumber_lt hd
      _ ≤ 10 ^ 19 := Nat.pow_le_pow_right (by norm_num) (hpre.length_le.trans hm)
      _ ≤ 2 ^ 64 := by norm_num

theorem isCtl_of_mem_nil : ∀ c ∈ ([] : Bytes), isCtl c = false := by simp

/-- A head with the same length in three spellings on two lines. -/
def agreedHead : LengthHead {} where
  blanks := 1
  requestLine := shortestLine
  fields := [⟨text "content-length", text " 5", by decide, by decide +kernel⟩,
    ⟨text "Host", [], isToken_host, isCtl_of_mem_nil⟩,
    ⟨text "Content-Length", text "05 ,\t005", isToken_contentLength, by decide +kernel⟩]
  line_le := by decide
  bytes_le := by decide
  count_le := by decide
  host_le := by decide
  host_pos := by decide
  no_coding := by decide
  has_length := by decide

theorem content_length_exact_agreed : agreedHead.Agrees 5 ∧
    ∃ q, machine.Until HeadersComplete {} (agreedHead.bytes ++ text "hello") q
      agreedHead.bytes.length ∧ q.state = .body ∧ q.remaining = 5 := by
  have hagrees : agreedHead.Agrees 5 := by
    intro m hm
    have hlengths : agreedHead.lengths = [text "5", text "05", text "005"] := by decide
    rw [hlengths] at hm
    simp only [List.mem_cons, List.not_mem_nil, or_false] at hm
    rcases hm with rfl | rfl | rfl <;> exact ⟨by decide, by decide, by decide +kernel, by decide⟩
  exact ⟨hagrees, ((content_length_exact agreedHead (text "hello")).1 5).mpr
    ⟨hagrees, by decide, by decide⟩⟩

def hugeLengthHead : LengthHead { maxBodyBytes := 2 ^ 64 - 1 } where
  toHeadLines := hugeHead.toHeadLines
  no_coding := by decide
  has_length := by decide

/-- A length that is agreed on and within the limit is neither accepted nor rejected. -/
theorem huge_length_not_accepted :
    (hugeLengthHead.Agrees 9999999999999999999 ∧ 9999999999999999999 ≤ 2 ^ 64 - 1) ∧
    (∀ q k, ¬ machine.Until HeadersComplete { limits := { maxBodyBytes := 2 ^ 64 - 1 } }
      hugeLengthHead.bytes q k) ∧
    hugeLengthHead.Throws [] := by
  have hagrees : hugeLengthHead.Agrees 9999999999999999999 := by
    have hlengths : hugeLengthHead.lengths = [text "9999999999999999999"] := by decide
    rw [Agrees, hlengths, List.forall_mem_singleton]
    exact ⟨by decide, by decide, by decide +kernel, by decide⟩
  have hthrows := hugeHead.throws (by decide)
  refine ⟨⟨hagrees, by norm_num⟩, fun q k => ?_, ?_⟩
  · have hnot := hugeLengthHead.not_until_of_error hthrows [] q k
    rwa [List.append_nil] at hnot
  · rw [Throws, hugeLengthHead.feed_error hthrows []]
    exact ⟨rfl, rfl⟩

end LengthHead

end Httpd
