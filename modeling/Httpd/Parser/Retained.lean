import Httpd.Parser.Head

/-! # What a parser retains

The fields that are stored are paid for by the bytes and the fields that were counted, so
they stay within the limits. How far a parser has come tells something about the limits
in turn: no limit below the shortest request line lets it read fields, and chunks follow
only where `Host` and `Transfer-Encoding` fit into the header section.
-/

namespace Httpd

open Incremental

namespace Headers

/-- The least number of bytes that the lines of a field take. -/
def fieldCost (f : Field) : ℕ := f.1.length + f.2.length + 3

def cost (h : Headers) : ℕ := (h.fields.map fieldCost).sum

def count (h : Headers) : ℕ := h.fields.length

@[simp] theorem cost_empty : empty.cost = 0 := rfl
@[simp] theorem count_empty : empty.count = 0 := rfl

theorem cost_updateFirst_le (name value : Bytes) (fs : List Field) :
    ((updateFirst name (fun old => old ++ text ", " ++ value) fs).map fieldCost).sum ≤
      (fs.map fieldCost).sum + (value.length + 2) := by
  induction fs with
  | nil => simp [updateFirst]
  | cons f fs ih =>
    unfold updateFirst
    have htext : (text ", ").length = 2 := by decide
    split
    · simp only [List.map_cons, List.sum_cons, fieldCost, List.length_append, htext]
      omega
    · simp only [List.map_cons, List.sum_cons]
      omega

theorem cost_add_le (h : Headers) (name value : Bytes) :
    (h.add name value).cost ≤ h.cost + (name.length + value.length + 3) := by
  unfold add cost
  cases hh : h.has name with
  | true =>
    rw [upsert_fields_of_has hh]
    have := cost_updateFirst_le name value h.fields
    omega
  | false =>
    rw [upsert_fields_of_not_has hh]
    simp [fieldCost]

theorem count_add_le (h : Headers) (name value : Bytes) :
    (h.add name value).count ≤ h.count + 1 := by
  unfold add count
  cases hh : h.has name with
  | true =>
    rw [upsert_fields_of_has hh, ← List.length_map (f := Prod.fst), map_fst_updateFirst]
    simp
  | false => simp [upsert_fields_of_not_has hh]

theorem sum_two_le {f g : Field} (hne : f ≠ g) {fs : List Field} (hf : f ∈ fs) (hg : g ∈ fs) :
    fieldCost f + fieldCost g ≤ (fs.map fieldCost).sum ∧ 2 ≤ fs.length := by
  obtain ⟨a, b, rfl⟩ := List.append_of_mem hf
  have hg' : g ∈ a ++ b := by
    simp only [List.mem_append, List.mem_cons] at hg ⊢
    rcases hg with h | h | h
    · exact .inl h
    · exact absurd h.symm hne
    · exact .inr h
  have hle : fieldCost g ≤ ((a ++ b).map fieldCost).sum :=
    List.le_sum_of_mem (List.mem_map_of_mem hg')
  have hpos := List.length_pos_of_mem hg'
  simp only [List.map_append, List.map_cons, List.sum_append, List.sum_cons, List.length_append,
    List.length_cons] at hle hpos ⊢
  omega

end Headers

theorem iequals_length {a b : Bytes} (h : iequals a b = true) : a.length = b.length := by
  simpa using congrArg List.length (iequals_iff.mp h)

theorem length_trimOws_le (s : Bytes) : (trimOws s).length ≤ s.length :=
  (List.rdropWhile_prefix ..).length_le.trans (List.dropWhile_suffix ..).length_le

theorem RequestLine.twelve_le_length (r : RequestLine) : 12 ≤ r.line.length := by
  have hmethod := List.length_pos_iff.mpr (isToken_iff.mp r.method_token).1
  have htarget := List.length_pos_iff.mpr r.target_ne
  have hversion : (httpVersion r.minor).length = 8 := by
    unfold httpVersion; split <;> decide
  simp only [RequestLine.line, List.length_append, List.length_cons, hversion]
  omega

theorem FieldLine.cost_le (f : FieldLine) :
    f.name.length + f.value.length + 3 ≤ f.line.length + 2 := by
  have := length_trimOws_le f.raw
  simp only [FieldLine.line, FieldLine.value, List.length_append, List.length_cons]
  omega

namespace RequestParser

variable {p q : RequestParser} {u rest : Bytes} {n : ℕ}

def inChunks (p : RequestParser) : Bool :=
  p.state == .chunkSize || p.state == .chunkData || p.state == .chunkDataEnd ||
    p.state == .trailers

/-- What is stored is accounted for, and the limits are as large as the progress of the
parser shows. -/
structure Accounted (p : RequestParser) : Prop where
  cost_le : p.req.headers.cost + p.req.trailers.cost ≤ p.headerBytes
  count_le : p.req.headers.count + p.req.trailers.count ≤ p.headerCount
  bytes_le : p.headerBytes ≤ p.limits.maxHeaderBytes
  fields_le : p.failed = false → p.headerCount ≤ p.limits.maxHeaderCount
  version : p.started = true → p.failed = false →
    12 ≤ p.limits.maxRequestLine ∧ p.req.versionMajor = 1 ∧ p.req.versionMinor ≤ 1
  idle : p.state = .requestLine ∨ p.state = .headers → p.remaining = 0
  chunks : p.inChunks = true → 36 ≤ p.limits.maxHeaderBytes ∧ 2 ≤ p.limits.maxHeaderCount

theorem accounted_fresh (l : ParserLimits) : Accounted { limits := l } where
  cost_le := by simp
  count_le := by simp
  bytes_le := by simp
  fields_le := by simp
  version := by simp [started]
  idle := by simp
  chunks := by simp [inChunks]

theorem addField_remaining (f : FieldLine) : (p.addField f).remaining = p.remaining := by
  unfold RequestParser.addField; dsimp only; split <;> rfl

theorem Accounted.addField (h : p.Accounted) (f : FieldLine)
    (hs : p.state = .headers ∨ p.state = .trailers)
    (hbytes : p.headerBytes + (f.line.length + 2) ≤ p.limits.maxHeaderBytes)
    (hcount : p.headerCount + 1 ≤ p.limits.maxHeaderCount) : (p.addField f).Accounted := by
  have hcost := f.cost_le
  have hfail : p.failed = false := by rcases hs with hs | hs <;> simp [failed, hs]
  have hversion := fun h' => h.version h' hfail
  obtain ⟨hc, hn, -, -, -, hidle, hch⟩ := h
  constructor
  · unfold RequestParser.addField
    split
    · have := p.req.headers.cost_add_le f.name f.value
      simp only [countField_req, countLine_req, countField_headerBytes, countLine_headerBytes]
      omega
    · have := p.req.trailers.cost_add_le f.name f.value
      simp only [countField_req, countLine_req, countField_headerBytes, countLine_headerBytes]
      omega
  · unfold RequestParser.addField
    split
    · have := p.req.headers.count_add_le f.name f.value
      simp only [countField_req, countLine_req, countField_headerCount, countLine_headerCount]
      omega
    · have := p.req.trailers.count_add_le f.name f.value
      simp only [countField_req, countLine_req, countField_headerCount, countLine_headerCount]
      omega
  · simpa using hbytes
  · intro _; simpa using hcount
  · intro hst _
    rw [started, addField_state] at hst
    rw [addField_limits]
    have := hversion hst
    unfold RequestParser.addField
    split <;> simpa using this
  · rw [addField_state, addField_remaining]; exact hidle
  · rw [inChunks, addField_state, addField_limits]; exact hch

/-- Chunks are announced by two fields that do not fit into fewer than 34 bytes. -/
theorem chunked_cost (hhost : p.req.headers.has (text "Host") = true)
    {te : Bytes} (hte : p.req.headers.get (text "Transfer-Encoding") = some te)
    (hch : iequals (trimOws te) (text "chunked") = true) :
    34 ≤ p.req.headers.cost ∧ 2 ≤ p.req.headers.count := by
  obtain ⟨f, hf, hfname⟩ := Headers.has_iff.mp hhost
  obtain ⟨g, hg, rfl⟩ := Option.map_eq_some_iff.mp hte
  have hgname := List.find?_some hg
  have hflen : f.1.length = 4 := iequals_length hfname
  have hglen : g.1.length = 17 := iequals_length hgname
  have hvalue : 7 ≤ g.2.length := (iequals_length hch).symm.le.trans (length_trimOws_le _)
  have hne : f ≠ g := by rintro rfl; omega
  have h := Headers.sum_two_le hne hf (List.mem_of_find?_eq_some hg)
  simp only [Headers.fieldCost, hflen, hglen] at h
  exact ⟨by rw [Headers.cost]; omega, h.2⟩

theorem Reads.accounted (hr : p.Reads u q) (h : p.Accounted) : q.Accounted := by
  have h' := h
  obtain ⟨hcost, hcount, hbytes, hfields, hversion, hidle, hchunks⟩ := h
  cases hr with
  | blank => exact h'
  | requestLine hs _ _ hlen hq =>
    obtain ⟨r, rfl, rfl⟩ := parseRequestLine_ok_iff.mp hq
    have hfields := hfields (by simp [failed, hs])
    exact ⟨hcost, hcount, hbytes, fun _ => hfields,
      fun _ _ => ⟨r.twelve_le_length.trans hlen, rfl, r.minor_le⟩, fun _ => hidle (.inl hs),
      by simp [inChunks]⟩
  | field hs _ _ hle hnum hq =>
    obtain ⟨f, rfl, rfl, _⟩ := parseFieldLine_eq_ok_iff.mp hq
    exact h'.addField f hs hle hnum
  | finish hs hle hq =>
    have hfail : p.failed = false := by simp [failed, hs]
    obtain ⟨hmrl, hmajor, hminor⟩ := hversion (by simp [started, hs]) hfail
    have hrem := hidle (.inr hs)
    obtain ⟨hhost, b, hframes, -, rfl⟩ :=
      (finishHeaders_eq_ok_iff (p := p.countLine []) hmajor hminor hrem).mp hq
    refine ⟨?_, hcount, by simpa using hle, fun _ => hfields hfail,
      fun _ _ => ⟨hmrl, hmajor, hminor⟩, ?_, ?_⟩
    · simp only [countLine_headerBytes, countLine_req]; omega
    · cases b with
      | none => simp [BodyFraming.state]
      | length n => simp only [BodyFraming.state]; split <;> simp
      | chunked => simp [BodyFraming.state]
    · cases b with
      | none => simp [inChunks, BodyFraming.state]
      | length n => simp only [inChunks, BodyFraming.state]; split <;> simp
      | chunked =>
        obtain ⟨_, hone, te, hte, hch⟩ := hframes
        have hfits := chunked_cost (hhost hone) hte hch
        have hfields := hfields hfail
        simp only [countLine_req] at hfits
        exact fun _ => ⟨by simp only [countLine_limits]; omega, by simp only [countLine_limits]; omega⟩
  | trailersEnd hs hle =>
    have hfail : p.failed = false := by simp [failed, hs]
    refine ⟨?_, hcount, by simpa using hle, fun _ => hfields hfail,
      fun _ _ => hversion (by simp [started, hs]) hfail, by simp, by simp [inChunks]⟩
    simp only [countLine_headerBytes, countLine_req]; omega
  | data hs _ _ =>
    have hfail : p.failed = false := by rcases hs with hs | hs <;> simp [failed, hs]
    have hstart : p.started = true := by rcases hs with hs | hs <;> simp [started, hs]
    rcases takeData_cases (p := p) u with hq | hq <;> rw [hq]
    · refine ⟨hcost, hcount, hbytes, fun _ => hfields hfail, fun _ _ => hversion hstart hfail,
        ?_, hchunks⟩
      rcases hs with hs | hs <;> simp [hs]
    · refine ⟨hcost, hcount, hbytes, fun _ => hfields hfail, fun _ _ => hversion hstart hfail,
        ?_, ?_⟩
      · dsimp only; split <;> simp
      · rcases hs with hs | hs
        · simp [inChunks, hs]
        · exact fun _ => hchunks (by simp [inChunks, hs])
  | dataEnd hs =>
    have hfail : p.failed = false := by simp [failed, hs]
    exact ⟨hcost, hcount, hbytes, fun _ => hfields hfail,
      fun _ _ => hversion (by simp [started, hs]) hfail, by simp,
      fun _ => hchunks (by simp [inChunks, hs])⟩
  | chunkSize hs _ _ hq =>
    have hfail : p.failed = false := by simp [failed, hs]
    obtain ⟨_, _, ⟨_, rfl⟩ | ⟨_, _, _, rfl⟩⟩ := parseChunkSize_ok hq <;>
      exact ⟨hcost, hcount, hbytes, fun _ => hfields hfail,
        fun _ _ => hversion (by simp [started, hs]) hfail, by simp,
        fun _ => hchunks (by simp [inChunks, hs])⟩

theorem Fails.accounted (hf : p.Fails rest q n) (h : p.Accounted) : q.Accounted := by
  obtain ⟨hcost, hcount, hbytes, -, -, -, -⟩ := h
  cases hf with
  | early f =>
    exact ⟨hcost, hcount, hbytes, by simp [failed], by simp [failed], by simp, by simp [inChunks]⟩
  | counted f _ _ hle =>
    refine ⟨?_, hcount, hle, by simp [failed], by simp [failed], by simp, by simp [inChunks]⟩
    simp only [fail_req, countLine_req]
    exact hcost.trans (Nat.le_add_right _ _)
  | field f _ _ hle =>
    refine ⟨?_, ?_, hle, by simp [failed], by simp [failed], by simp, by simp [inChunks]⟩
    · simp only [fail_req, countField_req, countLine_req]
      exact hcost.trans (Nat.le_add_right _ _)
    · simp only [fail_req, countField_req, countLine_req]
      exact hcount.trans (Nat.le_add_right _ _)

theorem Accounted.feed (h : p.Accounted) (d : Bytes) : (p.feed d).1.Accounted :=
  feed_keeps (fun hu => hu.accounted) (fun hf => hf.accounted) h d

/-- The bytes that a waiting parser retains, by how far it has come. -/
theorem Waits.length_le (h : p.Waits rest) (hd : p.done = false) (hf : p.failed = false) :
    (p.state = .requestLine ∧ rest.length ≤ wrap (p.limits.maxRequestLine + 1)) ∨
      (p.started = true ∧ rest.length + 1 ≤ p.limits.maxHeaderBytes) ∨
      (p.inChunks = true ∧ rest.length ≤ wrap (p.limits.maxChunkLine + 1)) ∨
      rest.length < 2 := by
  cases h with
  | requestLine hs _ hle => exact .inl ⟨hs, hle⟩
  | headers hs _ hle =>
    refine .inr (.inl ⟨?_, by omega⟩)
    rcases hs with hs | hs <;> simp [started, hs]
  | body => simp
  | chunkDataEnd _ hlt => exact .inr (.inr (.inr hlt))
  | chunkSize hs _ hle => exact .inr (.inr (.inl ⟨by simp [inChunks, hs], hle⟩))
  | ended hs => rcases hs with hs | hs <;> simp_all [done, failed]

theorem Reads.feed {t : Bytes} (h : p.Reads u q) (hc : p.inContent = false) (hq : q.Waits t) :
    p.feed (u ++ t) = (q, u.length) := by
  have hmore := machine.feed_more (h.step_eq hc t)
  rw [List.drop_left] at hmore
  exact hmore.trans (congrArg (Incremental.shift u.length) hq.feed)

theorem isToken_transferEncoding : isToken (text "Transfer-Encoding") = true := by decide

theorem slash_ne_nil : text "/" ≠ [] := by decide

theorem slash_clean : ∀ c ∈ text "/", 0x20 < c ∧ c ≠ 0x7f := by decide +kernel

theorem chunked_clean : ∀ c ∈ text "chunked", isCtl c = false := by decide +kernel

def shortestLine : RequestLine where
  method := text "A"
  target := text "/"
  minor := 1
  minor_le := le_rfl
  method_token := by decide
  target_ne := slash_ne_nil
  target_clean := slash_clean
  form := .origin (by decide)

/-- The shortest head that announces chunks. -/
def shortestHead {l : ParserLimits} (hline : 12 ≤ l.maxRequestLine) (hbytes : 36 ≤ l.maxHeaderBytes)
    (hcount : 2 ≤ l.maxHeaderCount) : Head l where
  blanks := 0
  requestLine := shortestLine
  fields := [⟨text "Host", [], isToken_host, by simp⟩,
    ⟨text "Transfer-Encoding", text "chunked", isToken_transferEncoding, chunked_clean⟩]
  framing := .chunked
  line_le := hline
  bytes_le := hbytes
  count_le := hcount
  host_le := by decide
  host_pos := by decide
  frames := ⟨by decide, rfl, text "chunked", by decide, by decide⟩
  fits := Nat.zero_le _

end RequestParser

end Httpd
