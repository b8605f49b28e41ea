import Httpd.Http.Response
import Httpd.Parser.Body
import Httpd.Parser.Segmentation

/-! # Chunks read back

The coder of response bodies and the parser of request bodies agree on the chunked coding.
What the coder writes for a list of pieces and for trailers is a chunked body of the grammar,
so a parser that has read a chunked head reads it to its end, however it is cut.
-/

namespace Httpd

open Incremental

/-- A field that keeps its place in the head. -/
def Field.Clean (f : Field) : Prop := isToken f.1 = true ∧ ∀ c ∈ f.2, isCtl c = false

def Headers.Clean (h : Headers) : Prop := ∀ f ∈ h.fields, Field.Clean f

instance (f : Field) : Decidable (Field.Clean f) :=
  inferInstanceAs (Decidable (isToken f.1 = true ∧ ∀ c ∈ f.2, isCtl c = false))

instance (h : Headers) : Decidable h.Clean :=
  inferInstanceAs (Decidable (∀ f ∈ h.fields, Field.Clean f))

theorem Field.Clean.of_all {f : Field} (hname : isToken f.1 = true)
    (hvalue : f.2.all (fun c => !isCtl c) = true) : Field.Clean f :=
  ⟨hname, fun c hc => by simpa using List.all_eq_true.mp hvalue c hc⟩

theorem Headers.Clean.of_all {h : Headers}
    (hall : h.fields.all (fun f => isToken f.1 && f.2.all fun c => !isCtl c) = true) : h.Clean := by
  intro f hf
  have hclean := List.all_eq_true.mp hall f hf
  rw [Bool.and_eq_true] at hclean
  exact .of_all hclean.1 hclean.2

theorem mem_appendNumber {base v : ℕ} {c : UInt8} (hb : 1 < base) (h : c ∈ appendNumber base v) :
    ∃ d < base, c = digitByte d := by
  unfold appendNumber at h
  split at h
  · exact ⟨0, by omega, by simpa [digitByte] using h⟩
  · obtain ⟨d, hd, rfl⟩ := List.mem_map.mp h
    exact ⟨d, Nat.digits_lt_base hb (List.mem_reverse.mp hd), rfl⟩

theorem isCtl_digitByte : ∀ d < 16, isCtl (digitByte d) = false := by decide

theorem hexValue_digitByte : ∀ d < 16, hexValue (digitByte d) = some d := by decide

theorem digit_digitByte : ∀ d < 10, isDigit (digitByte d) = true ∧
    (digitByte d - ch '0').toNat = d := by decide

theorem foldl_appendNumber {base : ℕ} (hb : 1 < base) {val : UInt8 → ℕ}
    (hval : ∀ d < base, val (digitByte d) = d) (v : ℕ) :
    (appendNumber base v).foldl (fun n c => base * n + val c) 0 = v := by
  unfold appendNumber
  split
  · next h =>
    have hzero : val (ch '0') = 0 := hval 0 (by omega)
    simp [h, hzero]
  · have hfold : ∀ ds : List ℕ, (∀ d ∈ ds, d < base) →
        (ds.reverse.map digitByte).foldl (fun n c => base * n + val c) 0 =
          Nat.ofDigits base ds := by
      intro ds hds
      rw [List.foldl_map, List.foldl_reverse, Nat.ofDigits_eq_foldr]
      induction ds with
      | nil => rfl
      | cons d ds ih =>
        rw [List.foldr_cons, List.foldr_cons, ih fun e he => hds e (List.mem_cons_of_mem _ he),
          hval d (hds d List.mem_cons_self)]
        simp [Nat.add_comm]
    rw [hfold _ fun d hd => Nat.digits_lt_base hb hd, Nat.ofDigits_digits]

theorem hexNumber_appendNumber (v : ℕ) : hexNumber (appendNumber 16 v) = v :=
  foldl_appendNumber (by decide)
    (fun d hd => by simp [hexValue_digitByte d hd]) v

theorem decNumber_appendNumber (v : ℕ) : decNumber (appendNumber 10 v) = v :=
  foldl_appendNumber (by decide)
    (fun d hd => (digit_digitByte d hd).2) v

theorem appendNumber_ne_nil (base v : ℕ) : appendNumber base v ≠ [] := by
  unfold appendNumber
  split
  · simp
  · next h => simp [Nat.digits_ne_nil_iff_ne_zero, h]

theorem appendNumber_of_head {v : ℕ} (h : (appendNumber 10 v).head? = some (ch '0')) :
    appendNumber 10 v = [ch '0'] := by
  unfold appendNumber at h ⊢
  split at h
  · next hv => rw [if_pos hv]
  · next hv =>
    have hne : Nat.digits 10 v ≠ [] := Nat.digits_ne_nil_iff_ne_zero.mpr hv
    have hzero : ∀ d < 10, digitByte d = ch '0' → d = 0 := by decide
    rw [List.head?_map, List.head?_reverse, List.getLast?_eq_some_getLast hne, Option.map_some,
      Option.some_inj] at h
    have hlast := hzero _ (Nat.digits_lt_base (by decide) (List.getLast_mem hne)) h
    exact absurd hlast (Nat.getLast_digit_ne_zero 10 hv)

theorem length_appendNumber_le {base v k : ℕ} (hb : 1 < base) (hk : 0 < k) (hv : v < base ^ k) :
    (appendNumber base v).length ≤ k := by
  unfold appendNumber
  split
  · exact hk
  · rw [List.length_map, List.length_reverse, Nat.digits_length_le_iff hb]
    exact hv

theorem digitByte_plain : ∀ d < 16, isPlain (digitByte d) = true ∧ isOws (digitByte d) = false ∧
    digitByte d ≠ ch ';' := by decide

theorem crlfFree_appendNumber (v : ℕ) : CrlfFree (appendNumber 16 v) := by
  apply crlfFree_of_plain
  intro c hc
  obtain ⟨d, hd, rfl⟩ := mem_appendNumber (by decide) hc
  exact (digitByte_plain d hd).1

def Field.Trimmed (f : Field) : Prop :=
  (∀ c ∈ f.2.head?, isOws c = false) ∧ ∀ c ∈ f.2.getLast?, isOws c = false

instance (f : Field) : Decidable (Field.Trimmed f) := inferInstanceAs (Decidable (_ ∧ _))

theorem trimOws_eq_self {v : Bytes} (hhead : ∀ c ∈ v.head?, isOws c = false)
    (hlast : ∀ c ∈ v.getLast?, isOws c = false) : trimOws v = v := by
  have hdrop : v.dropWhile isOws = v := by
    cases v with
    | nil => rfl
    | cons c v => exact List.dropWhile_cons_of_neg (by simp [hhead c rfl])
  rw [trimOws, hdrop, List.rdropWhile_eq_self_iff]
  intro hne
  simp [hlast _ (List.getLast?_eq_some_getLast hne)]

theorem trimOws_eq_self_of_forall {v : Bytes} (h : ∀ c ∈ v, isOws c = false) : trimOws v = v :=
  trimOws_eq_self (fun c hc => h c (List.mem_of_mem_head? hc))
    fun c hc => h c (List.mem_of_mem_getLast? hc)

theorem sizeDigits_appendNumber (v : ℕ) : sizeDigits (appendNumber 16 v) = appendNumber 16 v := by
  have hdigit : ∀ c ∈ appendNumber 16 v, isOws c = false ∧ (c != ch ';') = true := by
    intro c hc
    obtain ⟨d, hd, rfl⟩ := mem_appendNumber (by decide) hc
    exact ⟨(digitByte_plain d hd).2.1, by simpa using (digitByte_plain d hd).2.2⟩
  rw [sizeDigits, List.takeWhile_eq_self_iff.mpr fun c hc => (hdigit c hc).2,
    trimOws_eq_self_of_forall fun c hc => (hdigit c hc).1]

theorem isSizeLine_appendNumber {v : ℕ} (hv : v < 2 ^ 64) : IsSizeLine (appendNumber 16 v) v := by
  constructor <;> rw [sizeDigits_appendNumber]
  · exact appendNumber_ne_nil 16 v
  · exact length_appendNumber_le (by decide) (by decide) (hv.trans_eq (by norm_num))
  · intro c hc
    obtain ⟨d, hd, rfl⟩ := mem_appendNumber (by decide) hc
    rw [hexValue_digitByte d hd]
    rfl
  · exact (hexNumber_appendNumber v).symm

def FieldLine.ofField (f : Field) (h : Field.Clean f) : FieldLine where
  name := f.1
  raw := SP :: f.2
  name_token := h.1
  raw_clean := List.forall_mem_cons.mpr ⟨rfl, h.2⟩

theorem FieldLine.line_ofField (f : Field) (h : Field.Clean f) :
    (FieldLine.ofField f h).line ++ kCRLF = fieldLine f := by
  simp [FieldLine.line, FieldLine.ofField, fieldLine, text, ch, SP]

theorem FieldLine.value_ofField {f : Field} (h : Field.Clean f) (ht : Field.Trimmed f) :
    (FieldLine.ofField f h).value = f.2 :=
  trimOws_eq_self ht.1 ht.2

theorem exists_fieldLines {fs : List Field} (h : ∀ f ∈ fs, Field.Clean f ∧ Field.Trimmed f) :
    ∃ ls : List FieldLine, fieldBytes ls = (fs.map fieldLine).flatten ∧
      ls.map (fun f => (f.name, f.value)) = fs := by
  induction fs with
  | nil => exact ⟨[], rfl, rfl⟩
  | cons f fs ih =>
    obtain ⟨⟨hf, ht⟩, hfs⟩ := List.forall_mem_cons.mp h
    obtain ⟨ls, hbytes, hfields⟩ := ih hfs
    refine ⟨.ofField f hf :: ls, ?_, ?_⟩
    · rw [fieldBytes_cons, ← List.append_assoc, FieldLine.line_ofField, hbytes, List.map_cons,
        List.flatten_cons]
    · rw [List.map_cons, FieldLine.value_ofField hf ht, hfields]
      rfl

theorem fields_foldFields {h : Headers} {ls : List FieldLine}
    (hd : Distinct (h.fields ++ ls.map fun f => (f.name, f.value))) :
    (foldFields h ls).fields = h.fields ++ ls.map fun f => (f.name, f.value) := by
  induction ls generalizing h with
  | nil => simp [foldFields]
  | cons f ls ih =>
    have hnot : h.has f.name = false := by
      rw [Bool.eq_false_iff, ne_eq, Headers.has_iff]
      rintro ⟨g, hg, hname⟩
      have := (List.pairwise_append.mp hd).2.2 g hg (f.name, f.value) (by simp)
      exact absurd hname (by simp [this])
    have hfields : (h.add f.name f.value).fields = h.fields ++ [(f.name, f.value)] :=
      Headers.upsert_fields_of_not_has hnot _ _
    have hstep := ih (h := h.add f.name f.value) (by rw [hfields]; simpa using hd)
    rw [hfields] at hstep
    simpa [foldFields] using hstep

def Chunk.ofPiece (piece : Bytes) (hne : piece ≠ []) (hlt : piece.length < 2 ^ 64) : Chunk where
  line := appendNumber 16 piece.length
  data := piece
  line_free := crlfFree_appendNumber _
  size_line := isSizeLine_appendNumber hlt
  data_ne := hne

theorem exists_chunks {pieces : List Bytes} (h : ∀ piece ∈ pieces, piece.length < 2 ^ 64) :
    ∃ cs : List Chunk, (∀ out, pieces.foldl appendChunk out = out ++ chunkBytes cs) ∧
      chunkData cs = pieces.flatten ∧
      ∀ c ∈ cs, ∃ piece ∈ pieces, c.line = appendNumber 16 piece.length := by
  induction pieces with
  | nil => exact ⟨[], by simp, rfl, by simp⟩
  | cons piece pieces ih =>
    obtain ⟨hlt, hpieces⟩ := List.forall_mem_cons.mp h
    obtain ⟨cs, hbytes, hdata, hlines⟩ := ih hpieces
    have hmem : ∀ c ∈ cs, ∃ q ∈ piece :: pieces, c.line = appendNumber 16 q.length := by
      intro c hc
      obtain ⟨q, hq, hline⟩ := hlines c hc
      exact ⟨q, List.mem_cons_of_mem _ hq, hline⟩
    by_cases hne : piece = []
    · exact ⟨cs, fun out => by simp [appendChunk, hne, hbytes], by simp [hne, hdata], hmem⟩
    · refine ⟨.ofPiece piece hne hlt :: cs, fun out => ?_, ?_, List.forall_mem_cons.mpr
        ⟨⟨piece, List.mem_cons_self, rfl⟩, hmem⟩⟩
      · simp [appendChunk, hne, hbytes, Chunk.ofPiece]
      · simp [hdata, Chunk.ofPiece]

/-- The body that the coder writes for pieces and trailers. -/
def encodeChunks (pieces : List Bytes) (trailers : Headers) : Bytes :=
  appendLastChunk (pieces.foldl appendChunk []) trailers

variable {l : ParserLimits}

/-- The limits leave room for the pieces and the trailers behind the head. -/
structure Head.Room (h : Head l) (pieces : List Bytes) (trailers : Headers) : Prop where
  size : l.maxBodyBytes < 2 ^ 64
  slack : l.maxChunkLine + 1 < 2 ^ 64
  lines : ∀ piece ∈ pieces, (appendNumber 16 piece.length).length ≤ l.maxChunkLine
  last : 1 ≤ l.maxChunkLine
  body : pieces.flatten.length ≤ l.maxBodyBytes
  bytes : (fieldBytes h.fields).length + 2 + (trailers.fields.map fieldLine).flatten.length + 2 ≤
    l.maxHeaderBytes
  count : h.fields.length + trailers.fields.length ≤ l.maxHeaderCount

/-- The encoding is a chunked body of the grammar, if the limits leave room for it. -/
theorem exists_chunkedBody {pieces : List Bytes} {trailers : Headers} {bytes count : ℕ}
    (hsize : l.maxBodyBytes < 2 ^ 64)
    (hlines : ∀ piece ∈ pieces, (appendNumber 16 piece.length).length ≤ l.maxChunkLine)
    (hlast : 1 ≤ l.maxChunkLine) (hbody : pieces.flatten.length ≤ l.maxBodyBytes)
    (hbytes : bytes + (trailers.fields.map fieldLine).flatten.length + 2 ≤ l.maxHeaderBytes)
    (hcount : count + trailers.fields.length ≤ l.maxHeaderCount)
    (ht : ∀ f ∈ trailers.fields, Field.Clean f ∧ Field.Trimmed f) :
    ∃ b : ChunkedBody l 0 bytes count,
      b.encoding = encodeChunks pieces trailers ∧ chunkData b.chunks = pieces.flatten ∧
        foldFields .empty b.trailers = trailers := by
  have hlt : ∀ piece ∈ pieces, piece.length < 2 ^ 64 := by
    intro piece hp
    have hle := (List.sublist_flatten_of_mem hp).length_le
    exact (hle.trans hbody).trans_lt hsize
  obtain ⟨cs, hcs, hdata, hline⟩ := exists_chunks hlt
  obtain ⟨ls, hls, hfields⟩ := exists_fieldLines ht
  refine ⟨⟨cs, text "0", ls, ?_, ?_, by decide, hlast, isSizeLine_appendNumber (v := 0)
    (by decide), ?_, ?_⟩, ?_, hdata, ?_⟩
  · intro c hc
    obtain ⟨piece, hp, hline⟩ := hline c hc
    exact hline ▸ hlines piece hp
  · rw [hdata, Nat.zero_add]
    exact hbody
  · rw [hls]
    exact hbytes
  · have hlen := congrArg List.length hfields
    rw [List.length_map] at hlen
    exact hlen ▸ hcount
  · simp [ChunkedBody.encoding, encodeChunks, appendLastChunk, hcs, hls, text, kCRLF, ch, CR, LF]
  · ext1
    rw [fields_foldFields (by simpa [Headers.empty, hfields] using trailers.distinct), hfields]
    rfl

theorem Head.Room.exists_chunkedBody {h : Head l} {pieces : List Bytes} {trailers : Headers}
    (hroom : h.Room pieces trailers)
    (ht : ∀ f ∈ trailers.fields, Field.Clean f ∧ Field.Trimmed f) :
    ∃ b : ChunkedBody l 0 ((fieldBytes h.fields).length + 2) h.fields.length,
      b.encoding = encodeChunks pieces trailers ∧ chunkData b.chunks = pieces.flatten ∧
        foldFields .empty b.trailers = trailers :=
  Httpd.exists_chunkedBody hroom.size hroom.lines hroom.last hroom.body hroom.bytes hroom.count ht

/-- The data and the trailers of a chunked body, if the bytes are one. They are read as the parser
reads them behind a head, with its limits as they are by default. -/
def decodeChunked (w : Bytes) : Option (Bytes × Headers) :=
  let u := RequestParser.feed { state := .chunkSize } w
  if u.1.done && u.2 == w.length then some (u.1.req.body, u.1.req.trailers) else none

theorem decodeChunked_encodeChunks {pieces : List Bytes} {trailers : Headers}
    (hbody : pieces.flatten.length ≤ 8 * 1024 * 1024)
    (hbytes : (trailers.fields.map fieldLine).flatten.length + 2 ≤ 16 * 1024)
    (hcount : trailers.fields.length ≤ 100)
    (ht : ∀ f ∈ trailers.fields, Field.Clean f ∧ Field.Trimmed f) :
    decodeChunked (encodeChunks pieces trailers) = some (pieces.flatten, trailers) := by
  let p : RequestParser := { state := .chunkSize }
  have hlines : ∀ piece ∈ pieces, (appendNumber 16 piece.length).length ≤ 1024 := by
    intro piece hp
    have hle := ((List.sublist_flatten_of_mem hp).length_le).trans hbody
    have hdigits : (appendNumber 16 piece.length).length ≤ 6 :=
      length_appendNumber_le (by decide) (by decide) (by omega)
    omega
  obtain ⟨b, hb, hdata, htr⟩ : ∃ b : ChunkedBody p.limits 0 0 0, _ :=
    exists_chunkedBody (by decide) hlines (by decide) hbody (by rwa [Nat.zero_add])
      (by rwa [Nat.zero_add]) ht
  have huntil := RequestParser.until_chunkedBody (p := p) rfl rfl (by decide) (by decide) b []
  obtain ⟨hfeed, hdone⟩ := (RequestParser.until_done_iff (p := p) (by decide)).mp huntil
  rw [List.append_nil, hb] at hfeed
  unfold decodeChunked
  dsimp only
  change (if (p.feed _).1.done && _ then _ else _) = _
  rw [hfeed, if_pos (Bool.and_eq_true_iff.mpr ⟨hdone, beq_self_eq_true _⟩)]
  simp [RequestParser.finishChunked, hdata, htr, p]

namespace RequestParser

/-- Whatever the coder writes, a parser behind a chunked head reads back, in any segmentation. -/
theorem chunked_round_trip {l : ParserLimits} {h : Head l} (hc : h.framing = .chunked)
    {pieces : List Bytes} {trailers : Headers} (hroom : h.Room pieces trailers)
    (ht : ∀ f ∈ trailers.fields, Field.Clean f ∧ Field.Trimmed f) {reads : List Bytes}
    (hreads : reads.flatten = encodeChunks pieces trailers) :
    let u := machine.feedReads h.parser [] reads
    u.1.Done ∧ u.2 = (encodeChunks pieces trailers).length ∧
      u.1.req = { h.request with body := pieces.flatten, trailers := trailers } := by
  have hs : h.parser.state = .chunkSize := by simp [Head.parser, hc, BodyFraming.state]
  have hr : h.parser.remaining = 0 := by simp [Head.parser, hc, BodyFraming.remaining]
  obtain ⟨b, hb, hdata, htr⟩ := hroom.exists_chunkedBody ht
  have huntil := until_chunkedBody hs hr hroom.size h.count_le b []
  obtain ⟨hfeed, hdone⟩ := (until_done_iff (by simp [hs])).mp huntil
  have hslack : h.parser.HasSlack := ⟨by simp [started, hs], hroom.slack⟩
  have hwaits : h.parser.Waits [] := .chunkSize hs rfl (Nat.zero_le _)
  have hu : machine.feedReads h.parser [] reads =
      (h.parser.finishChunked b.chunks b.trailers, (encodeChunks pieces trailers).length) := by
    rw [resumable_hasSlack.feedReads_eq hslack hwaits.feed, hreads, ← hb]
    rwa [List.append_nil] at hfeed
  rw [hu]
  refine ⟨hdone, rfl, ?_⟩
  simp [finishChunked, hdata, ← htr, Head.parser, HeadForm.request]

/-- Two pieces with an empty one between them, cut inside a size line and inside the data. -/
theorem chunked_round_trip_pieces : chunkedHead.framing = .chunked ∧
    chunkedHead.Room [text "hello", [], text "!"] (.set .empty (text "X-Sum") (text "a b")) ∧
    let u := machine.feedReads chunkedHead.parser []
      [text "5", text "\r\nhel", text "lo\r\n1\r\n!\r\n0\r\nX-Sum: a b\r", text "\n\r\n"]
    u.1.Done ∧ u.1.req.body = text "hello!" ∧
      u.1.req.trailers = .set .empty (text "X-Sum") (text "a b") := by
  have hroom : chunkedHead.Room [text "hello", [], text "!"]
      (.set .empty (text "X-Sum") (text "a b")) := by
    constructor <;> decide
  have hreads : [text "5", text "\r\nhel", text "lo\r\n1\r\n!\r\n0\r\nX-Sum: a b\r",
      text "\n\r\n"].flatten = encodeChunks [text "hello", [], text "!"]
        (.set .empty (text "X-Sum") (text "a b")) := by decide
  have h := chunked_round_trip (h := chunkedHead) rfl hroom (by decide +kernel) hreads
  refine ⟨rfl, hroom, h.1, ?_, ?_⟩
  · rw [h.2.2]
    decide
  · rw [h.2.2]

end RequestParser

end Httpd
