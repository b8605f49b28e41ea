import Httpd.Parser.Head

/-! # The grammar of request bodies

A body of known length is the bytes that follow the head. A chunked body is a
sequence of chunks, a line of size zero and a trailer section, which shares the
limits of the header section. The parser finishes a request exactly at the end of
its body and leaves what follows unread.
-/

namespace Httpd

open Incremental

variable {l : ParserLimits} {d : Bytes} {k : ℕ}

structure Chunk where
  line : Bytes
  data : Bytes
  line_free : CrlfFree line
  size_line : IsSizeLine line data.length
  data_ne : data ≠ []

def Chunk.bytes (c : Chunk) : Bytes := c.line ++ (kCRLF ++ (c.data ++ kCRLF))

def chunkBytes (cs : List Chunk) : Bytes := (cs.map Chunk.bytes).flatten

def chunkData (cs : List Chunk) : Bytes := (cs.map Chunk.data).flatten

@[simp] theorem chunkBytes_nil : chunkBytes [] = [] := rfl
@[simp] theorem chunkData_nil : chunkData [] = [] := rfl

@[simp] theorem chunkBytes_cons (c : Chunk) (cs : List Chunk) :
    chunkBytes (c :: cs) = c.line ++ (kCRLF ++ (c.data ++ (kCRLF ++ chunkBytes cs))) := by
  simp [chunkBytes, Chunk.bytes]

@[simp] theorem chunkData_cons (c : Chunk) (cs : List Chunk) :
    chunkData (c :: cs) = c.data ++ chunkData cs := by
  simp [chunkData]

/-- A chunked body and its trailers, within limits of which the given amounts of body bytes,
header bytes and header fields are used up. -/
structure ChunkedBody (l : ParserLimits) (body bytes count : ℕ) where
  chunks : List Chunk
  last : Bytes
  trailers : List FieldLine
  line_le : ∀ c ∈ chunks, c.line.length ≤ l.maxChunkLine
  data_le : body + (chunkData chunks).length ≤ l.maxBodyBytes
  last_free : CrlfFree last
  last_le : last.length ≤ l.maxChunkLine
  last_size : IsSizeLine last 0
  bytes_le : bytes + (fieldBytes trailers).length + 2 ≤ l.maxHeaderBytes
  count_le : count + trailers.length ≤ l.maxHeaderCount

/-- The chunks, the line of size zero, the trailers and the empty line. -/
def ChunkedBody.encoding {l : ParserLimits} {body bytes count : ℕ}
    (b : ChunkedBody l body bytes count) : Bytes :=
  chunkBytes b.chunks ++ (b.last ++ (kCRLF ++ (fieldBytes b.trailers ++ kCRLF)))

namespace RequestParser

variable {p q : RequestParser} {u : Bytes}

def Done (p : RequestParser) : Prop := p.done = true

theorem done_iff : p.Done ↔ p.state = .done := by simp [Done, done]

theorem until_done_iff (hp : p.state ≠ .done) :
    machine.Until Done p d q k ↔ p.feed d = (q, k) ∧ q.Done := by
  refine Machine.until_iff_feed (fun h => ?_) (fun h hq => ?_) (by rwa [done_iff])
  · exact fun d => feedStep_ended (.inl (done_iff.mp h))
  · rcases feedStep_stop h with ⟨rfl, _, _⟩ | hf
    · exact hq
    · cases hf.state.symm.trans (done_iff.mp hq)

def finishData (p : RequestParser) (data : Bytes) (s : State) : RequestParser :=
  { p with req := { p.req with body := p.req.body ++ data }, remaining := 0, state := s }

theorem takeData_of_length_eq {data : Bytes} (h : data.length = p.remaining) :
    p.takeData data = p.finishData data (if p.state = .body then .done else .chunkDataEnd) := by
  simp [takeData, finishData, h]

theorem step_data {data : Bytes} (hs : p.state = .body ∨ p.state = .chunkData)
    (h : data.length = p.remaining) (hr : p.remaining ≠ 0) (t : Bytes) :
    machine.step p (data ++ t) =
      .more (p.finishData data (if p.state = .body then .done else .chunkDataEnd)) data.length := by
  have hne : data ≠ [] := by rintro rfl; exact hr h.symm
  have hread : p.Reads data (p.takeData data) := .data hs h.le fun e => absurd e hne
  rw [← takeData_of_length_eq h]
  exact hread.feedStep t fun _ => ⟨hne, by simp; omega⟩

theorem not_until_of_short (hs : p.state = .body ∨ p.state = .chunkData)
    (h : d.length < p.remaining) : ¬ machine.Until Done p d q k := by
  rcases eq_or_ne d [] with rfl | hne
  · have hstop : machine.step p [] = .stop p 0 := (feedStep_body hs).trans (if_pos rfl)
    exact Machine.not_until_of_stop hstop
  · have hmin : min d.length p.remaining = d.length := by omega
    have hstep : machine.step p d = .more (p.takeData d) d.length := by
      refine (feedStep_body hs).trans ?_
      rw [feedBody_of_ne_nil hne, hmin, List.take_length]
    have hstate : (p.takeData d).state = p.state := by rw [takeData_of_lt h]
    rw [Machine.until_iff_of_more hstep (by rcases hs with hs | hs <;> simp [done_iff, hstate, hs])]
    rintro ⟨j, hj, -⟩
    rw [List.drop_length] at hj
    have hstop : machine.step (p.takeData d) [] = .stop (p.takeData d) 0 :=
      (feedStep_body (hstate ▸ hs)).trans (if_pos rfl)
    exact Machine.not_until_of_stop hstop hj

theorem until_body_iff (hs : p.state = .body) (hr : p.remaining ≠ 0) :
    machine.Until Done p d q k ↔
      p.remaining ≤ d.length ∧ k = p.remaining ∧ q = p.finishData (d.take p.remaining) .done := by
  by_cases hlen : p.remaining ≤ d.length
  · have hdata : (d.take p.remaining).length = p.remaining := List.length_take_of_le hlen
    have hstep := step_data (.inl hs) hdata hr (d.drop p.remaining)
    rw [List.take_append_drop, if_pos hs, hdata] at hstep
    constructor
    · rintro (⟨h, _⟩ | ⟨h, hnot, _⟩)
      · cases hstep.symm.trans h
        exact ⟨hlen, rfl, rfl⟩
      · cases hstep.symm.trans h
        exact absurd (done_iff.mpr rfl) hnot
    · rintro ⟨-, rfl, rfl⟩
      exact .here hstep (done_iff.mpr rfl)
  · exact ⟨fun h => absurd h (not_until_of_short (.inl hs) (by omega)), fun h => absurd h.1 hlen⟩

theorem reads_chunkDataEnd_iff (hs : p.state = .chunkDataEnd) :
    p.Reads u q ↔ u = kCRLF ∧ q = { p with state := .chunkSize } := by
  constructor
  · intro h
    cases h with
    | dataEnd => exact ⟨rfl, rfl⟩
    | _ => simp_all
  · rintro ⟨rfl, rfl⟩
    exact .dataEnd hs

theorem until_chunkDataEnd_iff (hs : p.state = .chunkDataEnd) :
    machine.Until Done p d q k ↔ ∃ t n, d = kCRLF ++ t ∧
      machine.Until Done { p with state := .chunkSize } t q n ∧ k = 2 + n := by
  rw [until_reads_iff (by simp [inContent, hs]) fun hu => by
    simp [((reads_chunkDataEnd_iff hs).mp hu).2, done_iff]]
  constructor
  · rintro ⟨u, t, s, n, rfl, hu, hrest, rfl⟩
    obtain ⟨rfl, rfl⟩ := (reads_chunkDataEnd_iff hs).mp hu
    exact ⟨t, n, rfl, hrest, rfl⟩
  · rintro ⟨t, n, rfl, hrest, rfl⟩
    exact ⟨kCRLF, t, _, n, rfl, .dataEnd hs, hrest, rfl⟩

theorem until_chunkData_iff (hs : p.state = .chunkData) (hr : p.remaining ≠ 0) :
    machine.Until Done p d q k ↔ ∃ data t n, d = data ++ (kCRLF ++ t) ∧
      data.length = p.remaining ∧ machine.Until Done (p.finishData data .chunkSize) t q n ∧
      k = data.length + (2 + n) := by
  have hstep : ∀ {data t}, data.length = p.remaining →
      machine.step p (data ++ t) = .more (p.finishData data .chunkDataEnd) data.length := by
    intro data t hdata
    rw [step_data (.inr hs) hdata hr t, if_neg (by simp [hs])]
  have hnot : ∀ {data}, ¬ (p.finishData data .chunkDataEnd).Done := by simp [done_iff, finishData]
  constructor
  · intro h
    have hlen : p.remaining ≤ d.length := by
      by_contra hlt
      exact not_until_of_short (.inr hs) (by omega) h
    obtain ⟨data, t, rfl, hdata⟩ : ∃ data t, d = data ++ t ∧ data.length = p.remaining :=
      ⟨_, _, (List.take_append_drop p.remaining d).symm, List.length_take_of_le hlen⟩
    obtain ⟨j, hj, rfl⟩ := (Machine.until_iff_of_more (hstep hdata) hnot).mp h
    rw [List.drop_left] at hj
    obtain ⟨t, n, rfl, hn, rfl⟩ := (until_chunkDataEnd_iff rfl).mp hj
    exact ⟨data, t, n, rfl, hdata, hn, rfl⟩
  · rintro ⟨data, t, n, rfl, hdata, hq, rfl⟩
    refine .later (hstep hdata) hnot ?_
    rw [List.drop_left]
    exact (until_chunkDataEnd_iff rfl).mpr ⟨t, n, rfl, hq, rfl⟩

theorem reads_sizeLine {line : Bytes} {size : ℕ} (hs : p.state = .chunkSize)
    (hmax : p.limits.maxBodyBytes < 2 ^ 64) (hl : CrlfFree line)
    (hlen : line.length ≤ p.limits.maxChunkLine) (hsize : IsSizeLine line size)
    (hq : (size = 0 ∧ q = { p with state := .trailers }) ∨
      (size ≠ 0 ∧ p.req.body.length + size ≤ p.limits.maxBodyBytes ∧
        q = { p with remaining := size, state := .chunkData })) :
    p.Reads (line ++ kCRLF) q := by
  refine .chunkSize hs hl hlen ?_
  rw [parseChunkSize, chunkSizeOf_eq_some_iff.mpr hsize]
  rcases hq with ⟨rfl, rfl⟩ | ⟨h0, hsum, rfl⟩
  · rfl
  · have hle : size ≤ p.limits.maxBodyBytes := by omega
    have hwrap : wrap (p.req.body.length + size) = p.req.body.length + size :=
      Nat.mod_eq_of_lt (by omega)
    simp [h0, hwrap, Nat.not_lt.mpr hle, Nat.not_lt.mpr hsum]

/-- A chunk-size line announces a chunk that still fits into the body, or the trailers. -/
theorem reads_chunkSize_iff (hs : p.state = .chunkSize) (hmax : p.limits.maxBodyBytes < 2 ^ 63)
    (hbody : p.req.body.length ≤ p.limits.maxBodyBytes) :
    p.Reads u q ↔ ∃ line size, u = line ++ kCRLF ∧ CrlfFree line ∧
      line.length ≤ p.limits.maxChunkLine ∧ IsSizeLine line size ∧
      ((size = 0 ∧ q = { p with state := .trailers }) ∨
        (size ≠ 0 ∧ p.req.body.length + size ≤ p.limits.maxBodyBytes ∧
          q = { p with remaining := size, state := .chunkData })) := by
  constructor
  · intro h
    cases h with
    | @chunkSize line q _ hl hlen hq =>
      obtain ⟨size, hsize, hq⟩ := parseChunkSize_ok hq
      refine ⟨line, size, rfl, hl, hlen, chunkSizeOf_eq_some_iff.mp hsize, ?_⟩
      rcases hq with hq | ⟨h0, hle, hsum, rfl⟩
      · exact .inl hq
      · have hwrap : wrap (p.req.body.length + size) = p.req.body.length + size :=
          Nat.mod_eq_of_lt (by omega)
        exact .inr ⟨h0, hwrap ▸ hsum, rfl⟩
    | _ => simp_all
  · rintro ⟨line, size, rfl, hl, hlen, hsize, hq⟩
    exact reads_sizeLine hs (by omega) hl hlen hsize hq

def finishChunked (p : RequestParser) (cs : List Chunk) (trailers : List FieldLine) :
    RequestParser :=
  { p with
    state := .done
    req := { p.req with
      body := p.req.body ++ chunkData cs
      trailers := foldFields p.req.trailers trailers }
    headerBytes := p.headerBytes + ((fieldBytes trailers).length + 2)
    headerCount := p.headerCount + trailers.length }

theorem finishChunked_cons {c : Chunk} {cs : List Chunk} {fs : List FieldLine}
    (hr : p.remaining = 0) :
    (p.finishData c.data .chunkSize).finishChunked cs fs = p.finishChunked (c :: cs) fs := by
  simp [finishChunked, finishData, hr]

theorem until_trailers_iff (hs : p.state = .trailers)
    (hc : p.headerCount ≤ p.limits.maxHeaderCount) :
    machine.Until Done p d q k ↔ ∃ fs t, d = fieldBytes fs ++ (kCRLF ++ t) ∧
      k = (fieldBytes fs).length + 2 ∧
      p.headerBytes + (fieldBytes fs).length + 2 ≤ p.limits.maxHeaderBytes ∧
      p.headerCount + fs.length ≤ p.limits.maxHeaderCount ∧ q = p.finishChunked [] fs := by
  rw [until_section_iff (.inr hs) hc (fun hr => by simp [done_iff, hr, hs])
    fun hr he => by
      rcases he with ⟨h, _⟩ | ⟨_, rfl⟩
      · cases (hr.trans hs).symm.trans h
      · exact done_iff.mpr rfl]
  refine exists_congr fun fs => exists_congr fun t => and_congr_right fun _ =>
    and_congr_right fun _ => and_congr_right fun _ => and_congr_right fun _ => ?_
  have hend : (p.addFields fs).EndsSection q ↔ q = p.finishChunked [] fs := by
    rw [addFields_of_trailers hs, EndsSection]
    simp [hs, finishChunked, countLine, Nat.add_assoc]
  rw [hend]
  exact and_iff_right fun h => by cases hs.symm.trans h

theorem Reads.not_done_of_chunkSize (hs : p.state = .chunkSize) (h : p.Reads u q) : ¬ q.Done := by
  cases h with
  | chunkSize _ _ _ hq =>
    obtain ⟨_, _, ⟨_, rfl⟩ | ⟨_, _, _, rfl⟩⟩ := parseChunkSize_ok hq <;> simp [done_iff]
  | data h => rcases h with h | h <;> cases hs.symm.trans h
  | _ => simp_all

theorem until_lastChunk {line : Bytes} {fs : List FieldLine} (hs : p.state = .chunkSize)
    (hmax : p.limits.maxBodyBytes < 2 ^ 64) (hc : p.headerCount ≤ p.limits.maxHeaderCount)
    (hl : CrlfFree line) (hlen : line.length ≤ p.limits.maxChunkLine) (hsize : IsSizeLine line 0)
    (hbytes : p.headerBytes + (fieldBytes fs).length + 2 ≤ p.limits.maxHeaderBytes)
    (hcount : p.headerCount + fs.length ≤ p.limits.maxHeaderCount) (t : Bytes) :
    machine.Until Done p (line ++ (kCRLF ++ (fieldBytes fs ++ (kCRLF ++ t))))
      (p.finishChunked [] fs) (line.length + (2 + ((fieldBytes fs).length + 2))) := by
  have hread := reads_sizeLine hs hmax hl hlen hsize (.inl ⟨rfl, rfl⟩)
  have hrest : machine.Until Done { p with state := .trailers } (fieldBytes fs ++ (kCRLF ++ t))
      (p.finishChunked [] fs) ((fieldBytes fs).length + 2) :=
    (until_trailers_iff (p := { p with state := .trailers }) rfl hc).mpr
      ⟨fs, t, rfl, rfl, hbytes, hcount, rfl⟩
  refine (until_reads_iff (by simp [inContent, hs]) fun hu => hu.not_done_of_chunkSize hs).mpr
    ⟨line ++ kCRLF, fieldBytes fs ++ (kCRLF ++ t), _, _, by simp, hread, hrest, by simp; omega⟩

theorem until_chunk {t : Bytes} {n : ℕ} (hs : p.state = .chunkSize)
    (hmax : p.limits.maxBodyBytes < 2 ^ 64) (c : Chunk)
    (hlen : c.line.length ≤ p.limits.maxChunkLine)
    (hsum : p.req.body.length + c.data.length ≤ p.limits.maxBodyBytes)
    (hrest : machine.Until Done (p.finishData c.data .chunkSize) t q n) :
    machine.Until Done p (c.line ++ (kCRLF ++ (c.data ++ (kCRLF ++ t)))) q
      (c.line.length + (2 + (c.data.length + (2 + n)))) := by
  have h0 : c.data.length ≠ 0 := fun e => c.data_ne (List.length_eq_zero_iff.mp e)
  have hread := reads_sizeLine hs hmax c.line_free hlen c.size_line (.inr ⟨h0, hsum, rfl⟩)
  refine (until_reads_iff (by simp [inContent, hs]) fun hu => hu.not_done_of_chunkSize hs).mpr
    ⟨c.line ++ kCRLF, c.data ++ (kCRLF ++ t), _, c.data.length + (2 + n), by simp, hread, ?_,
      by simp; omega⟩
  exact (until_chunkData_iff rfl h0).mpr ⟨c.data, t, n, rfl, rfl, hrest, rfl⟩

theorem until_chunkedBody (hs : p.state = .chunkSize) (hr : p.remaining = 0)
    (hmax : p.limits.maxBodyBytes < 2 ^ 64) (hc : p.headerCount ≤ p.limits.maxHeaderCount)
    (b : ChunkedBody p.limits p.req.body.length p.headerBytes p.headerCount) (t : Bytes) :
    machine.Until Done p (b.encoding ++ t) (p.finishChunked b.chunks b.trailers)
      b.encoding.length := by
  obtain ⟨cs, last, fs, hline, hdata, hfree, hlast, hzero, hbytes, hcount⟩ := b
  induction cs generalizing p with
  | nil =>
    have h := until_lastChunk hs hmax hc hfree hlast hzero hbytes hcount t
    simpa [ChunkedBody.encoding] using h
  | cons c cs ih =>
    rw [chunkData_cons, List.length_append] at hdata
    obtain ⟨hc_line, hline⟩ := List.forall_mem_cons.mp hline
    have hrest := ih (p := p.finishData c.data .chunkSize) rfl rfl hmax hc hline
      (by simp [finishData]; omega) hlast hbytes hcount
    rw [finishChunked_cons hr] at hrest
    have h := until_chunk hs hmax c hc_line (by omega) hrest
    simpa [ChunkedBody.encoding] using h

/-- A chunked body starts with a chunk, or it is the line of size zero and the trailers. -/
theorem until_chunkSize_cases (hs : p.state = .chunkSize)
    (hmax : p.limits.maxBodyBytes < 2 ^ 63) (hbody : p.req.body.length ≤ p.limits.maxBodyBytes)
    (hc : p.headerCount ≤ p.limits.maxHeaderCount) :
    machine.Until Done p d q k ↔
      (∃ line fs t, d = line ++ (kCRLF ++ (fieldBytes fs ++ (kCRLF ++ t))) ∧
        k = line.length + (2 + ((fieldBytes fs).length + 2)) ∧ CrlfFree line ∧
        line.length ≤ p.limits.maxChunkLine ∧ IsSizeLine line 0 ∧
        p.headerBytes + (fieldBytes fs).length + 2 ≤ p.limits.maxHeaderBytes ∧
        p.headerCount + fs.length ≤ p.limits.maxHeaderCount ∧ q = p.finishChunked [] fs) ∨
      ∃ c : Chunk, ∃ t n, d = c.line ++ (kCRLF ++ (c.data ++ (kCRLF ++ t))) ∧
        k = c.line.length + (2 + (c.data.length + (2 + n))) ∧
        c.line.length ≤ p.limits.maxChunkLine ∧
        p.req.body.length + c.data.length ≤ p.limits.maxBodyBytes ∧
        machine.Until Done (p.finishData c.data .chunkSize) t q n := by
  constructor
  · rw [until_reads_iff (by simp [inContent, hs]) fun hu => hu.not_done_of_chunkSize hs]
    rintro ⟨u, t, s, j, rfl, hu, hrest, rfl⟩
    obtain ⟨line, size, rfl, hl, hlen, hsize, ⟨rfl, rfl⟩ | ⟨h0, hsum, rfl⟩⟩ :=
      (reads_chunkSize_iff hs hmax hbody).mp hu
    · obtain ⟨fs, t, rfl, rfl, hbytes, hcount, rfl⟩ :=
        (until_trailers_iff (p := { p with state := .trailers }) rfl hc).mp hrest
      exact .inl ⟨line, fs, t, by simp, by simp; omega, hl, hlen, hsize, hbytes, hcount, rfl⟩
    · obtain ⟨data, t, n, rfl, rfl, hq, rfl⟩ := (until_chunkData_iff rfl h0).mp hrest
      exact .inr ⟨⟨line, data, hl, hsize, by rintro rfl; exact h0 rfl⟩, t, n, by simp,
        by simp; omega, hlen, hsum, hq⟩
  · rintro (⟨line, fs, t, rfl, rfl, hl, hlen, hsize, hbytes, hcount, rfl⟩ |
      ⟨c, t, n, rfl, rfl, hlen, hsum, hrest⟩)
    · exact until_lastChunk hs (by omega) hc hl hlen hsize hbytes hcount t
    · exact until_chunk hs (by omega) c hlen hsum hrest

/-- A chunked request is finished exactly at the end of a chunked body. -/
theorem until_chunkSize_iff (hs : p.state = .chunkSize) (hr : p.remaining = 0)
    (hmax : p.limits.maxBodyBytes < 2 ^ 63) (hbody : p.req.body.length ≤ p.limits.maxBodyBytes)
    (hc : p.headerCount ≤ p.limits.maxHeaderCount) :
    machine.Until Done p d q k ↔
      ∃ b : ChunkedBody p.limits p.req.body.length p.headerBytes p.headerCount,
        b.encoding <+: d ∧ b.encoding.length = k ∧ q = p.finishChunked b.chunks b.trailers := by
  constructor
  · intro h
    generalize hn : d.length = n
    induction n using Nat.strong_induction_on generalizing p d k with
    | _ n ih =>
      rcases (until_chunkSize_cases hs hmax hbody hc).mp h with
        ⟨line, fs, t, rfl, rfl, hl, hlen, hsize, hbytes, hcount, rfl⟩ |
          ⟨c, t, j, rfl, rfl, hlen, hsum, hrest⟩
      · exact ⟨⟨[], line, fs, by simp, hbody, hl, hlen, hsize, hbytes, hcount⟩,
          ⟨t, by simp [ChunkedBody.encoding]⟩, by simp [ChunkedBody.encoding], rfl⟩
      · obtain ⟨b, ⟨t, rfl⟩, rfl, rfl⟩ := ih t.length (by simp at hn; omega)
          (p := p.finishData c.data .chunkSize) rfl rfl hmax (by simpa [finishData] using hsum) hc
          hrest rfl
        have hdata := b.data_le
        simp only [finishData, List.length_append] at hdata
        exact ⟨⟨c :: b.chunks, b.last, b.trailers, List.forall_mem_cons.mpr ⟨hlen, b.line_le⟩,
          by simpa [Nat.add_assoc] using hdata, b.last_free, b.last_le, b.last_size, b.bytes_le,
          b.count_le⟩, ⟨t, by simp [ChunkedBody.encoding]⟩, by simp [ChunkedBody.encoding],
          finishChunked_cons hr⟩
  · rintro ⟨b, ⟨t, rfl⟩, rfl, rfl⟩
    exact until_chunkedBody hs hr (by omega) hc b t

/-- A fresh parser finishes a request after using the given number of bytes. -/
structure Finishes (l : ParserLimits) (x : Bytes) (R : Request) (k : ℕ) : Prop where
  done : (feed { limits := l } x).1.Done
  req : (feed { limits := l } x).1.req = R
  used : (feed { limits := l } x).2 = k

variable {h : Head l} {y : Bytes} {R : Request} {m n : ℕ}

theorem feed_head (h : Head l) (y : Bytes) :
    feed { limits := l } (h.bytes ++ y) = shift h.bytes.length (h.parser.feed y) := by
  have hu := until_head_iff.mpr ⟨h, List.prefix_append h.bytes y, rfl, rfl⟩
  rw [feed, hu.feed, List.drop_left]
  rfl

theorem finishes_head_iff : Finishes l (h.bytes ++ y) R (h.bytes.length + m) ↔
    ∃ q, h.parser.feed y = (q, m) ∧ q.Done ∧ q.req = R := by
  constructor
  · rintro ⟨hdone, hreq, hused⟩
    rw [feed_head] at hdone hreq hused
    exact ⟨_, Prod.ext rfl (by simpa using hused), hdone, hreq⟩
  · rintro ⟨q, hq, hdone, rfl⟩
    constructor <;> rw [feed_head, hq]
    · exact hdone
    · rfl
    · rfl

theorem finishes_iff_of_done (hs : h.framing.state = .done) :
    Finishes l (h.bytes ++ y) R (h.bytes.length + m) ↔ m = 0 ∧ R = h.request := by
  have hfeed : h.parser.feed y = (h.parser, 0) := machine.feed_stop (feedStep_ended (.inl hs))
  rw [finishes_head_iff, hfeed]
  constructor
  · rintro ⟨q, hq, _, rfl⟩
    cases hq
    exact ⟨rfl, rfl⟩
  · rintro ⟨rfl, rfl⟩
    exact ⟨_, rfl, done_iff.mpr hs, rfl⟩

theorem finishes_iff_until (hs : h.framing.state ≠ .done) :
    Finishes l (h.bytes ++ y) R (h.bytes.length + m) ↔
      ∃ q, machine.Until Done h.parser y q m ∧ q.req = R := by
  rw [finishes_head_iff]
  refine exists_congr fun q => ?_
  rw [until_done_iff hs, and_assoc]

theorem finishes_iff_of_length (hn : h.framing = .length n) :
    Finishes l (h.bytes ++ y) R (h.bytes.length + m) ↔
      n ≤ y.length ∧ m = n ∧ R = { h.request with body := y.take n } := by
  rcases eq_or_ne n 0 with rfl | h0
  · rw [finishes_iff_of_done (by rw [hn]; rfl)]
    simp [HeadForm.request]
  · have hs : h.framing.state = .body := by rw [hn]; exact if_neg h0
    have hr : h.parser.remaining = n := by simp [Head.parser, hn, BodyFraming.remaining]
    rw [finishes_iff_until (by simp [hs])]
    constructor
    · rintro ⟨q, hq, rfl⟩
      obtain ⟨hle, rfl, rfl⟩ := (until_body_iff hs (by rwa [hr])).mp hq
      exact ⟨hr ▸ hle, hr, by rw [hr]; rfl⟩
    · rintro ⟨hle, rfl, rfl⟩
      refine ⟨_, (until_body_iff hs (by rwa [hr])).mpr ⟨hr.symm ▸ hle, hr.symm, rfl⟩, ?_⟩
      rw [hr]
      rfl

theorem finishes_iff_of_chunked (hl : l.maxBodyBytes < 2 ^ 63) (hc : h.framing = .chunked) :
    Finishes l (h.bytes ++ y) R (h.bytes.length + m) ↔
      ∃ b : ChunkedBody l 0 ((fieldBytes h.fields).length + 2) h.fields.length,
        b.encoding = y.take m ∧ m ≤ y.length ∧ R = { h.request with
          body := chunkData b.chunks
          trailers := foldFields .empty b.trailers } := by
  have hs : h.framing.state = .chunkSize := by rw [hc]; rfl
  have hr : h.parser.remaining = 0 := by simp [Head.parser, hc, BodyFraming.remaining]
  have hiff : ∀ q, machine.Until Done h.parser y q m ↔ _ := fun q =>
    until_chunkSize_iff hs hr hl (Nat.zero_le _) h.count_le
  rw [finishes_iff_until (by simp [hs])]
  constructor
  · rintro ⟨q, hq, rfl⟩
    obtain ⟨b, hpre, rfl, rfl⟩ := (hiff q).mp hq
    exact ⟨b, List.prefix_iff_eq_take.mp hpre, hpre.length_le, rfl⟩
  · rintro ⟨b, henc, hle, rfl⟩
    have hlen : b.encoding.length = m := by rw [henc, List.length_take_of_le hle]
    exact ⟨_, (hiff _).mpr ⟨b, henc ▸ List.take_prefix m y, hlen, rfl⟩, rfl⟩

/-- Bodies are decoded exactly. After a head, the request is finished at once if there is no
body; after as many bytes as announced; or at the end of a chunked body. -/
theorem body_decoding_exact {l : ParserLimits} (hl : l.maxBodyBytes < 2 ^ 63) (h : Head l)
    (y : Bytes) (R : Request) (m : ℕ) :
    (folded h.fields (text "Transfer-Encoding") = none →
      folded h.fields (text "Content-Length") = none →
        (Finishes l (h.bytes ++ y) R (h.bytes.length + m) ↔
          m = 0 ∧ R = { h.request with body := [] })) ∧
    (∀ v n, folded h.fields (text "Content-Length") = some v → IsLengthList v n →
      (Finishes l (h.bytes ++ y) R (h.bytes.length + m) ↔
        n ≤ y.length ∧ m = n ∧ R = { h.request with body := y.take n })) ∧
    ∀ v, folded h.fields (text "Transfer-Encoding") = some v →
      (Finishes l (h.bytes ++ y) R (h.bytes.length + m) ↔
        ∃ b : ChunkedBody l 0 ((fieldBytes h.fields).length + 2) h.fields.length,
          b.encoding = y.take m ∧ m ≤ y.length ∧ R = { h.request with
            body := chunkData b.chunks
            trailers := foldFields .empty b.trailers }) := by
  have hframes := h.frames
  refine ⟨fun hte hcl => ?_, fun v n hcl hlen => ?_, fun v hte => ?_⟩
  · refine finishes_iff_of_done ?_
    cases hk : h.framing with
    | none => rfl
    | length n => rw [hk] at hframes; simp [BodyFraming.Frames, hcl] at hframes
    | chunked => rw [hk] at hframes; simp [BodyFraming.Frames, hte] at hframes
  · refine finishes_iff_of_length ?_
    cases hk : h.framing with
    | none => rw [hk] at hframes; simp [BodyFraming.Frames, hcl] at hframes
    | length n' =>
      rw [hk] at hframes
      obtain ⟨_, v', hv', hlen', _⟩ := hframes
      cases hcl.symm.trans hv'
      rw [hlen.unique hlen']
    | chunked => rw [hk] at hframes; simp [BodyFraming.Frames, hcl] at hframes
  · refine finishes_iff_of_chunked hl ?_
    cases hk : h.framing with
    | none => rw [hk] at hframes; simp [BodyFraming.Frames, hte] at hframes
    | length n => rw [hk] at hframes; simp [BodyFraming.Frames, hte] at hframes
    | chunked => rfl

def chunkedHead : Head {} where
  blanks := 1
  requestLine := postLine
  fields := [hostLine, ⟨text "Transfer-Encoding", text " chunked", by decide, by decide +kernel⟩]
  framing := .chunked
  line_le := by decide
  bytes_le := by decide
  count_le := by decide
  host_le := by decide
  host_pos := by decide
  frames := ⟨by decide, rfl, text "chunked", by decide, by decide⟩
  fits := Nat.zero_le _

theorem body_decoding_exact_chunked : 8 * 1024 * 1024 < 2 ^ 63 ∧
    Finishes {} (chunkedHead.bytes ++ text "2;x\r\nhi\r\n0\r\n\r\nGET")
      { chunkedHead.request with body := text "hi" } (chunkedHead.bytes.length + 14) :=
  ⟨by decide, (((body_decoding_exact (l := {}) (by decide) chunkedHead
    (text "2;x\r\nhi\r\n0\r\n\r\nGET") _ 14).2.2 (text "chunked") (by decide)).mpr
    ⟨⟨[⟨text "2;x", text "hi", by decide,
        ⟨by decide, by decide, by decide +kernel, by decide⟩, by decide⟩],
      text "0", [], by decide, by decide, by decide, by decide,
      ⟨by decide, by decide, by decide +kernel, by decide⟩, by decide, by decide⟩,
      by decide, by decide, rfl⟩)⟩

end RequestParser

end Httpd
