import Httpd.Parser.Retained
import Httpd.Parser.RoundTrip

/-! # Bounds on memory

What a peer can make a parser store, in every state that calls of the parser can reach. The
stored fields and the request line are bounded by the limits. So is the body, as long as the
sum of its length and the size of a chunk does not wrap around.
-/

namespace Httpd

open Incremental

namespace Headers

def size (h : Headers) : ℕ := (h.fields.map fun f => f.1.length + f.2.length).sum

theorem size_le_cost (h : Headers) : h.size ≤ h.cost := by
  apply List.sum_le_sum
  intro f _
  exact Nat.le_add_right _ 3

end Headers

theorem length_pathAndQuery_le {method target pq : Bytes} (h : pathAndQuery method target = some pq) :
    pq.length ≤ max target.length 1 := by
  unfold pathAndQuery at h
  dsimp only at h
  split at h
  · split at h <;> cases h
    · exact le_max_right ..
    · exact (List.drop_suffix ..).length_le.trans (le_max_left ..)
  · split at h <;> cases h
    exact le_max_left ..

theorem length_takeWhile_add_le (f : UInt8 → Bool) (s : Bytes) :
    (s.takeWhile f).length + ((s.dropWhile f).drop 1).length ≤ s.length := by
  have hsplit := congrArg List.length (List.takeWhile_append_dropWhile (p := f) (l := s))
  have hdrop := (List.drop_suffix 1 (s.dropWhile f)).length_le
  rw [List.length_append] at hsplit
  omega

theorem RequestLine.bounds (r : RequestLine) :
    r.method.length + r.target.length ≤ r.line.length ∧
      (r.pathAndQuery.takeWhile (· != ch '?')).length +
        ((r.pathAndQuery.dropWhile (· != ch '?')).drop 1).length ≤ max r.target.length 1 := by
  constructor
  · simp only [RequestLine.line, List.length_append, List.length_cons]
    omega
  · obtain ⟨pq, hpq⟩ := pathAndQuery_isSome_iff.mpr r.form
    rw [RequestLine.pathAndQuery, hpq, Option.getD_some]
    exact (length_takeWhile_add_le _ pq).trans (length_pathAndQuery_le hpq)

theorem hexNumber_lt (digits : Bytes) : hexNumber digits < 16 ^ digits.length := by
  have hdigit : ∀ c, (hexValue c).getD 0 < 16 := by
    intro c
    cases hc : hexValue c with
    | none => simp
    | some v => exact hexValue_lt hc
  induction digits using List.reverseRecOn with
  | nil => simp [hexNumber]
  | append_singleton digits c ih =>
    have hc := hdigit c
    rw [hexNumber, List.foldl_concat, ← hexNumber, List.length_append, List.length_singleton, pow_succ]
    omega

namespace ParserLimits

/-- The largest size that a chunk-size line within the limits announces. -/
def maxChunk (l : ParserLimits) : ℕ := min l.maxBodyBytes (16 ^ min l.maxChunkLine 16 - 1)

/-- A full body and the largest chunk add up without overflow, or else no chunk can be
announced. -/
def BodyFits (l : ParserLimits) : Prop :=
  12 ≤ l.maxRequestLine → 36 ≤ l.maxHeaderBytes → 2 ≤ l.maxHeaderCount →
    l.maxBodyBytes + l.maxChunk < 2 ^ 64

end ParserLimits

theorem IsSizeLine.size_le {line : Bytes} {size k : ℕ} (h : IsSizeLine line size)
    (hk : line.length ≤ k) : size ≤ 16 ^ min k 16 - 1 := by
  have hdigits : (sizeDigits line).length ≤ line.length :=
    (length_trimOws_le _).trans (List.takeWhile_prefix _).length_le
  have hlt := hexNumber_lt (sizeDigits line)
  have hpow : 16 ^ (sizeDigits line).length ≤ 16 ^ min k 16 :=
    Nat.pow_le_pow_right (by decide) (le_min (hdigits.trans hk) h.digits_le)
  rw [h.size_eq]
  omega

theorem BodyFraming.remaining_le {l : ParserLimits} {b : BodyFraming} {minor : ℕ}
    {get : Bytes → Option Bytes} (h : b.Frames l minor get) : b.remaining ≤ l.maxBodyBytes := by
  cases b with
  | none => exact Nat.zero_le _
  | length n => exact h.2.choose_spec.2.2
  | chunked => exact Nat.zero_le _

namespace RequestParser

variable {l : ParserLimits} {p q : RequestParser} {u rest : Bytes} {n : ℕ}

/-- The parsers that calls can make of a fresh one. -/
inductive Reachable (l : ParserLimits) : RequestParser → Prop where
  | fresh : Reachable l { limits := l }
  | feed {p : RequestParser} (d : Bytes) : Reachable l p → Reachable l (p.feed d).1
  | reset {p : RequestParser} : Reachable l p → Reachable l p.reset

theorem Reachable.limits (h : Reachable l p) : p.limits = l := by
  induction h with
  | fresh => rfl
  | feed d _ ih => rw [feed_limits, ih]
  | reset _ ih => exact ih

/-- What units and failures preserve holds in every reachable parser. -/
theorem Reachable.keeps {I : RequestParser → Prop} (hfresh : I { limits := l })
    (hreads : ∀ {p u q}, p.Reads u q → I p → I q)
    (hfails : ∀ {p rest q n}, p.Fails rest q n → I p → I q) (h : Reachable l p) : I p := by
  induction h with
  | fresh => exact hfresh
  | feed d _ ih => exact feed_keeps hreads hfails ih d
  | reset h _ =>
    rw [RequestParser.reset, h.limits]
    exact hfresh

/-- What is stored stays within the limits, also after a failure. -/
structure Bounded (p : RequestParser) : Prop where
  accounted : p.Accounted
  fields_le : p.req.headers.count + p.req.trailers.count ≤ p.limits.maxHeaderCount
  line_le : p.req.method.length + p.req.target.length ≤ p.limits.maxRequestLine
  path_le : p.req.path.length + p.req.query.length ≤ max p.req.target.length 1

theorem bounded_fresh (l : ParserLimits) : Bounded { limits := l } :=
  ⟨accounted_fresh l, by simp, by simp, by simp⟩

theorem Bounded.of_eq (h : p.Bounded) (hacc : q.Accounted) (hlimits : q.limits = p.limits)
    (hreq : ∃ body expect, q.req = { p.req with body := body, expectContinue := expect }) :
    q.Bounded := by
  obtain ⟨body, expect, hreq⟩ := hreq
  refine ⟨hacc, ?_, ?_, ?_⟩ <;> rw [hreq]
  · rw [hlimits]; exact h.fields_le
  · rw [hlimits]; exact h.line_le
  · exact h.path_le

theorem Bounded.addField (h : p.Bounded) (f : FieldLine) (hacc : (p.addField f).Accounted)
    (hcount : p.headerCount + 1 ≤ p.limits.maxHeaderCount) : (p.addField f).Bounded := by
  have hle := h.accounted.count_le
  refine ⟨hacc, ?_, ?_, ?_⟩
  · have hadd := hacc.count_le
    rw [addField_headerCount] at hadd
    rw [addField_limits]
    exact hadd.trans hcount
  all_goals
    unfold RequestParser.addField
    split
    · first | exact h.line_le | exact h.path_le
    · first | exact h.line_le | exact h.path_le

theorem Reads.bounded (hr : p.Reads u q) (h : p.Bounded) : q.Bounded := by
  have hacc := hr.accounted h.accounted
  have hlimits := hr.limits
  cases hr with
  | blank => exact h
  | requestLine _ _ _ hlen hq =>
    obtain ⟨r, rfl, rfl⟩ := parseRequestLine_ok_iff.mp hq
    obtain ⟨hline, hpath⟩ := r.bounds
    exact ⟨hacc, h.fields_le, hline.trans hlen, hpath⟩
  | field _ _ _ _ hnum hq =>
    obtain ⟨f, rfl, rfl, _⟩ := parseFieldLine_eq_ok_iff.mp hq
    exact h.addField f hacc hnum
  | finish _ _ hq =>
    obtain ⟨_, _, e, _, _, rfl⟩ := finishHeaders_ok hq
    exact h.of_eq hacc hlimits ⟨p.req.body, e, rfl⟩
  | trailersEnd => exact h.of_eq hacc hlimits ⟨p.req.body, p.req.expectContinue, rfl⟩
  | data =>
    refine h.of_eq hacc hlimits ⟨p.req.body ++ u, p.req.expectContinue, ?_⟩
    rcases takeData_cases (p := p) u with hq | hq <;> rw [hq]
  | dataEnd => exact h.of_eq hacc hlimits ⟨p.req.body, p.req.expectContinue, rfl⟩
  | chunkSize _ _ _ hq =>
    refine h.of_eq hacc hlimits ⟨p.req.body, p.req.expectContinue, ?_⟩
    obtain ⟨_, _, ⟨_, rfl⟩ | ⟨_, _, _, rfl⟩⟩ := parseChunkSize_ok hq <;> rfl

theorem Fails.bounded (hf : p.Fails rest q n) (h : p.Bounded) : q.Bounded := by
  refine h.of_eq (hf.accounted h.accounted) hf.limits ⟨p.req.body, p.req.expectContinue, ?_⟩
  cases hf <;> rfl

theorem Reachable.bounded (h : Reachable l p) : p.Bounded :=
  h.keeps (bounded_fresh l) (fun hu => hu.bounded) fun hf => hf.bounded

/-- Whatever a peer sends, the memory of a parser is bounded by the limits. -/
theorem memory_bounded {l : ParserLimits} (hl : l.NoWrap) {p : RequestParser}
    (h : Reachable l p) :
    p.req.headers.size + p.req.trailers.size ≤ p.headerBytes ∧
    p.headerBytes ≤ l.maxHeaderBytes ∧
    p.req.headers.count + p.req.trailers.count ≤ l.maxHeaderCount ∧
    p.req.method.length + p.req.target.length ≤ l.maxRequestLine ∧
    p.req.path.length + p.req.query.length ≤ max p.req.target.length 1 ∧
    ∀ d : Bytes, (p.feed d).1.done = false → (p.feed d).1.failed = false →
      (d.drop (p.feed d).2).length ≤
        max (l.maxRequestLine + 1) (max (l.maxHeaderBytes - 1) (l.maxChunkLine + 1)) := by
  have hb := h.bounded
  have hcost := hb.accounted.cost_le
  have hlimits := h.limits
  refine ⟨?_, hlimits ▸ hb.accounted.bytes_le, hlimits ▸ hb.fields_le, hlimits ▸ hb.line_le,
    hb.path_le, fun d hd hf => ?_⟩
  · have := p.req.headers.size_le_cost
    have := p.req.trailers.size_le_cost
    omega
  · have hlen := (feed_waits hf).length_le hd hf
    rw [feed_limits, hlimits, wrap_of_lt hl.1, wrap_of_lt hl.2] at hlen
    rcases hlen with ⟨_, h⟩ | ⟨_, h⟩ | ⟨_, h⟩ | h <;> omega

theorem memory_bounded_default : ParserLimits.NoWrap {} ∧
    Reachable {} (feed {} (text "GET / HTTP/1.1\r\nHost: x\r\n")).1 ∧
    (feed {} (text "GET / HTTP/1.1\r\nHost: x\r\n")).1.headerBytes ≤ 16 * 1024 :=
  ⟨by decide, .feed _ .fresh,
    (memory_bounded (l := {}) (by decide) (.feed (text "GET / HTTP/1.1\r\nHost: x\r\n") .fresh)).2.1⟩

structure Contained (p : RequestParser) : Prop where
  accounted : p.Accounted
  fits : p.limits.BodyFits
  body_le : p.req.body.length + p.remaining ≤ p.limits.maxBodyBytes
  idle : p.state = .requestLine ∨ p.state = .headers → p.req.body = []

/-- Where a full body and the largest chunk fit together, the check of the sum is exact. -/
theorem Contained.sum_le {line : Bytes} {size : ℕ} (h : p.Contained) (hs : p.state = .chunkSize)
    (hlen : line.length ≤ p.limits.maxChunkLine) (hsize : chunkSizeOf line = some size)
    (hle : size ≤ p.limits.maxBodyBytes)
    (hsum : wrap (p.req.body.length + size) ≤ p.limits.maxBodyBytes) :
    p.req.body.length + size ≤ p.limits.maxBodyBytes := by
  obtain ⟨hbytes, hcount⟩ := h.accounted.chunks (by simp [inChunks, hs])
  have hline := (h.accounted.version (by simp [started, hs]) (by simp [failed, hs])).1
  have hfits := h.fits hline hbytes hcount
  have hmax : size ≤ p.limits.maxChunk :=
    le_min hle ((chunkSizeOf_eq_some_iff.mp hsize).size_le hlen)
  have hbody := h.body_le
  rwa [wrap_of_lt (by omega)] at hsum

theorem Reads.contained (hr : p.Reads u q) (h : p.Contained) : q.Contained := by
  have hacc := hr.accounted h.accounted
  have hfits : q.limits.BodyFits := hr.limits ▸ h.fits
  cases hr with
  | blank => exact h
  | requestLine hs _ _ _ hq =>
    obtain ⟨r, rfl, rfl⟩ := parseRequestLine_ok_iff.mp hq
    exact ⟨hacc, hfits, h.body_le, fun _ => h.idle (.inl hs)⟩
  | field _ _ _ _ _ hq =>
    obtain ⟨_, _, _, ⟨_, _, rfl⟩ | ⟨_, rfl⟩⟩ := parseFieldLine_ok hq <;>
      exact ⟨hacc, hfits, h.body_le, h.idle⟩
  | finish hs _ hq =>
    obtain ⟨_, hmajor, hminor⟩ :=
      h.accounted.version (by simp [RequestParser.started, hs]) (by simp [failed, hs])
    obtain ⟨_, b, hframes, -, rfl⟩ := (finishHeaders_eq_ok_iff (p := p.countLine []) hmajor hminor
      (h.accounted.idle (.inr hs))).mp hq
    have hbody : p.req.body = [] := h.idle (.inr hs)
    refine ⟨hacc, hfits, ?_, fun _ => hbody⟩
    simpa [hbody] using BodyFraming.remaining_le hframes
  | trailersEnd => exact ⟨hacc, hfits, h.body_le, by simp⟩
  | data hs hle =>
    have hbody := h.body_le
    have hsum : (p.req.body ++ u).length + (p.remaining - u.length) ≤ p.limits.maxBodyBytes := by
      rw [List.length_append]; omega
    rcases takeData_cases (p := p) u with hq | hq <;> rw [hq] at hacc hfits ⊢
    · exact ⟨hacc, hfits, hsum, by rcases hs with hs | hs <;> simp [hs]⟩
    · refine ⟨hacc, hfits, hsum, ?_⟩
      dsimp only
      split <;> simp
  | dataEnd => exact ⟨hacc, hfits, h.body_le, by simp⟩
  | chunkSize hs _ hlen hq =>
    obtain ⟨size, hsize, ⟨_, rfl⟩ | ⟨_, hle, hsum, rfl⟩⟩ := parseChunkSize_ok hq
    · exact ⟨hacc, hfits, h.body_le, by simp⟩
    · exact ⟨hacc, hfits, h.sum_le hs hlen hsize hle hsum, by simp⟩

theorem Fails.contained (hf : p.Fails rest q n) (h : p.Contained) : q.Contained := by
  have hacc := hf.accounted h.accounted
  cases hf <;> exact ⟨hacc, h.fits, h.body_le, by simp⟩

theorem Reachable.contained (hfits : l.BodyFits) (h : Reachable l p) : p.Contained :=
  h.keeps ⟨accounted_fresh l, hfits, by simp, by simp⟩ (fun hu => hu.contained)
    fun hf => hf.contained

theorem Reachable.reads (h : Reachable l p) (hr : p.Reads u q) (hc : p.inContent = false)
    (hq : q.Waits []) : Reachable l q := by
  have hfeed := hr.feed hc hq
  have := h.feed (u ++ [])
  rwa [hfeed] at this

theorem Reachable.head (h : Head l) (hc : h.framing = .chunked) : Reachable l h.parser := by
  have hwaits : h.parser.Waits [] :=
    .chunkSize (by simp [Head.parser, hc, BodyFraming.state]) rfl (Nat.zero_le _)
  have hfeed := feed_head h []
  rw [hwaits.feed] at hfeed
  have := (Reachable.fresh (l := l)).feed (h.bytes ++ [])
  rwa [hfeed] at this

theorem Reachable.oneByte (h : Reachable l p) (hs : p.state = .chunkSize) (hl : 1 ≤ l.maxChunkLine)
    (hmax : l.maxBodyBytes < 2 ^ 64) (hlt : p.req.body.length < l.maxBodyBytes) :
    ∃ q, Reachable l q ∧ q.state = .chunkSize ∧ q.req.body.length = p.req.body.length + 1 := by
  have hlimits := h.limits
  have hsize : p.Reads (text "1" ++ kCRLF) { p with remaining := 1, state := .chunkData } :=
    reads_sizeLine hs (by rwa [hlimits]) (by decide) (by rwa [hlimits])
      (isSizeLine_appendNumber (v := 1) (by decide))
      (.inr ⟨one_ne_zero, by rw [hlimits]; exact hlt, rfl⟩)
  have h₁ := h.reads hsize (by simp [inContent, hs]) (.body (.inr rfl))
  have h₂ := h₁.feed (text "x")
  have hstep : machine.step { p with remaining := 1, state := .chunkData } (text "x" ++ []) = .more
      (finishData { p with remaining := 1, state := .chunkData } (text "x") .chunkDataEnd) 1 :=
    step_data (.inr rfl) rfl one_ne_zero []
  have hwaits : (finishData { p with remaining := 1, state := .chunkData } (text "x")
      .chunkDataEnd).Waits [] := .chunkDataEnd rfl (by decide)
  have hfeed : RequestParser.feed { p with remaining := 1, state := .chunkData } (text "x") =
      shift 1 _ := machine.feed_more hstep
  rw [hfeed, shift_fst] at h₂
  have hend : machine.feed _ [] = _ := hwaits.feed
  change Reachable l (machine.feed _ []).1 at h₂
  rw [hend] at h₂
  refine ⟨_, h₂.reads (.dataEnd rfl) rfl (.chunkSize rfl rfl (Nat.zero_le _)), rfl, ?_⟩
  simp [finishData, text]

theorem exists_full (h : Head l) (hc : h.framing = .chunked) (hl : 1 ≤ l.maxChunkLine)
    (hmax : l.maxBodyBytes < 2 ^ 64) {n : ℕ} (hn : n ≤ l.maxBodyBytes) :
    ∃ p, Reachable l p ∧ p.state = .chunkSize ∧ p.req.body.length = n := by
  induction n with
  | zero =>
    exact ⟨h.parser, .head h hc, by simp [Head.parser, hc, BodyFraming.state], rfl⟩
  | succ n ih =>
    obtain ⟨p, hp, hs, rfl⟩ := ih (by omega)
    exact hp.oneByte hs hl hmax (by omega)

/-- Behind a full body the sum wraps around, and the largest chunk is accepted. -/
theorem exists_overfull (hmax : l.maxBodyBytes < 2 ^ 64) (hfits : ¬ l.BodyFits) :
    ∃ p, Reachable l p ∧ l.maxBodyBytes < p.req.body.length + p.remaining := by
  simp only [ParserLimits.BodyFits, not_forall, not_lt] at hfits
  obtain ⟨hline, hbytes, hcount, hsum⟩ := hfits
  have hle : l.maxChunk ≤ l.maxBodyBytes := min_le_left ..
  have hpow : l.maxChunk ≤ 16 ^ min l.maxChunkLine 16 - 1 := min_le_right ..
  have hchunk : 1 ≤ l.maxChunkLine := by
    by_contra h0
    rw [show l.maxChunkLine = 0 by omega] at hpow
    simp at hpow
    omega
  obtain ⟨p, hp, hs, hbody⟩ := exists_full (shortestHead hline hbytes hcount) rfl hchunk hmax le_rfl
  have hlimits := hp.limits
  have hdigits : (appendNumber 16 l.maxChunk).length ≤ min l.maxChunkLine 16 := by
    apply length_appendNumber_le (by decide) (by omega)
    have := Nat.one_le_pow (min l.maxChunkLine 16) 16 (by decide)
    omega
  have hwrap : wrap (l.maxBodyBytes + l.maxChunk) ≤ l.maxBodyBytes := by
    unfold wrap
    omega
  have hparse : p.parseChunkSize (appendNumber 16 l.maxChunk) =
      .ok { p with remaining := l.maxChunk, state := .chunkData } := by
    rw [parseChunkSize, chunkSizeOf_eq_some_iff.mpr (isSizeLine_appendNumber (by omega))]
    simp [show l.maxChunk ≠ 0 by omega, hlimits, hbody, Nat.not_lt.mpr hle, Nat.not_lt.mpr hwrap]
  have hread : p.Reads (appendNumber 16 l.maxChunk ++ kCRLF) _ :=
    .chunkSize hs (crlfFree_appendNumber _) (by rw [hlimits]; omega) hparse
  refine ⟨_, hp.reads hread (by simp [inContent, hs]) (.body (.inr rfl)), ?_⟩
  change l.maxBodyBytes < p.req.body.length + l.maxChunk
  omega

/-- The body limit holds for every stream exactly if a full body and the largest chunk add up
without overflow. Where they do not, the body of the stream that exceeds the limit may have to be
longer than a `std::string` can be; a body may have any length here. -/
theorem body_limit_iff {l : ParserLimits} (hl : l.maxBodyBytes < 2 ^ 64) :
    (∀ p, Reachable l p → p.req.body.length + p.remaining ≤ l.maxBodyBytes) ↔ l.BodyFits := by
  constructor
  · intro h
    by_contra hfits
    obtain ⟨p, hp, hlt⟩ := exists_overfull hl hfits
    exact absurd (h p hp) (by omega)
  · intro hfits p hp
    rw [← hp.limits]
    exact (hp.contained hfits).body_le

theorem body_limit_iff_default : 8 * 1024 * 1024 < 2 ^ 64 ∧
    ∀ p, Reachable {} p → p.req.body.length + p.remaining ≤ 8 * 1024 * 1024 :=
  ⟨by decide, (body_limit_iff (l := {}) (by decide)).mpr fun _ _ _ => by decide⟩

/-- With the largest limit, one byte and a chunk of the largest size are more than the limit. -/
theorem body_limit_exceeded : ∃ p, Reachable { maxBodyBytes := 2 ^ 64 - 1 } p ∧
    p.req.body.length = 1 ∧ p.remaining = 2 ^ 64 - 1 ∧ p.state = .chunkData :=
  ⟨_, .feed (text "POST / HTTP/1.1\r\nHost: x\r\nTransfer-Encoding: chunked\r\n\r\n" ++
    text "1\r\nx\r\nffffffffffffffff\r\n") .fresh, by decide +kernel⟩

end RequestParser

end Httpd
