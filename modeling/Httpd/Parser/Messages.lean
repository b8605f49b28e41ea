import Httpd.Parser.Body
import Httpd.Parser.Segmentation

/-! # Streams of requests

A stream is read as a sequence of whole requests, each a head and the body that the head
announces. The requests that the parser finishes are those of the longest such sequence that the
stream begins with, however the stream is cut into reads.
-/

namespace Httpd

open Incremental

variable {l : ParserLimits}

/-- What follows a head: as many bytes as announced, or a chunked body. -/
inductive Content (h : Head l) where
  | plain (body : Bytes) : h.framing ≠ .chunked → body.length = h.framing.remaining → Content h
  | chunked (body : ChunkedBody l 0 ((fieldBytes h.fields).length + 2) h.fields.length) :
      h.framing = .chunked → Content h

namespace Content

variable {h : Head l}

def bytes : Content h → Bytes
  | plain body _ _ => body
  | chunked body _ => body.encoding

def request : Content h → Request
  | plain body _ _ => { h.request with body := body }
  | chunked body _ => { h.request with
      body := chunkData body.chunks
      trailers := foldFields .empty body.trailers }

end Content

/-- A whole request as a client sends it. -/
structure Message (l : ParserLimits) where
  head : Head l
  content : Content head

def Message.bytes (msg : Message l) : Bytes := msg.head.bytes ++ msg.content.bytes

def Message.request (msg : Message l) : Request := msg.content.request

theorem Message.bytes_ne_nil (msg : Message l) : msg.bytes ≠ [] := by
  simp [Message.bytes, HeadLines.bytes, kCRLF]

theorem forall₂_exists_iff {α β γ : Type*} {f : γ → α} {g : γ → β} {as : List α} {bs : List β} :
    List.Forall₂ (fun a b => ∃ c, f c = a ∧ g c = b) as bs ↔
      ∃ cs : List γ, cs.map f = as ∧ cs.map g = bs := by
  constructor
  · intro h
    induction h with
    | nil => exact ⟨[], rfl, rfl⟩
    | cons hab _ ih =>
      obtain ⟨c, rfl, rfl⟩ := hab
      obtain ⟨cs, rfl, rfl⟩ := ih
      exact ⟨c :: cs, rfl, rfl⟩
  · rintro ⟨cs, rfl, rfl⟩
    induction cs with
    | nil => exact .nil
    | cons c cs ih => exact .cons ⟨c, rfl, rfl⟩ ih

namespace RequestParser

variable {h : Head l} {y x : Bytes} {R : Request} {k m : ℕ}

theorem finishes_iff_of_plain (hc : h.framing ≠ .chunked) :
    Finishes l (h.bytes ++ y) R (h.bytes.length + m) ↔ h.framing.remaining ≤ y.length ∧
      m = h.framing.remaining ∧ R = { h.request with body := y.take h.framing.remaining } := by
  cases hk : h.framing with
  | none =>
    rw [finishes_iff_of_done (by rw [hk]; rfl)]
    simp [BodyFraming.remaining, HeadForm.request]
  | length n => exact finishes_iff_of_length hk
  | chunked => exact absurd hk hc

theorem finishes_iff_content (hl : l.maxBodyBytes < 2 ^ 63) :
    Finishes l (h.bytes ++ y) R (h.bytes.length + m) ↔
      ∃ c : Content h, c.bytes = y.take m ∧ m ≤ y.length ∧ R = c.request := by
  by_cases hc : h.framing = .chunked
  · rw [finishes_iff_of_chunked hl hc]
    constructor
    · rintro ⟨b, henc, hle, rfl⟩
      exact ⟨.chunked b hc, henc, hle, rfl⟩
    · rintro ⟨c, hbytes, hle, rfl⟩
      cases c with
      | plain body hne => exact absurd hc hne
      | chunked b => exact ⟨b, hbytes, hle, rfl⟩
  · rw [finishes_iff_of_plain hc]
    constructor
    · rintro ⟨hle, rfl, rfl⟩
      exact ⟨.plain _ hc (List.length_take_of_le hle), rfl, hle, rfl⟩
    · rintro ⟨c, hbytes, hle, rfl⟩
      cases c with
      | plain body _ hlen =>
        obtain rfl : body = y.take m := hbytes
        rw [List.length_take_of_le hle] at hlen
        exact ⟨hlen ▸ hle, hlen, by rw [← hlen]; rfl⟩
      | chunked _ hch => exact absurd hch hc

/-- The parser finishes a request at the end of a message and nowhere else. -/
theorem finishes_iff_message (hl : l.maxBodyBytes < 2 ^ 63) : Finishes l x R k ↔
    ∃ msg : Message l, k ≤ x.length ∧ msg.bytes = x.take k ∧ msg.request = R := by
  constructor
  · intro hR
    have hdone := (until_done_iff (p := { limits := l }) (by simp)).mpr ⟨rfl, hR.done⟩
    obtain ⟨q, j, hq⟩ := hdone.exists_of_imp (Q := HeadersComplete) fun hs => by
      simp [HeadersComplete, headersComplete, done_iff.mp hs]
    obtain ⟨h, ⟨y, rfl⟩, -, -⟩ := until_head_iff.mp hq
    -- the whole of the head has been used
    obtain ⟨m, rfl⟩ : ∃ m, k = h.bytes.length + m := by
      have hused := hR.used
      rw [feed_head, shift_snd] at hused
      exact ⟨_, hused.symm⟩
    obtain ⟨c, hbytes, hle, rfl⟩ := (finishes_iff_content hl).mp hR
    refine ⟨⟨h, c⟩, by simpa using hle, ?_, rfl⟩
    rw [Message.bytes, hbytes, List.take_length_add_append]
  · rintro ⟨⟨h, c⟩, hle, hbytes, rfl⟩
    obtain ⟨t, ht⟩ : (h.bytes ++ c.bytes) <+: x := by
      rw [show h.bytes ++ c.bytes = x.take k from hbytes]
      exact List.take_prefix _ _
    have hk : k = h.bytes.length + c.bytes.length := by
      have := congrArg List.length hbytes
      rw [List.length_take_of_le hle] at this
      rw [← this, Message.bytes, List.length_append]
    rw [← ht, hk, List.append_assoc, finishes_iff_content hl]
    exact ⟨c, by simp, by simp, rfl⟩

/-- A message is read from the state in which the parser is left after a message. -/
theorem reads_messages (hl : l.maxBodyBytes < 2 ^ 63) :
    delimiter.Reads { limits := l } fun u R =>
      ∃ msg : Message l, msg.bytes = u ∧ msg.request = R where
  again := by
    intro d R p h
    simp only [delimiter] at h
    split at h
    · cases h
      change reset (feed { limits := l } d).1 = _
      rw [reset, feed_limits]
    · cases h
  iff := by
    intro d R n
    rw [exists_and_left.symm, ← finishes_iff_message hl]
    constructor
    · rintro ⟨-, ⟨p, ht⟩, hn⟩
      simp only [delimiter] at ht
      split at ht
      · next hd =>
        cases ht
        exact ⟨hd, rfl, hn⟩
      · cases ht
    · rintro ⟨hd, rfl, hn⟩
      refine ⟨?_, ⟨_, if_pos hd⟩, hn⟩
      have hs : (machine.feed { limits := l } d).1.state = .done := done_iff.mp hd
      simp [delimiter, failed, hs]

/-- The requests finished in a stream, however it is cut into reads, are those of the messages
that the stream begins with, up to the point where no message is to be found. -/
theorem requests_iff_messages (hl : l.maxBodyBytes < 2 ^ 63) (hw : l.NoWrap) (reads : List Bytes)
    (rs : List Request) : (run l reads).requests = rs ↔
      ∃ (msgs : List (Message l)) (y : Bytes),
        reads.flatten = (msgs.map Message.bytes).flatten ++ y ∧
        msgs.map Message.request = rs ∧ ∀ msg : Message l, ¬ msg.bytes <+: y := by
  have hiff := (reads_messages hl).collects_iff [] rs reads.flatten
  rw [List.nil_append] at hiff
  rw [run_eq hw]
  refine hiff.trans ⟨?_, ?_⟩
  · rintro ⟨us, y, hflat, hus, hy⟩
    obtain ⟨msgs, rfl, hrs⟩ := forall₂_exists_iff.mp hus
    exact ⟨msgs, y, hflat, hrs, fun msg => hy _ _ ⟨msg, rfl, rfl⟩⟩
  · rintro ⟨msgs, y, hflat, hrs, hy⟩
    refine ⟨msgs.map Message.bytes, y, hflat, forall₂_exists_iff.mpr ⟨msgs, rfl, hrs⟩, ?_⟩
    rintro u R ⟨msg, rfl, -⟩
    exact hy msg

def chunkedMessage : Message {} where
  head := chunkedHead
  content := .chunked
    ⟨[⟨text "2;x", text "hi", by decide, ⟨by decide, by decide, by decide +kernel, by decide⟩,
        by decide⟩],
      text "0", [], by decide, by decide, by decide, by decide,
      ⟨by decide, by decide, by decide +kernel, by decide⟩, by decide, by decide⟩
    rfl

/-- Two requests of a stream that is cut inside the first of them. -/
theorem requests_iff_messages_chunked : ParserLimits.NoWrap {} ∧
    (run {} [chunkedMessage.bytes.take 30, chunkedMessage.bytes.drop 30 ++
      chunkedMessage.bytes]).requests = [chunkedMessage.request, chunkedMessage.request] := by
  refine ⟨by decide, (requests_iff_messages (by decide) (by decide) _ _).mpr
    ⟨[chunkedMessage, chunkedMessage], [], ?_, rfl, fun msg h => ?_⟩⟩
  · simp only [List.flatten_cons, List.flatten_nil, List.append_nil, List.map_cons, List.map_nil,
      ← List.append_assoc, List.take_append_drop]
  · exact msg.bytes_ne_nil (List.prefix_nil.mp h)

end RequestParser

end Httpd
