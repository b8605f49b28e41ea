import Httpd.App.Routes
import Httpd.Server.Sequential
import Httpd.Tools.Loadgen

/-! # The closed loop

A connection of the load generator and a connection of the server, with a network in between that
delivers bytes in order and in any pieces. Whatever the order of events on both sides, the client
never finds a response that it cannot read or has not asked for, its answers belong to its oldest
requests, and the two do not come to rest before the deadline.
-/

namespace Httpd

open Incremental Transcript Relation

variable {ω σ : Type}

/-- A response whose head announces its length, with a status of three digits. -/
structure LengthFramed (req : Request) (res : Response σ) (opts : HeadOptions) : Prop where
  method : req.method ≠ text "HEAD"
  headers : res.headers.Clean
  date : ∀ c ∈ opts.date, isCtl c = false
  framing : (framingOf res opts).1 = .contentLength
  status_ge : 100 ≤ res.status
  status_lt : res.status < 1000
  size : (headText res opts).length + res.length < 2 ^ 64

def Reply.Measured : Reply σ → Prop
  | .answer req res opts => LengthFramed req res opts
  | _ => False

/-- What is still to come from a source of announced length, unless the reply was cut short. -/
def Source.Owes (n : ℕ) (closed : Bool) : Source σ → Prop
  | .idle => n = 0 ∨ closed = true
  | .file _ _ left => left = n
  | .stream _ _ c => c.left? = some n

/-- A reply has been written up to what its source owes. -/
def Reply.Written : Reply σ → Bytes → Source σ → Bool → Prop
  | .answer _ res opts, b, src, closed =>
    ∃ body n, b = headText res opts ++ body ∧ body.length + n = res.length ∧ src.Owes n closed
  | _, _, _, _ => True

variable {srv : Server ω σ} {F : (Fd → Bytes) → Prop} {req : Request} {res : Response σ}
  {opts : HeadOptions} {body b : Bytes} {r : Reply σ}

theorem LengthFramed.reads (h : LengthFramed req res opts) (hbody : body.length = res.length) :
    Loadgen.Reads (headText res opts ++ body) res.status := by
  have hdel : (headFields res opts).filter delimits =
      [(text "Content-Length", appendNumber 10 res.length)] := by
    rw [filter_delimits_headFields, ← framingOf_length h.framing]
    have hframing := h.framing
    generalize framingOf res opts = f at hframing
    obtain ⟨f, n⟩ := f
    cases hframing
    rfl
  have hsize := h.size
  rw [headText_eq] at hsize ⊢
  exact Loadgen.reads_responseHead h.status_ge h.status_lt (headFields_clean h.headers h.date) hdel
    hbody (by rwa [List.length_append, hbody])

theorem LengthFramed.begun (h : LengthFramed req res opts) (hbody : body.length < res.length) :
    Code.Begun Loadgen.Reads (headText res opts ++ body) := by
  have hpad : (body ++ List.replicate (res.length - body.length) 0).length = res.length := by
    simp
    omega
  refine ⟨_, _, h.reads hpad, ?_, ?_⟩
  · rw [List.prefix_append_right_inj]
    exact List.prefix_append _ _
  · rw [List.length_append, List.length_append, hpad]
    omega

theorem Reply.Written.reads_or_begun {src : Source σ} {closed : Bool} (h : r.Written b src closed)
    (hm : r.Measured) : Loadgen.Reads b r.status ∨ Code.Begun Loadgen.Reads b := by
  cases r with
  | interim => cases hm
  | failure => cases hm
  | answer req res opts =>
    obtain ⟨body, n, rfl, hlen, -⟩ := h
    rcases Nat.eq_zero_or_pos n with rfl | hpos
    · exact .inl (LengthFramed.reads hm hlen)
    · exact .inr (LengthFramed.begun hm (by omega))

theorem Reply.Measured.opening (hm : r.Measured) (closed : Bool) :
    r.Written r.opening.1 r.opening.2 closed := by
  cases r with
  | interim => cases hm
  | failure => cases hm
  | answer req res opts =>
    have hm : LengthFramed req res opts := hm
    have hopen : (req.method != text "HEAD" && (framingOf res opts).1 != .none) = true := by
      simp [hm.method, hm.framing]
    simp only [Reply.opening, hopen, if_true, Reply.Written]
    unfold Response.immediate Response.source Response.length
    cases hfile : res.file with
    | some fd =>
      refine ⟨[], res.fileLength, by simp, by simp, ?_⟩
      dsimp only
      split
      · next h0 => exact .inl h0
      · rfl
    | none =>
      cases hprod : res.producer with
      | none => exact ⟨res.body, 0, by simp, by simp, .inl rfl⟩
      | some p =>
        cases hlen : res.streamLength with
        | some n =>
          refine ⟨[], n, by simp, by simp, ?_⟩
          dsimp only
          split
          · next h0 => exact .inl h0
          · rfl
        | none =>
          have hframing := hm.framing
          simp only [framingOf, hfile, hprod, hlen] at hframing
          split at hframing
          · cases hframing
          · cases hc : opts.http10Client <;> simp [hc] at hframing

theorem keeps_written : Transcript.State.Keeps (discipline srv F)
    (fun r b => r.Measured → Loadgen.Reads b r.status)
    (fun r b src closed => r.Measured → r.Written b src closed) where
  opens := by
    rintro r b src h hm
    obtain ⟨rfl, rfl⟩ := Prod.mk.inj h
    exact hm.opening _
  emits := by
    intro r b src closed b' src' _ hlast he hm
    cases r with
    | interim => cases hm
    | failure => cases hm
    | answer req res opts =>
      obtain ⟨body, n, rfl, hlen, howes⟩ := hlast hm
      refine ⟨body ++ b', n - b'.length, by rw [List.append_assoc], ?_⟩
      cases he with
      | file _ _ hle =>
        obtain rfl : _ = n := howes
        refine ⟨by rw [List.length_append]; omega, ?_⟩
        split
        · next h0 => exact .inl h0
        · rfl
      | @piece p next piece tr tr' c _ _ hlt =>
        cases c with
        | sized left =>
          obtain rfl : left = n := Option.some.inj howes
          have := hlt left rfl
          simp only [Coding.frame, List.length_append]
          exact ⟨by omega, rfl⟩
        | chunked => cases howes
        | plain => cases howes
      | @last p next more piece tr tr' c _ _ _ heq =>
        cases c with
        | sized left =>
          obtain rfl : left = n := Option.some.inj howes
          have := heq left rfl
          simp only [Coding.frame, Coding.ending, List.append_nil, List.length_append]
          exact ⟨by omega, .inl (by omega)⟩
        | chunked => cases howes
        | plain => cases howes
  truncates := by
    intro r b src closed b' _ hlast ht hm
    cases r with
    | interim => cases hm
    | failure => cases hm
    | answer req res opts =>
      obtain ⟨body, n, rfl, hlen, howes⟩ := hlast hm
      cases ht with
      | @short p next piece tr tr' left _ hlt =>
        obtain rfl : left = n := Option.some.inj howes
        exact ⟨body ++ b', left - b'.length, by rw [List.append_assoc],
          by rw [List.length_append]; omega, .inr rfl⟩
  finished := by
    intro r b hlast hm
    cases r with
    | interim => cases hm
    | failure => cases hm
    | answer req res opts =>
      obtain ⟨body, n, rfl, hlen, rfl | hfalse⟩ := hlast hm
      · exact LengthFramed.reads hm hlen
      · cases hfalse

theorem invariant_written (srv : Server ω σ) (A : Moment ω → Kernel → Prop) :
    Session.Invariant srv A fun s => s.conn.Kept ∧
      Transcript.State.Shape (discipline srv fun _ => True)
        (fun r b => r.Measured → Loadgen.Reads b r.status)
        (fun r b src closed => r.Measured → r.Written b src closed) s.transcript :=
  Session.invariant_transcript (by simp) keeps_written

theorem Loadgen.begun_nil : Code.Begun Loadgen.Reads [] := by
  have hread : Loadgen.Reads (responseHead 200 [(text "Content-Length", appendNumber 10 0)] ++ [])
      ((200 : ℕ) : ℤ) := by
    refine Loadgen.reads_responseHead (by decide) (by decide) ?_ ?_ rfl (by decide +kernel)
    · rintro f hf
      rw [List.mem_singleton.mp hf]
      exact .of_all rfl rfl
    · rfl
  exact ⟨_, _, hread, List.nil_prefix, by decide⟩

def Session.statuses (s : Session σ) : List ℤ := s.log.map fun e => (e.1.status : ℤ)

/-- What a connection has put out, for the reader of the load generator. -/
theorem Session.decodes {s : Session σ} (h : Transcript.State.Shape (discipline srv F)
      (fun r b => r.Measured → Loadgen.Reads b r.status)
      (fun r b src closed => r.Measured → r.Written b src closed) s.transcript)
    (hm : ∀ e ∈ s.log, e.1.Measured) :
    ∃ sts, sts <+: s.statuses ∧ Code.Decodes Loadgen.Reads (s.sent ++ s.conn.pending) sts := by
  have hflat : s.sent ++ s.conn.pending = (s.log.map Prod.snd).flatten := h.flat
  rw [hflat]
  rcases h.entries with ⟨hlog, -, -⟩ | ⟨l, r, b, hlog, hl, hlast, -⟩
  · have hlog : s.log = [] := hlog
    exact ⟨[], List.nil_prefix, by simpa [hlog] using Code.Decodes.of_begun Loadgen.begun_nil⟩
  · have hlog : s.log = l ++ [(r, b)] := hlog
    rw [hlog] at hm ⊢
    have hwords : List.Forall₂ Loadgen.Reads (l.map Prod.snd)
        (l.map fun e => (e.1.status : ℤ)) := by
      rw [List.forall₂_map_left_iff, List.forall₂_map_right_iff]
      exact List.forall₂_same.mpr fun e he => (hl e he).1 (hm e (List.mem_append_left _ he))
    rcases (hlast (hm (r, b) (by simp))).reads_or_begun (hm (r, b) (by simp)) with hread | hbegun
    · refine ⟨s.statuses, List.prefix_rfl, (l ++ [(r, b)]).map Prod.snd, [], by simp, ?_,
        Loadgen.begun_nil⟩
      rw [Session.statuses, hlog, List.map_append, List.map_append]
      exact List.rel_append hwords (.cons hread .nil)
    · refine ⟨l.map fun e => (e.1.status : ℤ), ?_, l.map Prod.snd, b, by simp, hwords, hbegun⟩
      rw [Session.statuses, hlog, List.map_append]
      exact List.prefix_append _ _

open RequestParser

/-- On a stream that the parser reads to its end, without a request that expects an interim
response, every reply answers a request. -/
structure Intake.Plain (srv : Server ω σ) (A : Moment ω → Kernel → Prop) (i : Intake σ) : Prop where
  tracks : i.Tracks srv
  announced : i.parser.Announced
  replies : ∀ x, i.received <+: x → NoExpect srv x → (parseAll srv x).1.failed = false →
    ∀ r ∈ i.replies, ∃ m k n req, A m k ∧ r = answerTo srv m n req

variable {A : Moment ω → Kernel → Prop}

theorem Intake.Plain.step {m : Moment ω} {k : Kernel} {i j : Intake σ} (hl : srv.limits.NoWrap)
    (hA : A m k) (h : i.Plain srv A) (hstep : i.Step srv m j) : j.Plain srv A := by
  have htracks := h.tracks.step hl hstep
  have hsay {r : Reply σ} (hr : ∃ m k n req, A m k ∧ r = answerTo srv m n req) {x : Bytes}
      (hx : i.received <+: x) (hno : NoExpect srv x) (hok : (parseAll srv x).1.failed = false) :
      ∀ r' ∈ i.replies ++ [r], ∃ m k n req, A m k ∧ r' = answerTo srv m n req := by
    intro r' hr'
    rcases List.mem_append.mp hr' with hr' | hr'
    · exact h.replies x hx hno hok r' hr'
    · rwa [List.mem_singleton.mp hr']
  cases hstep with
  | recv d =>
    exact ⟨htracks, h.announced, fun x hx => h.replies x ((List.prefix_append _ _).trans hx)⟩
  | feed => exact ⟨htracks, h.announced.feed _, h.replies⟩
  | interim _ he _ _ =>
    refine ⟨htracks, h.announced, fun x hx hno => ?_⟩
    obtain ⟨d, hd⟩ := h.tracks.parseAll hx
    obtain ⟨req, hmem, hhas⟩ := has_pipeline (h.announced he) i.requests d
    rw [← hd] at hmem
    cases (hno req hmem).symm.trans hhas
  | answer n =>
    refine ⟨htracks, by simp [Announced, Intake.say, Intake.reset, RequestParser.reset], ?_⟩
    exact fun x hx hno hok => hsay ⟨m, k, n, _, hA, rfl⟩ hx hno hok
  | reject n _ _ hf =>
    refine ⟨htracks, h.announced.feed _, fun x hx _ hok => ?_⟩
    -- a parser that has failed stays failed to the end of the stream
    obtain ⟨d, hd⟩ := htracks.parseAll hx
    have hf : (i.feed.say (failureOf m n i.feed.parser)).parser.failed = true := hf
    rw [hd, pipeline_feed_failed hf] at hok
    cases hok.symm.trans hf
  | close => exact ⟨htracks, h.announced, h.replies⟩

theorem Intake.Step.received_prefix {m : Moment ω} {i j : Intake σ} (h : i.Step srv m j) :
    i.received <+: j.received := by
  cases h with
  | recv d => exact List.prefix_append _ _
  | _ => exact List.prefix_rfl

theorem Session.invariant_plain (hl : srv.limits.NoWrap) :
    Invariant srv A fun s => s.intake.Plain srv A := by
  apply invariant_intake
  · refine ⟨(invariant_tracks (A := fun _ _ => True) hl).accepted 0, ?_, fun x _ _ _ r hr => ?_⟩
    · simp [Announced, intake, accepted]
    · cases hr
  · exact fun hA hi hstep => hi.step hl hA hstep

namespace Loadgen

/-- The path and the host are such that the request is well formed and within the limits. -/
structure Options.Valid (l : ParserLimits) (opt : Options) : Prop where
  path_slash : opt.path.head? = some (ch '/')
  path_clean : ∀ c ∈ opt.path, 0x20 < c ∧ c ≠ 0x7f
  host_clean : ∀ c ∈ opt.host, isCtl c = false
  line_le : opt.path.length + 13 ≤ l.maxRequestLine
  bytes_le : opt.host.length + 31 ≤ l.maxHeaderBytes
  count_le : 2 ≤ l.maxHeaderCount

theorem Options.Valid.path_ne {l : ParserLimits} {opt : Options} (h : opt.Valid l) :
    opt.path ≠ [] := by
  intro hnil
  have := h.path_slash
  simp [hnil] at this

theorem isToken_userAgent : isToken (text "User-Agent") = true := by decide

theorem clean_loadgen : ∀ c ∈ text " loadgen", isCtl c = false := by decide +kernel

theorem clean_space_append {host : Bytes} (h : ∀ c ∈ host, isCtl c = false) :
    ∀ c ∈ SP :: host, isCtl c = false :=
  List.forall_mem_cons.mpr ⟨rfl, h⟩

def Options.Valid.requestLine {l : ParserLimits} {opt : Options} (h : opt.Valid l) : RequestLine :=
  { RequestParser.shortestLine with
    method := text "GET"
    target := opt.path
    method_token := isToken_get
    target_ne := h.path_ne
    target_clean := h.path_clean
    form := .origin h.path_slash }

def Options.Valid.fields {l : ParserLimits} {opt : Options} (h : opt.Valid l) : List FieldLine :=
  [⟨text "Host", SP :: opt.host, isToken_host, clean_space_append h.host_clean⟩,
    ⟨text "User-Agent", text " loadgen", isToken_userAgent, clean_loadgen⟩]

theorem Options.Valid.requestLine_le {l : ParserLimits} {opt : Options} (h : opt.Valid l) :
    h.requestLine.line.length ≤ l.maxRequestLine := by
  have := h.line_le
  simp [requestLine, RequestParser.shortestLine, RequestLine.line, httpVersion, text]
  omega

theorem Options.Valid.fieldBytes_le {l : ParserLimits} {opt : Options} (h : opt.Valid l) :
    (fieldBytes h.fields).length + 2 ≤ l.maxHeaderBytes := by
  have := h.bytes_le
  simp [fields, fieldBytes, FieldLine.line, text]
  omega

theorem Options.Valid.host_le {l : ParserLimits} {opt : Options} (h : opt.Valid l) :
    h.fields.countP FieldLine.isHost ≤ 1 := le_rfl

def Options.Valid.head {l : ParserLimits} {opt : Options} (h : opt.Valid l) : Head l where
  blanks := 0
  requestLine := h.requestLine
  fields := h.fields
  framing := .none
  line_le := h.requestLine_le
  bytes_le := h.fieldBytes_le
  count_le := h.count_le
  host_le := h.host_le
  host_pos _ := Nat.one_pos
  frames := ⟨rfl, rfl⟩
  fits := BodyFraming.none_fits _

theorem Options.Valid.head_bytes {l : ParserLimits} {w : Worker} (h : w.opt.Valid l) :
    h.head.bytes = w.request := by
  simp [HeadLines.bytes, head, requestLine, RequestParser.shortestLine, fields, RequestLine.line,
    fieldBytes, FieldLine.line, httpVersion, Worker.request, text, kCRLF, ch, CR, LF, SP]

def Options.Valid.message {l : ParserLimits} {opt : Options} (h : opt.Valid l) : Message l where
  head := h.head
  content := .plain [] BodyFraming.noConfusion rfl

theorem Options.Valid.message_bytes {l : ParserLimits} {w : Worker} (h : w.opt.Valid l) :
    h.message.bytes = w.request := by
  rw [Message.bytes, ← h.head_bytes]
  exact List.append_nil _

theorem Options.Valid.parseAll_replicate {w : Worker} (h : w.opt.Valid srv.limits)
    (hl : srv.limits.maxBodyBytes < 2 ^ 63) (n : ℕ) :
    parseAll srv (List.replicate n w.request).flatten =
      ({ limits := srv.limits }, List.replicate n h.message.request) := by
  have hall := parseAll_messages rfl hl (List.replicate n h.message)
  rwa [List.map_replicate, List.map_replicate, h.message_bytes] at hall

theorem Options.Valid.noExpect {w : Worker} (h : w.opt.Valid srv.limits)
    (hl : srv.limits.maxBodyBytes < 2 ^ 63) (n : ℕ) :
    NoExpect srv (List.replicate n w.request).flatten := by
  have hrequest : h.message.request.headers.has (text "Expect") = false := by
    change (foldFields .empty h.head.fields).has (text "Expect") = false
    rw [Headers.has_eq_isSome_get, get_foldFields_empty]
    rfl
  intro req hreq
  rw [h.parseAll_replicate hl] at hreq
  rcases List.mem_cons.mp hreq with rfl | hreq
  · rfl
  · rw [List.eq_of_mem_replicate hreq]
    exact hrequest

/-- A step of the client. The loops of `service` take one for each call. -/
inductive Worker.Move (w : Worker) : Client → Client → Prop where
  | recv {c : Client} (d : Bytes) : Move w c (c.receive d)
  | consume {c c' : Client} (fuel : ℕ) (verdict : Verdict) :
      w.consumeResponses fuel c = .ok (verdict, c') → Move w c c'
  | send {c : Client} (n : ℕ) : n ≤ c.out.length - c.outOff → Move w c (c.transmit n)
  | clear {c : Client} : Move w c c.clearOut

inductive Phase (ω : Type) where
  | rest
  | driving (m : Moment ω) (k : Kernel)
  | closed

structure System (ω σ : Type) where
  client : Client
  session : Session σ
  phase : Phase ω

namespace System

/-- Each side takes its steps; the bytes that one has received are a front of those that the
other has sent. The server may give up the connection at any time. -/
inductive Step (srv : Server ω σ) (A : Moment ω → Kernel → Prop) (w : Worker) :
    System ω σ → System ω σ → Prop where
  | client {x : System ω σ} {c : Client} : w.Move x.client c → c.received <+: x.session.sent →
      Step srv A w x { x with client := c }
  | wake {x : System ω σ} {m : Moment ω} {k : Kernel} (readable writable : Bool)
      (metrics : WorkerMetrics) : x.phase = .rest → A m k →
      Step srv A w x { x with
        session := x.session.wake readable writable metrics k
        phase := .driving m k }
  | server {x : System ω σ} {m : Moment ω} {k : Kernel} {t : Session σ} :
      x.phase = .driving m k → x.session.Step srv m t → t.received <+: x.client.sent →
      Step srv A w x { x with session := t }
  | returns {x : System ω σ} {m : Moment ω} {k : Kernel} : x.phase = .driving m k →
      x.session.Quiet srv → x.session.finish = .ok (true, x.session) →
      Step srv A w x { x with phase := .rest }
  | close {x : System ω σ} : Step srv A w x { x with phase := .closed }

def start (srv : Server ω σ) (w : Worker) (now : ℕ) : System ω σ where
  client := w.opened
  session := .accepted srv now
  phase := .rest

def Reachable (srv : Server ω σ) (A : Moment ω → Kernel → Prop) (w : Worker) (x : System ω σ) :
    Prop := ∃ now, ReflTransGen (Step srv A w) (start srv w now) x

end System

/-- The server answers the request with responses of announced length. -/
structure Serves (srv : Server ω σ) (A : Moment ω → Kernel → Prop) (w : Worker) : Prop where
  noWrap : srv.limits.NoWrap
  body_lt : srv.limits.maxBodyBytes < 2 ^ 63
  valid : w.opt.Valid srv.limits
  measured : ∀ m k n, A m k → (answerTo srv m n valid.message.request).Measured

namespace System

/-- What both sides have sent and received, read and answered. -/
structure Sound (srv : Server ω σ) (A : Moment ω → Kernel → Prop) (w : Worker) (x : System ω σ) :
    Prop where
  kept : w.Kept x.client
  asked : x.session.received <+: x.client.sent
  delivered : x.client.received <+: x.session.sent
  decoded : ∃ us, x.client.received = us.flatten ++ x.client.inBuf ∧
    List.Forall₂ Reads us x.client.statuses
  plain : x.session.intake.Plain srv A
  written : x.session.conn.Kept ∧ Transcript.State.Shape (discipline srv fun _ => True)
    (fun r b => r.Measured → Reads b r.status)
    (fun r b src closed => r.Measured → r.Written b src closed) x.session.transcript
  driving : ∀ m k, x.phase = .driving m k → A m k ∧ k.Advances x.session.kernel
  resting : x.phase = .rest → x.session.received = [] ∨
    x.session.Quiet srv ∧ x.session.finish = .ok (true, x.session)

variable {w : Worker} {x y : System ω σ}

theorem Sound.replies (hw : Serves srv A w) (h : x.Sound srv A w) :
    x.session.intake.requests <+: List.replicate x.client.askedAt.length hw.valid.message.request ∧
      x.session.log.length = x.session.intake.requests.length ∧
      ∀ e ∈ x.session.log, e.1.Measured ∧
        e.1.request? = some hw.valid.message.request := by
  have hstream : x.session.received <+:
      (List.replicate x.client.askedAt.length w.request).flatten := by
    rw [← h.kept.asks]
    exact h.asked.trans (List.prefix_append _ _)
  have hall := hw.valid.parseAll_replicate hw.body_lt x.client.askedAt.length
  have hpre : x.session.intake.requests <+:
      List.replicate x.client.askedAt.length hw.valid.message.request := by
    obtain ⟨d, hd⟩ := h.plain.tracks.parseAll hstream
    have := delimiter.prefix_pipeline_feed (x.session.intake.parser, x.session.intake.requests) d
    change _ <+: (pipeline.feed _ d).1.2 at this
    rwa [← hd, hall] at this
  have hreplies := h.plain.replies _ hstream (hw.valid.noExpect hw.body_lt _) (by rw [hall]; rfl)
  have hrequests : x.session.intake.requests.length = x.session.intake.replies.length := by
    rw [Intake.requests, List.length_filterMap_eq_countP]
    refine List.countP_eq_length.mpr fun r hr => ?_
    obtain ⟨m, k, n, req, -, rfl⟩ := hreplies r hr
    rfl
  refine ⟨hpre, by simpa [Session.intake] using hrequests.symm, fun e he => ?_⟩
  have hmem : e.1 ∈ x.session.intake.replies := List.mem_map_of_mem he
  obtain ⟨m, k, n, req, hA, hreply⟩ := hreplies e.1 hmem
  have hreq : req ∈ x.session.intake.requests :=
    List.mem_filterMap.mpr ⟨e.1, hmem, by rw [hreply]; rfl⟩
  rw [hreply, List.eq_of_mem_replicate (hpre.subset hreq)]
  exact ⟨hw.measured m k n hA, rfl⟩

/-- What is in the input of the client: the responses that follow those it has read. -/
theorem Sound.input (hw : Serves srv A w) (h : x.Sound srv A w) : ∃ zs,
    Code.Decodes Reads x.client.inBuf zs ∧ x.client.statuses ++ zs <+: x.session.statuses ∧
      zs.length ≤ x.client.sentAt.length := by
  obtain ⟨hpre, hcount, hmeasured⟩ := h.replies hw
  obtain ⟨sts, hsts, hdec⟩ := x.session.decodes h.written.2 fun e he => (hmeasured e he).1
  obtain ⟨ys, hys, hdec⟩ := hdec.of_prefix (h.delivered.trans (List.prefix_append _ _))
  obtain ⟨us, hus, hwords⟩ := h.decoded
  rw [hus] at hdec
  obtain ⟨zs, rfl, hzs⟩ := hdec.drop reads_prefixFree hwords
  have hall := hys.trans hsts
  refine ⟨zs, hzs, hall, ?_⟩
  have hlen := hall.length_le
  have hle := hpre.length_le
  have hflight := congrArg List.length h.kept.flight
  simp only [Session.statuses, List.length_append, List.length_map, List.length_replicate,
    List.length_drop] at hlen hle hflight
  omega

theorem Sound.consumes (hw : Serves srv A w) (h : x.Sound srv A w) : ∃ us zs y,
    x.client.inBuf = us.flatten ++ y ∧ List.Forall₂ Reads us zs ∧ Code.Begun Reads y ∧
      zs.length ≤ x.client.sentAt.length ∧
      x.client.statuses ++ zs <+: x.session.statuses ∧
      ∀ fuel, zs.length < fuel → w.consumeResponses fuel x.client =
        .ok (.returned true, { zs.foldl w.reply x.client with inBuf := y }) := by
  obtain ⟨zs, ⟨us, y, hin, hwords, hy⟩, hpre, hroom⟩ := h.input hw
  refine ⟨us, zs, y, hin, hwords, hy, hroom, hpre, fun fuel hfuel => ?_⟩
  exact Worker.loop_consumePass hwords (by rwa [List.drop_zero]) hy hroom hfuel

theorem Sound.move (hw : Serves srv A w) (h : x.Sound srv A w) {c : Client}
    (hmove : w.Move x.client c) (hdel : c.received <+: x.session.sent) :
    Sound srv A w { x with client := c } := by
  cases hmove with
  | recv d =>
    obtain ⟨us, hus, hwords⟩ := h.decoded
    exact { h with
      kept := h.kept.receive d
      delivered := hdel
      decoded := ⟨us, by rw [Client.receive, hus, List.append_assoc], hwords⟩ }
  | consume fuel verdict hc =>
    obtain ⟨us, zs, y, hin, hwords, -, hroom, -, hall⟩ := h.consumes hw
    obtain ⟨vs, hvs, hread⟩ := h.decoded
    -- the call is the one that takes all whole responses
    have hmore :=
      Loop.Extends.loop (fun _ => .refl _) (Nat.le_add_right fuel (zs.length + 1)) _ _ hc
    have heq := hmore.symm.trans (hall (fuel + (zs.length + 1)) (by omega))
    obtain rfl : c = { zs.foldl w.reply x.client with inBuf := y } :=
      congrArg Prod.snd (Except.ok.inj heq)
    obtain ⟨hkept, hstatuses, hreceived, hsent⟩ := h.kept.replies hroom
    refine { h with kept := hkept.setInput y, asked := ?_, delivered := hdel, decoded := ?_ }
    · exact h.asked.trans (by rw [hsent])
    · refine ⟨vs ++ us, ?_, ?_⟩
      · rw [hreceived, hvs, hin, List.flatten_append, List.append_assoc]
      · rw [hstatuses]
        exact List.rel_append hread hwords
  | send n hn =>
    exact { h with
      kept := h.kept.transmit hn
      asked := h.asked.trans (List.prefix_append _ _)
      delivered := hdel }
  | clear =>
    have hframe : x.client.clearOut.received = x.client.received ∧
        x.client.clearOut.inBuf = x.client.inBuf ∧ x.client.clearOut.statuses = x.client.statuses ∧
        x.client.clearOut.sent = x.client.sent := by
      unfold Client.clearOut
      split <;> exact ⟨rfl, rfl, rfl, rfl⟩
    obtain ⟨hr, hi, hs, hb⟩ := hframe
    exact { h with
      kept := h.kept.clearOut
      asked := by simpa only [hb] using h.asked
      delivered := hdel
      decoded := by simpa only [hr, hi, hs] using h.decoded }

theorem Sound.step (hw : Serves srv A w) (h : x.Sound srv A w) (hstep : Step srv A w x y) :
    y.Sound srv A w := by
  have hplain : Session.Invariant srv A fun s => s.intake.Plain srv A :=
    Session.invariant_plain hw.noWrap
  have hwritten := invariant_written srv A
  cases hstep with
  | client hmove hdel => exact h.move hw hmove hdel
  | wake readable writable metrics hrest hA =>
    exact { h with
      plain := hplain.wake readable writable metrics _ h.plain
      written := hwritten.wake readable writable metrics _ h.written
      driving := by
        rintro m k ⟨⟩
        exact ⟨hA, .refl _⟩
      resting := by rintro ⟨⟩ }
  | server hphase hs hsent =>
    obtain ⟨hA, hk⟩ := h.driving _ _ hphase
    refine { h with
      asked := hsent
      delivered := ?_
      plain := hplain.step hA hk h.plain hs
      written := hwritten.step hA hk h.written hs
      driving := ?_
      resting := ?_ }
    · have htr := hs.transcript (F := fun _ => True) h.written.1 (by simp)
      exact h.delivered.trans (Transcript.State.Steps.sent_prefix htr)
    · intro m k hp
      cases hphase.symm.trans hp
      exact ⟨hA, hk.trans hs.advances⟩
    · intro hp
      cases hphase.symm.trans hp
  | returns hphase hq hfin =>
    exact { h with
      driving := by rintro m k ⟨⟩
      resting := fun _ => .inr ⟨hq, hfin⟩ }
  | close =>
    exact { h with
      driving := by rintro m k ⟨⟩
      resting := by rintro ⟨⟩ }

theorem sound_start (hw : Serves srv A w) (now : ℕ) : (start srv w now).Sound srv A w := by
  have hplain : Session.Invariant srv A fun s => s.intake.Plain srv A :=
    Session.invariant_plain hw.noWrap
  have hwritten := invariant_written srv A
  obtain ⟨times, -, hopen⟩ := w.iterate_enqueue w.opt.pipeline.toNat
  have hreceived : w.opened.received = [] := by rw [Worker.opened, hopen]
  have hin : w.opened.inBuf = [] := by rw [Worker.opened, hopen]
  have hstatuses : w.opened.statuses = [] := by rw [Worker.opened, hopen]
  exact {
    kept := w.kept_opened
    asked := List.nil_prefix
    delivered := by
      rw [start, hreceived]
      exact List.nil_prefix
    decoded := by
      rw [start, hreceived, hin, hstatuses]
      exact ⟨[], rfl, .nil⟩
    plain := hplain.accepted now
    written := hwritten.accepted now
    driving := by rintro m k ⟨⟩
    resting := fun _ => .inl rfl }

theorem Reachable.sound (hw : Serves srv A w) (h : x.Reachable srv A w) : x.Sound srv A w := by
  obtain ⟨now, hsteps⟩ := h
  induction hsteps with
  | refl => exact sound_start hw now
  | tail _ hstep ih => exact ih.step hw hstep

theorem received_consumeResponses {c c' : Client} {fuel : ℕ} {verdict : Verdict}
    (h : w.consumeResponses fuel c = .ok (verdict, c')) : c'.received = c.received := by
  have hmeets : Loop.Meets (fun _ => True) (fun r : Verdict × Client => r.2.received = c.received)
      (w.consumeResponses fuel c) := by
    refine Loop.loop_meets (I := fun p => p.1.received = c.received) (fun _ _ => trivial) ?_ fuel
      rfl
    rintro ⟨e, pos⟩ he
    unfold Worker.consumePass
    dsimp only
    repeat' split
    all_goals first | exact he | skip
    exact (Worker.answered_history ..).2.1.trans he
  rw [h] at hmeets
  exact hmeets

theorem received_prefix_of_move {c c' : Client} (h : w.Move c c') : c.received <+: c'.received := by
  cases h with
  | recv d => exact List.prefix_append _ _
  | consume fuel verdict hc => rw [received_consumeResponses hc]
  | send => exact List.prefix_rfl
  | clear =>
    unfold Client.clearOut
    split <;> exact List.prefix_rfl

theorem moves_drainInput {c c' : Client} {rs : List (Except Errno Bytes)} {ok : Bool}
    (h : c.drainInput rs = .ok (ok, c')) : ReflTransGen w.Move c c' := by
  induction rs generalizing c with
  | nil => cases h
  | cons r rs ih =>
    rcases r with (_ | _ | _) | d
    · exact ih h
    · cases h
      exact .refl
    · cases h
      exact .refl
    · rw [Client.drainInput] at h
      split at h
      · cases h
        exact .refl
      · exact .head (.recv _) (ih h)

theorem moves_flushOutput {c c' : Client} {ks : List (Except SendError ℕ)} {ok : Bool}
    (h : c.flushOutput ks = .ok (ok, c')) : ReflTransGen w.Move c c' := by
  induction ks generalizing c with
  | nil =>
    rw [Client.flushOutput] at h
    split at h
    · cases h
    · cases h
      exact .refl
  | cons k ks ih =>
    unfold Client.flushOutput at h
    split at h
    · rcases k with (_ | _ | _ | _) | room
      · cases h
        exact .refl
      · cases h
        exact .refl
      · exact ih h
      · cases h
        exact .refl
      · dsimp only at h
        split at h
        · exact .head (.send _ (Nat.min_le_right _ _)) (ih h)
        · cases h
          exact .refl
    · cases h
      exact .refl

theorem moves_service {c c' : Client} {fuel : ℕ} {err : Bool} {rs : List (Except Errno Bytes)}
    {ks : List (Except SendError ℕ)} {verdict : Verdict}
    (h : w.service fuel err rs ks c = .ok (verdict, c')) : ReflTransGen w.Move c c' := by
  have hmeets : Loop.Meets (fun _ => True) (fun r : Verdict × Client => ReflTransGen w.Move c r.2)
      (w.service fuel err rs ks c) := by
    unfold Worker.service
    split
    · exact ReflTransGen.refl
    · refine Loop.Meets.bind (Q := fun r => ReflTransGen w.Move c r.2)
        (Loop.meets_of_ok fun r hr => moves_drainInput hr) ?_
      rintro ⟨ok, c₁⟩ h₁
      dsimp only
      split
      · exact h₁
      · refine Loop.Meets.bind (Q := fun r => ReflTransGen w.Move c r.2)
          (Loop.meets_of_ok fun r hr => h₁.tail (.consume fuel r.1 hr)) ?_
        rintro ⟨v, c₂⟩ h₂
        dsimp only
        split
        · exact h₂
        · refine Loop.Meets.bind (Q := fun r => ReflTransGen w.Move c r.2)
            (Loop.meets_of_ok fun r hr => h₂.trans (moves_flushOutput hr)) ?_
          rintro ⟨ok, c₃⟩ h₃
          dsimp only
          split
          · exact h₃
          · exact h₃.tail .clear
  rw [h] at hmeets
  exact hmeets

theorem steps_moves {c : Client} (hmoves : ReflTransGen w.Move x.client c)
    (hdel : c.received <+: x.session.sent) :
    ReflTransGen (Step srv A w) x { x with client := c } := by
  induction hmoves with
  | refl => exact .refl
  | tail _ hmove ih =>
    exact (ih ((received_prefix_of_move hmove).trans hdel)).tail (.client hmove hdel)

/-- While the server is left alone, a call of `service` that receives what has been sent is a
sequence of steps. -/
theorem steps_service (srv : Server ω σ) (A : Moment ω → Kernel → Prop) {c : Client} {fuel : ℕ}
    {err : Bool} {rs : List (Except Errno Bytes)} {ks : List (Except SendError ℕ)}
    {verdict : Verdict}
    (h : w.service fuel err rs ks x.client = .ok (verdict, c))
    (hdel : c.received <+: x.session.sent) :
    ReflTransGen (Step srv A w) x { x with client := c } :=
  steps_moves (moves_service h) hdel

theorem received_prefix_of_step {m : Moment ω} {s t : Session σ} (h : s.Step srv m t) :
    s.received <+: t.received := by
  change s.intake.received <+: t.intake.received
  rcases h.intake with heq | hstep
  · rw [heq]
  · exact hstep.received_prefix

theorem steps_server {m : Moment ω} {k : Kernel} {t : Session σ} (hphase : x.phase = .driving m k)
    (hsteps : x.session.Steps srv m t) (hsent : t.received <+: x.client.sent) :
    ReflTransGen (Step srv A w) x { x with session := t } := by
  induction hsteps with
  | refl => exact .refl
  | tail _ hstep ih =>
    exact (ih ((received_prefix_of_step hstep).trans hsent)).tail (.server hphase hstep hsent)

/-- While the client is left alone, a call of `drive` that receives what the client has sent is a
sequence of steps. -/
theorem steps_drive {m : Moment ω} {k : Kernel} {readable writable ok : Bool} {t : Session σ}
    {metrics : WorkerMetrics} {fuel : ℕ} (hrest : x.phase = .rest) (hA : A m k)
    (h : (x.session.wake readable writable metrics k).drive srv m fuel = .ok (ok, t))
    (hsent : t.received <+: x.client.sent) :
    ∃ s, ReflTransGen (Step srv A w) x
      { x with session := s, phase := if ok then .rest else .closed } ∧ s.intake = t.intake ∧
        (ok = true → s = t) := by
  obtain ⟨u, hu, hend⟩ := Session.outcome_of_drive h
  have hwake : Step srv A w x _ := .wake readable writable metrics hrest hA
  have hintake : u.intake = t.intake := by
    rcases hend with ⟨-, hab⟩ | ⟨hfin, -⟩
    · exact hab.intake.symm
    · obtain ⟨rs, -, rfl⟩ := Session.finish_snd hfin
      rfl
  have hreceived : u.received = t.received := congrArg Intake.received hintake
  have hsteps := steps_server (A := A) (w := w) (x := { x with
    session := x.session.wake readable writable metrics k, phase := .driving m k }) rfl hu
    (by rwa [hreceived])
  have hall := (ReflTransGen.single hwake).trans hsteps
  cases ok with
  | false => exact ⟨u, hall.tail .close, hintake, by simp⟩
  | true =>
    rcases hend with ⟨hfalse, -⟩ | ⟨hfin, hq⟩
    · cases hfalse
    · obtain ⟨rfl, -⟩ := Session.finish_eq_true_iff.mp hfin
      exact ⟨t, hall.tail (.returns rfl hq hfin), rfl, fun _ => rfl⟩

/-- A load generator that keeps two requests of the health check in flight until its clock has
been read a few times. -/
def probe : Worker where
  opt := { pipeline := 2 }
  deadline := 5
  clock := id

def Brief (m : Moment World) (_ : Kernel) : Prop := ∀ n, (m.date n).length ≤ 29

theorem valid_probe : probe.opt.Valid (appServer {}).limits :=
  ⟨rfl, by decide +kernel, by decide +kernel, by decide, by decide, by decide⟩

theorem length_headText_probe (keepAlive : Bool) (date : Bytes) :
    (headText (Response.text 200 (text "ok\n") : Response Producer)
      { keepAlive := keepAlive, date := date }).length ≤ 200 + date.length := by
  have hframing : framingOf (Response.text 200 (text "ok\n") : Response Producer)
      { keepAlive := keepAlive, date := date } = (.contentLength, 3) := rfl
  have hdate : (if date.isEmpty then [] else text "Date: " ++ date ++ kCRLF).length ≤
      8 + date.length := by
    cases date.isEmpty
    · simp [text]
      omega
    · simp
  have hfirst : (statusLine 200).length + (((Response.text 200 (text "ok\n") :
      Response Producer).headers.fields.filter fun f => !isFramingHeader f.1).map
        fieldLine).flatten.length + (text "Server: httpd-cpp\r\n").length ≤ 80 := by decide
  have hlast : ∀ keepAlive, (framingLine (.contentLength, 3)).length +
      (connectionLine keepAlive false).length + kCRLF.length ≤ 80 := by decide
  have hserver : (Response.text 200 (text "ok\n") : Response Producer).headers.has
      (text "Server") = false := rfl
  have := hlast (keepAlive && true)
  unfold headText
  simp only [hframing, hserver, List.length_append, Bool.false_eq_true, if_false]
  change (statusLine 200).length + _ + _ + _ + _ +
    (connectionLine (keepAlive && true) false).length + kCRLF.length ≤ _
  omega

theorem serves_probe : Serves (appServer {}) Brief probe where
  noWrap := by decide
  body_lt := by decide
  valid := valid_probe
  measured m k n hA := by
    have hdispatch : (appServer {}).router.dispatch (m.world n) valid_probe.message.request =
        Response.text 200 (text "ok\n") := rfl
    rw [answerTo, hdispatch]
    refine ⟨by decide, .of_all rfl, m.date_clean n, rfl, by decide, by decide, ?_⟩
    refine (Nat.add_le_add_right (length_headText_probe _ _) _).trans_lt ?_
    have := hA n
    change 200 + (m.date n).length + 3 < 2 ^ 64
    omega

def arrived (d : Bytes) : List (Except Errno Bytes) :=
  if d = [] then [.error .eagain] else [.ok d, .error .eagain]

/-- The client reads what the server has sent, and the server what the client has. -/
def round (x : Client × Session Producer) : Option (Client × Session Producer) :=
  match probe.service 8 false (arrived (x.2.sent.drop x.1.received.length)) [.ok 1000] x.1 with
  | .ok (.returned true, c) =>
    let k : Kernel :=
      { recvs := arrived (c.sent.drop x.2.received.length), sends := [.ok 1000, .ok 1000] }
    match (x.2.wake true true {} k).drive (appServer {}) bareWorld 8 with
    | .ok (true, t) => if c.received <+: x.2.sent ∧ t.received <+: c.sent then some (c, t) else none
    | _ => none
  | _ => none

theorem steps_round {c : Client} {t : Session Producer} {x : System World Producer}
    (hrest : x.phase = .rest) (h : round (x.client, x.session) = some (c, t)) :
    ReflTransGen (Step (appServer {}) Brief probe) x
      { client := c, session := t, phase := .rest } := by
  unfold round at h
  split at h
  · next c' hc =>
    dsimp only at h
    split at h
    · next t' ht =>
      split_ifs at h with hdel
      cases h
      have hclient := steps_service (appServer {}) Brief hc hdel.1
      obtain ⟨s, hserver, -, hs⟩ := steps_drive (A := Brief) (w := probe) (m := bareWorld)
        (x := { x with client := c }) hrest (fun n => Nat.zero_le 29) ht hdel.2
      obtain rfl := hs rfl
      exact hclient.trans hserver
    · cases h
  · cases h

/-- The client asks twice and once more, the server answers, and the client has read all answers
when the deadline has passed. -/
theorem exists_exchange : ∃ x : System World Producer, x.Reachable (appServer {}) Brief probe ∧
    x.phase = .rest ∧ (x.session.received = x.client.sent ∧ x.session.conn.hasOutput = false) ∧
    (x.client.received = x.session.sent ∧ x.client.outOff = x.client.out.length ∧
      x.client.inBuf = []) ∧ x.client.statuses = [200, 200, 200] := by
  have hrounds : ((round (probe.opened, .accepted (appServer {}) 0)).any fun x₁ =>
      (round x₁).any fun x₂ => (round x₂).any fun x₃ =>
        x₃.2.received == x₃.1.sent && !x₃.2.conn.hasOutput && x₃.1.received == x₃.2.sent &&
          x₃.1.outOff == x₃.1.out.length && x₃.1.inBuf.isEmpty &&
          x₃.1.statuses == [200, 200, 200]) = true := by decide +kernel
  simp only [Option.any_eq_true, Bool.and_eq_true, beq_iff_eq, Bool.not_eq_true',
    List.isEmpty_iff] at hrounds
  obtain ⟨x₁, h₁, x₂, h₂, x₃, h₃, ⟨⟨⟨⟨hreceived, hout⟩, hgot⟩, hoff⟩, hin⟩, hstatuses⟩ := hrounds
  have hsteps := ((steps_round (x := start (appServer {}) probe 0) rfl h₁).trans
    (steps_round rfl h₂)).trans (steps_round rfl h₃)
  exact ⟨_, ⟨0, hsteps⟩, rfl, ⟨hreceived, hout⟩, ⟨hgot, hoff, hin⟩, hstatuses⟩

/-- In every order of events, the reader of the client finds only whole responses that it has
asked for. The responses are those of the server to the client's own requests, in their order;
and no more requests are in flight than the pipeline is deep. -/
theorem closed_loop_safe (hw : Serves srv A w) (hx : x.Reachable srv A w) :
    (∀ fuel, x.client.inBuf.length < fuel →
      ∃ c, w.consumeResponses fuel x.client = .ok (.returned true, c)) ∧
    x.client.statuses <+: x.session.statuses ∧
    x.session.log.length ≤ x.client.askedAt.length ∧
    (∀ e ∈ x.session.log, e.1.request? = some hw.valid.message.request) ∧
    w.Kept x.client := by
  have hsound := hx.sound hw
  obtain ⟨us, zs, y, hin, hwords, -, -, hpre, hall⟩ := hsound.consumes hw
  obtain ⟨hrequests, hcount, hmeasured⟩ := hsound.replies hw
  refine ⟨fun fuel hfuel => ⟨_, hall fuel ?_⟩, (List.prefix_append _ _).trans hpre, ?_,
    fun e he => (hmeasured e he).2, hsound.kept⟩
  · -- every response has at least one byte
    have hlen : zs.length ≤ us.flatten.length := by
      clear hin hpre hall
      induction hwords with
      | nil => simp
      | @cons u z us zs hu _ ih =>
        have := List.length_pos_iff.mpr (reads_prefixFree.ne_nil hu)
        simp only [List.length_cons, List.flatten_cons, List.length_append]
        omega
    rw [hin, List.length_append] at hfuel
    omega
  · rw [hcount]
    simpa using hrequests.length_le

theorem closed_loop_safe_probe : ∃ x : System World Producer,
    x.Reachable (appServer {}) Brief probe ∧ x.client.statuses = [200, 200, 200] ∧
      x.client.statuses <+: x.session.statuses := by
  obtain ⟨x, hx, -, -, -, hstatuses⟩ := exists_exchange
  exact ⟨x, hx, hstatuses, (closed_loop_safe serves_probe hx).2.1⟩

/-- The two do not wait for each other: as long as the connection is open and the deadline has
not been passed, something is under way or in the output of one of them. -/
theorem closed_loop_live (hw : Serves srv A w) (hx : x.Reachable srv A w)
    (hpipeline : 0 < w.opt.pipeline) (hrest : x.phase = .rest)
    (hserver : x.session.received = x.client.sent ∧ x.session.conn.hasOutput = false)
    (hclient : x.client.received = x.session.sent ∧ x.client.outOff = x.client.out.length ∧
      Code.Begun Reads x.client.inBuf) : w.Late x.client := by
  have hsound := hx.sound hw
  obtain ⟨hreceived, hout⟩ := hserver
  obtain ⟨hdelivered, hflushed, hbegun⟩ := hclient
  obtain ⟨-, hcount, hmeasured⟩ := hsound.replies hw
  have hkept := hsound.kept
  refine hkept.depth.resolve_left fun hdepth => ?_
  have hsent : x.client.sent = (List.replicate x.client.askedAt.length w.request).flatten := by
    rw [← hkept.asks, hflushed, List.drop_length, List.append_nil]
  have hflight := congrArg List.length hkept.flight
  rw [List.length_drop, hdepth] at hflight
  -- the session has been driven, since it has received a request
  have hne : x.session.received ≠ [] := by
    obtain ⟨n, hn⟩ := Nat.exists_eq_succ_of_ne_zero (n := x.client.askedAt.length) (by omega)
    rw [hreceived, hsent, hn, List.replicate_succ, List.flatten_cons]
    simp [Worker.request, text]
  obtain ⟨hq, hfin⟩ := (hsound.resting hrest).resolve_left hne
  have hopen : x.session.conn.closeAfterWrite = false :=
    ((Session.finish_eq_true_iff.mp hfin).2.resolve_left (by simp [hout])).1
  -- so that every request has been answered, and every answer has been read
  have hanswered : x.session.log.length = x.client.askedAt.length := by
    have hall := hq.pipeline_received hsound.plain.tracks hout hopen
    rw [hreceived, hsent] at hall
    have hall := hall.symm.trans (hw.valid.parseAll_replicate hw.body_lt _)
    have hrequests : x.session.intake.requests = _ := congrArg Prod.snd hall
    rw [hcount, hrequests, List.length_replicate]
  have hread : x.client.statuses = x.session.statuses := by
    obtain ⟨us, hus, hwords⟩ := hsound.decoded
    refine Code.Decodes.unique reads_prefixFree ⟨us, _, hus, hwords, hbegun⟩ ?_
    have hflat : x.session.sent ++ x.session.conn.pending =
        (x.session.log.map Prod.snd).flatten := hsound.written.2.flat
    rw [hdelivered, ← List.append_nil x.session.sent, ← Session.pending_of_not_hasOutput hout,
      hflat]
    refine ⟨_, [], (List.append_nil _).symm, ?_, begun_nil⟩
    have hfinished := hsound.written.2.finished keeps_written (Session.source_idle hout) hopen
    rw [Session.statuses, List.forall₂_map_left_iff, List.forall₂_map_right_iff]
    exact List.forall₂_same.mpr fun e he => (hfinished e he).1 (hmeasured e he).1
  have hlen := congrArg List.length hread
  rw [Session.statuses, List.length_map, hanswered] at hlen
  omega

theorem closed_loop_live_probe : ∃ x : System World Producer,
    x.Reachable (appServer {}) Brief probe ∧ x.client.statuses = [200, 200, 200] ∧
      probe.Late x.client := by
  obtain ⟨x, hx, hrest, hserver, ⟨hgot, hoff, hin⟩, hstatuses⟩ := exists_exchange
  exact ⟨x, hx, hstatuses, closed_loop_live serves_probe hx (by decide) hrest hserver
    ⟨hgot, hoff, by rw [hin]; exact begun_nil⟩⟩

end System

end Loadgen

end Httpd
