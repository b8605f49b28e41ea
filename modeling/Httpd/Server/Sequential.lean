import Httpd.Parser.Messages
import Httpd.Server.Allow
import Httpd.Server.Answers

/-! # The sequential reference

A sequential server has the whole of a stream before it answers the requests in it, one after
the other, and stops at the first response that closes the connection. What a connection sends
is a prefix of what the sequential server sends, however the stream is cut, whatever the system
calls return and whenever the worker is woken; and it is all of that when the output is drained
and no input is missing.
-/

namespace Httpd

open Incremental Transcript

variable {ω σ : Type}

namespace RequestParser

variable {p q : RequestParser} {u rest : Bytes} {n : ℕ}

/-- Fields stay, and an interim response is asked for by a field. -/
theorem Reads.expect (h : p.Reads u q) :
    (∀ name, p.req.headers.has name = true → q.req.headers.has name = true) ∧
      (q.req.expectContinue = true → p.req.expectContinue = true ∨
        q.req.headers.has (text "Expect") = true) := by
  cases h with
  | blank => exact ⟨fun _ => id, .inl⟩
  | requestLine _ _ _ _ hq =>
    obtain ⟨_, _, _, _, _, _, _, _, _, _, _, rfl⟩ := parseRequestLine_ok hq
    exact ⟨fun _ => id, .inl⟩
  | field _ _ _ _ _ hq =>
    obtain ⟨_, _, _, ⟨_, _, rfl⟩ | ⟨_, rfl⟩⟩ := parseFieldLine_ok hq
    · exact ⟨fun name hn => by simpa [Headers.has_add] using .inl hn, .inl⟩
    · exact ⟨fun _ => id, .inl⟩
  | finish _ _ hq =>
    unfold finishHeaders at hq
    split at hq
    · cases hq
    · cases hq
      refine ⟨fun _ => id, fun he => .inr ?_⟩
      simp only [Bool.and_eq_true, countLine_req] at he
      rw [Headers.has_eq_isSome_get]
      cases hget : p.req.headers.get (text "Expect") with
      | none => simp [hget, expectsContinue] at he
      | some _ => simp [hget]
  | trailersEnd => exact ⟨fun _ => id, .inl⟩
  | data => rw [takeData_req]; exact ⟨fun _ => id, .inl⟩
  | dataEnd => exact ⟨fun _ => id, .inl⟩
  | chunkSize _ _ _ hq =>
    obtain ⟨_, _, ⟨_, rfl⟩ | ⟨_, _, _, rfl⟩⟩ := parseChunkSize_ok hq <;>
      exact ⟨fun _ => id, .inl⟩

theorem has_feed {name : Bytes} (h : p.req.headers.has name = true) (d : Bytes) :
    (p.feed d).1.req.headers.has name = true :=
  feed_keeps (I := fun p => p.req.headers.has name = true) (fun hu => hu.expect.1 name)
    (fun hf hp => by rwa [hf.req]) h d

def Announced (p : RequestParser) : Prop :=
  p.req.expectContinue = true → p.req.headers.has (text "Expect") = true

theorem Announced.feed (h : p.Announced) (d : Bytes) : (p.feed d).1.Announced := by
  refine feed_keeps (fun hu hp he => ?_) (fun hf hp => ?_) h d
  · exact (hu.expect.2 he).elim (fun h => hu.expect.1 _ (hp h)) id
  · rwa [Announced, hf.req]

/-- A request that carries a field is among those of the pipeline, or it is the last one. -/
theorem has_pipeline {name : Bytes} (h : p.req.headers.has name = true) (rs : List Request)
    (d : Bytes) : ∃ req ∈ (pipeline.feed (p, rs) d).1.1.req :: (pipeline.feed (p, rs) d).1.2,
      req.headers.has name = true := by
  have hfeed : (machine.feed p d).1.req.headers.has name = true := has_feed h d
  rcases delimiter.step_cases (p, rs) d with ⟨_, hs⟩ | ⟨_, x, p', ht, hs⟩ | ⟨_, _, hs⟩
  · rw [show pipeline.feed (p, rs) d = _ from pipeline.feed_stop hs]
    exact ⟨_, List.mem_cons_self, hfeed⟩
  · have hx : x = (machine.feed p d).1.req := by
      simp only [delimiter, take] at ht
      split at ht <;> cases ht
      rfl
    have hpre := delimiter.prefix_pipeline_feed (p', rs ++ [x]) (d.drop (machine.feed p d).2)
    rw [show pipeline.feed (p, rs) d = _ from pipeline.feed_more hs]
    exact ⟨x, List.mem_cons_of_mem _ (hpre.subset (by simp)), hx ▸ hfeed⟩
  · rw [show pipeline.feed (p, rs) d = _ from pipeline.feed_stop hs]
    exact ⟨_, List.mem_cons_self, hfeed⟩

end RequestParser

open RequestParser

/-- What a server makes of the whole of a stream: the requests and the parser at the end. -/
def parseAll (srv : Server ω σ) (x : Bytes) : RequestParser × List Request :=
  (pipeline.feed ({ limits := srv.limits }, []) x).1

theorem exists_forall₂ {α β : Type*} {P : α → β → Prop} {as : List α}
    (h : ∀ a ∈ as, ∃ b, P a b) : ∃ bs, List.Forall₂ P as bs := by
  induction as with
  | nil => exact ⟨[], .nil⟩
  | cons a as ih =>
    obtain ⟨⟨b, hb⟩, has⟩ := List.forall_mem_cons.mp h
    obtain ⟨bs, hbs⟩ := ih has
    exact ⟨b :: bs, .cons hb hbs⟩

/-- The parser makes of messages their requests, and is ready for more. -/
theorem parseAll_messages {srv : Server ω σ} {l : ParserLimits} (hsrv : srv.limits = l)
    (hl : l.maxBodyBytes < 2 ^ 63) (msgs : List (Message l)) :
    parseAll srv (msgs.map Message.bytes).flatten =
      ({ limits := l }, msgs.map Message.request) := by
  have hmsgs : List.Forall₂ (fun u R => ∃ msg : Message l, msg.bytes = u ∧ msg.request = R)
    (msgs.map Message.bytes) (msgs.map Message.request) := forall₂_exists_iff.mpr ⟨msgs, rfl, rfl⟩
  have hfeed := (reads_messages hl).feed_messages hmsgs [] []
  have hwaits : pipeline.feed ({ limits := l }, msgs.map Message.request) [] = _ :=
    pipeline_feed_waits (waits_fresh l) rfl
  rw [List.append_nil, List.nil_append] at hfeed
  rw [parseAll, hsrv]
  change (delimiter.pipeline.feed _ _).1 = _
  rw [hfeed, shift_fst]
  exact congrArg Prod.fst hwaits

/-- No request of the stream has an `Expect` field, be it complete or not. -/
def NoExpect (srv : Server ω σ) (x : Bytes) : Prop :=
  ∀ req ∈ (parseAll srv x).1.req :: (parseAll srv x).2, req.headers.has (text "Expect") = false

instance (srv : Server ω σ) (x : Bytes) : Decidable (NoExpect srv x) :=
  inferInstanceAs (Decidable (∀ _ ∈ _, _))

def sequentialAnswer (srv : Server ω σ) (w : ω) (date : Bytes) (req : Request) : Reply σ :=
  .answer req (srv.router.dispatch w req)
    { keepAlive := req.keepAlive, http10Client := req.isHttp10, date := date }

def sequentialFailure (date : Bytes) (p : RequestParser) : Reply σ :=
  .failure (Session.errorResponse (statusFor p.error) p.errorDetail)
    { keepAlive := false, date := date }

def repliesOf (srv : Server ω σ) (w : ω) (date : Bytes) (q : RequestParser × List Request) :
    List (Reply σ) :=
  q.2.map (sequentialAnswer srv w date) ++
    if q.1.failed && !q.1.threw then [sequentialFailure date q.1] else []

/-- The replies of the sequential server, the last of which is the first that closes. -/
def sequentialReplies (srv : Server ω σ) (w : ω) (date x : Bytes) : List (Reply σ) :=
  upToClose Reply.closes (repliesOf srv w date (parseAll srv x))

/-- The date, the files and what handlers look at do not change, and the worker serves on. -/
structure Steady (w : ω) (date : Bytes) (files : Fd → Bytes) (m : Moment ω) (k : Kernel) : Prop where
  draining : m.draining = false
  world : ∀ j, m.world j = w
  date : ∀ j, m.date j = date
  files : ∀ room files', .ok (room, files') ∈ k.sendfiles → files' = files

variable {srv : Server ω σ} {w : ω} {date x : Bytes} {files : Fd → Bytes} {m : Moment ω}
  {k : Kernel}

theorem Steady.answerTo (h : Steady w date files m k) (j : ℕ) (req : Request) :
    answerTo srv m j req = sequentialAnswer srv w date req := by
  simp [Httpd.answerTo, sequentialAnswer, h.draining, h.world, h.date]

theorem Steady.failureOf (h : Steady w date files m k) (j : ℕ) (p : RequestParser) :
    (failureOf m j p : Reply σ) = sequentialFailure date p := by
  simp [Httpd.failureOf, sequentialFailure, h.date]

namespace Intake

variable {i j : Intake σ}

/-- As long as the input is a prefix of the stream, the replies are those for the point that the
parser has come to. -/
structure Follows (srv : Server ω σ) (w : ω) (date x : Bytes) (i : Intake σ) : Prop where
  tracks : i.Tracks srv
  announced : i.parser.Announced
  replies : i.received <+: x → i.replies = repliesOf srv w date (i.parser, i.requests)

theorem Follows.not_failed (h : i.Follows srv w date x) (hc : i.closing = false) :
    i.parser.failed = false := by
  cases hf : i.parser.failed with
  | false => rfl
  | true => rw [h.tracks.failed hf] at hc; cases hc

theorem Follows.replies_open (h : i.Follows srv w date x) (hc : i.closing = false)
    (hr : i.received <+: x) : i.replies = i.requests.map (sequentialAnswer srv w date) := by
  have hreplies := h.replies hr
  simpa only [repliesOf, h.not_failed hc, Bool.false_and, Bool.false_eq_true, if_false,
    List.append_nil] using hreplies

theorem Tracks.parseAll (h : i.Tracks srv) (hx : i.received <+: x) :
    ∃ d, parseAll srv x = (pipeline.feed (i.parser, i.requests) d).1 := by
  obtain ⟨b, rfl⟩ := hx
  obtain ⟨n, hn⟩ := h.follows
  exact ⟨i.inBuf ++ b, by rw [Httpd.parseAll, hn, shift_fst]⟩

theorem Follows.step (hl : srv.limits.NoWrap) (hx : NoExpect srv x)
    (hA : Steady w date files m k) (h : i.Follows srv w date x) (hstep : i.Step srv m j) :
    j.Follows srv w date x := by
  have htracks := h.tracks.step hl hstep
  have hreplies := h.replies
  cases hstep with
  | recv d _ _ _ =>
    exact ⟨htracks, h.announced, fun hd => hreplies ((List.prefix_append _ _).trans hd)⟩
  | feed hc _ hf _ =>
    refine ⟨htracks, h.announced.feed _, fun hr => (hreplies hr).trans ?_⟩
    simp only [repliesOf, h.not_failed hc, hf]
    rfl
  | interim _ he _ _ =>
    refine ⟨htracks, h.announced, fun hr => ?_⟩
    obtain ⟨d, hd⟩ := h.tracks.parseAll hr
    obtain ⟨req, hmem, hhas⟩ := has_pipeline (h.announced he) i.requests d
    rw [← hd] at hmem
    cases (hx req hmem).symm.trans hhas
  | answer n hc _ _ =>
    refine ⟨htracks, by simp [Announced, say, reset, RequestParser.reset], fun hr => ?_⟩
    have hprev := h.replies_open hc hr
    rw [requests_say, hA.answerTo]
    change i.replies ++ [sequentialAnswer srv w date _] =
      (i.requests ++ [_]).map (sequentialAnswer srv w date) ++ []
    rw [List.append_nil, List.map_append, ← hprev]
    rfl
  | reject n hc _ hf hthrew =>
    refine ⟨htracks, h.announced.feed _, fun hr => ?_⟩
    have hprev := h.replies_open hc hr
    have hsays : (i.feed.parser.failed && !i.feed.parser.threw) = true := by simp [hf, hthrew]
    rw [requests_say, hA.failureOf, repliesOf, if_pos (by exact hsays)]
    change i.replies ++ [_] = (i.requests ++ []).map _ ++ [_]
    rw [List.append_nil, ← hprev]
    rfl
  | close => exact ⟨htracks, h.announced, hreplies⟩

theorem Follows.prefix_repliesOf (h : i.Follows srv w date x) (hr : i.received <+: x) :
    i.replies <+: repliesOf srv w date (Httpd.parseAll srv x) := by
  obtain ⟨d, hd⟩ := h.tracks.parseAll hr
  rw [h.replies hr, hd]
  cases hf : i.parser.failed with
  | true => rw [pipeline_feed_failed hf]
  | false =>
    have hpre := delimiter.prefix_pipeline_feed (i.parser, i.requests) d
    simp only [repliesOf, hf, Bool.false_and, Bool.false_eq_true, if_false, List.append_nil]
    exact (hpre.map _).trans (List.prefix_append _ _)

end Intake

namespace Session

variable {s t : Session σ} {Rs : List Bytes}

theorem invariant_follows (hl : srv.limits.NoWrap) (hx : NoExpect srv x) :
    Invariant srv (Steady w date files) fun s => s.intake.Follows srv w date x := by
  apply invariant_intake
  · refine ⟨(invariant_tracks (A := fun _ _ => True) hl).accepted 0, ?_, fun _ => rfl⟩
    simp [Announced, intake, accepted]
  · intro m k i j hA hi hstep
    exact hi.step hl hx hA hstep

theorem Quiet.replies_eq (hq : s.Quiet srv) (hf : s.intake.Follows srv w date x)
    (hout : s.conn.hasOutput = false) (hend : s.conn.closeAfterWrite = true ∨ s.received = x) :
    s.conn.closeAfterWrite = true ∨
      s.intake.replies = repliesOf srv w date (parseAll srv x) := by
  rcases hend with hclose | rfl
  · exact .inl hclose
  · cases hclose : s.conn.closeAfterWrite with
    | true => exact .inl rfl
    | false =>
      right
      rw [hf.replies List.prefix_rfl, parseAll, hq.pipeline_received hf.tracks hout hclose]
      rfl

section Sent

variable (hl : srv.limits.NoWrap) (hx : NoExpect srv x)
  (hRs : List.Forall₂ (Reply.Serializes srv files) (sequentialReplies srv w date x) Rs)
include hl hx hRs

theorem sent_prefix_of_seen (ht : Seen srv (Steady w date files) t) (hr : t.received <+: x) :
    t.sent <+: Rs.flatten := by
  have hfollows : Invariant srv (Steady w date files) fun s => s.intake.Follows srv w date x :=
    invariant_follows hl hx
  have hexact : Exact (discipline srv (· = files)) (Reply.Serializes srv files)
    (Source.Rest srv files) := exact_serializes
  obtain ⟨src, hshape⟩ := seen_shape (fun _ _ h => h.files) hexact.keeps ht
  have hpre := (hfollows.seen_intake ht).prefix_repliesOf hr
  exact (List.prefix_append _ _).trans (prefix_of_underway hshape hRs hpre)

theorem sent_eq_of_drive {readable writable ok : Bool} {metrics : WorkerMetrics} {fuel : ℕ}
    (hs : Open srv (Steady w date files) s) (hm : Steady w date files m k)
    (hd : (s.wake readable writable metrics k).drive srv m fuel = .ok (ok, t))
    (hr : t.received <+: x) (hout : t.conn.hasOutput = false)
    (hend : t.conn.closeAfterWrite = true ∨ t.received = x ∧
      (ok = true ∨ t.conn.peerClosed = true)) : t.sent = Rs.flatten := by
  have hfollows : Invariant srv (Steady w date files) fun s => s.intake.Follows srv w date x :=
    invariant_follows hl hx
  have hexact : Exact (discipline srv (· = files)) (Reply.Serializes srv files)
    (Source.Rest srv files) := exact_serializes
  -- the session at rest, from which a connection that is to be closed differs in its socket only
  obtain ⟨u, rs, ⟨hf, -, hshape⟩, hq, rfl⟩ :=
    (hfollows.and (invariant_transcript (fun _ _ h => h.files) hexact.keeps)).rest hs hm hd hout
      (hend.elim (fun h => .inr (.inr h)) fun h => h.2.imp_right .inl)
  have hout : u.conn.hasOutput = false := hout
  have hsent : u.sent ++ u.conn.pending = Rs.flatten :=
    eq_of_underway hexact.idle hshape (source_idle hout) hRs (hf.prefix_repliesOf hr)
      (hq.replies_eq hf hout (hend.imp_right And.left))
  rwa [pending_of_not_hasOutput hout, List.append_nil] at hsent

end Sent

/-- The output of a connection, at every moment, is a prefix of what the sequential server
sends; and it is all of that when the output is drained, after a response that closes or when
the stream has been received. -/
theorem refines_sequential (hl : srv.limits.NoWrap) (hx : NoExpect srv x)
    (hRs : List.Forall₂ (Reply.Serializes srv files) (sequentialReplies srv w date x) Rs) :
    (∀ t, Seen srv (Steady w date files) t → t.received <+: x → t.sent <+: Rs.flatten) ∧
      ∀ (s t : Session σ) (m : Moment ω) (k : Kernel) (readable writable : Bool)
        (metrics : WorkerMetrics) (fuel : ℕ) (ok : Bool), Open srv (Steady w date files) s →
        Steady w date files m k →
        (s.wake readable writable metrics k).drive srv m fuel = .ok (ok, t) →
        t.received <+: x → t.conn.hasOutput = false →
        t.conn.closeAfterWrite = true ∨ t.received = x ∧ (ok = true ∨ t.conn.peerClosed = true) →
        t.sent = Rs.flatten := by
  refine ⟨fun t ht hr => sent_prefix_of_seen hl hx hRs ht hr, ?_⟩
  intro s t m k readable writable metrics fuel ok hs hm hd hr hout hend
  exact sent_eq_of_drive hl hx hRs hs hm hd hr hout hend

theorem exists_serializes_count (req : Request) :
    ∃ R, (sequentialAnswer countServer () [] req).Serializes countServer countFiles R := by
  have hyields : Yields countServer 2 .empty [text "line\n", text "line\n", text "line\n"] .empty :=
    .more rfl (by decide) (.more rfl (by decide) (.last rfl))
  have hbody (framing : Framing) : ∃ wire,
      (countServer.router.dispatch () req).Body countServer countFiles framing wire := by
    rw [Router.dispatch_eq]
    cases hroute : countServer.router.invoked req with
    | none =>
      rw [Option.elim_none, Router.refusal]
      split <;> exact ⟨_, rfl⟩
    | some r =>
      have hmem : r ∈ countServer.router.routes := List.mem_of_find?_eq_some hroute
      rcases List.mem_cons.mp hmem with rfl | hmem
      · exact ⟨_, _, _, hyields, (fun _ h => by cases h), rfl⟩
      · cases List.mem_singleton.mp hmem
        exact ⟨text "cont", rfl, text "ent", rfl⟩
  simp only [sequentialAnswer, Reply.Serializes]
  split
  · exact ⟨_, rfl⟩
  · obtain ⟨wire, hwire⟩ := hbody _
    exact ⟨_, wire, rfl, hwire⟩

/-- Two requests that come in parts, for a stream and for a file, are answered as the sequential
server answers them. -/
theorem refines_sequential_pipelined : NoExpect countServer countRequests ∧ ∃ Rs t,
    List.Forall₂ (Reply.Serializes countServer countFiles)
      (sequentialReplies countServer () [] countRequests) Rs ∧
    Seen countServer (Steady () [] countFiles) t ∧ t.log.length = 2 ∧ t.sent = Rs.flatten := by
  have hx : NoExpect countServer countRequests := by decide +kernel
  have hreplies : ∀ r ∈ sequentialReplies countServer () [] countRequests,
      ∃ R, r.Serializes countServer countFiles R := by
    intro r hr
    have hmem := (upToClose_isPrefix _).subset hr
    rw [repliesOf, if_neg (by decide +kernel), List.append_nil] at hmem
    obtain ⟨req, -, rfl⟩ := List.mem_map.mp hmem
    exact exists_serializes_count req
  obtain ⟨Rs, hRs⟩ := exists_forall₂ hreplies
  have hsteady : Steady () [] countFiles bareMoment (countKernel (.error .eagain)) :=
    ⟨rfl, fun _ => rfl, fun _ => rfl, by simp [countKernel]⟩
  obtain ⟨t, ht, htest⟩ := exists_of_returns (r := Session.drive
      ((accepted countServer 1).wake true true {} (countKernel (.error .eagain))) countServer
        bareMoment 8)
    (show returns true (fun t => decide (t.received = countRequests ∧
      t.conn.hasOutput = false ∧ t.log.length = 2)) _ = true by decide +kernel)
  obtain ⟨hr, hout, hlen⟩ := of_decide_eq_true htest
  have hsent := (refines_sequential (by decide) hx hRs).2 _ t _ _ _ _ _ _ _ (.accepted 1) hsteady
    ht (hr ▸ List.prefix_rfl) hout (.inr ⟨hr, .inl rfl⟩)
  exact ⟨hx, Rs, t, hRs, .returned true true {} (.accepted 1) hsteady ht, hlen, hsent⟩

end Session

end Httpd
