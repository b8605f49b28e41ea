import Httpd.Server.Bodies

/-! # Requests and their answers

A connection reads a stream in parts, holds requests back while it has output and restarts
the parser after each of them. At every moment the parser and the requests answered are those
of the pipeline on the bytes used so far, so that the rest of the stream is read as if the
whole had been there at once. When a client has closed its side and the output is drained,
nothing of what it has asked is left.
-/

namespace Httpd

open Incremental

variable {ω σ : Type}

namespace RequestParser

variable {p : RequestParser} {rs : List Request}

theorem waits_fresh (l : ParserLimits) : Waits { limits := l } [] :=
  .requestLine rfl rfl (Nat.zero_le _)

theorem pipeline_feed_append (hw : p.limits.NoWrap) (a b : Bytes) :
    pipeline.feed (p, rs) (a ++ b) =
      shift (p.feed a).2 (pipeline.feed ((p.feed a).1, rs) (a.drop (p.feed a).2 ++ b)) := by
  have hle : (p.feed a).2 ≤ a.length := (machine.feed_le p a).1
  refine delimiter.pipeline_feed_congr (resumable.append hw a b) fun k => ?_
  rw [← List.drop_drop, List.drop_append_of_le_length hle]

theorem pipeline_feed_done (h : p.done = true) (d : Bytes) :
    pipeline.feed (p, rs) d = pipeline.feed (p.reset, rs ++ [p.req]) d := by
  have htake : delimiter.take p = some (p.req, p.reset) := by simp [delimiter, h, take]
  have hfeed := delimiter.feed_of_take htake d
  have hfail : delimiter.failed p = false := by
    simp only [done, beq_iff_eq] at h
    simp [delimiter, failed, h]
  have hstep : pipeline.step (p, rs) d = .more (p.reset, rs ++ [p.req]) 0 := by
    simp [pipeline, Delimiter.pipeline, Delimiter.step, hfeed, hfail, htake]
  rw [pipeline.feed_more hstep, shift_zero, List.drop_zero]

theorem pipeline_feed_waits {d : Bytes} (h : p.Waits d) (hd : p.done = false) :
    pipeline.feed (p, rs) d = ((p, rs), 0) := by
  have hfeed : machine.feed p d = (p, 0) := h.feed
  have htake : delimiter.take p = none := by simp [delimiter, hd]
  refine pipeline.feed_stop ?_
  simp [pipeline, Delimiter.pipeline, Delimiter.step, hfeed, htake]

end RequestParser

open RequestParser

def Reply.request? : Reply σ → Option Request
  | .answer req _ _ => some req
  | .interim => none
  | .failure _ _ => none

namespace Intake

def requests (i : Intake σ) : List Request := i.replies.filterMap Reply.request?

theorem requests_say (i : Intake σ) (r : Reply σ) :
    (i.say r).requests = i.requests ++ r.request?.toList := by
  cases h : r.request? <;> simp [requests, say, List.filterMap_append, h]

/-- The rest of the stream is read as if the whole had been there at once. -/
structure Tracks (srv : Server ω σ) (i : Intake σ) : Prop where
  limits : i.parser.limits = srv.limits
  follows : ∃ n, ∀ b, pipeline.feed ({ limits := srv.limits }, []) (i.received ++ b) =
    shift n (pipeline.feed (i.parser, i.requests) (i.inBuf ++ b))
  answers : ∀ r ∈ i.replies, ∀ req ∈ r.request?, ∃ m k, r = answerTo srv m k req
  waits : ∃ a, a <+: i.inBuf ∧ i.parser.Waits a
  not_done : i.parser.done = false
  failed : i.parser.failed = true → i.closing = true

variable {srv : Server ω σ} {m : Moment ω} {i j : Intake σ}

theorem Tracks.feed_follows (hl : srv.limits.NoWrap) (h : i.Tracks srv) :
    ∃ n, ∀ b, pipeline.feed ({ limits := srv.limits }, []) (i.received ++ b) =
      shift n (pipeline.feed (i.feed.parser, i.requests) (i.feed.inBuf ++ b)) := by
  obtain ⟨n, hn⟩ := h.follows
  refine ⟨n + (i.parser.feed i.inBuf).2, fun b => ?_⟩
  rw [hn, pipeline_feed_append (by rwa [h.limits]), shift_shift]
  rfl

theorem Tracks.say_answers (h : i.Tracks srv) {r : Reply σ}
    (hr : ∀ req ∈ r.request?, ∃ m k, r = answerTo srv m k req) :
    ∀ r' ∈ i.replies ++ [r], ∀ req ∈ r'.request?, ∃ m k, r' = answerTo srv m k req := by
  intro r' hr'
  rcases List.mem_append.mp hr' with hr' | hr'
  · exact h.answers r' hr'
  · rwa [List.mem_singleton.mp hr']

theorem Tracks.step (hl : srv.limits.NoWrap) (h : i.Tracks srv) (hstep : i.Step srv m j) :
    j.Tracks srv := by
  have hlimits := hstep.limits.trans h.limits
  have hfollows := h.feed_follows hl
  cases hstep with
  | recv d _ _ _ =>
    obtain ⟨n, hn⟩ := h.follows
    obtain ⟨a, ha, hw⟩ := h.waits
    refine ⟨hlimits, ⟨n, fun b => ?_⟩, h.answers, ⟨a, ha.trans (List.prefix_append ..), hw⟩,
      h.not_done, h.failed⟩
    rw [List.append_assoc, List.append_assoc]
    exact hn (d ++ b)
  | feed _ _ hf hd =>
    refine ⟨hlimits, hfollows, h.answers, ⟨_, List.prefix_rfl, feed_waits hf⟩, hd, ?_⟩
    rw [hf]
    simp
  | interim _ _ _ _ =>
    refine ⟨hlimits, ?_, h.say_answers (by simp [Reply.request?]), h.waits, h.not_done,
      fun hf => by simp [say, h.failed hf]⟩
    rw [requests_say, Reply.request?, Option.toList_none, List.append_nil]
    exact h.follows
  | answer k _ _ hd =>
    obtain ⟨n, hn⟩ := hfollows
    refine ⟨hlimits, ⟨n, fun b => ?_⟩, h.say_answers ?_, ⟨[], List.nil_prefix, waits_fresh _⟩, rfl,
      ?_⟩
    · rw [requests_say]
      exact (hn b).trans (congrArg (shift n) (pipeline_feed_done hd _))
    · rintro _ ⟨⟩
      exact ⟨m, k, rfl⟩
    · simp [say, reset, RequestParser.reset, RequestParser.failed]
  | reject k _ _ hf =>
    have hstate : i.feed.parser.state = .error := by simpa [RequestParser.failed] using hf
    refine ⟨hlimits, ?_, h.say_answers (by simp [failureOf, Reply.request?]),
      ⟨_, List.prefix_rfl, .ended (.inr hstate)⟩, ?_, ?_⟩
    · rw [requests_say, failureOf, Reply.request?, Option.toList_none, List.append_nil]
      exact hfollows
    · simp [say, RequestParser.done, hstate]
    · simp [say, failureOf, Reply.closes]
  | close => exact ⟨hlimits, h.follows, h.answers, h.waits, h.not_done, fun _ => rfl⟩

end Intake

namespace Session

variable {srv : Server ω σ} {A : Moment ω → Kernel → Prop} {m : Moment ω} {k : Kernel}
  {s t : Session σ} {w : WorkerMetrics} {fuel : ℕ} {readable writable : Bool}

theorem invariant_tracks (hl : srv.limits.NoWrap) :
    Invariant srv A fun s => s.intake.Tracks srv := by
  apply invariant_intake
  · exact ⟨rfl, ⟨0, by simp [intake, accepted, Intake.requests]⟩, by simp [intake, accepted],
      ⟨[], List.nil_prefix, waits_fresh _⟩, rfl, by simp [intake, accepted, RequestParser.failed]⟩
  · intro m k i j _ hi hstep
    exact hi.step hl hstep

theorem Quiet.waits (hq : s.Quiet srv) (ht : s.intake.Tracks srv)
    (hout : s.conn.hasOutput = false) (hclose : s.conn.closeAfterWrite = false) :
    s.conn.parser.Waits s.conn.inBuf := by
  rcases hq.input with hback | hnil | ⟨hwaits, -, -⟩
  · rw [holdsBack_of_not_hasOutput hout hclose] at hback
    cases hback
  · obtain ⟨a, ha, hw⟩ := ht.waits
    have ha : a <+: s.conn.inBuf := ha
    rw [hnil, List.prefix_nil] at ha
    rw [hnil, ← ha]
    exact hw
  · exact hwaits

/-- At rest without output, the requests answered and the parser are those of the pipeline on
what was received. -/
theorem Quiet.pipeline_received (hq : s.Quiet srv) (ht : s.intake.Tracks srv)
    (hout : s.conn.hasOutput = false) (hclose : s.conn.closeAfterWrite = false) :
    (pipeline.feed ({ limits := srv.limits }, []) s.received).1 =
      (s.conn.parser, s.intake.requests) := by
  obtain ⟨n, hn⟩ := ht.follows
  have h := hn []
  rw [List.append_nil, List.append_nil] at h
  change pipeline.feed _ s.received = shift n (pipeline.feed (s.conn.parser, _) s.conn.inBuf) at h
  rw [h, pipeline_feed_waits (hq.waits ht hout hclose) ht.not_done]
  rfl

/-- A call that gives up has output left, or has not seen the end of the input. -/
theorem Abort.output (h : Abort srv s t) : t.conn.hasOutput = true ∨
    (t.conn.peerClosed = false ∧ t.conn.closeAfterWrite = false) := by
  cases h with
  | recv hmay _ => exact .inr (mayRead_iff.mp hmay).1.2
  | send _ ho _ => exact .inl (by simp [Connection.hasOutput, setSends, ho])
  | sendfile _ _ hfile _ =>
    exact .inl (by simp [Connection.hasOutput, Connection.bodySourceActive, setSendfiles, hfile])
  | shrank _ _ hfile _ _ _ =>
    exact .inl (by simp [Connection.hasOutput, Connection.bodySourceActive, setSendfiles, attempt,
      hfile])
  | refill _ _ _ hp hr ht =>
    have hsome := refills_producer hr (by simp [hp])
    left
    rcases ht with rfl | ⟨_, _, rfl⟩
    · simp [Connection.hasOutput, Connection.bodySourceActive, hsome]
    · simp [Connection.hasOutput, Connection.bodySourceActive, setProducer]

/-- A call that returns without output, and not for want of input, has come to rest. -/
theorem Invariant.rest {P : Session σ → Prop} (hP : Invariant srv A P) (hs : Open srv A s)
    (hA : A m k) {ok : Bool}
    (hd : (s.wake readable writable w k).drive srv m fuel = .ok (ok, t))
    (hout : t.conn.hasOutput = false)
    (hend : ok = true ∨ t.conn.peerClosed = true ∨ t.conn.closeAfterWrite = true) :
    ∃ u rs, P u ∧ u.Quiet srv ∧ t = u.setRecvs rs := by
  obtain ⟨u, hu, ⟨hok, hab⟩ | ⟨hfin, hq⟩⟩ := hP.outcome hs hA hd
  · obtain rfl : ok = false := hok
    rcases hab.output with h | ⟨hpeer, hclose⟩
    · rw [hout] at h
      cases h
    · rw [hpeer, hclose] at hend
      simp at hend
  · obtain ⟨rs, -, ht⟩ := finish_snd hfin
    exact ⟨u, rs, hu, hq, ht⟩

theorem Quiet.answered (hq : s.Quiet srv) (ht : s.intake.Tracks srv)
    (hshape : Transcript.State.Shape (discipline srv fun _ => True) (Reply.Complete srv)
      (Reply.Completable srv) s.transcript)
    (hout : s.conn.hasOutput = false) (hclose : s.conn.closeAfterWrite = false) :
    (s.conn.parser.feed s.conn.inBuf = (s.conn.parser, 0) ∧ s.conn.parser.done = false) ∧
      (pipeline.feed ({ limits := srv.limits }, []) s.received).1 =
        (s.conn.parser, s.intake.requests) ∧
      s.sent = (s.log.map Prod.snd).flatten ∧ ∀ e ∈ s.log, e.1.Complete srv e.2 ∧
        ∀ req ∈ e.1.request?, ∃ m k, e.1 = answerTo srv m k req := by
  refine ⟨⟨(hq.waits ht hout hclose).feed, ht.not_done⟩, hq.pipeline_received ht hout hclose, ?_,
    fun e he => ⟨(hshape.finished keeps_complete (source_idle hout) hclose e he).1,
      ht.answers e.1 (List.mem_map_of_mem he)⟩⟩
  have hflat : s.sent ++ s.conn.pending = _ := hshape.flat
  rwa [pending_of_not_hasOutput hout, List.append_nil] at hflat

/-- When a call gives up a connection because the client has closed its side, every request in
the received stream has been answered and every answer has been sent in full. -/
theorem half_close_answered (hl : srv.limits.NoWrap) (hs : Open srv (fun _ _ => True) s)
    (hd : (s.wake readable writable w k).drive srv m fuel = .ok (false, t))
    (hpeer : t.conn.peerClosed = true) (hout : t.conn.hasOutput = false)
    (hclose : t.conn.closeAfterWrite = false) :
    (t.conn.parser.feed t.conn.inBuf = (t.conn.parser, 0) ∧ t.conn.parser.done = false) ∧
      (pipeline.feed ({ limits := srv.limits }, []) t.received).1 =
        (t.conn.parser, t.intake.requests) ∧
      t.sent = (t.log.map Prod.snd).flatten ∧ ∀ e ∈ t.log, e.1.Complete srv e.2 ∧
        ∀ req ∈ e.1.request?, ∃ m k, e.1 = answerTo srv m k req := by
  have hkeeps : Transcript.State.Keeps (discipline srv fun _ => True) (Reply.Complete srv)
    (Reply.Completable srv) := keeps_complete
  have hinv := (invariant_tracks hl).and (invariant_transcript (A := fun _ _ => True) (by simp) hkeeps)
  obtain ⟨u, rs, ⟨htracks, -, hshape⟩, hq, rfl⟩ :=
    hinv.rest hs trivial hd hout (.inr (.inl hpeer))
  exact hq.answered htracks hshape hout hclose

/-- A client sends two requests and closes its side. -/
theorem half_close_answered_pipelined : ∃ t, Session.drive
      ((accepted countServer 1).wake true true {} (countKernel (.ok []))) countServer bareMoment 8 =
        .ok (false, t) ∧
    (t.conn.peerClosed = true ∧ t.conn.hasOutput = false ∧ t.conn.closeAfterWrite = false) ∧
      t.intake.requests.length = 2 ∧
      (pipeline.feed ({ limits := countServer.limits }, []) t.received).1 =
        (t.conn.parser, t.intake.requests) ∧
      t.sent = (t.log.map Prod.snd).flatten := by
  obtain ⟨t, ht, htest⟩ := exists_of_returns (r := Session.drive
      ((accepted countServer 1).wake true true {} (countKernel (.ok []))) countServer bareMoment 8)
    (show returns false (fun t => decide ((t.conn.peerClosed = true ∧ t.conn.hasOutput = false ∧
      t.conn.closeAfterWrite = false) ∧ t.intake.requests.length = 2)) _ = true by decide +kernel)
  obtain ⟨h, hlen⟩ := of_decide_eq_true htest
  obtain ⟨-, hall, hsent, -⟩ := half_close_answered (by decide) (.accepted 1) ht h.1 h.2.1 h.2.2
  exact ⟨t, ht, h, hlen, hall, hsent⟩

end Session

end Httpd
