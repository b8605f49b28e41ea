import Httpd.Server.HeadRequests

/-! # Interim responses

The log of a connection is a sequence of turns, one for each request: at most one interim
response, then the final one. An interim response is queued while the request is not
complete, and for requests that ask for it in their `Expect` field. The version of such a
request is not looked at.
-/

namespace Httpd

open Transcript

variable {ω σ : Type}

def Request.expects (req : Request) : Bool := expectsContinue (req.headers.get (text "Expect"))

namespace RequestParser

variable {p q : RequestParser} {u rest : Bytes} {n : ℕ}

/-- The flag is set by the field, when the header section is over. -/
structure Flagged (p : RequestParser) : Prop where
  version : p.req.versionMajor = 1 ∧ p.req.versionMinor ≤ 1
  flag : p.req.expectContinue = true →
    (p.state ≠ .requestLine ∧ p.state ≠ .headers) ∧ p.req.expects = true

theorem flagged_fresh (l : ParserLimits) : Flagged { limits := l } := ⟨⟨rfl, le_rfl⟩, by simp⟩

theorem finishHeaders_flagged (h : p.Flagged) (hq : p.finishHeaders = .ok q) : q.Flagged := by
  unfold finishHeaders at hq
  split at hq
  · cases hq
  · next s r hb =>
    cases hq
    refine ⟨h.version, fun he => ?_⟩
    simp only [Bool.and_eq_true] at he
    refine ⟨?_, he.1⟩
    rcases bodyFraming_state hb with rfl | rfl | rfl <;> simp

/-- From the end of the header section on, the flag and the version stay. -/
theorem Reads.flagged (hu : p.Reads u q) (h : p.Flagged) : q.Flagged ∧
    (p.req.expectContinue = true →
      q.req.expectContinue = true ∧ q.req.isHttp10 = p.req.isHttp10) := by
  cases hu with
  | blank => exact ⟨h, fun he => ⟨he, rfl⟩⟩
  | requestLine hs _ _ _ hq =>
    obtain ⟨_, _, _, _, _, _, _, _, _, hle, _, rfl⟩ := parseRequestLine_ok hq
    exact ⟨⟨⟨rfl, hle⟩, fun he => absurd hs (h.flag he).1.1⟩, fun he => absurd hs (h.flag he).1.1⟩
  | field _ _ _ _ _ hq =>
    obtain ⟨_, _, _, ⟨hs, _, rfl⟩ | ⟨_, rfl⟩⟩ := parseFieldLine_ok hq
    · exact ⟨⟨h.version, fun he => absurd (eq_of_beq hs) (h.flag he).1.2⟩, fun he => ⟨he, rfl⟩⟩
    · exact ⟨⟨h.version, h.flag⟩, fun he => ⟨he, rfl⟩⟩
  | finish hs _ hq =>
    have hp : (p.countLine []).Flagged := ⟨h.version, h.flag⟩
    exact ⟨finishHeaders_flagged hp hq, fun he => absurd hs (h.flag he).1.2⟩
  | trailersEnd =>
    exact ⟨⟨h.version, fun he => ⟨by simp, (h.flag he).2⟩⟩, fun he => ⟨he, rfl⟩⟩
  | data hs =>
    rcases takeData_cases (p := p) u with hq | hq <;> rw [hq]
    · exact ⟨⟨h.version, h.flag⟩, fun he => ⟨he, rfl⟩⟩
    · refine ⟨⟨h.version, fun he => ⟨?_, (h.flag he).2⟩⟩, fun he => ⟨he, rfl⟩⟩
      dsimp only
      split <;> simp
  | dataEnd => exact ⟨⟨h.version, fun he => ⟨by simp, (h.flag he).2⟩⟩, fun he => ⟨he, rfl⟩⟩
  | chunkSize _ _ _ hq =>
    obtain ⟨_, _, ⟨_, rfl⟩ | ⟨_, _, _, rfl⟩⟩ := parseChunkSize_ok hq <;>
      exact ⟨⟨h.version, fun he => ⟨by simp, (h.flag he).2⟩⟩, fun he => ⟨he, rfl⟩⟩

theorem Fails.flagged (hf : p.Fails rest q n) (h : p.Flagged) : q.Flagged := by
  refine ⟨by rw [hf.req]; exact h.version, fun he => ?_⟩
  rw [hf.req] at he ⊢
  exact ⟨by simp [hf.state], (h.flag he).2⟩

theorem Flagged.feed (h : p.Flagged) (d : Bytes) : (p.feed d).1.Flagged ∧
    (p.req.expectContinue = true → (p.feed d).1.req.expectContinue = true ∧
      (p.feed d).1.req.isHttp10 = p.req.isHttp10) := by
  apply feed_keeps (I := fun q => q.Flagged ∧ (p.req.expectContinue = true →
    q.req.expectContinue = true ∧ q.req.isHttp10 = p.req.isHttp10))
  · rintro q u q' hu ⟨hq, hkeep⟩
    refine ⟨(hu.flagged hq).1, fun he => ?_⟩
    obtain ⟨hexp, hold⟩ := (hu.flagged hq).2 (hkeep he).1
    exact ⟨hexp, hold.trans (hkeep he).2⟩
  · intro q rest q' n hf hq
    exact ⟨hf.flagged hq.1, by rw [hf.req]; exact hq.2⟩
  · exact ⟨h, fun he => ⟨he, rfl⟩⟩

end RequestParser

structure Turn (σ : Type) where
  request : Request
  interim : Bool := false
  final : Option (Reply σ) := none

def Turn.replies (u : Turn σ) : List (Reply σ) :=
  (if u.interim then [.interim] else []) ++ u.final.toList

namespace Session

variable {srv : Server ω σ} {m : Moment ω} {s t : Session σ} {A : Moment ω → Kernel → Prop}
  {turns : List (Turn σ)} {last : Turn σ} {spared : Prop}

/-- The log in turns. The last turn is that of the request that is being read. -/
structure InTurns (s : Session σ) (turns : List (Turn σ)) (last : Turn σ) : Prop where
  replies : s.log.map Prod.fst = (turns ++ [last]).flatMap Turn.replies
  answered : ∀ u ∈ turns, ∃ res opts, u.final = some (.answer u.request res opts)
  current : last.request = s.conn.parser.req
  rejected : ∀ r ∈ last.final, r.isFailure = true

/-- What an interim response says about its request: it asks for the response, and in a run in
which no request of version 1.0 is kept waiting it has version 1.1. -/
def Due (spared : Prop) (req : Request) : Prop :=
  req.expects = true ∧ req.versionMajor = 1 ∧ req.versionMinor ≤ 1 ∧
    (spared → req.isHttp10 = false)

structure Latched (spared : Prop) (s : Session σ) (turns : List (Turn σ)) (last : Turn σ) :
    Prop where
  parser : s.conn.parser.Flagged
  sent : last.interim = true → s.conn.continueSent = true ∧
    s.conn.parser.req.expectContinue = true ∧ (spared → s.conn.parser.req.isHttp10 = false)
  closed : last.final.isSome = true → s.conn.closeAfterWrite = true
  due : ∀ u ∈ turns, u.interim = true → Due spared u.request

def TakesTurns (spared : Prop) (s : Session σ) : Prop :=
  ∃ turns last, s.InTurns turns last ∧ Latched spared s turns last

/-- The head of a request of version 1.0 that asks for an interim response has been read, and
the request is not complete. -/
def OldWaits (s : Session σ) : Prop :=
  s.conn.parser.req.isHttp10 = true ∧ s.conn.parser.req.expectContinue = true ∧
    s.conn.parser.headersComplete = true ∧ s.conn.parser.done = false

instance : DecidablePred (OldWaits (σ := σ)) := fun _ => inferInstanceAs (Decidable (_ ∧ _))

theorem replies_concat (turns : List (Turn σ)) (last : Turn σ) :
    (turns ++ [last]).flatMap Turn.replies =
      turns.flatMap Turn.replies ++ ((if last.interim then [.interim] else []) ++
        last.final.toList) := by
  simp [Turn.replies]

theorem Latched.due_last (h : Latched spared s turns last) (ht : s.InTurns turns last)
    (hint : last.interim = true) : Due spared last.request := by
  obtain ⟨-, hexp, hnew⟩ := h.sent hint
  rw [ht.current]
  exact ⟨(h.parser.flag hexp).2, h.parser.version.1, h.parser.version.2, hnew⟩

theorem Latched.final_none (h : Latched spared s turns last) (hb : s.holdsBack = false) :
    last.final = none := by
  have hclose : s.conn.closeAfterWrite = false := holdsBack_closing hb
  cases hf : last.final with
  | none => rfl
  | some r =>
    have := h.closed (by simp [hf])
    rw [hclose] at this
    cases this

theorem takesTurns_accepted (now : ℕ) : TakesTurns spared (accepted srv now) := by
  refine ⟨[], { request := (accepted srv now).conn.parser.req }, ?_, ?_⟩
  · exact ⟨rfl, by simp, rfl, by simp⟩
  · exact ⟨RequestParser.flagged_fresh _, by simp, by simp, by simp⟩

theorem TakesTurns.wake (h : TakesTurns spared s) (readable writable : Bool) (w : WorkerMetrics)
    (k : Kernel) : TakesTurns spared (s.wake readable writable w k) := by
  obtain ⟨turns, last, ht, hl⟩ := h
  exact ⟨turns, last, ⟨ht.replies, ht.answered, ht.current, ht.rejected⟩,
    ⟨hl.parser, hl.sent, hl.closed, hl.due⟩⟩

theorem TakesTurns.feedInput (h : TakesTurns spared s) : TakesTurns spared (s.feedInput m) := by
  obtain ⟨turns, last, ht, hl⟩ := h
  have hfeed := hl.parser.feed s.conn.inBuf
  refine ⟨turns, { last with request := (s.feedInput m).conn.parser.req }, ?_, ?_⟩
  · refine ⟨?_, ht.answered, rfl, ht.rejected⟩
    rw [replies_concat]
    exact ht.replies.trans (replies_concat turns last)
  · refine ⟨hfeed.1, fun hi => ?_, hl.closed, hl.due⟩
    obtain ⟨hsent, hexp, hnew⟩ := hl.sent hi
    exact ⟨hsent, (hfeed.2 hexp).1, fun hs => (hfeed.2 hexp).2.trans (hnew hs)⟩

theorem TakesTurns.sayContinue (h : TakesTurns spared s) (hb : s.holdsBack = false)
    (hw : s.wantsContinue = true) (hold : spared → ¬ s.OldWaits) :
    TakesTurns spared s.sayContinue := by
  obtain ⟨turns, last, ht, hl⟩ := h
  simp only [wantsContinue, Bool.and_eq_true, Bool.not_eq_true'] at hw
  have hnot : last.interim = false := by
    rw [Bool.eq_false_iff]
    intro hi
    rw [(hl.sent hi).1] at hw
    simp at hw
  refine ⟨turns, { last with interim := true }, ⟨?_, ht.answered, ht.current, ht.rejected⟩, ?_⟩
  · have hlog := ht.replies
    rw [replies_concat, hnot, hl.final_none hb] at hlog
    rw [replies_concat, hl.final_none hb]
    simpa [Session.sayContinue, say] using hlog
  · refine ⟨hl.parser, fun _ => ⟨rfl, hw.1.1.1, fun hs => ?_⟩, hl.closed, hl.due⟩
    rw [Bool.eq_false_iff]
    exact fun h10 => hold hs ⟨h10, hw.1.1.1, hw.1.2, hw.2⟩

theorem TakesTurns.dispatchNext (h : TakesTurns spared s) (hb : s.holdsBack = false) :
    TakesTurns spared (s.dispatchNext srv m) := by
  obtain ⟨turns, last, ht, hl⟩ := h
  have hp : (s.dispatchNext srv m).conn.parser = s.conn.parser.reset :=
    congrArg Intake.parser dispatchNext_intake
  refine ⟨turns ++ [{ last with
      final := some (answerTo srv m s.metrics.requests s.conn.parser.req) }],
    { request := (s.dispatchNext srv m).conn.parser.req }, ⟨?_, ?_, rfl, by simp⟩, ?_⟩
  · rw [dispatchNext_replies, ht.replies, replies_concat, replies_concat, replies_concat,
      hl.final_none hb]
    simp
  · intro u hu
    rcases List.mem_append.mp hu with hu | hu
    · exact ht.answered u hu
    · rw [List.mem_singleton.mp hu, ht.current]
      exact ⟨_, _, rfl⟩
  · refine ⟨by rw [hp]; exact RequestParser.flagged_fresh _, by simp, by simp, fun u hu hint => ?_⟩
    rcases List.mem_append.mp hu with hu | hu
    · exact hl.due u hu hint
    · rw [List.mem_singleton.mp hu] at hint ⊢
      exact hl.due_last ht hint

theorem TakesTurns.parseError (h : TakesTurns spared s) (hb : s.holdsBack = false) :
    TakesTurns spared (s.parseError m) := by
  obtain ⟨turns, last, ht, hl⟩ := h
  have hp : (s.parseError m).conn.parser = s.conn.parser :=
    congrArg Intake.parser (parseError_intake (m := m))
  refine ⟨turns, { last with final := some (failureOf m s.metrics.requests s.conn.parser) },
    ⟨?_, ht.answered, by rw [hp]; exact ht.current, ?_⟩, ?_⟩
  · rw [parseError_replies, ht.replies, replies_concat, replies_concat, hl.final_none hb]
    simp
  · rintro _ ⟨⟩
    rfl
  · refine ⟨by rw [hp]; exact hl.parser, fun hint => ⟨(hl.sent hint).1, ?_⟩, fun _ => rfl, hl.due⟩
    rw [hp]
    exact (hl.sent hint).2

theorem TakesTurns.step (h : TakesTurns spared s) (hold : spared → ¬ s.OldWaits)
    (hstep : Step srv m s t) : TakesTurns spared t := by
  cases hstep.queues with
  | nothing hlog hp hc hclose =>
    obtain ⟨turns, last, ht, hl⟩ := h
    refine ⟨turns, last, ⟨hlog.trans ht.replies, ht.answered, by rw [hp]; exact ht.current,
      ht.rejected⟩, ?_⟩
    exact ⟨by rw [hp]; exact hl.parser, by rw [hc, hp]; exact hl.sent,
      fun hf => hclose (hl.closed hf), hl.due⟩
  | feed _ _ _ _ ht => exact ht ▸ h.feedInput
  | interim hb hw _ ht => exact ht ▸ h.sayContinue hb hw hold
  | answer hb _ _ ht => exact ht ▸ h.feedInput.dispatchNext hb
  | reject hb _ _ ht => exact ht ▸ h.feedInput.parseError hb

/-- A connection in a run in whose course a property always holds. -/
inductive Along (srv : Server ω σ) (P : Session σ → Prop) : Session σ → Prop where
  | accepted (now : ℕ) : P (accepted srv now) → Along srv P (accepted srv now)
  | wake {s : Session σ} (readable writable : Bool) (w : WorkerMetrics) (k : Kernel) :
      Along srv P s → P (s.wake readable writable w k) →
      Along srv P (s.wake readable writable w k)
  | step {s t : Session σ} {m : Moment ω} : Along srv P s → Step srv m s t → P t → Along srv P t

theorem Along.holds {P : Session σ → Prop} (h : Along srv P s) : P s := by
  cases h with
  | accepted _ h => exact h
  | wake _ _ _ _ _ h => exact h
  | step _ _ h => exact h

/-- What is seen of a connection in a run in whose course a property always holds, also when a
call gives it up. -/
def SeenAlong (srv : Server ω σ) (P : Session σ → Prop) (t : Session σ) : Prop :=
  ∃ s, Along srv P s ∧ (t = s ∨ Abort srv s t)

theorem Seen.along (h : Seen srv A t) : SeenAlong srv (fun _ => True) t := by
  have hinv : Invariant srv A (Along srv fun _ => True) :=
    { accepted := fun now => .accepted now trivial
      wake := fun readable writable w k h => .wake readable writable w k h trivial
      step := fun _ _ h hstep => .step h hstep trivial }
  exact hinv.seen h

theorem Along.takesTurns {P : Session σ → Prop} (hold : ∀ {s}, P s → spared → ¬ s.OldWaits)
    (h : Along srv P s) : TakesTurns spared s := by
  induction h with
  | accepted now => exact takesTurns_accepted now
  | wake readable writable w k _ _ ih => exact ih.wake readable writable w k
  | step hs hstep _ ih => exact ih.step (hold hs.holds) hstep

theorem InTurns.of_intake (h : s.InTurns turns last) (hi : t.intake = s.intake) :
    t.InTurns turns last :=
  ⟨(congrArg Intake.replies hi).trans h.replies, h.answered,
    h.current.trans (congrArg (fun i => i.parser.req) hi.symm), h.rejected⟩

/-- The turns stay when a call gives up the connection. -/
theorem SeenAlong.inTurns {P : Session σ → Prop} (hold : ∀ {s}, P s → spared → ¬ s.OldWaits)
    (h : SeenAlong srv P t) : ∃ turns last, t.InTurns turns last ∧
      ∀ u ∈ turns ++ [last], u.interim = true → Due spared u.request := by
  obtain ⟨s, halong, hend⟩ := h
  obtain ⟨turns, last, hs, hl⟩ : TakesTurns spared s := halong.takesTurns hold
  have hi : t.intake = s.intake := by
    rcases hend with rfl | hab
    · rfl
    · exact hab.intake
  refine ⟨turns, last, hs.of_intake hi, fun u hu hint => ?_⟩
  rcases List.mem_append.mp hu with hu | hu
  · exact hl.due u hu hint
  · rw [List.mem_singleton.mp hu] at hint ⊢
    exact hl.due_last hs hint

theorem seen_flat (ht : Seen srv A t) :
    t.sent ++ t.conn.pending = (t.log.map Prod.snd).flatten := by
  obtain ⟨src, hshape⟩ :=
    seen_shape (F := fun _ => True) (fun _ _ _ _ _ _ => trivial) keeps_opening ht
  exact hshape.flat

theorem Step.of_interim (h : Step srv m s t)
    (hlog : t.log.map Prod.fst = s.log.map Prod.fst ++ [.interim]) :
    s.holdsBack = false ∧ s.wantsContinue = true ∧ s.conn.parser.Waits s.conn.inBuf := by
  cases h.queues with
  | nothing hsame => simp [hsame] at hlog
  | feed _ _ _ _ ht => simp [ht, Session.feedInput] at hlog
  | interim hb hw hwaits => exact ⟨hb, hw, hwaits⟩
  | answer _ _ _ ht =>
    rw [ht, dispatchNext_replies] at hlog
    cases (List.append_inj' hlog rfl).2
  | reject _ _ _ ht =>
    rw [ht, parseError_replies] at hlog
    cases (List.append_inj' hlog rfl).2

/-- Each request gets at most one interim response, right before its final response, if it asks
for one. It has version 1.1, unless in the course of the run the server has the head of a request
of version 1.0 that asks and not yet its body. The response is queued while the request is not
complete and nothing of an earlier response is missing from the output. -/
theorem interim_discipline (srv : Server ω σ) :
    (∀ t, Seen srv (fun _ _ => True) t →
      (∃ turns last, t.InTurns turns last ∧ ∀ u ∈ turns ++ [last], u.interim = true →
        u.request.expects = true ∧ u.request.versionMajor = 1 ∧ u.request.versionMinor ≤ 1) ∧
      t.sent ++ t.conn.pending = (t.log.map Prod.snd).flatten ∧
      ∀ b, (.interim, b) ∈ t.log → b = text "HTTP/1.1 100 Continue\r\n\r\n") ∧
    (∀ t, SeenAlong srv (fun s => ¬ s.OldWaits) t →
      ∃ turns last, t.InTurns turns last ∧ ∀ u ∈ turns ++ [last], u.interim = true →
        u.request.expects = true ∧ u.request.versionMajor = 1 ∧ u.request.versionMinor = 1) ∧
    ∀ s m t, Step srv m s t →
      t.log.map Prod.fst = s.log.map Prod.fst ++ [.interim] →
        s.conn.parser.headersComplete = true ∧ s.conn.parser.done = false ∧
        s.conn.parser.Waits s.conn.inBuf ∧ s.conn.bodySourceActive = false := by
  refine ⟨fun t ht => ?_, fun t ht => ?_, fun s m t hstep hlog => ?_⟩
  · refine ⟨?_, seen_flat ht, fun b hb => seen_opening ht hb rfl⟩
    have hold {s : Session σ} : True → False → ¬ s.OldWaits := fun _ h => h.elim
    obtain ⟨turns, last, hturns, hdue⟩ := ht.along.inTurns hold
    refine ⟨turns, last, hturns, fun u hu hint => ?_⟩
    obtain ⟨hexp, hmajor, hminor, -⟩ := hdue u hu hint
    exact ⟨hexp, hmajor, hminor⟩
  · have hold {s : Session σ} : ¬ s.OldWaits → True → ¬ s.OldWaits := fun h _ => h
    obtain ⟨turns, last, hturns, hdue⟩ := ht.inTurns hold
    refine ⟨turns, last, hturns, fun u hu hint => ?_⟩
    obtain ⟨hexp, hmajor, hminor, hnew⟩ := hdue u hu hint
    have hne : u.request.versionMinor ≠ 0 := fun h0 => by
      simp [Request.isHttp10, hmajor, h0] at hnew
    exact ⟨hexp, hmajor, by omega⟩
  · obtain ⟨hb, hw, hwaits⟩ := hstep.of_interim hlog
    simp only [wantsContinue, holdsBack, Bool.and_eq_true, Bool.not_eq_true', Bool.or_eq_false_iff]
      at hw hb
    exact ⟨hw.1.2, hw.2, hwaits, hb.1.2⟩

def uploadHead (version : Bytes) : Bytes :=
  text "PUT / HTTP/" ++ version ++
    text "\r\nHost: x\r\nContent-Length: 5\r\nExpect: 100-continue\r\n\r\n"

def oldUpload : Bytes := uploadHead (text "1.0") ++ text "hello"

def uploading : Session Unit :=
  (accepted bareServer 1).wake true true {} { recvs := [.ok oldUpload] }

/-- An upload of version 1.1 is told to go on. One of version 1.0 that comes as a whole is not. -/
theorem interim_discipline_upload :
    (∃ t, Seen bareServer (fun _ _ => True) t ∧
      t.sent = text "HTTP/1.1 100 Continue\r\n\r\n" ∧
      t.sent ++ t.conn.pending = (t.log.map Prod.snd).flatten) ∧
    ∃ t : Session Unit, SeenAlong bareServer (fun s => ¬ s.OldWaits) t ∧
      t.intake.requests.map (fun req => (req.expects, req.isHttp10)) = [(true, true)] ∧
      ∃ turns last, t.InTurns turns last ∧
        ∀ u ∈ turns ++ [last], u.interim = true → u.request.versionMinor = 1 := by
  constructor
  · obtain ⟨t, hseen, hsent⟩ := exists_seen bareServer
      (fun t => t.sent = text "HTTP/1.1 100 Continue\r\n\r\n")
      { recvs := [.ok (uploadHead (text "1.1")), .error .eagain], sends := [.ok 1000] }
      bareMoment 6 true (by decide +kernel)
    exact ⟨t, hseen, hsent, ((interim_discipline bareServer).1 t hseen).2.1⟩
  · have hwake : Along bareServer (fun s => ¬ s.OldWaits) uploading :=
      .wake true true {} _ (.accepted 1 (by decide)) (by decide)
    have hrecv := hwake.step (.recv (m := bareMoment) (d := oldUpload) (by decide) rfl (by decide))
      (by decide)
    have hanswer := hrecv.step (.answer (m := bareMoment) (by decide) (by decide)
      (by decide +kernel)) (by decide +kernel)
    have hseen : SeenAlong bareServer (fun s => ¬ s.OldWaits) _ := ⟨_, hanswer, .inl rfl⟩
    obtain ⟨turns, last, hturns, hdue⟩ := (interim_discipline bareServer).2.1 _ hseen
    exact ⟨_, hseen, by decide +kernel, turns, last, hturns,
      fun u hu hint => (hdue u hu hint).2.2⟩

/-- A client of version 1.0 gets an interim response, which it cannot tell from the final one. -/
theorem interim_http10 : ∃ t, Seen bareServer (fun _ _ => True) t ∧
    t.received = uploadHead (text "1.0") ∧
    t.conn.parser.req.isHttp10 = true ∧ t.sent = text "HTTP/1.1 100 Continue\r\n\r\n" := by
  exact exists_seen bareServer _
    { recvs := [.ok (uploadHead (text "1.0")), .error .eagain], sends := [.ok 1000] }
    bareMoment 6 true (by decide +kernel)

end Session

end Httpd
