import Httpd.Parser.Segmentation
import Httpd.Server.Steps

/-! # The intake of a connection

What a connection has received, parsed and answered, without the output. A step of a
connection is a step of its intake or leaves it alone, so that what reading and dispatching
do over a run is proved about a machine of six transitions.
-/

namespace Httpd

open Loop Relation

variable {ω σ : Type}

def Reply.closes : Reply σ → Bool
  | .interim => false
  | .answer _ res opts => !opts.keepAlive || (framingOf res opts).1 == .closeDelimited
  | .failure _ _ => true

/-- The answer to a request; the number picks the date and what the handler sees. -/
def answerTo (srv : Server ω σ) (m : Moment ω) (k : ℕ) (req : Request) : Reply σ :=
  .answer req (srv.router.dispatch (m.world k) req)
    { keepAlive := req.keepAlive && !m.draining, http10Client := req.isHttp10, date := m.date k }

def failureOf (m : Moment ω) (k : ℕ) (p : RequestParser) : Reply σ :=
  .failure (Session.errorResponse (statusFor p.error) p.errorDetail)
    { keepAlive := false, date := m.date k }

structure Intake (σ : Type) where
  received : Bytes
  fed : List (RequestParser × ℕ)
  inBuf : Bytes
  parser : RequestParser
  replies : List (Reply σ)
  closing : Bool

namespace Intake

def feed (i : Intake σ) : Intake σ :=
  let u := i.parser.feed i.inBuf
  { i with
    parser := u.1
    inBuf := i.inBuf.drop u.2
    fed := i.fed ++ [(u.1, (i.inBuf.drop u.2).length)] }

def say (i : Intake σ) (r : Reply σ) : Intake σ :=
  { i with replies := i.replies ++ [r], closing := i.closing || r.closes }

def reset (i : Intake σ) : Intake σ := { i with parser := i.parser.reset }

inductive Step (srv : Server ω σ) (m : Moment ω) : Intake σ → Intake σ → Prop where
  | recv {i : Intake σ} (d : Bytes) : i.closing = false → i.inBuf.length < srv.maxInBuffer →
      d.length ≤ kReadSize →
      Step srv m i { i with received := i.received ++ d, inBuf := i.inBuf ++ d }
  | feed {i : Intake σ} : i.closing = false → i.inBuf ≠ [] → i.feed.parser.failed = false →
      i.feed.parser.done = false → Step srv m i i.feed
  | interim {i : Intake σ} : i.closing = false → i.parser.req.expectContinue = true →
      i.parser.headersComplete = true → i.parser.done = false → Step srv m i (i.say .interim)
  | answer {i : Intake σ} (k : ℕ) : i.closing = false → i.inBuf ≠ [] →
      i.feed.parser.done = true →
      Step srv m i (i.feed.reset.say (answerTo srv m k i.feed.parser.req))
  | reject {i : Intake σ} (k : ℕ) : i.closing = false → i.inBuf ≠ [] →
      i.feed.parser.failed = true → i.feed.parser.threw = false →
      Step srv m i (i.feed.say (failureOf m k i.feed.parser))
  | close {i : Intake σ} : Step srv m i { i with closing := true }

theorem Step.limits {srv : Server ω σ} {m : Moment ω} {i j : Intake σ} (h : i.Step srv m j) :
    j.parser.limits = i.parser.limits := by
  cases h with
  | feed => exact RequestParser.feed_limits ..
  | answer => exact RequestParser.feed_limits ..
  | reject => exact RequestParser.feed_limits ..
  | _ => rfl

theorem Step.tame {srv : Server ω σ} {m : Moment ω} {i j : Intake σ} (h : i.Step srv m j)
    (hi : i.parser.Tame) : j.parser.Tame := by
  cases h with
  | feed => exact hi.feed _
  | answer => exact (hi.feed _).reset
  | reject => exact hi.feed _
  | _ => exact hi

end Intake

namespace Session

variable {srv : Server ω σ} {m : Moment ω} {s t : Session σ}

def intake (s : Session σ) : Intake σ where
  received := s.received
  fed := s.fed
  inBuf := s.conn.inBuf
  parser := s.conn.parser
  replies := s.log.map Prod.fst
  closing := s.conn.closeAfterWrite

@[simp] theorem sendSome_intake (room : ℕ) : (s.sendSome m room).intake = s.intake := by
  obtain ⟨_, _, _, h⟩ := exists_sendSome s m room
  rw [h]
  rfl

@[simp] theorem stopWriting_intake : s.stopWriting.intake = s.intake := rfl
@[simp] theorem attempt_intake (a : Attempt) : (s.attempt a).intake = s.intake := rfl
@[simp] theorem setSendfiles_intake (ks : List (Except Errno (ℕ × (Fd → Bytes)))) :
    (s.setSendfiles ks).intake = s.intake := rfl

@[simp] theorem transfer_intake (now : ℕ) (d : Bytes) : (s.transfer now d).intake = s.intake := by
  simp [transfer, intake]

@[simp] theorem moveFile_intake (room : ℕ) (left : Bytes) :
    (s.moveFile m room left).intake = s.intake := by
  obtain ⟨_, _, h⟩ := exists_moveFile s m room left
  rw [h]
  exact transfer_intake (s := s) m.nowUs (left.take (min s.fileWant room))

@[simp] theorem fileStep_intake (fd : Fd) (room : ℕ) (files : Fd → Bytes)
    (ks : List (Except Errno (ℕ × (Fd → Bytes)))) :
    (s.fileStep m fd room files ks).intake = s.intake := by
  unfold fileStep
  dsimp only
  split
  · simp
  · simp

@[simp] theorem takePiece_intake (piece : Bytes) : (s.takePiece piece).intake = s.intake := by
  unfold takePiece consumeStream
  split <;> simp [emit, intake]

theorem refills_intake {x y : Session σ × Bool} (h : ReflTransGen (Refill srv) x y) :
    y.1.intake = x.1.intake :=
  refills_frame (fun _ _ _ piece => takePiece_intake piece) h

theorem emit_intake (b : Bytes) : (s.emit b).intake = s.intake := by simp [emit, intake]

theorem finishStream_intake : s.finishStream.intake = s.intake ∨
    s.finishStream.intake = { s.intake with closing := true } := by
  have hs' : (if s.conn.chunked then s.emit (appendLastChunk [] s.conn.trailers) else s).intake =
      s.intake := by
    split
    · exact emit_intake _
    · rfl
  cases hshort : s.conn.streamSized && s.conn.streamLeft != 0 with
  | true =>
    right
    rw [← hs']
    simp [finishStream, intake, hshort]
  | false =>
    left
    rw [← hs']
    simp only [finishStream, intake, hshort, Bool.or_false]
    split <;> rfl

section InstallBody

variable (c : Connection σ) (res : Response σ) (f : Framing)

@[simp] theorem installBody_inBuf : (installBody c res f).inBuf = c.inBuf := by
  unfold installBody; dsimp only; repeat' split
  all_goals rfl

@[simp] theorem parser_installBody : (installBody c res f).parser = c.parser := by
  unfold installBody; dsimp only; repeat' split
  all_goals rfl

@[simp] theorem installBody_closeAfterWrite :
    (installBody c res f).closeAfterWrite = c.closeAfterWrite := by
  unfold installBody; dsimp only; repeat' split
  all_goals rfl

end InstallBody

theorem dispatch_intake (req : Request) :
    (s.dispatch srv m req).intake = s.intake.say (answerTo srv m s.metrics.requests req) := by
  unfold dispatch
  dsimp only
  split
  · simp [recordResponse, say, intake, Intake.say, answerTo, headOptions, writeHead, Reply.closes]
  · simp [recordResponse, say, intake, Intake.say, answerTo, headOptions, writeHead, Reply.closes]

theorem dispatchNext_intake : (s.dispatchNext srv m).intake =
    s.intake.reset.say (answerTo srv m s.metrics.requests s.conn.parser.req) :=
  dispatch_intake (s := { s with conn := { s.conn with parser := s.conn.parser.reset } }) _

theorem parseError_intake : (s.parseError m).intake =
    s.intake.say (failureOf m s.metrics.requests s.conn.parser) := by
  simp [parseError, queueError, recordResponse, say, intake, Intake.say, failureOf, Reply.closes]

theorem dispatchNext_replies : (s.dispatchNext srv m).log.map Prod.fst =
    s.log.map Prod.fst ++ [answerTo srv m s.metrics.requests s.conn.parser.req] :=
  congrArg Intake.replies dispatchNext_intake

theorem parseError_replies : (s.parseError m).log.map Prod.fst =
    s.log.map Prod.fst ++ [failureOf m s.metrics.requests s.conn.parser] :=
  congrArg Intake.replies parseError_intake

theorem holdsBack_closing (h : s.holdsBack = false) : s.intake.closing = false := by
  simp only [holdsBack, Bool.or_eq_false_iff] at h
  exact h.1.1

theorem mayRead_closing (h : s.mayRead srv = true) : s.intake.closing = false :=
  (mayRead_iff.mp h).1.2.2

/-- A step of a connection is a step of its intake or leaves it alone. -/
theorem Step.intake (h : Step srv m s t) :
    t.intake = s.intake ∨ s.intake.Step srv m t.intake := by
  cases h with
  | interrupted => exact .inl rfl
  | recv hmay _ _ =>
    exact .inr (.recv _ (mayRead_closing hmay) (mayRead_iff.mp hmay).2 (List.length_take_le ..))
  | eof => exact .inl rfl
  | noInput => exact .inl rfl
  | feed hback hin hf hd => exact .inr (.feed (holdsBack_closing hback) hin hf hd)
  | interim hback hw =>
    have hsay : s.sayContinue.intake = s.intake.say .interim := by
      simp [sayContinue, Session.say, Session.intake, Intake.say, Reply.closes]
    simp only [wantsContinue, Bool.and_eq_true, Bool.not_eq_true'] at hw
    rw [hsay]
    exact .inr (.interim (holdsBack_closing hback) hw.1.1.1 hw.1.2 hw.2)
  | answer hback hin hd =>
    rw [dispatchNext_intake]
    exact .inr (.answer _ (holdsBack_closing hback) hin hd)
  | reject hback hin hf hthrew =>
    rw [parseError_intake]
    exact .inr (.reject _ (holdsBack_closing hback) hin hf hthrew)
  | sendAgain => exact .inl rfl
  | send => exact .inl (sendSome_intake ..)
  | fileAgain => exact .inl rfl
  | file => exact .inl (fileStep_intake ..)
  | refill _ _ _ _ hr => exact .inl (refills_intake hr)
  | refillEnd _ _ _ _ hr =>
    have h := refills_intake hr
    dsimp only at h
    rw [← h]
    rcases finishStream_intake with h' | h'
    · exact .inl h'
    · rw [h']
      exact .inr .close

/-- What a step queues. A step that queues nothing leaves the parser alone, unless it feeds it. -/
inductive Queues (srv : Server ω σ) (m : Moment ω) (s t : Session σ) : Prop where
  | nothing : t.log.map Prod.fst = s.log.map Prod.fst → t.conn.parser = s.conn.parser →
      t.conn.continueSent = s.conn.continueSent →
      (s.conn.closeAfterWrite = true → t.conn.closeAfterWrite = true) → Queues srv m s t
  | feed : s.holdsBack = false → s.conn.inBuf ≠ [] →
      (s.feedInput m).conn.parser.failed = false → (s.feedInput m).conn.parser.done = false →
      t = s.feedInput m → Queues srv m s t
  | interim : s.holdsBack = false → s.wantsContinue = true →
      s.conn.parser.Waits s.conn.inBuf → t = s.sayContinue → Queues srv m s t
  | answer : s.holdsBack = false → s.conn.inBuf ≠ [] →
      (s.feedInput m).conn.parser.done = true →
      t = (s.feedInput m).dispatchNext srv m → Queues srv m s t
  | reject : s.holdsBack = false → s.conn.inBuf ≠ [] →
      (s.feedInput m).conn.parser.failed = true →
      t = (s.feedInput m).parseError m → Queues srv m s t

/-- What the connection remembers of a request besides the parser: whether the client has been
told to go on, and when the request began. -/
def marks (s : Session σ) : Bool × ℕ := (s.conn.continueSent, s.conn.requestStartUs)

@[simp] theorem sendSome_marks (room : ℕ) : (s.sendSome m room).marks = s.marks := by
  obtain ⟨_, _, _, h⟩ := exists_sendSome s m room
  rw [h]
  rfl

@[simp] theorem moveFile_marks (room : ℕ) (left : Bytes) :
    (s.moveFile m room left).marks = s.marks := by
  obtain ⟨_, _, h⟩ := exists_moveFile s m room left
  rw [h]
  rfl

@[simp] theorem fileStep_marks (fd : Fd) (room : ℕ) (files : Fd → Bytes)
    (ks : List (Except Errno (ℕ × (Fd → Bytes)))) :
    (s.fileStep m fd room files ks).marks = s.marks := by
  unfold fileStep; dsimp only; split
  · rfl
  · rw [moveFile_marks]; rfl

@[simp] theorem takePiece_marks (piece : Bytes) : (s.takePiece piece).marks = s.marks := by
  unfold takePiece consumeStream; split <;> rfl

theorem refills_marks {x y : Session σ × Bool} (h : ReflTransGen (Refill srv) x y) :
    y.1.marks = x.1.marks :=
  refills_frame (fun _ _ _ piece => takePiece_marks piece) h

@[simp] theorem finishStream_marks : s.finishStream.marks = s.marks := by
  unfold finishStream; dsimp only; split <;> rfl

theorem Queues.of_intake (h : t.intake = s.intake) (hm : t.marks = s.marks) : Queues srv m s t :=
  .nothing (congrArg Intake.replies h) (congrArg Intake.parser h) (congrArg Prod.fst hm)
    fun hs => (congrArg Intake.closing h).trans hs

theorem Step.queues (h : Step srv m s t) : Queues srv m s t := by
  cases h with
  | interrupted => exact .of_intake rfl rfl
  | recv => exact .nothing rfl rfl rfl id
  | eof => exact .of_intake rfl rfl
  | noInput => exact .of_intake rfl rfl
  | feed hback hin hf hd => exact .feed hback hin hf hd rfl
  | interim hback hw hwaits => exact .interim hback hw hwaits rfl
  | answer hback hin hd => exact .answer hback hin hd rfl
  | reject hback hin hf _ => exact .reject hback hin hf rfl
  | sendAgain => exact .of_intake rfl rfl
  | send => exact .of_intake (sendSome_intake ..) (sendSome_marks ..)
  | fileAgain => exact .of_intake rfl rfl
  | file => exact .of_intake (fileStep_intake ..) (fileStep_marks ..)
  | refill _ _ _ _ hr => exact .of_intake (refills_intake hr) (refills_marks hr)
  | @refillEnd u _ _ _ _ _ hr =>
    have hi : u.intake = s.intake := refills_intake hr
    have hm : u.finishStream.marks = s.marks := finishStream_marks.trans (refills_marks hr)
    rcases finishStream_intake (s := u) with h | h
    · exact .of_intake (h.trans hi) hm
    · rw [hi] at h
      exact .nothing (congrArg Intake.replies h) (congrArg Intake.parser h)
        (congrArg Prod.fst hm) fun _ => congrArg Intake.closing h

theorem Abort.intake (h : Abort srv s t) : t.intake = s.intake := by
  cases h with
  | refill _ _ _ _ hr ht =>
    have h := refills_intake hr
    rcases ht with rfl | ⟨_, _, rfl⟩ <;> exact h
  | _ => rfl

theorem invariant_intake {A : Moment ω → Kernel → Prop} {P : Intake σ → Prop}
    (h : P (accepted srv 0).intake)
    (hstep : ∀ {m k i j}, A m k → P i → Intake.Step srv m i j → P j) :
    Invariant srv A fun s => P s.intake where
  accepted _ := h
  wake _ _ _ _ hs := hs
  step hA _ hs ht := by
    rcases ht.intake with h | h
    · rwa [h]
    · exact hstep hA hs h

theorem Invariant.seen_intake {A : Moment ω → Kernel → Prop} {P : Intake σ → Prop}
    (h : Invariant srv A fun s => P s.intake) (ht : Seen srv A t) : P t.intake := by
  obtain ⟨s, hs, rfl | hab⟩ := h.seen ht
  · exact hs
  · rwa [hab.intake]

end Session

end Httpd
