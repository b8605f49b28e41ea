import Httpd.Server.Intake

/-! # The output of a connection

The output as a transcript: replies are opened one after the other, each with the bytes that
are serialized at once and the source of the rest, a file or a producer. Every step of a
connection is a sequence of steps of the transcript.
-/

namespace Httpd

open Relation Transcript

variable {ω σ : Type}

inductive Coding where
  | sized (left : ℕ)
  | chunked
  | plain

namespace Coding

def frame : Coding → Bytes → Bytes
  | .chunked, piece => appendChunk [] piece
  | _, piece => piece

def ending : Coding → Headers → Bytes
  | .chunked, trailers => appendLastChunk [] trailers
  | _, _ => []

def consume : Coding → ℕ → Coding
  | .sized left, n => .sized (left - n)
  | c, _ => c

def left? : Coding → Option ℕ
  | .sized left => some left
  | _ => none

end Coding

/-- Where the rest of a reply comes from. -/
inductive Source (σ : Type) where
  | idle
  | file (fd : Fd) (off left : ℕ)
  | stream (p : σ) (trailers : Headers) (coding : Coding)

def Connection.coding (c : Connection σ) : Coding :=
  if c.streamSized then .sized c.streamLeft else if c.chunked then .chunked else .plain

def Connection.source (c : Connection σ) : Source σ :=
  match c.file, c.producer with
  | some fd, _ => .file fd c.fileOff c.fileLeft
  | none, some p => .stream p c.trailers c.coding
  | none, none => .idle

def Response.source (res : Response σ) (framing : Framing) : Source σ :=
  match res.file, res.producer, res.streamLength with
  | some fd, _, _ => if res.fileLength = 0 then .idle else .file fd res.fileOffset res.fileLength
  | none, some p, some n => if n = 0 then .idle else .stream p .empty (.sized n)
  | none, some p, none => .stream p .empty (if framing = .chunked then .chunked else .plain)
  | none, none, _ => .idle

/-- The part of a body that is serialized with the head. -/
def Response.immediate (res : Response σ) : Bytes :=
  if res.file.isSome || res.producer.isSome then [] else res.body

/-- What a reply puts out at once, and the source of the rest. -/
def Reply.opening : Reply σ → Bytes × Source σ
  | .interim => (text "HTTP/1.1 100 Continue\r\n\r\n", .idle)
  | .failure res opts => (headText res opts ++ res.body, .idle)
  | .answer req res opts =>
    if req.method != text "HEAD" && (framingOf res opts).1 != .none then
      (headText res opts ++ res.immediate, res.source (framingOf res opts).1)
    else (headText res opts, .idle)

/-- What a source puts out next. A file is read as one of the admitted ones. -/
inductive Source.Emits (srv : Server ω σ) (F : (Fd → Bytes) → Prop) :
    Source σ → Bytes → Source σ → Prop where
  | file {fd : Fd} {off left : ℕ} {d : Bytes} {files : Fd → Bytes} : F files →
      d <+: (files fd).drop off → d.length ≤ left →
      Emits srv F (.file fd off left) d
        (if left - d.length = 0 then .idle else .file fd (off + d.length) (left - d.length))
  | piece {p next : σ} {piece : Bytes} {tr tr' : Headers} {c : Coding} :
      srv.call p tr = .returned true piece tr' next → piece ≠ [] →
      (∀ n ∈ c.left?, piece.length < n) →
      Emits srv F (.stream p tr c) (c.frame piece) (.stream next tr' (c.consume piece.length))
  | last {p next : σ} {more : Bool} {piece : Bytes} {tr tr' : Headers} {c : Coding} :
      srv.call p tr = .returned more piece tr' next → (more = true → piece ≠ []) →
      (c.left? = none → more = false) → (∀ n ∈ c.left?, piece.length = n) →
      Emits srv F (.stream p tr c) (c.frame piece ++ c.ending tr') .idle

/-- A producer ends before it has put out the announced length. -/
inductive Source.Truncates (srv : Server ω σ) : Source σ → Bytes → Prop where
  | short {p next : σ} {piece : Bytes} {tr tr' : Headers} {left : ℕ} :
      srv.call p tr = .returned false piece tr' next → piece.length < left →
      Truncates srv (.stream p tr (.sized left)) piece

def discipline (srv : Server ω σ) (F : (Fd → Bytes) → Prop) :
    Discipline (Reply σ) (Source σ) UInt8 where
  idle := .idle
  closes := Reply.closes
  Opens r b src := (b, src) = r.opening
  Emits := Source.Emits srv F
  Truncates := Source.Truncates srv

/-- At most one source is active, and a body of announced length is not chunked. -/
structure Connection.Kept (c : Connection σ) : Prop where
  off_le : c.outOff ≤ c.out.length
  one : c.file.isSome = true → c.producer = none
  sized : c.producer.isSome = true → c.streamSized = true → c.chunked = false

namespace Session

variable {srv : Server ω σ} {m : Moment ω} {s t : Session σ} {F : (Fd → Bytes) → Prop}

def transcript (s : Session σ) : Transcript.State (Reply σ) (Source σ) UInt8 where
  sent := s.sent
  pending := s.conn.pending
  log := s.log
  source := s.conn.source
  closed := s.conn.closeAfterWrite

theorem pending_append {c : Connection σ} (h : c.outOff ≤ c.out.length) (b : Bytes) :
    (c.out ++ b).drop c.outOff = c.pending ++ b := List.drop_append_of_le_length h

theorem pending_eq_nil {c : Connection σ} (h : c.outPending = 0) : c.pending = [] := by
  apply List.drop_eq_nil_of_le
  unfold Connection.outPending at h
  omega

theorem pending_of_not_hasOutput (hout : s.conn.hasOutput = false) : s.conn.pending = [] := by
  simp only [Connection.hasOutput, Bool.or_eq_false_iff, decide_eq_false_iff_not, not_lt,
    Nat.le_zero] at hout
  exact pending_eq_nil hout.1

theorem source_idle (hout : s.conn.hasOutput = false) : s.transcript.source = .idle := by
  simp only [Connection.hasOutput, Connection.bodySourceActive, Bool.or_eq_false_iff,
    Option.isSome_eq_false_iff, Option.isNone_iff_eq_none] at hout
  simp [transcript, Connection.source, hout.2.1, hout.2.2]

section InstallBody

variable {c : Connection σ} {res : Response σ} {f : Framing}

@[simp] theorem installBody_out : (installBody c res f).out = c.out ++ res.immediate := by
  unfold installBody Response.immediate
  dsimp only
  repeat' split
  all_goals simp_all

@[simp] theorem installBody_outOff : (installBody c res f).outOff = c.outOff := by
  unfold installBody
  dsimp only
  repeat' split
  all_goals rfl

theorem installBody_source (hfile : c.file = none) (hprod : c.producer = none) :
    (installBody c res f).source = res.source f := by
  unfold installBody Response.source
  dsimp only
  split
  · next fd _ hres =>
    rw [hres]
    split
    · next hpos => simp [Connection.source, Nat.pos_iff_ne_zero.mp hpos]
    · next hpos => simp [Connection.source, hfile, hprod, Nat.eq_zero_of_not_pos hpos]
  · next p hres hres' =>
    rw [hres, hres']
    cases hlen : res.streamLength with
    | none => simp [Connection.source, Connection.coding, hfile]
    | some n =>
      rcases Nat.eq_zero_or_pos n with rfl | hn
      · simp [Connection.source, hfile, hprod]
      · simp [Connection.source, Connection.coding, hfile, hn.ne']
  · next hres hres' =>
    rw [hres, hres']
    simp [Connection.source, hfile, hprod]

end InstallBody

theorem idle_of_holdsBack (h : s.holdsBack = false) :
    s.conn.closeAfterWrite = false ∧ s.conn.file = none ∧ s.conn.producer = none := by
  simp only [holdsBack, Connection.bodySourceActive, Bool.or_eq_false_iff,
    Option.isSome_eq_false_iff, Option.isNone_iff_eq_none] at h
  exact ⟨h.1.1, h.1.2⟩

def opened (s : Session σ) (r : Reply σ) : Transcript.State (Reply σ) (Source σ) UInt8 :=
  { s.transcript with
    pending := s.conn.pending ++ r.opening.1
    log := s.log ++ [(r, r.opening.1)]
    source := r.opening.2
    closed := r.closes }

theorem step_opened (hback : s.holdsBack = false) (r : Reply σ) :
    Transcript.State.Step (discipline srv F) s.transcript (s.opened r) := by
  obtain ⟨hclose, hfile, hprod⟩ := idle_of_holdsBack hback
  exact .opening (by simp [transcript, Connection.source, hfile, hprod, discipline]) hclose rfl

theorem sayContinue_transcript (hk : s.conn.Kept) (hback : s.holdsBack = false) :
    s.sayContinue.transcript = s.opened .interim := by
  obtain ⟨hclose, hfile, hprod⟩ := idle_of_holdsBack hback
  simp only [sayContinue, say, transcript, opened, Reply.opening, Reply.closes, Connection.pending,
    pending_append hk.off_le, List.drop_left, hclose, Connection.source, hfile, hprod]

theorem dispatch_transcript (hk : s.conn.Kept) (hback : s.holdsBack = false) (req : Request) :
    (s.dispatch srv m req).transcript = s.opened (answerTo srv m s.metrics.requests req) := by
  obtain ⟨hclose, hfile, hprod⟩ := idle_of_holdsBack hback
  unfold dispatch
  dsimp only
  split
  · next hbody =>
    simp only [recordResponse, say, transcript, opened, answerTo, Reply.opening, Reply.closes,
      Connection.pending, writeHead, headOptions, installBody_out, installBody_outOff,
      installBody_closeAfterWrite, hclose, Bool.false_or] at hbody ⊢
    simp only [hbody, if_true, List.append_assoc, pending_append hk.off_le, List.drop_left]
    exact congrArg (fun src => Transcript.State.mk _ _ _ src _) (installBody_source hfile hprod)
  · next hbody =>
    simp only [recordResponse, say, transcript, opened, answerTo, Reply.opening, Reply.closes,
      Connection.pending, writeHead, headOptions, hclose, Bool.false_or] at hbody ⊢
    simp [hbody, pending_append hk.off_le, Connection.source, hfile, hprod, Connection.pending]

theorem dispatchNext_transcript (hk : s.conn.Kept) (hback : s.holdsBack = false) :
    (s.dispatchNext srv m).transcript =
      s.opened (answerTo srv m s.metrics.requests s.conn.parser.req) :=
  dispatch_transcript (s := { s with conn := { s.conn with parser := s.conn.parser.reset } })
    ⟨hk.1, hk.2, hk.3⟩ hback _

theorem parseError_transcript (hk : s.conn.Kept) (hback : s.holdsBack = false) :
    (s.parseError m).transcript = s.opened (failureOf m s.metrics.requests s.conn.parser) := by
  obtain ⟨hclose, hfile, hprod⟩ := idle_of_holdsBack hback
  simp [parseError, queueError, recordResponse, say, transcript, opened, failureOf, Reply.opening,
    Reply.closes, writeHead, Connection.source, hfile, hprod, Connection.pending,
    pending_append hk.off_le]

theorem dropSent_pending (c : Connection σ) (n : ℕ) :
    (dropSent c n).pending = c.pending.drop n := by
  unfold dropSent Connection.pending
  rw [List.drop_drop]
  split
  · next h => rw [h]; simp
  · split <;> simp

theorem dropSent_source (c : Connection σ) (n : ℕ) : (dropSent c n).source = c.source := by
  obtain ⟨_, _, h⟩ := exists_dropSent c n
  rw [h]
  rfl

theorem dropSent_closeAfterWrite (c : Connection σ) (n : ℕ) :
    (dropSent c n).closeAfterWrite = c.closeAfterWrite := by
  obtain ⟨_, _, h⟩ := exists_dropSent c n
  rw [h]

theorem accept_transcript (now n : ℕ) : (s.accept now n).transcript = { s.transcript with
    sent := s.sent ++ s.conn.pending.take n
    pending := s.conn.pending.drop n } := by
  have hpend := dropSent_pending s.conn n
  have hsource := dropSent_source s.conn n
  have hclose := dropSent_closeAfterWrite s.conn n
  unfold Connection.pending Connection.source Connection.coding at *
  simp only [accept, transcript, Connection.pending, Connection.source, Connection.coding, hpend,
    hsource, hclose]

theorem sendSome_transcript (room : ℕ) : (s.sendSome m room).transcript = { s.transcript with
    sent := s.sent ++ s.conn.pending.take (min room s.conn.outPending)
    pending := s.conn.pending.drop (min room s.conn.outPending) } := by
  unfold sendSome
  dsimp only
  split <;> exact accept_transcript (s := s.attempt _) m.nowUs _

theorem moveFile_transcript {fd : Fd} (hfile : s.conn.file = some fd)
    (hprod : s.conn.producer = none) (room : ℕ) (left : Bytes) :
    (s.moveFile m room left).transcript =
      let d := left.take (min s.fileWant room)
      s.transcript.emitDirectly d (if s.conn.fileLeft - d.length = 0 then .idle
        else .file fd (s.conn.fileOff + d.length) (s.conn.fileLeft - d.length)) := by
  unfold moveFile
  dsimp only [transfer]
  split
  · simp [resetFile, transcript, Transcript.State.emitDirectly, Connection.source, hprod,
      Connection.pending]
  · split <;> simp [stopWriting, transcript, Transcript.State.emitDirectly, Connection.source,
      hfile, Connection.pending]

theorem fileStep_transcript (hk : s.conn.Kept) {fd : Fd} {room : ℕ} {files : Fd → Bytes}
    {ks : List (Except Errno (ℕ × (Fd → Bytes)))} (ho : s.conn.outPending = 0)
    (hfile : s.conn.file = some fd) (hF : F files) :
    Transcript.State.Steps (discipline srv F) s.transcript
      (s.fileStep m fd room files ks).transcript := by
  unfold fileStep
  dsimp only
  split
  · exact .refl
  · let u := (s.setSendfiles ks).attempt
      (.file s.fileWant room ((files fd).drop s.conn.fileOff).length)
    have hprod : s.conn.producer = none := hk.one (by simp [hfile])
    have hsource : s.transcript.source = .file fd s.conn.fileOff s.conn.fileLeft := by
      simp [transcript, Connection.source, hfile]
    have hmove := moveFile_transcript (s := u) (m := m) hfile hprod room
      ((files fd).drop s.conn.fileOff)
    rw [hmove]
    apply ReflTransGen.single
    apply Transcript.State.Step.direct
    · change s.transcript.source ≠ .idle
      simp [hsource]
    · exact pending_eq_nil ho
    · change Source.Emits srv F s.transcript.source _ _
      rw [hsource]
      apply Source.Emits.file hF (List.take_prefix ..)
      rw [List.length_take]
      change min (min (min s.conn.fileLeft kSendfileMax) room) _ ≤ _
      omega

theorem framePiece_eq (c : Connection σ) (piece : Bytes) :
    framePiece c piece = c.coding.frame piece := by
  unfold framePiece Connection.coding
  cases c.streamSized <;> cases c.chunked <;> rfl

theorem takePiece_transcript (hk : s.conn.Kept) (hfile : s.conn.file = none) (next : σ)
    (trailers : Headers) (piece : Bytes) :
    ((s.setProducer next trailers).takePiece piece).transcript =
      s.transcript.emit (s.conn.coding.frame piece)
        (.stream next trailers (s.conn.coding.consume piece.length)) := by
  unfold takePiece consumeStream
  cases hsized : s.conn.streamSized <;> cases hch : s.conn.chunked <;>
    simp [setProducer, emit, transcript, Transcript.State.emit, Connection.source, hfile,
      Connection.coding, hsized, hch, Coding.consume, Coding.frame, framePiece,
      pending_append hk.off_le, Connection.pending]

theorem takePiece_kept (hk : s.conn.Kept) (hfile : s.conn.file = none) (hprod : s.conn.producer.isSome)
    (next : σ) (trailers : Headers) (piece : Bytes) :
    ((s.setProducer next trailers).takePiece piece).conn.Kept ∧
      ((s.setProducer next trailers).takePiece piece).conn.file = none := by
  have hoff := hk.off_le
  have hsized := hk.sized hprod
  unfold takePiece consumeStream
  split <;> refine ⟨⟨?_, ?_, ?_⟩, hfile⟩ <;> simp_all [setProducer, emit] <;> omega

theorem finishStream_transcript (hk : s.conn.Kept) (hfile : s.conn.file = none)
    (hprod : s.conn.producer.isSome = true) : s.finishStream.transcript =
      { s.transcript.emit (s.conn.coding.ending s.conn.trailers) .idle with
        closed := s.conn.closeAfterWrite || s.conn.coding.left?.any (· != 0) } := by
  have hexcl := hk.sized hprod
  unfold finishStream
  cases hsized : s.conn.streamSized <;> cases hch : s.conn.chunked <;>
    simp_all [emit, transcript, Transcript.State.emit, Connection.source, Connection.coding,
      Coding.ending, Coding.left?, pending_append hk.off_le, Connection.pending]

theorem source_stream {p : σ} (hfile : s.conn.file = none) (hprod : s.conn.producer = some p) :
    s.transcript.source = .stream p s.conn.trailers s.conn.coding := by
  simp [transcript, Connection.source, hfile, hprod]

theorem coding_left? (c : Connection σ) :
    c.coding.left? = if c.streamSized then some c.streamLeft else none := by
  unfold Connection.coding
  cases c.streamSized <;> cases c.chunked <;> rfl

theorem takePiece_coding (next : σ) (trailers : Headers) (piece : Bytes) :
    ((s.setProducer next trailers).takePiece piece).conn.coding =
      s.conn.coding.consume piece.length := by
  unfold takePiece consumeStream Connection.coding
  cases hsized : s.conn.streamSized <;> cases hch : s.conn.chunked <;>
    simp [setProducer, emit, hsized, hch, Coding.consume]

theorem takePiece_flags (next : σ) (trailers : Headers) (piece : Bytes) :
    ((s.setProducer next trailers).takePiece piece).conn.trailers = trailers ∧
      ((s.setProducer next trailers).takePiece piece).conn.closeAfterWrite =
        s.conn.closeAfterWrite := by
  unfold takePiece consumeStream
  split <;> exact ⟨rfl, rfl⟩

theorem exhausted_eq (c : Connection σ) :
    (c.streamSized && c.streamLeft == 0) = c.coding.left?.any (· == 0) := by
  rw [coding_left?]
  cases c.streamSized <;> simp

theorem left?_consume (c : Coding) (n : ℕ) : (c.consume n).left? = c.left?.map (· - n) := by
  cases c <;> rfl

theorem Refill.transcript (h : Refill srv (s, true) (t, true)) (hk : s.conn.Kept)
    (hfile : s.conn.file = none) :
    Transcript.State.Step (discipline srv F) s.transcript t.transcript := by
  generalize hy : (t, true) = y at h
  cases h with
  | @piece _ t' p next more piece trailers hp hcall hspin hsize ht =>
    obtain ⟨rfl, hmore⟩ := Prod.mk.inj hy
    symm at hmore
    rw [Bool.and_eq_true, Bool.not_eq_true', exhausted_eq, ht, takePiece_coding,
      left?_consume] at hmore
    obtain ⟨rfl, hleft⟩ := hmore
    have hsource := source_stream hfile hp
    rw [ht, takePiece_transcript hk hfile]
    apply Transcript.State.Step.emit
    · simp [hsource, discipline]
    · rw [hsource]
      refine .piece hcall (hspin rfl) fun n hn => ?_
      rw [hn] at hleft
      simp only [Option.map_some, Option.any_some, beq_eq_false_iff_ne] at hleft
      omega

@[simp] theorem ending_consume (c : Coding) (n : ℕ) (trailers : Headers) :
    (c.consume n).ending trailers = c.ending trailers := by
  cases c <;> rfl

theorem Refill.transcript_last (h : Refill srv (s, true) (t, false)) (hk : s.conn.Kept)
    (hfile : s.conn.file = none) :
    Transcript.State.Step (discipline srv F) s.transcript t.finishStream.transcript := by
  generalize hy : (t, false) = y at h
  cases h with
  | @piece _ t' p next more piece trailers hp hcall hspin hsize ht =>
    obtain ⟨rfl, hmore⟩ := Prod.mk.inj hy
    symm at hmore
    rw [Bool.and_eq_false_iff, Bool.not_eq_false', exhausted_eq, ht, takePiece_coding,
      left?_consume] at hmore
    have hkept := takePiece_kept hk hfile (by simp [hp]) next trailers piece
    have hflags := takePiece_flags (s := s) next trailers piece
    have hsource := source_stream hfile hp
    have hactive : s.transcript.source ≠ (discipline srv F).idle := by simp [hsource, discipline]
    have hle : ∀ n ∈ s.conn.coding.left?, piece.length ≤ n := by
      intro n hn
      rw [coding_left?] at hn
      split at hn
      · next hsized => cases hn; exact hsize hsized
      · cases hn
    rw [ht, finishStream_transcript hkept.1 hkept.2 (by simp [setProducer]), takePiece_coding,
      takePiece_transcript hk hfile, Transcript.State.emit_emit, left?_consume, ending_consume,
      hflags.1, hflags.2]
    by_cases hshort : ∃ n ∈ s.conn.coding.left?, piece.length < n
    · obtain ⟨n, hn, hlt⟩ := hshort
      have hc : s.conn.coding = .sized n := by
        cases hc : s.conn.coding with
        | sized left => rw [hc] at hn; cases hn; rfl
        | _ => rw [hc] at hn; cases hn
      have hfalse : more = false := by
        refine hmore.resolve_right ?_
        simp only [hc, Coding.left?, Option.map_some, Option.any_some, beq_iff_eq]
        omega
      have htrunc : Source.Truncates srv s.transcript.source piece := by
        rw [hsource, hc]
        exact .short (hfalse ▸ hcall) hlt
      have hclosed : (n - piece.length != 0) = true := by
        rw [bne_iff_ne]
        omega
      have hstep := Transcript.State.Step.truncate (D := discipline srv F) hactive htrunc
      simpa [hc, Coding.left?, Coding.frame, Coding.ending, hclosed, discipline] using hstep
    · have heq : ∀ n ∈ s.conn.coding.left?, piece.length = n := fun n hn =>
        le_antisymm (hle n hn) (not_lt.mp fun hlt => hshort ⟨n, hn, hlt⟩)
      have hnone : s.conn.coding.left? = none → more = false := by
        intro hleft
        simpa [hleft] using hmore
      have hemits : Source.Emits srv F s.transcript.source
          (s.conn.coding.frame piece ++ s.conn.coding.ending trailers) .idle := by
        rw [hsource]
        exact .last hcall hspin hnone heq
      have hopen : (s.conn.coding.left?.map (· - piece.length)).any (· != 0) = false := by
        cases hleft : s.conn.coding.left? with
        | none => rfl
        | some n => simp [heq n hleft]
      rw [hopen, Bool.or_false]
      exact Transcript.State.Step.emit (D := discipline srv F) hactive hemits

theorem framingOf_sized {res : Response σ} {opts : HeadOptions} {n : ℕ} (hfile : res.file = none)
    (hlen : res.streamLength = some n) : (framingOf res opts).1 ≠ .chunked := by
  unfold framingOf
  split
  · simp
  · simp only [hfile, Option.isSome_none, Bool.false_eq_true, if_false, hlen]
    split <;> simp

theorem installBody_kept {c : Connection σ} {res : Response σ} {opts : HeadOptions}
    (hoff : c.outOff ≤ c.out.length) (hfile : c.file = none) (hprod : c.producer = none) :
    (installBody c res (framingOf res opts).1).Kept := by
  refine ⟨?_, ?_, ?_⟩
  · rw [installBody_out, installBody_outOff, List.length_append]; omega
  · unfold installBody
    dsimp only
    split
    · split <;> simp [hprod]
    · split <;> simp [hfile]
    · simp [hfile]
  · unfold installBody
    dsimp only
    split
    · split <;> simp [hprod]
    · next p hres _ =>
      split
      · simp [hprod]
      · intro _ hsized
        obtain ⟨n, hn⟩ := Option.isSome_iff_exists.mp hsized
        simpa using framingOf_sized hres hn
    · simp [hprod]

theorem dispatchNext_kept (hk : s.conn.Kept) (hback : s.holdsBack = false) :
    (s.dispatchNext srv m).conn.Kept := by
  obtain ⟨-, hfile, hprod⟩ := idle_of_holdsBack hback
  have hlen (res : Response σ) (opts : HeadOptions) :
      s.conn.outOff ≤ (writeHead s.conn.out res opts).1.length := by
    have := hk.off_le
    rw [writeHead, List.length_append]
    omega
  unfold dispatchNext dispatch
  dsimp only [say, recordResponse]
  split
  · constructor
    · exact (installBody_kept (by exact hlen _ _) (by exact hfile) (by exact hprod)).off_le
    · exact (installBody_kept (by exact hlen _ _) (by exact hfile) (by exact hprod)).one
    · exact (installBody_kept (by exact hlen _ _) (by exact hfile) (by exact hprod)).sized
  · exact ⟨hlen _ _, hk.one, hk.sized⟩

theorem dropSent_kept {c : Connection σ} (hk : c.Kept) (n : ℕ) : (dropSent c n).Kept := by
  unfold dropSent
  split
  · exact ⟨le_rfl, hk.one, hk.sized⟩
  · split
    · exact ⟨Nat.zero_le _, hk.one, hk.sized⟩
    · exact ⟨by dsimp only; omega, hk.one, hk.sized⟩

theorem sendSome_kept (hk : s.conn.Kept) (room : ℕ) : (s.sendSome m room).conn.Kept := by
  have hdrop := dropSent_kept hk (min room s.conn.outPending)
  unfold sendSome accept
  dsimp only [attempt, stopWriting]
  split <;> exact ⟨hdrop.off_le, hdrop.one, hdrop.sized⟩

theorem moveFile_kept (hk : s.conn.Kept) (room : ℕ) (left : Bytes) :
    (s.moveFile m room left).conn.Kept := by
  unfold moveFile
  dsimp only
  split
  · exact ⟨hk.off_le, by simp [resetFile], hk.sized⟩
  · split <;> exact ⟨hk.off_le, hk.one, hk.sized⟩

theorem finishStream_kept (hk : s.conn.Kept) : s.finishStream.conn.Kept := by
  have := hk.off_le
  unfold finishStream
  dsimp only
  split
  · exact ⟨by simp [emit]; omega, by simp, by simp⟩
  · exact ⟨hk.off_le, by simp, by simp⟩

theorem refills_transcript {x y : Session σ × Bool} (h : ReflTransGen (Refill srv) x y)
    (hx : x.2 = true) (hk : x.1.conn.Kept) (hfile : x.1.conn.file = none)
    (hprod : x.1.conn.producer.isSome = true) : y.1.conn.Kept ∧ y.1.conn.file = none ∧
      (y.2 = true → Transcript.State.Steps (discipline srv F) x.1.transcript y.1.transcript) ∧
      (y.2 = false →
        Transcript.State.Steps (discipline srv F) x.1.transcript y.1.finishStream.transcript) := by
  induction h with
  | refl => exact ⟨hk, hfile, fun _ => .refl, fun h => by simp [hx] at h⟩
  | @tail u v hu hstep ih =>
    obtain ⟨u, b⟩ := u
    obtain ⟨v, c⟩ := v
    obtain ⟨hku, hfu, hmore, -⟩ := ih
    have hpu := refills_producer hu hprod
    have hkv : v.conn.Kept ∧ v.conn.file = none := by
      cases hstep with
      | piece _ _ _ _ ht => rw [ht]; exact takePiece_kept hku hfu hpu _ _ _
    obtain rfl : b = true := by cases hstep; rfl
    refine ⟨hkv.1, hkv.2, ?_, ?_⟩
    · rintro rfl
      exact (hmore rfl).tail (hstep.transcript hku hfu)
    · rintro rfl
      exact (hmore rfl).tail (hstep.transcript_last hku hfu)

theorem Step.kept (h : Step srv m s t) (hk : s.conn.Kept) : t.conn.Kept := by
  have hkeep {c : Connection σ} (h₁ : c.out = s.conn.out) (h₂ : c.outOff = s.conn.outOff)
      (h₃ : c.file = s.conn.file) (h₄ : c.producer = s.conn.producer)
      (h₅ : c.streamSized = s.conn.streamSized) (h₆ : c.chunked = s.conn.chunked) : c.Kept :=
    ⟨by rw [h₁, h₂]; exact hk.off_le, by rw [h₃, h₄]; exact hk.one,
      by rw [h₄, h₅, h₆]; exact hk.sized⟩
  have hoff := hk.off_le
  cases h with
  | interim =>
    exact ⟨by simp [sayContinue, say]; omega, hk.one, hk.sized⟩
  | answer hback => exact dispatchNext_kept (hkeep rfl rfl rfl rfl rfl rfl) hback
  | reject =>
    exact ⟨by simp [parseError, queueError, recordResponse, say, writeHead, feedInput]; omega,
      hk.one, hk.sized⟩
  | send => exact sendSome_kept (by exact hkeep rfl rfl rfl rfl rfl rfl) _
  | file =>
    unfold fileStep
    dsimp only
    split
    · exact hkeep rfl rfl rfl rfl rfl rfl
    · exact moveFile_kept (by exact hkeep rfl rfl rfl rfl rfl rfl) _ _
  | refill _ _ hfile hp hr =>
    exact (refills_transcript (F := fun _ => True) hr rfl hk hfile (by simp [hp])).1
  | refillEnd _ _ hfile hp hr =>
    exact finishStream_kept
      (refills_transcript (F := fun _ => True) hr rfl hk hfile (by simp [hp])).1
  | _ => exact hkeep rfl rfl rfl rfl rfl rfl

/-- A step of a connection is a sequence of steps of its transcript. -/
theorem Step.transcript (h : Step srv m s t) (hk : s.conn.Kept)
    (hF : ∀ room files, .ok (room, files) ∈ s.kernel.sendfiles → F files) :
    Transcript.State.Steps (discipline srv F) s.transcript t.transcript := by
  have hk' : (s.feedInput m).conn.Kept := ⟨hk.off_le, hk.one, hk.sized⟩
  cases h with
  | interim hback _ =>
    rw [sayContinue_transcript hk hback]
    exact .single (step_opened hback _)
  | answer hback _ _ =>
    rw [dispatchNext_transcript hk' hback]
    exact .single (step_opened (s := s.feedInput m) hback _)
  | reject hback _ _ =>
    rw [parseError_transcript hk' hback]
    exact .single (step_opened (s := s.feedInput m) hback _)
  | send _ _ _ =>
    rw [sendSome_transcript]
    exact .single (.deliver _)
  | file _ ho hfile hks _ =>
    exact fileStep_transcript hk ho hfile (hF _ _ (hks ▸ List.mem_cons_self))
  | refill _ _ hfile hp hr =>
    exact (refills_transcript hr rfl hk hfile (by simp [hp])).2.2.1 rfl
  | refillEnd _ _ hfile hp hr =>
    exact (refills_transcript hr rfl hk hfile (by simp [hp])).2.2.2 rfl
  | _ => exact .refl

/-- A call that gives up leaves a transcript that steps lead to, but for the state of the
producer. -/
theorem Abort.transcript (h : Abort srv s t) (hk : s.conn.Kept) :
    ∃ src, Transcript.State.Steps (discipline srv F) s.transcript
      { t.transcript with source := src } := by
  cases h with
  | refill _ _ hfile hp hr ht =>
    have hsteps := (refills_transcript (F := F) hr rfl hk hfile (by simp [hp])).2.2.1 rfl
    rcases ht with rfl | ⟨next, trailers, rfl⟩ <;> exact ⟨_, hsteps⟩
  | _ => exact ⟨s.conn.source, .refl⟩

/-- What the steps of transcripts keep holds of the transcript of every connection. -/
theorem invariant_transcript {A : Moment ω → Kernel → Prop}
    (hA : ∀ m k, A m k → ∀ room files, .ok (room, files) ∈ k.sendfiles → F files)
    {Done : Reply σ → Bytes → Prop} {Last : Reply σ → Bytes → Source σ → Bool → Prop}
    (hkeeps : Transcript.State.Keeps (discipline srv F) Done Last) :
    Invariant srv A fun s => s.conn.Kept ∧
      Transcript.State.Shape (discipline srv F) Done Last s.transcript where
  accepted _ := ⟨⟨le_rfl, by simp [accepted], by simp [accepted]⟩, Transcript.State.shape_initial⟩
  wake _ _ _ _ h := ⟨⟨h.1.off_le, h.1.one, h.1.sized⟩, h.2⟩
  step hAm hadv h hstep := by
    refine ⟨hstep.kept h.1, h.2.steps hkeeps (hstep.transcript h.1 fun room files hmem => ?_)⟩
    exact hA _ _ hAm room files (hadv.sendfiles.subset hmem)

/-- At every moment the transcript has the shape that its steps keep, up to the source. -/
theorem seen_shape {A : Moment ω → Kernel → Prop}
    (hA : ∀ m k, A m k → ∀ room files, .ok (room, files) ∈ k.sendfiles → F files)
    {Done : Reply σ → Bytes → Prop} {Last : Reply σ → Bytes → Source σ → Bool → Prop}
    (hkeeps : Transcript.State.Keeps (discipline srv F) Done Last) (ht : Seen srv A t) :
    ∃ src, Transcript.State.Shape (discipline srv F) Done Last { t.transcript with source := src } := by
  obtain ⟨s, ⟨hk, hs⟩, rfl | hab⟩ := (invariant_transcript hA hkeeps).seen ht
  · exact ⟨_, hs⟩
  · obtain ⟨src, hsteps⟩ := hab.transcript hk
    exact ⟨src, hs.steps hkeeps hsteps⟩

end Session

end Httpd
