import Httpd.Library.Loop
import Httpd.Library.Transcript
import Httpd.Obs.Metrics
import Httpd.Parser.Passes
import Httpd.Server.Router

/-! # Connections

One connection of a worker and `Server::Worker::drive`, from `server.cpp`. The kernel is
a script of the results that its calls return, for as long as it is known; where the script
ends, the bound on the passes of a loop is reached, or an exception that nobody catches leaves
the parser, the call is cut. Results about every cut are results about every moment of a run.

Next to the state of the source a session keeps the bytes received and the bytes the
kernel has accepted, the outcome of every feed, each reply that was queued with the bytes
written for it so far, and the write attempts.
-/

namespace Httpd

open Loop
open Transcript (extendLast)

def kReadSize : ℕ := 16 * 1024
def kOutHighWater : ℕ := 256 * 1024
def kProducerLowWater : ℕ := 64 * 1024
def kSendfileMax : ℕ := 2 ^ 20

variable {ω σ : Type}

def elapsed (now past : ℕ) : ℕ := wrap (now + 2 ^ 64 - past)

/-- The result of a call of a producer: whether there is more, the piece it has appended and
the trailers it has set, with the producer for the next call. -/
inductive Produced (σ : Type) where
  | returned (more : Bool) (piece : Bytes) (trailers : Headers) (next : σ)
  | threw

/-- The configuration of a server: its limits, its routes and what its producers do. -/
structure Server (ω σ : Type) where
  limits : ParserLimits := {}
  router : Router ω σ := {}
  call : σ → Headers → Produced σ

def Server.maxInBuffer (srv : Server ω σ) : ℕ :=
  max (64 * 1024) (wrap (srv.limits.maxRequestLine + srv.limits.maxHeaderBytes))

/-- What a worker knows during a call of `drive`. The clock, the date and the world that
handlers look at may change with every response. -/
structure Moment (ω : Type) where
  draining : Bool := false
  nowUs : ℕ
  monoUs : ℕ → ℕ
  date : ℕ → Bytes
  date_clean : ∀ k, ∀ c ∈ date k, isCtl c = false
  world : ℕ → ω

structure Connection (σ : Type) where
  inBuf : Bytes := []
  parser : RequestParser
  out : Bytes := []
  outOff : ℕ := 0
  file : Option Fd := none
  fileOff : ℕ := 0
  fileLeft : ℕ := 0
  producer : Option σ := none
  trailers : Headers := .empty
  chunked : Bool := false
  streamSized : Bool := false
  streamLeft : ℕ := 0
  canRead : Bool := true
  canWrite : Bool := true
  peerClosed : Bool := false
  closeAfterWrite : Bool := false
  continueSent : Bool := false
  lastActiveUs : ℕ
  requestStartUs : ℕ := 0

namespace Connection

variable (c : Connection σ)

def outPending : ℕ := c.out.length - c.outOff
def bodySourceActive : Bool := c.file.isSome || c.producer.isSome
def hasOutput : Bool := 0 < c.outPending || c.bodySourceActive

def pending : Bytes := c.out.drop c.outOff

end Connection

inductive Errno where
  | eintr
  | eagain
  | other
  deriving DecidableEq, Repr

/-- The results of the calls to come. Data of length zero is the end of the stream; a send
accepts as much as there is room for; a file is read as it is at that moment. -/
structure Kernel where
  recvs : List (Except Errno Bytes) := []
  sends : List (Except Errno ℕ) := []
  sendfiles : List (Except Errno (ℕ × (Fd → Bytes))) := []

/-- What a connection queues: an interim response, the answer to a request, or the response
to a request that cannot be parsed. -/
inductive Reply (σ : Type) where
  | interim
  | answer (req : Request) (res : Response σ) (opts : HeadOptions)
  | failure (res : Response σ) (opts : HeadOptions)

/-- A write that was tried: what was wanted and what was accepted, or for a file how much
room there was and what was left of the file. -/
inductive Attempt where
  | send (want accepted : ℕ)
  | blocked
  | file (want room left : ℕ)
  deriving DecidableEq, Repr

structure Session (σ : Type) where
  conn : Connection σ
  metrics : WorkerMetrics := {}
  kernel : Kernel := {}
  received : Bytes := []
  sent : Bytes := []
  fed : List (RequestParser × ℕ) := []
  log : List (Reply σ × Bytes) := []
  attempts : List Attempt := []

/-- How a phase of `drive` ends: whether the connection goes on, and whether there has been
progress. -/
structure Phase (σ : Type) where
  ok : Bool
  session : Session σ
  progress : Bool

abbrev Working (σ : Type) := Session σ × Bool

namespace Session

variable (s : Session σ)

def setRecvs (rs : List (Except Errno Bytes)) : Session σ :=
  { s with kernel := { s.kernel with recvs := rs } }

def commit (now : ℕ) (d : Bytes) : Session σ :=
  { s with
    conn := { s.conn with inBuf := s.conn.inBuf ++ d, lastActiveUs := now }
    metrics := s.metrics.bump .bytesReceived d.length
    received := s.received ++ d }

def sawEof : Session σ := { s with conn := { s.conn with peerClosed := true } }

def stopReading : Session σ := { s with conn := { s.conn with canRead := false } }

def readPass (srv : Server ω σ) (m : Moment ω) (x : Working σ) :
    Except (Session σ) (Flow (Working σ) (Phase σ)) :=
  if x.1.conn.inBuf.length < srv.maxInBuffer then
    match x.1.kernel.recvs with
    | [] => .error x.1
    | .ok d :: rs =>
      if (d.take kReadSize).isEmpty then .ok (.leave ⟨true, (x.1.setRecvs rs).sawEof, true⟩)
      else .ok (.again ((x.1.setRecvs rs).commit m.nowUs (d.take kReadSize), true))
    | .error .eintr :: rs => .ok (.again (x.1.setRecvs rs, x.2))
    | .error .eagain :: rs => .ok (.leave ⟨true, (x.1.setRecvs rs).stopReading, x.2⟩)
    | .error .other :: rs => .ok (.leave ⟨false, x.1.setRecvs rs, x.2⟩)
  else .ok (.leave ⟨true, x.1, x.2⟩)

def doRead (srv : Server ω σ) (m : Moment ω) (fuel : ℕ) (progress : Bool) :
    Except (Session σ) (Phase σ) :=
  loop Prod.fst (readPass srv m) fuel (s, progress)

/-- Put a new connection state in place of the old one, noting what it has queued. -/
def say (r : Reply σ) (c : Connection σ) : Session σ :=
  { s with conn := c, log := s.log ++ [(r, c.out.drop s.conn.out.length)] }

def recordResponse (m : Moment ω) (status : ℕ) : Session σ :=
  let w := s.metrics.recordStatus status
  { s with
    metrics :=
      if s.conn.requestStartUs = 0 then w
      else w.observeLatencyUs (elapsed (m.monoUs s.metrics.requests) s.conn.requestStartUs)
    conn := { s.conn with requestStartUs := 0 } }

def errorResponse (status : ℕ) (detail : String) : Response σ :=
  Response.text status (text (reasonPhrase status) ++ text ": " ++ text detail ++ text "\n")

def queueError (m : Moment ω) (status : ℕ) (detail : String) : Session σ :=
  let res := errorResponse status detail
  let opts : HeadOptions := { keepAlive := false, date := m.date s.metrics.requests }
  let out := (writeHead s.conn.out res opts).1 ++ res.body
  (s.say (.failure res opts) { s.conn with out := out, closeAfterWrite := true }).recordResponse m
    status

/-- The body source of a response, or its body if that is fixed. -/
def installBody (c : Connection σ) (res : Response σ) (framing : Framing) : Connection σ :=
  match res.file, res.producer with
  | some fd, _ =>
    if 0 < res.fileLength then
      { c with file := some fd, fileOff := res.fileOffset, fileLeft := res.fileLength }
    else c
  | none, some p =>
    let c := { c with
      chunked := framing == .chunked
      streamSized := res.streamLength.isSome
      streamLeft := res.streamLength.getD 0
      trailers := .empty }
    if c.streamSized && c.streamLeft == 0 then c else { c with producer := some p }
  | none, none => { c with out := c.out ++ res.body }

def headOptions (m : Moment ω) (req : Request) : HeadOptions where
  keepAlive := req.keepAlive && !m.draining
  http10Client := req.isHttp10
  date := m.date s.metrics.requests

def dispatch (srv : Server ω σ) (m : Moment ω) (req : Request) : Session σ :=
  let res := srv.router.dispatch (m.world s.metrics.requests) req
  let opts := s.headOptions m req
  let head := writeHead s.conn.out res opts
  let c := { s.conn with
    out := head.1
    closeAfterWrite :=
      s.conn.closeAfterWrite || (!opts.keepAlive || head.2 == .closeDelimited) }
  let c := if req.method != text "HEAD" && head.2 != .none then installBody c res head.2 else c
  (s.say (.answer req res opts) c).recordResponse m res.status

def feedInput (m : Moment ω) : Session σ :=
  let u := s.conn.parser.feed s.conn.inBuf
  { s with
    conn := { s.conn with
      requestStartUs := if s.conn.requestStartUs = 0 then m.nowUs else s.conn.requestStartUs
      parser := u.1
      inBuf := s.conn.inBuf.drop u.2 }
    fed := s.fed ++ [(u.1, (s.conn.inBuf.drop u.2).length)] }

def parseError (m : Moment ω) : Session σ :=
  let s := { s with metrics := s.metrics.bump .parseErrors }
  s.queueError m (statusFor s.conn.parser.error) s.conn.parser.errorDetail

/-- The client waits for an interim response that it has not got. -/
def wantsContinue : Bool :=
  s.conn.parser.req.expectContinue && !s.conn.continueSent && s.conn.parser.headersComplete &&
    !s.conn.parser.done

def sayContinue : Session σ :=
  s.say .interim { s.conn with
    out := s.conn.out ++ text "HTTP/1.1 100 Continue\r\n\r\n"
    continueSent := true }

/-- Take the finished request from the parser and dispatch it. -/
def dispatchNext (srv : Server ω σ) (m : Moment ω) : Session σ :=
  let t := s.conn.parser.take
  let s := { s with conn := { s.conn with parser := t.2 } }
  let s := s.dispatch srv m t.1
  { s with conn := { s.conn with continueSent := false } }

/-- Requests wait while a body is in flight or too much output is queued. -/
def holdsBack : Bool :=
  s.conn.closeAfterWrite || s.conn.bodySourceActive || kOutHighWater ≤ s.conn.outPending

def processPass (srv : Server ω σ) (m : Moment ω) (x : Working σ) :
    Except (Session σ) (Flow (Working σ) (Working σ)) :=
  if x.1.holdsBack || x.1.conn.inBuf.isEmpty then .ok (.leave x)
  else
    let progress := x.2 || (x.1.conn.parser.feed x.1.conn.inBuf).2 != 0
    let s := x.1.feedInput m
    if s.conn.parser.threw then .error x.1
    else if s.conn.parser.failed then .ok (.leave (s.parseError m, true))
    else
      let y := if s.wantsContinue then (s.sayContinue, true) else (s, progress)
      if !s.conn.parser.done then .ok (.leave y) else .ok (.again (y.1.dispatchNext srv m, true))

def process (srv : Server ω σ) (m : Moment ω) (fuel : ℕ) : Except (Session σ) (Working σ) :=
  loop Prod.fst (processPass srv m) fuel (s, false)

def stopWriting : Session σ := { s with conn := { s.conn with canWrite := false } }

def attempt (a : Attempt) : Session σ := { s with attempts := s.attempts ++ [a] }

def setSends (ks : List (Except Errno ℕ)) : Session σ :=
  { s with kernel := { s.kernel with sends := ks } }

def setSendfiles (ks : List (Except Errno (ℕ × (Fd → Bytes)))) : Session σ :=
  { s with kernel := { s.kernel with sendfiles := ks } }

/-- Drop sent bytes from the output; the buffer is compacted when half of it is used up. -/
def dropSent (c : Connection σ) (n : ℕ) : Connection σ :=
  if c.outOff + n = c.out.length then { c with out := [], outOff := 0 }
  else if c.outOff + n > c.out.length / 2 then
    { c with out := c.out.drop (c.outOff + n), outOff := 0 }
  else { c with outOff := c.outOff + n }

def accept (now n : ℕ) : Session σ :=
  { s with
    conn := { dropSent s.conn n with lastActiveUs := now }
    metrics := s.metrics.bump .bytesSent n
    sent := s.sent ++ s.conn.pending.take n }

/-- Send what there is room for. A short write means that the send buffer is full. -/
def sendSome (m : Moment ω) (room : ℕ) : Session σ :=
  let want := s.conn.outPending
  let n := min room want
  let t := (s.attempt (.send want n)).accept m.nowUs n
  if n < want then t.stopWriting else t

def sendPass (m : Moment ω) (progress : Bool) :
    Except (Session σ) (Flow (Working σ) (Phase σ)) :=
  match s.kernel.sends with
  | [] => .error s
  | .error .eintr :: ks => .ok (.again (s.setSends ks, progress))
  | .error .eagain :: ks =>
    .ok (.leave ⟨true, ((s.setSends ks).attempt .blocked).stopWriting, progress⟩)
  | .error .other :: ks => .ok (.leave ⟨false, s.setSends ks, progress⟩)
  | .ok room :: ks =>
    let t := (s.setSends ks).sendSome m room
    if t.conn.canWrite then .ok (.again (t, true)) else .ok (.leave ⟨true, t, true⟩)

def transfer (now : ℕ) (d : Bytes) : Session σ :=
  { s with
    conn := { s.conn with
      fileOff := s.conn.fileOff + d.length
      fileLeft := s.conn.fileLeft - d.length
      lastActiveUs := now }
    metrics := (s.metrics.bump .bytesSent d.length).bump .bytesSendfile d.length
    sent := s.sent ++ d
    log := extendLast d s.log }

def resetFile : Session σ := { s with conn := { s.conn with file := none } }

def fileWant : ℕ := min s.conn.fileLeft kSendfileMax

/-- Move what there is room for. A short count means that the send buffer is full. -/
def moveFile (m : Moment ω) (room : ℕ) (left : Bytes) : Session σ :=
  let d := left.take (min s.fileWant room)
  let t := s.transfer m.nowUs d
  if t.conn.fileLeft = 0 then t.resetFile
  else if d.length < s.fileWant then t.stopWriting
  else t

def sendfilePass (m : Moment ω) (fd : Fd) (progress : Bool) :
    Except (Session σ) (Flow (Working σ) (Phase σ)) :=
  match s.kernel.sendfiles with
  | [] => .error s
  | .error .eintr :: ks => .ok (.again (s.setSendfiles ks, progress))
  | .error .eagain :: ks =>
    .ok (.leave ⟨true, ((s.setSendfiles ks).attempt .blocked).stopWriting, progress⟩)
  | .error .other :: ks => .ok (.leave ⟨false, s.setSendfiles ks, progress⟩)
  | .ok (room, files) :: ks =>
    let left := (files fd).drop s.conn.fileOff
    let s := (s.setSendfiles ks).attempt (.file s.fileWant room left.length)
    -- without room the call fails with EAGAIN; a count of zero is the end of the file
    if room = 0 then .ok (.leave ⟨true, s.stopWriting, progress⟩)
    else if (left.take (min s.fileWant room)).isEmpty then .ok (.leave ⟨false, s, progress⟩)
    else
      let t := s.moveFile m room left
      if t.conn.canWrite then .ok (.again (t, true)) else .ok (.leave ⟨true, t, true⟩)

def emit (b : Bytes) : Session σ :=
  { s with conn := { s.conn with out := s.conn.out ++ b }, log := extendLast b s.log }

def framePiece (c : Connection σ) (piece : Bytes) : Bytes :=
  if c.streamSized then piece else if c.chunked then appendChunk [] piece else piece

def setProducer (next : σ) (trailers : Headers) : Session σ :=
  { s with conn := { s.conn with producer := some next, trailers := trailers } }

def consumeStream (n : ℕ) : Session σ :=
  if s.conn.streamSized then
    { s with conn := { s.conn with streamLeft := s.conn.streamLeft - n } }
  else s

def takePiece (piece : Bytes) : Session σ :=
  (s.consumeStream piece.length).emit (framePiece s.conn piece)

def refillPass (srv : Server ω σ) (x : Session σ × Bool) :
    Except (Session σ) (Flow (Session σ × Bool) (Bool × Session σ × Bool)) :=
  if x.2 && x.1.conn.out.length < kProducerLowWater then
    match x.1.conn.producer with
    | none => .ok (.leave (false, x))
    | some p =>
      match srv.call p x.1.conn.trailers with
      | .threw => .ok (.leave (false, x))
      | .returned more piece trailers next =>
        let s := x.1.setProducer next trailers
        -- a piece that is empty would make the loop spin
        if more && piece.isEmpty then .ok (.leave (false, s, more))
        else if s.conn.streamSized && s.conn.streamLeft < piece.length then
          .ok (.leave (false, s, more))
        else
          let s := s.takePiece piece
          .ok (.again (s, more && !(s.conn.streamSized && s.conn.streamLeft == 0)))
  else .ok (.leave (true, x))

/-- The end of a streamed body; one that came up short closes the connection. -/
def finishStream : Session σ :=
  let s' := if s.conn.chunked then s.emit (appendLastChunk [] s.conn.trailers) else s
  { s' with conn := { s'.conn with
      producer := none
      closeAfterWrite :=
        s.conn.closeAfterWrite || (s.conn.streamSized && s.conn.streamLeft != 0)
      trailers := .empty } }

def refillFromProducer (srv : Server ω σ) (fuel : ℕ) : Except (Session σ) (Bool × Session σ) := do
  let r ← loop (fun _ => s) (refillPass srv) fuel (s, true)
  if !r.1 || r.2.2 then pure (r.1, r.2.1) else pure (true, r.2.1.finishStream)

def writePass (srv : Server ω σ) (m : Moment ω) (fuel : ℕ) (x : Working σ) :
    Except (Session σ) (Flow (Working σ) (Phase σ)) :=
  if !x.1.conn.canWrite then .ok (.leave ⟨true, x.1, x.2⟩)
  else if 0 < x.1.conn.outPending then x.1.sendPass m x.2
  else match x.1.conn.file, x.1.conn.producer with
    | some fd, _ => x.1.sendfilePass m fd x.2
    | none, some _ => do
      let r ← x.1.refillFromProducer srv fuel
      if r.1 then pure (.again (r.2, true)) else pure (.leave ⟨false, r.2, x.2⟩)
    | none, none => .ok (.leave ⟨true, x.1, x.2⟩)

def doWrite (srv : Server ω σ) (m : Moment ω) (fuel : ℕ) (progress : Bool) :
    Except (Session σ) (Phase σ) :=
  loop Prod.fst (writePass srv m fuel) fuel (s, progress)

def isData : Except Errno Bytes → Bool
  | .ok d => !d.isEmpty
  | .error _ => false

/-- Discard what the client has sent already, so that closing does not reset. The loop goes on
for as long as the client sends. -/
def linger : List (Except Errno Bytes) → Except (Session σ) (Session σ)
  | [] => .error (s.setRecvs [])
  | r :: rs => if isData r then linger rs else .ok (s.setRecvs rs)

/-- The end of `drive`, when nothing makes progress. -/
def finish : Except (Session σ) (Bool × Session σ) :=
  if s.conn.hasOutput then .ok (true, s)
  else if s.conn.closeAfterWrite then do return (false, ← s.linger s.kernel.recvs)
  else .ok (!s.conn.peerClosed, s)

def mayRead (srv : Server ω σ) : Bool :=
  s.conn.canRead && !s.conn.peerClosed && !s.conn.closeAfterWrite &&
    s.conn.inBuf.length < srv.maxInBuffer

def readPhase (srv : Server ω σ) (m : Moment ω) (fuel : ℕ) : Except (Session σ) (Phase σ) :=
  if s.mayRead srv then s.doRead srv m fuel false else .ok ⟨true, s, false⟩

def writePhase (srv : Server ω σ) (m : Moment ω) (fuel : ℕ) (progress : Bool) :
    Except (Session σ) (Phase σ) :=
  if s.conn.canWrite && s.conn.hasOutput then s.doWrite srv m fuel progress
  else .ok ⟨true, s, progress⟩

def drivePass (srv : Server ω σ) (m : Moment ω) (fuel : ℕ) (s : Session σ) :
    Except (Session σ) (Flow (Session σ) (Bool × Session σ)) := do
  let r ← s.readPhase srv m fuel
  if !r.ok then return .leave (false, r.session)
  let q ← r.session.process srv m fuel
  let w ← q.1.writePhase srv m fuel (r.progress || q.2)
  if !w.ok then return .leave (false, w.session)
  if w.progress then return .again w.session
  return .leave (← w.session.finish)

/-- Read, dispatch and write until nothing makes progress. -/
def drive (srv : Server ω σ) (m : Moment ω) (fuel : ℕ) : Except (Session σ) (Bool × Session σ) :=
  loop id (drivePass srv m fuel) fuel s

/-- An event wakes the worker. The metrics are shared with its other connections. -/
def wake (readable writable : Bool) (w : WorkerMetrics) (k : Kernel) : Session σ :=
  { s with
    conn := { s.conn with
      canRead := s.conn.canRead || readable
      canWrite := s.conn.canWrite || writable }
    metrics := w
    kernel := k }

end Session

def Session.accepted (srv : Server ω σ) (now : ℕ) : Session σ where
  conn := { parser := { limits := srv.limits }, lastActiveUs := now }

/-- Whether a call has returned with this result, in a session that passes a test. -/
def Session.returns (ok : Bool) (test : Session σ → Bool) :
    Except (Session σ) (Bool × Session σ) → Bool
  | .ok (b, t) => b == ok && test t
  | .error _ => false

theorem Session.exists_of_returns {ok : Bool} {test : Session σ → Bool}
    {r : Except (Session σ) (Bool × Session σ)} (h : Session.returns ok test r = true) :
    ∃ t, r = .ok (ok, t) ∧ test t = true := by
  rcases r with _ | ⟨b, t⟩
  · cases h
  · obtain ⟨hb, ht⟩ := Bool.and_eq_true_iff.mp h
    exact ⟨t, by rw [eq_of_beq hb], ht⟩

def bareServer : Server Unit Unit where
  call _ _ := .threw

def helloServer : Server Unit Unit where
  router := Router.add {} (text "GET") (text "/") fun _ _ res => .ok { res with producer := some () }
  call _ _ := .returned false (text "hello") .empty ()

/-- A server that streams three lines on one path and sends a file on another. -/
def countServer : Server Unit ℕ where
  router := Router.add
    (Router.add {} (text "GET") (text "/count") fun _ _ res => .ok { res with producer := some 2 })
    (text "GET") (text "/file") fun _ _ res => .ok { res with file := some 3, fileLength := 4 }
  call n trailers := .returned (n != 0) (text "line\n") trailers (n - 1)

def countRequests : Bytes :=
  text "GET /count HTTP/1.1\r\nHost: x\r\n\r\nGET /file HTTP/1.1\r\nHost: x\r\n\r\n"

def countFiles : Fd → Bytes := fun _ => text "content"

/-- A socket on which the requests come in two parts. -/
def countKernel (last : Except Errno Bytes) : Kernel where
  recvs := [.ok (countRequests.take 50), .ok (countRequests.drop 50), last]
  sends := [.error .eintr, .ok 1000, .ok 1000, .error .eintr, .ok 1000]
  sendfiles := [.error .eintr, .ok (1000, countFiles)]

/-- A moment at which nothing is known of the date. -/
def bareMoment : Moment Unit where
  nowUs := 1
  monoUs := id
  date _ := []
  date_clean := by simp
  world _ := ()

end Httpd
