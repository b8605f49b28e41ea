import Httpd.Library.Search
import Httpd.Library.Incremental
import Httpd.Http.Headers

/-! # The request parser

The push parser of `request_parser.cpp`. A call of `feed` passes through the loop
of the source until it needs more input, finishes a request or fails. A validator
that fails leaves the parser as it was apart from the error it records, so it
returns the error alone.

Configured limits and sizes sent by a peer are arbitrary 64-bit numbers, and their
sums wrap; sums of lengths of received data are natural numbers. The memory for data
that has been received can be had. But room for a whole body is reserved as soon as its
length is known, and `reserve` throws if a string cannot be that long. The exception
leaves `feed`, and nothing is called on the parser after it; this is an error of its own.
-/

namespace Httpd

open Incremental (Turn Machine)

/-- Arithmetic of `std::size_t` and `std::uint64_t`. -/
def wrap (n : ℕ) : ℕ := n % 2 ^ 64

def wrapSub (a b : ℕ) : ℕ := wrap (a + 2 ^ 64 - b)

theorem wrapSub_of_le {a b : ℕ} (h : b ≤ a) (ha : a < 2 ^ 64) : wrapSub a b = a - b := by
  have hadd : a + 2 ^ 64 - b = a - b + 2 ^ 64 := by omega
  rw [wrapSub, wrap, hadd, Nat.add_mod_right]
  exact Nat.mod_eq_of_lt (by omega)

structure Request where
  method : Bytes := []
  target : Bytes := []
  path : Bytes := []
  query : Bytes := []
  versionMajor : ℕ := 1
  versionMinor : ℕ := 1
  headers : Headers := .empty
  trailers : Headers := .empty
  body : Bytes := []
  expectContinue : Bool := false
  deriving DecidableEq

namespace Request

def keepAlive (r : Request) : Bool :=
  if r.headers.hasToken (text "Connection") (text "close") then false
  else if r.versionMinor == 0 then r.headers.hasToken (text "Connection") (text "keep-alive")
  else true

def isHttp10 (r : Request) : Bool := r.versionMajor == 1 && r.versionMinor == 0

end Request

inductive ParseError where
  | none
  | badRequest
  | uriTooLong
  | headerFieldsTooLarge
  | payloadTooLarge
  | notImplemented
  | versionNotSupported
  /-- Not an error of the source: `std::length_error` has been thrown. -/
  | lengthError
  deriving DecidableEq, Repr

def statusFor : ParseError → ℕ
  | .none => 200
  | .badRequest => 400
  | .uriTooLong => 414
  | .headerFieldsTooLarge => 431
  | .payloadTooLarge => 413
  | .notImplemented => 501
  | .versionNotSupported => 505
  | .lengthError => 400

structure ParserLimits where
  maxRequestLine : ℕ := 8 * 1024
  maxHeaderBytes : ℕ := 16 * 1024
  maxHeaderCount : ℕ := 100
  maxBodyBytes : ℕ := 8 * 1024 * 1024
  maxChunkLine : ℕ := 1024
  /-- Not a limit of the source: `max_size()` of a string, which the standard library sets. -/
  maxSize : ℕ := 2 ^ 62 - 1
  deriving DecidableEq, Repr

inductive State where
  | requestLine
  | headers
  | body
  | chunkSize
  | chunkData
  | chunkDataEnd
  | trailers
  | done
  | error
  deriving DecidableEq, Repr

structure RequestParser where
  limits : ParserLimits := {}
  state : State := .requestLine
  req : Request := {}
  error : ParseError := .none
  errorDetail : String := ""
  headerBytes : ℕ := 0
  headerCount : ℕ := 0
  remaining : ℕ := 0
  deriving DecidableEq

structure Failure where
  error : ParseError
  detail : String
  deriving DecidableEq

def parseDecimal (s : Bytes) : Option ℕ :=
  if s.isEmpty || s.length > 19 then none
  else s.foldlM (fun v c => if isDigit c then some (wrap (v * 10 + (c - ch '0').toNat)) else none) 0

/-- The loop over the members of a `Content-Length` list, which must all agree. -/
def contentLengthLoop : List Bytes → Bool → ℕ → Option ℕ
  | [], _, out => some out
  | v :: vs, first, out =>
    match parseDecimal (trimOws v) with
    | none => none
    | some n => if !first && n != out then none else contentLengthLoop vs false n

def parseContentLength (value : Bytes) : Option ℕ :=
  contentLengthLoop (Headers.members value) true 0

def validTarget (t : Bytes) : Bool := !t.isEmpty && !t.any fun u => u ≤ 0x20 || u == 0x7f

def startsWithIcase (s pre : Bytes) : Bool :=
  pre.length ≤ s.length && iequals (s.take pre.length) pre

def splitRequestLine (line : Bytes) : Option (Bytes × Bytes × Bytes) :=
  match line.idxOf? SP with
  | none => none
  | some sp1 =>
    let rest := line.drop (sp1 + 1)
    match rest.idxOf? SP with
    | none => none
    | some k =>
      let version := rest.drop (k + 1)
      if version.contains SP then none else some (line.take sp1, rest.take k, version)

def versionDigits (v : Bytes) : Option (ℕ × ℕ) :=
  if v.length != 8 || v.take 5 != text "HTTP/" || !isDigit (v.getD 5 0) || v.getD 6 0 != ch '.' ||
      !isDigit (v.getD 7 0) then none
  else some ((v.getD 5 0 - ch '0').toNat, (v.getD 7 0 - ch '0').toNat)

/-- The path and query of a request target, for the three target forms. -/
def pathAndQuery (method target : Bytes) : Option Bytes :=
  if startsWithIcase target (text "http://") || startsWithIcase target (text "https://") then
    -- the scheme ends in the two slashes, so the search succeeds
    let authority := (Search.find (text "//") target).getD 0 + 2
    match (target.drop authority).idxOf? (ch '/') with
    | none => some (text "/")
    | some k => some (target.drop (authority + k))
  else if target.head? != some (ch '/') && !(target == text "*" && method == text "OPTIONS") then
    none
  else some target

/-- A control byte other than the tab. -/
def isCtl (u : UInt8) : Bool := (u < 0x20 && u != HTAB) || u == 0x7f

def splitFieldLine (line : Bytes) : Except Failure (Bytes × Bytes) :=
  match line.idxOf? (ch ':') with
  | none => .error ⟨.badRequest, "header line without ':'"⟩
  | some colon =>
    let name := line.take colon
    let value := trimOws (line.drop (colon + 1))
    if !isToken name then .error ⟨.badRequest, "invalid header field name"⟩
    else if value.any isCtl then
      .error ⟨.badRequest, "control character in header value"⟩
    else .ok (name, value)

/-- The size announced by a chunk-size line; extensions are ignored. -/
def chunkSizeOf (line : Bytes) : Option ℕ :=
  let digits := trimOws (line.takeWhile (· != ch ';'))
  if digits.isEmpty || digits.length > 16 then none
  else digits.foldlM (fun size c => (hexValue c).map fun v => wrap (size <<< 4) ||| v) 0

def expectsContinue : Option Bytes → Bool
  | some e => iequals (trimOws e) (text "100-continue")
  | none => false

namespace RequestParser

variable (p : RequestParser)

def done : Bool := p.state == .done

def failed : Bool := p.state == .error

/-- The last call of `feed` has thrown an exception. -/
def threw : Bool := p.failed && p.error == .lengthError

def started : Bool := p.state != .requestLine

def headersComplete : Bool :=
  p.state != .requestLine && p.state != .headers && p.state != .error

def reset : RequestParser := { limits := p.limits }

def take : Request × RequestParser := (p.req, p.reset)

def fail (f : Failure) : RequestParser :=
  { p with state := .error, error := f.error, errorDetail := f.detail }

def parseRequestLine (line : Bytes) : Except Failure RequestParser :=
  match splitRequestLine line with
  | none => .error ⟨.badRequest, "request-line must have exactly three parts"⟩
  | some (method, target, version) =>
    if !isToken method then .error ⟨.badRequest, "invalid method"⟩
    else if !validTarget target then .error ⟨.badRequest, "invalid request-target"⟩
    else match versionDigits version with
      | none => .error ⟨.badRequest, "malformed HTTP-version"⟩
      | some (major, minor) =>
        if major != 1 || minor > 1 then
          .error ⟨.versionNotSupported, "only HTTP/1.0 and HTTP/1.1 are supported"⟩
        else match pathAndQuery method target with
          | none => .error ⟨.badRequest, "unsupported request-target form"⟩
          | some pq => .ok { p with req := { p.req with
              method := method
              target := target
              path := pq.takeWhile (· != ch '?')
              query := (pq.dropWhile (· != ch '?')).drop 1
              versionMajor := major
              versionMinor := minor } }

def parseFieldLine (line : Bytes) (intoHeaders : Bool) : Except Failure RequestParser :=
  match splitFieldLine line with
  | .error f => .error f
  | .ok (name, value) =>
    if intoHeaders then
      if iequals name (text "Host") && p.req.headers.has (text "Host") then
        .error ⟨.badRequest, "duplicate Host header"⟩
      else .ok { p with req := { p.req with headers := p.req.headers.add name value } }
    else .ok { p with req := { p.req with trailers := p.req.trailers.add name value } }

/-- How the body is framed: the state to go on in and the body bytes to read there. -/
def bodyFraming : Except Failure (State × ℕ) :=
  let h := p.req.headers
  if p.req.versionMinor == 1 && !h.has (text "Host") then
    .error ⟨.badRequest, "HTTP/1.1 request without Host"⟩
  else match h.get (text "Transfer-Encoding"), h.get (text "Content-Length") with
    | some _, some _ => .error ⟨.badRequest, "both Transfer-Encoding and Content-Length"⟩
    | some te, none =>
      if p.req.isHttp10 then .error ⟨.badRequest, "Transfer-Encoding in an HTTP/1.0 request"⟩
      else if !iequals (trimOws te) (text "chunked") then
        .error ⟨.notImplemented, "unsupported transfer-coding"⟩
      else .ok (.chunkSize, p.remaining)
    | none, some cl =>
      match parseContentLength cl with
      | none => .error ⟨.badRequest, "invalid Content-Length"⟩
      | some length =>
        if length > p.limits.maxBodyBytes then .error ⟨.payloadTooLarge, "body exceeds limit"⟩
        -- the room is reserved before the state changes
        else if length > p.limits.maxSize then .error ⟨.lengthError, ""⟩
        else .ok (if length != 0 then .body else .done, length)
    | none, none => .ok (.done, p.remaining)

def finishHeaders : Except Failure RequestParser :=
  match p.bodyFraming with
  | .error f => .error f
  | .ok (state, remaining) =>
    let expect := expectsContinue (p.req.headers.get (text "Expect"))
    .ok { p with
      state := state
      remaining := remaining
      req := { p.req with expectContinue := expect && state != .done } }

def parseChunkSize (line : Bytes) : Except Failure RequestParser :=
  match chunkSizeOf line with
  | none => .error ⟨.badRequest, "invalid chunk size"⟩
  | some size =>
    if size = 0 then .ok { p with state := .trailers }
    else if size > p.limits.maxBodyBytes ||
        wrap (p.req.body.length + size) > p.limits.maxBodyBytes then
      .error ⟨.payloadTooLarge, "body exceeds limit"⟩
    else .ok { p with remaining := size, state := .chunkData }

/-- Look for the next CRLF and go on with the length of an unterminated line, or with
the line found. -/
def withLine (rest : Bytes) (unterminated : ℕ → Turn RequestParser)
    (line : Bytes → Turn RequestParser) : Turn RequestParser :=
  match Search.find kCRLF rest with
  | none => unterminated rest.length
  | some eol => line (rest.take eol)

/-- Give up on an unterminated line that is too long already, else wait for its end. -/
def awaitLine (tooLong : Bool) (f : Failure) : Turn RequestParser :=
  if tooLong then .stop (p.fail f) 0 else .stop p 0

def requestLineTooLong : Failure := ⟨.uriTooLong, "request-line too long"⟩
def headersTooLarge : Failure := ⟨.headerFieldsTooLarge, "header section too large"⟩
def chunkLineTooLong : Failure := ⟨.badRequest, "chunk-size line too long"⟩

def onRequestLine (line : Bytes) : Turn RequestParser :=
  if line.length = 0 then .more p kCRLF.length
  else if line.length > p.limits.maxRequestLine then .stop (p.fail requestLineTooLong) 0
  else match p.parseRequestLine line with
    | .error f => .stop (p.fail f) 0
    | .ok p' => .more { p' with state := .headers } (line.length + kCRLF.length)

def feedRequestLine (rest : Bytes) : Turn RequestParser :=
  -- the unterminated tail may end in the CR of the CRLF, hence the slack of one
  withLine rest (fun n => p.awaitLine (n > wrap (p.limits.maxRequestLine + 1)) requestLineTooLong)
    p.onRequestLine

/-- Charge a line and its CRLF to the header section. -/
def countLine (line : Bytes) : RequestParser :=
  { p with headerBytes := p.headerBytes + (line.length + kCRLF.length) }

/-- The blank line that ends the header or the trailer section. -/
def onBlankLine : Turn RequestParser :=
  if p.state = .trailers then .more { p with state := .done } kCRLF.length
  else match p.finishHeaders with
    | .error f => .stop (p.fail f) kCRLF.length
    | .ok p' => .more p' kCRLF.length

def countField : RequestParser := { p with headerCount := p.headerCount + 1 }

def onField (line : Bytes) : Turn RequestParser :=
  if p.countField.headerCount > p.limits.maxHeaderCount then
    .stop (p.countField.fail ⟨.headerFieldsTooLarge, "too many header fields"⟩)
      (line.length + kCRLF.length)
  else match p.countField.parseFieldLine line (p.state == .headers) with
    | .error f => .stop (p.countField.fail f) (line.length + kCRLF.length)
    | .ok p' => .more p' (line.length + kCRLF.length)

def onHeaderLine (line : Bytes) : Turn RequestParser :=
  if p.headerBytes + (line.length + kCRLF.length) > p.limits.maxHeaderBytes then
    .stop (p.fail headersTooLarge) 0
  else if line.length = 0 then (p.countLine line).onBlankLine
  else (p.countLine line).onField line

def feedHeaders (rest : Bytes) : Turn RequestParser :=
  withLine rest
    (fun n => p.awaitLine (p.headerBytes + n + 1 > p.limits.maxHeaderBytes) headersTooLarge)
    p.onHeaderLine

/-- Append body bytes; the last of them end the body or the chunk. -/
def takeData (d : Bytes) : RequestParser :=
  let p' := { p with
    req := { p.req with body := p.req.body ++ d }
    remaining := p.remaining - d.length }
  if p'.remaining = 0 then
    { p' with state := if p.state = .body then .done else .chunkDataEnd }
  else p'

def feedBody (rest : Bytes) : Turn RequestParser :=
  if rest = [] then .stop p 0
  else
    let n := min rest.length p.remaining
    .more (p.takeData (rest.take n)) n

def feedChunkDataEnd (rest : Bytes) : Turn RequestParser :=
  if rest.length < kCRLF.length then .stop p 0
  else if rest.take kCRLF.length ≠ kCRLF then
    .stop (p.fail ⟨.badRequest, "missing CRLF after chunk data"⟩) 0
  else .more { p with state := .chunkSize } kCRLF.length

def onChunkSizeLine (line : Bytes) : Turn RequestParser :=
  if line.length > p.limits.maxChunkLine then .stop (p.fail chunkLineTooLong) 0
  else match p.parseChunkSize line with
    | .error f => .stop (p.fail f) 0
    | .ok p' => .more p' (line.length + kCRLF.length)

def feedChunkSize (rest : Bytes) : Turn RequestParser :=
  withLine rest (fun n => p.awaitLine (n > wrap (p.limits.maxChunkLine + 1)) chunkLineTooLong)
    p.onChunkSizeLine

def feedStep (rest : Bytes) : Turn RequestParser :=
  match p.state with
  | .requestLine => p.feedRequestLine rest
  | .headers | .trailers => p.feedHeaders rest
  | .body | .chunkData => p.feedBody rest
  | .chunkDataEnd => p.feedChunkDataEnd rest
  | .chunkSize => p.feedChunkSize rest
  | .done | .error => .stop p 0

end RequestParser

end Httpd
