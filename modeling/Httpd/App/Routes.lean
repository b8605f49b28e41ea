import Httpd.App.StaticFiles
import Httpd.Library.Slice
import Httpd.Parser.Lines
import Httpd.Server.Connection
import Httpd.Util.Crc32

/-! # The routes

The handlers of `routes.cpp` and the producers of streamed bodies. A producer is the state that
its closure captures. What the operating system and the counters say is part of the world that a
handler looks at.
-/

namespace Httpd

open Slice

def kMaxGeneratedBytes : ℕ := 2 ^ 30
def kMaxStreamChunks : ℕ := 100000
def kBytesPiece : ℕ := 64 * 1024

def fromChars (s : Bytes) : Option (ℕ × Bytes) :=
  let digits := s.takeWhile isDigit
  if digits.isEmpty || 2 ^ 64 ≤ decNumber digits then none
  else some (decNumber digits, s.dropWhile isDigit)

def parseU64 (s : Bytes) : Option ℕ :=
  if s.isEmpty then none
  else
    match fromChars s with
    | some (n, []) => some n
    | _ => none

inductive Producer where
  | stream (i n : ℕ) (crc : UInt32)
  | bytes (sent n : ℕ)
  deriving DecidableEq

namespace Producer

def letter (i : ℕ) : UInt8 := ch 'a' + .ofNat (i % 26)

/-- A piece of the alphabet over and over, and one more alphabet, so that a window may start at
any letter. -/
def pattern : Bytes := (List.range (kBytesPiece + 26)).map letter

def line (i n : ℕ) : Bytes :=
  text "chunk " ++ appendNumber 10 i ++ text " of " ++ appendNumber 10 n ++ text "\n"

def hex08 (crc : UInt32) : Bytes :=
  let digits := appendNumber 16 crc.toNat
  List.replicate (8 - digits.length) (ch '0') ++ digits

def callStream (i n : ℕ) (crc : UInt32) (trailers : Headers) : Produced Producer :=
  let (out, crc, i) := if i < n then (line i n, crc32 (line i n) crc, i + 1) else ([], crc, i)
  if i < n then .returned true out trailers (.stream i n crc)
  else
    let trailers := trailers.set (text "X-Chunk-Count") (appendNumber 10 n)
    .returned false out (trailers.set (text "X-Content-CRC32") (hex08 crc)) (.stream i n crc)

def callBytes (sent n : ℕ) (trailers : Headers) : Produced Producer :=
  let take := min (wrapSub n sent) kBytesPiece
  -- a position behind the end of the pattern is an exception, a count beyond it is not
  if pattern.length < sent % 26 then .threw
  else
    let next := wrap (sent + take)
    .returned (next < n) (slice pattern (sent % 26) take) trailers (.bytes next n)

def call : Producer → Headers → Produced Producer
  | .stream i n crc, trailers => callStream i n crc trailers
  | .bytes sent n, trailers => callBytes sent n trailers

end Producer

/-- What handlers look at: the text of the metrics, the information on the system, and the files
below the static root, if that could be opened. -/
structure World where
  metricsText : Bytes
  debugInfo : Bytes
  files : Option StaticFiles.Tree

namespace Routes

def kIndex : Bytes := text <|
  "httpd-cpp: an epoll-based HTTP/1.1 server in C++17\n" ++
  "\n" ++
  "  GET  /healthz         liveness probe\n" ++
  "  GET  /metrics         Prometheus metrics (per-worker counters, latency histogram)\n" ++
  "  GET  /debug/info      build, kernel and runtime information (JSON)\n" ++
  "  POST /echo            echoes the request body (Content-Length or chunked)\n" ++
  "  GET  /stream/\x7bn\x7d      n chunks via chunked encoding + CRC-32 trailer\n" ++
  "  GET  /bytes/\x7bn\x7d       n bytes streamed with backpressure (throughput tests)\n" ++
  "  GET  /static/\x7bpath\x7d   files from --root, zero-copy with sendfile(2)\n"

def echo : Handler World Producer := fun _ req _ =>
  .ok (Response.text 200 req.body
    ((req.headers.get (text "Content-Type")).getD (text "application/octet-stream")))

def usage (path : String) (max : ℕ) : Response Producer :=
  Response.text 400 (text "usage: " ++ text path ++ text "\x7b0.." ++ appendNumber 10 max ++
    text "\x7d\n")

/-- The text from a position on. A position behind the end is an exception, whose text is that of
the standard library. -/
def substr (s : Bytes) (pos : ℕ) : Except Bytes Bytes :=
  if s.length < pos then
    .error (text "basic_string_view::substr: __pos (which is " ++ appendNumber 10 pos ++
      text ") > __size (which is " ++ appendNumber 10 s.length ++ text ")")
  else .ok (s.drop pos)

theorem substr_append (a b : Bytes) : substr (a ++ b) a.length = pure b := by
  rw [substr, if_neg (by simp), List.drop_left]
  rfl

def numbered (path : String) (max : ℕ) (answer : ℕ → Response Producer → Response Producer) :
    Handler World Producer := fun _ req res => do
  match parseU64 (← substr req.path (text path).length) with
  | none => return usage path max
  | some n => if max < n then return usage path max else return answer n res

def streamResponse (n : ℕ) (res : Response Producer) : Response Producer :=
  { res with
    headers := (res.headers.set (text "Content-Type") (text "text/plain; charset=utf-8")).set
      (text "Trailer") (text "X-Chunk-Count, X-Content-CRC32")
    producer := some (.stream 0 n 0) }

def stream : Handler World Producer := numbered "/stream/" kMaxStreamChunks streamResponse

def bytesResponse (n : ℕ) (res : Response Producer) : Response Producer :=
  { res with
    headers := res.headers.set (text "Content-Type") (text "application/octet-stream")
    streamLength := some n
    producer := some (.bytes 0 n) }

def bytes : Handler World Producer := numbered "/bytes/" kMaxGeneratedBytes bytesResponse

def static : Handler World Producer := fun w req res => do
  return StaticFiles.serve w.files (← substr req.path 8) res

end Routes

open Routes

def installRoutes : Router World Producer :=
  let r : Router World Producer := {}
  let r := r.add (text "GET") (text "/") fun _ _ _ => .ok (Response.text 200 kIndex)
  let r := r.add (text "GET") (text "/healthz") fun _ _ _ => .ok (Response.text 200 (text "ok\n"))
  let r := r.add (text "GET") (text "/metrics") fun w _ _ => .ok (Response.text 200 w.metricsText
    (text "text/plain; version=0.0.4; charset=utf-8"))
  let r := r.add (text "GET") (text "/debug/info") fun w _ _ => .ok (Response.text 200 w.debugInfo
    (text "application/json"))
  let r := r.add (text "POST") (text "/echo") echo
  let r := r.addPrefix (text "GET") (text "/stream/") stream
  let r := r.addPrefix (text "GET") (text "/bytes/") bytes
  r.addPrefix (text "GET") (text "/static/") static

def appServer (limits : ParserLimits) : Server World Producer where
  limits := limits
  router := installRoutes
  call := Producer.call

/-- The program at a moment, with nothing to look at. -/
def bareWorld : Moment World where
  nowUs := 1
  monoUs := id
  date := bareMoment.date
  date_clean := bareMoment.date_clean
  world _ := ⟨[], [], none⟩

end Httpd
