import Httpd.Http.Headers

/-! # Responses

The response writer of `response.cpp`. A body producer is a closure; its captured
state is an arbitrary type here, and the server says what a call does. The head
derives all framing headers from the response itself.
-/

namespace Httpd

abbrev Fd := ℕ

def reasonPhrase : ℕ → String
  | 100 => "Continue"
  | 200 => "OK"
  | 201 => "Created"
  | 204 => "No Content"
  | 206 => "Partial Content"
  | 301 => "Moved Permanently"
  | 302 => "Found"
  | 304 => "Not Modified"
  | 400 => "Bad Request"
  | 403 => "Forbidden"
  | 404 => "Not Found"
  | 405 => "Method Not Allowed"
  | 408 => "Request Timeout"
  | 411 => "Length Required"
  | 413 => "Content Too Large"
  | 414 => "URI Too Long"
  | 417 => "Expectation Failed"
  | 429 => "Too Many Requests"
  | 431 => "Request Header Fields Too Large"
  | 500 => "Internal Server Error"
  | 501 => "Not Implemented"
  | 503 => "Service Unavailable"
  | 505 => "HTTP Version Not Supported"
  | _ => "Unknown"

/-- A response of a handler. The type of producers is a parameter. -/
structure Response (σ : Type) where
  status : ℕ := 200
  headers : Headers := .empty
  body : Bytes := []
  file : Option Fd := none
  fileOffset : ℕ := 0
  fileLength : ℕ := 0
  producer : Option σ := none
  streamLength : Option ℕ := none

variable {σ : Type}

def Response.text (status : ℕ) (body : Bytes)
    (contentType : Bytes := Httpd.text "text/plain; charset=utf-8") : Response σ :=
  { status := status
    headers := Headers.empty.set (Httpd.text "Content-Type") contentType
    body := body }

inductive Framing where
  | none
  | contentLength
  | chunked
  | closeDelimited
  deriving DecidableEq, Repr

structure HeadOptions where
  keepAlive : Bool := true
  http10Client : Bool := false
  date : Bytes := []
  deriving DecidableEq

def digitByte (d : ℕ) : UInt8 :=
  if d < 10 then ch '0' + .ofNat d else ch 'a' + .ofNat (d - 10)

/-- The digits of a number, as `std::to_chars` writes them. -/
def appendNumber (base v : ℕ) : Bytes :=
  if v = 0 then [ch '0'] else (base.digits v).reverse.map digitByte

def isFramingHeader (name : Bytes) : Bool :=
  iequals name (text "Content-Length") || iequals name (text "Transfer-Encoding") ||
    iequals name (text "Connection") || iequals name (text "Date")

/-- The framing of a response and the length it announces. -/
def framingOf (res : Response σ) (opts : HeadOptions) : Framing × ℕ :=
  if res.status / 100 = 1 || res.status = 204 || res.status = 304 then (.none, 0)
  else if res.file.isSome then (.contentLength, res.fileLength)
  else if res.producer.isSome then
    match res.streamLength with
    | some length => (.contentLength, length)
    | none => (if opts.http10Client then .closeDelimited else .chunked, 0)
  else (.contentLength, res.body.length)

def fieldLine (f : Field) : Bytes := f.1 ++ text ": " ++ f.2 ++ kCRLF

def statusLine (status : ℕ) : Bytes :=
  text "HTTP/1.1 " ++ appendNumber 10 status ++ [SP] ++ text (reasonPhrase status) ++ kCRLF

def framingLine : Framing × ℕ → Bytes
  | (.contentLength, length) => text "Content-Length: " ++ appendNumber 10 length ++ kCRLF
  | (.chunked, _) => text "Transfer-Encoding: chunked\r\n"
  | _ => []

def connectionLine (keepAlive http10Client : Bool) : Bytes :=
  if !keepAlive then text "Connection: close\r\n"
  else if http10Client then text "Connection: keep-alive\r\n"
  else []

/-- The status line and the header section. -/
def headText (res : Response σ) (opts : HeadOptions) : Bytes :=
  let framing := framingOf res opts
  statusLine res.status ++
    ((res.headers.fields.filter fun f => !isFramingHeader f.1).map fieldLine).flatten ++
    (if res.headers.has (text "Server") then [] else text "Server: httpd-cpp\r\n") ++
    (if opts.date.isEmpty then [] else text "Date: " ++ opts.date ++ kCRLF) ++
    framingLine framing ++
    connectionLine (opts.keepAlive && framing.1 != .closeDelimited) opts.http10Client ++
    kCRLF

def writeHead (out : Bytes) (res : Response σ) (opts : HeadOptions) : Bytes × Framing :=
  (out ++ headText res opts, (framingOf res opts).1)

def appendChunk (out data : Bytes) : Bytes :=
  -- a chunk of size zero would end the body
  if data.isEmpty then out else out ++ appendNumber 16 data.length ++ kCRLF ++ data ++ kCRLF

def appendLastChunk (out : Bytes) (trailers : Headers) : Bytes :=
  out ++ text "0\r\n" ++ (trailers.fields.map fieldLine).flatten ++ kCRLF

end Httpd
