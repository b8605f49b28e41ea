import Httpd.Library.Code
import Httpd.Library.Loop
import Httpd.Server.Framing

/-! # The load generator

A connection of `loadgen.cpp` sends copies of one request, keeps a number of them in flight and
reads responses of an announced length from whatever has arrived. A response is read as a whole:
what the reader finds in a stream of responses does not depend on how the stream arrives.
-/

namespace Httpd.Loadgen

open Loop

structure Options where
  host : Bytes := text "127.0.0.1"
  path : Bytes := text "/healthz"
  pipeline : ℤ := 1

/-- What a worker is given, with the readings of its clock in nanoseconds. -/
structure Worker where
  opt : Options
  deadline : ℕ
  clock : ℕ → ℕ

structure ThreadStats where
  requests : ℕ := 0
  non2xx : ℕ := 0
  bytes : ℕ := 0
  latenciesNs : List ℕ := []

/-- A connection with the statistics of its worker and the number of readings of the clock. The
last four fields are its history: when each request was asked, the bytes in both directions and
the statuses that were read. -/
structure Client where
  out : Bytes := []
  outOff : ℕ := 0
  inBuf : Bytes := []
  sentAt : List ℕ := []
  stats : ThreadStats := {}
  ticks : ℕ := 0
  askedAt : List ℕ := []
  sent : Bytes := []
  received : Bytes := []
  statuses : List ℤ := []

def isSpace (c : UInt8) : Bool := c == SP || (9 ≤ c && c ≤ 13)

/-- The sign and the digits that `strtoull` and `atoi` read. -/
def scanNumber (s : Bytes) : Bool × ℕ :=
  match s.dropWhile isSpace with
  | [] => (false, 0)
  | c :: t =>
    if c == ch '-' then (true, decNumber (t.takeWhile isDigit))
    else if c == ch '+' then (false, decNumber (t.takeWhile isDigit))
    else (false, decNumber ((c :: t).takeWhile isDigit))

def strtoull (s : Bytes) : ℕ :=
  let v := scanNumber s
  if 2 ^ 64 ≤ v.2 then 2 ^ 64 - 1 else if v.1 then wrapSub 0 v.2 else v.2

def atoi (s : Bytes) : ℤ :=
  let v := scanNumber s
  if v.1 then -v.2 else v.2

def iequalsPrefix (s pat : Bytes) : Bool :=
  if s.length < pat.length then false
  else (s.zip pat).all fun x => asciiLower x.1 == asciiLower x.2

def lengthOf (rest : Bytes) : ℕ :=
  match Search.find kCRLF rest with
  | some i => strtoull ((rest.drop 15).take (i - 15))
  | none => strtoull (rest.drop 15)

/-- Look at every line but the first. Each pass drops a line end, so that there are no more
passes than bytes. -/
def scanLines : ℕ → Bytes → Option ℕ → Option ℕ
  | 0, _, length => length
  | k + 1, head, length =>
    match Search.find kCRLF head with
    | none => length
    | some line =>
      let rest := head.drop (line + 2)
      scanLines k rest
        (if iequalsPrefix rest (text "content-length:") then some (lengthOf rest) else length)

def contentLength (head : Bytes) : Option ℕ := scanLines (head.length + 1) head none

def statusOf (head : Bytes) : ℤ := atoi ((head.drop 9).take 3)

/-- How a call ends: it returns, or the program is left. -/
inductive Verdict where
  | returned (ok : Bool)
  | exited
  deriving DecidableEq

namespace Worker

variable (w : Worker)

def request : Bytes :=
  text "GET " ++ w.opt.path ++ text " HTTP/1.1\r\nHost: " ++ w.opt.host ++
    text "\r\nUser-Agent: loadgen\r\n\r\n"

def enqueue (c : Client) : Client :=
  { c with
    out := c.out ++ w.request
    sentAt := c.sentAt ++ [w.clock c.ticks]
    askedAt := c.askedAt ++ [w.clock c.ticks]
    ticks := c.ticks + 1 }

def opened : Client := w.enqueue^[w.opt.pipeline.toNat] {}

/-- A response to the oldest request in flight. The clock is read for the latency and for the
deadline. -/
def completed (c : Client) (asked : ℕ) (rest : List ℕ) (status : ℤ) : Client :=
  { c with
    sentAt := rest
    stats := { c.stats with
      latenciesNs := c.stats.latenciesNs ++ [elapsed (w.clock c.ticks) asked]
      requests := c.stats.requests + 1
      non2xx := if status < 200 || 300 ≤ status then c.stats.non2xx + 1 else c.stats.non2xx }
    ticks := c.ticks + 2
    statuses := c.statuses ++ [status] }

/-- Before the deadline, the next request follows at once. -/
def answered (c : Client) (asked : ℕ) (rest : List ℕ) (status : ℤ) : Client :=
  if w.clock (c.ticks + 1) < w.deadline then w.enqueue (w.completed c asked rest status)
  else w.completed c asked rest status

/-- A pass of the loop of `consume_responses`, with the position in the input. -/
def consumePass (x : Client × ℕ) : Except Client (Flow (Client × ℕ) (Verdict × Client)) :=
  let c := x.1
  let pos := x.2
  let input := c.inBuf.drop pos
  match Search.find (kCRLF ++ kCRLF) input with
  | none => .ok (.leave (.returned true, { c with inBuf := input }))
  | some headEnd =>
    let head := input.take headEnd
    if head.length < 12 then .ok (.leave (.returned false, c))
    else
      match contentLength head with
      | none => .ok (.leave (.exited, c))
      | some length =>
        -- `std::size_t` arithmetic: a huge length wraps around
        let total := wrap (headEnd + 4 + length)
        if input.length < total then .ok (.leave (.returned true, { c with inBuf := input }))
        else
          match c.sentAt with
          | [] => .ok (.leave (.returned false, c))
          | asked :: rest =>
            .ok (.again (w.answered c asked rest (statusOf head), pos + total))

def consumeResponses (fuel : ℕ) (c : Client) : Except Client (Verdict × Client) :=
  loop Prod.fst w.consumePass fuel (c, 0)

end Worker

def kBufSize : ℕ := 64 * 1024

inductive SendError where
  | eagain
  | enotconn
  | eintr
  | other
  deriving DecidableEq

namespace Client

def receive (c : Client) (d : Bytes) : Client :=
  { c with
    inBuf := c.inBuf ++ d
    stats := { c.stats with bytes := c.stats.bytes + d.length }
    received := c.received ++ d }

def transmit (c : Client) (n : ℕ) : Client :=
  { c with outOff := c.outOff + n, sent := c.sent ++ (c.out.drop c.outOff).take n }

/-- The loop of `recv`, over the results of the calls to come. -/
def drainInput : List (Except Errno Bytes) → Client → Except Client (Bool × Client)
  | [], c => .error c
  | .ok d :: rs, c => if d.take kBufSize = [] then .ok (false, c)
    else drainInput rs (c.receive (d.take kBufSize))
  | .error .eagain :: _, c => .ok (true, c)
  | .error .eintr :: rs, c => drainInput rs c
  | .error .other :: _, c => .ok (false, c)

/-- The loop of `send`. A call accepts as much as there is room for. -/
def flushOutput : List (Except SendError ℕ) → Client → Except Client (Bool × Client)
  | [], c => if c.outOff < c.out.length then .error c else .ok (true, c)
  | k :: ks, c =>
    if c.outOff < c.out.length then
      match k with
      | .ok room =>
        let n := min room (c.out.length - c.outOff)
        if 0 < n then flushOutput ks (c.transmit n) else .ok (false, c)
      | .error .eagain => .ok (true, c)
      | .error .enotconn => .ok (true, c)
      | .error .eintr => flushOutput ks c
      | .error .other => .ok (false, c)
    else .ok (true, c)

def clearOut (c : Client) : Client :=
  if c.outOff = c.out.length then { c with out := [], outOff := 0 } else c

end Client

def Worker.service (w : Worker) (fuel : ℕ) (err : Bool) (recvs : List (Except Errno Bytes))
    (sends : List (Except SendError ℕ)) (c : Client) : Except Client (Verdict × Client) := do
  if err then
    return (.returned false, c)
  let (ok, c) ← c.drainInput recvs
  if !ok then
    return (.returned false, c)
  let (verdict, c) ← w.consumeResponses fuel c
  if verdict ≠ .returned true then
    return (verdict, c)
  let (ok, c) ← c.flushOutput sends
  if !ok then
    return (.returned false, c)
  return (.returned true, c.clearOut)

/-- The bytes are one response for the reader. -/
def Reads (b : Bytes) (status : ℤ) : Prop :=
  ∃ i n, Search.find (kCRLF ++ kCRLF) b = some i ∧ 12 ≤ i ∧ statusOf (b.take i) = status ∧
    contentLength (b.take i) = some n ∧ b.length = i + 4 + n ∧ b.length < 2 ^ 64

theorem reads_prefixFree : Code.PrefixFree Reads where
  ne_nil := by
    rintro u x ⟨i, n, -, -, -, -, hlen, -⟩ rfl
    rw [List.length_nil] at hlen
    omega
  eq_of_prefix := by
    rintro u v x y ⟨i, n, hi, hge, hx, hn, hlen, -⟩ ⟨j, m, hj, -, hy, hm, hlen', -⟩ ⟨t, rfl⟩
    cases (Search.find_append_of_some t hi).symm.trans hj
    have htake : (u ++ t).take i = u.take i := List.take_append_of_le_length (by omega)
    rw [htake] at hy hm
    cases hn.symm.trans hm
    obtain rfl : t = [] := by
      rw [List.length_append] at hlen'
      exact List.eq_nil_of_length_eq_zero (by omega)
    exact ⟨by simp, hx.symm.trans hy⟩

namespace Worker

variable {w : Worker} {c : Client} {pos : ℕ} {b e : Bytes} {status : ℤ}

theorem consumePass_reads (hin : c.inBuf.drop pos = b ++ e) (hb : Reads b status) {asked : ℕ}
    {rest : List ℕ} (hsent : c.sentAt = asked :: rest) :
    w.consumePass (c, pos) = .ok (.again (w.answered c asked rest status, pos + b.length)) := by
  obtain ⟨i, n, hi, hge, hstatus, hn, hlen, hlt⟩ := hb
  have htake : (b ++ e).take i = b.take i := List.take_append_of_le_length (by omega)
  have htotal : wrap (i + 4 + n) = b.length := by rw [← hlen, wrap_of_lt hlt]
  have hhead : ¬ (b.take i).length < 12 := by rw [List.length_take]; omega
  have hroom : ¬ (b ++ e).length < b.length := by simp
  simp only [consumePass, hin, Search.find_append_of_some e hi, htake, hhead, if_false, hn, htotal,
    hroom, hsent, hstatus]

theorem consumePass_begun (h : Code.Begun Reads (c.inBuf.drop pos)) :
    w.consumePass (c, pos) =
      .ok (.leave (.returned true, { c with inBuf := c.inBuf.drop pos })) := by
  obtain ⟨b, status, ⟨i, n, hi, hge, hstatus, hn, hlen, hlt⟩, ⟨t, ht⟩, hshort⟩ := h
  unfold consumePass
  dsimp only
  cases hf : Search.find (kCRLF ++ kCRLF) (c.inBuf.drop pos) with
  | none => rfl
  | some j =>
    -- the head is complete, and it is the head of the whole response
    have hj := Search.find_append_of_some t hf
    rw [ht, hi] at hj
    cases hj
    have hle := Search.find_add_length_le hf
    have htake : b.take i = (c.inBuf.drop pos).take i := by
      rw [← ht, List.take_append_of_le_length (by omega)]
    rw [htake] at hn
    have hhead : ¬ ((c.inBuf.drop pos).take i).length < 12 := by
      rw [List.length_take, Nat.min_eq_left (by omega)]
      omega
    have htotal : wrap (i + 4 + n) = b.length := by rw [← hlen, wrap_of_lt hlt]
    simp only [hhead, if_false, hn, htotal, if_pos hshort]

def reply (w : Worker) (c : Client) (status : ℤ) : Client :=
  match c.sentAt with
  | [] => c
  | asked :: rest => w.answered c asked rest status

theorem length_sentAt_answered (c : Client) (asked : ℕ) (rest : List ℕ) (status : ℤ) :
    rest.length ≤ (w.answered c asked rest status).sentAt.length := by
  unfold answered
  split <;> simp [enqueue, completed]

@[simp] theorem inBuf_answered (c : Client) (asked : ℕ) (rest : List ℕ) (status : ℤ) :
    (w.answered c asked rest status).inBuf = c.inBuf := by
  unfold answered
  split <;> rfl

/-- All whole responses of the input are taken, and what has only begun is kept. -/
theorem loop_consumePass {us : List Bytes} {sts : List ℤ} {y : Bytes} {fuel : ℕ}
    (hus : List.Forall₂ Reads us sts) (hin : c.inBuf.drop pos = us.flatten ++ y)
    (hy : Code.Begun Reads y) (hroom : sts.length ≤ c.sentAt.length) (hfuel : sts.length < fuel) :
    loop Prod.fst w.consumePass fuel (c, pos) =
      .ok (.returned true, { sts.foldl w.reply c with inBuf := y }) := by
  induction hus generalizing c pos fuel with
  | nil =>
    obtain ⟨fuel, rfl⟩ := Nat.exists_eq_succ_of_ne_zero (Nat.ne_of_gt hfuel)
    rw [List.flatten_nil, List.nil_append] at hin
    rw [loop, consumePass_begun (by rwa [hin]), hin]
    rfl
  | @cons u status us sts hu _ ih =>
    obtain ⟨fuel, rfl⟩ := Nat.exists_eq_succ_of_ne_zero (Nat.ne_of_gt (Nat.zero_lt_of_lt hfuel))
    rw [List.flatten_cons, List.append_assoc] at hin
    obtain ⟨asked, rest, hsent⟩ := List.exists_cons_of_ne_nil (l := c.sentAt) (by
      rintro h
      simp [h] at hroom)
    have hrest := length_sentAt_answered (w := w) c asked rest status
    rw [hsent, List.length_cons, List.length_cons, Nat.add_le_add_iff_right] at hroom
    have hdrop : (w.answered c asked rest status).inBuf.drop (pos + u.length) =
        us.flatten ++ y := by
      rw [inBuf_answered, ← List.drop_drop, hin, List.drop_left]
    rw [loop_again (consumePass_reads hin hu hsent), ih hdrop (hroom.trans hrest)
      (Nat.lt_of_succ_lt_succ hfuel), List.foldl_cons, reply, hsent]

end Worker

theorem scanNumber_appendNumber {s : Bytes} (hs : ∀ c ∈ s, isSpace c = true) (v : ℕ) :
    scanNumber (s ++ appendNumber 10 v) = (false, v) := by
  have hdigit : ∀ d < 10, isSpace (digitByte d) = false ∧ isDigit (digitByte d) = true ∧
      digitByte d ≠ ch '-' ∧ digitByte d ≠ ch '+' := by decide
  have hmem : ∀ c ∈ appendNumber 10 v, isSpace c = false ∧ isDigit c = true ∧
      c ≠ ch '-' ∧ c ≠ ch '+' := by
    intro c hc
    obtain ⟨d, hd, rfl⟩ := mem_appendNumber (by decide) hc
    exact hdigit d hd
  obtain ⟨c, t, hct⟩ := List.exists_cons_of_ne_nil (appendNumber_ne_nil 10 v)
  have hall : (appendNumber 10 v).takeWhile isDigit = appendNumber 10 v :=
    List.takeWhile_eq_self_iff.mpr fun c hc => (hmem c hc).2.1
  have hdrop : (s ++ appendNumber 10 v).dropWhile isSpace = appendNumber 10 v := by
    rw [List.dropWhile_append_of_pos hs, hct, List.dropWhile_cons_of_neg]
    simp [(hmem c (by simp [hct])).1]
  have hnum := decNumber_appendNumber v
  rw [hct] at hall hnum hdrop
  obtain ⟨-, -, hminus, hplus⟩ := hmem c (by simp [hct])
  rw [scanNumber, hct, hdrop]
  simp only [beq_iff_eq, hminus, hplus, if_false, hall, hnum]

theorem strtoull_appendNumber {v : ℕ} (hv : v < 2 ^ 64) :
    strtoull (SP :: appendNumber 10 v) = v := by
  have hscan := scanNumber_appendNumber (s := [SP]) (by simp [isSpace]) v
  rw [List.singleton_append] at hscan
  simp only [strtoull, hscan, Nat.not_le.mpr hv, if_false, Bool.false_eq_true]

theorem length_appendNumber {base v : ℕ} (hb : 1 < base) (hv : v ≠ 0) :
    (appendNumber base v).length = Nat.log base v + 1 := by
  rw [appendNumber, if_neg hv, List.length_map, List.length_reverse, Nat.length_digits base v hb hv]

theorem statusOf_statusText {status : ℕ} (hge : 100 ≤ status) (hlt : status < 1000) (t : Bytes) :
    statusOf (statusText status ++ t) = status := by
  have hlog : Nat.log 10 status = 2 :=
    (Nat.log_eq_iff (.inl (by decide))).mpr ⟨by omega, by omega⟩
  have hlen : (appendNumber 10 status).length = 3 := by
    rw [length_appendNumber (by decide) (by omega), hlog]
  have hdrop : (statusText status ++ t).drop 9 =
      appendNumber 10 status ++ ([SP] ++ text (reasonPhrase status) ++ t) := by
    rw [statusText, List.append_assoc, List.append_assoc, List.append_assoc,
      show (9 : ℕ) = (text "HTTP/1.1 ").length from rfl, List.drop_left, List.append_assoc]
  have hscan := scanNumber_appendNumber (s := []) (by simp) status
  rw [List.nil_append] at hscan
  rw [statusOf, hdrop, ← hlen, List.take_left, atoi, hscan]
  rfl

theorem iequalsPrefix_eq (s pat : Bytes) :
    iequalsPrefix s pat = iequals (s.take pat.length) pat := by
  have hzip : (s.take pat.length).zip pat = s.zip pat := by
    induction pat generalizing s with
    | nil => simp
    | cons p pat ih => cases s <;> simp [ih]
  unfold iequalsPrefix iequals
  rw [hzip, List.length_take]
  split
  · next h => simp [Nat.min_eq_right h.le, h.ne]
  · next h => simp [Nat.min_eq_left (Nat.not_lt.mp h)]

theorem eq_of_append_colon_prefix {low name r : Bytes} (hlow : ch ':' ∉ low) (hname : ch ':' ∉ name)
    (h : low ++ [ch ':'] <+: name ++ ch ':' :: r) : name = low := by
  obtain ⟨t, ht⟩ := h
  have hwhile {u v : Bytes} (hu : ch ':' ∉ u) : (u ++ ch ':' :: v).takeWhile (· != ch ':') = u := by
    have hne : ∀ c ∈ u, (c != ch ':') = true := fun c hc => by
      simpa using ne_of_mem_of_not_mem hc hu
    rw [List.takeWhile_append_of_pos hne, List.takeWhile_cons_of_neg (by simp), List.append_nil]
  rw [List.append_assoc, List.singleton_append] at ht
  rw [← hwhile hname (v := r), ← ht, hwhile hlow]

/-- A name is told from `Content-Length` by the first fifteen bytes of its line. -/
theorem iequalsPrefix_fieldText {f : Field} (hf : Field.Clean f) (t : Bytes) :
    iequalsPrefix (fieldText f ++ t) (text "content-length:") =
      iequals f.1 (text "Content-Length") := by
  have hcolon : ∀ c, asciiLower c = ch ':' → c = ch ':' := forall_byte (by decide +kernel)
  have hname : ch ':' ∉ f.1.map asciiLower := by
    intro h
    obtain ⟨c, hc, hlow⟩ := List.mem_map.mp h
    have htchar := (isToken_iff.mp hf.1).2 c hc
    rw [hcolon c hlow] at htchar
    cases htchar
  have htext : (text "content-length:").map asciiLower =
      (text "Content-Length").map asciiLower ++ [ch ':'] := by decide
  have hline : (fieldText f ++ t).map asciiLower =
      f.1.map asciiLower ++ ch ':' :: ([SP] ++ f.2 ++ t).map asciiLower := by
    have hlow : asciiLower (ch ':') = ch ':' := by decide
    simp [fieldText, text, ch, SP] at hlow ⊢
    exact hlow
  rw [iequalsPrefix_eq, Bool.eq_iff_iff, iequals_iff, iequals_iff, List.map_take, htext, hline]
  constructor
  · intro h
    have hpre := List.take_prefix (text "content-length:").length
      (f.1.map asciiLower ++ ch ':' :: ([SP] ++ f.2 ++ t).map asciiLower)
    rw [h] at hpre
    exact eq_of_append_colon_prefix (by decide) hname hpre
  · intro h
    rw [h]
    rfl

def headLines (first : Bytes) (fields : List Field) : Bytes :=
  first ++ (fields.map fun f => kCRLF ++ fieldText f).flatten

theorem headLines_cons (first : Bytes) (f : Field) (fields : List Field) :
    headLines first (f :: fields) = first ++ (kCRLF ++ headLines (fieldText f) fields) := by
  simp [headLines]

theorem responseHead_eq_headLines (status : ℕ) (fields : List Field) :
    responseHead status fields = headLines (statusText status) fields ++ (kCRLF ++ kCRLF) := by
  have hlines (first : Bytes) : first ++ kCRLF ++ (fields.map fieldLine).flatten =
      headLines first fields ++ kCRLF := by
    induction fields generalizing first with
    | nil => simp [headLines]
    | cons f fields ih =>
      rw [headLines_cons, List.map_cons, List.flatten_cons]
      change first ++ kCRLF ++ (fieldText f ++ kCRLF ++ (fields.map fieldLine).flatten) = _
      rw [ih]
      simp
  rw [responseHead, ← List.append_assoc, ← hlines]
  rfl

theorem lengthOf_fieldText {f : Field} {fields : List Field} (hf : Field.Clean f)
    (hlen : f.1.length = 14) :
    lengthOf (headLines (fieldText f) fields) = strtoull (SP :: f.2) := by
  have hfree : CrlfFree (fieldText f) := crlfFree_of_plain hf.plain
  have hdrop : (fieldText f).drop 15 = SP :: f.2 := by
    have hsplit : fieldText f = (f.1 ++ [ch ':']) ++ (SP :: f.2) := by
      simp [fieldText, text, ch, SP]
    rw [hsplit, show (15 : ℕ) = (f.1 ++ [ch ':']).length by simp [hlen], List.drop_left]
  have hlong : 15 ≤ (fieldText f).length := by
    simp [fieldText, hlen, text]
    omega
  unfold lengthOf
  cases fields with
  | nil =>
    have hnone : Search.find kCRLF (fieldText f) = none := Search.find_eq_none_of fun j hj =>
      hfree (Search.infix_iff_prefix_drop.mpr ⟨j, hj⟩)
    simp [headLines, hnone, hdrop]
  | cons g fields =>
    rw [headLines_cons, Search.find_append_pat unbordered_kCRLF hfree]
    dsimp only
    rw [List.drop_append_of_le_length hlong, ← List.length_drop, List.take_left, hdrop]

/-- The reader goes through the fields, and the last `Content-Length` counts. -/
theorem scanLines_headLines {first : Bytes} {fields : List Field} {k : ℕ} {length : Option ℕ}
    (hfirst : CrlfFree first) (hclean : ∀ f ∈ fields, Field.Clean f) (hk : fields.length < k) :
    scanLines k (headLines first fields) length =
      (fields.filter fun f => iequals f.1 (text "Content-Length")).foldl
        (fun _ f => some (strtoull (SP :: f.2))) length := by
  induction fields generalizing first k length with
  | nil =>
    obtain ⟨k, rfl⟩ := Nat.exists_eq_succ_of_ne_zero (Nat.ne_of_gt hk)
    have hnone : Search.find kCRLF first = none := Search.find_eq_none_of fun j hj =>
      hfirst (Search.infix_iff_prefix_drop.mpr ⟨j, hj⟩)
    simp [headLines, scanLines, hnone]
  | cons f fields ih =>
    obtain ⟨k, rfl⟩ := Nat.exists_eq_succ_of_ne_zero (Nat.ne_of_gt (Nat.zero_lt_of_lt hk))
    have hf := hclean f List.mem_cons_self
    have hdrop : (first ++ (kCRLF ++ headLines (fieldText f) fields)).drop (first.length + 2) =
        headLines (fieldText f) fields := by
      rw [← List.append_assoc, show first.length + 2 = (first ++ kCRLF).length by simp,
        List.drop_left]
    rw [headLines_cons, scanLines, Search.find_append_pat unbordered_kCRLF hfirst]
    dsimp only
    rw [hdrop, headLines, iequalsPrefix_fieldText hf, ← headLines,
      ih (crlfFree_of_plain hf.plain) (fun f hf => hclean f (List.mem_cons_of_mem _ hf))
        (Nat.lt_of_succ_lt_succ hk)]
    cases hname : iequals f.1 (text "Content-Length") with
    | false => rw [List.filter_cons_of_neg (by simp [hname])]; rfl
    | true =>
      have hlen : f.1.length = 14 := by
        have := congrArg List.length (iequals_iff.mp hname)
        simpa [text] using this
      rw [List.filter_cons_of_pos (by simpa using hname), List.foldl_cons, if_pos rfl,
        lengthOf_fieldText hf hlen]

theorem find_responseHead (status : ℕ) {fields : List Field}
    (hclean : ∀ f ∈ fields, Field.Clean f) :
    Search.find (kCRLF ++ kCRLF) (responseHead status fields) =
      some (headLines (statusText status) fields).length := by
  have hplain : ∀ l ∈ statusText status :: fields.map fieldText,
      l ≠ [] ∧ ∀ c ∈ l, isPlain c = true := by
    intro l hl
    rcases List.mem_cons.mp hl with rfl | hl
    · exact ⟨by simp [statusText, text], plain_statusText status⟩
    · obtain ⟨f, hf, rfl⟩ := List.mem_map.mp hl
      exact ⟨by simp [fieldText, text], (hclean f hf).plain⟩
  have hiff := crlf_crlf_iff (List.cons_ne_nil _ _) hplain
  simp only [← responseHead_eq] at hiff
  have hlength : (headLines (statusText status) fields).length + 4 =
      (responseHead status fields).length := by
    rw [responseHead_eq_headLines, List.length_append]
    rfl
  refine Search.find_eq_some_of ((hiff _).mpr hlength) fun j hj hpre => ?_
  have := (hiff j).mp hpre
  omega

theorem length_le_headLines (first : Bytes) (fields : List Field) :
    first.length + fields.length ≤ (headLines first fields).length := by
  induction fields generalizing first with
  | nil => simp [headLines]
  | cons f fields ih =>
    have := ih (fieldText f)
    simp only [headLines_cons, List.length_append, List.length_cons, length_kCRLF]
    omega

/-- A response whose head announces the length of its body is read as one. -/
theorem reads_responseHead {status n : ℕ} {fields : List Field} {body : Bytes}
    (hge : 100 ≤ status) (hlt : status < 1000) (hclean : ∀ f ∈ fields, Field.Clean f)
    (hdel : fields.filter delimits = [(text "Content-Length", appendNumber 10 n)])
    (hbody : body.length = n) (hsize : (responseHead status fields ++ body).length < 2 ^ 64) :
    Reads (responseHead status fields ++ body) status := by
  have hlines := responseHead_eq_headLines status fields
  have hcount := length_le_headLines (statusText status) fields
  have htake : (responseHead status fields ++ body).take
      (headLines (statusText status) fields).length = headLines (statusText status) fields := by
    rw [hlines, List.append_assoc, List.take_left]
  have hfields : fields.filter (fun f => iequals f.1 (text "Content-Length")) =
      [(text "Content-Length", appendNumber 10 n)] := by
    have hsub : fields.filter (fun f => iequals f.1 (text "Content-Length")) =
        (fields.filter delimits).filter fun f => iequals f.1 (text "Content-Length") := by
      rw [List.filter_filter]
      refine List.filter_congr fun f _ => ?_
      cases hname : iequals f.1 (text "Content-Length") <;> simp [delimits, hname]
    rw [hsub, hdel]
    simp
  rw [hlines, List.append_assoc, List.length_append, List.length_append] at hsize
  refine ⟨_, n, Search.find_append_of_some body (find_responseHead status hclean), ?_, ?_, ?_, ?_,
    ?_⟩
  · have hlog : 0 < Nat.log 10 status := Nat.log_pos (by decide) (by omega)
    have hdigits : (appendNumber 10 status).length = Nat.log 10 status + 1 :=
      length_appendNumber (by decide) (by omega)
    have htext : (statusText status).length ≥ 9 + (appendNumber 10 status).length + 1 := by
      simp [statusText, text]
      omega
    omega
  · rw [htake, headLines, statusOf_statusText hge hlt]
  · rw [htake, contentLength, scanLines_headLines (crlfFree_of_plain (plain_statusText status))
      hclean (by omega), hfields, List.foldl_cons, List.foldl_nil, strtoull_appendNumber (by omega)]
  · rw [hlines, List.append_assoc, List.length_append, List.length_append, hbody, Nat.add_assoc]
    rfl
  · rw [hlines, List.append_assoc, List.length_append, List.length_append]
    exact hsize

def non2xx (status : ℤ) : Bool := status < 200 || 300 ≤ status

namespace Worker

def Late (w : Worker) (c : Client) : Prop := ∃ i < c.ticks, w.deadline ≤ w.clock i

/-- The requests asked for have been sent or are in the output, and the answers belong to the
oldest of them, each with its latency. -/
structure Account (w : Worker) (c : Client) : Prop where
  off_le : c.outOff ≤ c.out.length
  asks : c.sent ++ c.out.drop c.outOff = (List.replicate c.askedAt.length w.request).flatten
  answered_le : c.statuses.length ≤ c.askedAt.length
  flight : c.askedAt.drop c.statuses.length = c.sentAt
  requests : c.stats.requests = c.statuses.length
  non2xx : c.stats.non2xx = c.statuses.countP Loadgen.non2xx
  latencies : ∃ times : List ℕ, times.length = c.statuses.length ∧
    c.stats.latenciesNs = List.zipWith elapsed times (c.askedAt.take c.statuses.length)

/-- As many requests are in flight as the pipeline is deep, until the deadline has passed. -/
structure Kept (w : Worker) (c : Client) : Prop extends Account w c where
  depth_le : c.sentAt.length ≤ w.opt.pipeline.toNat
  depth : c.sentAt.length = w.opt.pipeline.toNat ∨ w.Late c

variable {w : Worker} {c : Client}

theorem iterate_enqueue (w : Worker) (n : ℕ) : ∃ times : List ℕ, times.length = n ∧
    w.enqueue^[n] {} = { out := (List.replicate n w.request).flatten
                         sentAt := times
                         ticks := n
                         askedAt := times } := by
  induction n with
  | zero => exact ⟨[], rfl, rfl⟩
  | succ n ih =>
    obtain ⟨times, hlen, heq⟩ := ih
    refine ⟨times ++ [w.clock n], by simp [hlen], ?_⟩
    rw [Function.iterate_succ_apply', heq, List.replicate_succ']
    simp [enqueue]

theorem kept_opened (w : Worker) : w.Kept w.opened := by
  obtain ⟨times, hlen, heq⟩ := w.iterate_enqueue w.opt.pipeline.toNat
  rw [opened, heq]
  refine ⟨⟨?_, ?_, ?_, ?_, ?_, ?_, ⟨[], rfl, rfl⟩⟩, hlen.le, .inl hlen⟩
  all_goals simp [hlen]

theorem Kept.receive (h : w.Kept c) (d : Bytes) : w.Kept (c.receive d) := { h with }

theorem Kept.setInput (h : w.Kept c) (d : Bytes) : w.Kept { c with inBuf := d } := { h with }

theorem Kept.transmit (h : w.Kept c) {n : ℕ} (hn : n ≤ c.out.length - c.outOff) :
    w.Kept (c.transmit n) :=
  { h with
    off_le := by
      have := h.off_le
      change c.outOff + n ≤ c.out.length
      omega
    asks := by
      change c.sent ++ (c.out.drop c.outOff).take n ++ c.out.drop (c.outOff + n) = _
      rw [List.append_assoc, ← List.drop_drop, List.take_append_drop]
      exact h.asks }

theorem Kept.clearOut (h : w.Kept c) : w.Kept c.clearOut := by
  unfold Client.clearOut
  split
  · next hall =>
    have hasks := h.asks
    rw [hall, List.drop_length] at hasks
    exact { h with off_le := le_rfl, asks := by simpa using hasks }
  · exact h

theorem Account.enqueue (h : w.Account c) : w.Account (w.enqueue c) where
  off_le := by
    have := h.off_le
    simp only [Worker.enqueue, List.length_append]
    omega
  asks := by
    have hdrop : (c.out ++ w.request).drop c.outOff = c.out.drop c.outOff ++ w.request :=
      List.drop_append_of_le_length h.off_le
    simp only [Worker.enqueue]
    rw [hdrop, ← List.append_assoc, h.asks, List.length_append, List.length_singleton,
      List.replicate_succ', List.flatten_append, List.flatten_singleton]
  answered_le := by
    have := h.answered_le
    simp only [Worker.enqueue, List.length_append]
    omega
  flight := by
    simp only [Worker.enqueue]
    rw [List.drop_append_of_le_length h.answered_le, h.flight]
  requests := h.requests
  non2xx := h.non2xx
  latencies := by
    obtain ⟨times, hlen, hlat⟩ := h.latencies
    refine ⟨times, hlen, hlat.trans ?_⟩
    simp only [Worker.enqueue, List.take_append_of_le_length h.answered_le]

theorem Account.completed (h : w.Account c) {asked : ℕ} {rest : List ℕ}
    (hsent : c.sentAt = asked :: rest) (status : ℤ) :
    w.Account (w.completed c asked rest status) := by
  have hflight : c.askedAt.drop c.statuses.length = asked :: rest := h.flight.trans hsent
  have hlt : c.statuses.length < c.askedAt.length := by
    by_contra hge
    rw [List.drop_eq_nil_of_le (by omega)] at hflight
    cases hflight
  have hlen : (w.completed c asked rest status).statuses.length = c.statuses.length + 1 := by
    simp [Worker.completed]
  refine ⟨h.off_le, h.asks, ?_, ?_, ?_, ?_, ?_⟩
  · exact hlen.trans_le hlt
  · rw [hlen, ← List.drop_drop]
    exact congrArg (List.drop 1) hflight
  · rw [hlen, ← h.requests]
    rfl
  · simp only [Worker.completed, List.countP_append, List.countP_singleton, ← h.non2xx,
      Loadgen.non2xx]
    split <;> simp_all
  · obtain ⟨times, htimes, hlat⟩ := h.latencies
    have htake : c.askedAt.take (c.statuses.length + 1) =
        c.askedAt.take c.statuses.length ++ [asked] := by
      rw [List.take_add, hflight, List.take_one, List.head?_cons, Option.toList_some]
    refine ⟨times ++ [w.clock c.ticks], by simp [htimes, hlen], ?_⟩
    rw [hlen]
    simp only [Worker.completed]
    rw [hlat, htake, List.zipWith_append (by simp [htimes]; omega)]
    rfl

theorem Kept.answered (h : w.Kept c) {asked : ℕ} {rest : List ℕ}
    (hsent : c.sentAt = asked :: rest) (status : ℤ) :
    w.Kept (w.answered c asked rest status) := by
  have hacc := h.toAccount.completed hsent status
  have hle := h.depth_le
  rw [hsent, List.length_cons] at hle
  have hlate : w.Late c → w.Late (w.completed c asked rest status) := by
    rintro ⟨i, hi, hdead⟩
    exact ⟨i, by simp only [Worker.completed]; omega, hdead⟩
  unfold Worker.answered
  split
  · refine ⟨hacc.enqueue, by simpa [Worker.enqueue, Worker.completed] using hle, ?_⟩
    refine h.depth.imp (fun hd => ?_) fun hl => ?_
    · rw [hsent, List.length_cons] at hd
      simpa [Worker.enqueue, Worker.completed] using hd
    · obtain ⟨i, hi, hdead⟩ := hlate hl
      exact ⟨i, Nat.lt_succ_of_lt hi, hdead⟩
  · next hdead =>
    refine ⟨hacc, (Nat.le_succ _).trans hle, .inr ⟨c.ticks + 1, ?_, Nat.not_lt.mp hdead⟩⟩
    exact Nat.lt_succ_self _

theorem answered_history (c : Client) (asked : ℕ) (rest : List ℕ) (status : ℤ) :
    (w.answered c asked rest status).statuses = c.statuses ++ [status] ∧
      (w.answered c asked rest status).received = c.received ∧
      (w.answered c asked rest status).sent = c.sent := by
  unfold Worker.answered
  split <;> exact ⟨rfl, rfl, rfl⟩

theorem Kept.replies (h : w.Kept c) {sts : List ℤ} (hroom : sts.length ≤ c.sentAt.length) :
    w.Kept (sts.foldl w.reply c) ∧ (sts.foldl w.reply c).statuses = c.statuses ++ sts ∧
      (sts.foldl w.reply c).received = c.received ∧ (sts.foldl w.reply c).sent = c.sent := by
  induction sts generalizing c with
  | nil => exact ⟨h, by simp, rfl, rfl⟩
  | cons status sts ih =>
    obtain ⟨asked, rest, hsent⟩ := List.exists_cons_of_ne_nil (l := c.sentAt) (by
      rintro hnil
      simp [hnil] at hroom)
    have hrest := length_sentAt_answered (w := w) c asked rest status
    rw [hsent, List.length_cons, List.length_cons, Nat.add_le_add_iff_right] at hroom
    obtain ⟨hkept, hstatuses, hreceived, hsentBytes⟩ :=
      ih (h.answered hsent status) (hroom.trans hrest)
    obtain ⟨hs, hr, hb⟩ := answered_history (w := w) c asked rest status
    rw [List.foldl_cons, show w.reply c status = w.answered c asked rest status by
      rw [reply, hsent]]
    exact ⟨hkept, by rw [hstatuses, hs, List.append_assoc, List.singleton_append],
      hreceived.trans hr, hsentBytes.trans hb⟩

end Worker

end Httpd.Loadgen
