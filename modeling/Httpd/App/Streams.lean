import Httpd.App.Routes
import Httpd.Parser.RoundTrip
import Httpd.Server.Allow
import Httpd.Server.HeadRequests
import Httpd.Server.Streaming

/-! # The bodies that are made up as they are sent

What a client of `/stream/` and of `/bytes/` receives, whenever the connection asks the producer
for more: the lines with their checksum behind them, and the alphabet over and over. In both
cases the rest that a producer owes is a function of its state, and a call pays some of it.
-/

namespace Httpd

open Slice Transcript

variable {limits : ParserLimits} {F : (Fd → Bytes) → Prop} {A : Moment World → Kernel → Prop}

namespace Producer

variable {sent left n i : ℕ} {tr tr' : Headers} {more : Bool} {piece w : Bytes} {next : Producer}

def letters (i k : ℕ) : Bytes := (List.range' i k).map letter

@[simp] theorem length_letters (i k : ℕ) : (letters i k).length = k := by simp [letters]

theorem letters_add (i k m : ℕ) : letters i (k + m) = letters i k ++ letters (i + k) m := by
  rw [letters, ← List.range'_append_1, List.map_append, letters, letters]

theorem letters_mod (i k : ℕ) : letters (i % 26) k = letters i k := by
  rw [letters, letters, List.range'_eq_map_range, List.range'_eq_map_range, List.map_map,
    List.map_map]
  apply List.map_congr_left
  intro j _
  simp [letter, Nat.mod_add_mod]

/-- How much is taken from the pattern at a time. -/
def window (sent n : ℕ) : ℕ := min (n - sent) kBytesPiece

theorem window_in_bounds (sent n : ℕ) : sent % 26 + window sent n ≤ pattern.length := by
  have hlen : pattern.length = kBytesPiece + 26 := by simp [pattern]
  have hmod : sent % 26 < 26 := Nat.mod_lt _ (by decide)
  have hle : window sent n ≤ kBytesPiece := min_le_right _ _
  omega

theorem slice_pattern (sent n : ℕ) :
    slice pattern (sent % 26) (window sent n) = letters sent (window sent n) := by
  rw [← letters_mod]
  apply slice_map_range
  simpa [pattern] using window_in_bounds sent n

theorem callBytes_eq (h : sent < n) (hn : n ≤ kMaxGeneratedBytes) (tr : Headers) :
    callBytes sent n tr = .returned (decide (sent + window sent n < n))
      (letters sent (window sent n)) tr (.bytes (sent + window sent n) n) := by
  have hmax : kMaxGeneratedBytes = 2 ^ 30 := rfl
  have hle : window sent n ≤ n - sent := min_le_left _ _
  have hbounds := window_in_bounds sent n
  have hnext : wrap (sent + window sent n) = sent + window sent n :=
    Nat.mod_eq_of_lt (by omega)
  unfold callBytes
  dsimp only
  rw [wrapSub_of_le h.le (by omega), if_neg (by omega)]
  change Produced.returned (decide (wrap (sent + window sent n) < n))
    (slice pattern (sent % 26) (window sent n)) tr (bytes (wrap (sent + window sent n)) n) = _
  rw [hnext, slice_pattern]

theorem call_bytes : (appServer limits).call (.bytes sent n) tr = callBytes sent n tr := by
  simp only [appServer, call]

def lines (i k n : ℕ) : List Bytes := (List.range' i k).map (line · n)

def streamBody (n : ℕ) : Bytes := (lines 0 n n).flatten

def streamTrailers (n : ℕ) : Headers :=
  (Headers.empty.set (text "X-Chunk-Count") (appendNumber 10 n)).set (text "X-Content-CRC32")
    (hex08 (crc32 (streamBody n) 0))

@[simp] theorem lines_zero (i n : ℕ) : lines i 0 n = [] := rfl

theorem lines_succ (i k n : ℕ) : lines i (k + 1) n = line i n :: lines (i + 1) k n := rfl

/-- The checksum of the lines so far. -/
def sumTo (i n : ℕ) : UInt32 := crc32 (lines 0 i n).flatten 0

theorem sumTo_zero (n : ℕ) : sumTo 0 n = 0 := crc32_nil 0

theorem crc32_line (i n : ℕ) : crc32 (line i n) (sumTo i n) = sumTo (i + 1) n := by
  rw [sumTo, ← crc32_append, sumTo, lines, lines, List.range'_concat, List.map_append,
    List.flatten_append]
  simp

theorem line_ne_nil (i n : ℕ) : line i n ≠ [] := by simp [line, text]

theorem callStream_more (h : i + 1 < n) :
    callStream i n (sumTo i n) tr =
      .returned true (line i n) tr (.stream (i + 1) n (sumTo (i + 1) n)) := by
  rw [← crc32_line]
  unfold callStream
  rw [if_pos (by omega)]
  exact if_pos h

theorem callStream_last (hle : i ≤ n) (h : n ≤ i + 1) :
    callStream i n (sumTo i n) .empty =
      .returned false (lines i (n - i) n).flatten (streamTrailers n) (.stream n n (sumTo n n)) := by
  unfold callStream
  rcases Nat.eq_or_lt_of_le hle with rfl | hlt
  · rw [if_neg (lt_irrefl i), Nat.sub_self]
    exact if_neg (lt_irrefl i)
  · obtain rfl : n = i + 1 := by omega
    rw [if_pos hlt, crc32_line, Nat.add_sub_cancel_left, lines_succ, lines_zero, List.flatten_cons,
      List.flatten_nil, List.append_nil]
    exact if_neg (lt_irrefl (i + 1))

theorem call_stream {crc : UInt32} :
    (appServer limits).call (.stream i n crc) tr = callStream i n crc tr := by
  simp only [appServer, call]

/-- The producer of the lines yields them one by one, or nothing if there are none. -/
theorem yields_lines {i k n : ℕ} (hsum : i + k = n) :
    Yields (appServer limits) (.stream i n (sumTo i n)) .empty
      (if k = 0 then [[]] else lines i k n) (streamTrailers n) := by
  induction k generalizing i with
  | zero =>
    have hlast := callStream_last (i := i) (n := n) (by omega) (by omega)
    rw [show n - i = 0 by omega, lines_zero] at hlast
    exact .last (call_stream.trans hlast)
  | succ k ih =>
    rw [if_neg k.succ_ne_zero]
    rcases Nat.eq_zero_or_pos k with rfl | hpos
    · have hlast := callStream_last (i := i) (n := n) (by omega) (by omega)
      rw [show n - i = 1 by omega, lines_succ, lines_zero] at hlast
      exact .last (call_stream.trans (by simpa using hlast))
    · have hrest := ih (i := i + 1) (by omega)
      rw [if_neg hpos.ne'] at hrest
      exact .more (call_stream.trans (callStream_more (by omega))) (line_ne_nil i n) hrest

theorem encodeChunks_eq (pieces : List Bytes) (tr : Headers) :
    encodeChunks pieces tr = Coding.chunked.body pieces tr := by
  have hfold : ∀ out,
      pieces.foldl appendChunk out = out ++ (pieces.map (appendChunk [])).flatten := by
    induction pieces with
    | nil => simp
    | cons piece pieces ih =>
      intro out
      rw [List.foldl_cons, ih, List.map_cons, List.flatten_cons, ← List.append_assoc]
      congr 1
      unfold appendChunk
      split <;> simp
  rw [encodeChunks, hfold, List.nil_append]
  simp only [appendLastChunk, Coding.body, Coding.ending, List.nil_append, List.append_assoc]
  rfl

theorem length_line_le (hi : i < 10 ^ 6) (hn : n < 10 ^ 6) : (line i n).length ≤ 23 := by
  have hi' : (appendNumber 10 i).length ≤ 6 := length_appendNumber_le (by decide) (by decide) hi
  have hn' : (appendNumber 10 n).length ≤ 6 := length_appendNumber_le (by decide) (by decide) hn
  simp only [line, List.length_append]
  have h₁ : (text "chunk ").length = 6 := rfl
  have h₂ : (text " of ").length = 4 := rfl
  have h₃ : (text "\n").length = 1 := rfl
  omega

theorem length_flatten_lines_le {k : ℕ} (hn : n < 10 ^ 6) (hk : i + k ≤ n) :
    (lines i k n).flatten.length ≤ 23 * k := by
  induction k generalizing i with
  | zero => simp
  | succ k ih =>
    have hline := length_line_le (i := i) (by omega) hn
    have hrest := ih (i := i + 1) (by omega)
    rw [lines_succ, List.flatten_cons, List.length_append]
    omega

theorem length_hex08 (crc : UInt32) : (hex08 crc).length = 8 := by
  have hlt : crc.toNat < 16 ^ 8 := crc.toNat_lt
  have hle : (appendNumber 16 crc.toNat).length ≤ 8 :=
    length_appendNumber_le (by decide) (by decide) hlt
  simp only [hex08, List.length_append, List.length_replicate]
  omega

theorem mem_hex08 {c : UInt8} {crc : UInt32} (h : c ∈ hex08 crc) : ∃ d < 16, c = digitByte d := by
  rcases List.mem_append.mp h with h | h
  · exact ⟨0, by decide, List.eq_of_mem_replicate h⟩
  · exact mem_appendNumber (by decide) h

theorem fields_streamTrailers (n : ℕ) : (streamTrailers n).fields =
    [(text "X-Chunk-Count", appendNumber 10 n),
      (text "X-Content-CRC32", hex08 (crc32 (streamBody n) 0))] := rfl

theorem clean_of_digits {f : Field} (hname : isToken f.1 = true)
    (h : ∀ c ∈ f.2, ∃ d < 16, c = digitByte d) : Field.Clean f ∧ Field.Trimmed f := by
  have hows : ∀ c ∈ f.2, isOws c = false := by
    intro c hc
    obtain ⟨d, hd, rfl⟩ := h c hc
    exact (digitByte_plain d hd).2.1
  refine ⟨⟨hname, fun c hc => ?_⟩, fun c hc => hows c (List.mem_of_mem_head? hc),
    fun c hc => hows c (List.mem_of_mem_getLast? hc)⟩
  obtain ⟨d, hd, rfl⟩ := h c hc
  exact isCtl_digitByte d hd

theorem streamTrailers_clean (n : ℕ) :
    ∀ f ∈ (streamTrailers n).fields, Field.Clean f ∧ Field.Trimmed f := by
  rw [fields_streamTrailers, List.forall_mem_cons, List.forall_mem_singleton]
  constructor
  · apply clean_of_digits rfl
    intro c hc
    obtain ⟨d, hd, rfl⟩ := mem_appendNumber (by decide) hc
    exact ⟨d, hd.trans (by decide), rfl⟩
  · exact clean_of_digits rfl fun c hc => mem_hex08 hc

theorem decodeChunked_stream (hn : n ≤ kMaxStreamChunks) :
    decodeChunked (Coding.chunked.body (lines 0 n n) (streamTrailers n)) =
      some (streamBody n, streamTrailers n) := by
  have hmax : kMaxStreamChunks = 100000 := rfl
  rw [← encodeChunks_eq]
  have hcount : (appendNumber 10 n).length ≤ 6 :=
    length_appendNumber_le (by decide) (by decide) (by omega)
  apply decodeChunked_encodeChunks
  · have hle := length_flatten_lines_le (i := 0) (k := n) (n := n) (by omega) (by omega)
    omega
  · have hsum := length_hex08 (crc32 (streamBody n) 0)
    rw [fields_streamTrailers]
    simp only [fieldLine, List.map_cons, List.map_nil, List.flatten_cons, List.flatten_nil,
      List.length_append, List.length_nil, hsum]
    have h₁ : (text "X-Chunk-Count").length = 13 := rfl
    have h₂ : (text "X-Content-CRC32").length = 15 := rfl
    have h₃ : (text ": ").length = 2 := rfl
    have h₄ : kCRLF.length = 2 := rfl
    omega
  · rw [fields_streamTrailers]
    exact Nat.le_of_ble_eq_true rfl
  · exact streamTrailers_clean n

end Producer

namespace Routes

open Producer

variable {t : Session Producer} {w : World} {req : Request} {res : Response Producer}
  {opts : HeadOptions} {b d : Bytes} {n : ℕ}

theorem get_ne_head : (text "GET" != text "HEAD") = true := rfl

def answered (path : Bytes) (t : Session Producer) : Bool :=
  t.log.any fun e => e.1.request?.any fun req =>
    req.method == text "GET" && !req.isHttp10 && req.path == path

end Routes

end Httpd
