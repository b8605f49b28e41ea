import Httpd.Parser.Lines

/-! # Control bytes outside the content

The units of a message other than body bytes end in CRLF. A line found by searching
for CRLF can still hold a lone CR, a lone LF or a NUL. Request lines and field lines
are free of these, and so are the digits of a chunk-size line, but not its extensions.
-/

namespace Httpd

open Incremental

variable {u line ext : Bytes} {c : UInt8}

/-- Every CR is followed by LF, every LF is preceded by CR, and there is no NUL. -/
structure Clean (u : Bytes) : Prop where
  nul : 0 ∉ u
  cr : ∀ {a b}, u = a ++ CR :: b → b.head? = some LF
  lf : ∀ {a b}, u = a ++ LF :: b → a.getLast? = some CR

def isPlain (c : UInt8) : Bool := c != CR && c != LF && c != 0

theorem isPlain_iff : isPlain c = true ↔ c ≠ CR ∧ c ≠ LF ∧ c ≠ 0 := by
  simp [isPlain, and_assoc]

theorem clean_line_of_plain (h : ∀ c ∈ line, isPlain c = true) : Clean (line ++ kCRLF) where
  nul hm := by
    rcases List.mem_append.mp hm with hm | hm
    · exact (isPlain_iff.mp (h _ hm)).2.2 rfl
    · exact absurd hm (by decide)
  cr {a b} e := by
    rcases List.append_eq_append_iff.mp e with ⟨w, rfl, hw⟩ | ⟨w, rfl, hw⟩
    · cases w with
      | nil => cases hw; rfl
      | cons x w =>
        simp only [kCRLF, List.cons_append, List.cons.injEq] at hw
        obtain ⟨-, hw⟩ := hw
        cases w with
        | nil => cases hw
        | cons y w => simp at hw
    · cases w with
      | nil => cases hw; rfl
      | cons x w =>
        cases hw
        exact absurd rfl (isPlain_iff.mp (h CR (by simp))).1
  lf {a b} e := by
    rcases List.append_eq_append_iff.mp e with ⟨w, rfl, hw⟩ | ⟨w, rfl, hw⟩
    · cases w with
      | nil => cases hw
      | cons x w =>
        simp only [kCRLF, List.cons_append, List.cons.injEq] at hw
        obtain ⟨rfl, hw⟩ := hw
        cases w with
        | nil => simp
        | cons y w => simp at hw
    · cases w with
      | nil => cases hw
      | cons x w =>
        cases hw
        exact absurd rfl (isPlain_iff.mp (h LF (by simp))).2.1

theorem plain_of_clean_line (hl : CrlfFree line) (h : Clean (line ++ kCRLF)) (hc : c ∈ line) :
    isPlain c = true := by
  obtain ⟨a, b, rfl⟩ := List.append_of_mem hc
  refine isPlain_iff.mpr ⟨?_, ?_, ?_⟩
  · rintro rfl
    have hhead := h.cr (a := a) (b := b ++ kCRLF) (by simp)
    cases b with
    | nil => exact absurd hhead (by decide)
    | cons x b =>
      cases hhead
      exact hl ⟨a, b, by simp [kCRLF]⟩
  · rintro rfl
    have hlast := h.lf (a := a) (b := b ++ kCRLF) (by simp)
    obtain ⟨a, rfl⟩ := List.getLast?_eq_some_iff.mp hlast
    exact hl ⟨a, b, by simp [kCRLF]⟩
  · rintro rfl
    exact h.nul (by simp)

theorem clean_line_iff (hl : CrlfFree line) :
    Clean (line ++ kCRLF) ↔ ∀ c ∈ line, isPlain c = true :=
  ⟨fun h _ hc => plain_of_clean_line hl h hc, clean_line_of_plain⟩

theorem clean_kCRLF : Clean kCRLF := by
  have h : ∀ c ∈ ([] : Bytes), isPlain c = true := by simp
  exact clean_line_of_plain h

theorem isPlain_of_isTchar : isTchar c = true → isPlain c = true :=
  forall_byte (P := fun c => isTchar c = true → isPlain c = true) (by decide +kernel) c

theorem isPlain_of_isCtl : isCtl c = false → isPlain c = true :=
  forall_byte (P := fun c => isCtl c = false → isPlain c = true) (by decide +kernel) c

theorem isPlain_of_space_lt : 0x20 < c → isPlain c = true :=
  forall_byte (P := fun c => 0x20 < c → isPlain c = true) (by decide +kernel) c

theorem isPlain_of_isOws : isOws c = true → isPlain c = true :=
  forall_byte (P := fun c => isOws c = true → isPlain c = true) (by decide +kernel) c

theorem isPlain_of_hexValue : (hexValue c).isSome = true → isPlain c = true :=
  forall_byte (P := fun c => (hexValue c).isSome = true → isPlain c = true) (by decide +kernel) c

theorem isPlain_of_isToken {s : Bytes} (h : isToken s = true) (hc : c ∈ s) : isPlain c = true :=
  isPlain_of_isTchar ((isToken_iff.mp h).2 c hc)

theorem isPlain_of_mem_httpVersion {minor : ℕ} (hc : c ∈ httpVersion minor) :
    isPlain c = true := by
  have hall : ∀ minor ≤ 1, (httpVersion minor).all isPlain = true := by decide
  unfold httpVersion at hc
  split at hc
  · exact List.all_eq_true.mp (hall 0 (by omega)) c hc
  · exact List.all_eq_true.mp (hall 1 (by omega)) c hc

theorem RequestLine.isPlain (r : RequestLine) (hc : c ∈ r.line) : isPlain c = true := by
  simp only [RequestLine.line, List.mem_append, List.mem_cons] at hc
  rcases hc with hc | rfl | hc | rfl | hc
  · exact isPlain_of_isToken r.method_token hc
  · rfl
  · exact isPlain_of_space_lt (r.target_clean c hc).1
  · rfl
  · exact isPlain_of_mem_httpVersion hc

theorem FieldLine.isPlain (f : FieldLine) (hc : c ∈ f.line) : isPlain c = true := by
  simp only [FieldLine.line, List.mem_append, List.mem_cons] at hc
  rcases hc with hc | rfl | hc
  · exact isPlain_of_isToken f.name_token hc
  · rfl
  · exact isPlain_of_isCtl (f.raw_clean c hc)

def chunkExtensions (line : Bytes) : Bytes := line.dropWhile (· != ch ';')

theorem IsSizeLine.isPlain_iff {size : ℕ} (h : IsSizeLine line size) :
    (∀ c ∈ line, isPlain c = true) ↔ ∀ c ∈ chunkExtensions line, isPlain c = true := by
  constructor
  · exact fun hl c hc => hl c (List.dropWhile_subset _ hc)
  · intro he c hc
    rw [← List.takeWhile_append_dropWhile (p := (· != ch ';')) (l := line), List.mem_append] at hc
    rcases hc with hc | hc
    · rcases isOws_or_mem_trimOws hc with ho | hd
      · exact isPlain_of_isOws ho
      · exact isPlain_of_hexValue (h.digits_hex c hd)
    · exact he c hc

namespace RequestParser

variable {p p' : RequestParser}

/-- The chunk-size line a unit consists of, if it is one, has no control byte in its
extensions. -/
def PlainExtensions (p : RequestParser) (u : Bytes) : Prop :=
  p.state = .chunkSize → ∀ line, u = line ++ kCRLF → ∀ c ∈ chunkExtensions line, isPlain c = true

theorem Reads.clean_iff (h : p.Reads u p') (hc : p.inContent = false) :
    Clean u ↔ p.PlainExtensions u := by
  have ofNot : p.state ≠ .chunkSize → Clean u → (Clean u ↔ p.PlainExtensions u) :=
    fun hs hu => ⟨fun _ hs' => absurd hs' hs, fun _ => hu⟩
  cases h with
  | blank hs => exact ofNot (by simp [hs]) clean_kCRLF
  | requestLine hs _ _ _ hq =>
    obtain ⟨r, rfl, _⟩ := parseRequestLine_ok_iff.mp hq
    exact ofNot (by simp [hs]) (clean_line_of_plain fun c hc => r.isPlain hc)
  | field hs _ _ _ _ hq =>
    obtain ⟨_, _, hsplit, _⟩ := parseFieldLine_ok hq
    obtain ⟨f, rfl, _⟩ := splitFieldLine_eq_ok_iff.mp hsplit
    exact ofNot (by rcases hs with hs | hs <;> simp [hs])
      (clean_line_of_plain fun c hc => f.isPlain hc)
  | finish hs _ _ => exact ofNot (by simp [hs]) clean_kCRLF
  | trailersEnd hs _ => exact ofNot (by simp [hs]) clean_kCRLF
  | data hs _ _ => rcases hs with hs | hs <;> simp [inContent, hs] at hc
  | dataEnd hs => exact ofNot (by simp [hs]) clean_kCRLF
  | @chunkSize line q hs hl _ hq =>
    obtain ⟨size, hsize, _⟩ := parseChunkSize_ok hq
    have hline := chunkSizeOf_eq_some_iff.mp hsize
    rw [clean_line_iff hl, hline.isPlain_iff]
    constructor
    · intro h _ line' e
      cases List.append_cancel_right e
      exact h
    · exact fun h => h hs line rfl

theorem reads_of_mem_unitsReads {buf : Bytes} {reads : List Bytes} {t : RequestParser}
    (h : (t, u) ∈ machine.unitsReads p buf reads) : ∃ t', t.Reads u t' := by
  obtain ⟨t', rest, hstep⟩ := Machine.step_of_mem_unitsReads h
  obtain ⟨u', rest', he, hlen, hu⟩ := feedStep_more hstep
  obtain ⟨rfl, -⟩ := List.append_inj he hlen.symm
  exact ⟨t', hu⟩

theorem unitsReads_flatten_of_done {reads : List Bytes}
    (h : (machine.feedReads p [] reads).1.done = true) :
    ((machine.unitsReads p [] reads).map Prod.snd).flatten =
      reads.flatten.take (machine.feedReads p [] reads).2 := by
  have hQ : (machine.feedReads p [] reads).1.failed = false := by
    simp only [done, beq_iff_eq] at h
    simp [failed, h]
  refine (Machine.unitsReads_flatten (Q := fun q => q.failed = false) ?_ ?_ hQ).2
  · intro t d s' n hs hf
    rcases feedStep_stop hs with ⟨-, rfl, -⟩ | hfail
    · rfl
    · simp [failed, hfail.state] at hf
  · intro s d hf
    by_contra hs
    have hs : s.failed = true := by simpa using hs
    rw [machine.feed_stop (feedStep_ended (.inr (by simpa [failed] using hs)))] at hf
    cases hs.symm.trans hf

/-- The bytes of a finished request are those of its units, and the units other than
body bytes are clean if and only if no chunk extension holds a CR, an LF or a NUL. -/
theorem framing_clean_iff {l : ParserLimits} {reads : List Bytes}
    (hdone : (machine.feedReads { limits := l } [] reads).1.done = true) :
    ((machine.unitsReads { limits := l } [] reads).map Prod.snd).flatten =
        reads.flatten.take (machine.feedReads { limits := l } [] reads).2 ∧
      ((∀ e ∈ machine.unitsReads { limits := l } [] reads, e.1.inContent = false → Clean e.2) ↔
        ∀ e ∈ machine.unitsReads { limits := l } [] reads, e.1.PlainExtensions e.2) := by
  refine ⟨unitsReads_flatten_of_done hdone, forall₂_congr fun e he => ?_⟩
  obtain ⟨t', ht⟩ := reads_of_mem_unitsReads he
  constructor
  · intro h hs
    exact (ht.clean_iff (by simp [inContent, hs])).mp (h (by simp [inContent, hs])) hs
  · exact fun h hc => (ht.clean_iff hc).mpr h

def chunkedPost (body : String) : List Bytes :=
  [text "POST / HTTP/1.1\r\nHost: x\r\nTransfer-Encoding: chunked\r\n\r\n", text body]

theorem framing_clean_iff_quoted :
    (∀ e ∈ machine.unitsReads {} [] (chunkedPost "3;a=b\r\n\r\n\x00\r\n0\r\n\r\n"),
      e.1.inContent = false → Clean e.2) ↔
    ∀ e ∈ machine.unitsReads {} [] (chunkedPost "3;a=b\r\n\r\n\x00\r\n0\r\n\r\n"),
      e.1.PlainExtensions e.2 :=
  (framing_clean_iff (l := {}) (by decide +kernel)).2

/-- A lone LF in a chunk extension is accepted. -/
theorem framing_not_clean_extension :
    (machine.feedReads {} [] (chunkedPost "1;\n\r\nA\r\n0\r\n\r\n")).1.done = true ∧
      ¬ ∀ e ∈ machine.unitsReads {} [] (chunkedPost "1;\n\r\nA\r\n0\r\n\r\n"),
        e.1.inContent = false → Clean e.2 := by
  refine ⟨by decide +kernel, fun h => ?_⟩
  have hunit : ((machine.unitsReads {} [] (chunkedPost "1;\n\r\nA\r\n0\r\n\r\n")).any fun e =>
      !e.1.inContent && e.2 == text "1;\n\r\n") = true := by decide +kernel
  obtain ⟨e, he, hc⟩ := List.any_eq_true.mp hunit
  simp only [Bool.and_eq_true, Bool.not_eq_true', beq_iff_eq] at hc
  have hclean := h e he hc.1
  rw [hc.2] at hclean
  exact absurd (hclean.lf (a := text "1;") (b := kCRLF) rfl) (by decide)

end RequestParser

end Httpd
