import Httpd.Parser.ListFields
import Httpd.Parser.RoundTrip

/-! # Response heads

The head of a response is a status line and field lines. Whatever fields a handler has set,
the fields that frame the body are those of the writer, each line is the field it stands for,
and the first empty line is the end of the head.
-/

namespace Httpd

variable {σ : Type}

def responseHead (status : ℕ) (fields : List Field) : Bytes :=
  statusLine status ++ (fields.map fieldLine).flatten ++ kCRLF

/-- The field has a say in where the body ends. -/
def delimits (f : Field) : Bool :=
  iequals f.1 (text "Content-Length") || iequals f.1 (text "Transfer-Encoding")

def framingFields : Framing × ℕ → List Field
  | (.contentLength, n) => [(text "Content-Length", appendNumber 10 n)]
  | (.chunked, _) => [(text "Transfer-Encoding", text "chunked")]
  | _ => []

def connectionFields (keepAlive http10Client : Bool) : List Field :=
  if !keepAlive then [(text "Connection", text "close")]
  else if http10Client then [(text "Connection", text "keep-alive")]
  else []

def headFields (res : Response σ) (opts : HeadOptions) : List Field :=
  res.headers.fields.filter (fun f => !isFramingHeader f.1) ++
    (if res.headers.has (text "Server") then [] else [(text "Server", text "httpd-cpp")]) ++
    (if opts.date.isEmpty then [] else [(text "Date", opts.date)]) ++
    framingFields (framingOf res opts) ++
    connectionFields (opts.keepAlive && (framingOf res opts).1 != .closeDelimited)
      opts.http10Client

theorem framingLine_eq (f : Framing × ℕ) :
    framingLine f = ((framingFields f).map fieldLine).flatten := by
  obtain ⟨f, n⟩ := f
  cases f with
  | contentLength =>
    have h : text "Content-Length: " = text "Content-Length" ++ text ": " := by decide
    simp [framingLine, framingFields, fieldLine, h]
  | chunked => simp only [framingLine, framingFields]; decide
  | none => rfl
  | closeDelimited => rfl

theorem connectionLine_eq (keepAlive http10Client : Bool) :
    connectionLine keepAlive http10Client =
      ((connectionFields keepAlive http10Client).map fieldLine).flatten := by
  cases keepAlive <;> cases http10Client <;> decide

theorem headText_eq (res : Response σ) (opts : HeadOptions) :
    headText res opts = responseHead res.status (headFields res opts) := by
  have hserver : text "Server: httpd-cpp\r\n" =
      fieldLine (text "Server", text "httpd-cpp") := by decide
  have hdate : text "Date: " = text "Date" ++ text ": " := by decide
  unfold headText responseHead headFields
  dsimp only
  rw [framingLine_eq, connectionLine_eq]
  simp only [List.map_append, List.flatten_append, List.append_assoc]
  cases res.headers.has (text "Server") <;> cases opts.date.isEmpty <;>
    simp [hserver, hdate, fieldLine]

theorem headFields_clean {res : Response σ} {opts : HeadOptions} (hres : res.headers.Clean)
    (hdate : ∀ c ∈ opts.date, isCtl c = false) : ∀ f ∈ headFields res opts, Field.Clean f := by
  intro f hf
  have hserver : Field.Clean (text "Server", text "httpd-cpp") := .of_all rfl rfl
  have hchunked : Field.Clean (text "Transfer-Encoding", text "chunked") := .of_all rfl rfl
  have hclose : Field.Clean (text "Connection", text "close") := .of_all rfl rfl
  have hkeep : Field.Clean (text "Connection", text "keep-alive") := .of_all rfl rfl
  simp only [headFields, List.mem_append, or_assoc] at hf
  rcases hf with hf | hf | hf | hf | hf
  · exact hres f (List.mem_of_mem_filter hf)
  · split at hf
    · cases hf
    · obtain rfl := List.mem_singleton.mp hf
      exact hserver
  · split at hf
    · cases hf
    · obtain rfl := List.mem_singleton.mp hf
      exact ⟨show isToken (text "Date") = true by decide, hdate⟩
  · unfold framingFields at hf
    split at hf
    · obtain rfl := List.mem_singleton.mp hf
      refine ⟨show isToken (text "Content-Length") = true by decide, fun c hc => ?_⟩
      obtain ⟨d, hd, rfl⟩ := mem_appendNumber (by decide) hc
      exact isCtl_digitByte d (by omega)
    · obtain rfl := List.mem_singleton.mp hf
      exact hchunked
    · cases hf
  · unfold connectionFields at hf
    split at hf
    · obtain rfl := List.mem_singleton.mp hf
      exact hclose
    · split at hf
      · obtain rfl := List.mem_singleton.mp hf
        exact hkeep
      · cases hf

theorem filter_handlerFields {p : Field → Bool} (hp : ∀ f, p f = true → isFramingHeader f.1 = true)
    (h : Headers) : (h.fields.filter fun f => !isFramingHeader f.1).filter p = [] := by
  rw [List.filter_filter, List.filter_eq_nil_iff]
  intro f _ hf
  simp only [Bool.and_eq_true, Bool.not_eq_true'] at hf
  cases (hp f hf.1).symm.trans hf.2

/-- The head says nothing about the end of the body but what the framing says. -/
theorem filter_delimits_headFields (res : Response σ) (opts : HeadOptions) :
    (headFields res opts).filter delimits = framingFields (framingOf res opts) := by
  have hhandler : (res.headers.fields.filter fun f => !isFramingHeader f.1).filter delimits = [] :=
    filter_handlerFields (fun f hf => by simp_all [delimits, isFramingHeader]) res.headers
  have hserver : delimits (text "Server", text "httpd-cpp") = false := by decide
  have hdate : delimits (text "Date", opts.date) = false := by
    simp only [delimits]
    decide
  have hconn : (connectionFields (opts.keepAlive && (framingOf res opts).1 != .closeDelimited)
      opts.http10Client).filter delimits = [] := by
    unfold connectionFields
    cases opts.keepAlive && (framingOf res opts).1 != .closeDelimited <;>
      cases opts.http10Client <;> decide
  have hframing : (framingFields (framingOf res opts)).filter delimits =
      framingFields (framingOf res opts) := by
    generalize framingOf res opts = f
    obtain ⟨f, n⟩ := f
    have hlen : delimits (text "Content-Length", appendNumber 10 n) = true := by
      simp only [delimits]
      decide
    cases f with
    | contentLength => simp [framingFields, hlen]
    | chunked => simp only [framingFields]; decide
    | none => rfl
    | closeDelimited => rfl
  unfold headFields
  simp only [List.filter_append, hhandler, hframing, hconn]
  cases res.headers.has (text "Server") <;> cases opts.date.isEmpty <;> simp [hserver, hdate]

def fieldText (f : Field) : Bytes := f.1 ++ text ": " ++ f.2

def statusText (status : ℕ) : Bytes :=
  text "HTTP/1.1 " ++ appendNumber 10 status ++ [SP] ++ text (reasonPhrase status)

theorem responseHead_eq (status : ℕ) (fields : List Field) : responseHead status fields =
    ((statusText status :: fields.map fieldText).map (· ++ kCRLF)).flatten ++ kCRLF := by
  have hline : fieldLine = fun f => fieldText f ++ kCRLF := rfl
  simp [responseHead, statusLine, statusText, hline, Function.comp_def]

theorem plain_reasonPhrase (status : ℕ) : (text (reasonPhrase status)).all isPlain = true := by
  unfold reasonPhrase
  split <;> rfl

theorem plain_statusText (status : ℕ) : ∀ c ∈ statusText status, isPlain c = true := by
  intro c hc
  have hfixed : ∀ c ∈ text "HTTP/1.1 " ++ [SP], isPlain c = true := List.all_eq_true.mp rfl
  simp only [statusText, List.mem_append, or_assoc] at hc
  rcases hc with hc | hc | hc | hc
  · exact hfixed c (List.mem_append_left _ hc)
  · obtain ⟨d, hd, rfl⟩ := mem_appendNumber (by decide) hc
    exact (digitByte_plain d (by omega)).1
  · exact hfixed c (List.mem_append_right _ hc)
  · exact List.all_eq_true.mp (plain_reasonPhrase status) c hc

theorem Field.Clean.plain {f : Field} (h : Field.Clean f) :
    ∀ c ∈ fieldText f, isPlain c = true := by
  intro c hc
  have hfixed : ∀ c ∈ text ": ", isPlain c = true := List.all_eq_true.mp rfl
  simp only [fieldText, List.mem_append, or_assoc] at hc
  rcases hc with hc | hc | hc
  · exact isPlain_of_isToken h.1 hc
  · exact hfixed c hc
  · exact isPlain_of_isCtl (h.2 c hc)

theorem crlf_crlf_cons_iff {l : Bytes} (hl : ∀ c ∈ l, isPlain c = true) (r : Bytes) (i : ℕ) :
    kCRLF ++ kCRLF <+: (l ++ (kCRLF ++ r)).drop i ↔
      (i = l.length ∧ kCRLF <+: r) ∨ ∃ j, i = l.length + 2 + j ∧ kCRLF ++ kCRLF <+: r.drop j := by
  have hcr {c : UInt8} {t : Bytes} (hc : c ≠ CR) : ¬ kCRLF ++ kCRLF <+: c :: t :=
    fun h => hc (List.cons_prefix_cons.mp h).1.symm
  rcases Nat.lt_trichotomy i l.length with hlt | rfl | hgt
  · have hc := (isPlain_iff.mp (hl _ (List.getElem_mem hlt))).1
    rw [List.drop_append_of_le_length hlt.le, List.drop_eq_getElem_cons hlt, List.cons_append]
    refine iff_of_false (hcr hc) ?_
    rintro (⟨rfl, -⟩ | ⟨j, rfl, -⟩) <;> omega
  · rw [List.drop_left, List.prefix_append_right_inj]
    constructor
    · exact fun h => .inl ⟨rfl, h⟩
    · rintro (⟨-, h⟩ | ⟨j, hj, -⟩)
      · exact h
      · omega
  · obtain ⟨j, rfl⟩ := Nat.exists_eq_add_of_lt hgt
    rw [Nat.add_assoc, List.drop_length_add_append]
    cases j with
    | zero =>
      refine iff_of_false (hcr (c := LF) (by decide)) ?_
      rintro (⟨h, -⟩ | ⟨j, h, -⟩) <;> omega
    | succ j =>
      have hdrop : (kCRLF ++ r).drop (j + 1 + 1) = r.drop j := rfl
      rw [hdrop]
      constructor
      · exact fun h => .inr ⟨j, by omega, h⟩
      · rintro (⟨h, -⟩ | ⟨j', h', h⟩)
        · omega
        · obtain rfl : j' = j := by omega
          exact h

/-- Only the last of some non-empty lines is followed by an empty one. -/
theorem crlf_crlf_iff {ls : List Bytes} (hne : ls ≠ [])
    (hls : ∀ l ∈ ls, l ≠ [] ∧ ∀ c ∈ l, isPlain c = true) (i : ℕ) :
    kCRLF ++ kCRLF <+: ((ls.map (· ++ kCRLF)).flatten ++ kCRLF).drop i ↔
      i + 4 = ((ls.map (· ++ kCRLF)).flatten ++ kCRLF).length := by
  induction ls generalizing i with
  | nil => exact absurd rfl hne
  | cons l ls ih =>
    have hrest : ∀ l ∈ ls, l ≠ [] ∧ ∀ c ∈ l, isPlain c = true :=
      fun l hl => hls l (List.mem_cons_of_mem _ hl)
    rw [List.map_cons, List.flatten_cons, List.append_assoc, List.append_assoc,
      crlf_crlf_cons_iff (hls l List.mem_cons_self).2]
    cases ls with
    | nil =>
      have hshort (j : ℕ) : ¬ kCRLF ++ kCRLF <+: kCRLF.drop j := fun h => by
        have hle := h.length_le
        simp at hle
        omega
      simp [hshort]
    | cons b ls =>
      -- a non-empty line does not begin with the end of a line
      have hb : ¬ kCRLF <+: (((b :: ls).map (· ++ kCRLF)).flatten ++ kCRLF) := by
        obtain ⟨hbne, hbplain⟩ := hrest b List.mem_cons_self
        obtain ⟨c, b, rfl⟩ := List.exists_cons_of_ne_nil hbne
        exact fun h => (isPlain_iff.mp (hbplain c List.mem_cons_self)).1
          (List.cons_prefix_cons.mp h).1.symm
      simp only [hb, and_false, false_or, ih (by simp) hrest, List.length_append, length_kCRLF]
      constructor
      · rintro ⟨j, rfl, hj⟩
        omega
      · intro h
        refine ⟨i - (l.length + 2), ?_, ?_⟩
        · simp at h
          omega
        · simp at h ⊢
          omega

theorem mem_updateFirst {name : Bytes} {g : Bytes → Bytes} {f : Field} {fs : List Field}
    (h : f ∈ updateFirst name g fs) : f ∈ fs ∨ ∃ f' ∈ fs, f = (f'.1, g f'.2) := by
  induction fs with
  | nil => cases h
  | cons f' fs ih =>
    unfold updateFirst at h
    split at h
    · rcases List.mem_cons.mp h with rfl | h
      · exact .inr ⟨f', List.mem_cons_self, rfl⟩
      · exact .inl (List.mem_cons_of_mem _ h)
    · rcases List.mem_cons.mp h with rfl | h
      · exact .inl List.mem_cons_self
      · rcases ih h with h | ⟨f'', hf'', rfl⟩
        · exact .inl (List.mem_cons_of_mem _ h)
        · exact .inr ⟨f'', List.mem_cons_of_mem _ hf'', rfl⟩

theorem Headers.Clean.upsert {h : Headers} {name value : Bytes} {g : Bytes → Bytes} (hh : h.Clean)
    (hname : isToken name = true) (hvalue : ∀ c ∈ value, isCtl c = false)
    (hg : ∀ v : Bytes, (∀ c ∈ v, isCtl c = false) → ∀ c ∈ g v, isCtl c = false) :
    (h.upsert name g value).Clean := by
  intro f hf
  cases hhas : h.has name with
  | true =>
    rw [upsert_fields_of_has hhas] at hf
    rcases mem_updateFirst hf with hf | ⟨f', hf', rfl⟩
    · exact hh f hf
    · exact ⟨(hh f' hf').1, hg _ (hh f' hf').2⟩
  | false =>
    rw [upsert_fields_of_not_has hhas] at hf
    rcases List.mem_append.mp hf with hf | hf
    · exact hh f hf
    · obtain rfl := List.mem_singleton.mp hf
      exact ⟨hname, hvalue⟩

theorem Headers.Clean.set {h : Headers} {name value : Bytes} (hh : h.Clean)
    (hname : isToken name = true) (hvalue : ∀ c ∈ value, isCtl c = false) :
    (h.set name value).Clean :=
  hh.upsert hname hvalue fun _ _ => hvalue

theorem Headers.Clean.add {h : Headers} {name value : Bytes} (hh : h.Clean)
    (hname : isToken name = true) (hvalue : ∀ c ∈ value, isCtl c = false) :
    (h.add name value).Clean := by
  refine hh.upsert hname hvalue fun v hv c hc => ?_
  have hfixed : ∀ c ∈ text ", ", isCtl c = false := by decide +kernel
  simp only [List.mem_append, or_assoc] at hc
  rcases hc with hc | hc | hc
  · exact hv c hc
  · exact hfixed c hc
  · exact hvalue c hc

theorem Headers.Clean.foldFields {h : Headers} (hh : h.Clean) (fs : List FieldLine) :
    (foldFields h fs).Clean := by
  induction fs generalizing h with
  | nil => exact hh
  | cons f fs ih => exact ih (hh.add f.name_token fun c hc => f.raw_clean c (mem_of_mem_trimOws hc))

theorem Headers.Clean.get {h : Headers} {name value : Bytes} (hh : h.Clean)
    (hv : h.get name = some value) : ∀ c ∈ value, isCtl c = false := by
  obtain ⟨f, hf, rfl⟩ := Option.map_eq_some_iff.mp hv
  exact (hh f (List.mem_of_find?_eq_some hf)).2

/-- The fields of a request that has been parsed can be sent. -/
theorem RequestParser.Finishes.clean {l : ParserLimits} {x : Bytes} {R : Request} {k : ℕ}
    (hR : Finishes l x R k) : R.headers.Clean := by
  obtain ⟨h, hx⟩ := hR.exists_head
  have hempty : Headers.empty.Clean := fun f hf => by cases hf
  rw [(hR.keepsHead hx).1]
  exact hempty.foldFields h.fields

def Response.length (res : Response σ) : ℕ :=
  if res.file.isSome then res.fileLength
  else if res.producer.isSome then res.streamLength.getD 0
  else res.body.length

/-- The fields that announce a framing, for a body of some length. -/
def Framing.Announces (n : ℕ) (fields : List Field) : Framing → Prop
  | .contentLength => ∃ v, fields = [(text "Content-Length", v)] ∧ v ≠ [] ∧
      (∀ c ∈ v, isDigit c = true) ∧ (v.head? = some (ch '0') → v = [ch '0']) ∧ decNumber v = n
  | .chunked => fields = [(text "Transfer-Encoding", text "chunked")]
  | .none => fields = []
  | .closeDelimited => fields = []

theorem framingOf_length {res : Response σ} {opts : HeadOptions}
    (h : (framingOf res opts).1 = .contentLength) : (framingOf res opts).2 = res.length := by
  unfold framingOf at h ⊢
  unfold Response.length
  split at h
  · cases h
  · next hs =>
    rw [if_neg hs]
    split at h
    · next hf => simp [hf]
    · next hf =>
      rw [if_neg hf]
      split at h
      · next hp =>
        cases hlen : res.streamLength with
        | some n => simp [hp, hf]
        | none =>
          rw [hlen] at h
          cases hc : opts.http10Client <;> simp [hc] at h
      · next hp => simp [hp, hf]

theorem announces_framingFields (res : Response σ) (opts : HeadOptions) :
    (framingOf res opts).1.Announces res.length (framingFields (framingOf res opts)) := by
  have hlen : (framingOf res opts).1 = .contentLength → (framingOf res opts).2 = res.length :=
    framingOf_length
  generalize framingOf res opts = f at hlen ⊢
  obtain ⟨f, n⟩ := f
  cases f with
  | contentLength =>
    obtain rfl := hlen rfl
    refine ⟨_, rfl, appendNumber_ne_nil _ _, fun c hc => ?_, appendNumber_of_head,
      decNumber_appendNumber _⟩
    obtain ⟨d, hd, rfl⟩ := mem_appendNumber (by decide) hc
    exact (digit_digitByte d hd).1
  | chunked => rfl
  | none => rfl
  | closeDelimited => rfl

theorem filter_connection_headFields (res : Response σ) (opts : HeadOptions) :
    (headFields res opts).filter (fun f => iequals f.1 (text "Connection")) =
      connectionFields (opts.keepAlive && (framingOf res opts).1 != .closeDelimited)
        opts.http10Client := by
  have hhandler := filter_handlerFields (p := fun f => iequals f.1 (text "Connection"))
    (fun f hf => by simp_all [isFramingHeader]) res.headers
  have hserver : iequals (text "Server") (text "Connection") = false := by decide
  have hdate : iequals (text "Date") (text "Connection") = false := by decide
  have hlength : iequals (text "Content-Length") (text "Connection") = false := by decide
  have hcoding : iequals (text "Transfer-Encoding") (text "Connection") = false := by decide
  have hframing (f : Framing × ℕ) :
      (framingFields f).filter (fun f => iequals f.1 (text "Connection")) = [] := by
    obtain ⟨f, n⟩ := f
    cases f <;> simp [framingFields, hlength, hcoding]
  have hself (keepAlive http10Client : Bool) :
      (connectionFields keepAlive http10Client).filter
        (fun f => iequals f.1 (text "Connection")) = connectionFields keepAlive http10Client := by
    cases keepAlive <;> cases http10Client <;> simp [connectionFields]
  unfold headFields
  simp only [List.filter_append, hhandler, hframing, hself]
  cases res.headers.has (text "Server") <;> cases opts.date.isEmpty <;> simp [hserver, hdate]

theorem length_connectionFields_le (keepAlive http10Client : Bool) :
    (connectionFields keepAlive http10Client).length ≤ 1 := by
  cases keepAlive <;> cases http10Client <;> decide

/-- The head of a response cannot be split or misframed by the fields of a handler, and the
fields of a request can be copied into it. -/
theorem response_head_exact {res : Response σ} {opts : HeadOptions} (hres : res.headers.Clean)
    (hdate : ∀ c ∈ opts.date, isCtl c = false) (out : Bytes) :
    (∃ head announced connection, (writeHead out res opts).1 = out ++ head ∧
      (∀ i, kCRLF ++ kCRLF <+: head.drop i ↔ i + 4 = head.length) ∧
      let fields := res.headers.fields.filter (fun f => !isFramingHeader f.1) ++
        (if res.headers.has (text "Server") then [] else [(text "Server", text "httpd-cpp")]) ++
        (if opts.date.isEmpty then [] else [(text "Date", opts.date)]) ++ announced ++ connection
      Search.pieces kCRLF head =
          statusText res.status :: fields.map (fun f => f.1 ++ text ": " ++ f.2) ++ [[], []] ∧
        fields.filter delimits = announced ∧
        fields.filter (fun f => iequals f.1 (text "Connection")) = connection ∧
        (writeHead out res opts).2.Announces res.length announced ∧ connection.length ≤ 1) ∧
    ∀ {l x R k}, RequestParser.Finishes l x R k → ∀ name value, R.headers.get name = some value →
      ∀ h : Headers, h.Clean → (h.set (text "Content-Type") value).Clean := by
  constructor
  · have hclean := headFields_clean hres hdate
    have hlines : ∀ l ∈ statusText res.status :: (headFields res opts).map fieldText,
        l ≠ [] ∧ ∀ c ∈ l, isPlain c = true := by
      intro l hl
      rcases List.mem_cons.mp hl with rfl | hl
      · exact ⟨by simp [statusText], plain_statusText _⟩
      · obtain ⟨f, hf, rfl⟩ := List.mem_map.mp hl
        exact ⟨by simp [fieldText, text], (hclean f hf).plain⟩
    refine ⟨headText res opts, _, _, rfl, ?_, ?_, filter_delimits_headFields res opts,
      filter_connection_headFields res opts, announces_framingFields res opts,
      length_connectionFields_le _ _⟩
    · rw [headText_eq, responseHead_eq]
      exact crlf_crlf_iff (by simp) hlines
    · have hempty : Search.pieces kCRLF kCRLF = [[], []] := by
        have hend := Search.pieces_append_pat (t := []) unbordered_kCRLF kCRLF_ne_nil crlfFree_nil
        rw [Search.pieces_of_not_infix crlfFree_nil] at hend
        simpa using hend
      rw [headText_eq, responseHead_eq, Search.pieces_flatten unbordered_kCRLF kCRLF_ne_nil
        fun l hl => crlfFree_of_plain (hlines l hl).2, hempty]
      rfl
  · intro l x R k hR name value hv h hh
    exact hh.set (by decide) (hR.clean.get hv)

/-- A response whose handler has set the framing itself, in letter cases of its own. -/
def misframedResponse : Response Unit where
  headers := ⟨[(text "CONTENT-LENGTH", text "70"), (text "X-Tag", text "a\tb"),
    (text "transfer-encoding", text "chunked"), (text "Connection", text "close"),
    (text "date", text "today")], by decide⟩
  body := text "hello"

theorem response_head_exact_misframed :
    let head := (writeHead [] misframedResponse ⟨true, false, text "now"⟩).1
    head = text "HTTP/1.1 200 OK\r\nX-Tag: a\tb\r\nServer: httpd-cpp\r\nDate: now\r\n" ++
        text "Content-Length: 5\r\n\r\n" ∧
      ∀ i, kCRLF ++ kCRLF <+: head.drop i ↔ i + 4 = head.length := by
  refine ⟨by decide +kernel, ?_⟩
  obtain ⟨⟨head, _, _, hout, hend, -⟩, -⟩ := @response_head_exact Unit misframedResponse
    ⟨true, false, text "now"⟩ (.of_all rfl) (by decide +kernel) []
  rw [List.nil_append] at hout
  rwa [hout]

end Httpd
