import Httpd.Parser.Control

/-! # The grammar of request heads

A head is a number of empty lines, a request line, field lines and an empty line,
within the limits and with one of the three ways to frame a body. A fresh parser
completes the header section on exactly the streams that start with a head whose body
fits in a string, and the head determines the parser it leaves. On a head whose body
does not fit it throws.
-/

namespace Httpd

open Incremental

variable {l : ParserLimits} {line d : Bytes} {k : ℕ}

theorem crlfFree_of_plain (h : ∀ c ∈ line, isPlain c = true) : CrlfFree line := by
  intro hin
  have hcr := h CR (hin.subset (by decide))
  exact absurd hcr (by decide)

theorem RequestLine.crlfFree (r : RequestLine) : CrlfFree r.line :=
  crlfFree_of_plain fun _ => r.isPlain

theorem RequestLine.line_ne_nil (r : RequestLine) : r.line ≠ [] := by
  simp [RequestLine.line]

theorem FieldLine.crlfFree (f : FieldLine) : CrlfFree f.line :=
  crlfFree_of_plain fun _ => f.isPlain

theorem FieldLine.line_ne_nil (f : FieldLine) : f.line ≠ [] := by
  simp [FieldLine.line]

def FieldLine.isHost (f : FieldLine) : Bool := iequals f.name (text "Host")

/-- The lines of a section, without the empty line that ends it. -/
def fieldBytes (fs : List FieldLine) : Bytes := (fs.map fun f => f.line ++ kCRLF).flatten

@[simp] theorem fieldBytes_nil : fieldBytes [] = [] := rfl

@[simp] theorem fieldBytes_cons (f : FieldLine) (fs : List FieldLine) :
    fieldBytes (f :: fs) = f.line ++ (kCRLF ++ fieldBytes fs) := by
  simp [fieldBytes]

def foldFields (h : Headers) (fs : List FieldLine) : Headers :=
  fs.foldl (fun h f => h.add f.name f.value) h

namespace RequestParser

variable {p q r : RequestParser} {f : FieldLine} {fs : List FieldLine} {u : Bytes}

def addField (p : RequestParser) (f : FieldLine) : RequestParser :=
  let p' := (p.countLine f.line).countField
  if p.state = .headers then
    { p' with req := { p'.req with headers := p'.req.headers.add f.name f.value } }
  else { p' with req := { p'.req with trailers := p'.req.trailers.add f.name f.value } }

def addFields (p : RequestParser) (fs : List FieldLine) : RequestParser := fs.foldl addField p

@[simp] theorem addFields_nil : p.addFields [] = p := rfl
@[simp] theorem addFields_cons : p.addFields (f :: fs) = (p.addField f).addFields fs := rfl

@[simp] theorem addField_state : (p.addField f).state = p.state := by
  unfold addField; dsimp only; split <;> rfl

@[simp] theorem addField_limits : (p.addField f).limits = p.limits := by
  unfold addField; dsimp only; split <;> rfl

@[simp] theorem addField_headerBytes :
    (p.addField f).headerBytes = p.headerBytes + (f.line.length + 2) := by
  unfold addField; dsimp only; split <;> rfl

@[simp] theorem addField_headerCount : (p.addField f).headerCount = p.headerCount + 1 := by
  unfold addField; dsimp only; split <;> rfl

theorem addFields_eq (p : RequestParser) (fs : List FieldLine) :
    p.addFields fs = { p with
      headerBytes := p.headerBytes + (fieldBytes fs).length
      headerCount := p.headerCount + fs.length
      req := if p.state = .headers then { p.req with headers := foldFields p.req.headers fs }
        else { p.req with trailers := foldFields p.req.trailers fs } } := by
  induction fs generalizing p with
  | nil => simp [foldFields]
  | cons f fs ih =>
    have hbytes : p.headerBytes + (f.line.length + 2) + (fieldBytes fs).length =
        p.headerBytes + (fieldBytes (f :: fs)).length := by
      rw [fieldBytes_cons, List.length_append, List.length_append, length_kCRLF]
      omega
    have hcount : p.headerCount + 1 + fs.length = p.headerCount + (f :: fs).length := by
      rw [List.length_cons]
      omega
    rw [addFields_cons, ih, addField_state, addField_headerBytes, addField_headerCount, hbytes,
      hcount]
    by_cases hs : p.state = .headers
    · simp only [addField, if_pos hs]
      rfl
    · simp only [addField, if_neg hs]
      rfl

theorem addFields_of_headers (hs : p.state = .headers) :
    p.addFields fs = { p with
      headerBytes := p.headerBytes + (fieldBytes fs).length
      headerCount := p.headerCount + fs.length
      req := { p.req with headers := foldFields p.req.headers fs } } := by
  rw [addFields_eq, if_pos hs]

theorem addFields_of_trailers (hs : p.state = .trailers) :
    p.addFields fs = { p with
      headerBytes := p.headerBytes + (fieldBytes fs).length
      headerCount := p.headerCount + fs.length
      req := { p.req with trailers := foldFields p.req.trailers fs } } := by
  rw [addFields_eq, if_neg (by simp [hs])]

/-- At most one `Host` line is allowed in the header section. -/
def HostOnce (p : RequestParser) (fs : List FieldLine) : Prop :=
  p.state = .headers →
    (if p.req.headers.has (text "Host") then 1 else 0) + fs.countP FieldLine.isHost ≤ 1

def EndsSection (p q : RequestParser) : Prop :=
  (p.state = .headers ∧ (p.countLine []).finishHeaders = .ok q) ∨
    (p.state = .trailers ∧ q = { p.countLine [] with state := .done })

theorem parseFieldLine_eq_ok_iff :
    (p.countLine line).countField.parseFieldLine line (p.state == .headers) = .ok q ↔
      ∃ f : FieldLine, f.line = line ∧ q = p.addField f ∧
        (p.state = .headers → (f.isHost && p.req.headers.has (text "Host")) = false) := by
  constructor
  · intro h
    obtain ⟨name, value, hsplit, hq⟩ := parseFieldLine_ok h
    obtain ⟨f, rfl, rfl, rfl⟩ := splitFieldLine_eq_ok_iff.mp hsplit
    refine ⟨f, rfl, ?_⟩
    rcases hq with ⟨hs, hhost, rfl⟩ | ⟨hs, rfl⟩
    · have hs' : p.state = .headers := by simpa using hs
      exact ⟨by simp [addField, hs'], fun _ => hhost⟩
    · have hs' : p.state ≠ .headers := by simpa using hs
      exact ⟨by simp [addField, hs'], fun h => absurd h hs'⟩
  · rintro ⟨f, rfl, rfl, hhost⟩
    have hsplit := splitFieldLine_eq_ok_iff.mpr ⟨f, rfl, rfl, rfl⟩
    by_cases hs : p.state = .headers
    · have hh := hhost hs
      rw [FieldLine.isHost] at hh
      simp [parseFieldLine, hsplit, hs, hh, addField]
    · simp [parseFieldLine, hsplit, hs, addField]

theorem hostOnce_cons : p.HostOnce (f :: fs) ↔
    (p.state = .headers → (f.isHost && p.req.headers.has (text "Host")) = false) ∧
      (p.addField f).HostOnce fs := by
  unfold HostOnce
  rw [addField_state, ← forall_and]
  refine forall_congr' fun hs => ?_
  have hhas : (p.addField f).req.headers.has (text "Host") =
      (p.req.headers.has (text "Host") || f.isHost) := by
    simp [addField, hs, Headers.has_add, FieldLine.isHost]
  rw [hhas, List.countP_cons]
  cases p.req.headers.has (text "Host") <;> cases f.isHost <;> simp

theorem hostOnce_nil : p.HostOnce [] := by
  intro _
  simp only [List.countP_nil]
  split <;> omega

theorem reads_section_iff (hs : p.state = .headers ∨ p.state = .trailers) :
    p.Reads u q ↔
      (∃ f : FieldLine, u = f.line ++ kCRLF ∧ q = p.addField f ∧
        p.headerBytes + (f.line.length + 2) ≤ p.limits.maxHeaderBytes ∧
        p.headerCount + 1 ≤ p.limits.maxHeaderCount ∧
        (p.state = .headers → (f.isHost && p.req.headers.has (text "Host")) = false)) ∨
      (u = kCRLF ∧ p.headerBytes + 2 ≤ p.limits.maxHeaderBytes ∧ p.EndsSection q) := by
  constructor
  · intro h
    cases h with
    | field _ _ _ hbytes hcount hq =>
      obtain ⟨f, rfl, rfl, hhost⟩ := parseFieldLine_eq_ok_iff.mp hq
      exact .inl ⟨f, rfl, rfl, hbytes, hcount, hhost⟩
    | finish h hbytes hq => exact .inr ⟨rfl, hbytes, .inl ⟨h, hq⟩⟩
    | trailersEnd h hbytes => exact .inr ⟨rfl, hbytes, .inr ⟨h, rfl⟩⟩
    | data h => rcases h with h | h <;> simp [h] at hs
    | _ => simp_all
  · rintro (⟨f, rfl, rfl, hbytes, hcount, hhost⟩ | ⟨rfl, hbytes, ⟨h, hq⟩ | ⟨h, rfl⟩⟩)
    · exact .field hs f.line_ne_nil f.crlfFree hbytes hcount
        (parseFieldLine_eq_ok_iff.mpr ⟨f, rfl, rfl, hhost⟩)
    · exact .finish h hbytes hq
    · exact .trailersEnd h hbytes

theorem inContent_of_section (hs : p.state = .headers ∨ p.state = .trailers) :
    p.inContent = false := by
  rcases hs with hs | hs <;> simp [inContent, hs]

theorem Reads.passes {P : RequestParser → Prop} (h : p.Reads u q) (hc : p.inContent = false)
    (hq : ¬ P q) : machine.Passes P p u q :=
  .of_more (h.step_eq hc) hq

theorem passes_fields {P : RequestParser → Prop}
    (hs : p.state = .headers ∨ p.state = .trailers)
    (hP : ∀ {r : RequestParser}, r.state = p.state → ¬ P r)
    (hbytes : p.headerBytes + (fieldBytes fs).length + 2 ≤ p.limits.maxHeaderBytes)
    (hcount : p.headerCount + fs.length ≤ p.limits.maxHeaderCount) (hhost : p.HostOnce fs) :
    machine.Passes P p (fieldBytes fs) (p.addFields fs) := by
  induction fs generalizing p with
  | nil => exact .nil
  | cons f fs ih =>
    rw [fieldBytes_cons, List.length_append, List.length_append, length_kCRLF] at hbytes
    rw [List.length_cons] at hcount
    obtain ⟨hhost, hhost'⟩ := hostOnce_cons.mp hhost
    have hread : p.Reads (f.line ++ kCRLF) (p.addField f) :=
      (reads_section_iff hs).mpr (.inl ⟨f, rfl, rfl, by omega, by omega, hhost⟩)
    have hfirst : machine.Passes P p (f.line ++ kCRLF) (p.addField f) :=
      hread.passes (inContent_of_section hs) (hP addField_state)
    have hrest := ih (p := p.addField f) (by simpa using hs) (fun hr => hP (by simpa using hr))
      (by simp; omega) (by simp; omega) hhost'
    simpa using hfirst.append hrest

/-- A section is read to its end if and only if it is made of field lines within the limits. -/
theorem until_section_iff {P : RequestParser → Prop}
    (hs : p.state = .headers ∨ p.state = .trailers)
    (hc : p.headerCount ≤ p.limits.maxHeaderCount)
    (hP : ∀ {r : RequestParser}, r.state = p.state → ¬ P r)
    (hend : ∀ {r q : RequestParser}, r.state = p.state → r.EndsSection q → P q) :
    machine.Until P p d q k ↔ ∃ fs t, d = fieldBytes fs ++ (kCRLF ++ t) ∧
      k = (fieldBytes fs).length + 2 ∧
      p.headerBytes + (fieldBytes fs).length + 2 ≤ p.limits.maxHeaderBytes ∧
      p.headerCount + fs.length ≤ p.limits.maxHeaderCount ∧ p.HostOnce fs ∧
      (p.addFields fs).EndsSection q := by
  constructor
  · intro h
    induction h with
    | @here p q d n hstep hq =>
      obtain ⟨u, t, rfl, rfl, hu⟩ := feedStep_more hstep
      rcases (reads_section_iff hs).mp hu with ⟨f, rfl, rfl, _⟩ | ⟨rfl, hbytes, hq'⟩
      · exact absurd hq (hP (by simp))
      · exact ⟨[], t, rfl, rfl, hbytes, hc, hostOnce_nil, hq'⟩
    | @later p p' q d n k hstep hp' _ ih =>
      obtain ⟨u, t, rfl, rfl, hu⟩ := feedStep_more hstep
      rcases (reads_section_iff hs).mp hu with ⟨f, rfl, rfl, hbytes, hcount, hhost⟩ | ⟨_, _, hq'⟩
      · obtain ⟨fs, t', ht, rfl, hbytes', hcount', hhost', hq'⟩ := ih (by simpa using hs)
          (by simpa using hcount) (fun hr => hP (by simpa using hr)) (fun hr => hend (by simpa using hr))
        rw [List.drop_left] at ht
        refine ⟨f :: fs, t', by simp [ht], by simp; omega, ?_, ?_, hostOnce_cons.mpr ⟨hhost, hhost'⟩,
          hq'⟩
        · simp at hbytes' ⊢; omega
        · simp at hcount' ⊢; omega
      · exact absurd (hend rfl hq') hp'
  · rintro ⟨fs, t, rfl, rfl, hbytes, hcount, hhost, hq⟩
    have hfields := passes_fields hs hP hbytes hcount hhost
    have hstate : (p.addFields fs).state = p.state := by rw [addFields_eq]
    have hsection : (p.addFields fs).state = .headers ∨ (p.addFields fs).state = .trailers :=
      hstate ▸ hs
    have hread : (p.addFields fs).Reads kCRLF q := by
      refine (reads_section_iff hsection).mpr (.inr ⟨rfl, ?_, hq⟩)
      rw [addFields_eq]
      exact hbytes
    exact hfields.until_iff.mpr
      ⟨2, .here (hread.step_eq (inContent_of_section hsection) t) (hend hstate hq), rfl⟩

end RequestParser

/-- The value of a field after folding the lines of that name. -/
def folded (fs : List FieldLine) (name : Bytes) : Option Bytes :=
  match (fs.filter fun f => iequals f.name name).map FieldLine.value with
  | [] => none
  | v :: vs => some ((text ", ").intercalate (v :: vs))

inductive BodyFraming where
  | none
  | length (n : ℕ)
  | chunked

/-- The rules of framing, for the folded fields of a head. -/
def BodyFraming.Frames (l : ParserLimits) (minor : ℕ) (get : Bytes → Option Bytes) :
    BodyFraming → Prop
  | .none => get (text "Transfer-Encoding") = .none ∧ get (text "Content-Length") = .none
  | .length n => get (text "Transfer-Encoding") = .none ∧
      ∃ v, get (text "Content-Length") = some v ∧ IsLengthList v n ∧ n ≤ l.maxBodyBytes
  | .chunked => get (text "Content-Length") = .none ∧ minor = 1 ∧
      ∃ v, get (text "Transfer-Encoding") = some v ∧ iequals (trimOws v) (text "chunked") = true

def BodyFraming.state : BodyFraming → State
  | .none => .done
  | .length n => if n = 0 then .done else .body
  | .chunked => .chunkSize

def BodyFraming.remaining : BodyFraming → ℕ
  | .length n => n
  | _ => 0

theorem BodyFraming.none_fits (n : ℕ) : BodyFraming.none.remaining ≤ n := Nat.zero_le n

/-- The lines of a request head within the limits. -/
structure HeadLines (l : ParserLimits) where
  blanks : ℕ
  requestLine : RequestLine
  fields : List FieldLine
  line_le : requestLine.line.length ≤ l.maxRequestLine
  bytes_le : (fieldBytes fields).length + 2 ≤ l.maxHeaderBytes
  count_le : fields.length ≤ l.maxHeaderCount
  host_le : fields.countP FieldLine.isHost ≤ 1
  host_pos : requestLine.minor = 1 → 0 < fields.countP FieldLine.isHost

def HeadLines.bytes (h : HeadLines l) : Bytes :=
  (List.replicate h.blanks kCRLF).flatten ++ (h.requestLine.line ++
    (kCRLF ++ (fieldBytes h.fields ++ kCRLF)))

/-- A request head with a way to frame the body. -/
structure HeadForm (l : ParserLimits) extends HeadLines l where
  framing : BodyFraming
  frames : framing.Frames l requestLine.minor (folded fields)

namespace HeadForm

variable (h : HeadForm l)

/-- Whether the client waits for an interim response before it sends the body. -/
def expectContinue : Bool :=
  expectsContinue (folded h.fields (text "Expect")) && h.framing.state != .done

def request : Request where
  method := h.requestLine.method
  target := h.requestLine.target
  path := h.requestLine.pathAndQuery.takeWhile (· != ch '?')
  query := (h.requestLine.pathAndQuery.dropWhile (· != ch '?')).drop 1
  versionMajor := 1
  versionMinor := h.requestLine.minor
  headers := foldFields .empty h.fields
  expectContinue := h.expectContinue

end HeadForm

/-- A request head whose body fits in a string. -/
structure Head (l : ParserLimits) extends HeadForm l where
  fits : framing.remaining ≤ l.maxSize

def Head.parser (h : Head l) : RequestParser where
  limits := l
  state := h.framing.state
  req := h.request
  headerBytes := (fieldBytes h.fields).length + 2
  headerCount := h.fields.length
  remaining := h.framing.remaining

theorem intercalate_concat_head (sep a v : Bytes) (vs : List Bytes) :
    sep.intercalate ((a ++ sep ++ v) :: vs) = sep.intercalate (a :: v :: vs) := by
  cases vs with
  | nil => simp [List.intercalate_cons_cons]
  | cons w vs => simp [List.intercalate_cons_cons]

theorem get_foldFields_of_some {h : Headers} {name v : Bytes} {fs : List FieldLine}
    (hv : h.get name = some v) : (foldFields h fs).get name =
      some ((text ", ").intercalate
        (v :: (fs.filter fun f => iequals f.name name).map FieldLine.value)) := by
  induction fs generalizing h v with
  | nil => simp [foldFields, hv]
  | cons f fs ih =>
    change (foldFields (h.add f.name f.value) fs).get name = _
    have hadd := h.get_add f.name f.value name
    cases hf : iequals f.name name with
    | false =>
      simp only [hf, hv] at hadd
      rw [ih hadd, List.filter_cons_of_neg (by simp [hf])]
    | true =>
      simp only [hf, hv, if_true, Headers.foldValue] at hadd
      rw [ih hadd, List.filter_cons_of_pos (by simpa using hf), List.map_cons, intercalate_concat_head]

theorem get_foldFields_empty (fs : List FieldLine) (name : Bytes) :
    (foldFields .empty fs).get name = folded fs name := by
  have hnone : ∀ h : Headers, h.get name = none → (foldFields h fs).get name = folded fs name := by
    induction fs with
    | nil => exact fun h hn => hn
    | cons f fs ih =>
      intro h hn
      change (foldFields (h.add f.name f.value) fs).get name = _
      have hadd := h.get_add f.name f.value name
      cases hf : iequals f.name name with
      | false =>
        simp only [hf, hn] at hadd
        rw [ih _ hadd, folded, folded, List.filter_cons_of_neg (by simp [hf])]
      | true =>
        simp only [hf, hn, if_true, Headers.foldValue] at hadd
        rw [get_foldFields_of_some hadd, folded, List.filter_cons_of_pos (by simpa using hf), List.map_cons]
  exact hnone .empty rfl

theorem has_foldFields_host (fs : List FieldLine) :
    (foldFields .empty fs).has (text "Host") = true ↔ 0 < fs.countP FieldLine.isHost := by
  rw [Headers.has_eq_isSome_get, get_foldFields_empty, List.countP_pos_iff, folded]
  split
  · next h =>
    simp only [List.map_eq_nil_iff, List.filter_eq_nil_iff] at h
    simpa [FieldLine.isHost] using h
  · next v vs h =>
    have hmem : v ∈ (fs.filter fun f => iequals f.name (text "Host")).map FieldLine.value := by
      simp [h]
    obtain ⟨f, hf, -⟩ := List.mem_map.mp hmem
    obtain ⟨hf, hhost⟩ := List.mem_filter.mp hf
    simpa using ⟨f, hf, hhost⟩

namespace RequestParser

variable {p q : RequestParser} {u : Bytes} {s : State} {n : ℕ}

theorem bodyFraming_eq_ok_iff (hmajor : p.req.versionMajor = 1) (hminor : p.req.versionMinor ≤ 1)
    (hr : p.remaining = 0) : p.bodyFraming = .ok (s, n) ↔
      (p.req.versionMinor = 1 → p.req.headers.has (text "Host") = true) ∧
        ∃ b : BodyFraming, b.Frames p.limits p.req.versionMinor p.req.headers.get ∧
          b.remaining ≤ p.limits.maxSize ∧ s = b.state ∧ n = b.remaining := by
  constructor
  · intro h
    unfold bodyFraming at h
    dsimp only at h
    split at h
    · cases h
    · next hhost =>
      simp only [Bool.and_eq_true, beq_iff_eq, Bool.not_eq_true', not_and,
        Bool.not_eq_false] at hhost
      refine ⟨hhost, ?_⟩
      split at h
      · cases h
      · next te hte hcl =>
        split at h
        · cases h
        · next h10 =>
          split at h
          · cases h
          · next hch =>
            cases h
            simp only [Request.isHttp10, hmajor, beq_self_eq_true, Bool.true_and,
              beq_iff_eq] at h10
            exact ⟨.chunked, ⟨hcl, by omega, te, hte, by simpa using hch⟩, Nat.zero_le _, rfl, hr⟩
      · next cl hte hcl =>
        split at h
        · cases h
        · next length hlen =>
          split at h
          · cases h
          · next hle =>
            split at h
            · cases h
            · next hfits =>
              cases h
              refine ⟨.length n, ⟨hte, cl, hcl, parseContentLength_eq_some_iff.mp hlen,
                Nat.not_lt.mp hle⟩, Nat.not_lt.mp hfits, ?_, rfl⟩
              cases n <;> rfl
      · next hte hcl => cases h; exact ⟨.none, ⟨hte, hcl⟩, Nat.zero_le _, rfl, hr⟩
  · rintro ⟨hhost, b, hb, hfits, rfl, rfl⟩
    have hh : (p.req.versionMinor == 1 && !p.req.headers.has (text "Host")) = false := by
      simpa using hhost
    unfold bodyFraming
    simp only [hh]
    cases b with
    | none => simp [hb.1, hb.2, BodyFraming.state, BodyFraming.remaining, hr]
    | length n =>
      obtain ⟨hte, v, hv, hlen, hle⟩ := hb
      have hfits : n ≤ p.limits.maxSize := hfits
      simp [hte, hv, parseContentLength_eq_some_iff.mpr hlen, Nat.not_lt.mpr hle,
        Nat.not_lt.mpr hfits, BodyFraming.state, BodyFraming.remaining]
    | chunked =>
      obtain ⟨hcl, hone, v, hv, hch⟩ := hb
      simp [hcl, hv, hch, BodyFraming.state, BodyFraming.remaining, hr, Request.isHttp10, hone]

theorem finishHeaders_eq_ok_iff (hmajor : p.req.versionMajor = 1)
    (hminor : p.req.versionMinor ≤ 1) (hr : p.remaining = 0) : p.finishHeaders = .ok q ↔
      (p.req.versionMinor = 1 → p.req.headers.has (text "Host") = true) ∧
        ∃ b : BodyFraming, b.Frames p.limits p.req.versionMinor p.req.headers.get ∧
          b.remaining ≤ p.limits.maxSize ∧ q = { p with
            state := b.state
            remaining := b.remaining
            req := { p.req with
              expectContinue :=
                expectsContinue (p.req.headers.get (text "Expect")) && b.state != .done } } := by
  constructor
  · intro h
    unfold finishHeaders at h
    split at h
    · cases h
    · next s n hb =>
      obtain ⟨hhost, b, hframes, hfits, rfl, rfl⟩ :=
        (bodyFraming_eq_ok_iff hmajor hminor hr).mp hb
      cases h
      exact ⟨hhost, b, hframes, hfits, rfl⟩
  · rintro ⟨hhost, b, hframes, hfits, rfl⟩
    have hb := (bodyFraming_eq_ok_iff hmajor hminor hr).mpr ⟨hhost, b, hframes, hfits, rfl, rfl⟩
    simp only [finishHeaders, hb]

/-- The exception of `reserve`. -/
theorem finishHeaders_throws {b : BodyFraming}
    (hhost : p.req.versionMinor = 1 → p.req.headers.has (text "Host") = true)
    (hb : b.Frames p.limits p.req.versionMinor p.req.headers.get)
    (hlt : p.limits.maxSize < b.remaining) : p.finishHeaders = .error ⟨.lengthError, ""⟩ := by
  have hh : (p.req.versionMinor == 1 && !p.req.headers.has (text "Host")) = false := by
    simpa using hhost
  cases b with
  | none => exact absurd hlt (Nat.not_lt_zero _)
  | length n =>
    obtain ⟨hte, v, hv, hlen, hle⟩ := hb
    have hlt : p.limits.maxSize < n := hlt
    simp [finishHeaders, bodyFraming, hh, hte, hv, parseContentLength_eq_some_iff.mpr hlen,
      Nat.not_lt.mpr hle, hlt]
  | chunked => exact absurd hlt (Nat.not_lt_zero _)

def HeadersComplete (p : RequestParser) : Prop := p.headersComplete = true

theorem not_headersComplete (hs : p.state = .requestLine ∨ p.state = .headers) :
    ¬ p.HeadersComplete := by
  rcases hs with hs | hs <;> simp [HeadersComplete, headersComplete, hs]

theorem EndsSection.headersComplete (hs : p.state = .headers) (h : p.EndsSection q) :
    q.HeadersComplete := by
  rcases h with ⟨_, hq⟩ | ⟨ht, _⟩
  · obtain ⟨s, n, e, hb, _, rfl⟩ := finishHeaders_ok hq
    rcases bodyFraming_state hb with rfl | rfl | rfl <;> rfl
  · cases hs.symm.trans ht

def startHeaders (p : RequestParser) (r : RequestLine) : RequestParser :=
  { p.withRequestLine r with state := .headers }

theorem reads_requestLine_iff (hs : p.state = .requestLine) :
    p.Reads u q ↔ (u = kCRLF ∧ q = p) ∨ ∃ r : RequestLine, u = r.line ++ kCRLF ∧
      r.line.length ≤ p.limits.maxRequestLine ∧ q = p.startHeaders r := by
  constructor
  · intro h
    cases h with
    | blank => exact .inl ⟨rfl, rfl⟩
    | requestLine _ _ _ hlen hq =>
      obtain ⟨r, rfl, rfl⟩ := parseRequestLine_ok_iff.mp hq
      exact .inr ⟨r, rfl, hlen, rfl⟩
    | _ => simp_all
  · rintro (⟨rfl, rfl⟩ | ⟨r, rfl, hlen, rfl⟩)
    · exact .blank hs
    · exact .requestLine hs r.line_ne_nil r.crlfFree hlen
        (parseRequestLine_ok_iff.mpr ⟨r, rfl, rfl⟩)

theorem passes_blanks (hs : p.state = .requestLine) (j : ℕ) :
    machine.Passes HeadersComplete p (List.replicate j kCRLF).flatten p := by
  induction j with
  | zero => exact .nil
  | succ j ih =>
    have hread : p.Reads kCRLF p := .blank hs
    exact (hread.passes (by simp [inContent, hs]) (not_headersComplete (.inl hs))).append ih

theorem until_requestLine_iff (hs : p.state = .requestLine) :
    machine.Until HeadersComplete p d q k ↔ ∃ j t n, ∃ r : RequestLine,
      d = (List.replicate j kCRLF).flatten ++ (r.line ++ (kCRLF ++ t)) ∧
      r.line.length ≤ p.limits.maxRequestLine ∧
      machine.Until HeadersComplete (p.startHeaders r) t q n ∧
      k = 2 * j + (r.line.length + 2 + n) := by
  constructor
  · intro h
    induction h with
    | @here p q d n hstep hq =>
      obtain ⟨u, t, rfl, rfl, hu⟩ := feedStep_more hstep
      rcases (reads_requestLine_iff hs).mp hu with ⟨rfl, rfl⟩ | ⟨r, rfl, _, rfl⟩
      · exact absurd hq (not_headersComplete (.inl hs))
      · exact absurd hq (not_headersComplete (.inr rfl))
    | @later p p' q d n k hstep hp' hrest ih =>
      obtain ⟨u, t, rfl, rfl, hu⟩ := feedStep_more hstep
      rw [List.drop_left] at hrest ih
      rcases (reads_requestLine_iff hs).mp hu with ⟨rfl, rfl⟩ | ⟨r, rfl, hlen, rfl⟩
      · obtain ⟨j, t', n, r, rfl, hr, hq, rfl⟩ := ih hs
        exact ⟨j + 1, t', n, r, by simp [List.replicate_succ], hr, hq, by simp; omega⟩
      · exact ⟨0, t, k, r, by simp, hlen, hrest, by simp⟩
  · rintro ⟨j, t, n, r, rfl, hr, hq, rfl⟩
    have hread : p.Reads (r.line ++ kCRLF) (p.startHeaders r) :=
      (reads_requestLine_iff hs).mpr (.inr ⟨r, rfl, hr, rfl⟩)
    have hline := hread.passes (by simp [inContent, hs]) (not_headersComplete (.inr rfl))
    have hhead := ((passes_blanks hs j).append hline).until_iff.mpr ⟨n, hq, rfl⟩
    have hlen : ((List.replicate j kCRLF).flatten ++ (r.line ++ kCRLF)).length + n =
        2 * j + (r.line.length + 2 + n) := by
      simp
      omega
    rw [hlen] at hhead
    simpa using hhead

/-- A fresh parser that has read a head is the parser the head describes. -/
theorem until_head_iff {x : Bytes} :
    machine.Until HeadersComplete { limits := l } x q k ↔
      ∃ h : Head l, h.bytes <+: x ∧ h.bytes.length = k ∧ q = h.parser := by
  rw [until_requestLine_iff rfl]
  constructor
  · rintro ⟨j, t, n, r, rfl, hr, hq, rfl⟩
    obtain ⟨fs, t, rfl, rfl, hbytes, hcount, hhost, hend⟩ :=
      (until_section_iff (.inl rfl) (Nat.zero_le _) (fun hr => not_headersComplete (.inr hr))
        fun hr he => he.headersComplete hr).mp hq
    rw [addFields_of_headers rfl] at hend
    obtain ⟨_, hfin⟩ | ⟨ht, _⟩ := hend
    · obtain ⟨hpos, b, hframes, hfits, rfl⟩ :=
        (finishHeaders_eq_ok_iff rfl r.minor_le rfl).mp hfin
      have hget := funext (get_foldFields_empty fs)
      refine ⟨⟨⟨⟨j, r, fs, hr, by simpa [startHeaders, withRequestLine] using hbytes,
        by simpa [startHeaders, withRequestLine] using hcount,
        by simpa [startHeaders, withRequestLine] using hhost rfl,
        fun hone => (has_foldFields_host fs).mp (hpos hone)⟩, b, hget ▸ hframes⟩, hfits⟩,
        ⟨t, ?_⟩, ?_, ?_⟩
      · simp [HeadLines.bytes]
      · simp [HeadLines.bytes, Nat.mul_comm]; omega
      · simp [Head.parser, HeadForm.request, HeadForm.expectContinue, ← get_foldFields_empty,
          countLine, startHeaders, withRequestLine]
    · cases ht
  · rintro ⟨h, ⟨t, rfl⟩, rfl, rfl⟩
    have hget := funext (get_foldFields_empty h.fields)
    refine ⟨h.blanks, fieldBytes h.fields ++ (kCRLF ++ t), (fieldBytes h.fields).length + 2,
      h.requestLine, by simp [HeadLines.bytes], h.line_le, ?_, by simp [HeadLines.bytes]; omega⟩
    refine (until_section_iff (.inl rfl) (Nat.zero_le _)
      (fun hr => not_headersComplete (.inr hr)) fun hr he => he.headersComplete hr).mpr
      ⟨h.fields, t, rfl, rfl, ?_, ?_, fun _ => ?_, ?_⟩
    · simpa [startHeaders, withRequestLine] using h.bytes_le
    · simpa [startHeaders, withRequestLine] using h.count_le
    · simpa [startHeaders, withRequestLine] using h.host_le
    · rw [addFields_of_headers rfl]
      refine .inl ⟨rfl, (finishHeaders_eq_ok_iff rfl h.requestLine.minor_le rfl).mpr
        ⟨fun hone => (has_foldFields_host _).mpr (h.host_pos hone), h.framing, ?_, h.fits, ?_⟩⟩
      · exact hget ▸ h.frames
      · simp [Head.parser, HeadForm.request, HeadForm.expectContinue, ← get_foldFields_empty,
          countLine, startHeaders, withRequestLine]

theorem step_blank_error {f : Failure} (hs : p.state = .headers)
    (hle : p.headerBytes + 2 ≤ p.limits.maxHeaderBytes)
    (hf : (p.countLine []).finishHeaders = .error f) (t : Bytes) :
    machine.step p (kCRLF ++ t) = .stop ((p.countLine []).fail f) 2 := by
  have hline : machine.step p (kCRLF ++ t) = p.onHeaderLine [] :=
    (feedStep_headers (.inl hs)).trans (withLine_line crlfFree_nil t)
  simp [hline, onHeaderLine, Nat.not_lt.mpr hle, onBlankLine, hs, hf]

end RequestParser

namespace HeadLines

open RequestParser

variable (h : HeadLines l) {f : Failure}

/-- The parser before the empty line. -/
def unframed : RequestParser :=
  (RequestParser.startHeaders { limits := l } h.requestLine).addFields h.fields

theorem unframed_eq : h.unframed = { RequestParser.startHeaders { limits := l } h.requestLine with
    headerBytes := (fieldBytes h.fields).length
    headerCount := h.fields.length
    req := { (RequestParser.startHeaders { limits := l } h.requestLine).req with
      headers := foldFields .empty h.fields } } := by
  rw [unframed, addFields_of_headers rfl]
  simp [startHeaders, withRequestLine]

theorem passes_unframed : ∃ u, h.bytes = u ++ kCRLF ∧
    machine.Passes HeadersComplete { limits := l } u h.unframed := by
  have hread : RequestParser.Reads { limits := l } (h.requestLine.line ++ kCRLF)
      (RequestParser.startHeaders { limits := l } h.requestLine) :=
    (reads_requestLine_iff rfl).mpr (.inr ⟨_, rfl, h.line_le, rfl⟩)
  have hline := hread.passes rfl (not_headersComplete (.inr rfl))
  have hbytes := h.bytes_le
  have hfields := passes_fields (p := RequestParser.startHeaders { limits := l } h.requestLine)
    (.inl rfl) (fun hr => not_headersComplete (.inr hr))
    (by simpa [startHeaders, withRequestLine] using hbytes)
    (by simpa [startHeaders, withRequestLine] using h.count_le)
    fun _ => by simpa [startHeaders, withRequestLine] using h.host_le
  exact ⟨_, by simp [bytes], ((passes_blanks rfl h.blanks).append hline).append hfields⟩

theorem unframed_state : h.unframed.state = .headers := by rw [unframed_eq]; rfl

theorem unframed_limits : (h.unframed.countLine []).limits = l := by
  rw [countLine_limits, unframed_eq]; rfl

theorem get_unframed (name : Bytes) :
    (h.unframed.countLine []).req.headers.get name = folded h.fields name := by
  rw [countLine_req, unframed_eq]
  exact get_foldFields_empty h.fields name

theorem host_unframed : (h.unframed.countLine []).req.versionMinor = 1 →
    (h.unframed.countLine []).req.headers.has (text "Host") = true := by
  rw [countLine_req, unframed_eq]
  exact fun hone => (has_foldFields_host h.fields).mpr (h.host_pos hone)

theorem headerBytes_unframed : h.unframed.headerBytes + 2 ≤ h.unframed.limits.maxHeaderBytes := by
  rw [unframed_eq]
  exact h.bytes_le

/-- The empty line is at fault, and it is the last one used. -/
theorem feed_error (hf : (h.unframed.countLine []).finishHeaders = .error f)
    (y : Bytes) : RequestParser.feed { limits := l } (h.bytes ++ y) =
      ((h.unframed.countLine []).fail f, h.bytes.length) := by
  obtain ⟨u, hu, hpass⟩ := h.passes_unframed
  rw [RequestParser.feed, hu, List.append_assoc, hpass.feed,
    machine.feed_stop (step_blank_error h.unframed_state h.headerBytes_unframed hf y)]
  simp [shift]

theorem not_until_of_error (hf : (h.unframed.countLine []).finishHeaders = .error f) (y : Bytes)
    (q : RequestParser) (k : ℕ) :
    ¬ machine.Until HeadersComplete { limits := l } (h.bytes ++ y) q k := by
  obtain ⟨u, hu, hpass⟩ := h.passes_unframed
  rw [hu, List.append_assoc, hpass.until_iff]
  rintro ⟨j, hj, -⟩
  exact Machine.not_until_of_stop
    (step_blank_error h.unframed_state h.headerBytes_unframed hf y) hj

end HeadLines

theorem HeadForm.throws (h : HeadForm l) (hlt : l.maxSize < h.framing.remaining) :
    (h.unframed.countLine []).finishHeaders = .error ⟨.lengthError, ""⟩ := by
  have hget : (h.unframed.countLine []).req.headers.get = folded h.fields :=
    funext h.get_unframed
  have hminor : (h.unframed.countLine []).req.versionMinor = h.requestLine.minor := by
    rw [RequestParser.countLine_req, HeadLines.unframed_eq]; rfl
  refine RequestParser.finishHeaders_throws h.host_unframed (b := h.framing) ?_ ?_
  · rw [h.unframed_limits, hget, hminor]
    exact h.frames
  · rwa [h.unframed_limits]

namespace RequestParser

/-- A fresh parser completes the header section after using exactly the first `k` bytes of
a stream if and only if these bytes are a head whose body fits in a string, and then its request
is that of the head. At the end of a head whose body does not fit, `feed` throws. -/
theorem accepts_exactly_heads (l : ParserLimits) (x : Bytes) (k : ℕ) (R : Request) :
    ((∃ q, machine.Until HeadersComplete { limits := l } x q k ∧ q.req = R) ↔
      ∃ h : HeadForm l, h.framing.remaining ≤ l.maxSize ∧ h.bytes = x.take k ∧ k ≤ x.length ∧
        h.request = R) ∧
    ∀ h : HeadForm l, h.bytes <+: x → l.maxSize < h.framing.remaining →
      (feed { limits := l } x).1.threw = true ∧ (feed { limits := l } x).2 = h.bytes.length := by
  refine ⟨⟨?_, ?_⟩, ?_⟩
  · rintro ⟨q, hq, rfl⟩
    obtain ⟨h, hpre, rfl, rfl⟩ := until_head_iff.mp hq
    exact ⟨h.toHeadForm, h.fits, List.prefix_iff_eq_take.mp hpre, hpre.length_le, rfl⟩
  · rintro ⟨h, hfits, hbytes, hk, rfl⟩
    have hlen : h.bytes.length = k := by rw [hbytes, List.length_take_of_le hk]
    exact ⟨Head.parser ⟨h, hfits⟩,
      until_head_iff.mpr ⟨⟨h, hfits⟩, hbytes ▸ List.take_prefix k x, hlen, rfl⟩, rfl⟩
  · rintro h ⟨y, rfl⟩ hlt
    rw [h.feed_error (h.throws hlt)]
    exact ⟨rfl, rfl⟩

def postLine : RequestLine :=
  ⟨text "POST", text "/", 1, by decide, by decide, by decide, by decide +kernel,
    .origin (by decide)⟩

def hostLine : FieldLine := ⟨text "Host", text " x", isToken_host, by decide +kernel⟩

theorem isToken_contentLength : isToken (text "Content-Length") = true := by decide

/-- A head with the largest length of nineteen digits, for a server that takes bodies of any
size. -/
def hugeHead : HeadForm { maxBodyBytes := 2 ^ 64 - 1 } where
  blanks := 0
  requestLine := postLine
  fields := [hostLine, ⟨text "Content-Length", text " 9999999999999999999", isToken_contentLength,
    by decide +kernel⟩]
  framing := .length 9999999999999999999
  line_le := by decide
  bytes_le := by decide
  count_le := by decide
  host_le := by decide
  host_pos := by decide
  frames := ⟨by decide, text "9999999999999999999", by decide,
    parseContentLength_eq_some_iff.mp (by decide), by decide⟩

/-- It is of the form of a head, but the header section is not completed. -/
theorem huge_head_not_accepted :
    hugeHead.bytes =
      text "POST / HTTP/1.1\r\nHost: x\r\nContent-Length: 9999999999999999999\r\n\r\n" ∧
    (feed { limits := { maxBodyBytes := 2 ^ 64 - 1 } } hugeHead.bytes).1.threw = true ∧
    ∀ q k, ¬ machine.Until HeadersComplete { limits := { maxBodyBytes := 2 ^ 64 - 1 } }
      hugeHead.bytes q k := by
  have hthrows := hugeHead.throws (by decide)
  refine ⟨by decide, ?_, fun q k => ?_⟩
  · have hfeed := hugeHead.feed_error hthrows []
    rw [List.append_nil] at hfeed
    rw [hfeed]
    rfl
  · have hnot := hugeHead.not_until_of_error hthrows [] q k
    rwa [List.append_nil] at hnot

end RequestParser

end Httpd
