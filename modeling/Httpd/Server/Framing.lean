import Httpd.Http.WriteHead
import Httpd.Server.Delivery

/-! # Declared framing

A recipient finds the end of a response from its head alone. Here a response is read back as
its recipient does, from the fields of the head: a length, a sequence of chunks, or the end of
the connection. Every response that a connection sends is delimited as its head says, or the
connection ends before the response is complete.
-/

namespace Httpd

open Transcript

variable {ω σ : Type}

structure WireChunk where
  digits : Bytes
  data : Bytes
  digits_ne : digits ≠ []
  digits_hex : ∀ c ∈ digits, (hexValue c).isSome = true
  size : hexNumber digits = data.length
  data_ne : data ≠ []

def WireChunk.bytes (c : WireChunk) : Bytes := c.digits ++ kCRLF ++ c.data ++ kCRLF

def IsChunks (w : Bytes) : Prop := ∃ cs : List WireChunk, w = (cs.map WireChunk.bytes).flatten

def IsChunkedBody (w : Bytes) : Prop :=
  ∃ (chunks : Bytes) (trailers : List Field), IsChunks chunks ∧
    (∀ f ∈ trailers, Field.Clean f) ∧
      w = chunks ++ (text "0\r\n" ++ (trailers.map fieldLine).flatten ++ kCRLF)

/-- The fields of a head delimit a body. -/
inductive Framed (bodiless : Bool) (fields : List Field) (body : Bytes) : Prop where
  | none : bodiless = true → body = [] → Framed bodiless fields body
  | length (n : ℕ) : bodiless = false →
      fields.filter delimits = [(text "Content-Length", appendNumber 10 n)] → body.length = n →
      Framed bodiless fields body
  | chunked : bodiless = false →
      fields.filter delimits = [(text "Transfer-Encoding", text "chunked")] →
      IsChunkedBody body → Framed bodiless fields body
  | close : bodiless = false → fields.filter delimits = [] → Framed bodiless fields body

/-- A body ends too early for the fields of the head, so that the recipient can tell. -/
inductive FramedShort (bodiless : Bool) (fields : List Field) (body : Bytes) : Prop where
  | length (n : ℕ) : bodiless = false →
      fields.filter delimits = [(text "Content-Length", appendNumber 10 n)] → body.length < n →
      FramedShort bodiless fields body
  | chunked : bodiless = false →
      fields.filter delimits = [(text "Transfer-Encoding", text "chunked")] → IsChunks body →
      FramedShort bodiless fields body

def noBody (status : ℕ) : Bool := status / 100 = 1 || status = 204 || status = 304

namespace Reply

def status : Reply σ → ℕ
  | .interim => 100
  | .answer _ res _ => res.status
  | .failure res _ => res.status

def isHead : Reply σ → Bool
  | .answer req _ _ => req.method == text "HEAD"
  | _ => false

/-- The reply to a `HEAD`, or of a status that has no body. -/
def bodiless (r : Reply σ) : Bool := r.isHead || noBody r.status

def Clean : Reply σ → Prop
  | .answer _ res _ => res.headers.Clean
  | _ => True

instance (r : Reply σ) : Decidable r.Clean := by
  cases r <;> unfold Clean <;> infer_instance

/-- What the server itself sees to. -/
def Proper : Reply σ → Prop
  | .interim => True
  | .answer _ _ opts => ∀ c ∈ opts.date, isCtl c = false
  | .failure res opts => (∃ e detail, res = Session.errorResponse (statusFor e) detail) ∧
      ∀ c ∈ opts.date, isCtl c = false

/-- The bytes are a head with clean fields and a body. -/
def Consists (r : Reply σ) (P : List Field → Bytes → Prop) (b : Bytes) : Prop :=
  ∃ fields body, b = responseHead r.status fields ++ body ∧ (∀ f ∈ fields, Field.Clean f) ∧
    P fields body

def WellFramed (r : Reply σ) (b : Bytes) : Prop := r.Consists (Framed r.bodiless) b

def CutShort (r : Reply σ) (b : Bytes) : Prop := r.Consists (FramedShort r.bodiless) b

end Reply

def WireChunk.ofPiece (piece : Bytes) (h : piece ≠ []) : WireChunk where
  digits := appendNumber 16 piece.length
  data := piece
  digits_ne := appendNumber_ne_nil _ _
  digits_hex := by
    intro c hc
    obtain ⟨d, hd, rfl⟩ := mem_appendNumber (by decide) hc
    rw [hexValue_digitByte d hd]
    rfl
  size := hexNumber_appendNumber _
  data_ne := h

theorem IsChunks.append_piece {w : Bytes} (h : IsChunks w) (piece : Bytes) :
    IsChunks (w ++ appendChunk [] piece) := by
  obtain ⟨cs, rfl⟩ := h
  by_cases hp : piece = []
  · exact ⟨cs, by simp [appendChunk, hp]⟩
  · exact ⟨cs ++ [.ofPiece piece hp], by simp [appendChunk, hp, WireChunk.bytes, WireChunk.ofPiece]⟩

theorem IsChunks.append_last {w : Bytes} (h : IsChunks w) {trailers : Headers}
    (ht : trailers.Clean) : IsChunkedBody (w ++ appendLastChunk [] trailers) :=
  ⟨w, trailers.fields, h, ht, by simp [appendLastChunk]⟩

/-- Producers set trailers that can be sent. -/
def Server.CleanTrailers (srv : Server ω σ) : Prop :=
  ∀ p tr more piece tr' next, tr.Clean → srv.call p tr = .returned more piece tr' next → tr'.Clean

/-- How far a response has been written, by the source of the rest. -/
inductive Progress : Reply σ → Bytes → Source σ → Bool → Prop where
  | complete {r : Reply σ} {b : Bytes} {closed : Bool} : r.WellFramed b →
      Progress r b .idle closed
  | short {r : Reply σ} {b : Bytes} : r.CutShort b → Progress r b .idle true
  | file {r : Reply σ} (fields : List Field) (body : Bytes) {fd : Fd} {off left : ℕ}
      {closed : Bool} : r.bodiless = false → (∀ f ∈ fields, Field.Clean f) →
      fields.filter delimits = [(text "Content-Length", appendNumber 10 (body.length + left))] →
      0 < left → Progress r (responseHead r.status fields ++ body) (.file fd off left) closed
  | sized {r : Reply σ} (fields : List Field) (body : Bytes) {p : σ} {tr : Headers} {left : ℕ}
      {closed : Bool} : r.bodiless = false → (∀ f ∈ fields, Field.Clean f) →
      fields.filter delimits = [(text "Content-Length", appendNumber 10 (body.length + left))] →
      0 < left →
      Progress r (responseHead r.status fields ++ body) (.stream p tr (.sized left)) closed
  | chunked {r : Reply σ} (fields : List Field) (body : Bytes) {p : σ} {tr : Headers}
      {closed : Bool} : r.bodiless = false → (∀ f ∈ fields, Field.Clean f) →
      fields.filter delimits = [(text "Transfer-Encoding", text "chunked")] → IsChunks body →
      tr.Clean → Progress r (responseHead r.status fields ++ body) (.stream p tr .chunked) closed
  | plain {r : Reply σ} (fields : List Field) (body : Bytes) {p : σ} {tr : Headers}
      {closed : Bool} : r.bodiless = false → (∀ f ∈ fields, Field.Clean f) →
      fields.filter delimits = [] →
      Progress r (responseHead r.status fields ++ body) (.stream p tr .plain) closed

variable {srv : Server ω σ} {F : (Fd → Bytes) → Prop} {r : Reply σ} {b b' : Bytes}
  {src src' : Source σ} {closed : Bool}

theorem Progress.emits (htr : srv.CleanTrailers) (h : Progress r b src closed)
    (he : src.Emits srv F b' src') : Progress r (b ++ b') src' closed := by
  cases h with
  | complete => cases he
  | short => cases he
  | @file fields body _ _ left _ hbody hclean hdel hpos =>
    rw [List.append_assoc]
    cases he with
    | file _ _ hle =>
      split
      · exact .complete ⟨fields, _, rfl, hclean, .length _ hbody hdel (by simp; omega)⟩
      · have hsum : (body ++ b').length + (left - b'.length) = body.length + left := by
          rw [List.length_append]; omega
        exact .file fields _ hbody hclean (by rw [hsum]; exact hdel) (by omega)
  | @sized fields body _ _ left _ hbody hclean hdel hpos =>
    rw [List.append_assoc]
    cases he with
    | @piece _ _ piece _ _ _ hcall hne hlt =>
      have hlt := hlt left rfl
      have hsum : (body ++ piece).length + (left - piece.length) = body.length + left := by
        rw [List.length_append]; omega
      exact .sized fields (body ++ piece) hbody hclean (by rw [hsum]; exact hdel) (by omega)
    | last hcall hspin hnone heq =>
      have heq := heq left rfl
      refine .complete ⟨fields, _, rfl, hclean, .length _ hbody hdel ?_⟩
      simp [Coding.frame, Coding.ending, heq]
  | chunked fields body hbody hclean hdel hchunks htrailers =>
    rw [List.append_assoc]
    cases he with
    | piece hcall hne hlt =>
      exact .chunked fields _ hbody hclean hdel (hchunks.append_piece _)
        (htr _ _ _ _ _ _ htrailers hcall)
    | last hcall hspin hnone heq =>
      refine .complete ⟨fields, _, rfl, hclean, .chunked hbody hdel ?_⟩
      rw [← List.append_assoc]
      exact (hchunks.append_piece _).append_last (htr _ _ _ _ _ _ htrailers hcall)
  | plain fields body hbody hclean hdel =>
    rw [List.append_assoc]
    cases he with
    | piece hcall hne hlt => exact .plain fields _ hbody hclean hdel
    | last hcall hspin hnone heq => exact .complete ⟨fields, _, rfl, hclean, .close hbody hdel⟩

theorem Progress.truncates (h : Progress r b src closed) (ht : src.Truncates srv b') :
    Progress r (b ++ b') .idle true := by
  cases ht with
  | short hcall hlt =>
    cases h with
    | @sized fields body _ _ left _ hbody hclean hdel hpos =>
      rw [List.append_assoc]
      exact .short ⟨fields, _, rfl, hclean, .length _ hbody hdel (by rw [List.length_append]; omega)⟩

theorem framingOf_errorResponse (e : ParseError) (detail : String) (opts : HeadOptions) :
    framingOf (Session.errorResponse (statusFor e) detail : Response σ) opts =
      (.contentLength, (Session.errorResponse (statusFor e) detail : Response σ).body.length) := by
  cases e <;> simp [framingOf, Session.errorResponse, Response.text, statusFor]

theorem errorResponse_clean (status : ℕ) (detail : String) :
    (Session.errorResponse status detail : Response σ).headers.Clean := by
  change Headers.Clean (Headers.empty.set (text "Content-Type") (text "text/plain; charset=utf-8"))
  exact .of_all rfl

theorem framingOf_none_iff {res : Response σ} {opts : HeadOptions} :
    (framingOf res opts).1 = .none ↔ noBody res.status = true := by
  unfold framingOf noBody
  split
  · next h => simp only [h]
  · next h =>
    simp only [h]
    split
    · simp
    · split
      · split
        · simp
        · cases opts.http10Client <;> simp
      · simp

theorem source_progress {req : Request} {res : Response σ} {opts : HeadOptions}
    (hhead : req.method ≠ text "HEAD") (hframing : (framingOf res opts).1 ≠ .none)
    (hclean : ∀ f ∈ headFields res opts, Field.Clean f) :
    Progress (.answer req res opts) (headText res opts ++ res.immediate)
      (res.source (framingOf res opts).1) closed := by
  have hbody : (Reply.answer req res opts : Reply σ).bodiless = false := by
    have := mt framingOf_none_iff.mpr hframing
    simpa [Reply.bodiless, Reply.isHead, Reply.status, hhead] using this
  have hdel := filter_delimits_headFields res opts
  have hstatus : ¬ (res.status / 100 = 1 || res.status = 204 || res.status = 304) = true :=
    mt framingOf_none_iff.mpr hframing
  have hnil : responseHead res.status (headFields res opts) =
      responseHead res.status (headFields res opts) ++ [] := (List.append_nil _).symm
  have hlength {n left : ℕ} (hf : framingOf res opts = (.contentLength, n)) (hn : n = left) :
      (headFields res opts).filter delimits =
        [(text "Content-Length", appendNumber 10 (([] : Bytes).length + left))] := by
    rw [hdel, hf, hn, List.length_nil, Nat.zero_add]; rfl
  rw [headText_eq]
  unfold Response.source Response.immediate
  cases hfile : res.file with
  | some fd =>
    have hf : framingOf res opts = (.contentLength, res.fileLength) := by
      simp [framingOf, hstatus, hfile]
    simp only [Option.isSome_some, Bool.true_or, if_true, List.append_nil]
    rw [hnil]
    split
    · next h0 => exact .complete ⟨_, [], rfl, hclean, .length _ hbody (hlength hf h0) rfl⟩
    · next h0 => exact .file _ [] hbody hclean (hlength hf rfl) (Nat.pos_of_ne_zero h0)
  | none =>
    cases hprod : res.producer with
    | none =>
      have hf : framingOf res opts = (.contentLength, res.body.length) := by
        simp [framingOf, hstatus, hfile, hprod]
      refine .complete ⟨_, res.body, by simp [Reply.status], hclean, .length _ hbody ?_ rfl⟩
      rw [hdel, hf]; rfl
    | some p =>
      simp only [Option.isSome_none, Option.isSome_some, Bool.false_or, if_true, List.append_nil]
      rw [hnil]
      cases hlen : res.streamLength with
      | some n =>
        have hf : framingOf res opts = (.contentLength, n) := by
          simp [framingOf, hstatus, hfile, hprod, hlen]
        dsimp only
        split
        · next h0 => exact .complete ⟨_, [], rfl, hclean, .length _ hbody (hlength hf h0) rfl⟩
        · next h0 => exact .sized _ [] hbody hclean (hlength hf rfl) (Nat.pos_of_ne_zero h0)
      | none =>
        have hf : framingOf res opts =
            (if opts.http10Client then .closeDelimited else .chunked, 0) := by
          simp [framingOf, hstatus, hfile, hprod, hlen]
        have hempty : Headers.empty.Clean := by simp [Headers.Clean, Headers.empty]
        rw [hf] at hdel ⊢
        cases hold : opts.http10Client with
        | true => rw [hold] at hdel; exact .plain _ [] hbody hclean hdel
        | false => rw [hold] at hdel; exact .chunked _ [] hbody hclean hdel ⟨[], rfl⟩ hempty

theorem opening_progress (hp : r.Proper) (hc : r.Clean) :
    Progress r r.opening.1 r.opening.2 closed := by
  cases r with
  | interim =>
    refine .complete ⟨[], [], ?_, by simp, .none (by simp [Reply.bodiless, Reply.status, noBody]) rfl⟩
    simp only [Reply.opening, Reply.status]
    decide
  | failure res opts =>
    obtain ⟨⟨e, detail, rfl⟩, hdate⟩ := hp
    refine .complete ⟨headFields _ opts, _, by rw [Reply.opening, headText_eq]; rfl,
      headFields_clean (errorResponse_clean _ _) hdate, .length _ ?_
        (by rw [filter_delimits_headFields, framingOf_errorResponse]; rfl) rfl⟩
    have hstatus : noBody (statusFor e) = false := by cases e <;> decide
    simpa [Reply.bodiless, Reply.isHead, Reply.status, Session.errorResponse, Response.text]
      using hstatus
  | answer req res opts =>
    have hclean := headFields_clean hc hp
    simp only [Reply.opening]
    split
    · next h =>
      simp only [Bool.and_eq_true, bne_iff_ne, ne_eq] at h
      exact source_progress h.1 h.2 hclean
    · next h =>
      refine .complete ⟨_, [], by rw [headText_eq, List.append_nil]; rfl, hclean, .none ?_ rfl⟩
      simp only [Bool.and_eq_true, bne_iff_ne, ne_eq, not_and_or, not_not] at h
      rcases h with h | h
      · simp [Reply.bodiless, Reply.isHead, h]
      · simp [Reply.bodiless, Reply.status, framingOf_none_iff.mp h]

theorem keeps_progress (htr : srv.CleanTrailers) :
    Transcript.State.Keeps (discipline srv F) (fun r b => r.Proper → r.Clean → r.WellFramed b)
      (fun r b src closed => r.Proper → r.Clean → Progress r b src closed) where
  opens := by
    rintro r b src h hp hc
    rw [show b = r.opening.1 from congrArg Prod.fst h, show src = r.opening.2 from congrArg Prod.snd h]
    exact opening_progress hp hc
  emits _ h he hp hc := (h hp hc).emits htr he
  truncates _ h ht hp hc := (h hp hc).truncates ht
  finished h hp hc := by
    cases h hp hc with
    | complete h => exact h

theorem Progress.wellFramed_or_cutShort (h : Progress r b src closed) :
    r.WellFramed b ∨ r.CutShort b := by
  cases h with
  | complete h => exact .inl h
  | short h => exact .inr h
  | file fields body hbody hclean hdel hpos =>
    exact .inr ⟨fields, body, rfl, hclean, .length _ hbody hdel (by omega)⟩
  | sized fields body hbody hclean hdel hpos =>
    exact .inr ⟨fields, body, rfl, hclean, .length _ hbody hdel (by omega)⟩
  | chunked fields body hbody hclean hdel hchunks _ =>
    exact .inr ⟨fields, body, rfl, hclean, .chunked hbody hdel hchunks⟩
  | plain fields body hbody hclean hdel =>
    exact .inl ⟨fields, body, rfl, hclean, .close hbody hdel⟩

def Intake.Proper (i : Intake σ) : Prop := ∀ r ∈ i.replies, r.Proper

namespace Session

variable {A : Moment ω → Kernel → Prop} {s t : Session σ}

theorem invariant_proper : Invariant srv A fun s => s.intake.Proper := by
  apply invariant_intake
  · simp [Intake.Proper, intake, accepted]
  · intro m k i j _ hi hstep
    have hsay {r : Reply σ} (hr : r.Proper) : ∀ r' ∈ i.replies ++ [r], r'.Proper := by
      intro r' hr'
      rcases List.mem_append.mp hr' with h | h
      · exact hi r' h
      · exact List.mem_singleton.mp h ▸ hr
    cases hstep with
    | interim => exact hsay trivial
    | answer n => exact hsay (m.date_clean n)
    | reject n => exact hsay ⟨⟨_, _, rfl⟩, m.date_clean n⟩
    | _ => exact hi

theorem Open.not_closing (h : Open srv A s) (hout : s.conn.hasOutput = false) :
    s.conn.closeAfterWrite = false := by
  cases h with
  | accepted => rfl
  | drive _ _ _ _ _ hd =>
    obtain ⟨u, _, ⟨hfalse, _⟩ | ⟨hfin, _⟩⟩ := outcome_of_drive hd
    · cases hfalse
    · obtain ⟨rfl, hopen⟩ := finish_eq_true_iff.mp hfin
      exact (hopen.resolve_left (by simp [hout])).1

/-- Every response is delimited as its head says before anything is sent after it. Only the last
one of a connection may be cut short, and then the connection is not left open without
output. -/
theorem framing_agrees (srv : Server ω σ) (htr : srv.CleanTrailers) :
    (∀ t, Seen srv (fun _ _ => True) t → (∀ e ∈ t.log, e.1.Clean) →
      t.sent ++ t.conn.pending = (t.log.map Prod.snd).flatten ∧
        (t.log = [] ∨ ∃ l r b, t.log = l ++ [(r, b)] ∧
          (∀ e ∈ l, e.1.WellFramed e.2 ∧ e.1.closes = false) ∧
          (r.WellFramed b ∨ r.CutShort b))) ∧
      ∀ s, Open srv (fun _ _ => True) s → (∀ e ∈ s.log, e.1.Clean) →
        s.conn.hasOutput = false → ∀ e ∈ s.log, e.1.WellFramed e.2 ∧ e.1.closes = false := by
  have hkeeps := keeps_progress (F := fun _ => True) htr
  constructor
  · intro t ht hclean
    obtain ⟨src, hflat, hentries⟩ := seen_shape (by simp) hkeeps ht
    have hproper := invariant_proper.seen_intake ht
    refine ⟨hflat, ?_⟩
    rcases hentries with ⟨hlog, _, _⟩ | ⟨l, r, b, hlog, hl, hlast, _⟩
    · exact .inl hlog
    · change t.log = _ at hlog
      have hmem {e : Reply σ × Bytes} (he : e ∈ t.log) : e.1.Proper ∧ e.1.Clean :=
        ⟨hproper _ (List.mem_map_of_mem he), hclean e he⟩
      have hr := hmem (e := (r, b)) (by simp [hlog])
      refine .inr ⟨l, r, b, hlog, fun e he => ?_, (hlast hr.1 hr.2).wellFramed_or_cutShort⟩
      have he' := hmem (e := e) (by simp [hlog, he])
      exact ⟨(hl e he).1 he'.1 he'.2, (hl e he).2⟩
  · intro s hs hclean hout e he
    have hproper := invariant_proper.open hs e.1 (List.mem_map_of_mem he)
    have hshape := ((invariant_transcript (by simp) hkeeps).open hs).2
    obtain ⟨hframed, hcl⟩ := hshape.finished hkeeps (source_idle hout) (hs.not_closing hout) e he
    exact ⟨hframed hproper (hclean e he), hcl⟩

/-- A streamed response and one from a file are sent in full. -/
theorem framing_agrees_pipelined : ∃ t, countServer.CleanTrailers ∧
    Open countServer (fun _ _ => True) t ∧
    (t.log.length = 2 ∧ (∀ e ∈ t.log, e.1.Clean) ∧ t.conn.hasOutput = false) ∧
      ∀ e ∈ t.log, e.1.WellFramed e.2 ∧ e.1.closes = false := by
  have htr : countServer.CleanTrailers := by
    rintro n tr more piece tr' next hclean ⟨⟩
    exact hclean
  obtain ⟨t, ht, htest⟩ := exists_of_returns (r := Session.drive
      ((accepted countServer 1).wake true true {} (countKernel (.error .eagain))) countServer
        bareMoment 8)
    (show returns true (fun t => decide (t.log.length = 2 ∧ (∀ e ∈ t.log, e.1.Clean) ∧
      t.conn.hasOutput = false)) _ = true by decide +kernel)
  obtain ⟨hlen, hclean, hout⟩ := of_decide_eq_true htest
  have hopen : Open countServer (fun _ _ => True) t := .drive true true {} (.accepted 1) trivial ht
  exact ⟨t, htr, hopen, ⟨hlen, hclean, hout⟩,
    (framing_agrees countServer htr).2 t hopen hclean hout⟩

end Session

end Httpd
