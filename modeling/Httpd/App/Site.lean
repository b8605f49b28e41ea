import Httpd.App.Streams
import Httpd.Parser.Messages
import Httpd.Server.Framing
import Httpd.Server.Sequential

/-! # The site

What the program serves, as a table from requests to pages, and the program as a server of
that table: whatever the pieces in which the requests arrive and the responses leave, a client
receives the pages for its requests, one behind the other. Nothing that a client sends gets from
its request into the framing of a response.
-/

namespace Httpd

open Transcript Producer Routes StaticFiles

/-- A page: its content, and the length that is announced for it if that is known beforehand. -/
structure Page where
  status : ℕ := 200
  mime : Bytes := text "text/plain; charset=utf-8"
  fields : List Field := []
  announced : Option ℕ
  content : Bytes

namespace Page

def fixed (status : ℕ) (content : Bytes)
    (mime : Bytes := text "text/plain; charset=utf-8") : Page :=
  { status := status, mime := mime, announced := some content.length, content := content }

def Whole (page : Page) : Prop := ∀ n ∈ page.announced, page.content.length = n

def framing (page : Page) (http10 : Bool) : Framing × ℕ :=
  match page.announced with
  | some n => (.contentLength, n)
  | none => (if http10 then .closeDelimited else .chunked, 0)

/-- The content as it is transferred. -/
def Carried (page : Page) (http10 : Bool) (wire : Bytes) : Prop :=
  match page.announced, http10 with
  | none, false => ∃ trailers, decodeChunked wire = some (page.content, trailers)
  | _, _ => wire = page.content

/-- The bytes are a response with this page. -/
def Answers (page : Page) (req : Request) (R : Bytes) : Prop :=
  ∃ fields body, R = responseHead page.status fields ++ body ∧ (∀ f ∈ fields, Field.Clean f) ∧
    fields.filter delimits = framingFields (page.framing req.isHttp10) ∧
    (∀ f ∈ (text "Content-Type", page.mime) :: page.fields, f ∈ fields) ∧
    if req.method = text "HEAD" then body = [] else page.Carried req.isHttp10 body

end Page

inductive Resource where
  | index
  | health
  | metrics
  | info
  | echo
  | lines (number : Bytes)
  | letters (number : Bytes)
  | file (path : Bytes)

namespace Resource

def ofPath (path : Bytes) : Option Resource :=
  if path = text "/" then some .index
  else if path = text "/healthz" then some .health
  else if path = text "/metrics" then some .metrics
  else if path = text "/debug/info" then some .info
  else if path = text "/echo" then some .echo
  else if text "/stream/" <+: path then some (.lines (path.drop 8))
  else if text "/bytes/" <+: path then some (.letters (path.drop 7))
  else if text "/static/" <+: path then some (.file (path.drop 8))
  else none

def method : Resource → Bytes
  | echo => text "POST"
  | _ => text "GET"

def allow : Resource → Bytes
  | echo => text "POST"
  | _ => text "GET, HEAD"

def numberPage (path : String) (max : ℕ) (number : Bytes) (page : ℕ → Page) : Page :=
  match parseU64 number with
  | some n => if n ≤ max then page n else .fixed 400 (usage path max).body
  | none => .fixed 400 (usage path max).body

/-- The regular file that a path stands for: its name, itself and its size. -/
def regularFile (t : Tree) (path : Bytes) : Option (Bytes × Fd × ℕ) := do
  let found := locate t (if path.isEmpty then text "index.html" else path)
  let fd ← found.2
  let st ← t.fstat fd
  if st.kind = .regular then some (found.1, fd, st.size) else none

def filePage (root : Option Tree) (files : Fd → Bytes) (path : Bytes) : Page :=
  match root with
  | none => .fixed 404 (text "static root not available\n")
  | some t =>
    match sanitize path with
    | none => .fixed 400 (text "invalid path\n")
    | some out =>
      match regularFile t out with
      | none => .fixed 404 (text "not found\n")
      | some (name, fd, size) =>
        { mime := mimeType name, announced := some size, content := (files fd).take size }

def page (w : World) (files : Fd → Bytes) (req : Request) : Resource → Page
  | index => .fixed 200 kIndex
  | health => .fixed 200 (text "ok\n")
  | metrics => .fixed 200 w.metricsText (text "text/plain; version=0.0.4; charset=utf-8")
  | info => .fixed 200 w.debugInfo (text "application/json")
  | echo => .fixed 200 req.body
      ((req.headers.get (text "Content-Type")).getD (text "application/octet-stream"))
  | lines number => numberPage "/stream/" kMaxStreamChunks number fun n =>
      { fields := [(text "Trailer", text "X-Chunk-Count, X-Content-CRC32")]
        announced := none
        content := streamBody n }
  | letters number => numberPage "/bytes/" kMaxGeneratedBytes number fun n =>
      { mime := text "application/octet-stream"
        announced := some n
        content := Producer.letters 0 n }
  | file path => filePage w.files files path

end Resource

/-- The method is that of the resource; `HEAD` stands for `GET`. -/
def Resource.Takes (r : Resource) (method : Bytes) : Prop :=
  (if method = text "HEAD" then text "GET" else method) = r.method

instance (r : Resource) (method : Bytes) : Decidable (r.Takes method) :=
  inferInstanceAs (Decidable (_ = _))

/-- The page that the site has for a request. -/
def sitePage (w : World) (files : Fd → Bytes) (req : Request) : Page :=
  (Resource.ofPath req.path).elim (.fixed 404 (text "not found\n")) fun r =>
    if r.Takes req.method then r.page w files req
    else { Page.fixed 405 (text "method not allowed\n") with fields := [(text "Allow", r.allow)] }

def siteCloses (w : World) (files : Fd → Bytes) (req : Request) : Bool :=
  !req.keepAlive || req.isHttp10 && (sitePage w files req).announced.isNone

/-- The files are as long as the file system says. -/
def World.Whole (w : World) (files : Fd → Bytes) : Prop :=
  ∀ t ∈ w.files, ∀ fd st, t.fstat fd = some st → st.kind = .regular → st.size ≤ (files fd).length

namespace Resource

def route : Resource → Route World Producer
  | index => ⟨text "GET", text "/", false, fun _ _ _ => .ok (Response.text 200 kIndex)⟩
  | health => ⟨text "GET", text "/healthz", false,
      fun _ _ _ => .ok (Response.text 200 (text "ok\n"))⟩
  | metrics => ⟨text "GET", text "/metrics", false, fun w _ _ =>
      .ok (Response.text 200 w.metricsText (text "text/plain; version=0.0.4; charset=utf-8"))⟩
  | info => ⟨text "GET", text "/debug/info", false, fun w _ _ => .ok (Response.text 200 w.debugInfo
      (text "application/json"))⟩
  | echo => ⟨text "POST", text "/echo", false, Routes.echo⟩
  | lines _ => ⟨text "GET", text "/stream/", true, stream⟩
  | letters _ => ⟨text "GET", text "/bytes/", true, bytes⟩
  | file _ => ⟨text "GET", text "/static/", true, static⟩

theorem route_method (r : Resource) : r.route.method = r.method := by cases r <;> rfl

theorem filter_routes (path : Bytes) :
    installRoutes.routes.filter (·.matches path) = ((ofPath path).map route).toList := by
  unfold ofPath
  split_ifs with h₁ h₂ h₃ h₄ h₅ h₆ h₇ h₈
  · rw [h₁]; rfl
  · rw [h₂]; rfl
  · rw [h₃]; rfl
  · rw [h₄]; rfl
  · rw [h₅]; rfl
  · obtain ⟨d, rfl⟩ := h₆; rfl
  · obtain ⟨d, rfl⟩ := h₇; rfl
  · obtain ⟨d, rfl⟩ := h₈; rfl
  · simp [installRoutes, Router.add, Router.addPrefix, Route.matches, h₁, h₂, h₃, h₄, h₅, h₆, h₇,
      h₈]

end Resource

/-- A request is dispatched to the route of what its path names, if the method is right. -/
theorem dispatch_of_path (w : World) (req : Request) : installRoutes.dispatch w req =
    (Resource.ofPath req.path).elim (Response.text 404 (text "not found\n")) fun r =>
      if r.Takes req.method then r.route.answer w req else Router.refusal r.allow := by
  have hfilter := Resource.filter_routes req.path
  have hinvoked : installRoutes.invoked req =
      ((Resource.ofPath req.path).map Resource.route).toList.find? fun r => r.method ==
        if req.method == text "HEAD" then text "GET" else req.method := by
    simp only [← hfilter, List.find?_filter, Bool.decide_and, Bool.decide_eq_true]
    rfl
  rw [Router.dispatch_eq, hinvoked, Router.methods, hfilter]
  cases Resource.ofPath req.path with
  | none => rfl
  | some r =>
    have hallow : Router.extendAllow [] r.method = r.allow := by cases r <;> rfl
    have htakes : (r.method == if req.method == text "HEAD" then text "GET" else req.method) =
        decide (r.Takes req.method) := by
      rw [Bool.eq_iff_iff, decide_eq_true_iff, beq_iff_eq, Resource.Takes, eq_comm]
      simp only [beq_iff_eq]
    simp only [Option.map_some, Option.toList_some, List.find?_singleton, Resource.route_method,
      htakes, decide_eq_true_eq, List.map_singleton, List.foldl_cons, List.foldl_nil, hallow,
      Option.elim_some]
    split_ifs with h <;> rfl

/-- The response announces the page and has its content as a body. -/
structure Page.ShownBy (limits : ParserLimits) (files : Fd → Bytes) (page : Page)
    (res : Response Producer) : Prop where
  status : res.status = page.status
  fields : res.headers.fields = (text "Content-Type", page.mime) :: page.fields
  framing : ∀ opts, framingOf res opts = page.framing opts.http10Client
  body : page.Whole → ∀ http10, ∃ wire,
    res.Body (appServer limits) files (page.framing http10).1 wire ∧ page.Carried http10 wire

variable {limits : ParserLimits} {files : Fd → Bytes} {w : World} {req : Request}

theorem Page.shownBy_text {status : ℕ} {content mime : Bytes} (hstatus : noBody status = false) :
    (Page.fixed status content mime).ShownBy limits files (Response.text status content mime) where
  status := rfl
  fields := rfl
  framing opts := by
    have hnone : ¬(status / 100 = 1 || status = 204 || status = 304) = true := by
      simpa [noBody] using hstatus
    rw [framingOf, if_neg (by exact hnone)]
    rfl
  body _ http10 := ⟨content, rfl, rfl⟩

theorem Page.shownBy_refusal {allow : Bytes} (h : allow ≠ []) :
    { Page.fixed 405 (text "method not allowed\n") with
      fields := [(text "Allow", allow)] : Page }.ShownBy limits files (Router.refusal allow) := by
  rw [Router.refusal, if_pos (by simpa using h)]
  constructor
  · rfl
  · rfl
  · intro opts
    simp [framingOf, Response.text, Page.framing, Page.fixed]
  · exact fun _ _ => ⟨_, rfl, rfl⟩

theorem callBytes_end {n : ℕ} (hn : n ≤ kMaxGeneratedBytes) (tr : Headers) :
    callBytes n n tr = .returned false [] tr (.bytes n n) := by
  have hmax : kMaxGeneratedBytes = 2 ^ 30 := rfl
  have hbounds := window_in_bounds n n
  have hnext : wrap (n + 0) = n := Nat.mod_eq_of_lt (by omega)
  unfold callBytes
  dsimp only
  rw [wrapSub_of_le le_rfl (by omega), Nat.sub_self, Nat.zero_min, hnext, if_neg (by omega)]
  simp [Slice.slice]

theorem yields_letters (limits : ParserLimits) {sent left n : ℕ}
    (hsum : sent + left = n) (hn : n ≤ kMaxGeneratedBytes) :
    ∃ pieces, Yields (appServer limits) (.bytes sent n) .empty pieces .empty ∧
      pieces.flatten = letters sent left := by
  induction left using Nat.strong_induction_on generalizing sent with
  | h left ih =>
    rcases Nat.eq_zero_or_pos left with rfl | hpos
    · obtain rfl : sent = n := hsum
      exact ⟨[[]], .last (call_bytes.trans (callBytes_end hn _)), rfl⟩
    · have hcall := callBytes_eq (show sent < n by omega) hn .empty
      have hwindow : window sent n = min left kBytesPiece := by
        rw [window, show n - sent = left by omega]
      have hpiece : 0 < kBytesPiece := by decide
      by_cases hmore : sent + window sent n < n
      · have hsum' : sent + window sent n + (left - window sent n) = n := by omega
        obtain ⟨pieces, hy, hflat⟩ := ih (left - window sent n) (by omega) hsum'
        rw [decide_eq_true hmore] at hcall
        refine ⟨letters sent (window sent n) :: pieces, .more (call_bytes.trans hcall) ?_ hy, ?_⟩
        · exact List.ne_nil_of_length_pos (by rw [length_letters]; omega)
        · rw [List.flatten_cons, hflat, ← letters_add, Nat.add_sub_cancel' (by omega)]
      · rw [decide_eq_false hmore] at hcall
        refine ⟨[letters sent (window sent n)], .last (call_bytes.trans hcall), ?_⟩
        rw [List.flatten_singleton, show window sent n = left by omega]

namespace Page

theorem shownBy_usage {path : String} {max : ℕ} :
    (Page.fixed 400 (usage path max).body).ShownBy limits files (usage path max) :=
  shownBy_text rfl

theorem shownBy_number {path : String} {max : ℕ}
    {answer : ℕ → Response Producer → Response Producer} {page : ℕ → Page}
    {number : Bytes} {route : Route World Producer}
    (hroute : route.handler = numbered path max answer)
    (hpath : req.path = text path ++ number)
    (hpage : ∀ n ≤ max, (page n).ShownBy limits files (answer n {})) :
    (Resource.numberPage path max number page).ShownBy limits files (route.answer w req) := by
  unfold Resource.numberPage Route.answer
  rw [hroute, numbered, hpath, substr_append, pure_bind]
  cases parseU64 number with
  | none => exact shownBy_usage
  | some n =>
    dsimp only
    split_ifs with h h' h'
    · omega
    · exact hpage n h
    · exact shownBy_usage
    · omega

theorem shownBy_lines (n : ℕ) (hn : n ≤ kMaxStreamChunks) :
    ShownBy limits files
      { fields := [(text "Trailer", text "X-Chunk-Count, X-Content-CRC32")]
        announced := none
        content := streamBody n } (streamResponse n {}) where
  status := rfl
  fields := rfl
  framing opts := by simp [framingOf, streamResponse, Page.framing]
  body := by
    rintro - http10
    have hy : Yields (appServer limits) (.stream 0 n 0) .empty
        (if n = 0 then [[]] else lines 0 n n) (streamTrailers n) := by
      rw [← sumTo_zero n]
      exact yields_lines (Nat.zero_add n)
    have hflat : (if n = 0 then [[]] else lines 0 n n).flatten = streamBody n := by
      split_ifs with h
      · rw [h]; rfl
      · rfl
    have hwire : Coding.chunked.body (if n = 0 then [[]] else lines 0 n n) (streamTrailers n) =
        Coding.chunked.body (lines 0 n n) (streamTrailers n) := by
      split_ifs with h
      · rw [h]; rfl
      · rfl
    cases http10 with
    | true => exact ⟨streamBody n, ⟨_, _, hy, by simp [streamResponse], hflat.symm⟩, rfl⟩
    | false =>
      refine ⟨_, ⟨_, _, hy, by simp [streamResponse], rfl⟩, streamTrailers n, ?_⟩
      exact (congrArg decodeChunked hwire).trans (decodeChunked_stream hn)

theorem shownBy_letters (n : ℕ) (hn : n ≤ kMaxGeneratedBytes) :
    ShownBy limits files
      { mime := text "application/octet-stream"
        announced := some n
        content := letters 0 n } (bytesResponse n {}) where
  status := rfl
  fields := rfl
  framing opts := by simp [framingOf, bytesResponse, Page.framing]
  body := by
    rintro - http10
    obtain ⟨pieces, hy, hflat⟩ := yields_letters limits (Nat.zero_add n) hn
    refine ⟨_, ⟨pieces, .empty, hy, ?_, hflat.symm⟩, rfl⟩
    rintro _ ⟨⟩
    rw [hflat, length_letters]

theorem shownBy_file {name : Bytes} {fd : Fd} {size : ℕ} :
    ShownBy limits files
      { mime := mimeType name, announced := some size, content := (files fd).take size }
      { headers := Headers.empty.set (text "Content-Type") (mimeType name)
        file := some fd
        fileLength := size } where
  status := rfl
  fields := rfl
  framing opts := by simp [framingOf, Page.framing]
  body hwhole http10 := ⟨_, ⟨hwhole size rfl, List.take_prefix _ _⟩, rfl⟩

theorem shownBy_serve {root : Option Tree} {path : Bytes} :
    (Resource.filePage root files path).ShownBy limits files (serve root path {}) := by
  unfold Resource.filePage serve
  cases root with
  | none => exact shownBy_text rfl
  | some t =>
    cases sanitize path with
    | none => exact shownBy_text rfl
    | some out =>
      dsimp only [Resource.regularFile]
      generalize locate t (if out.isEmpty then text "index.html" else out) = found
      obtain ⟨name, file⟩ := found
      cases file with
      | none => exact shownBy_text rfl
      | some fd =>
        cases hst : t.fstat fd with
        | none =>
          simp only [Option.bind_some, Option.bind_eq_bind, hst]
          exact shownBy_text rfl
        | some st =>
          simp only [Option.bind_some, Option.bind_eq_bind, hst, beq_iff_eq]
          split_ifs with hkind
          · exact shownBy_file
          · exact shownBy_text rfl

end Page

def Resource.tail : Resource → Option Bytes
  | lines number => some number
  | letters number => some number
  | file path => some path
  | _ => none

theorem Resource.tail_of_path {r : Resource} {d : Bytes} (hr : ofPath req.path = some r)
    (ht : r.tail = some d) : req.path = r.route.path ++ d := by
  unfold ofPath at hr
  split_ifs at hr with _ _ _ _ _ h h h <;> cases hr <;> cases ht <;>
    exact (List.prefix_iff_eq_append.mp h).symm

theorem Resource.shownBy_answer {r : Resource} (hr : ofPath req.path = some r) :
    (r.page w files req).ShownBy limits files (r.route.answer w req) := by
  cases r with
  | lines number => exact Page.shownBy_number rfl (tail_of_path hr rfl) Page.shownBy_lines
  | letters number => exact Page.shownBy_number rfl (tail_of_path hr rfl) Page.shownBy_letters
  | file path =>
    have hpath : req.path = text "/static/" ++ path := tail_of_path hr rfl
    have hok : static w req {} = .ok (serve w.files path {}) := by
      rw [static, hpath]
      rfl
    rw [Route.answer, route]
    dsimp only
    rw [hok]
    exact Page.shownBy_serve
  | _ => exact Page.shownBy_text rfl

/-- Every request is answered with the page that the site has for it. -/
theorem shownBy_dispatch (w : World) (req : Request) :
    (sitePage w files req).ShownBy limits files (installRoutes.dispatch w req) := by
  rw [dispatch_of_path, sitePage]
  cases hr : Resource.ofPath req.path with
  | none => exact Page.shownBy_text rfl
  | some r =>
    simp only [Option.elim_some]
    split_ifs with htakes
    · exact Resource.shownBy_answer hr
    · exact Page.shownBy_refusal (by cases r <;> simp [Resource.allow, text])

def kStatuses : List ℕ := [200, 400, 404, 405]

/-- The field can be sent, and `write_head` leaves it where it is. -/
def Field.Sendable (f : Field) : Prop := Field.Clean f ∧ isFramingHeader f.1 = false

structure Page.Proper (page : Page) : Prop where
  status : page.status ∈ kStatuses
  fields : ∀ f ∈ (text "Content-Type", page.mime) :: page.fields, Field.Sendable f

theorem all_ite {p : UInt8 → Bool} {c : Prop} [Decidable c] {a b : Bytes} (ha : a.all p = true)
    (hb : b.all p = true) : (if c then a else b).all p = true := by
  split_ifs
  · exact ha
  · exact hb

theorem sendable_mimeType (path : Bytes) :
    Field.Sendable (text "Content-Type", mimeType path) := by
  refine ⟨.of_all rfl ?_, rfl⟩
  unfold mimeType
  repeat' apply all_ite
  all_goals rfl

theorem sendable_plain : Field.Sendable (text "Content-Type", text "text/plain; charset=utf-8") :=
  ⟨.of_all rfl rfl, rfl⟩

/-- The media type of an echo is a value that has been parsed, so it can be sent. -/
theorem sendable_echo (hreq : req.headers.Clean) : Field.Sendable (text "Content-Type",
    (req.headers.get (text "Content-Type")).getD (text "application/octet-stream")) := by
  cases hget : req.headers.get (text "Content-Type") with
  | none => exact ⟨.of_all rfl rfl, rfl⟩
  | some value => exact ⟨⟨rfl, hreq.get hget⟩, rfl⟩

theorem Page.proper_fixed {status : ℕ} {content mime : Bytes} (hstatus : status ∈ kStatuses)
    (h : Field.Sendable (text "Content-Type", mime)) : (fixed status content mime).Proper :=
  ⟨hstatus, List.forall_mem_singleton.mpr h⟩

theorem Page.proper_plain {status : ℕ} {content : Bytes} (hstatus : status ∈ kStatuses) :
    (fixed status content).Proper :=
  proper_fixed hstatus sendable_plain

theorem Page.proper_and {page : Page} {f : Field} (hstatus : page.status ∈ kStatuses)
    (hmime : page.mime = text "text/plain; charset=utf-8") (hfields : page.fields = [f])
    (hf : Field.Sendable f) : page.Proper := by
  refine ⟨hstatus, ?_⟩
  rw [hmime, hfields]
  exact List.forall_mem_cons.mpr ⟨sendable_plain, List.forall_mem_singleton.mpr hf⟩

namespace Resource

theorem proper_numberPage {path : String} {max : ℕ} {number : Bytes} {page : ℕ → Page}
    (h : ∀ n, (page n).Proper) : (numberPage path max number page).Proper := by
  unfold numberPage
  split
  · split_ifs
    · exact h _
    · exact Page.proper_plain (by decide)
  · exact Page.proper_plain (by decide)

theorem proper_filePage (root : Option Tree) (path : Bytes) :
    (filePage root files path).Proper := by
  unfold filePage
  split
  · exact Page.proper_plain (by decide)
  · split
    · exact Page.proper_plain (by decide)
    · split
      · exact Page.proper_plain (by decide)
      · exact ⟨List.mem_cons_self, List.forall_mem_singleton.mpr (sendable_mimeType _)⟩

theorem proper_page (hreq : req.headers.Clean) (r : Resource) : (r.page w files req).Proper := by
  have hok : 200 ∈ kStatuses := by decide
  cases r with
  | index => exact Page.proper_plain hok
  | health => exact Page.proper_plain hok
  | metrics => exact Page.proper_fixed hok ⟨.of_all rfl rfl, rfl⟩
  | info => exact Page.proper_fixed hok ⟨.of_all rfl rfl, rfl⟩
  | echo => exact Page.proper_fixed hok (sendable_echo hreq)
  | lines number =>
    exact proper_numberPage fun n => Page.proper_and hok rfl rfl ⟨.of_all rfl rfl, rfl⟩
  | letters number =>
    exact proper_numberPage fun n => ⟨hok, List.forall_mem_singleton.mpr ⟨.of_all rfl rfl, rfl⟩⟩
  | file path => exact proper_filePage w.files path

end Resource

theorem proper_sitePage (hreq : req.headers.Clean) (w : World) : (sitePage w files req).Proper := by
  unfold sitePage
  cases Resource.ofPath req.path with
  | none => exact Page.proper_plain (by decide)
  | some r =>
    have hallow : Field.Sendable (text "Allow", r.allow) := by
      cases r <;> exact ⟨.of_all rfl rfl, rfl⟩
    simp only [Option.elim_some]
    split_ifs
    · exact Resource.proper_page hreq r
    · exact Page.proper_and (show 405 ∈ kStatuses by decide) rfl rfl hallow

theorem Page.ShownBy.clean {page : Page} {res : Response Producer}
    (h : page.ShownBy limits files res) (hpage : page.Proper) : res.headers.Clean := by
  rw [Headers.Clean, h.fields]
  exact fun f hf => (hpage.fields f hf).1

theorem clean_digits {v : Bytes} (h : ∀ c ∈ v, ∃ d < 16, c = digitByte d) :
    ∀ c ∈ v, isCtl c = false := by
  intro c hc
  obtain ⟨d, hd, rfl⟩ := h c hc
  exact isCtl_digitByte d hd

theorem cleanTrailers_appServer (limits : ParserLimits) : (appServer limits).CleanTrailers := by
  intro p tr more piece tr' next htr hcall
  cases p with
  | bytes sent n =>
    rw [call_bytes] at hcall
    unfold callBytes at hcall
    dsimp only at hcall
    split at hcall
    · cases hcall
    · cases hcall
      exact htr
  | stream i n crc =>
    rw [call_stream] at hcall
    unfold callStream at hcall
    generalize (if i < n then (line i n, crc32 (line i n) crc, i + 1) else ([], crc, i)) = x
      at hcall
    obtain ⟨out, sum, j⟩ := x
    dsimp only at hcall
    split at hcall
    · cases hcall
      exact htr
    · cases hcall
      apply Headers.Clean.set _ rfl (clean_digits fun c hc => mem_hex08 hc)
      apply htr.set rfl
      apply clean_digits
      intro c hc
      obtain ⟨d, hd, rfl⟩ := mem_appendNumber (by decide) hc
      exact ⟨d, hd.trans (by decide), rfl⟩

namespace RequestParser

variable {p q : RequestParser} {u : Bytes}

theorem Reads.clean (h : p.Reads u q) (hp : p.req.headers.Clean) : q.req.headers.Clean := by
  cases h with
  | requestLine _ _ _ _ hq =>
    obtain ⟨_, _, _, _, _, _, _, _, _, _, _, rfl⟩ := parseRequestLine_ok hq
    exact hp
  | field _ _ _ _ _ hq =>
    obtain ⟨name, value, hsplit, ⟨_, _, rfl⟩ | ⟨_, rfl⟩⟩ := parseFieldLine_ok hq
    · obtain ⟨f, -, rfl, rfl⟩ := splitFieldLine_eq_ok_iff.mp hsplit
      exact hp.add f.name_token fun c hc => f.raw_clean c (mem_of_mem_trimOws hc)
    · exact hp
  | finish _ _ hq =>
    unfold finishHeaders at hq
    split at hq
    · cases hq
    · cases hq
      exact hp
  | data => rwa [takeData_req]
  | chunkSize _ _ _ hq =>
    obtain ⟨_, _, ⟨_, rfl⟩ | ⟨_, _, _, rfl⟩⟩ := parseChunkSize_ok hq <;> exact hp
  | _ => exact hp

theorem feed_clean (h : p.req.headers.Clean) (d : Bytes) : (p.feed d).1.req.headers.Clean :=
  feed_keeps (I := fun p => p.req.headers.Clean) (fun hu => hu.clean)
    (fun hf hp => by rwa [hf.req]) h d

end RequestParser

namespace Session

variable {A : Moment World → Kernel → Prop} {s t : Session Producer}

/-- What has been parsed can be sent, and so can the answers. -/
structure Decent (i : Intake Producer) : Prop where
  parsed : i.parser.req.headers.Clean
  replies : ∀ r ∈ i.replies, r.Proper ∧ r.Clean ∧ r.status ≠ 500

theorem Decent.say {i : Intake Producer} {r : Reply Producer} (h : Decent i)
    (hr : r.Proper ∧ r.Clean ∧ r.status ≠ 500) : Decent (i.say r) := by
  refine ⟨h.parsed, fun r' hr' => ?_⟩
  rcases List.mem_append.mp hr' with hr' | hr'
  · exact h.replies r' hr'
  · exact List.mem_singleton.mp hr' ▸ hr

theorem Decent.feed {i : Intake Producer} (h : Decent i) : Decent i.feed :=
  ⟨RequestParser.feed_clean h.parsed _, h.replies⟩

theorem invariant_decent : Invariant (appServer limits) A fun s => Decent s.intake := by
  have hempty : Headers.empty.Clean := fun f hf => by cases hf
  apply invariant_intake
  · exact ⟨hempty, by simp [intake, accepted]⟩
  · rintro m k i j - hi hstep
    cases hstep with
    | recv => exact ⟨hi.parsed, hi.replies⟩
    | feed => exact hi.feed
    | interim => exact hi.say ⟨trivial, trivial, by decide⟩
    | answer n =>
      have hpage : (sitePage (m.world n) (fun _ => []) i.feed.parser.req).Proper :=
        proper_sitePage hi.feed.parsed (m.world n)
      have hshown : (sitePage _ (fun _ => []) _).ShownBy limits _ _ :=
        shownBy_dispatch (m.world n) i.feed.parser.req
      have hreset : Decent i.feed.reset := ⟨hempty, hi.feed.replies⟩
      apply hreset.say
      refine ⟨m.date_clean n, hshown.clean hpage, fun h => ?_⟩
      have hstatus := hpage.status
      rw [← hshown.status, show (installRoutes.dispatch _ _).status = 500 from h] at hstatus
      exact absurd hstatus (by decide)
    | reject n =>
      apply hi.feed.say
      refine ⟨⟨⟨_, _, rfl⟩, m.date_clean n⟩, trivial, ?_⟩
      change statusFor _ ≠ 500
      cases i.feed.parser.error <;> decide
    | close => exact ⟨hi.parsed, hi.replies⟩

/-- Whatever clients send and whatever the program looks at: every response of the program is
delimited as its head says before anything is sent after it, with fields that can be sent. Only
the last one of a connection may be cut short, and then the connection is not left open without
output. No handler of the program throws. -/
theorem program_well_framed (limits : ParserLimits) :
    (∀ t, Seen (appServer limits) (fun _ _ => True) t →
      t.sent ++ t.conn.pending = (t.log.map Prod.snd).flatten ∧
        (∀ e ∈ t.log, e.1.status ≠ 500) ∧
        (t.log = [] ∨ ∃ l r b, t.log = l ++ [(r, b)] ∧
          (∀ e ∈ l, e.1.WellFramed e.2 ∧ e.1.closes = false) ∧
          (r.WellFramed b ∨ r.CutShort b))) ∧
      ∀ s, Open (appServer limits) (fun _ _ => True) s → s.conn.hasOutput = false →
        ∀ e ∈ s.log, e.1.WellFramed e.2 ∧ e.1.closes = false := by
  have hkeeps := keeps_progress (F := fun _ => True) (cleanTrailers_appServer limits)
  constructor
  · intro t ht
    have hdecent : Decent t.intake := invariant_decent.seen_intake ht
    have hmem (e : Reply Producer × Bytes) (he : e ∈ t.log) := hdecent.replies e.1
      (List.mem_map_of_mem he)
    obtain ⟨src, hflat, hentries⟩ := seen_shape (by simp) hkeeps ht
    refine ⟨hflat, fun e he => (hmem e he).2.2, ?_⟩
    rcases hentries with ⟨hlog, _, _⟩ | ⟨l, r, b, hlog, hl, hlast, _⟩
    · exact .inl hlog
    · change t.log = _ at hlog
      obtain ⟨hproper, hclean, -⟩ := hmem (r, b) (by simp [hlog])
      refine .inr ⟨l, r, b, hlog, fun e he => ?_, (hlast hproper hclean).wellFramed_or_cutShort⟩
      obtain ⟨hproper, hclean, -⟩ := hmem e (by simp [hlog, he])
      exact ⟨(hl e he).1 hproper hclean, (hl e he).2⟩
  · intro s hs hout e he
    have hdecent : Decent s.intake := invariant_decent.open hs
    obtain ⟨hproper, hclean, -⟩ := hdecent.replies e.1 (List.mem_map_of_mem he)
    have hshape := ((invariant_transcript (by simp) hkeeps).open hs).2
    obtain ⟨hframed, hcl⟩ := hshape.finished hkeeps (source_idle hout) (hs.not_closing hout) e he
    exact ⟨hframed hproper hclean, hcl⟩

/-- A client chooses the media type of its echo. -/
theorem program_well_framed_echo : ∃ t, Seen (appServer {}) (fun _ _ => True) t ∧
    t.log.length = 1 ∧ ∀ e ∈ t.log, e.1.WellFramed e.2 ∨ e.1.CutShort e.2 := by
  obtain ⟨t, hdrive, htest⟩ := exists_of_returns (r := drive
    ((accepted (appServer {}) 1).wake true true {}
      { recvs := [.ok (text ("POST /echo HTTP/1.1\r\nHost: x\r\nContent-Type: a/b\r\n" ++
          "Content-Length: 2\r\n\r\nhi")), .error .eagain]
        sends := [.ok 1000] }) (appServer {}) bareWorld 8)
    (show returns true (fun t => t.log.length == 1) _ = true by decide +kernel)
  have ht : Seen (appServer {}) (fun _ _ => True) t :=
    .returned true true {} (.accepted 1) trivial hdrive
  have hlen : t.log.length = 1 := beq_iff_eq.mp htest
  refine ⟨t, ht, hlen, ?_⟩
  obtain ⟨-, -, hlog | ⟨l, r, b, hlog, hl, hlast⟩⟩ := (program_well_framed {}).1 t ht
  · simp [hlog]
  · intro e he
    rw [hlog, List.mem_append, List.mem_singleton] at he
    rcases he with he | rfl
    · exact .inl (hl e he).1
    · exact hlast

end Session

theorem Page.whole_fixed (status : ℕ) (content mime : Bytes) :
    (fixed status content mime).Whole := by
  rintro _ ⟨⟩
  rfl

theorem Resource.whole_numberPage {path : String} {max : ℕ} {number : Bytes} {page : ℕ → Page}
    (h : ∀ n, (page n).Whole) : (numberPage path max number page).Whole := by
  unfold numberPage
  split
  · split_ifs
    · exact h _
    · exact Page.whole_fixed _ _ _
  · exact Page.whole_fixed _ _ _

theorem Resource.whole_filePage (hw : w.Whole files) (path : Bytes) :
    (filePage w.files files path).Whole := by
  unfold filePage
  split
  · exact Page.whole_fixed _ _ _
  · next t ht =>
    split
    · exact Page.whole_fixed _ _ _
    · split
      · exact Page.whole_fixed _ _ _
      · next name fd size hfile =>
        simp only [regularFile, Option.bind_eq_bind, Option.bind_eq_some_iff,
          Option.ite_none_right_eq_some] at hfile
        obtain ⟨_, -, st, hst, hkind, heq⟩ := hfile
        cases heq
        rintro _ ⟨⟩
        exact List.length_take_of_le (hw t ht fd st hst hkind)

theorem whole_sitePage (hw : w.Whole files) (req : Request) : (sitePage w files req).Whole := by
  unfold sitePage
  cases Resource.ofPath req.path with
  | none => exact Page.whole_fixed _ _ _
  | some r =>
    simp only [Option.elim_some]
    split_ifs
    · cases r with
      | lines number =>
        apply Resource.whole_numberPage
        rintro n _ ⟨⟩
      | letters number =>
        apply Resource.whole_numberPage
        rintro n _ ⟨⟩
        exact length_letters 0 n
      | file path => exact Resource.whole_filePage hw path
      | _ => exact Page.whole_fixed _ _ _
    · rintro _ ⟨⟩
      rfl

variable {date : Bytes}

theorem closes_sequentialAnswer (files : Fd → Bytes) (req : Request) :
    (sequentialAnswer (appServer limits) w date req).closes = siteCloses w files req := by
  have hshown : (sitePage w files req).ShownBy limits files _ := shownBy_dispatch w req
  have hframing := hshown.framing
    { keepAlive := req.keepAlive, http10Client := req.isHttp10, date := date }
  change (!req.keepAlive || (framingOf (installRoutes.dispatch w req) _).1 == .closeDelimited) = _
  rw [hframing, siteCloses, Page.framing]
  cases (sitePage w files req).announced with
  | some n => simp
  | none => cases req.isHttp10 <;> simp

namespace Page

variable {page : Page} {res : Response Producer} {opts : HeadOptions}

theorem framing_ne_none (page : Page) (http10 : Bool) : (page.framing http10).1 ≠ .none := by
  unfold framing
  split
  · simp
  · split_ifs <;> simp

theorem ShownBy.answers (h : page.ShownBy limits files res) (hpage : page.Proper)
    (hopts : opts.http10Client = req.isHttp10) (hdate : ∀ c ∈ opts.date, isCtl c = false)
    {body : Bytes}
    (hbody : if req.method = text "HEAD" then body = [] else page.Carried req.isHttp10 body) :
    page.Answers req (headText res opts ++ body) := by
  refine ⟨headFields res opts, body, ?_, headFields_clean (h.clean hpage) hdate, ?_, ?_, hbody⟩
  · rw [headText_eq, h.status]
  · rw [filter_delimits_headFields, h.framing, hopts]
  · intro f hf
    have hmem : f ∈ res.headers.fields.filter fun f => !isFramingHeader f.1 := by
      rw [List.mem_filter, h.fields, (hpage.fields f hf).2]
      exact ⟨hf, rfl⟩
    simp only [headFields, List.mem_append]
    exact .inl (.inl (.inl (.inl hmem)))

theorem ShownBy.exists_serializes (h : page.ShownBy limits files res) (hpage : page.Proper)
    (hwhole : page.Whole) (hopts : opts.http10Client = req.isHttp10)
    (hdate : ∀ c ∈ opts.date, isCtl c = false) :
    ∃ R, (Reply.answer req res opts).Serializes (appServer limits) files R ∧
      page.Answers req R := by
  obtain ⟨wire, hbody, hcarried⟩ := h.body hwhole req.isHttp10
  by_cases hhead : req.method = text "HEAD"
  · refine ⟨headText res opts ++ [], ?_, h.answers hpage hopts hdate (by rw [if_pos hhead])⟩
    rw [List.append_nil, Reply.Serializes, if_pos (.inl hhead)]
  · refine ⟨headText res opts ++ wire, ?_, h.answers hpage hopts hdate (by rwa [if_neg hhead])⟩
    have hframing : (framingOf res opts).1 = (page.framing req.isHttp10).1 := by
      rw [h.framing, hopts]
    rw [Reply.Serializes, hframing, if_neg (not_or.mpr ⟨hhead, page.framing_ne_none _⟩)]
    exact ⟨wire, rfl, hbody⟩

end Page

theorem Message.clean (msg : Message limits) : msg.request.headers.Clean := by
  have hempty : Headers.empty.Clean := fun f hf => by cases hf
  have hheaders : msg.request.headers = foldFields .empty msg.head.fields := by
    unfold Message.request
    cases msg.content <;> rfl
  rw [hheaders]
  exact hempty.foldFields _

theorem sequentialReplies_messages (hl : limits.maxBodyBytes < 2 ^ 63) (files : Fd → Bytes)
    (msgs : List (Message limits)) :
    sequentialReplies (appServer limits) w date (msgs.map Message.bytes).flatten =
      (upToClose (siteCloses w files) (msgs.map Message.request)).map
        (sequentialAnswer (appServer limits) w date) := by
  have hsrv : (appServer limits).limits = limits := rfl
  rw [sequentialReplies, parseAll_messages hsrv hl, repliesOf,
    if_neg (by simp [RequestParser.failed]), List.append_nil, upToClose_map]
  simp only [closes_sequentialAnswer files]

/-- The client of the program receives the pages of the site for its requests, up to the first
behind which the connection is closed: at every moment a part of them from the front on, and all
when the output is drained. -/
theorem site_served (hw : w.Whole files) (hdate : ∀ c ∈ date, isCtl c = false)
    (hl : limits.NoWrap) (hmax : limits.maxBodyBytes < 2 ^ 63) {msgs : List (Message limits)}
    (hexpect : ∀ msg ∈ msgs, msg.request.headers.has (text "Expect") = false) :
    ∃ Rs, List.Forall₂ (fun req R => (sitePage w files req).Answers req R)
        (upToClose (siteCloses w files) (msgs.map Message.request)) Rs ∧
      (∀ t, Session.Seen (appServer limits) (Steady w date files) t →
        t.received <+: (msgs.map Message.bytes).flatten → t.sent <+: Rs.flatten) ∧
      ∀ (s t : Session Producer) (m : Moment World) (k : Kernel) (readable writable : Bool)
        (metrics : WorkerMetrics) (fuel : ℕ) (ok : Bool),
        Session.Open (appServer limits) (Steady w date files) s → Steady w date files m k →
        (s.wake readable writable metrics k).drive (appServer limits) m fuel = .ok (ok, t) →
        t.received <+: (msgs.map Message.bytes).flatten → t.conn.hasOutput = false →
        t.conn.closeAfterWrite = true ∨ t.received = (msgs.map Message.bytes).flatten ∧
          (ok = true ∨ t.conn.peerClosed = true) →
        t.sent = Rs.flatten := by
  have hx : NoExpect (appServer limits) (msgs.map Message.bytes).flatten := by
    have hsrv : (appServer limits).limits = limits := rfl
    rw [NoExpect, parseAll_messages hsrv hmax]
    simpa using hexpect
  have hpages : ∀ req ∈ upToClose (siteCloses w files) (msgs.map Message.request), ∃ R,
      (sequentialAnswer (appServer limits) w date req).Serializes (appServer limits) files R ∧
        (sitePage w files req).Answers req R := by
    intro req hreq
    obtain ⟨msg, -, rfl⟩ := List.mem_map.mp ((upToClose_isPrefix _).subset hreq)
    exact (shownBy_dispatch w _).exists_serializes (proper_sitePage msg.clean w)
      (whole_sitePage hw _) rfl hdate
  obtain ⟨Rs, hRs⟩ := exists_forall₂ hpages
  have hser : List.Forall₂ (Reply.Serializes (appServer limits) files)
      (sequentialReplies (appServer limits) w date (msgs.map Message.bytes).flatten) Rs := by
    rw [sequentialReplies_messages hmax files, List.forall₂_map_left_iff]
    exact hRs.imp fun _ _ h => h.1
  refine ⟨Rs, hRs.imp fun _ _ h => h.2, fun t ht hr => ?_, ?_⟩
  · exact Session.sent_prefix_of_seen hl hx hser ht hr
  · intro s t m k readable writable metrics fuel ok hs hm hd hr hout hend
    exact Session.sent_eq_of_drive hl hx hser hs hm hd hr hout hend

def fileMoment : Moment World :=
  { bareWorld with world := fun _ => ⟨[], [], some ⟨fun _ => some 7, fun _ => some ⟨.regular, 3⟩⟩⟩ }

/-- A file is served. -/
theorem site_served_file : ∃ (msg : Message {}) (t : Session Producer),
    Session.Seen (appServer {}) (Steady (fileMoment.world 0) [] fun _ => text "abc") t ∧
    t.received = msg.bytes ∧
    (sitePage (fileMoment.world 0) (fun _ => text "abc") msg.request).content = text "abc" ∧
    (sitePage (fileMoment.world 0) (fun _ => text "abc") msg.request).Answers msg.request
      t.sent := by
  obtain ⟨x, hx⟩ : ∃ x, x = text "GET /static/a.txt HTTP/1.1\r\nHost: x\r\n\r\n" := ⟨_, rfl⟩
  have hused : (RequestParser.feed {} x).2 = x.length := by rw [hx]; decide +kernel
  have hdone : (RequestParser.feed {} x).1.done = true := by rw [hx]; decide +kernel
  obtain ⟨msg, -, hbytes, hreq⟩ := (RequestParser.finishes_iff_message (l := {}) (by decide)).mp
    (⟨hdone, rfl, hused⟩ : RequestParser.Finishes {} x _ _)
  rw [List.take_length] at hbytes
  have hsteady : Steady (fileMoment.world 0) [] (fun _ => text "abc") fileMoment
      { recvs := [.ok x, .error .eagain]
        sends := [.ok 1000]
        sendfiles := [.ok (1000, fun _ => text "abc")] } := by
    refine ⟨rfl, fun _ => rfl, fun _ => rfl, ?_⟩
    simp
  obtain ⟨t, hdrive, htest⟩ := Session.exists_of_returns (r := Session.drive
    ((Session.accepted (appServer {}) 1).wake true true {}
      { recvs := [.ok x, .error .eagain]
        sends := [.ok 1000]
        sendfiles := [.ok (1000, fun _ => text "abc")] }) (appServer {}) fileMoment 8)
    (show Session.returns true (fun t => decide (t.received = x ∧ t.conn.hasOutput = false)) _ =
      true by rw [hx]; decide +kernel)
  obtain ⟨hreceived, hout⟩ := of_decide_eq_true htest
  have hw : (fileMoment.world 0).Whole fun _ => text "abc" := by
    rintro _ ⟨⟩ fd _ ⟨⟩ -
    exact le_rfl
  have hexpect : ∀ msg' ∈ [msg], msg'.request.headers.has (text "Expect") = false := by
    rw [List.forall_mem_singleton, hreq, hx]
    decide +kernel
  obtain ⟨Rs, hRs, -, hserved⟩ := site_served hw (fun c (hc : c ∈ []) => by cases hc) (by decide)
    (by decide) hexpect
  have hone : upToClose (siteCloses (fileMoment.world 0) fun _ => text "abc")
      ([msg].map Message.request) = [msg.request] := by
    simp [upToClose]
  rw [hone] at hRs
  obtain ⟨R, _, hanswers, hnil, rfl⟩ := List.forall₂_cons_left_iff.mp hRs
  cases hnil
  have hflat : ([msg].map Message.bytes).flatten = x := by simp [hbytes]
  have hsent : t.sent = [R].flatten := by
    rw [hflat] at hserved
    exact hserved _ t _ _ _ _ _ _ _ (.accepted 1) hsteady hdrive (hreceived ▸ List.prefix_rfl) hout
      (.inr ⟨hreceived, .inl rfl⟩)
  refine ⟨msg, t, .returned true true {} (.accepted 1) hsteady hdrive, hreceived.trans hbytes.symm,
    ?_, ?_⟩
  · rw [hreq, hx]
    decide +kernel
  · rw [hsent, List.flatten_singleton]
    exact hanswers

end Httpd
