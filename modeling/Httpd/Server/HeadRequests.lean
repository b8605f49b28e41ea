import Httpd.Server.Answers
import Httpd.Server.Delivery

/-! # Responses to HEAD requests

A dispatched `HEAD` request is answered with a head alone, the head that `GET` would get.
A request that the parser rejects gets the body of the error, whatever its method.
-/

namespace Httpd

open Transcript

variable {ω σ : Type}

/-- No handler can tell the request from the same one with method `GET`. -/
def Router.BlindTo (r : Router ω σ) (req : Request) : Prop :=
  ∀ route ∈ r.routes, ∀ w, route.handler w { req with method := text "GET" } {} =
    route.handler w req {}

theorem Router.dispatchLoop_get {req : Request} {method : Bytes} {w : ω} :
    ∀ {routes : List (Route ω σ)} {allow : Bytes},
      (∀ route ∈ routes, route.handler w { req with method := text "GET" } {} =
        route.handler w req {}) →
      dispatchLoop w { req with method := text "GET" } method routes allow =
        dispatchLoop w req method routes allow
  | [], _, _ => rfl
  | route :: routes, allow, h => by
    obtain ⟨hroute, hroutes⟩ := List.forall_mem_cons.mp h
    simp only [dispatchLoop, hroute]
    rw [dispatchLoop_get hroutes, dispatchLoop_get hroutes]

theorem Router.dispatch_get {r : Router ω σ} {req : Request} (h : r.BlindTo req)
    (hm : req.method = text "HEAD") (w : ω) :
    r.dispatch w { req with method := text "GET" } = r.dispatch w req := by
  have hhead : (text "HEAD" == text "HEAD") = true := beq_self_eq_true _
  have hget : (text "GET" == text "HEAD") = false := by decide
  simp only [dispatch, hm, hhead, hget, Bool.false_eq_true, if_false, if_true]
  exact dispatchLoop_get fun route hr => h route hr w

namespace Reply

def head : Reply σ → Bytes
  | .interim => text "HTTP/1.1 100 Continue\r\n\r\n"
  | .answer _ res opts => headText res opts
  | .failure res opts => headText res opts

/-- The request that a final response is for; a failure is for the one that the parser has
rejected. -/
def requestFor (p : RequestParser) : Reply σ → Option Request
  | .interim => none
  | .answer req _ _ => some req
  | .failure _ _ => some p.req

def isFailure : Reply σ → Bool
  | .failure _ _ => true
  | _ => false

theorem head_answerTo_get {srv : Server ω σ} {req : Request} (h : srv.router.BlindTo req)
    (hm : req.method = text "HEAD") (m : Moment ω) (k : ℕ) :
    (answerTo srv m k { req with method := text "GET" }).head = (answerTo srv m k req).head := by
  unfold answerTo head
  dsimp only
  rw [Router.dispatch_get h hm]
  rfl

end Reply

/-- Until something else is put out, a reply consists of its opening. -/
theorem keeps_opening {srv : Server ω σ} {F : (Fd → Bytes) → Prop} :
    State.Keeps (discipline srv F) (fun r b => r.opening.2 = .idle → b = r.opening.1)
      (fun r b src _ => r.opening.2 = .idle → b = r.opening.1 ∧ src = .idle) where
  opens {m b src} h hidle := by
    have h : (b, src) = m.opening := h
    rw [← h] at hidle ⊢
    exact ⟨rfl, hidle⟩
  emits hsrc h _ hidle := absurd (h hidle).2 hsrc
  truncates hsrc h _ hidle := absurd (h hidle).2 hsrc
  finished h hidle := (h hidle).1

namespace Intake

/-- The failure in the replies is that of the parser, and the answers are those of the server. -/
structure Settled (srv : Server ω σ) (i : Intake σ) : Prop where
  failed : i.parser.failed = true → i.closing = true ∧ ∃ m : Moment ω, ∃ k,
    failureOf m k i.parser ∈ i.replies
  rejected : ∀ r ∈ i.replies, r.isFailure = true → i.parser.failed = true
  answers : ∀ r ∈ i.replies, ∀ req ∈ r.request?, ∃ m k, r = answerTo srv m k req

variable {srv : Server ω σ} {m : Moment ω} {i j : Intake σ}

theorem Settled.not_failed (h : i.Settled srv) (hc : i.closing = false) :
    i.parser.failed = false := by
  rw [Bool.eq_false_iff]
  intro hf
  rw [(h.failed hf).1] at hc
  cases hc

theorem Settled.no_failure (h : i.Settled srv) (hc : i.closing = false) :
    ∀ r ∈ i.replies, r.isFailure = true → False := by
  intro r hr hfail
  have hf := h.rejected r hr hfail
  rw [h.not_failed hc] at hf
  cases hf

theorem Settled.say (h : i.Settled srv) {r : Reply σ} (hc : i.closing = false)
    (hr : r.isFailure = false) (hreq : ∀ req ∈ r.request?, ∃ m k, r = answerTo srv m k req)
    (hj : j.replies = i.replies ++ [r]) (hf : j.parser.failed = false) : j.Settled srv := by
  constructor
  · simp [hf]
  · intro r' hr' hfail
    rw [hj, List.mem_append, List.mem_singleton] at hr'
    rcases hr' with hr' | rfl
    · exact (h.no_failure hc r' hr' hfail).elim
    · rw [hr] at hfail
      cases hfail
  · intro r' hr'
    rw [hj, List.mem_append, List.mem_singleton] at hr'
    rcases hr' with hr' | rfl
    · exact h.answers r' hr'
    · exact hreq

theorem Settled.step (h : i.Settled srv) (hstep : i.Step srv m j) : j.Settled srv := by
  cases hstep with
  | recv => exact ⟨h.failed, h.rejected, h.answers⟩
  | feed hc _ hf _ =>
    exact ⟨by simp [hf], fun r hr hfail => (h.no_failure hc r hr hfail).elim, h.answers⟩
  | interim hc _ _ _ => exact h.say hc rfl (by simp [Reply.request?]) rfl (h.not_failed hc)
  | answer k hc _ _ =>
    refine h.say hc rfl ?_ rfl rfl
    rintro _ ⟨⟩
    exact ⟨m, k, rfl⟩
  | reject k hc _ hf =>
    refine ⟨fun _ => ⟨by simp [Intake.say, failureOf, Reply.closes], m, k, ?_⟩, fun _ _ _ => hf, ?_⟩
    · exact List.mem_append_right _ (List.mem_singleton_self _)
    · intro r hr
      rcases List.mem_append.mp hr with hr | hr
      · exact h.answers r hr
      · rw [List.mem_singleton.mp hr]
        simp [failureOf, Reply.request?]
  | close => exact ⟨fun hf => ⟨rfl, (h.failed hf).2⟩, h.rejected, h.answers⟩

end Intake

namespace Session

variable {srv : Server ω σ} {t : Session σ} {A : Moment ω → Kernel → Prop}

/-- Every response to a `HEAD` request ends with its head. -/
def HeadsBare (t : Session σ) : Prop :=
  ∀ e ∈ t.log, ∀ req ∈ e.1.requestFor t.conn.parser, req.method = text "HEAD" → e.2 = e.1.head

/-- The parser has rejected a request whose request line says `HEAD`. -/
def RejectedHead (t : Session σ) : Prop :=
  t.conn.parser.failed = true ∧ t.conn.parser.req.method = text "HEAD"

instance : DecidablePred (RejectedHead (σ := σ)) := fun t =>
  inferInstanceAs (Decidable (t.conn.parser.failed = true ∧ t.conn.parser.req.method = text "HEAD"))

theorem invariant_settled : Invariant srv A fun s => s.intake.Settled srv :=
  invariant_intake (P := Intake.Settled srv)
    ⟨by simp [intake, accepted, RequestParser.failed], by simp [intake, accepted],
      by simp [intake, accepted]⟩ fun _ h hstep => h.step hstep

theorem seen_settled (ht : Seen srv A t) : t.intake.Settled srv := invariant_settled.seen_intake ht

theorem seen_opening (ht : Seen srv A t) {e : Reply σ × Bytes} (he : e ∈ t.log)
    (hidle : e.1.opening.2 = .idle) : e.2 = e.1.opening.1 := by
  obtain ⟨src, hshape⟩ :=
    seen_shape (F := fun _ => True) (fun _ _ _ _ _ _ => trivial) keeps_opening ht
  exact hshape.forall_mem (P := fun r b => r.opening.2 = .idle → b = r.opening.1) id
    (fun h hidle => (h hidle).1) e he hidle

theorem seen_head_answer (ht : Seen srv A t) {req : Request} {res : Response σ}
    {opts : HeadOptions} {b : Bytes} (he : (.answer req res opts, b) ∈ t.log)
    (hm : req.method = text "HEAD") : b = headText res opts := by
  have hopening : (Reply.answer req res opts).opening = (headText res opts, .idle) := by
    simp [Reply.opening, hm]
  have hb := seen_opening ht he (by rw [hopening])
  rwa [hopening] at hb

theorem errorResponse_body_ne_nil (status : ℕ) (detail : String) :
    (errorResponse status detail : Response σ).body ≠ [] := by
  intro h
  have hlen := congrArg List.length h
  simp [errorResponse, Response.text, text] at hlen

theorem headsBare_iff (ht : Seen srv A t) : t.HeadsBare ↔ ¬ t.RejectedHead := by
  have hset := seen_settled ht
  constructor
  · rintro hbare ⟨hf, hm⟩
    obtain ⟨-, m, k, hmem⟩ := hset.failed hf
    obtain ⟨e, he, hr⟩ := List.mem_map.mp hmem
    have hopen := seen_opening ht he (by rw [hr]; rfl)
    have hhead := hbare e he t.conn.parser.req (by rw [hr]; rfl) hm
    rw [hr] at hopen hhead
    rw [hhead] at hopen
    exact errorResponse_body_ne_nil _ _ (List.self_eq_append_right.mp hopen)
  · rintro hrej ⟨r, b⟩ he req hreq hm
    have hr : r ∈ t.intake.replies := List.mem_map_of_mem he
    cases r with
    | interim => cases hreq
    | answer req' res opts =>
      obtain rfl : req' = req := Option.some.inj hreq
      exact seen_head_answer ht he hm
    | failure res opts =>
      obtain rfl : t.conn.parser.req = req := Option.some.inj hreq
      exact absurd ⟨hset.rejected _ hr rfl, hm⟩ hrej

/-- The responses to `HEAD` are bare exactly while no `HEAD` request is rejected by the parser;
and where no handler looks at the method, they are what the head of `GET` would be. -/
theorem head_bare_iff (srv : Server ω σ) :
    ∀ t, Seen srv (fun _ _ => True) t →
      (t.HeadsBare ↔ ¬ t.RejectedHead) ∧
      ∀ e ∈ t.log, ∀ req ∈ e.1.request?, req.method = text "HEAD" → srv.router.BlindTo req →
        ∃ m k, e.1 = answerTo srv m k req ∧
          e.2 = (answerTo srv m k { req with method := text "GET" }).head := by
  intro t ht
  refine ⟨headsBare_iff ht, ?_⟩
  rintro ⟨r, b⟩ he req hreq hm hblind
  obtain ⟨m, k, rfl⟩ := (seen_settled ht).answers r (List.mem_map_of_mem he) req hreq
  exact ⟨m, k, rfl, by rw [Reply.head_answerTo_get hblind hm]; exact seen_head_answer ht he hm⟩

theorem head_bare_notFound : ∃ t, Seen bareServer (fun _ _ => True) t ∧
    t.received = text "HEAD / HTTP/1.1\r\nHost: x\r\n\r\n" ∧ t.log.length = 1 ∧ t.HeadsBare := by
  obtain ⟨t, hseen, hrec, hlen, hrej⟩ := exists_seen bareServer
    (fun t => t.received = text "HEAD / HTTP/1.1\r\nHost: x\r\n\r\n" ∧ t.log.length = 1 ∧
      ¬ t.RejectedHead)
    { recvs := [.ok (text "HEAD / HTTP/1.1\r\nHost: x\r\n\r\n"), .error .eagain]
      sends := [.ok 1000] }
    bareMoment 6 true (by decide +kernel)
  exact ⟨t, hseen, hrec, hlen, (head_bare_iff bareServer t hseen).1.mpr hrej⟩

/-- A `HEAD` request without a `Host` field is answered with a body. -/
theorem head_bare_noHost : ∃ t, Seen bareServer (fun _ _ => True) t ∧
    t.received = text "HEAD / HTTP/1.1\r\n\r\n" ∧ ¬ t.HeadsBare := by
  obtain ⟨t, hseen, hrec, hrej⟩ := exists_seen bareServer
    (fun t => t.received = text "HEAD / HTTP/1.1\r\n\r\n" ∧ t.RejectedHead)
    { recvs := [.ok (text "HEAD / HTTP/1.1\r\n\r\n"), .error .eagain, .error .eagain]
      sends := [.ok 1000] }
    bareMoment 6 false (by decide +kernel)
  exact ⟨t, hseen, hrec, fun hbare => (headsBare_iff hseen).mp hbare hrej⟩

end Session

end Httpd
