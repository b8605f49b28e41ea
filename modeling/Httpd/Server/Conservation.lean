import Httpd.Server.Answers
import Httpd.Server.Worker

/-! # Conservation of the metrics

Between steps the counters of a worker agree with each other and with what its connections
have done. Every step of a connection changes the counters and the history of the connection
by the same amounts, so that nothing has to be known of a call of `drive` but that it takes
steps.
-/

namespace Httpd

open Relation

variable {ω σ : Type}

namespace WorkerMetrics

variable (w : WorkerMetrics)

structure Shaped : Prop where
  classes : w.responsesByClass.length = 6
  latencies : w.latencyBuckets.length = kLatencyBuckets

def responses : ℕ := (w.responsesByClass.drop 1).sum

def latencies : ℕ := w.latencyBuckets.sum

variable {w} {status : ℕ}

theorem recordStatus_responses (hw : w.Shaped) (h : 100 ≤ status ∧ status ≤ 599) :
    (w.recordStatus status).responses = w.responses + 1 := by
  obtain ⟨i, hi⟩ : ∃ i, status / 100 = i + 1 := ⟨status / 100 - 1, by omega⟩
  have hclass : 1 ≤ status / 100 ∧ status / 100 ≤ 5 := by omega
  have hlen : i < (w.responsesByClass.drop 1).length := by
    rw [List.length_drop, hw.classes]
    omega
  unfold recordStatus
  dsimp only
  rw [dif_pos hclass]
  change ((bumpAt 1 w.responsesByClass (status / 100)).drop 1).sum = _
  rw [hi, drop_one_bumpAt, sum_bumpAt hlen]
  rfl

theorem recordStatus_latencies (w : WorkerMetrics) (status : ℕ) :
    (w.recordStatus status).latencies = w.latencies := by
  obtain ⟨classes, trace, h⟩ := w.exists_recordStatus status
  rw [h]
  rfl

theorem Shaped.bump (h : w.Shaped) (c : Counter) (n : ℕ) : (w.bump c n).Shaped := by
  cases c <;> exact ⟨by simp [WorkerMetrics.bump, h.classes],
    by simp [WorkerMetrics.bump, h.latencies]⟩

theorem Shaped.recordStatus (h : w.Shaped) (status : ℕ) : (w.recordStatus status).Shaped := by
  unfold WorkerMetrics.recordStatus
  dsimp only
  split
  · exact (h.bump _ _).bump _ _
  · exact h.bump _ _

theorem Shaped.observeLatencyUs (h : w.Shaped) (us : ℕ) : (w.observeLatencyUs us).Shaped :=
  (h.bump _ _).bump _ _

theorem observeLatencyUs_latencies (h : w.Shaped) (us : ℕ) :
    (w.observeLatencyUs us).latencies = w.latencies + 1 := by
  apply sum_bumpAt
  rw [h.latencies]
  exact bucket_lt us

/-- The counts of connections, which `drive` leaves alone. -/
def connections (w : WorkerMetrics) : ℕ × ℕ × ℕ :=
  (w.connectionsAccepted, w.connectionsClosed, w.connectionsTimedOut)

theorem connections_observeLatencyUs (w : WorkerMetrics) (us : ℕ) :
    (w.observeLatencyUs us).connections = w.connections := rfl

theorem connections_recordStatus (w : WorkerMetrics) (status : ℕ) :
    (w.recordStatus status).connections = w.connections := by
  obtain ⟨classes, trace, h⟩ := w.exists_recordStatus status
  rw [h]
  rfl

end WorkerMetrics

/-- Handlers set statuses of three digits, from 100 to 599. -/
def Server.ValidStatuses (srv : Server ω σ) : Prop :=
  ∀ route ∈ srv.router.routes, ∀ w req res, route.handler w req {} = .ok res →
    100 ≤ res.status ∧ res.status ≤ 599

theorem Router.dispatchLoop_status {w : ω} {req : Request} {method : Bytes} :
    ∀ {routes : List (Route ω σ)} {allow : Bytes},
      (∀ route ∈ routes, ∀ w req res, route.handler w req {} = .ok res →
        100 ≤ res.status ∧ res.status ≤ 599) →
      100 ≤ (dispatchLoop w req method routes allow).status ∧
        (dispatchLoop w req method routes allow).status ≤ 599
  | [], allow, _ => by
    unfold dispatchLoop
    split <;> simp [Response.text]
  | route :: routes, allow, h => by
    obtain ⟨hroute, hroutes⟩ := List.forall_mem_cons.mp h
    rw [dispatchLoop]
    cases (if route.byPrefix then route.path.isPrefixOf req.path else req.path == route.path) with
    | false => exact dispatchLoop_status hroutes
    | true =>
      cases route.method == method with
      | false => exact dispatchLoop_status hroutes
      | true =>
        cases hres : route.handler w req {} with
        | ok res => exact hroute w req res hres
        | error what => simp [Response.text]

theorem statusFor_valid (e : ParseError) : 100 ≤ statusFor e ∧ statusFor e ≤ 599 := by
  cases e <;> decide

namespace Session

variable {srv : Server ω σ} {m : Moment ω} {s t u : Session σ}

def dispatched (s : Session σ) : ℕ := s.intake.requests.length

/-- The counters and the history have changed by the same amounts. -/
structure Balanced (s t : Session σ) : Prop where
  shaped : s.metrics.Shaped → t.metrics.Shaped
  requests : t.metrics.requests + s.metrics.parseErrors + s.dispatched =
    s.metrics.requests + t.metrics.parseErrors + t.dispatched
  responses : s.metrics.Shaped →
    t.metrics.responses + s.metrics.requests = s.metrics.responses + t.metrics.requests
  latencies : s.metrics.Shaped →
    t.metrics.latencies + s.metrics.requests = s.metrics.latencies + t.metrics.requests
  sent : t.metrics.bytesSent + s.sent.length = s.metrics.bytesSent + t.sent.length
  sendfile : t.metrics.bytesSendfile + s.metrics.bytesSent ≤
    s.metrics.bytesSendfile + t.metrics.bytesSent

theorem Balanced.of_frame (hm : t.metrics = s.metrics) (hsent : t.sent = s.sent)
    (hi : t.intake.requests = s.intake.requests) : Balanced s t := by
  have hd : t.dispatched = s.dispatched := congrArg List.length hi
  constructor <;> simp [hm, hsent, hd]

theorem Balanced.trans (h : Balanced s t) (h' : Balanced t u) : Balanced s u where
  shaped hs := h'.shaped (h.shaped hs)
  requests := by have := h.requests; have := h'.requests; omega
  responses hs := by have := h.responses hs; have := h'.responses (h.shaped hs); omega
  latencies hs := by have := h.latencies hs; have := h'.latencies (h.shaped hs); omega
  sent := by have := h.sent; have := h'.sent; omega
  sendfile := by have := h.sendfile; have := h'.sendfile; omega

theorem Balanced.of_record {status us : ℕ} {trace : List (Counter × ℕ)} (errors : ℕ)
    (hstatus : 100 ≤ status ∧ status ≤ 599) (hm : t.metrics = ({ s.metrics with
      parseErrors := s.metrics.parseErrors + errors
      trace := trace }.recordStatus status).observeLatencyUs us)
    (hsent : t.sent = s.sent) (hd : t.dispatched + errors = s.dispatched + 1) : Balanced s t := by
  have hcount {w : WorkerMetrics} (hw : w.Shaped) :
      ((w.recordStatus status).observeLatencyUs us).responses = w.responses + 1 ∧
        ((w.recordStatus status).observeLatencyUs us).latencies = w.latencies + 1 :=
    ⟨WorkerMetrics.recordStatus_responses hw hstatus, by
      rw [WorkerMetrics.observeLatencyUs_latencies (hw.recordStatus status) us,
        WorkerMetrics.recordStatus_latencies]⟩
  have hshaped (hs : s.metrics.Shaped) : WorkerMetrics.Shaped { s.metrics with
      parseErrors := s.metrics.parseErrors + errors
      trace := trace } := ⟨hs.classes, hs.latencies⟩
  obtain ⟨classes, trace', hrec⟩ := WorkerMetrics.exists_recordStatus { s.metrics with
    parseErrors := s.metrics.parseErrors + errors
    trace := trace } status
  constructor
  case shaped =>
    intro hs
    rw [hm]
    exact ((hshaped hs).recordStatus status).observeLatencyUs us
  case requests =>
    rw [hm, hrec]
    change s.metrics.requests + 1 + _ + _ = _ + (s.metrics.parseErrors + errors) + _
    omega
  case responses =>
    intro hs
    rw [hm, (hcount (hshaped hs)).1, hrec]
    change s.metrics.responses + 1 + _ = _ + (s.metrics.requests + 1)
    omega
  case latencies =>
    intro hs
    rw [hm, (hcount (hshaped hs)).2, hrec]
    change s.metrics.latencies + 1 + _ = _ + (s.metrics.requests + 1)
    omega
  case sent => rw [hm, hsent, hrec]; rfl
  case sendfile => rw [hm, hrec]; exact le_rfl

theorem recordResponse_metrics (h : s.conn.requestStartUs ≠ 0) (status : ℕ) :
    ∃ us, (s.recordResponse m status).metrics =
      (s.metrics.recordStatus status).observeLatencyUs us := by
  refine ⟨elapsed (m.monoUs s.metrics.requests) s.conn.requestStartUs, ?_⟩
  unfold recordResponse
  dsimp only
  rw [if_neg h]

theorem installBody_requestStartUs (c : Connection σ) (res : Response σ) (f : Framing) :
    (installBody c res f).requestStartUs = c.requestStartUs := by
  unfold installBody; dsimp only; repeat' split
  all_goals rfl

theorem dispatchNext_balanced (hsrv : srv.ValidStatuses) (h : s.conn.requestStartUs ≠ 0) :
    Balanced s (s.dispatchNext srv m) := by
  have hd : (s.dispatchNext srv m).dispatched = s.dispatched + 1 := by
    unfold dispatched
    rw [dispatchNext_intake, Intake.requests_say]
    simp [answerTo, Reply.request?, Intake.reset, Intake.requests]
  obtain ⟨us, hus⟩ : ∃ us, (s.dispatchNext srv m).metrics = (s.metrics.recordStatus
      (srv.router.dispatch (m.world s.metrics.requests) s.conn.parser.req).status).observeLatencyUs
        us := by
    unfold dispatchNext dispatch
    dsimp only [say]
    split
    · exact recordResponse_metrics (by rw [installBody_requestStartUs]; exact h) _
    · exact recordResponse_metrics h _
  exact .of_record 0 (Router.dispatchLoop_status hsrv) hus rfl hd

theorem parseError_balanced (h : s.conn.requestStartUs ≠ 0) : Balanced s (s.parseError m) := by
  have hd : (s.parseError m).dispatched = s.dispatched := by
    unfold dispatched
    rw [parseError_intake, Intake.requests_say]
    simp [failureOf, Reply.request?]
  obtain ⟨us, hus⟩ : ∃ us, (s.parseError m).metrics = ((s.metrics.bump .parseErrors).recordStatus
      (statusFor s.conn.parser.error)).observeLatencyUs us := by
    unfold parseError queueError
    exact recordResponse_metrics (by exact h) _
  exact .of_record 1 (statusFor_valid _) hus rfl (by rw [hd])

theorem feedInput_started (hm : m.nowUs ≠ 0) : (s.feedInput m).conn.requestStartUs ≠ 0 := by
  unfold feedInput
  dsimp only
  split
  · exact hm
  · assumption

/-- What the counters and the bytes sent are after a step that does not touch them. -/
def accounts (s : Session σ) : WorkerMetrics × Bytes := (s.metrics, s.sent)

@[simp] theorem takePiece_accounts (piece : Bytes) : (s.takePiece piece).accounts = s.accounts := by
  unfold takePiece consumeStream; split <;> rfl

theorem refills_accounts {x y : Session σ × Bool} (h : ReflTransGen (Refill srv) x y) :
    y.1.accounts = x.1.accounts :=
  refills_frame (fun _ _ _ piece => takePiece_accounts piece) h

@[simp] theorem finishStream_accounts : s.finishStream.accounts = s.accounts := by
  unfold finishStream; dsimp only; split <;> rfl

theorem Balanced.of_accounts (h : t.accounts = s.accounts)
    (hi : t.intake.requests = s.intake.requests) : Balanced s t :=
  .of_frame (congrArg Prod.fst h) (congrArg Prod.snd h) hi

theorem Balanced.of_sent {d : Bytes} {n : ℕ} (hn : n ≤ d.length)
    (hm : ∃ trace, t.metrics = { s.metrics with
      bytesSent := s.metrics.bytesSent + d.length
      bytesSendfile := s.metrics.bytesSendfile + n
      trace := trace })
    (hsent : t.sent = s.sent ++ d) (hi : t.intake = s.intake) : Balanced s t := by
  obtain ⟨trace, hm⟩ := hm
  have hd : t.dispatched = s.dispatched := by unfold dispatched; rw [hi]
  constructor
  case shaped => exact fun hs => by rw [hm]; exact ⟨hs.classes, hs.latencies⟩
  case sent =>
    rw [hm, hsent, List.length_append]
    dsimp only
    omega
  case sendfile =>
    rw [hm]
    dsimp only
    omega
  all_goals rw [hm]
  · rw [hd]
  · exact fun _ => rfl
  · exact fun _ => rfl

theorem sendSome_balanced (room : ℕ) : Balanced s (s.sendSome m room) := by
  have hlen : (s.conn.pending.take (min room s.conn.outPending)).length =
      min room s.conn.outPending := by
    rw [List.length_take, Connection.pending, List.length_drop]
    exact Nat.min_eq_left (Nat.min_le_right ..)
  obtain ⟨_, _, _, h⟩ := exists_sendSome s m room
  refine .of_sent (d := s.conn.pending.take (min room s.conn.outPending)) (Nat.zero_le _) ?_ ?_
    (sendSome_intake room)
  · rw [hlen, h]
    exact ⟨_, rfl⟩
  · rw [h]

theorem moveFile_balanced (room : ℕ) (left : Bytes) : Balanced s (s.moveFile m room left) := by
  obtain ⟨_, _, h⟩ := exists_moveFile s m room left
  refine .of_sent (d := left.take (min s.fileWant room)) le_rfl ?_ ?_ (moveFile_intake room left)
  · rw [h]
    exact ⟨_, rfl⟩
  · rw [h]
    rfl

theorem fileStep_balanced (fd : Fd) (room : ℕ) (files : Fd → Bytes)
    (ks : List (Except Errno (ℕ × (Fd → Bytes)))) :
    Balanced s (s.fileStep m fd room files ks) := by
  unfold fileStep
  dsimp only
  split
  · exact .of_frame rfl rfl rfl
  · let u := (s.setSendfiles ks).attempt
      (.file s.fileWant room ((files fd).drop s.conn.fileOff).length)
    have hu : Balanced s u := .of_frame rfl rfl rfl
    exact hu.trans (moveFile_balanced room ((files fd).drop s.conn.fileOff))

theorem commit_balanced (now : ℕ) (d : Bytes) : Balanced s (s.commit now d) := by
  constructor
  case shaped => exact fun hs => ⟨hs.classes, hs.latencies⟩
  all_goals first | rfl | exact fun _ => rfl

theorem Step.balanced (hsrv : srv.ValidStatuses) (hm : m.nowUs ≠ 0) (h : Step srv m s t) :
    Balanced s t := by
  have hfeed : Balanced s (s.feedInput m) := .of_frame rfl rfl rfl
  cases h with
  | @recv d rs _ _ _ =>
    have hrecv : Balanced s (s.setRecvs rs) := .of_frame rfl rfl rfl
    exact hrecv.trans (commit_balanced m.nowUs _)
  | answer => exact hfeed.trans (dispatchNext_balanced hsrv (feedInput_started hm))
  | reject => exact hfeed.trans (parseError_balanced (feedInput_started hm))
  | interim =>
    refine .of_frame rfl rfl ?_
    simp [Intake.requests, Session.intake, sayContinue, say, Reply.request?]
  | @send room ks _ _ _ =>
    have hsend : Balanced s (s.setSends ks) := .of_frame rfl rfl rfl
    exact hsend.trans (sendSome_balanced room)
  | file => exact fileStep_balanced _ _ _ _
  | refill _ _ _ _ hr =>
    exact .of_accounts (refills_accounts hr) (congrArg Intake.requests (refills_intake hr))
  | @refillEnd u _ _ _ _ _ hr =>
    have hu : u.intake = s.intake := refills_intake hr
    have hreq : u.finishStream.intake.requests = u.intake.requests := by
      rcases finishStream_intake (s := u) with h | h <;> rw [h]
      rfl
    exact .of_accounts (finishStream_accounts.trans (refills_accounts hr))
      (hreq.trans (congrArg Intake.requests hu))
  | _ => exact .of_frame rfl rfl rfl

theorem Steps.balanced (hsrv : srv.ValidStatuses) (hm : m.nowUs ≠ 0) (h : Steps srv m s t) :
    Balanced s t := by
  induction h with
  | refl => exact .of_frame rfl rfl rfl
  | tail _ hstep ih => exact ih.trans (hstep.balanced hsrv hm)

theorem Abort.accounts (h : Abort srv s t) : t.accounts = s.accounts := by
  cases h with
  | refill _ _ _ _ hr ht =>
    have h := refills_accounts hr
    rcases ht with rfl | ⟨_, _, rfl⟩ <;> exact h
  | _ => rfl

theorem Step.connections (h : Step srv m s t) : t.metrics.connections = s.metrics.connections := by
  have hrecord (u : Session σ) (status : ℕ) :
      (u.recordResponse m status).metrics.connections = u.metrics.connections := by
    unfold recordResponse
    dsimp only
    split
    · exact u.metrics.connections_recordStatus status
    · rw [WorkerMetrics.connections_observeLatencyUs, u.metrics.connections_recordStatus]
  cases h with
  | answer =>
    unfold dispatchNext dispatch
    dsimp only [say]
    split <;> exact hrecord _ _
  | reject =>
    unfold parseError queueError
    exact hrecord _ _
  | @send room ks =>
    obtain ⟨_, _, _, h⟩ := exists_sendSome (s.setSends ks) m room
    rw [h]
    rfl
  | @file fd room files ks =>
    unfold fileStep
    dsimp only
    split
    · rfl
    · obtain ⟨_, _, h⟩ := exists_moveFile ((s.setSendfiles ks).attempt (.file s.fileWant
        room ((files fd).drop s.conn.fileOff).length)) m room ((files fd).drop s.conn.fileOff)
      rw [h]
      rfl
  | refill _ _ _ _ hr => exact congrArg (fun a => a.1.connections) (refills_accounts hr)
  | refillEnd _ _ _ _ hr =>
    exact congrArg (fun a => a.1.connections) (finishStream_accounts.trans (refills_accounts hr))
  | _ => rfl

theorem connections_of_drive {fuel : ℕ} {ok : Bool} (h : s.drive srv m fuel = .ok (ok, t)) :
    t.metrics.connections = s.metrics.connections := by
  obtain ⟨u, hu, hend⟩ := steps_of_drive h
  have hsteps : u.metrics.connections = s.metrics.connections := by
    clear h hend
    induction hu with
    | refl => rfl
    | tail _ hstep ih => exact hstep.connections.trans ih
  rcases hend with rfl | hab
  · exact hsteps
  · exact (congrArg (fun a => a.1.connections) hab.accounts).trans hsteps

theorem balanced_of_drive {fuel : ℕ} {ok : Bool} (hsrv : srv.ValidStatuses) (hm : m.nowUs ≠ 0)
    (h : s.drive srv m fuel = .ok (ok, t)) : Balanced s t := by
  obtain ⟨u, hu, hend⟩ := steps_of_drive h
  apply (hu.balanced hsrv hm).trans
  rcases hend with rfl | hab
  · exact .of_frame rfl rfl rfl
  · exact .of_accounts hab.accounts (congrArg _ hab.intake)

end Session

/-- No descriptor that is returned belongs to a live connection. -/
def Accepted.Fresh : List Fd → List Accepted → Prop
  | _, [] => True
  | held, .ok fd true :: rs => fd ∉ held ∧ Fresh (fd :: held) rs
  | held, .ok fd false :: rs => fd ∉ held ∧ Fresh held rs
  | held, _ :: rs => Fresh held rs

namespace Worker

variable {w w' : Worker σ} {cfg : ServerConfig ω σ} {fd : Fd} {s t : Session σ}

theorem keys_emplace (h : fd ∉ w.conns) : (w.emplace cfg fd).conns.keys = fd :: w.conns.keys := by
  unfold emplace
  dsimp only
  rw [if_neg h, AList.keys_insert, List.erase_of_not_mem h]

theorem connections_of_driven {e : Event ω} {ok : Bool} (h : w.driven cfg e s = .ok (ok, t)) :
    t.metrics.connections = w.metrics.connections := Session.connections_of_drive h

/-- The connections that have been accepted are closed or open. -/
def Accounted (w : Worker σ) : Prop :=
  w.metrics.connectionsAccepted = w.metrics.connectionsClosed + w.conns.keys.length

theorem accounted_started {listener wakeFd : Fd} {now : ℕ} :
    (started listener wakeFd now : Worker σ).Accounted := rfl

theorem Accounted.closeConnection (h : w.Accounted) (fd : Fd) :
    (w.closeConnection fd).Accounted := by
  cases hs : w.conns.lookup fd with
  | none => rwa [closeConnection_of_none hs]
  | some s =>
    have hlen := Table.length_erase hs
    rw [closeConnection_of_some hs]
    unfold Accounted at h ⊢
    change w.metrics.connectionsAccepted =
      w.metrics.connectionsClosed + 1 + (w.conns.erase fd).keys.length
    omega

theorem Accounted.put {e : Event ω} {ok : Bool} (h : w.Accounted)
    (hs : w.conns.lookup e.fd = some s) (ht : w.driven cfg e s = .ok (ok, t)) :
    (w.put e.fd t).Accounted := by
  have hcounts := connections_of_driven ht
  simp only [WorkerMetrics.connections, Prod.mk.injEq] at hcounts
  unfold Accounted Worker.put
  dsimp only
  rw [hcounts.1, hcounts.2.1, Table.length_replace hs]
  exact h

/-- The kernel does not give out the descriptor of a live connection. -/
def Label.Fresh (w : Worker σ) : Label ω → Prop
  | .event e => w.listener = some e.fd → Accepted.Fresh w.conns.keys e.accepts
  | _ => True

theorem onAccept_fresh {P : Worker σ → Prop}
    (hemplace : ∀ {w fd}, P w → fd ∉ w.conns → P (w.emplace cfg fd))
    (herror : ∀ {w}, P w → P w.acceptError) (h : P w) {rs : List Accepted}
    (hrs : Accepted.Fresh w.conns.keys rs) : P (w.onAccept cfg rs) := by
  have hloop : ∃ rs', P (w.onAccept cfg rs) ∧
      Accepted.Fresh (w.onAccept cfg rs).conns.keys rs' := by
    apply acceptLoop_induct (Q := fun rs w => P w ∧ Accepted.Fresh w.conns.keys rs)
    · exact fun h => ⟨hemplace h.1 h.2.1, by rw [keys_emplace h.2.1]; exact h.2.2⟩
    · exact fun h => ⟨herror h.1, h.2.2⟩
    · exact id
    · exact fun h => ⟨herror h.1, h.2⟩
    · exact ⟨h, hrs⟩
  obtain ⟨_, h, _⟩ := hloop
  exact h

theorem Accounted.emplace (h : w.Accounted) (hfd : fd ∉ w.conns) :
    (w.emplace cfg fd).Accounted := by
  unfold Accounted at h ⊢
  rw [keys_emplace hfd, List.length_cons]
  change w.metrics.connectionsAccepted + 1 = w.metrics.connectionsClosed + _
  omega

theorem invariant_accounted : Invariant cfg Label.Fresh fun w : Worker σ => w.Accounted where
  wakeUp h _ := h
  beginDrain {w} h := by
    unfold beginDrain
    split <;> exact h
  onAccept h hok hl := onAccept_fresh (fun h hfd => h.emplace hfd) (fun h => h) h (hok hl)
  put h hs ht := h.put hs ht
  drop h hs ht := (h.put hs ht).closeConnection _
  close h _ := h.closeConnection _
  timeOut {w fd s} h _ := Accounted.closeConnection (w := w.noteTimeout) h fd
  swept h := h
  stop h := h

/-- The clock does not show zero, and `accept4` returns fresh descriptors. -/
def Label.Sound (w : Worker σ) : Label ω → Prop
  | .wait now _ => now ≠ 0
  | .event e => w.listener = some e.fd → Accepted.Fresh w.conns.keys e.accepts
  | _ => True

theorem Label.Sound.fresh {l : Label ω} (h : l.Sound w) : l.Fresh w := by
  cases l with
  | event => exact h
  | _ => trivial

def total (f : Session σ → ℕ) (w : Worker σ) : ℕ :=
  Table.total f w.conns + (w.closed.map fun x => f x.2).sum

theorem total_emplace (f : Session σ → ℕ) (h : fd ∉ w.conns) :
    (w.emplace cfg fd).total f = w.total f + f (.accepted cfg.server w.nowUs) := by
  unfold total emplace
  dsimp only
  rw [if_neg h, Table.total_insert f h]
  omega

theorem total_put (f : Session σ → ℕ) (h : w.conns.lookup fd = some s) :
    (w.put fd t).total f + f s = w.total f + f t := by
  have := Table.total_replace (b := t) f h
  unfold total put
  dsimp only
  omega

theorem total_closeConnection (f : Session σ → ℕ) (fd : Fd) :
    (w.closeConnection fd).total f = w.total f := by
  cases hs : w.conns.lookup fd with
  | none => rw [closeConnection_of_none hs]
  | some s =>
    have := Table.total_erase f hs
    rw [closeConnection_of_some hs]
    unfold total
    dsimp only
    rw [List.map_append, List.sum_append]
    simp only [List.map_cons, List.map_nil, List.sum_cons, List.sum_nil]
    omega

def dispatched (w : Worker σ) : ℕ := w.total Session.dispatched

def bytesAccepted (w : Worker σ) : ℕ := w.total fun s => s.sent.length

structure Conserved (w : Worker σ) : Prop where
  now : w.nowUs ≠ 0
  shaped : w.metrics.Shaped
  timedOut : w.metrics.connectionsTimedOut ≤ w.metrics.connectionsClosed
  requests : w.metrics.requests = w.dispatched + w.metrics.parseErrors
  responses : w.metrics.requests = w.metrics.responses
  latencies : w.metrics.requests = w.metrics.latencies
  sendfile : w.metrics.bytesSendfile ≤ w.metrics.bytesSent
  sent : w.metrics.bytesSent = w.bytesAccepted

theorem conserved_started {listener wakeFd : Fd} {now : ℕ} (h : now ≠ 0) :
    (started listener wakeFd now : Worker σ).Conserved :=
  ⟨h, ⟨rfl, rfl⟩, le_rfl, rfl, rfl, rfl, le_rfl, rfl⟩

theorem Conserved.emplace (h : w.Conserved) (hfd : fd ∉ w.conns) :
    (w.emplace cfg fd).Conserved where
  now := h.now
  shaped := h.shaped.bump .connectionsAccepted 1
  timedOut := h.timedOut
  requests := by
    rw [dispatched, total_emplace _ hfd]
    exact h.requests
  responses := h.responses
  latencies := h.latencies
  sendfile := h.sendfile
  sent := by
    rw [bytesAccepted, total_emplace _ hfd]
    exact h.sent

theorem Conserved.acceptError (h : w.Conserved) : w.acceptError.Conserved :=
  ⟨h.now, h.shaped.bump .acceptErrors 1, h.timedOut, h.requests, h.responses, h.latencies,
    h.sendfile, h.sent⟩

theorem Conserved.close_timedOut (h : w.Conserved) (hs : w.conns.lookup fd = some s) {n : ℕ}
    {trace : List (Counter × ℕ)} (hn : n ≤ 1) : (closeConnection { w with
      metrics := { w.metrics with
        connectionsTimedOut := w.metrics.connectionsTimedOut + n
        trace := trace } } fd).Conserved := by
  let v : Worker σ := { w with metrics := { w.metrics with
    connectionsTimedOut := w.metrics.connectionsTimedOut + n
    trace := trace } }
  have htotal (f : Session σ → ℕ) : (v.closeConnection fd).total f = w.total f :=
    total_closeConnection f fd
  have hclose : v.closeConnection fd = _ := closeConnection_of_some hs
  have htimed := h.timedOut
  constructor
  case requests => rw [dispatched, htotal, hclose]; exact h.requests
  case sent => rw [bytesAccepted, htotal, hclose]; exact h.sent
  all_goals rw [hclose]
  case now => exact h.now
  case shaped => exact ⟨h.shaped.classes, h.shaped.latencies⟩
  case timedOut =>
    change w.metrics.connectionsTimedOut + n ≤ w.metrics.connectionsClosed + 1
    omega
  case responses => exact h.responses
  case latencies => exact h.latencies
  case sendfile => exact h.sendfile

theorem Conserved.closeConnection (h : w.Conserved) (hs : w.conns.lookup fd = some s) :
    (w.closeConnection fd).Conserved := h.close_timedOut hs (Nat.zero_le 1)

theorem Conserved.put (hsrv : cfg.server.ValidStatuses) (h : w.Conserved) {e : Event ω} {ok : Bool}
    (hs : w.conns.lookup e.fd = some s) (ht : w.driven cfg e s = .ok (ok, t)) :
    (w.put e.fd t).Conserved := by
  have hb : Session.Balanced (s.wake e.readable e.writable w.metrics e.kernel) t :=
    Session.balanced_of_drive (m := w.moment e) hsrv h.now ht
  have hdispatched := total_put (t := t) Session.dispatched hs
  have hbytes := total_put (t := t) (fun s => s.sent.length) hs
  constructor
  case now => exact h.now
  case shaped => exact hb.shaped h.shaped
  case timedOut =>
    have hcounts := connections_of_driven ht
    simp only [WorkerMetrics.connections, Prod.mk.injEq] at hcounts
    change t.metrics.connectionsTimedOut ≤ t.metrics.connectionsClosed
    rw [hcounts.2.1, hcounts.2.2]
    exact h.timedOut
  case requests =>
    have hreq : t.metrics.requests + w.metrics.parseErrors + s.dispatched =
      w.metrics.requests + t.metrics.parseErrors + t.dispatched := hb.requests
    have := h.requests
    change t.metrics.requests = (w.put e.fd t).total Session.dispatched + t.metrics.parseErrors
    unfold dispatched at this
    omega
  case responses =>
    have hresp : t.metrics.responses + w.metrics.requests =
      w.metrics.responses + t.metrics.requests := hb.responses h.shaped
    have := h.responses
    change t.metrics.requests = t.metrics.responses
    omega
  case latencies =>
    have hlat : t.metrics.latencies + w.metrics.requests =
      w.metrics.latencies + t.metrics.requests := hb.latencies h.shaped
    have := h.latencies
    change t.metrics.requests = t.metrics.latencies
    omega
  case sendfile =>
    have hfile : t.metrics.bytesSendfile + w.metrics.bytesSent ≤
      w.metrics.bytesSendfile + t.metrics.bytesSent := hb.sendfile
    have := h.sendfile
    change t.metrics.bytesSendfile ≤ t.metrics.bytesSent
    omega
  case sent =>
    have hsent : t.metrics.bytesSent + s.sent.length = w.metrics.bytesSent + t.sent.length := hb.sent
    have := h.sent
    change t.metrics.bytesSent = (w.put e.fd t).total fun s => s.sent.length
    unfold bytesAccepted at this
    omega

theorem Conserved.of_eq (h : w.Conserved) (hnow : w'.nowUs ≠ 0) (hm : w'.metrics = w.metrics)
    (hc : w'.conns = w.conns) (hcl : w'.closed = w.closed) : w'.Conserved := by
  have htotal (f : Session σ → ℕ) : w'.total f = w.total f := by unfold total; rw [hc, hcl]
  constructor
  case now => exact hnow
  case requests => rw [dispatched, htotal, hm]; exact h.requests
  case sent => rw [bytesAccepted, htotal, hm]; exact h.sent
  all_goals rw [hm]
  exacts [h.shaped, h.timedOut, h.responses, h.latencies, h.sendfile]

theorem invariant_conserved (hsrv : cfg.server.ValidStatuses) :
    Invariant cfg Label.Sound (Conserved (σ := σ)) where
  wakeUp {w now events} h hnow := ⟨hnow, (h.shaped.bump .loopWakeups 1).bump .loopEvents events,
    h.timedOut, h.requests, h.responses, h.latencies, h.sendfile, h.sent⟩
  beginDrain {w} h := by
    unfold beginDrain
    split
    · exact h
    · exact h.of_eq h.now rfl rfl rfl
  onAccept h hok hl :=
    onAccept_fresh (fun h hfd => h.emplace hfd) (fun h => h.acceptError) h (hok hl)
  put h hs ht := h.put hsrv hs ht
  drop h hs ht := (h.put hsrv hs ht).closeConnection (AList.lookup_insert _)
  close h hs := h.closeConnection hs
  timeOut h hs := h.close_timedOut hs le_rfl
  swept h := h.of_eq h.now rfl rfl rfl
  stop h := h.of_eq h.now rfl rfl rfl

/-- The conservation laws hold in every state that a worker can reach. -/
theorem metrics_conserved {cfg : ServerConfig ω σ} (hsrv : cfg.server.ValidStatuses)
    {listener wakeFd : Fd} {now : ℕ} (hnow : now ≠ 0) {w : Worker σ}
    (hw : Steps cfg Label.Sound (started listener wakeFd now) w) :
    w.metrics.connectionsAccepted = w.metrics.connectionsClosed + w.conns.keys.length ∧
    w.metrics.connectionsTimedOut ≤ w.metrics.connectionsClosed ∧
    w.metrics.requests = w.dispatched + w.metrics.parseErrors ∧
    w.metrics.requests = (w.metrics.responsesByClass.drop 1).sum ∧
    w.metrics.requests = w.metrics.latencyBuckets.sum ∧
    w.metrics.bytesSendfile ≤ w.metrics.bytesSent ∧
    w.metrics.bytesSent = w.bytesAccepted := by
  have h := (invariant_conserved hsrv).steps (conserved_started hnow) hw
  have hfresh : Invariant cfg Label.Sound fun w : Worker σ => w.Accounted :=
    invariant_accounted.mono fun _ _ => Label.Sound.fresh
  exact ⟨hfresh.steps accounted_started hw, h.timedOut, h.requests, h.responses, h.latencies,
    h.sendfile, h.sent⟩

def helloEvent : Event Unit :=
  bareEvent 5 []
    { recvs := [.ok (text "GET / HTTP/1.1\r\nHost: x\r\n\r\n"), .error .eagain]
      sends := [.ok 1000, .ok 1000] }

/-- A connection is accepted, and a request on it answered. -/
theorem metrics_conserved_hello : ∃ w : Worker Unit,
    Steps { server := helloServer } Label.Sound (started 3 4 1) w ∧
    helloServer.ValidStatuses ∧ (w.dispatched = 1 ∧ 0 < w.bytesAccepted) ∧
    w.metrics.requests = w.dispatched + w.metrics.parseErrors ∧
    w.metrics.bytesSent = w.bytesAccepted := by
  have hsrv : helloServer.ValidStatuses := by
    intro route hroute _ _ res hres
    obtain rfl := List.mem_singleton.mp hroute
    obtain rfl := Except.ok.inj hres
    exact ⟨by decide, by decide⟩
  have hrun : ((handle (started 3 4 1) { server := helloServer } (bareEvent 3 [.ok 5 true] {})).any
      fun w => (handle w { server := helloServer } helloEvent).any fun w' =>
        !w.stopped && decide (w'.dispatched = 1 ∧ 0 < w'.bytesAccepted)) = true := by
    decide +kernel
  obtain ⟨w, hw, hrest⟩ := (Option.any_eq_true _ _).mp hrun
  obtain ⟨w', hw', htest⟩ := (Option.any_eq_true _ _).mp hrest
  rw [Bool.and_eq_true, Bool.not_eq_true'] at htest
  have hfirst : Steps { server := helloServer } Label.Sound (started 3 4 1) w :=
    Steps.refl.tail (fun _ => ⟨by simp [started], trivial⟩) (.event rfl hw)
  have hsteps := hfirst.tail (l := .event helloEvent) (fun _ => trivial) (.event htest.1 hw')
  have hlaws := metrics_conserved hsrv one_ne_zero hsteps
  exact ⟨w', hsteps, hsrv, of_decide_eq_true htest.2, hlaws.2.2.1, hlaws.2.2.2.2.2.2⟩

end Worker

end Httpd
