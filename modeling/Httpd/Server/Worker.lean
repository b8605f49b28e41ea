import Httpd.Library.Table
import Httpd.Server.Steps

/-! # Workers

The event loop `Server::Worker::run` of `server.cpp`: batches of events, accepting, the
sweep for timeouts and the drain. An event comes with the results of the system calls
that are made while it is handled. The connections that have been closed are kept on the
side with their last state.

A worker moves by steps, each the handling of an event, a sweep or a transition of the loop;
an invariant is checked on what the steps are made of.
-/

namespace Httpd

variable {ω σ : Type}

def kAcceptBatch : ℕ := 64

def toUs (ms : ℕ) : ℕ := wrap (ms * 1000)

/-- The configuration of a server with its timeouts, in milliseconds. -/
structure ServerConfig (ω σ : Type) where
  server : Server ω σ
  idleTimeout : ℕ := 30000
  headerTimeout : ℕ := 10000
  shutdownGrace : ℕ := 5000

namespace ServerConfig

variable (cfg : ServerConfig ω σ)

def idleTimeoutUs : ℕ := toUs cfg.idleTimeout
def headerTimeoutUs : ℕ := toUs cfg.headerTimeout

def tickUs : ℕ := max 10000 (min 1000000 (min cfg.idleTimeoutUs cfg.headerTimeoutUs / 4))

end ServerConfig

/-- The result of `accept4`, and for a connection whether epoll takes it. -/
inductive Accepted where
  | ok (fd : Fd) (registered : Bool)
  | retry
  | again
  | failed

/-- An event of epoll, and what the system calls return while it is handled. -/
structure Event (ω : Type) where
  fd : Fd
  readable : Bool := false
  writable : Bool := false
  accepts : List Accepted := []
  kernel : Kernel := {}
  moment : Moment ω
  fuel : ℕ

def bareEvent (fd : Fd) (accepts : List Accepted) (k : Kernel) : Event Unit where
  fd := fd
  readable := true
  accepts := accepts
  kernel := k
  moment := bareMoment
  fuel := 8

structure Worker (σ : Type) where
  listener : Option Fd
  wakeFd : Fd
  conns : Table Fd (Session σ) := ∅
  metrics : WorkerMetrics := {}
  nowUs : ℕ
  draining : Bool := false
  drainDeadlineUs : ℕ := 0
  lastSweep : ℕ
  stopped : Bool := false
  failed : Bool := false
  closed : List (Fd × Session σ) := []

namespace Connection

variable (c : Connection σ)

def idle : Bool := !c.hasOutput && c.inBuf.isEmpty && !c.parser.started

def headerExpired (cfg : ServerConfig ω σ) (now : ℕ) : Bool :=
  c.requestStartUs != 0 && !c.parser.headersComplete &&
    cfg.headerTimeoutUs < elapsed now c.requestStartUs

def idleExpired (cfg : ServerConfig ω σ) (now : ℕ) : Bool :=
  cfg.idleTimeoutUs < elapsed now c.lastActiveUs

end Connection

namespace Worker

variable (w : Worker σ) (cfg : ServerConfig ω σ)

def acceptError : Worker σ :=
  { w with metrics := w.metrics.bump .acceptErrors }

/-- A new connection; an entry for its descriptor would stay in place. -/
def emplace (fd : Fd) : Worker σ :=
  { w with
    metrics := w.metrics.bump .connectionsAccepted
    conns := if fd ∈ w.conns then w.conns else w.conns.insert fd (.accepted cfg.server w.nowUs) }

/-- The loop of `on_accept`. Where the results end, no connection is queued. -/
def acceptLoop : ℕ → List Accepted → Worker σ → Worker σ
  | 0, _, w => w
  | _ + 1, [], w => w
  | n + 1, .ok fd true :: rs, w => acceptLoop n rs (w.emplace cfg fd)
  | n + 1, .ok _ false :: rs, w => acceptLoop n rs w.acceptError
  | n + 1, .retry :: rs, w => acceptLoop n rs w
  | _ + 1, .again :: _, w => w
  | _ + 1, .failed :: _, w => w.acceptError

def onAccept (rs : List Accepted) : Worker σ := acceptLoop cfg kAcceptBatch rs w

def closeConnection (fd : Fd) : Worker σ :=
  match w.conns.lookup fd with
  | none => w
  | some s =>
    { w with
      conns := w.conns.erase fd
      metrics := w.metrics.bump .connectionsClosed
      closed := w.closed ++ [(fd, s)] }

def noteTimeout : Worker σ :=
  { w with metrics := w.metrics.bump .connectionsTimedOut }

def sweepOne (w : Worker σ) (fd : Fd) : Worker σ :=
  match w.conns.lookup fd with
  | none => w
  | some s =>
    -- idle keep-alive connections are dropped as soon as the worker drains
    if w.draining && s.conn.idle then w.closeConnection fd
    else if s.conn.headerExpired cfg w.nowUs then w.noteTimeout.closeConnection fd
    else if s.conn.idleExpired cfg w.nowUs then w.noteTimeout.closeConnection fd
    else w

def sweep : Worker σ := w.conns.keys.foldl (sweepOne cfg) w

def beginDrain : Worker σ :=
  if w.draining then w
  else { w with
    draining := true
    drainDeadlineUs := wrap (w.nowUs + toUs cfg.shutdownGrace)
    listener := none }

def wakeUp (now events : ℕ) : Worker σ :=
  { w with
    nowUs := now
    metrics := (w.metrics.bump .loopWakeups).bump .loopEvents events }

def moment (e : Event ω) : Moment ω := { e.moment with draining := w.draining, nowUs := w.nowUs }

def driven (e : Event ω) (s : Session σ) : Except (Session σ) (Bool × Session σ) :=
  (s.wake e.readable e.writable w.metrics e.kernel).drive cfg.server (w.moment e) e.fuel

def put (fd : Fd) (t : Session σ) : Worker σ :=
  { w with metrics := t.metrics, conns := w.conns.insert fd t }

/-- Handle an event. There is no result if a call of `drive` does not return. -/
def handle (e : Event ω) : Option (Worker σ) :=
  if e.fd = w.wakeFd then some (w.beginDrain cfg)
  else if w.listener = some e.fd then some (w.onAccept cfg e.accepts)
  else match w.conns.lookup e.fd with
    | none => some w
    | some s =>
      match w.driven cfg e s with
      | .error _ => none
      | .ok (true, t) => some (w.put e.fd t)
      | .ok (false, t) => some ((w.put e.fd t).closeConnection e.fd)

def sweepDue : Bool := w.draining || cfg.tickUs ≤ elapsed w.nowUs w.lastSweep

def sweepNow : Worker σ := { w.sweep cfg with lastSweep := w.nowUs }

/-- The loop ends when the worker has drained or its time for that is over. -/
def mayStop : Bool := w.draining && (w.conns.keys.isEmpty || w.drainDeadlineUs ≤ w.nowUs)

def closeAll : Worker σ := w.conns.keys.foldl closeConnection w

/-- The result of `epoll_wait`, with the time after it. -/
inductive Wait (ω : Type) where
  | interrupted
  | failed
  | ready (now : ℕ) (events : List (Event ω))

def round (now : ℕ) (es : List (Event ω)) : Option (Worker σ) := do
  let w ← es.foldlM (fun w e => handle w cfg e) (w.wakeUp now es.length)
  let w := if w.sweepDue cfg then w.sweepNow cfg else w
  return if w.mayStop then { w with stopped := true } else w

/-- The loop of `run`, as far as the results of `epoll_wait` are known. -/
def run : List (Wait ω) → Worker σ → Option (Worker σ)
  | [], w => some w
  | .interrupted :: ws, w => run ws w
  | .failed :: _, w => some (closeAll { w with stopped := true, failed := true })
  | .ready now es :: ws, w => do
    let w ← w.round cfg now es
    if w.stopped then some w.closeAll else run ws w

def started (listener wakeFd : Fd) (now : ℕ) : Worker σ where
  listener := some listener
  wakeFd := wakeFd
  nowUs := now
  lastSweep := now

inductive Label (ω : Type) where
  | wait (now events : ℕ)
  | event (e : Event ω)
  | sweep
  | stop
  | fail
  | close (fd : Fd)

inductive Step (cfg : ServerConfig ω σ) : Worker σ → Label ω → Worker σ → Prop where
  | wait {w : Worker σ} {now events : ℕ} : w.stopped = false →
      Step cfg w (.wait now events) (w.wakeUp now events)
  | event {w w' : Worker σ} {e : Event ω} : w.stopped = false → w.handle cfg e = some w' →
      Step cfg w (.event e) w'
  | sweep {w : Worker σ} : w.stopped = false → w.sweepDue cfg = true →
      Step cfg w .sweep (w.sweepNow cfg)
  | stop {w : Worker σ} : w.stopped = false → w.mayStop = true →
      Step cfg w .stop { w with stopped := true }
  | fail {w : Worker σ} : w.stopped = false →
      Step cfg w .fail { w with stopped := true, failed := true }
  | close {w : Worker σ} (fd : Fd) : w.stopped = true → Step cfg w (.close fd) (w.closeConnection fd)

inductive Steps (cfg : ServerConfig ω σ) (Ok : Worker σ → Label ω → Prop) (w : Worker σ) :
    Worker σ → Prop where
  | refl : Steps cfg Ok w w
  | tail {w₁ w₂ : Worker σ} {l : Label ω} : Steps cfg Ok w w₁ → Ok w₁ l → Step cfg w₁ l w₂ →
      Steps cfg Ok w w₂

/-- A property that is kept by everything that steps are made of. -/
structure Invariant (cfg : ServerConfig ω σ) (Ok : Worker σ → Label ω → Prop)
    (P : Worker σ → Prop) : Prop where
  wakeUp : ∀ {w now events}, P w → Ok w (.wait now events) → P (w.wakeUp now events)
  beginDrain : ∀ {w}, P w → P (w.beginDrain cfg)
  onAccept : ∀ {w} {e : Event ω}, P w → Ok w (.event e) → w.listener = some e.fd →
    P (w.onAccept cfg e.accepts)
  put : ∀ {w} {e : Event ω} {s t}, P w → w.conns.lookup e.fd = some s →
    w.driven cfg e s = .ok (true, t) → P (w.put e.fd t)
  drop : ∀ {w} {e : Event ω} {s t}, P w → w.conns.lookup e.fd = some s →
    w.driven cfg e s = .ok (false, t) → P ((w.put e.fd t).closeConnection e.fd)
  close : ∀ {w fd s}, P w → w.conns.lookup fd = some s → P (w.closeConnection fd)
  timeOut : ∀ {w fd s}, P w → w.conns.lookup fd = some s → P (w.noteTimeout.closeConnection fd)
  swept : ∀ {w now}, P w → P { w with lastSweep := now }
  stop : ∀ {w failed}, P w → P { w with stopped := true, failed := failed }

variable {w w' : Worker σ} {cfg : ServerConfig ω σ} {Ok : Worker σ → Label ω → Prop}
  {P : Worker σ → Prop} {fd : Fd} {s t : Session σ} {e : Event ω} {l : Label ω}

theorem Invariant.mono {Ok' : Worker σ → Label ω → Prop} (hP : Invariant cfg Ok P)
    (h : ∀ w l, Ok' w l → Ok w l) : Invariant cfg Ok' P :=
  { hP with
    wakeUp := fun hw hok => hP.wakeUp hw (h _ _ hok)
    onAccept := fun hw hok => hP.onAccept hw (h _ _ hok) }

theorem closeConnection_of_none (h : w.conns.lookup fd = none) : w.closeConnection fd = w := by
  simp [closeConnection, h]

theorem closeConnection_of_some (h : w.conns.lookup fd = some s) : w.closeConnection fd = { w with
    conns := w.conns.erase fd
    metrics := w.metrics.bump .connectionsClosed
    closed := w.closed ++ [(fd, s)] } := by
  simp [closeConnection, h]

theorem handle_cases (h : w.handle cfg e = some w') : w' = w.beginDrain cfg ∨
    (w.listener = some e.fd ∧ w' = w.onAccept cfg e.accepts) ∨ w' = w ∨
    ∃ s t, w.conns.lookup e.fd = some s ∧ (w.driven cfg e s = .ok (true, t) ∧ w' = w.put e.fd t ∨
      w.driven cfg e s = .ok (false, t) ∧ w' = (w.put e.fd t).closeConnection e.fd) := by
  unfold handle at h
  split at h
  · exact .inl (Option.some.inj h).symm
  · split at h
    · next hl => exact .inr (.inl ⟨hl, (Option.some.inj h).symm⟩)
    · split at h
      · exact .inr (.inr (.inl (Option.some.inj h).symm))
      · next s hs =>
        split at h
        · cases h
        · next t ht => exact .inr (.inr (.inr ⟨s, t, hs, .inl ⟨ht, (Option.some.inj h).symm⟩⟩))
        · next t ht => exact .inr (.inr (.inr ⟨s, t, hs, .inr ⟨ht, (Option.some.inj h).symm⟩⟩))

namespace Invariant

variable (hP : Invariant cfg Ok P)
include hP

theorem closeConnection (h : P w) (fd : Fd) : P (w.closeConnection fd) := by
  cases hs : w.conns.lookup fd with
  | none => rwa [closeConnection_of_none hs]
  | some s => exact hP.close h hs

theorem sweepOne (h : P w) (fd : Fd) : P (w.sweepOne cfg fd) := by
  unfold Worker.sweepOne
  split
  · exact h
  · next s hs =>
    split
    · exact hP.close h hs
    · split
      · exact hP.timeOut h hs
      · split
        · exact hP.timeOut h hs
        · exact h

theorem sweep (h : P w) : P (w.sweep cfg) :=
  List.foldlRecOn _ _ h fun _ h fd _ => hP.sweepOne h fd

theorem handle (h : P w) (hok : Ok w (.event e)) (hw : w.handle cfg e = some w') : P w' := by
  rcases handle_cases hw with rfl | ⟨hl, rfl⟩ | rfl | ⟨s, t, hs, ⟨ht, rfl⟩ | ⟨ht, rfl⟩⟩
  · exact hP.beginDrain h
  · exact hP.onAccept h hok hl
  · exact h
  · exact hP.put h hs ht
  · exact hP.drop h hs ht

theorem step (h : P w) (hok : Ok w l) (hstep : Step cfg w l w') : P w' := by
  cases hstep with
  | wait => exact hP.wakeUp h hok
  | event _ hw => exact hP.handle h hok hw
  | sweep => exact hP.swept (hP.sweep h)
  | stop => exact hP.stop h
  | fail => exact hP.stop h
  | close fd => exact hP.closeConnection h fd

theorem steps (h : P w) (hsteps : Steps cfg Ok w w') : P w' := by
  induction hsteps with
  | refl => exact h
  | tail _ hok hstep ih => exact hP.step ih hok hstep

end Invariant

/-- What closing and accepting leave alone. -/
def loopState (w : Worker σ) : ℕ × Bool × ℕ × Option Fd × Bool × Bool :=
  (w.nowUs, w.draining, w.drainDeadlineUs, w.listener, w.stopped, w.failed)

@[simp] theorem closeConnection_loopState (fd : Fd) :
    (w.closeConnection fd).loopState = w.loopState := by
  unfold closeConnection; split <;> rfl

@[simp] theorem noteTimeout_loopState : w.noteTimeout.loopState = w.loopState := rfl

@[simp] theorem sweepOne_loopState (fd : Fd) : (w.sweepOne cfg fd).loopState = w.loopState := by
  unfold sweepOne; repeat' split
  all_goals simp

theorem sweep_loopState : (w.sweep cfg).loopState = w.loopState :=
  List.foldlRecOn (motive := fun w' : Worker σ => w'.loopState = w.loopState) _ _ rfl
    fun _ h fd _ => (sweepOne_loopState fd).trans h

/-- What the results of `accept4` that are left and the worker keep in the loop of `on_accept`. -/
theorem acceptLoop_induct {Q : List Accepted → Worker σ → Prop}
    (hemplace : ∀ {w fd rs}, Q (.ok fd true :: rs) w → Q rs (w.emplace cfg fd))
    (herror : ∀ {w fd rs}, Q (.ok fd false :: rs) w → Q rs w.acceptError)
    (hretry : ∀ {w rs}, Q (.retry :: rs) w → Q rs w)
    (hfailed : ∀ {w rs}, Q (.failed :: rs) w → Q rs w.acceptError) :
    ∀ (n : ℕ) (rs : List Accepted) {w : Worker σ}, Q rs w → ∃ rs', Q rs' (acceptLoop cfg n rs w)
  | 0, rs, _, h => ⟨rs, h⟩
  | _ + 1, [], _, h => ⟨[], h⟩
  | n + 1, .ok _ true :: rs, _, h =>
    acceptLoop_induct hemplace herror hretry hfailed n rs (hemplace h)
  | n + 1, .ok _ false :: rs, _, h =>
    acceptLoop_induct hemplace herror hretry hfailed n rs (herror h)
  | n + 1, .retry :: rs, _, h => acceptLoop_induct hemplace herror hretry hfailed n rs (hretry h)
  | _ + 1, .again :: rs, _, h => ⟨.again :: rs, h⟩
  | _ + 1, .failed :: rs, _, h => ⟨rs, hfailed h⟩

theorem onAccept_keeps (hemplace : ∀ {w fd}, P w → P (w.emplace cfg fd))
    (herror : ∀ {w}, P w → P w.acceptError) (h : P w) (rs : List Accepted) :
    P (w.onAccept cfg rs) := by
  obtain ⟨_, h⟩ :=
    acceptLoop_induct (Q := fun _ w => P w) hemplace herror id herror kAcceptBatch rs h
  exact h

theorem onAccept_loopState (rs : List Accepted) : (w.onAccept cfg rs).loopState = w.loopState :=
  onAccept_keeps (P := fun w' => w'.loopState = w.loopState) id id rfl rs

theorem stopped_of_loopState (h : w'.loopState = w.loopState) : w'.stopped = w.stopped :=
  congrArg (fun x => x.2.2.2.2.1) h

theorem handle_stopped (h : w.handle cfg e = some w') : w'.stopped = w.stopped := by
  rcases handle_cases h with rfl | ⟨_, rfl⟩ | rfl | ⟨s, t, _, ⟨_, rfl⟩ | ⟨_, rfl⟩⟩
  · unfold beginDrain
    split <;> rfl
  · exact stopped_of_loopState (onAccept_loopState _)
  · rfl
  · rfl
  · exact stopped_of_loopState (closeConnection_loopState ..)

abbrev Reaches (cfg : ServerConfig ω σ) : Worker σ → Worker σ → Prop :=
  Steps cfg fun _ _ => True

theorem Reaches.trans {w₁ w₂ w₃ : Worker σ} (h : Reaches cfg w₁ w₂) (h' : Reaches cfg w₂ w₃) :
    Reaches cfg w₁ w₃ := by
  induction h' with
  | refl => exact h
  | tail _ _ hstep ih => exact ih.tail trivial hstep

theorem Reaches.single (h : Step cfg w l w') : Reaches cfg w w' := Steps.refl.tail trivial h

theorem reaches_batch : ∀ {es : List (Event ω)} {w : Worker σ}, w.stopped = false →
    es.foldlM (fun w e => Worker.handle w cfg e) w = some w' →
      Reaches cfg w w' ∧ w'.stopped = false
  | [], w, hw, h => by
    obtain rfl : w = w' := Option.some.inj h
    exact ⟨.refl, hw⟩
  | e :: es, w, hw, h => by
    obtain ⟨w₁, h₁, h₂⟩ := Option.bind_eq_some_iff.mp h
    have hstopped : w₁.stopped = false := (handle_stopped h₁).trans hw
    obtain ⟨hreach, hw'⟩ := reaches_batch hstopped h₂
    exact ⟨(Reaches.single (.event hw h₁)).trans hreach, hw'⟩

theorem reaches_round {now : ℕ} {es : List (Event ω)} (hw : w.stopped = false)
    (h : w.round cfg now es = some w') : Reaches cfg w w' := by
  obtain ⟨w₁, h₁, h₂⟩ := Option.bind_eq_some_iff.mp h
  obtain ⟨hreach, hw₁⟩ := reaches_batch (w := w.wakeUp now es.length) hw h₁
  have hbatch : Reaches cfg w w₁ := (Reaches.single (.wait hw)).trans hreach
  obtain rfl := Option.some.inj h₂
  have hsweep : Reaches cfg w (if w₁.sweepDue cfg then w₁.sweepNow cfg else w₁) ∧
      (if w₁.sweepDue cfg then w₁.sweepNow cfg else w₁).stopped = false := by
    split
    · next hdue =>
      exact ⟨hbatch.tail trivial (.sweep hw₁ hdue), (stopped_of_loopState sweep_loopState).trans hw₁⟩
    · exact ⟨hbatch, hw₁⟩
  generalize (if w₁.sweepDue cfg then w₁.sweepNow cfg else w₁) = w₂ at hsweep ⊢
  split
  · next hstop => exact hsweep.1.tail trivial (.stop hsweep.2 hstop)
  · exact hsweep.1

theorem reaches_closeAll (hw : w.stopped = true) : Reaches cfg w w.closeAll := by
  have hinv : Reaches cfg w w.closeAll ∧ w.closeAll.stopped = true := by
    apply List.foldlRecOn (motive := fun w' => Reaches cfg w w' ∧ w'.stopped = true)
    · exact ⟨.refl, hw⟩
    · intro w' h fd _
      exact ⟨h.1.tail trivial (.close fd h.2),
        (stopped_of_loopState (closeConnection_loopState fd)).trans h.2⟩
  exact hinv.1

/-- Every run of the loop is a sequence of steps. -/
theorem reaches_run : ∀ {ws : List (Wait ω)} {w : Worker σ}, w.stopped = false →
    run cfg ws w = some w' → Reaches cfg w w'
  | [], w, _, h => by
    obtain rfl : w = w' := Option.some.inj h
    exact .refl
  | .interrupted :: ws, w, hw, h => by
    have h : run cfg ws w = some w' := h
    exact reaches_run hw h
  | .failed :: ws, w, hw, h => by
    obtain rfl := Option.some.inj h
    exact (Reaches.single (.fail hw)).trans (reaches_closeAll rfl)
  | .ready now es :: ws, w, hw, h => by
    obtain ⟨w₁, h₁, h₂⟩ := Option.bind_eq_some_iff.mp h
    have hround := reaches_round hw h₁
    split at h₂
    · next hstop =>
      obtain rfl := Option.some.inj h₂
      exact hround.trans (reaches_closeAll hstop)
    · next hstop => exact hround.trans (reaches_run (by simpa using hstop) h₂)

theorem put_closeConnection (fd : Fd) (t : Session σ) : (w.put fd t).closeConnection fd = { w with
    conns := (w.conns.insert fd t).erase fd
    metrics := t.metrics.bump .connectionsClosed
    closed := w.closed ++ [(fd, t)] } :=
  closeConnection_of_some (AList.lookup_insert w.conns)

theorem lookup_erase_some {k : Fd} (h : (w.conns.erase fd).lookup k = some s) :
    w.conns.lookup k = some s := by
  by_cases hk : k = fd
  · rw [hk, AList.lookup_erase] at h
    cases h
  · rwa [AList.lookup_erase_ne hk] at h

theorem lookup_closeConnection {k : Fd} (h : (w.closeConnection fd).conns.lookup k = some s) :
    w.conns.lookup k = some s := by
  unfold closeConnection at h
  split at h
  · exact h
  · exact lookup_erase_some h

theorem lookup_insert_some {k : Fd} (h : (w.conns.insert fd t).lookup k = some s) :
    (k = fd ∧ s = t) ∨ (k ≠ fd ∧ w.conns.lookup k = some s) := by
  by_cases hk : k = fd
  · rw [hk, AList.lookup_insert] at h
    exact .inl ⟨hk, (Option.some.inj h).symm⟩
  · rw [AList.lookup_insert_ne hk] at h
    exact .inr ⟨hk, h⟩

/-- What is kept by calls of `drive` holds of every connection of a worker, open or closed, if
it holds of new ones. It may depend on another invariant of the worker. -/
theorem Invariant.sessions {J : Worker σ → Prop} {Q R : Fd → Session σ → Prop}
    (hJ : Invariant cfg Ok J)
    (hnew : ∀ {w l fd now}, J w → w.listener = some l → Q fd (.accepted cfg.server now))
    (hdrive : ∀ {w} {e : Event ω} {s t}, J w → Q e.fd s → w.driven cfg e s = .ok (true, t) →
      Q e.fd t)
    (hdrop : ∀ {w} {e : Event ω} {s t}, J w → Q e.fd s → w.driven cfg e s = .ok (false, t) →
      R e.fd t)
    (hclose : ∀ {fd s}, Q fd s → R fd s) :
    Invariant cfg Ok fun w => J w ∧ (∀ fd s, w.conns.lookup fd = some s → Q fd s) ∧
      ∀ x ∈ w.closed, R x.1 x.2 := by
  have happend {w : Worker σ} {fd t} (h : ∀ x ∈ w.closed, R x.1 x.2) (ht : R fd t) :
      ∀ x ∈ w.closed ++ [(fd, t)], R x.1 x.2 := by
    intro x hx
    rcases List.mem_append.mp hx with hx | hx
    · exact h x hx
    · rw [List.mem_singleton.mp hx]
      exact ht
  constructor
  case wakeUp => exact fun h hok => ⟨hJ.wakeUp h.1 hok, h.2⟩
  case beginDrain =>
    intro w h
    refine ⟨hJ.beginDrain h.1, ?_⟩
    unfold Worker.beginDrain
    split <;> exact h.2
  case onAccept =>
    intro w e h hok hl
    refine ⟨hJ.onAccept h.1 hok hl, ?_⟩
    apply onAccept_keeps (P := fun w => (∀ fd s, w.conns.lookup fd = some s → Q fd s) ∧
      ∀ x ∈ w.closed, R x.1 x.2)
    · rintro w' fd ⟨hconns, hclosed⟩
      refine ⟨fun k u hu => ?_, hclosed⟩
      unfold emplace at hu
      dsimp only at hu
      split at hu
      · exact hconns k u hu
      · rcases lookup_insert_some hu with ⟨_, rfl⟩ | ⟨_, hu⟩
        · exact hnew h.1 hl
        · exact hconns k u hu
    · exact id
    · exact h.2
  case put =>
    rintro w e s t ⟨hj, hconns, hclosed⟩ hs ht
    refine ⟨hJ.put hj hs ht, fun k u hu => ?_, hclosed⟩
    rcases lookup_insert_some hu with ⟨rfl, rfl⟩ | ⟨_, hu⟩
    · exact hdrive hj (hconns _ s hs) ht
    · exact hconns k u hu
  case drop =>
    rintro w e s t ⟨hj, hconns, hclosed⟩ hs ht
    refine ⟨hJ.drop hj hs ht, ?_⟩
    rw [put_closeConnection]
    refine ⟨fun k u hu => ?_, happend hclosed (hdrop hj (hconns _ s hs) ht)⟩
    by_cases hk : k = e.fd
    · rw [hk, AList.lookup_erase] at hu
      cases hu
    · rw [AList.lookup_erase_ne hk, AList.lookup_insert_ne hk] at hu
      exact hconns k u hu
  case close =>
    rintro w fd s ⟨hj, hconns, hclosed⟩ hs
    refine ⟨hJ.close hj hs, fun k u hu => hconns k u (lookup_closeConnection hu), ?_⟩
    rw [closeConnection_of_some hs]
    exact happend hclosed (hclose (hconns fd s hs))
  case timeOut =>
    rintro w fd s ⟨hj, hconns, hclosed⟩ hs
    refine ⟨hJ.timeOut hj hs,
      fun k u hu => hconns k u (lookup_closeConnection (w := w.noteTimeout) hu), ?_⟩
    rw [closeConnection_of_some (w := w.noteTimeout) hs]
    exact happend hclosed (hclose (hconns fd s hs))
  case swept => exact fun h => ⟨hJ.swept h.1, h.2⟩
  case stop => exact fun h => ⟨hJ.stop h.1, h.2⟩

theorem invariant_true : Invariant cfg Ok fun _ => True := by constructor <;> intros <;> trivial

end Worker

end Httpd
