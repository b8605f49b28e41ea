import Httpd.Server.Conservation
import Httpd.Server.Deadlines
import Httpd.Server.Termination

/-! # Shutdown

`Server::stop` writes to a descriptor of each worker, and the worker drains. It leaves its loop
when no connection is left, or at the first return of `epoll_wait` after the time of grace, and
closes what is left. Since calls of `drive` return, so does the worker; and every connection
that it has accepted has been closed.
-/

namespace Httpd

variable {ω σ : Type}

def Event.bounded (fuel : ℕ) (e : Event ω) : Event ω := { e with fuel := fuel }

namespace Worker

def Wait.bounded (fuel : ℕ) : Wait ω → Wait ω
  | .ready now es => .ready now (es.map (Event.bounded fuel))
  | .interrupted => .interrupted
  | .failed => .failed

/-- The kernel settles at every event. -/
def Wait.Settles : Wait ω → Prop
  | .ready _ es => ∀ e ∈ es, e.kernel.Settles
  | _ => True

variable {cfg : ServerConfig ω σ} {w w' : Worker σ} {e : Event ω} {es : List (Event ω)}
  {ws : List (Wait ω)} {now : ℕ}

def Sound (cfg : ServerConfig ω σ) (w : Worker σ) : Prop :=
  ∀ fd s, w.conns.lookup fd = some s → Session.Open cfg.server (fun _ _ => True) s

theorem invariant_sound {Ok : Worker σ → Label ω → Prop} : Invariant cfg Ok (Sound cfg) := by
  have hsessions : Invariant cfg Ok fun w => True ∧ Sound cfg w ∧ ∀ x ∈ w.closed, True :=
    invariant_true.sessions (Q := fun _ s => Session.Open cfg.server (fun _ _ => True) s)
      (R := fun _ _ => True) (fun _ _ => .accepted _) (fun _ hs ht => .drive _ _ _ hs trivial ht)
      (fun _ _ _ => trivial) fun _ => trivial
  have heq : (fun w => True ∧ Sound cfg w ∧ ∀ x ∈ w.closed, True) = Sound cfg := by
    ext w
    simp
  exact heq ▸ hsessions

theorem handle_of_driven {s t : Session σ} {ok : Bool} (hwake : e.fd ≠ w.wakeFd)
    (hlistener : w.listener ≠ some e.fd) (hs : w.conns.lookup e.fd = some s)
    (ht : w.driven cfg e s = .ok (ok, t)) : w.handle cfg e =
      some (if ok then w.put e.fd t else (w.put e.fd t).closeConnection e.fd) := by
  rw [handle, if_neg hwake, if_neg hlistener, hs]
  dsimp only
  rw [ht]
  cases ok <;> rfl

theorem Invariant.endPass {Ok : Worker σ → Label ω → Prop} {P : Worker σ → Prop}
    (hP : Invariant cfg Ok P) (h : P w) : P (w.endPass cfg) := by
  have hafter : P (w.sweepIfDue cfg) := by
    unfold sweepIfDue
    split
    · exact hP.swept (hP.sweep h)
    · exact h
  unfold Worker.endPass stopIfDone
  split
  · exact hP.stop hafter
  · exact hafter

section Bounds

variable {fuel fuel' : ℕ}

/-- A larger bound on the passes does not change how an event is handled. -/
theorem handle_mono (h : fuel ≤ fuel') (hw : w.handle cfg (e.bounded fuel) = some w') :
    w.handle cfg (e.bounded fuel') = some w' := by
  by_cases hwake : e.fd = w.wakeFd
  · rw [handle, if_pos (by exact hwake)] at hw ⊢
    exact hw
  by_cases hlistener : w.listener = some e.fd
  · rw [handle, if_neg (by exact hwake), if_pos (by exact hlistener)] at hw ⊢
    exact hw
  cases hs : w.conns.lookup e.fd with
  | none =>
    rw [handle, if_neg (by exact hwake), if_neg (by exact hlistener)] at hw ⊢
    dsimp only [Event.bounded] at hw ⊢
    rw [hs] at hw ⊢
    exact hw
  | some s =>
    cases hd : w.driven cfg (e.bounded fuel) s with
    | error t =>
      rw [handle, if_neg (by exact hwake), if_neg (by exact hlistener)] at hw
      dsimp only [Event.bounded] at hw hd
      rw [hs] at hw
      dsimp only at hw
      rw [hd] at hw
      cases hw
    | ok r =>
      obtain ⟨ok, t⟩ := r
      rw [handle_of_driven (e := e.bounded fuel) hwake hlistener hs hd] at hw
      have hd' : w.driven cfg (e.bounded fuel') s = .ok (ok, t) := Session.drive_extends h _ hd
      rw [handle_of_driven (e := e.bounded fuel') hwake hlistener hs hd']
      exact hw

theorem batch_mono (h : fuel ≤ fuel')
    (hw : (es.map (Event.bounded fuel)).foldlM (fun w e => Worker.handle w cfg e) w = some w') :
    (es.map (Event.bounded fuel')).foldlM (fun w e => Worker.handle w cfg e) w = some w' := by
  induction es generalizing w with
  | nil => exact hw
  | cons e es ih =>
    obtain ⟨v, hv, hrest⟩ := Option.bind_eq_some_iff.mp hw
    exact Option.bind_eq_some_iff.mpr ⟨v, handle_mono h hv, ih hrest⟩

theorem round_mono (h : fuel ≤ fuel')
    (hw : w.round cfg now (es.map (Event.bounded fuel)) = some w') :
    w.round cfg now (es.map (Event.bounded fuel')) = some w' := by
  rw [round_eq, List.length_map, Option.map_eq_some_iff] at hw ⊢
  obtain ⟨v, hv, hend⟩ := hw
  exact ⟨v, batch_mono h hv, hend⟩

theorem run_mono (h : fuel ≤ fuel') (hw : run cfg (ws.map (Wait.bounded fuel)) w = some w') :
    run cfg (ws.map (Wait.bounded fuel')) w = some w' := by
  induction ws generalizing w with
  | nil => exact hw
  | cons x ws ih =>
    cases x with
    | interrupted => exact ih hw
    | failed => exact hw
    | ready now es =>
      obtain ⟨v, hv, hrest⟩ := Option.bind_eq_some_iff.mp hw
      refine Option.bind_eq_some_iff.mpr ⟨v, round_mono h hv, ?_⟩
      split at hrest
      · next hstop => rwa [if_pos hstop]
      · next hstop =>
        rw [if_neg hstop]
        exact ih hrest

end Bounds

section Returns

variable (hl : cfg.server.limits.maxBodyBytes ≤ cfg.server.limits.maxSize)
include hl

theorem handle_returns (hw : w.Sound cfg) (hk : e.kernel.Settles) :
    ∃ fuel w', w.handle cfg (e.bounded fuel) = some w' := by
  by_cases hwake : e.fd = w.wakeFd
  · exact ⟨0, _, if_pos hwake⟩
  by_cases hlistener : w.listener = some e.fd
  · refine ⟨0, w.onAccept cfg e.accepts, ?_⟩
    rw [handle, Event.bounded, if_neg hwake, if_pos hlistener]
  cases hs : w.conns.lookup e.fd with
  | none =>
    refine ⟨0, w, ?_⟩
    rw [handle, Event.bounded, if_neg hwake, if_neg hlistener, hs]
  | some s =>
    obtain ⟨N, ⟨ok, t⟩, hN⟩ := Session.exists_drive_eq hl (hw e.fd s hs) hk (w.moment e)
      e.readable e.writable w.metrics
    exact ⟨N, _, handle_of_driven (e := e.bounded N) hwake hlistener hs (hN N le_rfl)⟩

theorem batch_returns (hw : w.Sound cfg) (hk : ∀ e ∈ es, e.kernel.Settles) :
    ∃ fuel w',
      (es.map (Event.bounded fuel)).foldlM (fun w e => Worker.handle w cfg e) w = some w' := by
  induction es generalizing w with
  | nil => exact ⟨0, w, rfl⟩
  | cons e es ih =>
    obtain ⟨he, hes⟩ := List.forall_mem_cons.mp hk
    obtain ⟨fuel₁, w₁, h₁⟩ := handle_returns hl hw he
    have hinv : Invariant cfg (fun _ _ => True) fun w : Worker σ => w.Sound cfg := invariant_sound
    obtain ⟨fuel₂, w₂, h₂⟩ := ih (hinv.handle hw trivial h₁) hes
    refine ⟨max fuel₁ fuel₂, w₂, Option.bind_eq_some_iff.mpr ⟨w₁, ?_, ?_⟩⟩
    · exact handle_mono (le_max_left ..) h₁
    · exact batch_mono (le_max_right ..) h₂

theorem round_returns (hw : w.Sound cfg) (hk : ∀ e ∈ es, e.kernel.Settles) (now : ℕ) :
    ∃ fuel w', w'.Sound cfg ∧ w.round cfg now (es.map (Event.bounded fuel)) = some w' := by
  have hP : Invariant cfg (fun _ _ => True) (Sound cfg) := invariant_sound
  obtain ⟨fuel, v, hv⟩ := batch_returns (w := w.wakeUp now es.length) hl hw hk
  refine ⟨fuel, v.endPass cfg, hP.endPass (hP.batch (w := w.wakeUp now es.length) hw
    (admits_of_forall (fun _ _ => trivial) _ _) hv), ?_⟩
  rw [round_eq, List.length_map, hv, Option.map_some]

/-- Once the kernel settles at every event, the loop handles all of them. -/
theorem run_returns (hw : w.Sound cfg) (hk : ∀ x ∈ ws, x.Settles) :
    ∃ fuel w', run cfg (ws.map (Wait.bounded fuel)) w = some w' := by
  induction ws generalizing w with
  | nil => exact ⟨0, w, rfl⟩
  | cons x ws ih =>
    obtain ⟨hx, hws⟩ := List.forall_mem_cons.mp hk
    cases x with
    | interrupted => exact ih hw hws
    | failed => exact ⟨0, _, rfl⟩
    | ready now es =>
      obtain ⟨fuel₁, w₁, hw₁, h₁⟩ := round_returns hl hw hx now
      by_cases hstop : w₁.stopped = true
      · exact ⟨fuel₁, w₁.closeAll, Option.bind_eq_some_iff.mpr ⟨w₁, h₁, if_pos hstop⟩⟩
      · obtain ⟨fuel₂, w₂, h₂⟩ := ih hw₁ hws
        refine ⟨max fuel₁ fuel₂, w₂, Option.bind_eq_some_iff.mpr ⟨w₁, ?_, ?_⟩⟩
        · exact round_mono (le_max_left ..) h₁
        · exact (if_neg hstop).trans (run_mono (le_max_right ..) h₂)

end Returns

/-- The time of grace is over at the given time, if it has begun. -/
def DueBy (D : ℕ) (w : Worker σ) : Prop := w.draining = true → w.drainDeadlineUs ≤ D

theorem dueBy_of_loopState {D : ℕ} (h : w'.loopState = w.loopState) (hw : w.DueBy D) :
    w'.DueBy D := by
  have hd : w'.draining = w.draining := congrArg (fun x => x.2.1) h
  have hdl : w'.drainDeadlineUs = w.drainDeadlineUs := congrArg (fun x => x.2.2.1) h
  unfold DueBy
  rw [hd, hdl]
  exact hw

theorem closeConnection_wakeFd (fd : Fd) : (w.closeConnection fd).wakeFd = w.wakeFd := by
  unfold closeConnection
  split <;> rfl

theorem invariant_wakeFd (fd : Fd) : Invariant cfg (fun _ _ => True) fun w => w.wakeFd = fd where
  wakeUp h _ := h
  beginDrain {w} h := by
    unfold beginDrain
    split <;> exact h
  onAccept h _ _ := onAccept_keeps (P := fun w => w.wakeFd = fd) id id h _
  put h _ _ := h
  drop h _ _ := (closeConnection_wakeFd _).trans h
  close h _ := (closeConnection_wakeFd _).trans h
  timeOut h _ := (closeConnection_wakeFd _).trans h
  swept h := h
  stop h := h

theorem draining_beginDrain : (w.beginDrain cfg).draining = true := by
  unfold beginDrain
  split
  · assumption
  · rfl

variable {D : ℕ}

theorem DueBy.beginDrain (h : w.DueBy D)
    (hD : w.draining = true ∨ w.nowUs + toUs cfg.shutdownGrace ≤ D) :
    (w.beginDrain cfg).DueBy D := by
  unfold Worker.beginDrain
  split
  · exact h
  · next hd => exact fun _ => (Nat.mod_le ..).trans (hD.resolve_left hd)

theorem DueBy.handle (h : w.DueBy D)
    (hD : w.draining = true ∨ w.nowUs + toUs cfg.shutdownGrace ≤ D)
    (hw : w.handle cfg e = some w') :
    w'.DueBy D ∧ (w.draining = true ∨ e.fd = w.wakeFd → w'.draining = true) := by
  by_cases hfd : e.fd = w.wakeFd
  · rw [Worker.handle, if_pos hfd] at hw
    obtain rfl := Option.some.inj hw
    exact ⟨h.beginDrain hD, fun _ => draining_beginDrain⟩
  · have hsame : w'.loopState = w.loopState ∨ w' = w.beginDrain cfg := by
      rcases handle_cases hw with rfl | ⟨-, rfl⟩ | rfl | ⟨s, t, -, ⟨-, rfl⟩ | ⟨-, rfl⟩⟩
      · exact .inr rfl
      · exact .inl (onAccept_loopState _)
      · exact .inl rfl
      · exact .inl rfl
      · exact .inl (closeConnection_loopState (w := w.put e.fd t) e.fd)
    rcases hsame with hsame | rfl
    · refine ⟨dueBy_of_loopState hsame h, fun hd => ?_⟩
      have hdraining : w'.draining = w.draining := congrArg (fun x => x.2.1) hsame
      exact hdraining.trans (hd.resolve_right hfd)
    · exact ⟨h.beginDrain hD, fun _ => draining_beginDrain⟩

theorem DueBy.batch (h : w.DueBy D)
    (hD : w.draining = true ∨ w.nowUs + toUs cfg.shutdownGrace ≤ D)
    (hes : es.foldlM (fun w e => Worker.handle w cfg e) w = some w') :
    w'.DueBy D ∧ w'.wakeFd = w.wakeFd ∧
      (w.draining = true ∨ (∃ e ∈ es, e.fd = w.wakeFd) → w'.draining = true) := by
  induction es generalizing w with
  | nil =>
    obtain rfl : w = w' := Option.some.inj hes
    exact ⟨h, rfl, fun hd => hd.resolve_right (by simp)⟩
  | cons e es ih =>
    obtain ⟨w₁, h₁, h₂⟩ := Option.bind_eq_some_iff.mp hes
    obtain ⟨hdue, hdrain⟩ := h.handle hD h₁
    have hfd := (invariant_wakeFd w.wakeFd).handle rfl trivial h₁
    have hD₁ : w₁.draining = true ∨ w₁.nowUs + toUs cfg.shutdownGrace ≤ D :=
      hD.imp (fun hd => hdrain (.inl hd)) fun hle => (handle_clock h₁).1 ▸ hle
    obtain ⟨hdue', hfd', hdrain'⟩ := ih hdue hD₁ h₂
    refine ⟨hdue', hfd'.trans hfd, ?_⟩
    rintro (hd | ⟨f, hf, hfw⟩)
    · exact hdrain' (.inl (hdrain (.inl hd)))
    · rcases List.mem_cons.mp hf with rfl | hf
      · exact hdrain' (.inl (hdrain (.inr hfw)))
      · exact hdrain' (.inr ⟨f, hf, hfw.trans hfd.symm⟩)

theorem DueBy.endPass (h : w.DueBy D) (cfg : ServerConfig ω σ) : (w.endPass cfg).DueBy D ∧
    (w.endPass cfg).draining = w.draining ∧
      (w.draining = true → D ≤ w.nowUs → (w.endPass cfg).stopped = true) := by
  have hloop : (w.sweepIfDue cfg).loopState = w.loopState := sweepIfDue_loopState
  have hdraining : (w.sweepIfDue cfg).draining = w.draining := congrArg (fun x => x.2.1) hloop
  have hnow : (w.sweepIfDue cfg).nowUs = w.nowUs := congrArg Prod.fst hloop
  have hdue : (w.sweepIfDue cfg).DueBy D := dueBy_of_loopState hloop h
  unfold Worker.endPass stopIfDone
  split
  · exact ⟨hdue, hdraining, fun _ _ => rfl⟩
  · next hmay =>
    refine ⟨hdue, hdraining, fun hd hle => absurd ?_ hmay⟩
    have hd' := hdraining.trans hd
    simp only [mayStop, hd', hnow, Bool.true_and, Bool.or_eq_true, decide_eq_true_eq]
    exact .inr ((hdue hd').trans hle)

theorem DueBy.round (h : w.DueBy D) (hD : w.draining = true ∨ now + toUs cfg.shutdownGrace ≤ D)
    (hr : w.round cfg now es = some w') :
    w'.DueBy D ∧ w'.wakeFd = w.wakeFd ∧
      (w.draining = true ∨ (∃ e ∈ es, e.fd = w.wakeFd) →
        w'.draining = true ∧ (D ≤ now → w'.stopped = true)) := by
  obtain ⟨v, hv, rfl⟩ := exists_of_round hr
  obtain ⟨hdue, hfd, hdrain⟩ := DueBy.batch (w := w.wakeUp now es.length) h hD hv
  obtain ⟨hdue', hdraining, hstop⟩ := hdue.endPass cfg
  have hnow : v.nowUs = now := (batch_clock hv).1
  refine ⟨hdue', (invariant_wakeFd w.wakeFd).endPass hfd, fun hd => ?_⟩
  exact ⟨hdraining.trans (hdrain hd), fun hle => hstop (hdrain hd) (hnow ▸ hle)⟩

theorem closeAll_loopState : w.closeAll.loopState = w.loopState :=
  List.foldlRecOn (motive := fun v : Worker σ => v.loopState = w.loopState) _ _ rfl
    fun _ h fd _ => (closeConnection_loopState fd).trans h

structure Finished (w : Worker σ) : Prop where
  stopped : w.stopped = true
  conns : ∀ fd, w.conns.lookup fd = none

theorem finished_closeAll (h : w.stopped = true) : w.closeAll.Finished :=
  ⟨(stopped_of_loopState closeAll_loopState).trans h, lookup_closeAll w⟩

/-- A draining worker finishes at the first return of `epoll_wait` after its deadline, if not
before. -/
theorem finished_of_draining (h : w.DueBy D) (hd : w.draining = true)
    (ht : ∃ t ∈ times ws, D ≤ t) (hrun : run cfg ws w = some w') : w'.Finished := by
  induction ws generalizing w with
  | nil => simp [times] at ht
  | cons x ws ih =>
    cases x with
    | interrupted => exact ih h hd ht hrun
    | failed =>
      obtain rfl := Option.some.inj hrun
      exact finished_closeAll rfl
    | ready now es =>
      obtain ⟨w₁, h₁, h₂⟩ := Option.bind_eq_some_iff.mp hrun
      obtain ⟨hdue, -, hdrain⟩ := h.round (.inl hd) h₁
      obtain ⟨hd₁, hstop⟩ := hdrain (.inl hd)
      split at h₂
      · next hstopped =>
        obtain rfl := Option.some.inj h₂
        exact finished_closeAll hstopped
      · next hstopped =>
        obtain ⟨t, ht, hle⟩ := ht
        rcases List.mem_cons.mp ht with rfl | ht
        · exact absurd (hstop hle) hstopped
        · exact ih hdue hd₁ ⟨t, ht, hle⟩ h₂

theorem finished_of_stop {ws₁ ws₂ : List (Wait ω)} (h : w.DueBy (now + toUs cfg.shutdownGrace))
    (hclock : ∀ t ∈ times ws₁, t ≤ now) (hstop : ∃ e ∈ es, e.fd = w.wakeFd)
    (ht : ∃ t ∈ times ws₂, now + toUs cfg.shutdownGrace ≤ t)
    (hrun : run cfg (ws₁ ++ .ready now es :: ws₂) w = some w') : w'.Finished := by
  induction ws₁ generalizing w with
  | nil =>
    obtain ⟨w₁, h₁, h₂⟩ := Option.bind_eq_some_iff.mp hrun
    obtain ⟨hdue, -, hdrain⟩ := h.round (.inr le_rfl) h₁
    split at h₂
    · next hstopped =>
      obtain rfl := Option.some.inj h₂
      exact finished_closeAll hstopped
    · exact finished_of_draining hdue (hdrain (.inr hstop)).1 ht h₂
  | cons x ws₁ ih =>
    cases x with
    | interrupted => exact ih h hclock hstop hrun
    | failed =>
      obtain rfl := Option.some.inj hrun
      exact finished_closeAll rfl
    | ready now₁ es₁ =>
      have hclock : ∀ t ∈ now₁ :: times ws₁, t ≤ now := hclock
      obtain ⟨hle, hrest⟩ := List.forall_mem_cons.mp hclock
      obtain ⟨w₁, h₁, h₂⟩ := Option.bind_eq_some_iff.mp hrun
      obtain ⟨hdue, hfd, -⟩ := h.round (.inr (Nat.add_le_add_right hle _)) h₁
      split at h₂
      · next hstopped =>
        obtain rfl := Option.some.inj h₂
        exact finished_closeAll hstopped
      · exact ih hdue hrest (hfd ▸ hstop) h₂

/-- Every event of a run is admitted when its turn comes. -/
def AdmitsRun (cfg : ServerConfig ω σ) (Ok : Worker σ → Label ω → Prop) :
    List (Wait ω) → Worker σ → Prop
  | [], _ => True
  | .interrupted :: ws, w => AdmitsRun cfg Ok ws w
  | .failed :: _, _ => True
  | .ready now es :: ws, w => Ok w (.wait now es.length) ∧
      Admits cfg Ok es (w.wakeUp now es.length) ∧
        ∀ w', w.round cfg now es = some w' → AdmitsRun cfg Ok ws w'

theorem Invariant.closeAll {Ok : Worker σ → Label ω → Prop} {P : Worker σ → Prop}
    (hP : Invariant cfg Ok P) (h : P w) : P w.closeAll :=
  List.foldlRecOn _ _ h fun _ h fd _ => hP.closeConnection h fd

theorem Invariant.run {Ok : Worker σ → Label ω → Prop} {P : Worker σ → Prop}
    (hP : Invariant cfg Ok P) (h : P w) (hws : AdmitsRun cfg Ok ws w)
    (hrun : Worker.run cfg ws w = some w') : P w' := by
  induction ws generalizing w with
  | nil =>
    obtain rfl : w = w' := Option.some.inj hrun
    exact h
  | cons x ws ih =>
    cases x with
    | interrupted => exact ih h hws hrun
    | failed =>
      obtain rfl := Option.some.inj hrun
      exact hP.closeAll (hP.stop h)
    | ready now es =>
      obtain ⟨hwait, hes, hrest⟩ := hws
      obtain ⟨w₁, h₁, h₂⟩ := Option.bind_eq_some_iff.mp hrun
      obtain ⟨v, hv, heq⟩ := exists_of_round h₁
      have hw₁ : P w₁ := heq ▸ hP.endPass (hP.batch (hP.wakeUp h hwait) hes hv)
      split at h₂
      · obtain rfl := Option.some.inj h₂
        exact hP.closeAll hw₁
      · exact ih hw₁ (hrest w₁ h₁) h₂

theorem times_bounded (fuel : ℕ) (ws : List (Wait ω)) :
    times (ws.map (Wait.bounded fuel)) = times ws := by
  induction ws with
  | nil => rfl
  | cons x ws ih =>
    cases x with
    | interrupted => exact ih
    | failed => exact ih
    | ready now es => exact congrArg (now :: ·) ih

theorem Finished.accounted (h : w.Finished) (ha : w.Accounted) :
    w.metrics.connectionsAccepted = w.metrics.connectionsClosed := by
  have hkeys : w.conns.keys = [] := by
    apply List.eq_nil_iff_forall_not_mem.mpr
    intro fd hfd
    have hsome := AList.lookup_isSome.mpr hfd
    rw [h.conns fd] at hsome
    cases hsome
  unfold Accounted at ha
  rw [hkeys] at ha
  exact ha

/-- When `Server::stop` has woken a worker, and `epoll_wait` returns once more after the time of
grace, the worker leaves its loop, whatever its clients and handlers do: no connection is left,
and all that have been accepted have been closed. -/
theorem shutdown_completes {cfg : ServerConfig ω σ} {listener wakeFd : Fd} {start now : ℕ}
    {es : List (Event ω)} {ws₁ ws₂ : List (Wait ω)}
    (hl : cfg.server.limits.maxBodyBytes ≤ cfg.server.limits.maxSize)
    (hclock : ∀ t ∈ times ws₁, t ≤ now) (hstop : ∃ e ∈ es, e.fd = wakeFd)
    (hgrace : ∃ t ∈ times ws₂, now + toUs cfg.shutdownGrace ≤ t)
    (hsettles : ∀ x ∈ ws₁ ++ .ready now es :: ws₂, x.Settles)
    (hfresh : ∀ fuel, AdmitsRun cfg Label.Fresh
      ((ws₁ ++ .ready now es :: ws₂).map (Wait.bounded fuel)) (started listener wakeFd start)) :
    ∃ N w, (∀ fuel, N ≤ fuel → run cfg ((ws₁ ++ .ready now es :: ws₂).map (Wait.bounded fuel))
        (started listener wakeFd start) = some w) ∧
      w.stopped = true ∧ (∀ fd, w.conns.lookup fd = none) ∧
      w.metrics.connectionsAccepted = w.metrics.connectionsClosed := by
  have hsound : (started listener wakeFd start : Worker σ).Sound cfg := fun fd s hs => by cases hs
  obtain ⟨N, w, hN⟩ := run_returns hl hsound hsettles
  have hrun := hN
  have hfinished : w.Finished := by
    rw [List.map_append, List.map_cons] at hrun
    apply finished_of_stop (w := started listener wakeFd start) _ _ _ _ hrun
    · exact fun hd => by cases hd
    · rwa [times_bounded]
    · obtain ⟨e, he, hfd⟩ := hstop
      exact ⟨e.bounded N, List.mem_map_of_mem he, hfd⟩
    · rwa [times_bounded]
  have haccounted : w.Accounted := invariant_accounted.run accounted_started (hfresh N) hN
  exact ⟨N, w, fun fuel hfuel => run_mono hfuel hN, hfinished.stopped, hfinished.conns,
    hfinished.accounted haccounted⟩

def someKernel (recvs : List (Except Errno Bytes)) : Kernel where
  recvs := recvs ++ [.error .eagain, .error .eagain]
  sends := [.ok 1000, .error .eagain]
  sendfiles := [.error .eagain]

theorem settles_someKernel (recvs : List (Except Errno Bytes)) : (someKernel recvs).Settles := by
  refine ⟨⟨.error .eagain, .error .eagain, List.sublist_append_right _ _, rfl, rfl⟩,
    ⟨.error .eagain, ?_, rfl⟩, ⟨.error .eagain, List.mem_singleton_self _, rfl⟩⟩
  simp [someKernel]

/-- Two connections are accepted, and a part of a request comes on each. -/
def waitsBefore : List (Wait Unit) :=
  [.ready 1 [bareEvent 3 [.ok 5 true, .ok 6 true] (someKernel []),
    bareEvent 5 [] (someKernel [.ok (text "GET / HTTP/1.1\r\n")]),
    bareEvent 6 [] (someKernel [.ok (text "GET / HTTP/1.1\r\n")])]]

/-- One of the requests is completed, with more behind it; the other one never is. -/
def waitsAfter : List (Wait Unit) :=
  [.ready 3 [bareEvent 5 [] (someKernel [.ok (text "Host: x\r\n\r\n"), .error .eagain,
      .ok (text "late")])],
    .interrupted, .ready 5000002 []]

def stoppingWaits : List (Wait Unit) :=
  waitsBefore ++ .ready 2 [bareEvent 4 [] (someKernel [])] :: waitsAfter

/-- A worker that drains answers a request and drains its connection, and closes the other one
when the time of grace is over. -/
theorem shutdown_completes_grace : ∃ (N : ℕ) (w : Worker Unit),
    (∀ fuel, N ≤ fuel → run { server := bareServer } (stoppingWaits.map (Wait.bounded fuel))
      (started 3 4 1) = some w) ∧
    (w.stopped = true ∧ (∀ fd, w.conns.lookup fd = none) ∧
      w.metrics.connectionsAccepted = w.metrics.connectionsClosed) ∧
    w.metrics.connectionsAccepted = 2 ∧ w.metrics.requests = 1 ∧ w.nowUs = 5000002 := by
  have hsettles : ∀ x ∈ stoppingWaits, x.Settles := by
    have hevents (es : List (Event Unit)) (hes : ∀ e ∈ es, ∃ rs, e.kernel = someKernel rs) :
        ∀ e ∈ es, e.kernel.Settles := by
      intro e he
      obtain ⟨rs, hrs⟩ := hes e he
      exact hrs ▸ settles_someKernel rs
    simp only [stoppingWaits, waitsBefore, waitsAfter, List.cons_append, List.nil_append,
      List.forall_mem_cons]
    refine ⟨hevents _ ?_, hevents _ ?_, hevents _ ?_, trivial, hevents _ ?_, by simp⟩
    all_goals simp [bareEvent]
  have hfresh (fuel : ℕ) : AdmitsRun { server := bareServer } Label.Fresh
      (stoppingWaits.map (Wait.bounded fuel)) (started 3 4 1) := by
    have hsix : (6 : Fd) ∉ [5] := by decide
    refine ⟨trivial, ⟨fun _ => ⟨List.not_mem_nil, hsix, trivial⟩, fun _ _ =>
      ⟨fun _ => trivial, fun _ _ => ⟨fun _ => trivial, fun _ _ => trivial⟩⟩⟩, fun _ _ => ?_⟩
    refine ⟨trivial, ⟨fun _ => trivial, fun _ _ => trivial⟩, fun _ _ => ?_⟩
    refine ⟨trivial, ⟨fun _ => trivial, fun _ _ => trivial⟩, fun _ _ => ?_⟩
    exact ⟨trivial, trivial, fun _ _ => trivial⟩
  obtain ⟨N, w, hN, hdone⟩ := shutdown_completes (by decide) (by decide)
    ⟨_, List.mem_singleton_self _, rfl⟩ ⟨5000002, by decide, by decide⟩ hsettles hfresh
  have hrun : ((run { server := bareServer } (stoppingWaits.map (Wait.bounded 8))
      (started 3 4 1)).any fun w => decide (w.metrics.connectionsAccepted = 2 ∧
        w.metrics.requests = 1 ∧ w.nowUs = 5000002)) = true := by
    decide +kernel
  obtain ⟨v, hv, htest⟩ := (Option.any_eq_true _ _).mp hrun
  obtain rfl : w = v := Option.some.inj
    ((hN _ (le_max_left N 8)).symm.trans (run_mono (le_max_right N 8) hv))
  exact ⟨N, w, hN, hdone, of_decide_eq_true htest⟩

end Worker

end Httpd
