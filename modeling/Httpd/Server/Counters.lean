import Httpd.Library.Relaxed
import Httpd.Server.Shutdown

/-! # Counters that others look at

The workers of a server count in blocks of their own, with plain loads and stores of 64 bits, and
the page of the metrics is made up by one of them from the blocks of all. All that a worker does to
its block is to call `bump`, and its trace says with what. However the threads run, no addition
gets lost, and whoever looks at a counter finds what it was at some point of the trace, and later
on no less, as long as it has not wrapped.
-/

namespace Httpd

variable {ω σ : Type}

namespace WorkerMetrics

variable {w w' : WorkerMetrics} {c : Counter} {n : ℕ} {bs : List (Counter × ℕ)}

def read (w : WorkerMetrics) : Counter → ℕ
  | .connectionsAccepted => w.connectionsAccepted
  | .connectionsClosed => w.connectionsClosed
  | .connectionsTimedOut => w.connectionsTimedOut
  | .acceptErrors => w.acceptErrors
  | .requests => w.requests
  | .parseErrors => w.parseErrors
  | .responses cls => w.responsesByClass.getD cls 0
  | .bytesReceived => w.bytesReceived
  | .bytesSent => w.bytesSent
  | .bytesSendfile => w.bytesSendfile
  | .loopWakeups => w.loopWakeups
  | .loopEvents => w.loopEvents
  | .latencyBucket b => w.latencyBuckets.getD b 0
  | .latencySumUs => w.latencySumUs

/-- The block after some calls of `bump`. -/
def play (w : WorkerMetrics) (bs : List (Counter × ℕ)) : WorkerMetrics :=
  bs.foldl (fun w b => w.bump b.1 b.2) w

def after (w : WorkerMetrics) (k : ℕ) : WorkerMetrics := play {} (w.trace.take k)

def amounts (c : Counter) (bs : List (Counter × ℕ)) : List ℕ := (bs.filter (·.1 = c)).map Prod.snd

theorem play_append (w : WorkerMetrics) (bs bs' : List (Counter × ℕ)) :
    w.play (bs ++ bs') = (w.play bs).play bs' := List.foldl_append

theorem trace_play (w : WorkerMetrics) (bs : List (Counter × ℕ)) :
    (w.play bs).trace = w.trace ++ bs := by
  induction bs generalizing w with
  | nil => exact (List.append_nil _).symm
  | cons b bs ih =>
    have hplay : w.play (b :: bs) = (w.bump b.1 b.2).play bs := rfl
    rw [hplay, ih, bump_trace, List.append_assoc]
    rfl

theorem read_bump (hw : w.Shaped) (c c' : Counter) (n : ℕ) :
    (w.bump c n).read c' = w.read c' + if c' = c then n else 0 := by
  have hcls (i j : Fin 6) : (bumpAt n w.responsesByClass i).getD j 0 =
      w.responsesByClass.getD j 0 + if j = i then n else 0 := by
    rw [getD_bumpAt (i.isLt.trans_eq hw.classes.symm)]
    simp [Fin.ext_iff, eq_comm]
  have hlat (i j : Fin kLatencyBuckets) : (bumpAt n w.latencyBuckets i).getD j 0 =
      w.latencyBuckets.getD j 0 + if j = i then n else 0 := by
    rw [getD_bumpAt (i.isLt.trans_eq hw.latencies.symm)]
    simp [Fin.ext_iff, eq_comm]
  cases c <;> cases c' <;> simp [bump, read, hcls, hlat, -List.getD_eq_getElem?_getD]

theorem read_play (hw : w.Shaped) (bs : List (Counter × ℕ)) (c : Counter) :
    (w.play bs).read c = w.read c + (amounts c bs).sum := by
  induction bs generalizing w with
  | nil => rfl
  | cons b bs ih =>
    have hplay : w.play (b :: bs) = (w.bump b.1 b.2).play bs := rfl
    rw [hplay, ih (hw.bump b.1 b.2), read_bump hw, Nat.add_assoc]
    congr 1
    by_cases h : b.1 = c
    · simp [amounts, h]
    · simp [amounts, h, Ne.symm h]

theorem read_after (w : WorkerMetrics) (k : ℕ) (c : Counter) :
    (w.after k).read c = (amounts c (w.trace.take k)).sum := by
  have hzero : ({} : WorkerMetrics).read c = 0 := by
    cases c with
    | responses cls => exact List.getD_replicate 0 cls.isLt
    | latencyBucket b => exact List.getD_replicate 0 b.isLt
    | _ => rfl
  rw [after, read_play ⟨rfl, rfl⟩, hzero, Nat.zero_add]

theorem exists_take_amounts (c : Counter) (bs : List (Counter × ℕ)) (k i : ℕ) :
    ∃ j ≤ k, amounts c (bs.take j) = (amounts c (bs.take k)).take i := by
  have hsplit : ((bs.take k).filter (·.1 = c)).map Prod.snd =
      (amounts c (bs.take k)).take i ++ (amounts c (bs.take k)).drop i :=
    (List.take_append_drop i _).symm
  obtain ⟨l₁, l₂, hfilter, hfirst, -⟩ := List.map_eq_append_iff.mp hsplit
  obtain ⟨bs₁, bs₂, htake, rfl, -⟩ := List.filter_eq_append_iff.mp hfilter
  have hle : bs₁.length ≤ k := by
    have hlen := congrArg List.length htake
    rw [List.length_take, List.length_append] at hlen
    omega
  refine ⟨bs₁.length, hle, ?_⟩
  have hbs : bs.take bs₁.length = bs₁ := by
    rw [← Nat.min_eq_left hle, ← List.take_take, htake, List.take_left]
  rw [hbs]
  exact hfirst

/-- The one block becomes the other by calls of `bump`. -/
def Bumped (w w' : WorkerMetrics) : Prop := ∃ bs, w' = w.play bs

theorem Bumped.refl (w : WorkerMetrics) : w.Bumped w := ⟨[], rfl⟩

theorem Bumped.of_eq (h : w' = w) : w.Bumped w' := h ▸ .refl w

theorem Bumped.trans {w'' : WorkerMetrics} (h : w.Bumped w') (h' : w'.Bumped w'') :
    w.Bumped w'' := by
  obtain ⟨bs, rfl⟩ := h
  obtain ⟨bs', rfl⟩ := h'
  exact ⟨bs ++ bs', (w.play_append bs bs').symm⟩

theorem Bumped.trace_prefix (h : w.Bumped w') : w.trace <+: w'.trace := by
  obtain ⟨bs, rfl⟩ := h
  rw [trace_play]
  exact List.prefix_append _ _

theorem Bumped.eq_play (h : Bumped {} w) : w = play {} w.trace := by
  obtain ⟨bs, rfl⟩ := h
  rw [trace_play]
  rfl

theorem bumped_bump (w : WorkerMetrics) (c : Counter) (n : ℕ) : w.Bumped (w.bump c n) :=
  ⟨[(c, n)], rfl⟩

theorem bumped_recordStatus (w : WorkerMetrics) (status : ℕ) :
    w.Bumped (w.recordStatus status) := by
  unfold recordStatus
  dsimp only
  split
  · exact (bumped_bump _ _ _).trans (bumped_bump _ _ _)
  · exact bumped_bump _ _ _

theorem bumped_observeLatencyUs (w : WorkerMetrics) (us : ℕ) : w.Bumped (w.observeLatencyUs us) :=
  (bumped_bump _ _ _).trans (bumped_bump _ _ _)

end WorkerMetrics

open WorkerMetrics

namespace Session

variable {srv : Server ω σ} {m : Moment ω} {s t : Session σ}

theorem bumped_recordResponse (s : Session σ) (m : Moment ω) (status : ℕ) :
    s.metrics.Bumped (s.recordResponse m status).metrics := by
  unfold recordResponse
  dsimp only
  split
  · exact bumped_recordStatus _ _
  · exact (bumped_recordStatus _ _).trans (bumped_observeLatencyUs _ _)

theorem bumped_dispatchNext : s.metrics.Bumped (s.dispatchNext srv m).metrics := by
  unfold dispatchNext dispatch
  dsimp only [say]
  split <;> exact bumped_recordResponse _ _ _

theorem bumped_parseError : s.metrics.Bumped (s.parseError m).metrics := by
  unfold parseError queueError
  exact (bumped_bump _ .parseErrors 1).trans (bumped_recordResponse _ _ _)

theorem bumped_sendSome (room : ℕ) : s.metrics.Bumped (s.sendSome m room).metrics := by
  obtain ⟨_, _, _, h⟩ := exists_sendSome s m room
  rw [h]
  exact bumped_bump _ .bytesSent _

theorem bumped_moveFile (room : ℕ) (left : Bytes) :
    s.metrics.Bumped (s.moveFile m room left).metrics := by
  obtain ⟨_, _, h⟩ := exists_moveFile s m room left
  rw [h]
  exact (bumped_bump _ .bytesSent _).trans (bumped_bump _ .bytesSendfile _)

theorem bumped_fileStep (fd : Fd) (room : ℕ) (files : Fd → Bytes)
    (ks : List (Except Errno (ℕ × (Fd → Bytes)))) :
    s.metrics.Bumped (s.fileStep m fd room files ks).metrics := by
  unfold fileStep
  dsimp only
  split
  · exact .refl _
  · exact bumped_moveFile (s := (s.setSendfiles ks).attempt _) room _

theorem Step.bumped (h : Step srv m s t) : s.metrics.Bumped t.metrics := by
  cases h with
  | @recv d rs _ _ _ => exact bumped_bump _ .bytesReceived _
  | answer => exact bumped_dispatchNext (s := s.feedInput m)
  | reject => exact bumped_parseError (s := s.feedInput m)
  | @send room ks _ _ _ => exact bumped_sendSome (s := s.setSends ks) room
  | file => exact bumped_fileStep _ _ _ _
  | refill _ _ _ _ hr => exact .of_eq (congrArg Prod.fst (refills_accounts hr))
  | refillEnd _ _ _ _ hr =>
    exact .of_eq (congrArg Prod.fst (finishStream_accounts.trans (refills_accounts hr)))
  | _ => exact .refl _

theorem Steps.bumped (h : Steps srv m s t) : s.metrics.Bumped t.metrics := by
  induction h with
  | refl => exact .refl _
  | tail _ hstep ih => exact ih.trans hstep.bumped

theorem bumped_of_drive {fuel : ℕ} {ok : Bool} (h : s.drive srv m fuel = .ok (ok, t)) :
    s.metrics.Bumped t.metrics := by
  obtain ⟨u, hu, hend⟩ := steps_of_drive h
  rcases hend with rfl | hab
  · exact hu.bumped
  · exact hu.bumped.trans (.of_eq (congrArg Prod.fst hab.accounts))

end Session

namespace Worker

variable {cfg : ServerConfig ω σ} {w w' : Worker σ}

theorem bumped_acceptLoop (n : ℕ) (rs : List Accepted) (w : Worker σ) :
    w.metrics.Bumped (acceptLoop cfg n rs w).metrics := by
  have herror (w : Worker σ) : w.metrics.Bumped w.acceptError.metrics :=
    bumped_bump _ .acceptErrors 1
  fun_induction acceptLoop cfg n rs w with
  | case1 => exact .refl _
  | case2 => exact .refl _
  | case3 n fd rs w ih =>
    have haccept : w.metrics.Bumped (w.emplace cfg fd).metrics :=
      bumped_bump _ .connectionsAccepted 1
    exact haccept.trans ih
  | case4 n fd rs w ih => exact (herror w).trans ih
  | case5 n rs w ih => exact ih
  | case6 => exact .refl _
  | case7 n rs w => exact herror w

theorem bumped_closeConnection (w : Worker σ) (fd : Fd) :
    w.metrics.Bumped (w.closeConnection fd).metrics := by
  unfold closeConnection
  split
  · exact .refl _
  · exact bumped_bump _ .connectionsClosed 1

/-- All that a worker does to its block is to call `bump`. -/
theorem invariant_bumped {Ok : Worker σ → Label ω → Prop} (m : WorkerMetrics) :
    Invariant cfg Ok fun w => m.Bumped w.metrics where
  wakeUp {w now events} h _ :=
    (h.trans (bumped_bump _ .loopWakeups 1)).trans (bumped_bump _ .loopEvents events)
  beginDrain {w} h := by
    unfold beginDrain
    split <;> exact h
  onAccept h _ _ := h.trans (bumped_acceptLoop _ _ _)
  put h _ ht := h.trans (Session.bumped_of_drive ht)
  drop h _ ht := (h.trans (Session.bumped_of_drive ht)).trans (bumped_closeConnection _ _)
  close h _ := h.trans (bumped_closeConnection _ _)
  timeOut {w fd s} h _ := by
    have hnote : w.metrics.Bumped w.noteTimeout.metrics := bumped_bump _ .connectionsTimedOut 1
    exact (h.trans hnote).trans (bumped_closeConnection _ _)
  swept h := h
  stop h := h

end Worker

/-- The threads of a server, each of which owns the counters of its block. -/
abbrev Fleet (n : ℕ) := Relaxed.System (Fin n) (Fin n × Counter)

/-- A thread has made some additions to its block: what is in memory, what has been loaded, and
what does not happen before a counter wraps. -/
theorem Fleet.coherent {M n k : ℕ} {s : Fleet n} {i : Fin n} {w : WorkerMetrics}
    (hs : s.Reachable M Prod.fst) (hadded : ∀ c, s.added (i, c) = amounts c (w.trace.take k)) :
    (∀ c, (s.memory.stores (i, c)).getLast? = some ((w.after k).read c % M)) ∧
      (∀ e ∈ s.loads, e.cell.1 = i →
        (∃ j ≤ k, e.value = (w.after j).read e.cell.2 % M) ∧
          (e.thread = i → e.value = e.total % M)) ∧
      (∀ e ∈ s.loads, e.cell.1 = i → e.total ≤ (w.after k).read e.cell.2) ∧
      ((∀ c, (w.after k).read c < M) → s.loads.Pairwise fun e f =>
        e.thread = f.thread → e.cell = f.cell → e.cell.1 = i → e.value ≤ f.value) := by
  have hcoherent := Relaxed.System.coherent_of_reachable hs
  have hcell (l : Fin n × Counter) (hl : l.1 = i) : s.added l = amounts l.2 (w.trace.take k) := by
    rw [← hadded, ← hl]
  refine ⟨fun c => ?_, fun e he hi => ⟨?_, fun hthread => ?_⟩, fun e he hi => ?_, fun hM => ?_⟩
  · rw [hcoherent.stores, hadded, read_after]
    simp [List.getLast?_eq_getElem?]
  · obtain ⟨j, hj, hamounts⟩ := exists_take_amounts e.cell.2 w.trace k e.place
    refine ⟨j, hj, ?_⟩
    rw [read_after, hamounts, hcoherent.values e he, hcell e.cell hi]
  · exact (hcoherent.totals e he).2 (hi.trans hthread.symm)
  · rw [read_after, ← hcell e.cell hi]
    exact (hcoherent.totals e he).1
  · refine hcoherent.sorted.imp_of_mem fun he hf hle hthread heq hi => ?_
    apply hcoherent.value_le he hf heq (hle hthread heq)
    rw [hcell _ (heq ▸ hi), ← read_after]
    exact hM _

theorem read_after_mono (w : WorkerMetrics) (c : Counter) {j k : ℕ} (h : j ≤ k) :
    (w.after j).read c ≤ (w.after k).read c := by
  rw [read_after, read_after]
  have hprefix : amounts c (w.trace.take j) <+: amounts c (w.trace.take k) :=
    ((List.take_prefix_take_left h).filter _).map _
  exact hprefix.sublist.sum_le_sum fun _ _ => Nat.zero_le _

namespace Worker

variable {cfg : ServerConfig ω σ} {w w' : Worker σ}

theorem admitsRun_true (cfg : ServerConfig ω σ) (ws : List (Wait ω)) (w : Worker σ) :
    AdmitsRun cfg (fun _ _ => True) ws w := by
  induction ws generalizing w with
  | nil => trivial
  | cons x ws ih =>
    cases x with
    | interrupted => exact ih w
    | failed => trivial
    | ready now es => exact ⟨trivial, admits_of_forall (fun _ _ => trivial) es _, fun w' _ => ih w'⟩

theorem bumped_of_run {ws : List (Wait ω)} (h : run cfg ws w = some w') :
    w.metrics.Bumped w'.metrics :=
  (invariant_bumped w.metrics).run (.refl _) (admitsRun_true cfg ws w) h

theorem run_cons (cfg : ServerConfig ω σ) (x : Wait ω) (w : Worker σ) :
    (∃ w₁, run cfg [x] w = some w₁ ∧ ∀ ws, run cfg (x :: ws) w = run cfg ws w₁) ∨
      ∀ ws, run cfg (x :: ws) w = run cfg [x] w := by
  cases x with
  | interrupted => exact .inl ⟨w, rfl, fun _ => rfl⟩
  | failed => exact .inr fun _ => rfl
  | ready now es =>
    cases hround : w.round cfg now es with
    | none =>
      right
      intro ws
      simp [run, hround]
    | some w₁ =>
      by_cases hstopped : w₁.stopped = true
      · right
        intro ws
        simp [run, hround, hstopped]
      · left
        exact ⟨w₁, by simp [run, hround, hstopped], fun ws => by simp [run, hround, hstopped]⟩

/-- A run that has come to its end has come to every earlier point of it. -/
theorem exists_run_take {ws : List (Wait ω)} (hrun : run cfg ws w = some w') (j : ℕ) :
    ∃ v, run cfg (ws.take j) w = some v ∧ v.metrics.Bumped w'.metrics := by
  induction ws generalizing w j with
  | nil =>
    obtain rfl : w = w' := Option.some.inj hrun
    exact ⟨w, by rw [List.take_nil]; rfl, .refl _⟩
  | cons x ws ih =>
    cases j with
    | zero => exact ⟨w, rfl, bumped_of_run hrun⟩
    | succ j =>
      rcases run_cons cfg x w with ⟨w₁, -, hrest⟩ | hend
      · obtain ⟨v, hv, hbumped⟩ := ih ((hrest ws).symm.trans hrun) j
        exact ⟨v, (hrest _).trans hv, hbumped⟩
      · -- the loop has ended: what `epoll_wait` would return later adds nothing
        exact ⟨w', (hend _).trans ((hend ws).symm.trans hrun), .refl _⟩

/-- All that a worker does to its block is to call `bump`, and its trace only grows. When it is as
far as the first `k` calls, however it is interleaved with others that count or look: its block
holds what these calls have added, modulo `2 ^ 64`, others find what was there after some of them,
and the worker itself the latest. Before a counter wraps these are the numbers themselves, and no
thread finds less than it did before. -/
theorem counters_coherent {cfg : ServerConfig ω σ} {listener wakeFd : Fd} {start : ℕ}
    {ws : List (Wait ω)} {w : Worker σ}
    (hrun : run cfg ws (started listener wakeFd start) = some w) :
    (∀ j, ∃ v, run cfg (ws.take j) (started listener wakeFd start) = some v ∧
      v.metrics.trace <+: w.metrics.trace ∧
      v.metrics = WorkerMetrics.play {} v.metrics.trace) ∧
    ∀ (n : ℕ) (s : Fleet n) (i : Fin n) (k : ℕ), s.Reachable (2 ^ 64) Prod.fst →
      (∀ c, s.added (i, c) = amounts c (w.metrics.trace.take k)) →
      (∀ c, (s.memory.stores (i, c)).getLast? =
        some ((w.metrics.after k).read c % 2 ^ 64)) ∧
      (∀ e ∈ s.loads, e.cell.1 = i →
        (∃ j ≤ k, e.value = (w.metrics.after j).read e.cell.2 % 2 ^ 64) ∧
          (e.thread = i → e.value = e.total % 2 ^ 64)) ∧
      ((∀ c, (w.metrics.after k).read c < 2 ^ 64) →
        (∀ c, (s.memory.stores (i, c)).getLast? = some ((w.metrics.after k).read c)) ∧
        (∀ e ∈ s.loads, e.cell.1 = i →
          (∃ j ≤ k, e.value = (w.metrics.after j).read e.cell.2) ∧
            (e.thread = i → e.value = e.total)) ∧
        s.loads.Pairwise fun e f =>
          e.thread = f.thread → e.cell = f.cell → e.cell.1 = i → e.value ≤ f.value) := by
  refine ⟨fun j => ?_, fun n s i k hs hadded => ?_⟩
  · obtain ⟨v, hv, hbumped⟩ := exists_run_take hrun j
    have hstart : WorkerMetrics.Bumped {} v.metrics := bumped_of_run hv
    exact ⟨v, hv, hbumped.trace_prefix, hstart.eq_play⟩
  · obtain ⟨hnewest, hloads, htotals, hlater⟩ := Fleet.coherent hs hadded
    refine ⟨hnewest, hloads, fun hM => ⟨fun c => ?_, fun e he hi => ⟨?_, fun ht => ?_⟩, hlater hM⟩⟩
    · rw [hnewest c, Nat.mod_eq_of_lt (hM c)]
    · obtain ⟨j, hj, hvalue⟩ := (hloads e he hi).1
      have hlt := (read_after_mono w.metrics e.cell.2 hj).trans_lt (hM e.cell.2)
      exact ⟨j, hj, hvalue.trans (Nat.mod_eq_of_lt hlt)⟩
    · rw [(hloads e he hi).2 ht, Nat.mod_eq_of_lt ((htotals e he hi).trans_lt (hM e.cell.2))]

/-- Of two threads the first is in the middle of its second addition when the other one looks at
its first counter: once it finds the old value, and once the new one. -/
theorem exists_foreign_loads : ∃ s : Fleet 2, s.Reachable (2 ^ 64) Prod.fst ∧
    s.loads.map (fun e => (e.thread, e.cell, e.value)) =
      [(1, (0, .loopWakeups), 0), (1, (0, .loopWakeups), 1)] ∧
    ∀ c, s.added (0, c) = amounts c [(.loopWakeups, 1), (.loopEvents, 1)] := by
  have hbegin : Relaxed.System.Reachable (2 ^ 64) (Prod.fst : Fin 2 × Counter → Fin 2) _ :=
    .single (.begin (t := 0) (l := (0, .loopWakeups)) (v := 0) 1 0 (by decide) rfl rfl
      (by decide) rfl)
  have hfinish := hbegin.tail (.finish (t := 0) (l := (0, .loopWakeups)) 1 (by decide) rfl
    (by decide))
  have hbegin' := hfinish.tail (.begin (t := 0) (l := (0, .loopEvents)) (v := 0) 1 0 (by decide) rfl
    rfl (by decide) rfl)
  have hold := hbegin'.tail (.load (t := 1) (l := (0, .loopWakeups)) (v := 0) 0 (by decide) rfl
    (by decide) rfl)
  have hnew := hold.tail (.load (t := 1) (l := (0, .loopWakeups)) (v := 1) 1 (by decide) rfl
    (by decide) rfl)
  have hdone := hnew.tail (.finish (t := 0) (l := (0, .loopEvents)) 1 (by decide) rfl (by decide))
  refine ⟨_, hdone, rfl, fun c => ?_⟩
  cases c <;> rfl

/-- A worker has accepted a connection in its only pass; when it has made the first two of its
three additions, another thread has seen the first one come. -/
theorem counters_coherent_accepted : ∃ (w : Worker Unit) (s : Fleet 2),
    run { server := bareServer } [.ready 1 [bareEvent 3 [.ok 5 true] {}]] (started 3 4 1) =
      some w ∧
    w.metrics.trace = [(.loopWakeups, 1), (.loopEvents, 1), (.connectionsAccepted, 1)] ∧
    s.Reachable (2 ^ 64) Prod.fst ∧
    s.loads.map (fun e => (e.thread, e.cell, e.value)) =
      [(1, (0, .loopWakeups), 0), (1, (0, .loopWakeups), 1)] ∧
    (∀ c, (s.memory.stores (0, c)).getLast? = some ((w.metrics.after 2).read c)) ∧
    ∀ e ∈ s.loads, e.cell.1 = 0 → ∃ j ≤ 2, e.value = (w.metrics.after j).read e.cell.2 := by
  have hrun : ((run { server := bareServer } [.ready 1 [bareEvent 3 [.ok 5 true] {}]]
      (started 3 4 1)).any fun w => decide (w.metrics.trace =
        [(.loopWakeups, 1), (.loopEvents, 1), (.connectionsAccepted, 1)])) = true := by
    decide +kernel
  obtain ⟨w, hw, htest⟩ := (Option.any_eq_true _ _).mp hrun
  have htrace := of_decide_eq_true htest
  obtain ⟨s, hs, hloads, hadded⟩ := exists_foreign_loads
  have hsmall (c : Counter) : (w.metrics.after 2).read c < 2 ^ 64 := by
    rw [WorkerMetrics.after, htrace]
    cases c <;> decide +revert
  obtain ⟨-, -, hexact⟩ := (counters_coherent hw).2 2 s 0 2 hs fun c => by rw [hadded, htrace]; rfl
  obtain ⟨hnewest, hfound, -⟩ := hexact hsmall
  exact ⟨w, s, hw, htrace, hs, hloads, hnewest, fun e he hi => (hfound e he hi).1⟩
end Worker

end Httpd
