import Httpd.Server.Intake
import Httpd.Server.Worker

/-! # The request timer

The timer of a request is set before the parser is fed and cleared with the response. What a
client has sent since the last response is followed along a run. The parser skips empty lines
before a request line, so a client that sends nothing but these has its timer running without
a request; in every other case a running timer has bytes of a request to wait for.
-/

namespace Httpd

open Loop Relation

variable {ω σ : Type}

def emptyLines (j : ℕ) : Bytes := (List.replicate j kCRLF).flatten

theorem emptyLines_succ (j : ℕ) : emptyLines (j + 1) = kCRLF ++ emptyLines j := by
  rw [emptyLines, List.replicate_succ, List.flatten_cons, emptyLines]

theorem emptyLines_add (i j : ℕ) : emptyLines (i + j) = emptyLines i ++ emptyLines j := by
  rw [emptyLines, List.replicate_add, List.flatten_append, emptyLines, emptyLines]

theorem emptyLines_succ_ne_nil (j : ℕ) : emptyLines (j + 1) ≠ [] := by
  rw [emptyLines_succ]
  simp [kCRLF]

/-- There is a line that is not empty. -/
def HasLine (v : Bytes) : Prop :=
  ∃ j line t, v = emptyLines j ++ (line ++ (kCRLF ++ t)) ∧ line ≠ [] ∧ CrlfFree line

theorem hasLine_of_line {line : Bytes} (hne : line ≠ []) (hl : CrlfFree line) (t : Bytes) :
    HasLine (line ++ kCRLF ++ t) :=
  ⟨0, line, t, by simp [emptyLines], hne, hl⟩

theorem HasLine.append {v : Bytes} (h : HasLine v) (w : Bytes) : HasLine (v ++ w) := by
  obtain ⟨j, line, t, rfl, hne, hl⟩ := h
  exact ⟨j, line, t ++ w, by simp, hne, hl⟩

theorem HasLine.emptyLines_append {v : Bytes} (h : HasLine v) (i : ℕ) :
    HasLine (emptyLines i ++ v) := by
  obtain ⟨j, line, t, rfl, hne, hl⟩ := h
  exact ⟨i + j, line, t, by rw [emptyLines_add, List.append_assoc], hne, hl⟩

theorem HasLine.ne_emptyLines {v : Bytes} (h : HasLine v) (n : ℕ) : v ≠ emptyLines n := by
  obtain ⟨j, line, t, rfl, hne, hl⟩ := h
  induction j generalizing n with
  | zero =>
    intro h
    cases n with
    | zero => simp [emptyLines, hne] at h
    | succ n =>
      rw [emptyLines_succ] at h
      -- the first line would be empty
      cases line with
      | nil => exact hne rfl
      | cons c line =>
        cases line with
        | nil => simp [emptyLines, kCRLF, CR, LF] at h
        | cons c' line =>
          simp only [emptyLines, List.replicate_zero, List.flatten_nil, List.nil_append, kCRLF,
            List.cons_append, List.cons.injEq] at h
          exact hl ⟨[], line, by simp [kCRLF, h.1, h.2.1]⟩
  | succ j ih =>
    intro h
    cases n with
    | zero => simp [emptyLines, kCRLF] at h
    | succ n =>
      rw [emptyLines_succ, emptyLines_succ, List.append_assoc] at h
      exact ih n (List.append_cancel_left h)

namespace RequestParser

variable {p : RequestParser}

theorem feed_started (h : p.started = true) (d : Bytes) : (p.feed d).1.started = true := by
  refine feed_keeps (I := fun q => q.started = true) (fun {p u q} hu hp => ?_)
    (fun {p rest q n} hf _ => ?_) h d
  · by_contra hq
    cases hp.symm.trans (hu.started (Bool.eq_false_iff.mpr hq))
  · simp [started, hf.state]

/-- A parser that has not started uses up empty lines, and a line more if it starts. -/
theorem feed_unstarted (h : p.started = false) (d : Bytes) :
    ((p.feed d).1 = p ∧ ∃ j, d.take (p.feed d).2 = emptyLines j) ∨ (p.feed d).1.failed = true ∨
      ((p.feed d).1.started = true ∧ HasLine (d.take (p.feed d).2)) := by
  have hs : p.state = .requestLine := by simpa [started] using h
  clear h
  unfold feed
  induction p, d using machine.induct with
  | h p d ih =>
    cases hstep : machine.step p d with
    | stop q n =>
      rw [machine.feed_stop hstep]
      rcases feedStep_stop hstep with ⟨rfl, rfl, _⟩ | hf
      · exact .inl ⟨rfl, 0, rfl⟩
      · exact .inr (.inl (by simp [failed, hf.state]))
    | more q n =>
      have ih := ih q n hstep
      rw [machine.feed_more hstep]
      obtain ⟨u, t, rfl, rfl, hu⟩ := feedStep_more hstep
      rw [List.drop_left] at ih ⊢
      simp only [Incremental.shift_fst, Incremental.shift_snd, List.take_length_add_append]
      cases hu with
      | blank =>
        rcases ih hs with ⟨hq, j, hj⟩ | hf | ⟨hq, hline⟩
        · exact .inl ⟨hq, j + 1, by rw [hj, emptyLines_succ]⟩
        · exact .inr (.inl hf)
        · exact .inr (.inr ⟨hq, by simpa [emptyLines] using hline.emptyLines_append 1⟩)
      | requestLine _ hne hl =>
        exact .inr (.inr ⟨feed_started rfl t, hasLine_of_line hne hl _⟩)
      | _ => simp_all

end RequestParser

/-- What the timer of a connection depends on. The bytes `owed` have been received and are not
those of a request that has been answered. -/
structure Watch where
  parser : RequestParser
  inBuf : Bytes
  owed : Bytes
  start : ℕ

namespace Watch

def feed (w : Watch) (now : ℕ) : Watch :=
  let u := w.parser.feed w.inBuf
  { w with
    parser := u.1
    inBuf := w.inBuf.drop u.2
    start := if w.start = 0 then now else w.start }

def settle (w : Watch) (p : RequestParser) : Watch :=
  { w with parser := p, owed := w.inBuf, start := 0 }

inductive Step (now : ℕ) : Watch → Watch → Prop where
  | recv {w : Watch} (d : Bytes) :
      Step now w { w with inBuf := w.inBuf ++ d, owed := w.owed ++ d }
  | feed {w : Watch} : w.inBuf ≠ [] → (w.feed now).parser.failed = false → Step now w (w.feed now)
  | answer {w : Watch} : Step now w ((w.feed now).settle (w.feed now).parser.reset)
  | reject {w : Watch} : (w.feed now).parser.failed = true →
      Step now w ((w.feed now).settle (w.feed now).parser)

structure Uses (clock : Prop) (w : Watch) (used : Bytes) : Prop where
  owed : w.owed = used ++ w.inBuf
  unstarted : w.parser.started = false → ∃ j, used = emptyLines j
  started : w.parser.started = true → w.parser.failed = true ∧ used = [] ∨ HasLine used
  running : w.start ≠ 0 → used ≠ [] ∨ w.inBuf ≠ []
  stopped : clock → w.start = 0 → used = []

variable {clock : Prop} {w w' : Watch} {used : Bytes} {now : ℕ}

theorem Uses.feed (h : w.Uses clock used) (hnow : clock → now ≠ 0) (hin : w.inBuf ≠ [])
    (hf : (w.feed now).parser.failed = false) :
    (w.feed now).Uses clock (used ++ w.inBuf.take (w.parser.feed w.inBuf).2) := by
  have hsplit : w.inBuf.take (w.parser.feed w.inBuf).2 ++ (w.feed now).inBuf = w.inBuf :=
    List.take_append_drop ..
  have hfailed : w.parser.failed = false := by
    by_contra hfail
    rw [Bool.not_eq_false] at hfail
    have hfeed : w.parser.feed w.inBuf = (w.parser, 0) :=
      RequestParser.Waits.feed (.ended (.inr (by simpa [RequestParser.failed] using hfail)))
    simp [Watch.feed, hfeed, hfail] at hf
  refine ⟨?_, fun hs => ?_, fun hs => ?_, fun _ => ?_, fun hc hstart => ?_⟩
  · rw [List.append_assoc, hsplit]
    exact h.owed
  · -- a started parser stays so, and one that has not started has used empty lines
    have hold : w.parser.started = false := by
      by_contra hold
      rw [Bool.not_eq_false] at hold
      cases (RequestParser.feed_started hold w.inBuf).symm.trans hs
    obtain ⟨i, rfl⟩ := h.unstarted hold
    rcases RequestParser.feed_unstarted hold w.inBuf with ⟨_, j, hj⟩ | hfail | ⟨hnew, _⟩
    · exact ⟨i + j, by rw [hj, emptyLines_add]⟩
    · cases hfail.symm.trans hf
    · cases hnew.symm.trans hs
  · right
    cases hold : w.parser.started with
    | true => exact ((h.started hold).resolve_left (by simp [hfailed])).append _
    | false =>
      obtain ⟨i, rfl⟩ := h.unstarted hold
      rcases RequestParser.feed_unstarted hold w.inBuf with ⟨hsame, _⟩ | hfail | ⟨_, hline⟩
      · cases (hold.symm.trans (congrArg RequestParser.started hsame.symm)).trans hs
      · cases hfail.symm.trans hf
      · exact hline.emptyLines_append i
  · by_contra hnil
    simp only [not_or, not_not, List.append_eq_nil_iff] at hnil
    rw [hnil.1.2, hnil.2] at hsplit
    exact hin hsplit.symm
  · simp only [Watch.feed] at hstart
    split at hstart
    · exact absurd hstart (hnow hc)
    · next h => exact absurd hstart h

theorem Uses.step (h : w.Uses clock used) (hnow : clock → now ≠ 0) (hstep : w.Step now w') :
    ∃ used', w'.Uses clock used' := by
  cases hstep with
  | recv d =>
    refine ⟨used, by simp [h.owed], h.unstarted, h.started, fun hs => ?_, h.stopped⟩
    exact (h.running hs).imp_right fun hin => by simp [hin]
  | feed hin hf => exact ⟨_, h.feed hnow hin hf⟩
  | answer =>
    exact ⟨[], rfl, fun _ => ⟨0, rfl⟩, fun hs => (by cases hs), fun hs => absurd rfl hs,
      fun _ _ => rfl⟩
  | reject hf =>
    exact ⟨[], rfl, fun _ => ⟨0, rfl⟩, fun _ => .inl ⟨hf, rfl⟩, fun hs => absurd rfl hs,
      fun _ _ => rfl⟩

/-- A running timer has something to wait for, unless empty lines are all that is unanswered. -/
theorem Uses.timed (h : w.Uses clock used) :
    (¬ (w.inBuf = [] ∧ ∃ j, w.owed = emptyLines (j + 1)) →
      w.start ≠ 0 → w.parser.started = true ∨ w.inBuf ≠ []) ∧
    (clock → (w.start ≠ 0 → w.parser.started = true ∨ w.inBuf ≠ []) →
      ¬ (w.inBuf = [] ∧ ∃ j, w.owed = emptyLines (j + 1))) := by
  have howed : w.inBuf = [] → w.owed = used := fun hin => by rw [h.owed, hin, List.append_nil]
  constructor
  · intro hblank hstart
    by_contra hnot
    simp only [not_or, Bool.not_eq_true, not_not] at hnot
    obtain ⟨hs, hin⟩ := hnot
    obtain ⟨j, hj⟩ := h.unstarted hs
    cases j with
    | zero => exact ((h.running hstart).resolve_right fun h => h hin) hj
    | succ j => exact hblank ⟨hin, j, (howed hin).trans hj⟩
  · rintro hc hT ⟨hin, j, hj⟩
    have hused : used = emptyLines (j + 1) := (howed hin).symm.trans hj
    have hne := hused ▸ emptyLines_succ_ne_nil j
    have hs := (hT fun h0 => hne (h.stopped hc h0)).resolve_right fun h => h hin
    rcases h.started hs with ⟨_, hnil⟩ | hline
    · exact hne hnil
    · exact hline.ne_emptyLines _ hused

end Watch

def Reply.final : Reply σ → Bool
  | .interim => false
  | .answer _ _ _ => true
  | .failure _ _ => true

namespace Session

variable {srv : Server ω σ} {m : Moment ω} {s t : Session σ} {A : Moment ω → Kernel → Prop}
  {k : Kernel} {u : Bytes}

def finals (s : Session σ) : ℕ := (s.log.map Prod.fst).countP Reply.final

/-- What is unanswered after a step, from what was before it. -/
def owedAfter (s t : Session σ) (u : Bytes) : Bytes :=
  if t.finals = s.finals then u ++ t.received.drop s.received.length else t.conn.inBuf

/-- A connection in a run, with the bytes that it has received since the end of the last request
that it has answered. -/
inductive Owes (srv : Server ω σ) (A : Moment ω → Kernel → Prop) : Session σ → Bytes → Prop where
  | accepted (now : ℕ) : Owes srv A (accepted srv now) []
  | wake {s : Session σ} {u : Bytes} (readable writable : Bool) (w : WorkerMetrics) (k : Kernel) :
      Owes srv A s u → Owes srv A (s.wake readable writable w k) u
  | step {m : Moment ω} {k : Kernel} {s t : Session σ} {u : Bytes} : A m k →
      k.Advances s.kernel → Owes srv A s u → Step srv m s t → Owes srv A t (s.owedAfter t u)

theorem invariant_owes : Invariant srv A fun s => ∃ u, Owes srv A s u where
  accepted now := ⟨[], .accepted now⟩
  wake readable writable w k := by
    rintro ⟨u, hu⟩
    exact ⟨u, hu.wake readable writable w k⟩
  step hA hk := by
    rintro ⟨u, hu⟩ hstep
    exact ⟨_, .step hA hk hu hstep⟩

def watch (s : Session σ) (u : Bytes) : Watch where
  parser := s.conn.parser
  inBuf := s.conn.inBuf
  owed := u
  start := s.conn.requestStartUs

theorem owedAfter_of_finals (h : t.finals = s.finals) :
    s.owedAfter t u = u ++ t.received.drop s.received.length := if_pos h

theorem owedAfter_of_reply {r : Reply σ} (hr : r.final = true)
    (h : t.log.map Prod.fst = s.log.map Prod.fst ++ [r]) : s.owedAfter t u = t.conn.inBuf := by
  apply if_neg
  rw [finals, h, List.countP_append, List.countP_singleton, if_pos hr, finals]
  omega

theorem watch_same (hp : t.conn.parser = s.conn.parser) (hin : t.conn.inBuf = s.conn.inBuf)
    (hr : t.received = s.received) (hl : t.log.map Prod.fst = s.log.map Prod.fst)
    (hm : t.marks = s.marks) : t.watch (s.owedAfter t u) = s.watch u := by
  have hfinals : t.finals = s.finals := by rw [finals, hl, finals]
  have hstart : t.conn.requestStartUs = s.conn.requestStartUs := congrArg Prod.snd hm
  rw [watch, watch, owedAfter_of_finals hfinals, hp, hin, hr, hstart, List.drop_length,
    List.append_nil]

theorem watch_of_intake (h : t.intake = s.intake) (hm : t.marks = s.marks) :
    t.watch (s.owedAfter t u) = s.watch u :=
  watch_same (congrArg Intake.parser h) (congrArg Intake.inBuf h) (congrArg Intake.received h)
    (congrArg Intake.replies h) hm

theorem watch_reply {r : Reply σ} {p : RequestParser} (hr : r.final = true)
    (hl : t.log.map Prod.fst = s.log.map Prod.fst ++ [r]) (hp : t.conn.parser = p)
    (hin : t.conn.inBuf = (s.feedInput m).conn.inBuf) (hstart : t.conn.requestStartUs = 0) :
    t.watch (s.owedAfter t u) = ((s.watch u).feed m.nowUs).settle p := by
  rw [owedAfter_of_reply hr hl, watch, hp, hin, hstart]
  rfl

/-- A step of a connection is a step of what its timer depends on, or leaves that alone. -/
theorem Step.watch (h : Step srv m s t) (u : Bytes) :
    t.watch (s.owedAfter t u) = s.watch u ∨
      (s.watch u).Step m.nowUs (t.watch (s.owedAfter t u)) := by
  cases h with
  | interrupted => exact .inl (watch_of_intake rfl rfl)
  | @recv d rs =>
    right
    have howed : s.owedAfter ((s.setRecvs rs).commit m.nowUs (d.take kReadSize)) u =
        u ++ d.take kReadSize := by
      have hfinals : ((s.setRecvs rs).commit m.nowUs (d.take kReadSize)).finals = s.finals := rfl
      rw [owedAfter_of_finals hfinals]
      simp [commit, setRecvs]
    rw [howed]
    exact .recv (d.take kReadSize)
  | eof => exact .inl (watch_of_intake rfl rfl)
  | noInput => exact .inl (watch_of_intake rfl rfl)
  | feed _ hin hf _ =>
    right
    have howed : s.owedAfter (s.feedInput m) u = u :=
      (owedAfter_of_finals rfl).trans (by simp [feedInput])
    rw [howed]
    exact .feed hin hf
  | interim =>
    left
    have hfinals : s.sayContinue.finals = s.finals := by
      simp [finals, sayContinue, say, Reply.final]
    have howed : s.owedAfter s.sayContinue u = u := by
      rw [owedAfter_of_finals hfinals]
      simp [sayContinue, say]
    rw [howed]
    rfl
  | answer =>
    right
    have hi : ((s.feedInput m).dispatchNext srv m).intake = _ := dispatchNext_intake
    have hw : ((s.feedInput m).dispatchNext srv m).watch _ =
        ((s.watch u).feed m.nowUs).settle ((s.watch u).feed m.nowUs).parser.reset :=
      watch_reply rfl dispatchNext_replies (congrArg Intake.parser hi) (congrArg Intake.inBuf hi)
        rfl
    exact hw ▸ .answer
  | reject _ _ hf =>
    right
    have hi : ((s.feedInput m).parseError m).intake = _ := parseError_intake
    have hw : ((s.feedInput m).parseError m).watch _ =
        ((s.watch u).feed m.nowUs).settle ((s.watch u).feed m.nowUs).parser :=
      watch_reply rfl parseError_replies (congrArg Intake.parser hi) (congrArg Intake.inBuf hi) rfl
    exact hw ▸ .reject hf
  | sendAgain => exact .inl (watch_of_intake rfl rfl)
  | send => exact .inl (watch_of_intake (sendSome_intake ..) (sendSome_marks ..))
  | fileAgain => exact .inl (watch_of_intake rfl rfl)
  | file => exact .inl (watch_of_intake (fileStep_intake ..) (fileStep_marks ..))
  | refill _ _ _ _ hr => exact .inl (watch_of_intake (refills_intake hr) (refills_marks hr))
  | @refillEnd v _ _ _ _ _ hr =>
    left
    have hi : v.intake = s.intake := refills_intake hr
    have hm : v.finishStream.marks = s.marks := finishStream_marks.trans (refills_marks hr)
    rcases finishStream_intake (s := v) with h | h
    · exact watch_of_intake (h.trans hi) hm
    · rw [hi] at h
      exact watch_same (congrArg Intake.parser h) (congrArg Intake.inBuf h)
        (congrArg Intake.received h) (congrArg Intake.replies h) hm

theorem Owes.uses (h : Owes srv A s u) :
    ∃ used, (s.watch u).Uses (∀ m k, A m k → m.nowUs ≠ 0) used := by
  induction h with
  | accepted now =>
    exact ⟨[], rfl, fun _ => ⟨0, rfl⟩, fun hs => (by cases hs), fun hs => absurd rfl hs,
      fun _ _ => rfl⟩
  | wake readable writable w k _ ih => exact ih
  | @step m k s t u hA hk _ hstep ih =>
    obtain ⟨used, hused⟩ := ih
    rcases hstep.watch u with h | h
    · exact ⟨used, h ▸ hused⟩
    · exact hused.step (fun hclock => hclock m k hA) h

/-- Empty lines are all that the connection has received since its last response, and they have
been skipped. -/
def OnlyEmptyLines (s : Session σ) (u : Bytes) : Prop :=
  s.conn.inBuf = [] ∧ ∃ j, u = emptyLines (j + 1)

/-- The timer of a request runs only while there are bytes of a request. -/
def TimerSound (s : Session σ) : Prop :=
  s.conn.requestStartUs ≠ 0 → s.conn.parser.started = true ∨ s.conn.inBuf ≠ []

instance (s : Session σ) : Decidable s.TimerSound :=
  inferInstanceAs (Decidable (_ → _))

theorem Owes.timerSound (h : Owes srv A s u) : (¬ s.OnlyEmptyLines u → s.TimerSound) ∧
    ((∀ m k, A m k → m.nowUs ≠ 0) → s.TimerSound → ¬ s.OnlyEmptyLines u) := by
  obtain ⟨used, hused⟩ := h.uses
  exact hused.timed

theorem TimerSound.headerExpired (h : s.TimerSound) (hs : s.conn.parser.started = false)
    (hin : s.conn.inBuf = []) (cfg : ServerConfig ω σ) (now : ℕ) :
    s.conn.headerExpired cfg now = false := by
  have hstart : s.conn.requestStartUs = 0 := by
    by_contra hstart
    rcases h hstart with h | h
    · cases hs.symm.trans h
    · exact h hin
  simp [Connection.headerExpired, hstart]

theorem steps_of_process {fuel : ℕ} {progress : Bool}
    (h : s.process srv m fuel = .ok (t, progress)) : Steps srv m s t := by
  have hmeets : Meets (Steps srv m s) _ (s.process srv m fuel) := process_meets
  rw [h] at hmeets
  exact hmeets.1

/-- At the end of `process` a running timer has bytes of a request to wait for, unless the client
has sent nothing but empty lines since the last response; then the timer does run. So, but for
such lines, the header timeout does not apply where nothing of a request has been received. -/
theorem request_timer_iff (srv : Server ω σ) (A : Moment ω → Kernel → Prop) :
    (∀ {s₀ s t : Session σ} {m : Moment ω} {k : Kernel} {readable writable : Bool}
      {w : WorkerMetrics} {fuel : ℕ} {progress : Bool}, Open srv A s₀ → A m k →
      Steps srv m (s₀.wake readable writable w k) s → s.process srv m fuel = .ok (t, progress) →
      (∃ u, Owes srv A t u) ∧ ∀ u, Owes srv A t u → (¬ t.OnlyEmptyLines u → t.TimerSound) ∧
        ((∀ m k, A m k → m.nowUs ≠ 0) → t.TimerSound → ¬ t.OnlyEmptyLines u)) ∧
    ∀ {t : Session σ}, Open srv A t → (∃ u, Owes srv A t u) ∧ ∀ u, Owes srv A t u →
      t.conn.parser.started = false → t.conn.inBuf = [] → ¬ t.OnlyEmptyLines u →
        ∀ (cfg : ServerConfig ω σ) (now : ℕ), t.conn.headerExpired cfg now = false := by
  constructor
  · intro s₀ s t m k readable writable w fuel progress hopen hA hsteps hprocess
    have hsteps' := hsteps.trans (steps_of_process hprocess)
    exact ⟨invariant_owes.steps_wake hA (invariant_owes.open hopen) hsteps',
      fun u hu => hu.timerSound⟩
  · intro t hopen
    refine ⟨invariant_owes.open hopen, fun u hu hs hin hempty cfg now => ?_⟩
    exact (hu.timerSound.1 hempty).headerExpired hs hin cfg now

def afterRecv (d : Bytes) : Session Unit :=
  (((accepted bareServer 1).wake true true {} { recvs := [.ok d] }).setRecvs []).commit 1 d

theorem steps_afterRecv {d : Bytes} (hd : d.take kReadSize = d) (hne : d ≠ []) :
    Steps bareServer bareMoment
      ((accepted bareServer 1).wake true true {} { recvs := [.ok d] }) (afterRecv d) := by
  have hstep : Step bareServer bareMoment
      ((accepted bareServer 1).wake true true {} { recvs := [.ok d] }) _ :=
    .recv rfl rfl (hd.symm ▸ hne)
  rw [hd] at hstep
  exact .single hstep

theorem request_timer_iff_partial : ∃ t u,
    (afterRecv (text "G")).process bareServer bareMoment 2 = .ok (t, false) ∧
    Owes bareServer (fun _ _ => True) t u ∧ ¬ t.OnlyEmptyLines u ∧ t.TimerSound := by
  have hsteps := steps_afterRecv (d := text "G") (by decide) (by decide)
  obtain ⟨t, ht, hin⟩ : ∃ t, (afterRecv (text "G")).process bareServer bareMoment 2 =
      .ok (t, false) ∧ t.conn.inBuf ≠ [] := ⟨_, rfl, by decide +kernel⟩
  obtain ⟨⟨u, hu⟩, h⟩ := (request_timer_iff bareServer fun _ _ => True).1 (.accepted 1) trivial
    hsteps ht
  have hempty : ¬ t.OnlyEmptyLines u := fun h => hin h.1
  exact ⟨t, u, ht, hu, hempty, (h u hu).1 hempty⟩

/-- The timer runs after an empty line, and the connection is closed for want of headers. -/
theorem timer_runs_after_empty_line : ∃ t : Session Unit,
    Steps bareServer bareMoment
      ((accepted bareServer 1).wake true true {} { recvs := [.ok kCRLF] }) (afterRecv kCRLF) ∧
    (afterRecv kCRLF).process bareServer bareMoment 2 = .ok (t, true) ∧ ¬ t.TimerSound ∧
    t.conn.headerExpired { server := bareServer } 10000002 = true ∧
    t.conn.idleExpired { server := bareServer } 10000002 = false := by
  refine ⟨_, steps_afterRecv (by decide) (by decide), rfl, ?_, ?_, ?_⟩
  · decide +kernel
  · decide +kernel
  · decide +kernel

end Session

end Httpd
