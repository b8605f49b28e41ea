import Httpd.Server.Backpressure

/-! # Calls of `drive` return

`drive` goes round while a phase makes progress, and each phase is a loop over system calls,
over the requests in the input or over the pieces of a producer. Every pass uses up work, the
results of system calls and the input, or leaves the work as it is and moves the connection to
a later stage. So a call returns once the kernel has nothing to read and no room, whatever the
client sends and however long a producer streams.
-/

namespace Httpd

open Loop Relation

variable {ω σ : Type}

/-- The result of a system call ends the loop that makes it: it fails other than by an
interrupt, or moves nothing. -/
def settles {α : Type} (nothing : α → Bool) : Except Errno α → Bool
  | .ok a => nothing a
  | .error .eintr => false
  | .error _ => true

/-- Something ends `do_read`, and later something ends the drain before a close. -/
def Pauses (rs : List (Except Errno Bytes)) : Prop :=
  ∃ r r', [r, r'].Sublist rs ∧ settles List.isEmpty r = true ∧ Session.isData r' = false

/-- The kernel comes to a point where there is nothing to read, more than once if the connection
is drained, and to one where there is no room. -/
structure Kernel.Settles (k : Kernel) : Prop where
  recvs : Pauses k.recvs
  sends : ∃ r ∈ k.sends, settles (· == 0) r = true
  sendfiles : ∃ r ∈ k.sendfiles, settles (fun x => x.1 == 0) r = true

theorem exists_settles_tail {α : Type} {nothing : α → Bool} {r : Except Errno α}
    {rs : List (Except Errno α)} (h : ∃ q ∈ r :: rs, settles nothing q = true)
    (hr : settles nothing r = false) : ∃ q ∈ rs, settles nothing q = true := by
  obtain ⟨q, hq, hs⟩ := h
  rcases List.mem_cons.mp hq with rfl | hq
  · rw [hr] at hs
    cases hs
  · exact ⟨q, hq, hs⟩

theorem Pauses.tail {r : Except Errno Bytes} {rs : List (Except Errno Bytes)}
    (h : Pauses (r :: rs)) (hr : settles List.isEmpty r = false) : Pauses rs := by
  obtain ⟨q, q', hsub, hq, hq'⟩ := h
  rcases List.sublist_cons_iff.mp hsub with hsub | ⟨_, heq, -⟩
  · exact ⟨q, q', hsub, hq, hq'⟩
  · cases heq
    cases hr.symm.trans hq

theorem Pauses.exists_tail {r : Except Errno Bytes} {rs : List (Except Errno Bytes)}
    (h : Pauses (r :: rs)) : ∃ q ∈ rs, Session.isData q = false := by
  obtain ⟨q, q', hsub, -, hq'⟩ := h
  exact ⟨q', List.singleton_sublist.mp hsub.tail, hq'⟩

theorem Pauses.exists {rs : List (Except Errno Bytes)} (h : Pauses rs) :
    ∃ q ∈ rs, Session.isData q = false := by
  obtain ⟨q, q', hsub, -, hq'⟩ := h
  exact ⟨q', hsub.subset (by simp), hq'⟩

namespace Session

variable {srv : Server ω σ} {m : Moment ω} {s t u : Session σ} {x : Working σ} {fuel b : ℕ}
  {progress : Bool}

/-- The work that is left: the input, and the results of system calls with the input that they
may bring. -/
def work (s : Session σ) : ℕ :=
  RequestParser.machine.size s.conn.parser s.conn.inBuf +
    (2 * kReadSize + 1) * s.kernel.recvs.length + s.kernel.sends.length +
      s.kernel.sendfiles.length

/-- How many times the connection can still go on without work. -/
def stage (s : Session σ) : ℕ :=
  (if s.conn.closeAfterWrite then 0 else 1) + (if s.conn.continueSent then 0 else 1) +
    if s.conn.producer.isSome then if s.conn.outPending = 0 then 2 else 1 else 0

/-- Work counts before stages. -/
def weight (s : Session σ) : ℕ := 5 * s.work + s.stage

theorem stage_le (s : Session σ) : s.stage ≤ 4 := by
  unfold stage
  split <;> split <;> split <;> (try split) <;> omega

theorem weight_lt_of_work (h : t.work < s.work) : t.weight < s.weight := by
  have := t.stage_le
  unfold weight
  omega

theorem weight_lt_of_stage (h : t.work ≤ s.work) (h' : t.stage < s.stage) :
    t.weight < s.weight := by
  unfold weight
  omega

def gates (s : Session σ) : Bool × Bool × Bool :=
  (s.conn.canRead, s.conn.peerClosed, s.conn.canWrite)

/-- As long as the socket is taken to be ready, the script goes on to a result that ends the
loop; and it goes on to one that ends the drain. -/
structure Settling (s : Session σ) : Prop where
  recvs : s.conn.canRead = true → s.conn.peerClosed = false → Pauses s.kernel.recvs
  drain : ∃ r ∈ s.kernel.recvs, isData r = false
  sends : s.conn.canWrite = true → ∃ r ∈ s.kernel.sends, settles (· == 0) r = true
  sendfiles : s.conn.canWrite = true →
    ∃ r ∈ s.kernel.sendfiles, settles (fun x => x.1 == 0) r = true

theorem Settling.of_eq (h : s.Settling) (hg : t.gates = s.gates) (hk : t.kernel = s.kernel) :
    t.Settling := by
  simp only [gates, Prod.mk.injEq] at hg
  obtain ⟨hread, hpeer, hwrite⟩ := hg
  refine ⟨?_, ?_, ?_, ?_⟩
  · rw [hread, hpeer, hk]
    exact h.recvs
  · rw [hk]
    exact h.drain
  · rw [hwrite, hk]
    exact h.sends
  · rw [hwrite, hk]
    exact h.sendfiles

theorem Settling.of_full (h : s.Settling) (t : Session σ) (hr : t.conn.canRead = s.conn.canRead)
    (hp : t.conn.peerClosed = s.conn.peerClosed) (hk : t.kernel.recvs = s.kernel.recvs)
    (hw : t.conn.canWrite = true → (∃ r ∈ t.kernel.sends, settles (· == 0) r = true) ∧
      ∃ r ∈ t.kernel.sendfiles, settles (fun x => x.1 == 0) r = true) : t.Settling := by
  refine ⟨?_, ?_, fun h => (hw h).1, fun h => (hw h).2⟩
  · rw [hr, hp, hk]
    exact h.recvs
  · rw [hk]
    exact h.drain

/-- In the course of a phase: the session is no heavier than at first, and lighter if there has
been progress. -/
structure Advanced (b : ℕ) (x : Working σ) : Prop where
  settling : x.1.Settling
  le : x.1.weight ≤ b
  lt : x.2 = true → x.1.weight < b

theorem Advanced.lower (h : Advanced b x) (ht : t.Settling) (hw : t.weight < x.1.weight)
    (progress : Bool) : Advanced b (t, progress) :=
  ⟨ht, (hw.trans_le h.le).le, fun _ => hw.trans_le h.le⟩

def Advances (b : ℕ) (r : Phase σ) : Prop := r.ok = true → Advanced b (r.session, r.progress)

abbrev Lowers (b : ℕ) (x : Working σ) :
    Except (Session σ) (Flow (Working σ) (Phase σ)) → Prop :=
  Returns (Pass (fun y => Advanced b y ∧ y.1.weight < x.1.weight) (Advances b))

theorem work_setRecvs {r : Except Errno Bytes} {rs : List (Except Errno Bytes)}
    (h : s.kernel.recvs = r :: rs) : (s.setRecvs rs).work + 2 * kReadSize < s.work := by
  simp only [work, setRecvs, h, List.length_cons, Nat.mul_add_one]
  omega

theorem weight_setRecvs {r : Except Errno Bytes} {rs : List (Except Errno Bytes)}
    (h : s.kernel.recvs = r :: rs) : (s.setRecvs rs).weight < s.weight :=
  weight_lt_of_work (lt_of_le_of_lt (Nat.le_add_right _ _) (work_setRecvs h))

theorem weight_commit {d : Bytes} {r : Except Errno Bytes} {rs : List (Except Errno Bytes)}
    (h : s.kernel.recvs = r :: rs) (now : ℕ) :
    ((s.setRecvs rs).commit now (d.take kReadSize)).weight < s.weight := by
  refine weight_lt_of_work (lt_of_le_of_lt ?_ (work_setRecvs h))
  simp only [work, commit, Incremental.Machine.size, List.length_append, List.length_take]
  omega

theorem Settling.setRecvs {rs : List (Except Errno Bytes)} (h : s.Settling)
    (hrs : Pauses rs) : (s.setRecvs rs).Settling :=
  ⟨fun _ _ => hrs, hrs.exists, h.sends, h.sendfiles⟩

theorem readPass_lowers (h : Advanced b x)
    (hr : x.1.conn.canRead = true ∧ x.1.conn.peerClosed = false) :
    Lowers b x (readPass srv m x) := by
  have hs := h.settling.recvs hr.1 hr.2
  unfold readPass
  split
  · split
    · next hk =>
      rw [hk] at hs
      obtain ⟨_, hmem, -⟩ := hs.exists
      cases hmem
    · next d rs hk =>
      rw [hk] at hs
      split
      · have hset : (x.1.setRecvs rs).sawEof.Settling :=
          ⟨fun _ hp => Bool.noConfusion hp, hs.exists_tail, h.settling.sends,
            h.settling.sendfiles⟩
        exact fun _ => h.lower hset (weight_setRecvs hk) true
      · next hd =>
        have hne : settles List.isEmpty (.ok d) = false := by
          cases d with
          | nil => simp at hd
          | cons c d => rfl
        have hset : ((x.1.setRecvs rs).commit m.nowUs (d.take kReadSize)).Settling :=
          (h.settling.setRecvs (hs.tail hne)).of_eq rfl rfl
        exact ⟨h.lower hset (weight_commit hk _) true, weight_commit hk _⟩
    · next rs hk =>
      rw [hk] at hs
      have hset := h.settling.setRecvs (hs.tail rfl)
      exact ⟨h.lower hset (weight_setRecvs hk) _, weight_setRecvs hk⟩
    · next rs hk =>
      rw [hk] at hs
      have hset : (x.1.setRecvs rs).stopReading.Settling :=
        ⟨fun hc => Bool.noConfusion hc, hs.exists_tail, h.settling.sends, h.settling.sendfiles⟩
      exact fun _ => h.lower hset (weight_setRecvs hk) _
    · exact fun hok => Bool.noConfusion hok
  · exact fun _ => h

theorem readPass_keeps (hr : x.1.conn.canRead = true ∧ x.1.conn.peerClosed = false) :
    Meets (fun _ => True)
      (Pass (fun y => y.1.conn.canRead = true ∧ y.1.conn.peerClosed = false) fun _ => True)
      (readPass srv m x) := by
  unfold readPass
  repeat' split
  all_goals trivial

theorem readPhase_returns (h : s.Settling) (hfuel : s.weight < fuel) :
    Returns (Advances s.weight) (s.readPhase srv m fuel) := by
  have hstart : Advanced s.weight (s, false) := ⟨h, le_rfl, fun hp => absurd hp Bool.false_ne_true⟩
  unfold readPhase
  split
  · next hmay =>
    obtain ⟨⟨hcan, hpeer, -⟩, -⟩ := mayRead_iff.mp hmay
    refine loop_returns (I := fun x => Advanced s.weight x ∧ x.1.conn.canRead = true ∧
      x.1.conn.peerClosed = false) (f := fun x => x.1.weight) ?_ ⟨hstart, hcan, hpeer⟩ hfuel
    intro x hx
    refine ((readPass_lowers hx.1 hx.2).and_pass (readPass_keeps hx.2)).mono (fun _ he => he) ?_
    rintro (y | r) hy
    · exact ⟨⟨hy.1.1, hy.2⟩, hy.1.2⟩
    · exact hy
  · exact fun _ => hstart

theorem work_feedInput_le : (s.feedInput m).work ≤ s.work :=
  Nat.add_le_add_right (Nat.add_le_add_right (Nat.add_le_add_right
    (RequestParser.machine.size_feed_le s.conn.parser s.conn.inBuf) _) _) _

theorem work_feedInput_lt (hf : (s.feedInput m).conn.parser.failed = false)
    (hn : (s.conn.parser.feed s.conn.inBuf).2 ≠ 0) : (s.feedInput m).work < s.work := by
  have hlast : ∀ q d n, RequestParser.machine.step q d =
      .stop (RequestParser.machine.feed s.conn.parser s.conn.inBuf).1 n → n = 0 := by
    intro q d n hstep
    rcases RequestParser.feedStep_stop hstep with ⟨-, hn, -⟩ | hfail
    · exact hn
    · have hfailed : (s.feedInput m).conn.parser.failed = true := by
        rw [RequestParser.failed]
        exact beq_iff_eq.mpr hfail.state
      rw [hf] at hfailed
      cases hfailed
  have hlt := RequestParser.machine.size_feed_lt hlast hn
  exact Nat.add_lt_add_right (Nat.add_lt_add_right (Nat.add_lt_add_right hlt _) _) _

theorem not_producing_of_holdsBack (h : s.holdsBack = false) :
    s.conn.closeAfterWrite = false ∧ s.conn.producer.isSome = false := by
  simp only [holdsBack, Connection.bodySourceActive, Bool.or_eq_false_iff] at h
  exact ⟨h.1.1, h.1.2.2⟩

theorem weight_parseError (h : s.holdsBack = false) : (s.parseError m).weight < s.weight := by
  obtain ⟨hclose, hprod⟩ := not_producing_of_holdsBack h
  refine weight_lt_of_stage le_rfl ?_
  have hafter : (s.parseError m).conn.producer = s.conn.producer := rfl
  rw [stage, stage, hafter, hprod, hclose]
  change 0 + (if s.conn.continueSent then 0 else 1) + 0 < _
  simp

theorem weight_sayContinue (h : s.holdsBack = false) (hw : s.wantsContinue = true) :
    s.sayContinue.weight < s.weight := by
  obtain ⟨-, hprod⟩ := not_producing_of_holdsBack h
  simp only [wantsContinue, Bool.and_eq_true, Bool.not_eq_true'] at hw
  refine weight_lt_of_stage le_rfl ?_
  have hafter : s.sayContinue.conn.producer = s.conn.producer := rfl
  rw [stage, stage, hafter, hprod, hw.1.1.2]
  change (if s.conn.closeAfterWrite then 0 else 1) + 0 + 0 < _
  simp

theorem weight_dispatchNext (h : s.conn.parser.done = true) :
    (s.dispatchNext srv m).weight < s.weight := by
  have hin : (s.dispatchNext srv m).conn.inBuf = s.conn.inBuf :=
    congrArg Intake.inBuf dispatchNext_intake
  have hparser : (s.dispatchNext srv m).conn.parser = s.conn.parser.reset :=
    congrArg Intake.parser dispatchNext_intake
  refine weight_lt_of_work ?_
  have hlt : RequestParser.machine.size s.conn.parser.reset s.conn.inBuf <
      RequestParser.machine.size s.conn.parser s.conn.inBuf :=
    Nat.add_lt_add_left (RequestParser.delimiter.take_rank (if_pos h)) _
  rw [work, work, hin, hparser]
  exact Nat.add_lt_add_right (Nat.add_lt_add_right (Nat.add_lt_add_right hlt _) _) _

theorem gates_dispatchNext : (s.dispatchNext srv m).gates = s.gates := by
  unfold dispatchNext dispatch
  dsimp only [recordResponse, say, gates]
  split
  · unfold installBody
    dsimp only
    repeat' split
    all_goals rfl
  · rfl

theorem Settling.feedInput (h : s.Settling) : (s.feedInput m).Settling := h.of_eq rfl rfl

theorem Settling.parseError (h : s.Settling) : (s.parseError m).Settling := h.of_eq rfl rfl

theorem Settling.sayContinue (h : s.Settling) : s.sayContinue.Settling := h.of_eq rfl rfl

theorem Settling.dispatchNext (h : s.Settling) : (s.dispatchNext srv m).Settling :=
  h.of_eq gates_dispatchNext rfl

theorem weight_feedInput_le : (s.feedInput m).weight ≤ s.weight :=
  Nat.add_le_add_right (Nat.mul_le_mul_left 5 work_feedInput_le) s.stage

theorem processPass_lowers (h : Advanced b x) (hp : x.1.conn.parser.Tame) :
    Returns (Pass (fun y => Advanced b y ∧ y.1.weight < x.1.weight) (Advanced b))
      (processPass srv m x) := by
  unfold processPass
  split
  · exact h
  · next hgate =>
    simp only [Bool.or_eq_true, not_or, Bool.not_eq_true] at hgate
    have hback : (x.1.feedInput m).holdsBack = false := hgate.1
    have hset : (x.1.feedInput m).Settling := h.settling.feedInput
    have hle : (x.1.feedInput m).weight ≤ x.1.weight := weight_feedInput_le
    have htame : (x.1.feedInput m).conn.parser.Tame := hp.feed _
    dsimp only
    rw [if_neg (by simp [htame.threw])]
    split
    · exact h.lower hset.parseError ((weight_parseError hback).trans_le hle) true
    · next hfail =>
      rw [Bool.not_eq_true] at hfail
      cases hdone : (x.1.feedInput m).conn.parser.done with
      | true =>
        rw [wantsContinue_done hdone]
        have hlt : ((x.1.feedInput m).dispatchNext srv m).weight < x.1.weight :=
          (weight_dispatchNext hdone).trans_le hle
        exact ⟨h.lower hset.dispatchNext hlt true, hlt⟩
      | false =>
        cases hw : (x.1.feedInput m).wantsContinue with
        | true => exact h.lower hset.sayContinue ((weight_sayContinue hback hw).trans_le hle) true
        | false =>
          refine ⟨hset, hle.trans h.le, fun hp => ?_⟩
          simp only [Bool.false_eq_true, if_false, Bool.or_eq_true, bne_iff_ne] at hp
          rcases hp with hp | hused
          · exact hle.trans_lt (h.lt hp)
          · exact (weight_lt_of_work (work_feedInput_lt hfail hused)).trans_le h.le

/-- While `process` goes on, its parser has been reset. -/
theorem processPass_tame (hp : x.1.conn.parser.Tame) :
    Meets (fun _ => True) (Pass (fun y => y.1.conn.parser.Tame) fun _ => True)
      (processPass srv m x) := by
  have hnext (s : Session σ) (hs : s.conn.parser.Tame) :
      (s.dispatchNext srv m).conn.parser.Tame := by
    rw [show (s.dispatchNext srv m).conn.parser = s.conn.parser.reset from
      congrArg Intake.parser dispatchNext_intake]
    exact hs.reset
  unfold processPass
  dsimp only
  repeat' split
  all_goals first | trivial | exact hnext _ (hp.feed _)

theorem process_returns (h : s.Settling) (hp : s.conn.parser.Tame) (hfuel : s.weight < fuel) :
    Returns (Advanced s.weight) (s.process srv m fuel) := by
  refine loop_returns (I := fun x => Advanced s.weight x ∧ x.1.conn.parser.Tame)
    (f := fun x => x.1.weight) ?_ ⟨⟨h, le_rfl, fun hp => Bool.noConfusion hp⟩, hp⟩ hfuel
  rintro x ⟨hx, hpx⟩
  refine ((processPass_lowers hx hpx).and_pass (processPass_tame hpx)).mono (fun _ he => he) ?_
  rintro (y | r) hy
  · exact ⟨⟨hy.1.1, hy.2⟩, hy.1.2⟩
  · exact hy

theorem length_lt_takePiece (next : σ) (trailers : Headers) {piece : Bytes} (h : piece ≠ []) :
    s.conn.out.length < ((s.setProducer next trailers).takePiece piece).conn.out.length := by
  have hframe : s.conn.coding.frame piece ≠ [] := by
    cases s.conn.coding with
    | chunked => simp [Coding.frame, appendChunk, h, kCRLF]
    | _ => exact h
  rw [(takePiece_out next trailers piece).1, List.length_append]
  exact Nat.lt_add_of_pos_right (List.length_pos_iff.mpr hframe)

/-- How far a refill is from its end: each piece but the last makes the buffer longer. -/
def missing (x : Session σ × Bool) : ℕ :=
  if x.2 then kProducerLowWater - x.1.conn.out.length + 1 else 0

theorem Refill.missing_lt {x y : Session σ × Bool} (h : Refill srv x y) :
    missing y < missing x := by
  cases h with
  | @piece s t p next more piece trailers _ _ hpiece _ ht hlow =>
    unfold missing
    dsimp only
    split
    · next hmore =>
      have hlt := length_lt_takePiece (s := s) next trailers
        (hpiece (Bool.and_eq_true_iff.mp hmore).1)
      rw [ht, if_pos rfl]
      omega
    · simp

theorem refillPass_returns (x : Session σ × Bool) :
    Returns (Pass (Refill srv x) fun r => r.1 = true →
      r.2 = x ∧ (x.2 = true → kProducerLowWater ≤ x.1.conn.out.length)) (refillPass srv x) := by
  obtain ⟨s, more⟩ := x
  unfold refillPass
  split
  · next hmore =>
    simp only [Bool.and_eq_true, decide_eq_true_eq] at hmore
    obtain ⟨rfl, hlow⟩ := hmore
    dsimp only
    split
    · exact fun hok => Bool.noConfusion hok
    · next p hp =>
      split
      · exact fun hok => Bool.noConfusion hok
      · next more piece trailers next hcall =>
        split
        · exact fun hok => Bool.noConfusion hok
        · next hspin =>
          split
          · exact fun hok => Bool.noConfusion hok
          · next hsize =>
            refine .piece hp hcall (by simpa using hspin) (fun hsized => ?_) rfl hlow
            by_contra hlt
            exact hsize (Bool.and_eq_true_iff.mpr ⟨hsized, decide_eq_true (Nat.lt_of_not_le hlt)⟩)
  · next hmore =>
    refine fun _ => ⟨rfl, fun hm => ?_⟩
    dsimp only at hm hmore ⊢
    rwa [hm, Bool.true_and, decide_eq_true_eq, not_lt] at hmore

structure Aside (s t : Session σ) : Prop where
  gates : t.gates = s.gates
  kernel : t.kernel = s.kernel
  parser : t.conn.parser = s.conn.parser
  inBuf : t.conn.inBuf = s.conn.inBuf
  continueSent : t.conn.continueSent = s.conn.continueSent

theorem Aside.trans (h : s.Aside t) (h' : t.Aside u) : s.Aside u :=
  ⟨h'.gates.trans h.gates, h'.kernel.trans h.kernel, h'.parser.trans h.parser,
    h'.inBuf.trans h.inBuf, h'.continueSent.trans h.continueSent⟩

theorem Aside.settling (h : s.Aside t) (hs : s.Settling) : t.Settling := hs.of_eq h.gates h.kernel

theorem Aside.weight_lt (h : s.Aside t) (hstage : t.stage < s.stage) : t.weight < s.weight := by
  refine weight_lt_of_stage (le_of_eq ?_) hstage
  rw [work, work, h.kernel, h.parser, h.inBuf]

theorem refills_aside {x y : Session σ × Bool} (h : ReflTransGen (Refill srv) x y) :
    x.1.Aside y.1 ∧ y.1.conn.closeAfterWrite = x.1.conn.closeAfterWrite ∧
      y.1.conn.outOff = x.1.conn.outOff := by
  have hframe := refills_frame (f := fun s => (s.gates, s.kernel, s.conn.parser, s.conn.inBuf,
    s.conn.continueSent, s.conn.closeAfterWrite, s.conn.outOff)) (fun s next trailers piece => by
      unfold takePiece consumeStream
      split <;> rfl) h
  simp only [Prod.mk.injEq] at hframe
  obtain ⟨hg, hk, hp, hin, hcont, hclose, hoff⟩ := hframe
  exact ⟨⟨hg, hk, hp, hin, hcont⟩, hclose, hoff⟩

theorem finishStream_aside : s.Aside s.finishStream := by
  unfold finishStream
  dsimp only
  split <;> exact ⟨rfl, rfl, rfl, rfl, rfl⟩

theorem stage_finishStream_le : s.finishStream.stage ≤
    (if s.conn.closeAfterWrite then 0 else 1) + if s.conn.continueSent then 0 else 1 := by
  have hprod : s.finishStream.conn.producer.isSome = false := rfl
  rw [stage, hprod, finishStream_aside.continueSent]
  have hclose : s.finishStream.conn.closeAfterWrite =
    (s.conn.closeAfterWrite || (s.conn.streamSized && s.conn.streamLeft != 0)) := rfl
  rw [hclose]
  cases s.conn.closeAfterWrite with
  | true => simp
  | false =>
    simp only [Bool.false_or, Bool.false_eq_true, if_false, Nat.add_zero]
    split <;> omega

theorem refillLoop_returns (hfuel : kProducerLowWater + 1 < fuel) :
    Returns (fun r : Bool × Session σ × Bool => r.1 = true →
        ReflTransGen (Refill srv) (s, true) r.2 ∧
          (r.2.2 = true → kProducerLowWater ≤ r.2.1.conn.out.length))
      (loop (fun _ => s) (refillPass srv) fuel (s, true)) := by
  refine loop_returns (I := ReflTransGen (Refill srv) (s, true)) (f := missing) ?_ .refl ?_
  · intro x hx
    refine (refillPass_returns x).mono (fun _ he => he) ?_
    rintro (y | r) hr
    · exact ⟨hx.tail hr, hr.missing_lt⟩
    · intro hok
      obtain ⟨rfl, hlow⟩ := hr hok
      exact ⟨hx, hlow⟩
  · rw [missing, if_pos rfl]
    omega

/-- A refill that goes on has filled the buffer, and one that ends the body drops the
producer. -/
theorem refillFromProducer_returns (hset : s.Settling) (hpend : s.conn.outPending = 0)
    (hoff : s.conn.outOff = 0) (hprod : s.conn.producer.isSome = true)
    (hfuel : kProducerLowWater + 1 < fuel) :
    Returns (fun r => r.1 = true → r.2.Settling ∧ r.2.weight < s.weight)
      (s.refillFromProducer srv fuel) := by
  have hstage : s.stage = (if s.conn.closeAfterWrite then 0 else 1) +
      (if s.conn.continueSent then 0 else 1) + 2 := by
    rw [stage, if_pos hprod, if_pos hpend]
  refine (refillLoop_returns hfuel).bind ?_
  rintro ⟨ok, t, more⟩ h
  cases ok with
  | false => exact fun hok => Bool.noConfusion hok
  | true =>
    obtain ⟨hr, hlow⟩ := h rfl
    obtain ⟨haside, hclose, hoff'⟩ := refills_aside hr
    dsimp only at haside hclose hoff' hlow
    cases more with
    | true =>
      refine fun _ => ⟨haside.settling hset, haside.weight_lt ?_⟩
      have hpend' : t.conn.outPending ≠ 0 := by
        have := hlow rfl
        rw [Connection.outPending, hoff', hoff]
        unfold kProducerLowWater at this
        omega
      rw [hstage, stage, hclose, haside.continueSent, if_pos (refills_producer hr hprod),
        if_neg hpend']
      omega
    | false =>
      have hafter := haside.trans finishStream_aside
      refine fun _ => ⟨hafter.settling hset, hafter.weight_lt ?_⟩
      refine stage_finishStream_le.trans_lt ?_
      rw [hstage, hclose, haside.continueSent]
      omega

theorem Settling.setSends {ks : List (Except Errno ℕ)} (h : s.Settling)
    (hks : ∃ r ∈ ks, settles (· == 0) r = true) : (s.setSends ks).Settling :=
  ⟨h.recvs, h.drain, fun _ => hks, h.sendfiles⟩

theorem work_setSends {r : Except Errno ℕ} {ks : List (Except Errno ℕ)}
    (h : s.kernel.sends = r :: ks) : (s.setSends ks).work < s.work := by
  simp only [work, setSends, h, List.length_cons]
  omega

theorem Settling.setSendfiles {ks : List (Except Errno (ℕ × (Fd → Bytes)))} (h : s.Settling)
    (hks : ∃ r ∈ ks, settles (fun x => x.1 == 0) r = true) : (s.setSendfiles ks).Settling :=
  ⟨h.recvs, h.drain, h.sends, fun _ => hks⟩

theorem work_setSendfiles {r : Except Errno (ℕ × (Fd → Bytes))}
    {ks : List (Except Errno (ℕ × (Fd → Bytes)))} (h : s.kernel.sendfiles = r :: ks) :
    (s.setSendfiles ks).work < s.work := by
  simp only [work, setSendfiles, h, List.length_cons]
  omega

theorem sendSome_full (ho : 0 < s.conn.outPending) : (s.sendSome m 0).conn.canWrite = false := by
  unfold sendSome
  dsimp only
  rw [Nat.zero_min, if_pos ho]
  rfl

theorem Settling.sendSome {room : ℕ} {ks : List (Except Errno ℕ)} (h : s.Settling)
    (hw : s.conn.canWrite = true) (ho : 0 < s.conn.outPending)
    (hk : s.kernel.sends = .ok room :: ks) : ((s.setSends ks).sendSome m room).Settling := by
  have hs := h.sends hw
  rw [hk] at hs
  obtain ⟨out, off, can, heq⟩ := exists_sendSome (s.setSends ks) m room
  refine h.of_full _ (by rw [heq]; rfl) (by rw [heq]; rfl) (by rw [heq]; rfl) fun hcan => ?_
  rw [sendSome_kernel]
  refine ⟨exists_settles_tail hs ?_, h.sendfiles hw⟩
  rw [settles, beq_eq_false_iff_ne]
  rintro rfl
  have hfull : ((s.setSends ks).sendSome m 0).conn.canWrite = false := sendSome_full ho
  rw [hcan] at hfull
  cases hfull

theorem weight_sendSome {room : ℕ} {ks : List (Except Errno ℕ)}
    (hk : s.kernel.sends = .ok room :: ks) :
    ((s.setSends ks).sendSome m room).weight < s.weight := by
  obtain ⟨out, off, can, heq⟩ := exists_sendSome (s.setSends ks) m room
  rw [heq]
  exact weight_lt_of_work (work_setSends hk)

theorem sendPass_lowers (h : Advanced b (t, progress)) (hw : t.conn.canWrite = true)
    (ho : 0 < t.conn.outPending) : Lowers b (t, progress) (t.sendPass m progress) := by
  have hset : t.Settling := h.settling
  have hs := hset.sends hw
  unfold sendPass
  split
  · next hk =>
    rw [hk] at hs
    simp at hs
  · next ks hk =>
    rw [hk] at hs
    have hlt := weight_lt_of_work (work_setSends hk)
    exact ⟨h.lower (hset.setSends (exists_settles_tail hs rfl)) hlt _, hlt⟩
  · next ks hk =>
    have hfull := hset.of_full ((t.setSends ks).attempt .blocked).stopWriting rfl rfl rfl
      fun hc => Bool.noConfusion hc
    exact fun _ => h.lower hfull (weight_lt_of_work (work_setSends hk)) _
  · exact fun hok => Bool.noConfusion hok
  · next room ks hk =>
    have hsent := h.lower (hset.sendSome (m := m) hw ho hk) (weight_sendSome hk) true
    dsimp only
    split
    · exact ⟨hsent, weight_sendSome hk⟩
    · exact fun _ => hsent

theorem Settling.moveFile {room : ℕ} {files : Fd → Bytes}
    {ks : List (Except Errno (ℕ × (Fd → Bytes)))} (h : s.Settling) (hw : s.conn.canWrite = true)
    (hk : s.kernel.sendfiles = .ok (room, files) :: ks) (hroom : room ≠ 0) (a : Attempt)
    (left : Bytes) : (((s.setSendfiles ks).attempt a).moveFile m room left).Settling := by
  have hs := h.sendfiles hw
  rw [hk] at hs
  obtain ⟨file, can, heq⟩ := exists_moveFile ((s.setSendfiles ks).attempt a) m room left
  refine h.of_full _ (by rw [heq]; rfl) (by rw [heq]; rfl) (by rw [heq]; rfl) fun _ => ?_
  rw [moveFile_kernel]
  exact ⟨h.sends hw, exists_settles_tail hs (beq_eq_false_iff_ne.mpr hroom)⟩

theorem weight_moveFile {r : Except Errno (ℕ × (Fd → Bytes))} {room : ℕ} {left : Bytes}
    {ks : List (Except Errno (ℕ × (Fd → Bytes)))} (hk : s.kernel.sendfiles = r :: ks)
    (a : Attempt) :
    (((s.setSendfiles ks).attempt a).moveFile m room left).weight < s.weight := by
  obtain ⟨file, can, heq⟩ := exists_moveFile ((s.setSendfiles ks).attempt a) m room left
  rw [heq]
  exact weight_lt_of_work (work_setSendfiles hk)

theorem sendfilePass_lowers {fd : Fd} (h : Advanced b (t, progress))
    (hw : t.conn.canWrite = true) : Lowers b (t, progress) (t.sendfilePass m fd progress) := by
  have hset : t.Settling := h.settling
  have hs := hset.sendfiles hw
  unfold sendfilePass
  split
  · next hk =>
    rw [hk] at hs
    simp at hs
  · next ks hk =>
    rw [hk] at hs
    have hlt := weight_lt_of_work (work_setSendfiles hk)
    exact ⟨h.lower (hset.setSendfiles (exists_settles_tail hs rfl)) hlt _, hlt⟩
  · next ks hk =>
    have hfull := hset.of_full ((t.setSendfiles ks).attempt .blocked).stopWriting rfl rfl rfl
      fun hc => Bool.noConfusion hc
    exact fun _ => h.lower hfull (weight_lt_of_work (work_setSendfiles hk)) _
  · exact fun hok => Bool.noConfusion hok
  · next room files ks hk =>
    dsimp only
    split
    · have hfull := hset.of_full ((t.setSendfiles ks).attempt (.file t.fileWant room
        ((files fd).drop t.conn.fileOff).length)).stopWriting rfl rfl rfl
        fun hc => Bool.noConfusion hc
      exact fun _ => h.lower hfull (weight_lt_of_work (work_setSendfiles hk)) _
    · next hroom =>
      split
      · exact fun hok => Bool.noConfusion hok
      · have hmoved (a : Attempt) (left : Bytes) := h.lower
          (hset.moveFile (m := m) hw hk hroom a left) (weight_moveFile hk a) true
        split
        · exact ⟨hmoved _ _, weight_moveFile hk _⟩
        · exact fun _ => hmoved _ _

theorem writePass_lowers (h : Advanced b x) (hc : x.1.conn.Compact)
    (hfuel : kProducerLowWater + 1 < fuel) : Lowers b x (writePass srv m fuel x) := by
  obtain ⟨t, progress⟩ := x
  unfold writePass
  split
  · exact fun _ => h
  · next hw =>
    rw [Bool.not_eq_true, Bool.not_eq_false'] at hw
    split
    · next ho => exact sendPass_lowers h hw ho
    · next ho =>
      have ho : t.conn.outPending = 0 := by simpa using ho
      split
      · exact sendfilePass_lowers h hw
      · next p hfile hprod =>
        refine (refillFromProducer_returns h.settling ho (hc.out_eq_nil ho).2
          (Option.isSome_iff_exists.mpr ⟨p, hprod⟩) hfuel).bind ?_
        rintro ⟨ok, u⟩ hu
        cases ok with
        | false => exact fun hok => Bool.noConfusion hok
        | true => exact ⟨h.lower (hu rfl).1 (hu rfl).2 true, (hu rfl).2⟩
      · exact fun _ => h

theorem Step.compact (h : Step srv m s t) (hc : s.conn.Compact) : t.conn.Compact := by
  cases h.outputs with
  | same ho hoff => exact (hc.append (b := []) (by rw [ho, List.append_nil]) hoff).1
  | opened r _ _ ho hoff => exact (hc.append ho hoff).1
  | sent n hn ho hoff =>
    rw [Connection.Compact, ho, hoff]
    exact (hc.dropSent hn).1
  | refilled hpend hr =>
    rw [Connection.Compact, (refills_aside hr).2.2, (hc.out_eq_nil hpend).2]
    exact Nat.zero_le _
  | @finished u hpend _ _ hr ht =>
    have hoff : u.finishStream.conn.outOff = u.conn.outOff := by
      unfold finishStream
      dsimp only
      split <;> rfl
    rw [ht, Connection.Compact, hoff, (refills_aside hr).2.2, (hc.out_eq_nil hpend).2]
    exact Nat.zero_le _

theorem Step.tame (h : Step srv m s t) (hs : s.conn.parser.Tame) : t.conn.parser.Tame := by
  rcases h.intake with h | h
  · rwa [show t.conn.parser = s.conn.parser from congrArg Intake.parser h]
  · exact h.tame hs

structure Sane (s : Session σ) : Prop where
  compact : s.conn.Compact
  tame : s.conn.parser.Tame

theorem Steps.sane (h : Steps srv m s t) (hs : s.Sane) : t.Sane := by
  induction h with
  | refl => exact hs
  | tail _ hstep ih => exact ⟨hstep.compact ih.compact, hstep.tame ih.tame⟩

theorem writePhase_returns {before : Bool} (h : Advanced b (s, before)) (hs : s.Sane)
    (hfuel : s.weight < fuel) (hlow : kProducerLowWater + 1 < fuel) :
    Returns (Advances b) (s.writePhase srv m fuel before) := by
  unfold writePhase
  split
  · refine loop_returns (I := fun x => Advanced b x ∧ Writing srv m s before x)
      (f := fun x => x.1.weight) ?_ ⟨h, .refl, fun hb => ⟨hb, _, rfl⟩⟩ hfuel
    rintro x ⟨hx, hwriting⟩
    have hcx : x.1.conn.Compact := (Steps.sane hwriting.1 hs).compact
    refine ((writePass_lowers hx hcx hlow).and_pass (writePass_meets hwriting)).mono
      (fun _ he => he) ?_
    rintro (y | r) hy
    · exact ⟨⟨hy.1.1, hy.2⟩, hy.1.2⟩
    · exact hy
  · exact fun _ => h

theorem finish_returns (h : s.Settling) : Returns (fun _ => True) s.finish := by
  have hlinger : ∀ rs, (∃ r ∈ rs, isData r = false) → Returns (fun _ => True) (s.linger rs) := by
    intro rs
    induction rs with
    | nil => simp
    | cons r rs ih =>
      intro hrs
      rw [linger]
      split
      · next hr => exact ih (by simpa [hr] using hrs)
      · trivial
  unfold finish
  split
  · trivial
  · split
    · exact (hlinger _ h.drain).bind fun _ _ => trivial
    · trivial

theorem drivePass_returns (h : s.Settling) (hs : s.Sane) (hfuel : s.weight < fuel)
    (hlow : kProducerLowWater + 1 < fuel) :
    Returns (Pass (fun t => (t.Settling ∧ t.Sane) ∧ t.weight < s.weight) fun _ => True)
      (s.drivePass srv m fuel) := by
  refine ((readPhase_returns h hfuel).and_meets readPhase_meets).bind ?_
  rintro ⟨ok, u, progress⟩ ⟨hu, hends⟩
  cases ok with
  | false => trivial
  | true =>
    have hu := hu rfl
    obtain ⟨hsteps, -⟩ : Steps srv m s u ∧ _ := hends.elim (fun h => Bool.noConfusion h.1) And.right
    have hsu : u.Sane := Steps.sane hsteps hs
    refine ((process_returns hu.settling hsu.tame (hu.le.trans_lt hfuel)).and_meets
      process_meets).bind ?_
    rintro ⟨q, progress'⟩ ⟨hq, hsteps', -⟩
    have hsq : q.Sane := Steps.sane hsteps' hsu
    have hq' : Advanced s.weight (q, progress || progress') := by
      refine ⟨hq.settling, hq.le.trans hu.le, fun hp => ?_⟩
      rcases Bool.or_eq_true_iff.mp hp with hp | hp
      · exact hq.le.trans_lt (hu.lt hp)
      · exact (hq.lt hp).trans_le hu.le
    refine ((writePhase_returns hq' hsq (hq'.le.trans_lt hfuel) hlow).and_meets
      writePhase_meets).bind ?_
    rintro ⟨ok, w, done⟩ ⟨hw, hends⟩
    cases ok with
    | false => trivial
    | true =>
      obtain ⟨hsteps'', -⟩ : Steps srv m q w ∧ _ :=
        hends.elim (fun h => Bool.noConfusion h.1) And.right
      cases done with
      | false => exact (finish_returns (hw rfl).settling).bind fun _ _ => trivial
      | true => exact ⟨⟨(hw rfl).settling, Steps.sane hsteps'' hsq⟩, (hw rfl).lt rfl⟩

theorem drive_returns (h : s.Settling) (hs : s.Sane) (hfuel : s.weight < fuel)
    (hlow : kProducerLowWater + 1 < fuel) :
    Returns (fun _ => True) (s.drive srv m fuel) := by
  refine loop_returns (I := fun t => (t.Settling ∧ t.Sane) ∧ t.weight ≤ s.weight)
    (f := weight) ?_ ⟨⟨h, hs⟩, le_rfl⟩ hfuel
  rintro t ⟨⟨ht, hts⟩, hle⟩
  refine (drivePass_returns ht hts (hle.trans_lt hfuel) hlow).mono (fun _ he => he) ?_
  rintro (u | r) hu
  · exact ⟨⟨hu.1, hu.2.le.trans hle⟩, hu.2⟩
  · trivial

section Extends

variable {fuel' : ℕ}

theorem refillFromProducer_extends (h : fuel ≤ fuel') :
    Extends (s.refillFromProducer srv fuel) (s.refillFromProducer srv fuel') :=
  .bind (.loop (fun _ => .refl _) h _) fun _ => .refl _

theorem writePass_extends (h : fuel ≤ fuel') :
    Extends (writePass srv m fuel x) (writePass srv m fuel' x) := by
  unfold writePass
  split
  · exact .refl _
  · split
    · exact .refl _
    · split
      · exact .refl _
      · exact .bind (refillFromProducer_extends h) fun _ => .refl _
      · exact .refl _

theorem readPhase_extends (h : fuel ≤ fuel') :
    Extends (s.readPhase srv m fuel) (s.readPhase srv m fuel') := by
  unfold readPhase
  split
  · exact .loop (fun _ => .refl _) h _
  · exact .refl _

theorem writePhase_extends (h : fuel ≤ fuel') :
    Extends (s.writePhase srv m fuel progress) (s.writePhase srv m fuel' progress) := by
  unfold writePhase
  split
  · exact .loop (fun _ => writePass_extends h) h _
  · exact .refl _

theorem drivePass_extends (h : fuel ≤ fuel') :
    Extends (s.drivePass srv m fuel) (s.drivePass srv m fuel') := by
  refine .bind (readPhase_extends h) fun r => ?_
  split
  · exact .refl _
  · refine .bind (.loop (fun _ => .refl _) h _) fun q => ?_
    exact .bind (writePhase_extends h) fun _ => .refl _

/-- A call that returns does so with every larger bound on the passes of its loops. -/
theorem drive_extends (h : fuel ≤ fuel') : Extends (s.drive srv m fuel) (s.drive srv m fuel') :=
  .loop (fun _ => drivePass_extends h) h s

end Extends

variable {A : Moment ω → Kernel → Prop} {k : Kernel}

theorem invariant_sane (hl : srv.limits.maxBodyBytes ≤ srv.limits.maxSize) :
    Invariant srv A Sane where
  accepted _ := ⟨le_rfl, hl, by simp [accepted]⟩
  wake _ _ _ _ h := ⟨h.compact, h.tame⟩
  step _ _ h hstep := ⟨hstep.compact h.compact, hstep.tame h.tame⟩

theorem settling_wake (hk : k.Settles) (readable writable : Bool) (w : WorkerMetrics) :
    (s.wake readable writable w k).Settling :=
  ⟨fun _ _ => hk.recvs, hk.recvs.exists, fun _ => hk.sends, fun _ => hk.sendfiles⟩

theorem quiet_of_drive {r : Bool × Session σ} (h : s.drive srv m fuel = .ok r)
    (hr : r.1 = true) : r.2.Quiet srv := by
  obtain ⟨ok, t⟩ := r
  obtain rfl : ok = true := hr
  obtain ⟨u, -, ⟨hok, -⟩ | ⟨hfin, hquiet⟩⟩ := outcome_of_drive h
  · cases hok
  · rw [(finish_eq_true_iff.mp hfin).1]
    exact hquiet

theorem exists_drive_eq (hl : srv.limits.maxBodyBytes ≤ srv.limits.maxSize) (hs : Open srv A s)
    (hk : k.Settles) (m : Moment ω) (readable writable : Bool) (w : WorkerMetrics) :
    ∃ N r, ∀ fuel, N ≤ fuel → (s.wake readable writable w k).drive srv m fuel = .ok r := by
  have hinv : Invariant srv A Sane := invariant_sane hl
  have hsane : (s.wake readable writable w k).Sane := hinv.wake _ _ _ _ (hinv.open hs)
  have hbound := Nat.lt_succ_self ((s.wake readable writable w k).weight + kProducerLowWater + 1)
  have hreturns : Returns (fun _ => True) ((s.wake readable writable w k).drive srv m _) :=
    drive_returns (settling_wake hk readable writable w) hsane (lt_of_le_of_lt (by omega) hbound)
      (lt_of_le_of_lt (by omega) hbound)
  obtain ⟨r, hr, -⟩ := hreturns.exists_eq
  exact ⟨_, r, fun fuel hle => drive_extends hle r hr⟩

/-- Once the kernel settles, a call on any open connection returns, with the same result for
every bound that is large enough. If it leaves the connection open, nothing more can be read,
dispatched or written. -/
theorem drive_comes_to_rest {srv : Server ω σ} {A : Moment ω → Kernel → Prop} {s : Session σ}
    {k : Kernel} (hl : srv.limits.maxBodyBytes ≤ srv.limits.maxSize) (hs : Open srv A s)
    (hk : k.Settles) (m : Moment ω) (readable writable : Bool) (w : WorkerMetrics) :
    ∃ N r, (∀ fuel, N ≤ fuel → (s.wake readable writable w k).drive srv m fuel = .ok r) ∧
      (r.1 = true → r.2.Quiet srv) := by
  obtain ⟨N, r, hr⟩ := exists_drive_eq hl hs hk m readable writable w
  exact ⟨N, r, hr, quiet_of_drive (hr N le_rfl)⟩

def endlessServer : Server Unit Unit where
  router := Router.add {} (text "GET") (text "/") fun _ _ res =>
    .ok { res with producer := some () }
  call _ _ := .returned true (text "tick\n") .empty ()

/-- A client that stops and sends again. -/
def lateKernel (request : Bytes) : Kernel where
  recvs := [.ok request, .error .eagain, .ok (text "late"), .error .eintr]
  sends := [.error .eintr, .ok 1000, .error .eintr, .ok 70000, .error .eagain]
  sendfiles := [.error .eagain]

theorem settles_lateKernel (request : Bytes) : (lateKernel request).Settles := by
  refine ⟨⟨.error .eagain, .error .eintr, ?_, rfl, rfl⟩, ⟨.error .eagain, ?_, rfl⟩,
    ⟨.error .eagain, ?_, rfl⟩⟩
  · exact .cons _ (.cons_cons _ (.cons _ (.refl _)))
  · simp [lateKernel]
  · simp [lateKernel]

/-- An endless answer stops for want of room; after an answer that closes, what comes late is
drained up to the first result without data. -/
theorem drive_comes_to_rest_late :
    (∃ N r, (∀ fuel, N ≤ fuel → ((accepted endlessServer 1).wake true true {}
        (lateKernel (text "GET / HTTP/1.1\r\nHost: x\r\n\r\n"))).drive endlessServer bareMoment
          fuel = .ok r) ∧ (r.1 = true → r.2.Quiet endlessServer)) ∧
      ∃ N r, (∀ fuel, N ≤ fuel → ((accepted bareServer 1).wake true true {}
        (lateKernel (text "GET / HTTP/1.0\r\n\r\n"))).drive bareServer bareMoment
          fuel = .ok r) ∧ r.1 = false ∧ r.2.kernel.recvs = [] := by
  constructor
  · exact drive_comes_to_rest (A := fun _ _ => True) (by decide) (.accepted 1)
      (settles_lateKernel _) bareMoment true true {}
  · obtain ⟨N, r, hr, -⟩ := drive_comes_to_rest (A := fun _ _ => True)
      (s := accepted bareServer 1) (by decide) (.accepted 1) (settles_lateKernel (text "GET / HTTP/1.0\r\n\r\n")) bareMoment
      true true {}
    obtain ⟨t, ht, htest⟩ := exists_of_returns (r := ((accepted bareServer 1).wake true true {}
        (lateKernel (text "GET / HTTP/1.0\r\n\r\n"))).drive bareServer bareMoment 8)
      (show returns false (fun t => t.kernel.recvs.isEmpty) _ = true by decide +kernel)
    have heq := (hr _ (le_max_left N 8)).symm.trans (drive_extends (le_max_right N 8) _ ht)
    cases heq
    exact ⟨N, _, hr, rfl, List.isEmpty_iff.mp htest⟩

end Session

end Httpd
