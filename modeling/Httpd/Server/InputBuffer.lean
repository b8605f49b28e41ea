import Httpd.Server.Intake
import Httpd.Util.ByteBuffer

/-! # The input buffer of a connection

The operations that `do_read` and `process` make on the buffer of a connection. They fit, the
buffer holds the input of the connection, and since room is asked for only while less than the
limit is waiting, its capacity is bounded for the life of the connection.
-/

namespace Httpd

open ByteBuffer Slice Relation

variable {ω σ : Type}

namespace Session

variable {srv : Server ω σ} {m : Moment ω} {s t : Session σ} {A : Moment ω → Kernel → Prop}
  {k : Kernel} {ops : List Op} {c : Bytes}

/-- What a step does with the buffer. Room is asked for before each call of `recv`, whatever the
call gives. -/
inductive Handles (srv : Server ω σ) (s t : Session σ) : List Op → Prop where
  | recv (junk : ℕ → UInt8) (d : Bytes) : s.mayRead srv = true → d.length ≤ kReadSize →
      t.conn.inBuf = s.conn.inBuf ++ d →
      Handles srv s t [.prepare kReadSize junk, .commit d d.length]
  | noBytes (junk : ℕ → UInt8) : s.mayRead srv = true → t.conn.inBuf = s.conn.inBuf →
      Handles srv s t [.prepare kReadSize junk]
  | consume (n : ℕ) : n ≤ s.conn.inBuf.length → t.conn.inBuf = s.conn.inBuf.drop n →
      Handles srv s t [.consume n]
  | nothing : t.conn.inBuf = s.conn.inBuf → Handles srv s t []

/-- A connection in a run, with the operations made on its buffer. A call of `recv` that is
interrupted or fails is a step that changes nothing but the calls to come. -/
inductive Buffered (srv : Server ω σ) (A : Moment ω → Kernel → Prop) :
    Session σ → List Op → Prop where
  | accepted (now : ℕ) : Buffered srv A (accepted srv now) []
  | wake {s : Session σ} {ops : List Op} (readable writable : Bool) (w : WorkerMetrics)
      (k : Kernel) : Buffered srv A s ops → Buffered srv A (s.wake readable writable w k) ops
  | step {m : Moment ω} {k : Kernel} {s t : Session σ} {ops more : List Op} : A m k →
      k.Advances s.kernel → Buffered srv A s ops → Step srv m s t → Handles srv s t more →
      Buffered srv A t (ops ++ more)

theorem Handles.of_intake (h : t.intake = s.intake) : Handles srv s t [] :=
  .nothing (congrArg Intake.inBuf h)

theorem feed_snd_le (p : RequestParser) (b : Bytes) : (p.feed b).2 ≤ b.length :=
  (RequestParser.machine.feed_le p b).1

theorem Step.handles (h : Step srv m s t) : ∃ ops, Handles srv s t ops := by
  cases h with
  | interrupted => exact ⟨_, .of_intake rfl⟩
  | @recv d rs hmay =>
    exact ⟨_, .recv (fun _ => 0) (d.take kReadSize) hmay (List.length_take_le ..) rfl⟩
  | eof hmay => exact ⟨_, .noBytes (fun _ => 0) hmay rfl⟩
  | noInput hmay => exact ⟨_, .noBytes (fun _ => 0) hmay rfl⟩
  | feed => exact ⟨_, .consume _ (feed_snd_le ..) rfl⟩
  | interim => exact ⟨_, .nothing rfl⟩
  | answer =>
    have hi : ((s.feedInput m).dispatchNext srv m).intake = _ := dispatchNext_intake
    exact ⟨_, .consume _ (feed_snd_le ..) (congrArg Intake.inBuf hi)⟩
  | reject =>
    have hi : ((s.feedInput m).parseError m).intake = _ := parseError_intake
    exact ⟨_, .consume _ (feed_snd_le ..) (congrArg Intake.inBuf hi)⟩
  | sendAgain => exact ⟨_, .of_intake rfl⟩
  | send => exact ⟨_, .of_intake (sendSome_intake ..)⟩
  | fileAgain => exact ⟨_, .of_intake rfl⟩
  | file => exact ⟨_, .of_intake (fileStep_intake ..)⟩
  | refill _ _ _ _ hr => exact ⟨_, .of_intake (refills_intake hr)⟩
  | @refillEnd v _ _ _ _ _ hr =>
    have hi : v.intake = s.intake := refills_intake hr
    refine ⟨_, .nothing ?_⟩
    rcases finishStream_intake (s := v) with h | h
    · exact congrArg Intake.inBuf (h.trans hi)
    · rw [hi] at h
      exact congrArg Intake.inBuf h

theorem invariant_buffered : Invariant srv A fun s => ∃ ops, Buffered srv A s ops where
  accepted now := ⟨[], .accepted now⟩
  wake readable writable w k := by
    rintro ⟨ops, hops⟩
    exact ⟨ops, hops.wake readable writable w k⟩
  step hA hk := by
    rintro ⟨ops, hops⟩ hstep
    obtain ⟨more, hmore⟩ := hstep.handles
    exact ⟨_, .step hA hk hops hstep hmore⟩

end Session

namespace ByteBuffer

variable {limit chunk : ℕ} {ops : List Op} {c : Bytes}

/-- The operations fit and leave this content. Room for no more than a chunk has been asked for,
and only below the limit. -/
structure Within (limit chunk : ℕ) (ops : List Op) (c : Bytes) : Prop where
  fit : Fit ops
  content : (queue ops).content = c
  live : (queue ops).live < limit
  want : (queue ops).want ≤ chunk

theorem Within.nil (h : 0 < limit) : Within limit chunk [] [] :=
  ⟨atEach_nil, rfl, h, Nat.zero_le _⟩

theorem Within.prepare (h : Within limit chunk ops c) (hc : c.length < limit) (junk : ℕ → UInt8) :
    Within limit chunk (ops ++ [.prepare chunk junk]) c where
  fit := atEach_concat.mpr ⟨h.fit, trivial⟩
  content := by rw [queue_concat]; exact h.content
  live := by
    rw [queue_concat]
    exact max_lt h.live (h.content.symm ▸ hc)
  want := by
    rw [queue_concat]
    exact max_le h.want le_rfl

theorem Within.commit {d : Bytes} (h : Within limit chunk ops c)
    (hd : d.length ≤ (queue ops).room) :
    Within limit chunk (ops ++ [.commit d d.length]) (c ++ d) where
  fit := atEach_concat.mpr ⟨h.fit, le_rfl, hd⟩
  content := by
    rw [queue_concat, Op.apply, List.take_length, h.content]
  live := by rw [queue_concat]; exact h.live
  want := by rw [queue_concat]; exact h.want

theorem Within.consume {n : ℕ} (h : Within limit chunk ops c) (hn : n ≤ c.length) :
    Within limit chunk (ops ++ [.consume n]) (c.drop n) where
  fit := atEach_concat.mpr ⟨h.fit, hn.trans_eq (congrArg List.length h.content.symm)⟩
  content := by rw [queue_concat, Op.apply, h.content]
  live := by rw [queue_concat]; exact h.live
  want := by rw [queue_concat]; exact h.want

end ByteBuffer

namespace Session

variable {srv : Server ω σ} {m : Moment ω} {s t : Session σ} {A : Moment ω → Kernel → Prop}
  {ops more : List Op}

theorem Handles.within (h : Handles srv s t more)
    (hs : Within srv.maxInBuffer kReadSize ops s.conn.inBuf) :
    Within srv.maxInBuffer kReadSize (ops ++ more) t.conn.inBuf := by
  cases h with
  | recv junk d hmay hd heq =>
    have hasked := hs.prepare (mayRead_iff.mp hmay).2 junk
    have hroom : (queue (ops ++ [.prepare kReadSize junk])).room = kReadSize := by
      rw [queue_concat]
      rfl
    rw [heq, List.append_cons]
    exact hasked.commit (hroom.symm ▸ hd)
  | noBytes junk hmay heq => exact heq ▸ hs.prepare (mayRead_iff.mp hmay).2 junk
  | consume n hn heq => exact heq ▸ hs.consume hn
  | nothing heq => rwa [List.append_nil, heq]

theorem Buffered.within (h : Buffered srv A s ops) :
    Within srv.maxInBuffer kReadSize ops s.conn.inBuf := by
  induction h with
  | accepted now => exact .nil (lt_max_of_lt_left (by decide))
  | wake readable writable w k _ ih => exact ih
  | step _ _ _ _ hmore ih => exact hmore.within ih

end Session

namespace ByteBuffer

/-- The buffer is a queue of bytes of bounded capacity. Over any operations that fit, it holds
the bytes committed and not consumed, and is no larger than twice what was asked for; making
room succeeds, by a loop of doublings that stays in range, and does not change what can be read.
The operations of a connection fit, so that the capacity stays bounded while it lives. -/
theorem fifo_of_bounded_capacity (fuel : ℕ) (hfuel : 64 ≤ fuel) :
    (∀ ops, Fit ops → (queue ops).Small → ∃ b, run fuel ops = some b ∧
      b.rpos ≤ b.wpos ∧ b.wpos ≤ b.cap ∧ b.readable = (queue ops).content ∧
      b.cap ≤ max 4096 (2 * ((queue ops).live + (queue ops).want)) ∧
      ∀ n junk, ((queue ops).ask n).Small →
        (∃ b', b.prepare fuel junk n = some b' ∧ n ≤ b'.writable ∧ b'.readable = b.readable) ∧
        ∃ k, growLoop b.size n fuel b.startCap = some (b.startCap * 2 ^ k) ∧
          ∀ j ≤ k, b.size ≤ b.startCap * 2 ^ j ∧ b.startCap * 2 ^ j < 2 ^ 64) ∧
    ∀ (srv : Server ω σ) (A : Moment ω → Kernel → Prop), srv.maxInBuffer + kReadSize ≤ 2 ^ 63 →
      (∀ s, Session.Reached srv A s → ∃ ops, Session.Buffered srv A s ops) ∧
      ∀ s ops, Session.Buffered srv A s ops → Fit ops ∧ ∃ b, run fuel ops = some b ∧
        b.readable = s.conn.inBuf ∧ b.cap < 2 * (srv.maxInBuffer + kReadSize) := by
  constructor
  · intro ops hfit hsmall
    obtain ⟨b, hrun, hb⟩ := exists_run hfit hsmall hfuel
    refine ⟨b, hrun, hb.rpos_le, hb.wpos_le, hb.readable_eq hsmall, ?_, fun n junk hn => ⟨?_, ?_⟩⟩
    · exact hb.bound.elim le_max_of_le_left fun h => le_max_of_le_right h.le
    · obtain ⟨b', hb', hholds⟩ := hb.prepare hn hfuel junk
      refine ⟨b', hb', ?_, ?_⟩
      · rw [hholds.writable_eq hn]
        exact hholds.room
      · rw [hholds.readable_eq hn, hb.readable_eq hsmall, Queue.ask]
    · obtain ⟨k, hgrow, hrange, _⟩ := hb.exists_growLoop hn hfuel
      rw [hb.size_eq hsmall]
      exact ⟨k, hgrow, hrange⟩
  · intro srv A hsrv
    refine ⟨fun s hs => Session.invariant_buffered.reached hs, fun s ops hs => ?_⟩
    have hw := hs.within
    have hlive := hw.live
    have hwant := hw.want
    have hsmall : (queue ops).Small := by unfold Queue.Small; omega
    obtain ⟨b, hrun, hb⟩ := exists_run hw.fit hsmall hfuel
    refine ⟨hw.fit, b, hrun, (hb.readable_eq hsmall).trans hw.content, ?_⟩
    have hlimit : 4096 < srv.maxInBuffer := lt_max_of_lt_left (by decide)
    rcases hb.bound with h | h <;> omega

/-- Three bytes are written, two of them committed and one of these consumed; a connection reads
three bytes. -/
theorem fifo_of_bounded_capacity_three :
    (∃ b, run 64 [.prepare 3 fun _ => 0, .commit (text "abc") 2, .consume 1] = some b ∧
      b.readable = text "b" ∧ b.cap ≤ 4096) ∧
    ∃ b, run 64 [.prepare kReadSize fun _ => 0, .commit (text "abc") 3] = some b ∧
      b.readable = text "abc" ∧ b.cap < 2 * (bareServer.maxInBuffer + kReadSize) := by
  have h := fifo_of_bounded_capacity (ω := Unit) (σ := Unit) 64 le_rfl
  constructor
  · have hfit : Fit [.prepare 3 fun _ => 0, .commit (text "abc") 2, .consume 1] :=
      atEach_concat.mpr ⟨atEach_concat.mpr ⟨atEach_concat.mpr ⟨atEach_nil, trivial⟩,
        by decide⟩, by decide⟩
    obtain ⟨b, hrun, _, _, hread, hcap, _⟩ := h.1 _ hfit (by decide)
    exact ⟨b, hrun, hread, hcap⟩
  · have hnew : Session.Buffered bareServer (fun _ _ => True) (.accepted bareServer 1) [] :=
      .accepted 1
    have hbuf := Session.Buffered.step (m := bareMoment) trivial (.refl _)
      (hnew.wake true true {} { recvs := [.ok (text "abc")] }) (.recv rfl rfl (by decide))
      (.recv (fun _ => 0) (text "abc") rfl (by decide) rfl)
    exact ((h.2 bareServer (fun _ _ => True) (by decide +kernel)).2 _ _ hbuf).2

end ByteBuffer

end Httpd
