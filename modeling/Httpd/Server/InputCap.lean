import Httpd.Server.Wakeup

/-! # The cap of the input buffer

A feed that wants more input must leave less in the buffer than its cap, else nothing is read
any more. The cap is computed from the limits on the request line and on the header section,
modulo `2 ^ 64`. It covers what a parser retains exactly if that sum does not wrap below
one of the two, and the limit on a chunk-size line, which it leaves out, is small enough.
-/

namespace Httpd

open Loop Incremental

variable {ω σ : Type}

/-- The cap exceeds what a parser can retain. The limit on the header section matters only
where the shortest request line is accepted, the limit on a chunk-size line only where the
shortest head that announces chunks is. -/
def Server.CapFits (srv : Server ω σ) : Prop :=
  wrap (srv.limits.maxRequestLine + 1) < srv.maxInBuffer ∧
    (12 ≤ srv.limits.maxRequestLine → srv.limits.maxHeaderBytes ≤ srv.maxInBuffer) ∧
    (12 ≤ srv.limits.maxRequestLine → 36 ≤ srv.limits.maxHeaderBytes →
      2 ≤ srv.limits.maxHeaderCount → wrap (srv.limits.maxChunkLine + 1) < srv.maxInBuffer)

/-- Every feed that has ended neither a request nor the connection has left less than the cap. -/
def RoomLeft (srv : Server ω σ) (fed : List (RequestParser × ℕ)) : Prop :=
  ∀ e ∈ fed, e.1.done = false → e.1.failed = false → e.2 < srv.maxInBuffer

theorem Server.CapFits.retained_lt {srv : Server ω σ} (h : srv.CapFits) {p : RequestParser}
    {rest : Bytes} (hl : p.limits = srv.limits) (hp : p.Accounted) (hw : p.Waits rest)
    (hd : p.done = false) (hf : p.failed = false) : rest.length < srv.maxInBuffer := by
  have hcap : 64 * 1024 ≤ srv.maxInBuffer := le_max_left ..
  obtain ⟨hline, hheaders, hchunk⟩ := h
  rw [← hl] at hline hheaders hchunk
  rcases hw.length_le hd hf with ⟨_, hle⟩ | ⟨hs, hle⟩ | ⟨hc, hle⟩ | hlt
  · exact hle.trans_lt hline
  · have := hheaders (hp.version hs hf).1
    omega
  · obtain ⟨hbytes, hcount⟩ := hp.chunks hc
    have hs : p.started = true := by
      simp only [RequestParser.inChunks, Bool.or_eq_true, beq_iff_eq] at hc
      rcases hc with ((hc | hc) | hc) | hc <;> simp [RequestParser.started, hc]
    exact hle.trans_lt (hchunk (hp.version hs hf).1 hbytes hcount)
  · omega

namespace Intake

variable {srv : Server ω σ} {m : Moment ω} {i j : Intake σ}

structure Covered (srv : Server ω σ) (i : Intake σ) : Prop where
  limits : i.parser.limits = srv.limits
  accounted : i.parser.Accounted
  room : RoomLeft srv i.fed

theorem Covered.feed (hfit : srv.CapFits) (h : i.Covered srv) : i.feed.Covered srv := by
  have hlimits : i.feed.parser.limits = srv.limits := (RequestParser.feed_limits ..).trans h.limits
  have hacc : i.feed.parser.Accounted := h.accounted.feed _
  refine ⟨hlimits, hacc, fun e he hd hf => ?_⟩
  rcases List.mem_append.mp he with he | he
  · exact h.room e he hd hf
  · obtain rfl := List.mem_singleton.mp he
    exact hfit.retained_lt hlimits hacc (RequestParser.feed_waits hf) hd hf

theorem Step.covered (hfit : srv.CapFits) (h : i.Covered srv) (hs : i.Step srv m j) :
    j.Covered srv := by
  cases hs with
  | recv d => exact ⟨h.limits, h.accounted, h.room⟩
  | feed => exact h.feed hfit
  | interim => exact ⟨h.limits, h.accounted, h.room⟩
  | answer k =>
    have h' := h.feed hfit
    exact ⟨h'.limits, RequestParser.accounted_fresh _, h'.room⟩
  | reject k =>
    have h' := h.feed hfit
    exact ⟨h'.limits, h'.accounted, h'.room⟩
  | close => exact ⟨h.limits, h.accounted, h.room⟩

end Intake

namespace Session

variable {srv : Server ω σ} {m : Moment ω} {s : Session σ} {fuel : ℕ}

/-- Where the cap fits, every feed of every run leaves room. -/
theorem roomLeft_of_capFits {A : Moment ω → Kernel → Prop} {t : Session σ} (hfit : srv.CapFits)
    (ht : Seen srv A t) : RoomLeft srv t.fed := by
  have h : Invariant srv A fun s => s.intake.Covered srv := by
    apply invariant_intake
    · exact ⟨rfl, RequestParser.accounted_fresh _, by simp [RoomLeft, intake, accepted]⟩
    · exact fun _ hi hs => hs.covered hfit hi
  exact (h.seen_intake ht).room

structure Calm (s : Session σ) : Prop where
  canRead : s.conn.canRead = true
  peerClosed : s.conn.peerClosed = false
  closeAfterWrite : s.conn.closeAfterWrite = false
  hasOutput : s.conn.hasOutput = false

def bytewise (d : Bytes) : List (Except Errno Bytes) := d.map fun b => .ok [b]

theorem readPass_byte {b : UInt8} {rs : List (Except Errno Bytes)} {progress : Bool}
    (hlt : s.conn.inBuf.length < srv.maxInBuffer) (hk : s.kernel.recvs = .ok [b] :: rs) :
    readPass srv m (s, progress) = .ok (.again ((s.setRecvs rs).commit m.nowUs [b], true)) := by
  simp [readPass, hlt, hk, kReadSize]

theorem doRead_bytewise {d : Bytes} {rs : List (Except Errno Bytes)}
    (hk : s.kernel.recvs = bytewise d ++ rs)
    (hlen : s.conn.inBuf.length + d.length = srv.maxInBuffer) (hfuel : d.length < fuel)
    (progress : Bool) :
    ∃ t, s.doRead srv m fuel progress = .ok ⟨true, t, progress || !d.isEmpty⟩ ∧
      t.kernel.recvs = rs ∧ (∃ now, t.conn =
        { s.conn with inBuf := s.conn.inBuf ++ d, lastActiveUs := now }) ∧ t.fed = s.fed := by
  unfold doRead
  induction d generalizing s fuel progress with
  | nil =>
    obtain ⟨fuel, rfl⟩ := Nat.exists_eq_succ_of_ne_zero (Nat.ne_of_gt hfuel)
    refine ⟨s, ?_, hk, ⟨s.conn.lastActiveUs, by simp⟩, rfl⟩
    simp only [List.length_nil, Nat.add_zero] at hlen
    simp [loop, readPass, hlen]
  | cons b d ih =>
    obtain ⟨fuel, rfl⟩ := Nat.exists_eq_succ_of_ne_zero (Nat.ne_of_gt (Nat.zero_lt_of_lt hfuel))
    simp only [List.length_cons] at hlen hfuel
    have hk' : s.kernel.recvs = .ok [b] :: (bytewise d ++ rs) := hk
    rw [loop_again (readPass_byte (by omega) hk')]
    have hfuel' : d.length < fuel := by omega
    obtain ⟨t, ht, hrecvs, ⟨now, hconn⟩, hfed⟩ :=
      ih (s := (s.setRecvs (bytewise d ++ rs)).commit m.nowUs [b]) rfl
        (by simp [commit, setRecvs]; omega) hfuel' true
    refine ⟨t, by simpa using ht, hrecvs, ⟨now, ?_⟩, hfed⟩
    rw [hconn]
    simp [commit, setRecvs]

theorem process_feeds (hback : s.holdsBack = false) (hin : s.conn.inBuf ≠ [])
    (hfuel : 0 < fuel) (hdone : (s.feedInput m).conn.parser.done = false)
    (hfailed : (s.feedInput m).conn.parser.failed = false)
    (hwants : (s.feedInput m).wantsContinue = false) :
    ∃ progress, s.process srv m fuel = .ok (s.feedInput m, progress) := by
  obtain ⟨fuel, rfl⟩ := Nat.exists_eq_succ_of_ne_zero hfuel.ne'
  refine ⟨(s.conn.parser.feed s.conn.inBuf).2 != 0, ?_⟩
  simp [process, loop, processPass, hback, hin, hdone, hfailed, hwants, RequestParser.threw]

theorem drivePass_fills {d : Bytes} {rs : List (Except Errno Bytes)} {p : RequestParser} {n : ℕ}
    (hcalm : s.Calm) (hk : s.kernel.recvs = bytewise d ++ rs) (hd : d ≠ [])
    (hlen : s.conn.inBuf.length + d.length = srv.maxInBuffer) (hfuel : d.length < fuel)
    (hfeed : s.conn.parser.feed (s.conn.inBuf ++ d) = (p, n)) (hdone : p.done = false)
    (hfailed : p.failed = false) (hexpect : p.req.expectContinue = false) :
    ∃ t, s.drivePass srv m fuel = .ok (.again t) ∧ t.Calm ∧ t.kernel.recvs = rs ∧
      t.conn.parser = p ∧ t.conn.inBuf = (s.conn.inBuf ++ d).drop n ∧
      (p, t.conn.inBuf.length) ∈ t.fed := by
  have hpos := List.length_pos_iff.mpr hd
  have hmay : s.mayRead srv = true :=
    mayRead_iff.mpr ⟨⟨hcalm.canRead, hcalm.peerClosed, hcalm.closeAfterWrite⟩, by omega⟩
  obtain ⟨u, hu, hrecvs, ⟨now, hconn⟩, -⟩ :=
    doRead_bytewise (m := m) hk hlen hfuel false
  have hcalm' : u.Calm := by
    obtain ⟨h₁, h₂, h₃, h₄⟩ := hcalm
    constructor <;> rw [hconn] <;> assumption
  have hp : (u.feedInput m).conn.parser = p := by simp [feedInput, hconn, hfeed]
  have hrest : (u.feedInput m).conn.inBuf = (s.conn.inBuf ++ d).drop n := by
    simp [feedInput, hconn, hfeed]
  have hwants : (u.feedInput m).wantsContinue = false := by simp [wantsContinue, hp, hexpect]
  have hback := holdsBack_of_not_hasOutput hcalm'.hasOutput hcalm'.closeAfterWrite
  obtain ⟨progress, hq⟩ : ∃ progress, u.process srv m fuel = .ok (u.feedInput m, progress) :=
    process_feeds hback (by simp [hconn, hd]) (by omega) (hp ▸ hdone) (hp ▸ hfailed) hwants
  have hw : (u.feedInput m).writePhase srv m fuel true = .ok ⟨true, u.feedInput m, true⟩ := by
    have : (u.feedInput m).conn.hasOutput = false := hcalm'.hasOutput
    simp [writePhase, this]
  refine ⟨u.feedInput m, ?_, ⟨hcalm'.1, hcalm'.2, hcalm'.3, hcalm'.4⟩, hrecvs, hp, hrest, ?_⟩
  · have hr : s.readPhase srv m fuel = .ok ⟨true, u, true⟩ := by
      simp only [readPhase, hmay, if_true, hu, Bool.false_or]
      simp [hd]
    simp only [drivePass, hr, bind, Except.bind, Bool.not_true, Bool.false_eq_true, if_false, hq,
      Bool.true_or, hw, if_true]
    rfl
  · simp [feedInput, hconn, hfeed]

theorem Steps.fed_prefix {t : Session σ} (h : Steps srv m s t) : s.fed <+: t.fed := by
  have hintake : ∀ {i j : Intake σ}, i.Step srv m j → i.fed <+: j.fed := by
    intro i j h
    cases h with
    | feed => exact List.prefix_append ..
    | answer => exact List.prefix_append ..
    | reject => exact List.prefix_append ..
    | _ => exact List.prefix_rfl
  induction h with
  | refl => exact List.prefix_rfl
  | tail _ hstep ih =>
    rcases hstep.intake with h | h
    · have hfed := congrArg Intake.fed h
      dsimp only [intake] at hfed
      rwa [hfed]
    · exact ih.trans (hintake h)

theorem loop_drivePass_fed {e : RequestParser × ℕ} (he : e ∈ s.fed) (k : ℕ) :
    Meets (fun t => e ∈ t.fed) (fun r => e ∈ r.2.fed)
      (loop id (drivePass srv m fuel) k s) := by
  apply loop_meets (I := fun t => e ∈ t.fed) (fun _ h => h) _ k he
  intro t ht
  apply drivePass_meets.mono (fun u hu => hu.fed_prefix.subset ht)
  rintro (u | ⟨ok, u⟩) hu
  · exact hu.fed_prefix.subset ht
  · obtain ⟨v, hv, ⟨_, hab⟩ | ⟨hfin, _⟩⟩ := hu
    · have hfed : u.fed = v.fed := congrArg Intake.fed hab.intake
      rw [pass_leave, hfed]
      exact hv.fed_prefix.subset ht
    · obtain ⟨rs, -, rfl⟩ := finish_snd hfin
      exact hv.fed_prefix.subset ht

/-- If a parser reads some head and then retains as many bytes as the cap, there is a run in
which the buffer is full and the parser still waits. -/
theorem buffer_filled {head : Bytes} {p : RequestParser} (x : UInt8) (m : Moment ω)
    (hhead : head ≠ []) (hle : head.length ≤ srv.maxInBuffer)
    (hfeed : ∀ j ≤ srv.maxInBuffer, RequestParser.feed { limits := srv.limits }
      (head ++ List.replicate j x) = (p, head.length))
    (hrest : p.feed (List.replicate srv.maxInBuffer x) = (p, 0)) (hdone : p.done = false)
    (hfailed : p.failed = false) (hexpect : p.req.expectContinue = false) :
    ∃ t : Session σ, Seen srv (fun _ _ => True) t ∧ (p, srv.maxInBuffer) ∈ t.fed := by
  have hpos := List.length_pos_iff.mpr hhead
  have hsplit : srv.maxInBuffer = (srv.maxInBuffer - head.length) + head.length := by omega
  let d₁ := head ++ List.replicate (srv.maxInBuffer - head.length) x
  let d₂ := List.replicate head.length x
  let s₀ := (accepted srv 0).wake true true {} { recvs := bytewise d₁ ++ bytewise d₂ }
  obtain ⟨t₁, ht₁, hcalm₁, hk₁, hp₁, hin₁, -⟩ :
      ∃ t, s₀.drivePass srv m (srv.maxInBuffer + 2) = .ok (.again t) ∧ t.Calm ∧
        t.kernel.recvs = bytewise d₂ ∧ t.conn.parser = p ∧ t.conn.inBuf = d₁.drop head.length ∧
        (p, t.conn.inBuf.length) ∈ t.fed := by
    apply drivePass_fills ⟨rfl, rfl, rfl, rfl⟩ rfl
    · simp [hhead]
    · simp [s₀, d₁, accepted, wake]; omega
    · simp; omega
    · exact hfeed _ (by omega)
    · exact hdone
    · exact hfailed
    · exact hexpect
  have hin₁' : t₁.conn.inBuf = List.replicate (srv.maxInBuffer - head.length) x := by
    rw [hin₁]; simp [d₁]
  have hjoin : t₁.conn.inBuf ++ d₂ = List.replicate srv.maxInBuffer x := by
    rw [hin₁', List.replicate_append_replicate, ← hsplit]
  obtain ⟨t₂, ht₂, -, -, -, hin₂, hmem⟩ :
      ∃ t, t₁.drivePass srv m (srv.maxInBuffer + 2) = .ok (.again t) ∧ t.Calm ∧
        t.kernel.recvs = [] ∧ t.conn.parser = p ∧ t.conn.inBuf = (t₁.conn.inBuf ++ d₂).drop 0 ∧
        (p, t.conn.inBuf.length) ∈ t.fed := by
    apply drivePass_fills hcalm₁ (by rw [hk₁, List.append_nil])
    · simp [d₂, hhead]
    · simp [hin₁', d₂]; omega
    · simp [d₂]; omega
    · rw [hjoin, hp₁]; exact hrest
    · exact hdone
    · exact hfailed
    · exact hexpect
  rw [hin₂, List.drop_zero, hjoin, List.length_replicate] at hmem
  have hdrive : s₀.drive srv m (srv.maxInBuffer + 2) =
      loop id (drivePass srv m (srv.maxInBuffer + 2)) srv.maxInBuffer t₂ := by
    rw [drive, loop_again ht₁, loop_again ht₂]
  have hmeets : Meets (fun t => (p, srv.maxInBuffer) ∈ t.fed)
      (fun r => (p, srv.maxInBuffer) ∈ r.2.fed) (s₀.drive srv m (srv.maxInBuffer + 2)) :=
    hdrive ▸ loop_drivePass_fed hmem _
  cases hout : s₀.drive srv m (srv.maxInBuffer + 2) with
  | error t => exact ⟨t, .cut _ _ _ (.accepted 0) trivial hout, by rwa [hout] at hmeets⟩
  | ok r => exact ⟨r.2, .returned _ _ _ (.accepted 0) trivial hout, by rwa [hout] at hmeets⟩

end Session

theorem find_replicate (j : ℕ) : Search.find kCRLF (List.replicate j (ch 'a')) = none := by
  apply Search.find_eq_none_of
  intro k hk
  have hcr : CR ∈ List.replicate j (ch 'a') :=
    (List.drop_suffix k _).subset (hk.subset (by decide))
  exact absurd (List.eq_of_mem_replicate hcr) (by decide)

namespace Session

open RequestParser

variable {srv : Server ω σ}

theorem cap_ge (srv : Server ω σ) : 64 * 1024 ≤ srv.maxInBuffer := le_max_left ..

theorem filled_requestLine (m : Moment ω)
    (h : srv.maxInBuffer ≤ wrap (srv.limits.maxRequestLine + 1)) :
    ∃ t : Session σ, Seen srv (fun _ _ => True) t ∧ ¬ RoomLeft srv t.fed := by
  have hcap := cap_ge srv
  have hwaits : ∀ j ≤ srv.maxInBuffer,
      Waits { limits := srv.limits } (List.replicate j (ch 'a')) := fun j hj =>
    .requestLine rfl (find_replicate j) (by rw [List.length_replicate]; exact hj.trans h)
  obtain ⟨t, ht, hmem⟩ := buffer_filled (σ := σ) (ch 'a') m kCRLF_ne_nil
    (by rw [length_kCRLF]; omega) (fun j hj => (Reads.blank rfl).feed rfl (hwaits j hj))
    (hwaits _ le_rfl).feed rfl rfl rfl
  exact ⟨t, ht, fun hroom => (hroom _ hmem rfl rfl).false⟩

theorem filled_headers (m : Moment ω) (hline : 12 ≤ srv.limits.maxRequestLine)
    (h : srv.maxInBuffer < srv.limits.maxHeaderBytes) :
    ∃ t : Session σ, Seen srv (fun _ _ => True) t ∧ ¬ RoomLeft srv t.fed := by
  have hcap := cap_ge srv
  have hreads : Reads { limits := srv.limits } (shortestLine.line ++ kCRLF)
      (startHeaders { limits := srv.limits } shortestLine) :=
    (reads_requestLine_iff rfl).mpr (.inr ⟨shortestLine, rfl, hline, rfl⟩)
  have hwaits : ∀ j ≤ srv.maxInBuffer,
      (startHeaders { limits := srv.limits } shortestLine).Waits (List.replicate j (ch 'a')) :=
    fun j hj => .headers (.inl rfl) (find_replicate j) (by
      rw [List.length_replicate]
      change 0 + j + 1 ≤ srv.limits.maxHeaderBytes
      omega)
  obtain ⟨t, ht, hmem⟩ := buffer_filled (σ := σ) (ch 'a') m (by simp [kCRLF_ne_nil])
    (show 14 ≤ _ by omega) (fun j hj => hreads.feed rfl (hwaits j hj))
    (hwaits _ le_rfl).feed rfl rfl rfl
  exact ⟨t, ht, fun hroom => (hroom _ hmem rfl rfl).false⟩

theorem filled_chunkSize (m : Moment ω) (hline : 12 ≤ srv.limits.maxRequestLine)
    (hbytes : 36 ≤ srv.limits.maxHeaderBytes) (hcount : 2 ≤ srv.limits.maxHeaderCount)
    (h : srv.maxInBuffer ≤ wrap (srv.limits.maxChunkLine + 1)) :
    ∃ t : Session σ, Seen srv (fun _ _ => True) t ∧ ¬ RoomLeft srv t.fed := by
  have hcap := cap_ge srv
  let head := shortestHead hline hbytes hcount
  have hwaits : ∀ j ≤ srv.maxInBuffer, head.parser.Waits (List.replicate j (ch 'a')) :=
    fun j hj => .chunkSize rfl (find_replicate j)
      (by rw [List.length_replicate]; exact hj.trans h)
  have hfeed : ∀ j ≤ srv.maxInBuffer, RequestParser.feed { limits := srv.limits }
      (head.bytes ++ List.replicate j (ch 'a')) = (head.parser, head.bytes.length) := by
    intro j hj
    have huntil := (until_head_iff (l := srv.limits)).mpr
      ⟨head, List.prefix_append head.bytes (List.replicate j (ch 'a')), rfl, rfl⟩
    have := huntil.feed
    rw [List.drop_left] at this
    exact this.trans (congrArg (Incremental.shift _) (hwaits j hj).feed)
  obtain ⟨t, ht, hmem⟩ := buffer_filled (σ := σ) (ch 'a') m
    (by simp [head, HeadLines.bytes, kCRLF_ne_nil]) (show 50 ≤ _ by omega)
    hfeed (hwaits _ le_rfl).feed rfl rfl rfl
  exact ⟨t, ht, fun hroom => (hroom _ hmem rfl rfl).false⟩

/-- Every feed of every run leaves room in the buffer if and only if the cap fits. -/
theorem input_cap_iff [Inhabited ω] (srv : Server ω σ) :
    (∀ t, Seen srv (fun _ _ => True) t → RoomLeft srv t.fed) ↔ srv.CapFits := by
  constructor
  · intro h
    let m : Moment ω := ⟨false, 0, id, fun _ => [], by simp, fun _ => default⟩
    refine ⟨?_, fun hline => ?_, fun hline hbytes hcount => ?_⟩ <;> by_contra hlt
    · obtain ⟨t, ht, hroom⟩ := filled_requestLine m (not_lt.mp hlt)
      exact hroom (h t ht)
    · obtain ⟨t, ht, hroom⟩ := filled_headers m hline (not_le.mp hlt)
      exact hroom (h t ht)
    · obtain ⟨t, ht, hroom⟩ := filled_chunkSize m hline hbytes hcount (not_lt.mp hlt)
      exact hroom (h t ht)
  · exact fun hfit t ht => roomLeft_of_capFits hfit ht

/-- With chunk-size lines of up to 64 KiB the cap is 64 KiB too, and such a line fills it. -/
theorem input_cap_exceeded :
    Server.maxInBuffer { bareServer with limits := { maxChunkLine := 64 * 1024 } } = 64 * 1024 ∧
      ∃ t, Seen { bareServer with limits := { maxChunkLine := 64 * 1024 } } (fun _ _ => True) t ∧
        ¬ RoomLeft { bareServer with limits := { maxChunkLine := 64 * 1024 } } t.fed :=
  ⟨by decide, filled_chunkSize bareMoment (by decide) (by decide) (by decide) (by decide)⟩

end Session

end Httpd
