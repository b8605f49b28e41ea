import Httpd.Server.Connection

/-! # Steps of a connection

A call of `drive` takes steps, each the effect of a system call, of a feed or of a refill.
It is cut after a step, it aborts, or it ends when no phase makes progress. Every invariant
of a connection is checked on the steps, and what holds at the end of a call is read off the
quiet states.
-/

namespace Httpd

open Loop Relation

variable {ω σ : Type}

structure Kernel.Advances (k k' : Kernel) : Prop where
  recvs : k'.recvs <:+ k.recvs
  sends : k'.sends <:+ k.sends
  sendfiles : k'.sendfiles <:+ k.sendfiles

theorem Kernel.Advances.refl (k : Kernel) : k.Advances k :=
  ⟨List.suffix_rfl, List.suffix_rfl, List.suffix_rfl⟩

theorem Kernel.Advances.trans {k₁ k₂ k₃ : Kernel} (h : k₁.Advances k₂) (h' : k₂.Advances k₃) :
    k₁.Advances k₃ :=
  ⟨h'.recvs.trans h.recvs, h'.sends.trans h.sends, h'.sendfiles.trans h.sendfiles⟩

namespace Session

/-- A pass of the loop of `refill_from_producer` that goes round again. -/
inductive Refill (srv : Server ω σ) : Session σ × Bool → Session σ × Bool → Prop where
  | piece {s t : Session σ} {p next : σ} {more : Bool} {piece : Bytes} {trailers : Headers} :
      s.conn.producer = some p →
      srv.call p s.conn.trailers = .returned more piece trailers next →
      (more = true → piece ≠ []) → (s.conn.streamSized = true → piece.length ≤ s.conn.streamLeft) →
      t = (s.setProducer next trailers).takePiece piece →
      s.conn.out.length < kProducerLowWater →
      Refill srv (s, true) (t, more && !(t.conn.streamSized && t.conn.streamLeft == 0))

/-- What `do_write` does with a file, when `sendfile` finds this room and this file. -/
def fileStep (m : Moment ω) (fd : Fd) (room : ℕ) (files : Fd → Bytes)
    (ks : List (Except Errno (ℕ × (Fd → Bytes)))) (s : Session σ) : Session σ :=
  let left := (files fd).drop s.conn.fileOff
  let t := (s.setSendfiles ks).attempt (.file s.fileWant room left.length)
  if room = 0 then t.stopWriting else t.moveFile m room left

inductive Step (srv : Server ω σ) (m : Moment ω) : Session σ → Session σ → Prop where
  | interrupted {s : Session σ} {k : Kernel} : s.kernel.Advances k →
      Step srv m s { s with kernel := k }
  | recv {s : Session σ} {d : Bytes} {rs : List (Except Errno Bytes)} : s.mayRead srv = true →
      s.kernel.recvs = .ok d :: rs → d.take kReadSize ≠ [] →
      Step srv m s ((s.setRecvs rs).commit m.nowUs (d.take kReadSize))
  | eof {s : Session σ} {d : Bytes} {rs : List (Except Errno Bytes)} : s.mayRead srv = true →
      s.kernel.recvs = .ok d :: rs → Step srv m s (s.setRecvs rs).sawEof
  | noInput {s : Session σ} {rs : List (Except Errno Bytes)} : s.mayRead srv = true →
      s.kernel.recvs = .error .eagain :: rs → Step srv m s (s.setRecvs rs).stopReading
  | feed {s : Session σ} : s.holdsBack = false → s.conn.inBuf ≠ [] →
      (s.feedInput m).conn.parser.failed = false → (s.feedInput m).conn.parser.done = false →
      Step srv m s (s.feedInput m)
  | interim {s : Session σ} : s.holdsBack = false → s.wantsContinue = true →
      s.conn.parser.Waits s.conn.inBuf → Step srv m s s.sayContinue
  | answer {s : Session σ} : s.holdsBack = false → s.conn.inBuf ≠ [] →
      (s.feedInput m).conn.parser.done = true →
      Step srv m s ((s.feedInput m).dispatchNext srv m)
  | reject {s : Session σ} : s.holdsBack = false → s.conn.inBuf ≠ [] →
      (s.feedInput m).conn.parser.failed = true → (s.feedInput m).conn.parser.threw = false →
      Step srv m s ((s.feedInput m).parseError m)
  | sendAgain {s : Session σ} {ks : List (Except Errno ℕ)} : s.conn.canWrite = true →
      0 < s.conn.outPending → s.kernel.sends = .error .eagain :: ks →
      Step srv m s ((s.setSends ks).attempt .blocked).stopWriting
  | send {s : Session σ} {room : ℕ} {ks : List (Except Errno ℕ)} : s.conn.canWrite = true →
      0 < s.conn.outPending → s.kernel.sends = .ok room :: ks →
      Step srv m s ((s.setSends ks).sendSome m room)
  | fileAgain {s : Session σ} {fd : Fd} {ks : List (Except Errno (ℕ × (Fd → Bytes)))} :
      s.conn.canWrite = true → s.conn.outPending = 0 → s.conn.file = some fd →
      s.kernel.sendfiles = .error .eagain :: ks →
      Step srv m s ((s.setSendfiles ks).attempt .blocked).stopWriting
  | file {s : Session σ} {fd : Fd} {room : ℕ} {files : Fd → Bytes}
      {ks : List (Except Errno (ℕ × (Fd → Bytes)))} :
      s.conn.canWrite = true → s.conn.outPending = 0 → s.conn.file = some fd →
      s.kernel.sendfiles = .ok (room, files) :: ks →
      (room ≠ 0 → ((files fd).drop s.conn.fileOff).take (min s.fileWant room) ≠ []) →
      Step srv m s (s.fileStep m fd room files ks)
  | refill {s t : Session σ} {p : σ} : s.conn.canWrite = true → s.conn.outPending = 0 →
      s.conn.file = none → s.conn.producer = some p →
      ReflTransGen (Refill srv) (s, true) (t, true) → Step srv m s t
  | refillEnd {s t : Session σ} {p : σ} : s.conn.canWrite = true → s.conn.outPending = 0 →
      s.conn.file = none → s.conn.producer = some p →
      ReflTransGen (Refill srv) (s, true) (t, false) → Step srv m s t.finishStream

/-- A call gives up the connection. -/
inductive Abort (srv : Server ω σ) : Session σ → Session σ → Prop where
  | recv {s : Session σ} {rs : List (Except Errno Bytes)} : s.mayRead srv = true →
      s.kernel.recvs = .error .other :: rs → Abort srv s (s.setRecvs rs)
  | send {s : Session σ} {ks : List (Except Errno ℕ)} : s.conn.canWrite = true →
      0 < s.conn.outPending → s.kernel.sends = .error .other :: ks → Abort srv s (s.setSends ks)
  | sendfile {s : Session σ} {fd : Fd} {ks : List (Except Errno (ℕ × (Fd → Bytes)))} :
      s.conn.canWrite = true → s.conn.outPending = 0 → s.conn.file = some fd →
      s.kernel.sendfiles = .error .other :: ks → Abort srv s (s.setSendfiles ks)
  | shrank {s : Session σ} {fd : Fd} {room : ℕ} {files : Fd → Bytes}
      {ks : List (Except Errno (ℕ × (Fd → Bytes)))} :
      s.conn.canWrite = true → s.conn.outPending = 0 → s.conn.file = some fd →
      s.kernel.sendfiles = .ok (room, files) :: ks → room ≠ 0 →
      ((files fd).drop s.conn.fileOff).take (min s.fileWant room) = [] →
      Abort srv s ((s.setSendfiles ks).attempt
        (.file s.fileWant room ((files fd).drop s.conn.fileOff).length))
  | refill {s t t' : Session σ} {p : σ} : s.conn.canWrite = true →
      s.conn.outPending = 0 → s.conn.file = none → s.conn.producer = some p →
      ReflTransGen (Refill srv) (s, true) (t, true) →
      (t' = t ∨ ∃ next trailers, t' = t.setProducer next trailers) → Abort srv s t'

def InputQuiet (s : Session σ) : Prop :=
  s.holdsBack = true ∨ s.conn.inBuf = [] ∨
    s.conn.parser.Waits s.conn.inBuf ∧ s.conn.parser.failed = false ∧ s.conn.parser.done = false

/-- No phase can make progress. -/
structure Quiet (srv : Server ω σ) (s : Session σ) : Prop where
  read : s.mayRead srv = false
  input : s.InputQuiet
  write : s.conn.hasOutput = true → s.conn.canWrite = false

abbrev Steps (srv : Server ω σ) (m : Moment ω) : Session σ → Session σ → Prop :=
  ReflTransGen (Step srv m)

/-- How a phase ends that started in a given session: the connection is given up, or a
condition holds. -/
def Ends (srv : Server ω σ) (m : Moment ω) (s : Session σ) (Q : Session σ → Bool → Prop)
    (r : Phase σ) : Prop :=
  (r.ok = false ∧ ∃ t, Steps srv m s t ∧ Abort srv t r.session) ∨
    (r.ok = true ∧ Steps srv m s r.session ∧ Q r.session r.progress)

variable {srv : Server ω σ} {m : Moment ω} {s t : Session σ} {fuel : ℕ}

theorem mayRead_iff : s.mayRead srv = true ↔ (s.conn.canRead = true ∧ s.conn.peerClosed = false ∧
    s.conn.closeAfterWrite = false) ∧ s.conn.inBuf.length < srv.maxInBuffer := by
  simp [mayRead, and_assoc]

theorem advances_recvs {r : Except Errno Bytes} {rs : List (Except Errno Bytes)}
    (h : s.kernel.recvs = r :: rs) : s.kernel.Advances { s.kernel with recvs := rs } :=
  ⟨h ▸ List.suffix_cons r rs, List.suffix_rfl, List.suffix_rfl⟩

theorem advances_sends {r : Except Errno ℕ} {ks : List (Except Errno ℕ)}
    (h : s.kernel.sends = r :: ks) : s.kernel.Advances { s.kernel with sends := ks } :=
  ⟨List.suffix_rfl, h ▸ List.suffix_cons r ks, List.suffix_rfl⟩

theorem advances_sendfiles {r : Except Errno (ℕ × (Fd → Bytes))}
    {ks : List (Except Errno (ℕ × (Fd → Bytes)))} (h : s.kernel.sendfiles = r :: ks) :
    s.kernel.Advances { s.kernel with sendfiles := ks } :=
  ⟨List.suffix_rfl, List.suffix_rfl, h ▸ List.suffix_cons r ks⟩

theorem doRead_meets (h : s.mayRead srv = true) :
    Meets (Steps srv m s)
      (Ends srv m s fun t progress => progress = false → t.mayRead srv = false)
      (s.doRead srv m fuel false) := by
  have hs := mayRead_iff.mp h
  apply loop_meets (I := fun x => Steps srv m s x.1 ∧ (x.1.conn.canRead = true ∧
    x.1.conn.peerClosed = false ∧ x.1.conn.closeAfterWrite = false) ∧
    (x.2 = false → x.1.conn.inBuf.length < srv.maxInBuffer))
  · exact fun x hx => hx.1
  · rintro ⟨t, progress⟩ ⟨ht, hflags, hlt⟩
    dsimp only at ht hflags hlt
    unfold readPass
    split
    · next hcap =>
      have hmay := mayRead_iff.mpr ⟨hflags, hcap⟩
      split
      · exact ht
      · next d rs hk =>
        split
        · exact .inr ⟨rfl, ht.tail (.eof hmay hk), by simp⟩
        · next hd => exact ⟨ht.tail (.recv hmay hk (by simpa using hd)), hflags, by simp⟩
      · next rs hk => exact ⟨ht.tail (.interrupted (advances_recvs hk)), hflags, hlt⟩
      · next rs hk =>
        refine .inr ⟨rfl, ht.tail (.noInput hmay hk), fun _ => ?_⟩
        simp [mayRead, stopReading]
      · next rs hk => exact .inl ⟨rfl, t, ht, .recv hmay hk⟩
    · next hcap => exact .inr ⟨rfl, ht, fun hp => absurd (hlt hp) hcap⟩
  · exact ⟨.refl, hs.1, fun _ => hs.2⟩

theorem feedInput_mayRead (h : (s.conn.parser.feed s.conn.inBuf).2 = 0) :
    (s.feedInput m).mayRead srv = s.mayRead srv := by
  simp [feedInput, mayRead, h]

theorem feedInput_inputQuiet (hf : (s.feedInput m).conn.parser.failed = false)
    (hd : (s.feedInput m).conn.parser.done = false) : (s.feedInput m).InputQuiet :=
  .inr (.inr ⟨RequestParser.feed_waits hf, hf, hd⟩)

theorem wantsContinue_done (h : s.conn.parser.done = true) : s.wantsContinue = false := by
  simp [wantsContinue, h]

theorem process_meets :
    Meets (Steps srv m s)
      (fun r => Steps srv m s r.1 ∧
        (r.2 = false → r.1.mayRead srv = s.mayRead srv ∧ r.1.InputQuiet))
      (s.process srv m fuel) := by
  apply loop_meets (I := fun x => Steps srv m s x.1 ∧ (x.2 = false → x.1 = s))
  · exact fun x hx => hx.1
  · rintro ⟨t, progress⟩ ⟨ht, hsame⟩
    dsimp only at ht hsame
    unfold processPass
    split
    · next hgate =>
      refine ⟨ht, fun hp => ?_⟩
      dsimp only at hp ⊢
      rw [hsame hp] at hgate ⊢
      rw [Bool.or_eq_true, List.isEmpty_iff] at hgate
      exact ⟨rfl, hgate.imp_right .inl⟩
    · next hgate =>
      simp only [Bool.or_eq_true, List.isEmpty_iff, not_or, Bool.not_eq_true] at hgate
      obtain ⟨hback, hin⟩ := hgate
      dsimp only
      split
      · exact ht
      next hthrew =>
      rw [Bool.not_eq_true] at hthrew
      split
      · next hfail => exact ⟨ht.tail (.reject hback hin hfail hthrew), by simp⟩
      · next hfail =>
        rw [Bool.not_eq_true] at hfail
        cases hdone : (t.feedInput m).conn.parser.done with
        | true =>
          rw [wantsContinue_done hdone]
          exact ⟨ht.tail (.answer hback hin hdone), by simp⟩
        | false =>
          have hfeed := ht.tail (.feed hback hin hfail hdone)
          cases hw : (t.feedInput m).wantsContinue with
          | true => exact ⟨hfeed.tail (.interim hback hw (RequestParser.feed_waits hfail)), by simp⟩
          | false =>
            refine ⟨hfeed, fun hp => ?_⟩
            simp only [Bool.false_eq_true, if_false, Bool.or_eq_false_iff, bne_eq_false_iff_eq]
              at hp
            refine ⟨?_, feedInput_inputQuiet hfail hdone⟩
            rw [← hsame hp.1]
            exact feedInput_mayRead hp.2
  · exact ⟨.refl, fun _ => rfl⟩

theorem holdsBack_of_not_hasOutput (hout : s.conn.hasOutput = false)
    (hclose : s.conn.closeAfterWrite = false) : s.holdsBack = false := by
  simp only [Connection.hasOutput, Bool.or_eq_false_iff, decide_eq_false_iff_not, not_lt,
    Nat.le_zero] at hout
  simp [holdsBack, hclose, hout.1, hout.2, kOutHighWater]

/-- Two sessions differ in nothing that reading and dispatching look at. -/
def SameInput (s t : Session σ) : Prop := ∃ b, t.conn = { s.conn with canWrite := b }

theorem SameInput.mayRead (h : s.SameInput t) : t.mayRead srv = s.mayRead srv := by
  obtain ⟨b, h⟩ := h
  simp [Session.mayRead, h]

theorem SameInput.inputQuiet (h : s.SameInput t) (hs : s.InputQuiet) : t.InputQuiet := by
  obtain ⟨b, h⟩ := h
  unfold InputQuiet holdsBack at *
  rw [h]
  exact hs

@[simp] theorem takePiece_producer (piece : Bytes) :
    (s.takePiece piece).conn.producer = s.conn.producer := by
  unfold takePiece consumeStream; split <;> rfl

theorem refills_producer {x y : Session σ × Bool} (h : ReflTransGen (Refill srv) x y)
    (hx : x.1.conn.producer.isSome = true) : y.1.conn.producer.isSome = true := by
  induction h with
  | refl => exact hx
  | tail _ hstep _ => cases hstep with | piece _ _ _ _ ht => simp [ht, setProducer]

theorem refills_frame {β : Type*} {f : Session σ → β}
    (hf : ∀ (s : Session σ) next trailers piece,
      f ((s.setProducer next trailers).takePiece piece) = f s)
    {x y : Session σ × Bool} (h : ReflTransGen (Refill srv) x y) : f y.1 = f x.1 := by
  induction h with
  | refl => rfl
  | tail _ hstep ih => cases hstep with | piece _ _ _ _ ht => rw [← ih, ht, hf]

theorem refillFromProducer_meets {p : σ} (hw : s.conn.canWrite = true)
    (ho : s.conn.outPending = 0) (hf : s.conn.file = none) (hp : s.conn.producer = some p) :
    Meets (· = s)
      (fun r => (r.1 = false ∧ Abort srv s r.2) ∨ (r.1 = true ∧ Step srv m s r.2))
      (s.refillFromProducer srv fuel) := by
  unfold refillFromProducer
  apply Meets.bind (Q := fun r => (r.1 = false ∧ Abort srv s r.2.1) ∨
    (r.1 = true ∧ ReflTransGen (Refill srv) (s, true) r.2))
  · apply loop_meets (I := fun x => ReflTransGen (Refill srv) (s, true) x)
    · exact fun _ _ => rfl
    · rintro ⟨t, more⟩ ht
      unfold refillPass
      split
      · next hmore =>
        simp only [Bool.and_eq_true, decide_eq_true_eq] at hmore
        obtain ⟨rfl, hlow⟩ := hmore
        have habort {t' : Session σ} (h : t' = t ∨ ∃ next trailers, t' = t.setProducer next trailers) :
            Abort srv s t' := .refill hw ho hf hp ht h
        split
        · exact .inl ⟨rfl, habort (.inl rfl)⟩
        · next q hq =>
          split
          · exact .inl ⟨rfl, habort (.inl rfl)⟩
          · next more piece trailers next hcall =>
            dsimp only
            split
            · exact .inl ⟨rfl, habort (.inr ⟨next, trailers, rfl⟩)⟩
            · next hspin =>
              split
              · exact .inl ⟨rfl, habort (.inr ⟨next, trailers, rfl⟩)⟩
              · next hsize =>
                refine ht.tail (.piece hq hcall ?_ ?_ rfl hlow)
                · simpa using hspin
                · intro hsized
                  by_contra hlt
                  apply hsize
                  rw [Bool.and_eq_true, decide_eq_true_eq]
                  exact ⟨hsized, Nat.lt_of_not_le hlt⟩
      · exact .inr ⟨rfl, ht⟩
    · exact .refl
  · rintro ⟨ok, t, more⟩ (⟨rfl, hab⟩ | ⟨rfl, ht⟩)
    · exact .inl ⟨rfl, hab⟩
    · cases more with
      | true => exact .inr ⟨rfl, .refill hw ho hf hp ht⟩
      | false => exact .inr ⟨rfl, .refillEnd hw ho hf hp ht⟩

/-- What holds between the passes of `do_write`. -/
def Writing (srv : Server ω σ) (m : Moment ω) (s : Session σ) (before : Bool)
    (x : Working σ) : Prop :=
  Steps srv m s x.1 ∧ (x.2 = false → before = false ∧ s.SameInput x.1)

def WriteEnds (srv : Server ω σ) (m : Moment ω) (s : Session σ) (before : Bool) :
    Phase σ → Prop :=
  Ends srv m s fun t progress => (t.conn.hasOutput = true → t.conn.canWrite = false) ∧
    (progress = false → before = false ∧ s.SameInput t)

section Writing

variable {before progress : Bool}

theorem Writing.blocked {u : Session σ} (h : Writing srv m s before (t, progress))
    (hu : u.conn = t.conn) (hsteps : Steps srv m s u.stopWriting) :
    WriteEnds srv m s before ⟨true, u.stopWriting, progress⟩ := by
  refine .inr ⟨rfl, hsteps, fun _ => rfl, fun hp => ?_⟩
  obtain ⟨hbefore, b, hb⟩ := h.2 hp
  dsimp only at hb
  exact ⟨hbefore, false, by simp [stopWriting, hu, hb]⟩

theorem sendPass_meets (h : Writing srv m s before (t, progress))
    (hw : t.conn.canWrite = true) (ho : 0 < t.conn.outPending) :
    Meets (Steps srv m s) (Pass (Writing srv m s before) (WriteEnds srv m s before))
      (t.sendPass m progress) := by
  have ht : Steps srv m s t := h.1
  unfold sendPass
  split
  · exact ht
  · next ks hk => exact ⟨ht.tail (.interrupted (advances_sends hk)), h.2⟩
  · next ks hk => exact h.blocked rfl (ht.tail (.sendAgain hw ho hk))
  · next ks hk => exact .inl ⟨rfl, t, ht, .send hw ho hk⟩
  · next room ks hk =>
    have hstep := ht.tail (.send hw ho hk)
    dsimp only
    split
    · exact ⟨hstep, by simp⟩
    · next hcw => exact .inr ⟨rfl, hstep, fun _ => by simpa using hcw, by simp⟩

theorem sendfilePass_meets {fd : Fd} (h : Writing srv m s before (t, progress))
    (hw : t.conn.canWrite = true) (ho : t.conn.outPending = 0) (hfile : t.conn.file = some fd) :
    Meets (Steps srv m s) (Pass (Writing srv m s before) (WriteEnds srv m s before))
      (t.sendfilePass m fd progress) := by
  have ht : Steps srv m s t := h.1
  unfold sendfilePass
  split
  · exact ht
  · next ks hk => exact ⟨ht.tail (.interrupted (advances_sendfiles hk)), h.2⟩
  · next ks hk => exact h.blocked rfl (ht.tail (.fileAgain hw ho hfile hk))
  · next ks hk => exact .inl ⟨rfl, t, ht, .sendfile hw ho hfile hk⟩
  · next room files ks hk =>
    dsimp only
    split
    · next hroom =>
      have hstep : Step srv m t (t.fileStep m fd room files ks) :=
        .file hw ho hfile hk fun h => absurd hroom h
      rw [fileStep, if_pos hroom] at hstep
      exact h.blocked rfl (ht.tail hstep)
    · next hroom =>
      split
      · next hd =>
        exact .inl ⟨rfl, t, ht, .shrank hw ho hfile hk hroom (List.isEmpty_iff.mp hd)⟩
      · next hd =>
        have hstep : Step srv m t (t.fileStep m fd room files ks) :=
          .file hw ho hfile hk fun _ h => hd (List.isEmpty_iff.mpr h)
        rw [fileStep, if_neg hroom] at hstep
        split
        · exact ⟨ht.tail hstep, by simp⟩
        · next hcw => exact .inr ⟨rfl, ht.tail hstep, fun _ => by simpa using hcw, by simp⟩

theorem writePass_meets (h : Writing srv m s before (t, progress)) :
    Meets (Steps srv m s) (Pass (Writing srv m s before) (WriteEnds srv m s before))
      (writePass srv m fuel (t, progress)) := by
  have ht : Steps srv m s t := h.1
  unfold writePass
  split
  · next hw => exact .inr ⟨rfl, ht, fun _ => by simpa using hw, h.2⟩
  · next hw =>
    rw [Bool.not_eq_true, Bool.not_eq_false'] at hw
    split
    · next ho => exact sendPass_meets h hw ho
    · next ho =>
      have ho : t.conn.outPending = 0 := by simpa using ho
      split
      · next fd hfile => exact sendfilePass_meets h hw ho hfile
      · next p hfile hprod =>
        apply Meets.bind (Q := fun r => (r.1 = false ∧ Abort srv t r.2) ∨
          (r.1 = true ∧ Step srv m t r.2))
        · exact (refillFromProducer_meets hw ho hfile hprod).mono (fun e he => he ▸ ht)
            fun _ h => h
        · rintro ⟨ok, u⟩ (⟨rfl, hab⟩ | ⟨rfl, hstep⟩)
          · exact .inl ⟨rfl, t, ht, hab⟩
          · exact ⟨ht.tail hstep, by simp⟩
      · next hfile hprod =>
        refine .inr ⟨rfl, ht, fun hout => ?_, h.2⟩
        dsimp only at hfile hprod
        simp [Connection.hasOutput, Connection.bodySourceActive, ho, hfile, hprod] at hout

theorem doWrite_meets :
    Meets (Steps srv m s) (WriteEnds srv m s before) (s.doWrite srv m fuel before) := by
  apply loop_meets (I := Writing srv m s before)
  · exact fun x hx => hx.1
  · exact fun x hx => writePass_meets hx
  · exact ⟨.refl, fun h => ⟨h, _, rfl⟩⟩

end Writing

def Outcome (srv : Server ω σ) (m : Moment ω) (s : Session σ) (r : Bool × Session σ) : Prop :=
  ∃ t, Steps srv m s t ∧ ((r.1 = false ∧ Abort srv t r.2) ∨ (t.finish = .ok r ∧ t.Quiet srv))

theorem setRecvs_steps {rs : List (Except Errno Bytes)} (h : rs <:+ s.kernel.recvs) :
    Steps srv m s (s.setRecvs rs) :=
  .single (.interrupted ⟨h, List.suffix_rfl, List.suffix_rfl⟩)

/-- The drain ends behind the first result that brings no data, or where the script does. -/
theorem linger_meets (s : Session σ) (rs : List (Except Errno Bytes)) :
    Meets (· = s.setRecvs []) (fun t => ∃ rs', rs' <:+ rs ∧ t = s.setRecvs rs') (s.linger rs) := by
  induction rs with
  | nil => rfl
  | cons r rs ih =>
    rw [linger]
    split
    · apply ih.mono fun _ he => he
      rintro t ⟨rs', hrs', rfl⟩
      exact ⟨rs', hrs'.trans (List.suffix_cons r rs), rfl⟩
    · exact ⟨rs, List.suffix_cons r rs, rfl⟩

theorem finish_meets (s : Session σ) : Meets (· = s.setRecvs [])
    (fun r => ∃ rs, rs <:+ s.kernel.recvs ∧ r.2 = s.setRecvs rs) s.finish := by
  unfold finish
  split
  · exact ⟨_, List.suffix_rfl, rfl⟩
  · split
    · apply (s.linger_meets s.kernel.recvs).bind
      rintro t ⟨rs, hrs, rfl⟩
      exact ⟨rs, hrs, rfl⟩
    · exact ⟨_, List.suffix_rfl, rfl⟩

theorem finish_snd {r : Bool × Session σ} (h : s.finish = .ok r) :
    ∃ rs, rs <:+ s.kernel.recvs ∧ r.2 = s.setRecvs rs := by
  have hmeets := s.finish_meets
  rwa [h] at hmeets

theorem finish_eq_true_iff : s.finish = .ok (true, t) ↔ t = s ∧
    (s.conn.hasOutput = true ∨ s.conn.closeAfterWrite = false ∧ s.conn.peerClosed = false) := by
  unfold finish
  split
  · next hout => simp [hout, @eq_comm _ s t]
  · next hout =>
    split
    · next hclose =>
      cases s.linger s.kernel.recvs <;> simp [hout, hclose, bind, Except.bind, pure, Except.pure]
    · next hclose => simp [hout, hclose, @eq_comm _ s t, and_comm]

theorem readPhase_meets :
    Meets (Steps srv m s)
      (Ends srv m s fun t progress => progress = false → t.mayRead srv = false)
      (s.readPhase srv m fuel) := by
  unfold readPhase
  split
  · next h => exact doRead_meets h
  · next h => exact .inr ⟨rfl, .refl, fun _ => by simpa using h⟩

theorem writePhase_meets {before : Bool} :
    Meets (Steps srv m s) (WriteEnds srv m s before) (s.writePhase srv m fuel before) := by
  unfold writePhase
  split
  · exact doWrite_meets
  · next h => exact .inr ⟨rfl, .refl, fun ho => by simpa [ho] using h, fun hb => ⟨hb, _, rfl⟩⟩

theorem drivePass_meets :
    Meets (Steps srv m s) (Pass (Steps srv m s) (Outcome srv m s)) (s.drivePass srv m fuel) := by
  apply Meets.bind readPhase_meets
  rintro ⟨ok, u, progress⟩ (⟨rfl, v, hv, hab⟩ | ⟨rfl, hu, hread⟩)
  · exact ⟨v, hv, .inl ⟨rfl, hab⟩⟩
  dsimp only at hu hread
  apply Meets.bind (process_meets.mono (fun e he => hu.trans he) fun q hq => hq)
  rintro ⟨q, progress'⟩ ⟨hq, hquiet⟩
  dsimp only at hq hquiet
  apply Meets.bind (writePhase_meets.mono (fun e he => (hu.trans hq).trans he) fun w hw => hw)
  rintro ⟨ok, w, done⟩ (⟨rfl, v, hv, hab⟩ | ⟨rfl, hw, hwrite, hsame⟩)
  · exact ⟨v, (hu.trans hq).trans hv, .inl ⟨rfl, hab⟩⟩
  · have hsteps := (hu.trans hq).trans hw
    cases done with
    | true => exact hsteps
    | false =>
      obtain ⟨hbefore, hsame⟩ := hsame rfl
      rw [Bool.or_eq_false_iff] at hbefore
      obtain ⟨hmay, hinput⟩ := hquiet hbefore.2
      have hrest : w.Quiet srv := ⟨(hsame.mayRead.trans hmay).trans (hread hbefore.1),
        hsame.inputQuiet hinput, hwrite⟩
      dsimp only
      cases hfin : w.finish with
      | error t =>
        have hcut := w.finish_meets
        rw [hfin] at hcut
        obtain rfl : t = w.setRecvs [] := hcut
        exact hsteps.trans (setRecvs_steps List.nil_suffix)
      | ok r => exact ⟨w, hsteps, .inr ⟨hfin, hrest⟩⟩

/-- A call takes steps until it is cut, aborts or comes to rest. -/
theorem drive_meets : Meets (Steps srv m s) (Outcome srv m s) (s.drive srv m fuel) := by
  apply loop_meets (I := Steps srv m s)
  · exact fun t ht => ht
  · intro t ht
    apply drivePass_meets.mono (fun e he => ht.trans he)
    rintro (u | ⟨b, u⟩) hu
    · exact ht.trans hu
    · obtain ⟨v, hv, h⟩ := hu
      exact ⟨v, ht.trans hv, h⟩
  · exact .refl

theorem exists_dropSent (c : Connection σ) (n : ℕ) :
    ∃ out off, dropSent c n = { c with out := out, outOff := off } := by
  unfold dropSent
  split
  · exact ⟨_, _, rfl⟩
  · split <;> exact ⟨_, _, rfl⟩

theorem exists_sendSome (s : Session σ) (m : Moment ω) (room : ℕ) :
    ∃ out off can, s.sendSome m room =
      { s with
        conn := { s.conn with
          out := out
          outOff := off
          lastActiveUs := m.nowUs
          canWrite := can }
        metrics := s.metrics.bump .bytesSent (min room s.conn.outPending)
        sent := s.sent ++ s.conn.pending.take (min room s.conn.outPending)
        attempts := s.attempts ++ [.send s.conn.outPending (min room s.conn.outPending)] } := by
  obtain ⟨out, off, hdrop⟩ := exists_dropSent s.conn (min room s.conn.outPending)
  unfold sendSome accept
  dsimp only [attempt, stopWriting]
  rw [hdrop]
  split <;> exact ⟨_, _, _, rfl⟩

theorem exists_moveFile (s : Session σ) (m : Moment ω) (room : ℕ) (left : Bytes) :
    ∃ file can, s.moveFile m room left =
      let t := s.transfer m.nowUs (left.take (min s.fileWant room))
      { t with conn := { t.conn with file := file, canWrite := can } } := by
  unfold moveFile
  dsimp only
  split
  · exact ⟨_, _, rfl⟩
  · split <;> exact ⟨_, _, rfl⟩

@[simp] theorem takePiece_kernel (piece : Bytes) : (s.takePiece piece).kernel = s.kernel := by
  unfold takePiece consumeStream; split <;> rfl

@[simp] theorem finishStream_kernel : s.finishStream.kernel = s.kernel := by
  unfold finishStream; dsimp only; split <;> rfl

@[simp] theorem sendSome_kernel (room : ℕ) : (s.sendSome m room).kernel = s.kernel := by
  obtain ⟨_, _, _, h⟩ := exists_sendSome s m room
  rw [h]

@[simp] theorem moveFile_kernel (room : ℕ) (left : Bytes) :
    (s.moveFile m room left).kernel = s.kernel := by
  obtain ⟨_, _, h⟩ := exists_moveFile s m room left
  rw [h]
  rfl

@[simp] theorem fileStep_kernel (fd : Fd) (room : ℕ) (files : Fd → Bytes)
    (ks : List (Except Errno (ℕ × (Fd → Bytes)))) :
    (s.fileStep m fd room files ks).kernel = { s.kernel with sendfiles := ks } := by
  unfold fileStep; dsimp only; split
  · rfl
  · rw [moveFile_kernel]; rfl

theorem refills_kernel {x y : Session σ × Bool} (h : ReflTransGen (Refill srv) x y) :
    y.1.kernel = x.1.kernel :=
  refills_frame (fun _ _ _ piece => takePiece_kernel piece) h

theorem Step.advances (h : Step srv m s t) : s.kernel.Advances t.kernel := by
  cases h with
  | interrupted h => exact h
  | recv _ hk _ => exact advances_recvs hk
  | eof _ hk => exact advances_recvs hk
  | noInput _ hk => exact advances_recvs hk
  | feed => exact .refl _
  | interim => exact .refl _
  | answer => exact .refl _
  | reject => exact .refl _
  | sendAgain _ _ hk => exact advances_sends hk
  | send _ _ hk => rw [sendSome_kernel]; exact advances_sends hk
  | fileAgain _ _ _ hk => exact advances_sendfiles hk
  | file _ _ _ hk _ => rw [fileStep_kernel]; exact advances_sendfiles hk
  | refill _ _ _ _ hr => rw [refills_kernel hr]; exact .refl _
  | refillEnd _ _ _ _ hr => rw [finishStream_kernel, refills_kernel hr]; exact .refl _

/-- A connection that is open between two calls of `drive`. The moments of the calls and the
scripts of the kernel are those that are admitted. -/
inductive Open (srv : Server ω σ) (A : Moment ω → Kernel → Prop) : Session σ → Prop where
  | accepted (now : ℕ) : Open srv A (accepted srv now)
  | drive {s t : Session σ} {m : Moment ω} {k : Kernel} {fuel : ℕ} (readable writable : Bool)
      (w : WorkerMetrics) : Open srv A s → A m k →
      (s.wake readable writable w k).drive srv m fuel = .ok (true, t) → Open srv A t

/-- What is seen of a connection in the course of a call, and when it returns. -/
inductive Seen (srv : Server ω σ) (A : Moment ω → Kernel → Prop) : Session σ → Prop where
  | cut {s t : Session σ} {m : Moment ω} {k : Kernel} {fuel : ℕ} (readable writable : Bool)
      (w : WorkerMetrics) : Open srv A s → A m k →
      (s.wake readable writable w k).drive srv m fuel = .error t → Seen srv A t
  | returned {s t : Session σ} {m : Moment ω} {k : Kernel} {fuel : ℕ} {ok : Bool}
      (readable writable : Bool) (w : WorkerMetrics) : Open srv A s → A m k →
      (s.wake readable writable w k).drive srv m fuel = .ok (ok, t) → Seen srv A t

/-- The first call on a new connection, run and tested. -/
theorem exists_seen (srv : Server ω σ) (P : Session σ → Prop) [DecidablePred P] (k : Kernel)
    (m : Moment ω) (fuel : ℕ) (ok : Bool) (h : returns ok (fun t => decide (P t))
      (drive ((accepted srv 1).wake true true {} k) srv m fuel) = true) :
    ∃ t, Seen srv (fun _ _ => True) t ∧ P t := by
  obtain ⟨t, ht, htest⟩ := exists_of_returns h
  exact ⟨t, .returned true true {} (.accepted 1) trivial ht, of_decide_eq_true htest⟩

/-- A connection in the course of a call. -/
def Reached (srv : Server ω σ) (A : Moment ω → Kernel → Prop) (t : Session σ) : Prop :=
  ∃ s m k readable writable w, Open srv A s ∧ A m k ∧
    Steps srv m (s.wake readable writable w k) t

/-- A property that events and steps preserve. -/
structure Invariant (srv : Server ω σ) (A : Moment ω → Kernel → Prop) (P : Session σ → Prop) :
    Prop where
  accepted : ∀ now, P (accepted srv now)
  wake : ∀ {s} readable writable w k, P s → P (s.wake readable writable w k)
  step : ∀ {m k s t}, A m k → k.Advances s.kernel → P s → Step srv m s t → P t

variable {A : Moment ω → Kernel → Prop} {P : Session σ → Prop} {k : Kernel} {w : WorkerMetrics}
  {readable writable ok : Bool}

theorem Invariant.steps (hP : Invariant srv A P) (hA : A m k) (hs : P s)
    (hk : k.Advances s.kernel) (h : Steps srv m s t) : P t ∧ k.Advances t.kernel := by
  induction h with
  | refl => exact ⟨hs, hk⟩
  | tail _ hstep ih => exact ⟨hP.step hA ih.2 ih.1 hstep, ih.2.trans hstep.advances⟩

theorem Invariant.and {Q : Session σ → Prop} (hP : Invariant srv A P) (hQ : Invariant srv A Q) :
    Invariant srv A fun s => P s ∧ Q s where
  accepted now := ⟨hP.accepted now, hQ.accepted now⟩
  wake readable writable w k h := ⟨hP.wake readable writable w k h.1, hQ.wake readable writable w k h.2⟩
  step hA hk h hstep := ⟨hP.step hA hk h.1 hstep, hQ.step hA hk h.2 hstep⟩

theorem Invariant.steps_wake (hP : Invariant srv A P) (hA : A m k) (hs : P s)
    (h : Steps srv m (s.wake readable writable w k) t) : P t :=
  (hP.steps hA (hP.wake _ _ _ _ hs) (.refl k) h).1

theorem outcome_of_drive {r : Bool × Session σ} (h : s.drive srv m fuel = .ok r) :
    Outcome srv m s r := by
  have hmeets : Meets (Steps srv m s) (Outcome srv m s) (s.drive srv m fuel) := drive_meets
  rwa [h] at hmeets

theorem steps_of_drive_error (h : s.drive srv m fuel = .error t) : Steps srv m s t := by
  have hmeets : Meets (Steps srv m s) (Outcome srv m s) (s.drive srv m fuel) := drive_meets
  rwa [h] at hmeets

/-- A call takes steps and may have a last effect when it gives up the connection. -/
theorem steps_of_drive (h : s.drive srv m fuel = .ok (ok, t)) :
    ∃ u, Steps srv m s u ∧ (t = u ∨ Abort srv u t) := by
  obtain ⟨u, hu, ⟨_, hab⟩ | ⟨hfin, _⟩⟩ := outcome_of_drive h
  · exact ⟨u, hu, .inr hab⟩
  · obtain ⟨rs, hrs, rfl⟩ := finish_snd hfin
    exact ⟨_, hu.trans (setRecvs_steps hrs), .inl rfl⟩

theorem Invariant.open (hP : Invariant srv A P) (h : Open srv A s) : P s := by
  induction h with
  | accepted now => exact hP.accepted now
  | drive readable writable w _ hA hd ih =>
    obtain ⟨u, hu, ⟨h, _⟩ | ⟨h, _⟩⟩ := outcome_of_drive hd
    · cases h
    · rw [(finish_eq_true_iff.mp h).1]
      exact hP.steps_wake hA ih hu

theorem Invariant.reached (hP : Invariant srv A P) (h : Reached srv A t) : P t := by
  obtain ⟨s, m, k, readable, writable, w, hs, hA, hsteps⟩ := h
  exact hP.steps_wake hA (hP.open hs) hsteps

theorem Invariant.outcome (hP : Invariant srv A P) (hs : Open srv A s) (hA : A m k)
    {r : Bool × Session σ} (h : (s.wake readable writable w k).drive srv m fuel = .ok r) :
    ∃ t, P t ∧ ((r.1 = false ∧ Abort srv t r.2) ∨ (t.finish = .ok r ∧ t.Quiet srv)) := by
  obtain ⟨t, ht, h⟩ := outcome_of_drive h
  exact ⟨t, hP.steps_wake hA (hP.open hs) ht, h⟩

/-- What is seen of a connection is a session with the invariant, but for the last effects of
a call that gives it up. -/
theorem Invariant.seen (hP : Invariant srv A P) (h : Seen srv A t) :
    ∃ s, P s ∧ (t = s ∨ Abort srv s t) := by
  cases h with
  | cut readable writable w hs hA hd =>
    exact ⟨t, hP.steps_wake hA (hP.open hs) (steps_of_drive_error hd), .inl rfl⟩
  | returned readable writable w hs hA hd =>
    obtain ⟨u, hu, hend⟩ := steps_of_drive hd
    exact ⟨u, hP.steps_wake hA (hP.open hs) hu, hend⟩

end Session

end Httpd
