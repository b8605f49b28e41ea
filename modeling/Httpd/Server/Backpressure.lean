import Httpd.Server.Answers
import Httpd.Server.Delivery

/-! # Backpressure on the output

The output buffer grows by the opening of a reply, which is queued below a high-water mark,
and by the pieces of a producer, which is called below a low-water mark and only when the
buffer is empty. Sent bytes are dropped before they make up half of the buffer.
-/

namespace Httpd

open Relation

variable {ω σ : Type}

/-- The framed pieces and the endings of streamed bodies have these sizes at most. -/
def Server.PiecesWithin (srv : Server ω σ) (P T : ℕ) : Prop :=
  ∀ {p tr more piece tr' next}, srv.call p tr = .returned more piece tr' next → ∀ c : Coding,
    (c.frame piece).length ≤ P ∧ (c.ending tr').length ≤ T

/-- At most half of the buffer has been sent. -/
def Connection.Compact (c : Connection σ) : Prop := 2 * c.outOff ≤ c.out.length

namespace Connection

variable {c d : Connection σ}

theorem Compact.out_eq_nil (h : c.Compact) (ho : c.outPending = 0) :
    c.out = [] ∧ c.outOff = 0 := by
  unfold Compact outPending at *
  rw [← List.length_eq_zero_iff]
  omega

theorem Compact.length_le (h : c.Compact) : c.out.length ≤ 2 * c.outPending := by
  unfold Compact outPending at *
  omega

theorem Compact.append (h : c.Compact) {b : Bytes} (ho : d.out = c.out ++ b)
    (hoff : d.outOff = c.outOff) : d.Compact ∧ d.outPending = c.outPending + b.length := by
  unfold Compact outPending at *
  rw [ho, hoff, List.length_append]
  omega

theorem Compact.dropSent (h : c.Compact) {n : ℕ} (hn : n ≤ c.outPending) :
    (Session.dropSent c n).Compact ∧ (Session.dropSent c n).outPending ≤ c.outPending := by
  unfold Session.dropSent Compact outPending at *
  split
  · simp
  · split
    · simp
      omega
    · dsimp only
      omega

end Connection

namespace Session

variable {srv : Server ω σ} {m : Moment ω} {s t : Session σ} {A : Moment ω → Kernel → Prop}
  {P T R : ℕ}

theorem dispatchNext_out : (s.dispatchNext srv m).conn.out =
      s.conn.out ++ (answerTo srv m s.metrics.requests s.conn.parser.req : Reply σ).opening.1 ∧
    (s.dispatchNext srv m).conn.outOff = s.conn.outOff := by
  unfold dispatchNext dispatch
  dsimp only [say, recordResponse]
  split
  · next hbody =>
    rw [installBody_out, installBody_outOff]
    simp only [headOptions, writeHead, RequestParser.take] at hbody
    simp [answerTo, Reply.opening, headOptions, writeHead, RequestParser.take, hbody]
  · next hbody =>
    simp only [headOptions, writeHead, RequestParser.take] at hbody
    simp [answerTo, Reply.opening, headOptions, writeHead, RequestParser.take, hbody]

theorem parseError_out : (s.parseError m).conn.out =
      s.conn.out ++ (failureOf m s.metrics.requests s.conn.parser : Reply σ).opening.1 ∧
    (s.parseError m).conn.outOff = s.conn.outOff := by
  simp [parseError, queueError, recordResponse, say, writeHead, failureOf, Reply.opening]

inductive Outputs (srv : Server ω σ) (s t : Session σ) : Prop where
  | same : t.conn.out = s.conn.out → t.conn.outOff = s.conn.outOff → Outputs srv s t
  | opened (r : Reply σ) : s.holdsBack = false → r ∈ t.log.map Prod.fst →
      t.conn.out = s.conn.out ++ r.opening.1 → t.conn.outOff = s.conn.outOff → Outputs srv s t
  | sent (n : ℕ) : n ≤ s.conn.outPending → t.conn.out = (dropSent s.conn n).out →
      t.conn.outOff = (dropSent s.conn n).outOff → Outputs srv s t
  | refilled : s.conn.outPending = 0 → ReflTransGen (Refill srv) (s, true) (t, true) →
      Outputs srv s t
  | finished {u : Session σ} : s.conn.outPending = 0 → s.conn.file = none →
      s.conn.producer.isSome = true →
      ReflTransGen (Refill srv) (s, true) (u, false) → t = u.finishStream → Outputs srv s t

theorem Step.outputs (h : Step srv m s t) : Outputs srv s t := by
  cases h with
  | interim hb =>
    exact .opened .interim hb (by simp [sayContinue, say]) rfl rfl
  | answer hb =>
    exact .opened _ hb (by simp [dispatchNext_replies]) dispatchNext_out.1 dispatchNext_out.2
  | reject hb =>
    exact .opened _ hb (by simp [parseError_replies]) parseError_out.1 parseError_out.2
  | @send room ks _ _ _ =>
    refine .sent (min room s.conn.outPending) (Nat.min_le_right ..) ?_ ?_
    · unfold sendSome accept; dsimp only; split <;> rfl
    · unfold sendSome accept; dsimp only; split <;> rfl
  | file =>
    unfold fileStep moveFile
    dsimp only
    repeat' split
    all_goals exact .same rfl rfl
  | refill _ ho _ _ hr => exact .refilled ho hr
  | refillEnd _ ho hfile hprod hr => exact .finished ho hfile (by simp [hprod]) hr rfl
  | _ => exact .same rfl rfl

theorem Step.replies_prefix (h : Step srv m s t) :
    s.log.map Prod.fst <+: t.log.map Prod.fst := by
  cases h.queues with
  | nothing hlog => rw [hlog]
  | feed _ _ _ _ ht => rw [ht]; exact List.prefix_rfl
  | interim _ _ _ ht => rw [ht]; simp [sayContinue, say]
  | answer _ _ _ ht => rw [ht, dispatchNext_replies]; exact List.prefix_append _ _
  | reject _ _ _ ht => rw [ht, parseError_replies]; exact List.prefix_append _ _

theorem Step.not_holdsBack (h : Step srv m s t) (hne : t.intake.requests ≠ s.intake.requests) :
    s.holdsBack = false := by
  cases h.queues with
  | nothing hlog => exact absurd (congrArg (List.filterMap Reply.request?) hlog) hne
  | feed hb _ _ _ _ => exact hb
  | interim hb _ _ _ => exact hb
  | answer hb _ _ _ => exact hb
  | reject hb _ _ _ => exact hb

theorem takePiece_out (next : σ) (trailers : Headers) (piece : Bytes) :
    ((s.setProducer next trailers).takePiece piece).conn.out =
        s.conn.out ++ s.conn.coding.frame piece ∧
      ((s.setProducer next trailers).takePiece piece).conn.outOff = s.conn.outOff := by
  rw [← framePiece_eq]
  unfold takePiece consumeStream
  split <;> exact ⟨rfl, rfl⟩

/-- A refill of an empty buffer stays within a piece of the low-water mark, and after the last
piece the ending is bounded. -/
theorem refills_out (hp : srv.PiecesWithin P T) {x y : Session σ × Bool}
    (h : ReflTransGen (Refill srv) x y) (hx : x.1.conn.out = [] ∧ x.1.conn.outOff = 0)
    (hmore : x.2 = true) : y.1.conn.outOff = 0 ∧ y.1.conn.out.length < kProducerLowWater + P ∧
      (y.2 = false → (y.1.conn.coding.ending y.1.conn.trailers).length ≤ T) := by
  induction h with
  | refl => simp [hx, hmore, kProducerLowWater]
  | tail _ hstep ih =>
    cases hstep with
    | @piece s t p next more piece trailers _ hcall _ _ ht hlow =>
      obtain ⟨hout, hoff⟩ := takePiece_out (s := s) next trailers piece
      have hbound := hp hcall
      dsimp only
      rw [ht, hout, hoff, List.length_append, takePiece_coding, ending_consume,
        (takePiece_flags next trailers piece).1]
      exact ⟨ih.1, by have := (hbound s.conn.coding).1; omega, fun _ => (hbound _).2⟩

theorem finishStream_out (hk : s.conn.Kept) (hprod : s.conn.producer.isSome = true) :
    s.finishStream.conn.out = s.conn.out ++ s.conn.coding.ending s.conn.trailers ∧
      s.finishStream.conn.outOff = s.conn.outOff := by
  have hsized := hk.sized hprod
  unfold finishStream
  cases hs : s.conn.streamSized <;> cases hc : s.conn.chunked <;>
    simp_all [emit, Connection.coding, Coding.ending]

def OpeningsWithin (R : ℕ) (s : Session σ) : Prop :=
  ∀ r ∈ s.log.map Prod.fst, r ≠ .interim → r.opening.1.length ≤ R

def outBound (R P T : ℕ) : ℕ := max (kOutHighWater + max R 25) (kProducerLowWater + P + T)

theorem OpeningsWithin.of_step (h : t.OpeningsWithin R) (hstep : Step srv m s t) :
    s.OpeningsWithin R := fun r hr => h r (hstep.replies_prefix.subset hr)

theorem OpeningsWithin.opening_le (h : t.OpeningsWithin R) {r : Reply σ}
    (hr : r ∈ t.log.map Prod.fst) : r.opening.1.length ≤ max R 25 := by
  by_cases hi : r = .interim
  · rw [hi]
    exact le_max_right _ _
  · exact (h r hr hi).trans (le_max_left _ _)

structure Bounded (R P T : ℕ) (s : Session σ) : Prop where
  kept : s.conn.Kept
  compact : s.conn.Compact
  bound : s.OpeningsWithin R → s.conn.outPending < outBound R P T

theorem lt_outBound_of_holdsBack (h : s.holdsBack = false) {n : ℕ} (hn : n ≤ max R 25) :
    s.conn.outPending + n < outBound R P T := by
  simp only [holdsBack, Bool.or_eq_false_iff, decide_eq_false_iff_not, not_le] at h
  unfold outBound
  omega

theorem outPending_lt_outBound {c : Connection σ} {n : ℕ} (h : c.out.length < n)
    (hn : n ≤ kProducerLowWater + P + T) : c.outPending < outBound R P T := by
  unfold outBound Connection.outPending
  omega

theorem Bounded.step (hp : srv.PiecesWithin P T) (h : s.Bounded R P T) (hstep : Step srv m s t) :
    t.Bounded R P T := by
  have hcompact := h.compact
  have hkept := hstep.kept h.kept
  cases hstep.outputs with
  | same ho hoff =>
    obtain ⟨hc, hpend⟩ := hcompact.append (b := []) (by rw [ho, List.append_nil]) hoff
    refine ⟨hkept, hc, fun hR => ?_⟩
    rw [hpend]
    exact h.bound (hR.of_step hstep)
  | opened r hb hr ho hoff =>
    obtain ⟨hc, hpend⟩ := hcompact.append ho hoff
    refine ⟨hkept, hc, fun hR => ?_⟩
    rw [hpend]
    exact lt_outBound_of_holdsBack hb (hR.opening_le hr)
  | sent n hn ho hoff =>
    obtain ⟨hc, hpend⟩ := hcompact.dropSent hn
    have hsame : t.conn.outPending = (dropSent s.conn n).outPending := by
      rw [Connection.outPending, ho, hoff, Connection.outPending]
    refine ⟨hkept, by rwa [Connection.Compact, ho, hoff], fun hR => ?_⟩
    have := h.bound (hR.of_step hstep)
    omega
  | refilled hpend hr =>
    obtain ⟨hoff, hlen, -⟩ := refills_out hp hr (hcompact.out_eq_nil hpend) rfl
    refine ⟨hkept, ?_, fun _ => outPending_lt_outBound hlen (by omega)⟩
    rw [Connection.Compact, hoff]
    exact Nat.zero_le _
  | @finished u hpend hfile hprod hr ht =>
    obtain ⟨hoff, hlen, hending⟩ := refills_out hp hr (hcompact.out_eq_nil hpend) rfl
    have hku := (refills_transcript (F := fun _ => True) hr rfl h.kept hfile hprod).1
    obtain ⟨ho, hoff'⟩ := finishStream_out (s := u) hku (refills_producer hr hprod)
    dsimp only at hlen hending hoff
    have hlen' : u.finishStream.conn.out.length < kProducerLowWater + P + T := by
      rw [ho, List.length_append]
      have := hending rfl
      omega
    rw [ht] at hkept ⊢
    refine ⟨hkept, ?_, fun _ => outPending_lt_outBound hlen' le_rfl⟩
    rw [Connection.Compact, hoff', hoff]
    exact Nat.zero_le _

theorem invariant_bounded (hp : srv.PiecesWithin P T) : Invariant srv A (Bounded R P T) where
  accepted _ := by
    refine ⟨⟨le_rfl, by simp [accepted], by simp [accepted]⟩, le_rfl, fun _ => ?_⟩
    exact outPending_lt_outBound (show 0 < kProducerLowWater by decide) (by omega)
  wake _ _ _ _ h := ⟨⟨h.kept.off_le, h.kept.one, h.kept.sized⟩, h.compact, h.bound⟩
  step _ _ h hstep := h.step hp hstep

/-- While bytes are pending, a pass of `do_write` does not depend on what producers do. -/
theorem writePass_call (h : s.conn.outPending ≠ 0) (call : σ → Headers → Produced σ)
    (fuel : ℕ) (progress : Bool) :
    writePass { srv with call := call } m fuel (s, progress) = writePass srv m fuel (s, progress) := by
  unfold writePass
  simp [Nat.pos_of_ne_zero h]

/-- At most half of the buffer is sent bytes; what is pending is bounded by the water marks and
the largest pieces; requests wait for bodies in flight and for room; and producers are called
with an empty buffer. -/
theorem output_backpressure {srv : Server ω σ} {P T : ℕ} (hp : srv.PiecesWithin P T) :
    (∀ t, Open srv (fun _ _ => True) t ∨ Reached srv (fun _ _ => True) t →
      2 * t.conn.outOff ≤ t.conn.out.length ∧ t.conn.out.length ≤ 2 * t.conn.outPending ∧
      ∀ R, t.OpeningsWithin R →
        t.conn.outPending < max (kOutHighWater + max R 25) (kProducerLowWater + P + T)) ∧
    (∀ s m t, Step srv m s t → t.intake.requests ≠ s.intake.requests →
      s.conn.bodySourceActive = false ∧ s.conn.outPending < kOutHighWater) ∧
    ∀ s, Reached srv (fun _ _ => True) s → s.conn.out ≠ [] → ∀ m fuel progress call,
      writePass { srv with call := call } m fuel (s, progress) =
        writePass srv m fuel (s, progress) := by
  refine ⟨?_, ?_, ?_⟩
  · intro t ht
    have hbounded (R : ℕ) : t.Bounded R P T := by
      rcases ht with ht | ht
      · exact (invariant_bounded hp).open ht
      · exact (invariant_bounded hp).reached ht
    exact ⟨(hbounded 0).compact, (hbounded 0).compact.length_le, fun R => (hbounded R).bound⟩
  · intro s m t hstep hne
    have hb := hstep.not_holdsBack hne
    simp only [holdsBack, Bool.or_eq_false_iff, decide_eq_false_iff_not, not_le] at hb
    exact ⟨hb.1.2, hb.2⟩
  · intro s hs hout m fuel progress call
    have hcompact := ((invariant_bounded (R := 0) hp).reached hs).compact
    exact writePass_call (fun h => hout (hcompact.out_eq_nil h).1) call fuel progress

theorem output_backpressure_hello : helloServer.PiecesWithin 10 5 ∧
    ∃ t, Open helloServer (fun _ _ => True) t ∧ (t.log.length = 1 ∧ 0 < t.conn.outPending) ∧
      t.OpeningsWithin 200 ∧
      t.conn.outPending < max (kOutHighWater + max 200 25) (kProducerLowWater + 10 + 5) := by
  have hp : helloServer.PiecesWithin 10 5 := by
    rintro _ _ _ _ _ _ ⟨⟩ (_ | _ | _)
    · exact ⟨show (text "hello").length ≤ 10 by decide, Nat.zero_le _⟩
    · exact ⟨by decide, by decide⟩
    · exact ⟨by decide, by decide⟩
  obtain ⟨t, ht, htest⟩ := exists_of_returns (r := Session.drive
      ((accepted helloServer 1).wake true true {}
        { recvs := [.ok (text "GET / HTTP/1.1\r\nHost: x\r\n\r\n"), .error .eagain]
          sends := [.ok 1000, .ok 2] })
      helloServer bareMoment 6) (show returns true
        (fun t => decide ((t.log.length = 1 ∧ 0 < t.conn.outPending) ∧
          ∀ r ∈ t.log.map Prod.fst, r.opening.1.length ≤ 200)) _ = true by decide +kernel)
  obtain ⟨hpending, hopenings⟩ := of_decide_eq_true htest
  have hopen : Open helloServer (fun _ _ => True) t := .drive true true {} (.accepted 1) trivial ht
  have hwithin : t.OpeningsWithin 200 := fun r hr _ => hopenings r hr
  exact ⟨hp, t, hopen, hpending, hwithin, ((output_backpressure hp).1 t (.inl hopen)).2.2 200 hwithin⟩

end Session

end Httpd
