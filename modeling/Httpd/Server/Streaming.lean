import Httpd.Server.Bodies

/-! # Streamed bodies

What a connection has written of a body while it is streamed, between any two passes of the loop
that asks the producer for more. What is left of an announced length is counted down by what
is written.
-/

namespace Httpd

open Relation Transcript

variable {ω σ : Type}

/-- The length that a reply announces for the body that it streams. -/
def Reply.streamed : Reply σ → Option ℕ
  | .answer req res opts =>
    if req.method != text "HEAD" && (framingOf res opts).1 != .none && res.file.isNone &&
      res.producer.isSome then res.streamLength else none
  | _ => none

namespace Session

variable {srv : Server ω σ} {m : Moment ω} {s t : Session σ} {A : Moment ω → Kernel → Prop}
  {l : List (Reply σ × Bytes)} {r : Reply σ} {b : Bytes} {n : ℕ}

theorem concat_inj {l l' : List (Reply σ × Bytes)} {r r' : Reply σ} {b b' : Bytes}
    (h : l ++ [(r, b)] = l' ++ [(r', b')]) : r = r' ∧ b = b' := by
  obtain ⟨-, hend⟩ := List.append_inj' h rfl
  exact Prod.mk.inj (List.cons.inj hend).1

/-- While the last reply streams a body of announced length, what was written and what is left
make up that length. -/
structure Counts (s : Session σ) (r : Reply σ) (b : Bytes) (n : ℕ) : Prop where
  file : s.conn.file = none
  sized : s.conn.streamSized = true
  left : b.length + s.conn.streamLeft = r.opening.1.length + n

def Counted (s : Session σ) : Prop :=
  ∀ l r b n, s.log = l ++ [(r, b)] → r.streamed = some n → s.Counts r b n

def counters (s : Session σ) : List (Reply σ × Bytes) × Option Fd × Bool × ℕ :=
  (s.log, s.conn.file, s.conn.streamSized, s.conn.streamLeft)

theorem Counted.of_counters (hs : s.Counted) (h : t.counters = s.counters) : t.Counted := by
  simp only [counters, Prod.mk.injEq] at h
  obtain ⟨hlog, hfile, hsized, hleft⟩ := h
  intro l r b n hl hr
  obtain ⟨h₁, h₂, h₃⟩ := hs l r b n (hlog ▸ hl) hr
  exact ⟨hfile ▸ h₁, hsized ▸ h₂, hleft ▸ h₃⟩

theorem sendSome_counters (room : ℕ) : (s.sendSome m room).counters = s.counters := by
  obtain ⟨_, _, _, h⟩ := exists_sendSome s m room
  rw [h]
  rfl

theorem exists_of_replies (h : t.log.map Prod.fst = s.log.map Prod.fst)
    (ht : t.log = l ++ [(r, b)]) : ∃ l' b', s.log = l' ++ [(r, b')] := by
  rw [ht, List.map_append, List.map_singleton] at h
  obtain ⟨l₁, l₂, hs, _, h₂⟩ := List.append_eq_map_iff.mp h
  obtain ⟨e, l₃, rfl, rfl, h₃⟩ := List.map_eq_cons_iff.mp h₂
  obtain rfl := List.map_eq_nil_iff.mp h₃
  exact ⟨l₁, e.2, hs⟩

theorem counted_of_reply {r' : Reply σ} {b' : Bytes} (h : t.log = s.log ++ [(r', b')])
    (hr : r'.streamed = none) : t.Counted := by
  intro l r b n ht hn
  obtain ⟨rfl, -⟩ := concat_inj (h.symm.trans ht)
  rw [hr] at hn
  cases hn

theorem Counted.refill {x y : Session σ × Bool} (hs : x.1.Counted) (h : Refill srv x y) :
    y.1.Counted := by
  cases h with
  | @piece s t p next more piece trailers hp hcall _ hle ht _ =>
    change s.Counted at hs
    intro l r b n hl hr
    have hlog : t.log = extendLast (framePiece s.conn piece) s.log := by
      rw [ht]
      unfold takePiece consumeStream
      split <;> rfl
    obtain ⟨l', b', hl'⟩ := exists_of_replies (s := s) (by rw [hlog, map_fst_extendLast]) hl
    obtain ⟨hfile, hsized, hleft⟩ := hs l' r b' n hl' hr
    have hb : b = b' ++ piece := by
      rw [hl', extendLast_concat, framePiece, if_pos hsized] at hlog
      exact (concat_inj (hl.symm.trans hlog)).2
    have hconn : t.conn.file = s.conn.file ∧ t.conn.streamSized = s.conn.streamSized ∧
        t.conn.streamLeft = s.conn.streamLeft - piece.length := by
      rw [ht]
      unfold takePiece consumeStream
      rw [if_pos (by exact hsized)]
      exact ⟨rfl, rfl, rfl⟩
    have hle := hle hsized
    refine ⟨hconn.1.trans hfile, hconn.2.1.trans hsized, ?_⟩
    dsimp only
    rw [hb, List.length_append, hconn.2.2]
    omega

theorem Counted.refills {x y : Session σ × Bool} (hs : x.1.Counted)
    (h : ReflTransGen (Refill srv) x y) : y.1.Counted := by
  induction h with
  | refl => exact hs
  | tail _ hstep ih => exact ih.refill hstep

theorem Counted.finishStream (hs : s.Counted) (hk : s.conn.Kept)
    (hprod : s.conn.producer.isSome = true) : s.finishStream.Counted := by
  intro l r b n hl hr
  have hreplies : s.finishStream.log.map Prod.fst = s.log.map Prod.fst := by
    unfold Session.finishStream
    split <;> simp [emit]
  obtain ⟨l', b', hl'⟩ := exists_of_replies hreplies hl
  obtain ⟨hfile, hsized, hleft⟩ := hs l' r b' n hl' hr
  have hplain : s.conn.chunked = false := hk.sized hprod hsized
  have hcounters : s.finishStream.counters = s.counters := by
    unfold Session.finishStream
    rw [hplain]
    rfl
  exact hs.of_counters hcounters l r b n hl hr

theorem installBody_sized {c : Connection σ} {res : Response σ} {f : Framing} {p : σ}
    (hfile : res.file = none) (hprod : res.producer = some p) (hlen : res.streamLength = some n) :
    (installBody c res f).file = c.file ∧ (installBody c res f).streamSized = true ∧
      (installBody c res f).streamLeft = n := by
  unfold installBody
  rw [hfile, hprod, hlen]
  dsimp only
  split <;> exact ⟨rfl, rfl, rfl⟩

theorem counted_dispatchNext (hk : s.conn.Kept) (hback : s.holdsBack = false) :
    (s.dispatchNext srv m).Counted := by
  intro l r b n hl hr
  have hlog : (s.dispatchNext srv m).log = _ :=
    congrArg Transcript.State.log (dispatchNext_transcript hk hback)
  obtain ⟨rfl, rfl⟩ := concat_inj (hl.symm.trans hlog)
  simp only [answerTo, Reply.streamed, Option.ite_none_right_eq_some, Bool.and_eq_true,
    Option.isNone_iff_eq_none, Option.isSome_iff_exists] at hr
  obtain ⟨⟨⟨hbody, hfile⟩, p, hprod⟩, hlen⟩ := hr
  have hconn : (s.dispatchNext srv m).conn.file = s.conn.file ∧
      (s.dispatchNext srv m).conn.streamSized = true ∧
      (s.dispatchNext srv m).conn.streamLeft = n := by
    unfold dispatchNext dispatch
    dsimp only [writeHead, headOptions, RequestParser.take]
    rw [if_pos (by rw [Bool.and_eq_true]; exact hbody)]
    exact installBody_sized hfile hprod hlen
  exact ⟨hconn.1.trans (idle_of_holdsBack hback).2.1, hconn.2.1, by rw [hconn.2.2]⟩

theorem Step.counted (h : Step srv m s t) (hk : s.conn.Kept) (hs : s.Counted) : t.Counted := by
  cases h with
  | interrupted => exact hs.of_counters rfl
  | recv => exact hs.of_counters rfl
  | eof => exact hs.of_counters rfl
  | noInput => exact hs.of_counters rfl
  | feed => exact hs.of_counters rfl
  | interim => exact counted_of_reply (s := s) rfl rfl
  | answer hback => exact counted_dispatchNext ⟨hk.off_le, hk.one, hk.sized⟩ hback
  | reject => exact counted_of_reply (s := s) rfl rfl
  | sendAgain => exact hs.of_counters rfl
  | send => exact hs.of_counters (sendSome_counters ..)
  | fileAgain => exact hs.of_counters rfl
  | file _ _ hfile =>
    intro l r b n hl hr
    obtain ⟨l', b', hl'⟩ :=
      exists_of_replies (congrArg Intake.replies (fileStep_intake ..)) hl
    cases hfile.symm.trans (hs l' r b' n hl' hr).file
  | refill _ _ _ _ hr => exact hs.refills hr
  | @refillEnd u p _ _ hfile hp hr =>
    obtain ⟨hku, -⟩ := refills_transcript (F := fun _ => True) hr rfl hk hfile (by simp [hp])
    exact (hs.refills hr).finishStream hku (refills_producer hr (by simp [hp]))

end Session

end Httpd
