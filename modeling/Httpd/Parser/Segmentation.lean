import Httpd.Parser.Passes

/-! # Segmentation independence

A pass over an extended input does what the pass over the input did, unless that
pass was waiting. The slack of one byte in the limit on an unterminated line is what
makes the two limit checks of each line agree. Restarting the parser after each
request, the requests and the final state do not depend on how a stream is cut.
-/

namespace Httpd

open Incremental

/-- The slack added to a line limit does not wrap around. -/
def ParserLimits.NoWrap (l : ParserLimits) : Prop :=
  l.maxRequestLine + 1 < 2 ^ 64 ∧ l.maxChunkLine + 1 < 2 ^ 64

instance (l : ParserLimits) : Decidable l.NoWrap := inferInstanceAs (Decidable (_ ∧ _))

theorem wrap_of_lt {n : ℕ} (h : n < 2 ^ 64) : wrap n = n := Nat.mod_eq_of_lt h

namespace RequestParser

variable {p p' : RequestParser} {a b rest : Bytes} {n : ℕ}

section Lines

variable {c : ℕ → Bool} {f : Failure} {h : Bytes → Turn RequestParser}

/-- An unterminated line is rejected only if every line it can become is rejected alike. -/
theorem withLine_append (hmono : ∀ {n k}, c n = true → n ≤ k → c k = true)
    (hlong : ∀ {n line}, c n = true → n < line.length + 2 → h line = .stop (p.fail f) 0)
    (a b : Bytes) :
    withLine (a ++ b) (fun n => p.awaitLine (c n) f) h =
        withLine a (fun n => p.awaitLine (c n) f) h ∨
      withLine a (fun n => p.awaitLine (c n) f) h = .stop p 0 := by
  unfold withLine
  cases ha : Search.find kCRLF a with
  | some eol =>
    have hle := Search.find_add_length_le ha
    rw [Search.find_append_of_some b ha]
    exact .inl (by simp only [List.take_append_of_le_length (show eol ≤ a.length by omega)])
  | none =>
    simp only [awaitLine]
    cases hc : c a.length with
    | false => exact .inr rfl
    | true =>
      left
      cases hab : Search.find kCRLF (a ++ b) with
      | none =>
        have hc' := hmono hc (show a.length ≤ (a ++ b).length by simp)
        simp only [hc', if_true]
      | some eol =>
        have hlt := Search.length_lt_of_find_append ha hab
        have hle := Search.find_add_length_le hab
        simp only [if_true]
        refine hlong hc ?_
        rw [List.length_take, length_kCRLF] at *
        omega

end Lines

theorem feedRequestLine_append (hw : p.limits.maxRequestLine + 1 < 2 ^ 64) (a b : Bytes) :
    p.feedRequestLine (a ++ b) = p.feedRequestLine a ∨ p.feedRequestLine a = .stop p 0 := by
  refine withLine_append ?_ ?_ a b <;> simp only [wrap_of_lt hw, gt_iff_lt, decide_eq_true_eq]
  · intro n k hn hk; omega
  · intro n line hn hk
    rw [onRequestLine, if_neg (by omega), if_pos (by omega)]

theorem feedHeaders_append (a b : Bytes) :
    p.feedHeaders (a ++ b) = p.feedHeaders a ∨ p.feedHeaders a = .stop p 0 := by
  refine withLine_append ?_ ?_ a b <;> simp only [gt_iff_lt, decide_eq_true_eq]
  · intro n k hn hk; omega
  · intro n line hn hk
    rw [onHeaderLine, if_pos (by rw [length_kCRLF]; omega)]

theorem feedChunkSize_append (hw : p.limits.maxChunkLine + 1 < 2 ^ 64) (a b : Bytes) :
    p.feedChunkSize (a ++ b) = p.feedChunkSize a ∨ p.feedChunkSize a = .stop p 0 := by
  refine withLine_append ?_ ?_ a b <;> simp only [wrap_of_lt hw, gt_iff_lt, decide_eq_true_eq]
  · intro n k hn hk; omega
  · intro n line hn hk
    rw [onChunkSizeLine, if_pos (by omega)]

theorem feedChunkDataEnd_append (a b : Bytes) :
    p.feedChunkDataEnd (a ++ b) = p.feedChunkDataEnd a ∨ p.feedChunkDataEnd a = .stop p 0 := by
  unfold feedChunkDataEnd
  by_cases hlt : a.length < kCRLF.length
  · exact .inr (if_pos hlt)
  · left
    rw [if_neg hlt, if_neg (by simp at hlt ⊢; omega), List.take_append_of_le_length (by omega)]

def HasSlack (p : RequestParser) : Prop :=
  (p.started = false → p.limits.maxRequestLine + 1 < 2 ^ 64) ∧ p.limits.maxChunkLine + 1 < 2 ^ 64

theorem hasSlack_of_noWrap (h : p.limits.NoWrap) : p.HasSlack := ⟨fun _ => h.1, h.2⟩

/-- Outside the body, a pass that does not wait does the same on every extension. -/
theorem feedStep_append (hw : p.HasSlack)
    (hs : ¬ (p.state = .body ∨ p.state = .chunkData)) (a b : Bytes) :
    p.feedStep (a ++ b) = p.feedStep a ∨ p.feedStep a = .stop p 0 := by
  cases hst : p.state with
  | requestLine =>
    have hslack := hw.1 (by simp [started, hst])
    simpa only [feedStep_requestLine hst] using feedRequestLine_append hslack a b
  | headers => simpa only [feedStep_headers (.inl hst)] using feedHeaders_append a b
  | trailers => simpa only [feedStep_headers (.inr hst)] using feedHeaders_append a b
  | body => exact (hs (.inl hst)).elim
  | chunkData => exact (hs (.inr hst)).elim
  | chunkDataEnd => simpa only [feedStep_chunkDataEnd hst] using feedChunkDataEnd_append a b
  | chunkSize => simpa only [feedStep_chunkSize hst] using feedChunkSize_append hw.2 a b
  | done => exact .inr (feedStep_ended (.inl hst))
  | error => exact .inr (feedStep_ended (.inr hst))

theorem takeData_takeData (ha : a.length < p.remaining) (b : Bytes) :
    (p.takeData a).takeData b = p.takeData (a ++ b) := by
  rw [takeData_of_lt ha]
  simp only [takeData, List.length_append, Nat.sub_sub, List.append_assoc]

theorem feedBody_append (hs : p.state = .body ∨ p.state = .chunkData)
    (h : p.feedBody a = .more p' n) :
    (∀ b, p.feedBody (a ++ b) = .more p' n) ∨
      n = a.length ∧ ∀ b, b ≠ [] → p.feedBody (a ++ b) = (p'.feedStep b).shift n := by
  rcases eq_or_ne a [] with rfl | hne
  · cases h
  rw [feedBody_of_ne_nil hne] at h
  cases h
  by_cases hle : p.remaining ≤ a.length
  · left
    intro b
    have hmin : min (a ++ b).length p.remaining = min a.length p.remaining := by simp; omega
    rw [feedBody_of_ne_nil (by simp [hne]), hmin, List.take_append_of_le_length (by omega)]
  · right
    have hmin : min a.length p.remaining = a.length := by omega
    refine ⟨hmin, fun b hb => ?_⟩
    have hs' : (p.takeData a).state = p.state := by rw [takeData_of_lt (by omega)]
    have hr' : (p.takeData a).remaining = p.remaining - a.length := by
      rw [takeData_of_lt (by omega)]
    have hlen : min (a ++ b).length p.remaining =
        a.length + min b.length (p.remaining - a.length) := by simp; omega
    rw [hmin, List.take_length, feedStep_body (by rwa [hs']), feedBody_of_ne_nil hb,
      feedBody_of_ne_nil (by simp [hne]), Turn.shift, hr', takeData_takeData (by omega), hlen,
      List.take_length_add_append]

theorem Reads.started {u : Bytes} {q : RequestParser} (h : p.Reads u q) (hs : q.started = false) :
    p.started = false := by
  cases h with
  | blank => exact hs
  | requestLine => cases hs
  | field h _ _ _ _ hq =>
    obtain ⟨_, _, _, ⟨_, _, rfl⟩ | ⟨_, rfl⟩⟩ := parseFieldLine_ok hq <;> exact hs
  | finish _ _ hq =>
    obtain ⟨s, r, e, hb, _, rfl⟩ := finishHeaders_ok hq
    rcases bodyFraming_state hb with rfl | rfl | rfl <;> cases hs
  | trailersEnd => cases hs
  | data h _ _ =>
    rcases takeData_cases (p := p) u with hq | hq <;> rw [hq] at hs
    · exact hs
    · rcases h with h | h <;> simp [RequestParser.started, h] at hs
  | dataEnd => cases hs
  | chunkSize _ _ _ hq =>
    obtain ⟨_, _, ⟨_, rfl⟩ | ⟨_, _, _, rfl⟩⟩ := parseChunkSize_ok hq <;> cases hs

theorem Reads.hasSlack {u : Bytes} {q : RequestParser} (h : p.Reads u q) (hp : p.HasSlack) :
    q.HasSlack := by
  rw [HasSlack, h.limits]
  exact ⟨fun hq => hp.1 (h.started hq), hp.2⟩

theorem Fails.hasSlack {q : RequestParser} (h : p.Fails rest q n) (hp : p.HasSlack) :
    q.HasSlack := by
  rw [HasSlack, h.limits]
  refine ⟨fun hq => ?_, hp.2⟩
  simp [RequestParser.started, h.state] at hq

theorem stepResumable : machine.StepResumable HasSlack where
  stop_keeps hw h := by
    rcases feedStep_stop h with ⟨rfl, _, _⟩ | hf
    · exact hw
    · exact hf.hasSlack hw
  more_keeps hw h := by
    obtain ⟨_, _, _, _, hu⟩ := feedStep_more h
    exact hu.hasSlack hw
  stop := by
    intro p a p' n hw h
    rcases feedStep_stop h with ⟨rfl, rfl, _⟩ | hf
    · exact .inl ⟨rfl, rfl⟩
    · by_cases hs : p.state = .body ∨ p.state = .chunkData
      · -- a body never fails
        change p.feedStep a = _ at h
        rw [feedStep_body hs, feedBody] at h
        split at h <;> cases h
        exact .inl ⟨rfl, rfl⟩
      · by_cases hwait : p.feedStep a = .stop p 0
        · cases hwait.symm.trans h
          exact .inl ⟨rfl, rfl⟩
        · exact .inr ⟨fun b => ((feedStep_append hw hs a b).resolve_right hwait).trans h,
            fun d => feedStep_ended (.inr hf.state)⟩
  more := by
    intro p a p' n hw h
    change p.feedStep a = _ at h
    by_cases hs : p.state = .body ∨ p.state = .chunkData
    · have hb := feedBody_append hs ((feedStep_body hs).symm.trans h)
      simpa only [machine, feedStep_body hs] using hb
    · refine .inl fun b => ((feedStep_append hw hs a b).resolve_right ?_).trans h
      rw [h]
      simp

theorem resumable_hasSlack : machine.Resumable HasSlack := stepResumable.resumable

theorem resumable : machine.Resumable fun p => p.limits.NoWrap where
  keeps hw d := by
    change (RequestParser.feed _ d).1.limits.NoWrap
    rwa [feed_limits]
  append hw a b := resumable_hasSlack.append (hasSlack_of_noWrap hw) a b

def delimiter : Delimiter machine Request where
  take p := if p.done then some p.take else none
  failed := failed
  take_rank := by
    intro p x p' h
    split at h
    · next hd =>
      cases h
      simp only [done, beq_iff_eq] at hd
      simp [machine, rank, reset, hd]
    · cases h
  take_rests := by
    intro p x p' h
    split at h
    · next hd => exact fun d => feedStep_ended (.inl (by simpa [done] using hd))
    · cases h
  failed_rests := by
    intro p h d
    exact feedStep_ended (.inr (by simpa [failed] using h))

/-- Feed a buffer, taking each request that is done, until the parser wants more or fails. -/
def pipeline : Machine (RequestParser × List Request) UInt8 := delimiter.pipeline

theorem pipeline_resumable : pipeline.Resumable fun q => q.1.limits.NoWrap := by
  refine Machine.Resumable.pipeline delimiter resumable fun hw h => ?_
  simp only [delimiter] at h
  split at h <;> cases h
  exact hw

structure Outcome where
  requests : List Request
  parser : RequestParser
  consumed : ℕ
  deriving DecidableEq

/-- Append each read to the buffer and feed it, giving up at the first failure. -/
def runReads : RequestParser → List Request → Bytes → List Bytes → Outcome
  | p, rs, _, [] => ⟨rs, p, 0⟩
  | p, rs, buf, r :: reads =>
    let u := pipeline.feed (p, rs) (buf ++ r)
    if u.1.1.failed then ⟨u.1.2, u.1.1, u.2⟩
    else
      let v := runReads u.1.1 u.1.2 ((buf ++ r).drop u.2) reads
      { v with consumed := u.2 + v.consumed }

/-- The driver of the fuzz target and of the tests, for a stream cut into reads. -/
def run (l : ParserLimits) (reads : List Bytes) : Outcome := runReads { limits := l } [] [] reads

theorem pipeline_feed_failed {p : RequestParser} (h : p.failed = true) (rs : List Request)
    (d : Bytes) : pipeline.feed (p, rs) d = ((p, rs), 0) := by
  have hf := delimiter.feed_of_failed h d
  refine pipeline.feed_stop ?_
  rcases delimiter.step_cases (p, rs) d with ⟨_, hs⟩ | ⟨hn, _⟩ | ⟨hn, _⟩
  · rwa [hf] at hs
  · rw [hf] at hn; cases h.symm.trans hn
  · rw [hf] at hn; cases h.symm.trans hn

theorem feedReads_failed {p : RequestParser} (h : p.failed = true) (rs : List Request)
    (buf : Bytes) (reads : List Bytes) : pipeline.feedReads (p, rs) buf reads = ((p, rs), 0) := by
  induction reads generalizing buf with
  | nil => rfl
  | cons r reads ih => rw [Machine.feedReads, pipeline_feed_failed h, ih]; rfl

theorem runReads_eq (p : RequestParser) (rs : List Request) (buf : Bytes) (reads : List Bytes) :
    runReads p rs buf reads =
      let u := pipeline.feedReads (p, rs) buf reads
      ⟨u.1.2, u.1.1, u.2⟩ := by
  induction reads generalizing p rs buf with
  | nil => rfl
  | cons r reads ih =>
    rw [runReads, Machine.feedReads]
    dsimp only
    split
    · next hf => rw [feedReads_failed hf]; rfl
    · rw [ih]; rfl

theorem pipeline_feed_fresh_nil (l : ParserLimits) :
    pipeline.feed ({ limits := l }, []) [] = (({ limits := l }, []), 0) := by
  have hf : machine.feed { limits := l } [] = ({ limits := l }, 0) := machine.feed_stop rfl
  have hs : delimiter.step ({ limits := l }, []) [] = .stop ({ limits := l }, []) 0 := by
    simp [Delimiter.step, hf, delimiter, failed, done]
  exact pipeline.feed_stop hs

/-- The outcome of a stream is that of feeding it whole. -/
theorem run_eq {l : ParserLimits} (hl : l.NoWrap) (reads : List Bytes) :
    run l reads =
      let u := pipeline.feed ({ limits := l }, []) reads.flatten
      ⟨u.1.2, u.1.1, u.2⟩ := by
  rw [run, runReads_eq, pipeline_resumable.feedReads_eq hl (pipeline_feed_fresh_nil l)]

/-- How a stream is cut into reads does not matter to the requests, the final parser or
the bytes used; and a call may be cut in two in every state. -/
theorem segmentation_independent {l : ParserLimits} (hl : l.NoWrap) :
    (∀ reads reads' : List Bytes, reads.flatten = reads'.flatten → run l reads = run l reads') ∧
      ∀ p : RequestParser, p.limits = l → ∀ a b, p.feed (a ++ b) =
        let u := p.feed a
        let v := u.1.feed (a.drop u.2 ++ b)
        (v.1, u.2 + v.2) := by
  refine ⟨fun reads reads' h => ?_, ?_⟩
  · rw [run_eq hl, run_eq hl, h]
  · rintro p rfl a b
    exact resumable.append hl a b

theorem segmentation_independent_default : ParserLimits.NoWrap {} ∧
    run {} [text "GET / HTTP/1.1\r", text "\nHost: x\r\n\r\n", text "GET"] =
      run {} [text "GET / HTTP/1.1\r\nHost: x\r\n\r\nGET"] :=
  ⟨by decide, (segmentation_independent (l := {}) (by decide)).1 _ _ (by decide)⟩

end RequestParser

end Httpd
