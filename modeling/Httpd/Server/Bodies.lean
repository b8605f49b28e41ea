import Httpd.Server.Delivery

/-! # Complete responses

A response is complete when its source has put out everything. A producer is followed up to
the call in which it says that there is no more; a file of an announced length and a producer of
an announced length are complete with that length.
-/

namespace Httpd

open Transcript

variable {ω σ : Type}

/-- The pieces that a producer yields up to its last call, and the trailers that it leaves. A
piece that is not the last has at least one byte. -/
inductive Yields (srv : Server ω σ) : σ → Headers → List Bytes → Headers → Prop where
  | last {p next : σ} {piece : Bytes} {tr tr' : Headers} :
      srv.call p tr = .returned false piece tr' next → Yields srv p tr [piece] tr'
  | more {p next : σ} {piece : Bytes} {pieces : List Bytes} {tr tr' tr'' : Headers} :
      srv.call p tr = .returned true piece tr' next → piece ≠ [] →
      Yields srv next tr' pieces tr'' → Yields srv p tr (piece :: pieces) tr''

def Coding.body (c : Coding) (pieces : List Bytes) (trailers : Headers) : Bytes :=
  (pieces.map c.frame).flatten ++ c.ending trailers

variable {srv : Server ω σ} {F : (Fd → Bytes) → Prop} {src src' : Source σ} {b w : Bytes}

def Source.Whole (srv : Server ω σ) : Source σ → Bytes → Prop
  | .idle, w => w = []
  | .file _ _ left, w => w.length = left
  | .stream _ _ (.sized n), w => w.length = n
  | .stream p tr c, w => ∃ pieces tr', Yields srv p tr pieces tr' ∧ w = c.body pieces tr'

theorem Source.Emits.whole (h : src.Emits srv F b src') (hw : src'.Whole srv w) :
    src.Whole srv (b ++ w) := by
  cases h with
  | file _ _ hle =>
    simp only [Source.Whole, List.length_append]
    split at hw
    · rw [show w = [] from hw, List.length_nil]
      omega
    · rw [show w.length = _ from hw]
      omega
  | @piece p next piece tr tr' c hcall hne hlt =>
    cases c with
    | sized n =>
      have hlen : w.length = n - piece.length := hw
      have := hlt n rfl
      simp only [Source.Whole, Coding.frame, List.length_append]
      omega
    | chunked | plain =>
      obtain ⟨pieces, tr'', hy, rfl⟩ := hw
      exact ⟨piece :: pieces, tr'', .more hcall hne hy, by simp [Coding.body, Coding.consume,
        Coding.frame, Coding.ending]⟩
  | @last p next more piece tr tr' c hcall _ hend hlen =>
    obtain rfl : w = [] := hw
    cases c with
    | sized n => simpa [Source.Whole, Coding.frame, Coding.ending] using hlen n rfl
    | chunked | plain =>
      obtain rfl := hend rfl
      exact ⟨[piece], tr', .last hcall, by simp [Coding.body]⟩

def Reply.Complete (srv : Server ω σ) (r : Reply σ) (b : Bytes) : Prop :=
  ∃ w, b = r.opening.1 ++ w ∧ r.opening.2.Whole srv w

/-- The source will complete the reply, if the reply was not cut short. -/
def Reply.Completable (srv : Server ω σ) (r : Reply σ) (b : Bytes) (src : Source σ)
    (closed : Bool) : Prop :=
  closed = false → ∀ w, src.Whole srv w → r.Complete srv (b ++ w)

theorem keeps_complete : Transcript.State.Keeps (discipline srv F) (Reply.Complete srv)
    (Reply.Completable srv) where
  opens := by
    rintro r b src h _ w hw
    obtain ⟨rfl, rfl⟩ := Prod.mk.inj h
    exact ⟨w, rfl, hw⟩
  emits := by
    intro r b src closed b' src' _ hlast hemits hclosed w hw
    rw [List.append_assoc]
    exact hlast hclosed _ (hemits.whole hw)
  truncates := by simp [Reply.Completable]
  finished := by
    intro r b hlast
    simpa using hlast rfl [] rfl

/-- The body of a response on the wire, with the files as they are. -/
def Response.Body (srv : Server ω σ) (files : Fd → Bytes) (res : Response σ) (framing : Framing)
    (w : Bytes) : Prop :=
  match res.file, res.producer with
  | some fd, _ => w.length = res.fileLength ∧ w <+: (files fd).drop res.fileOffset
  | none, some p => ∃ pieces trailers, Yields srv p .empty pieces trailers ∧
      (∀ n ∈ res.streamLength, pieces.flatten.length = n) ∧
      w = if framing = .chunked then
        (pieces.map (appendChunk [])).flatten ++ appendLastChunk [] trailers else pieces.flatten
  | none, none => w = res.body

/-- The complete response, head and body. -/
def Reply.Serializes (srv : Server ω σ) (files : Fd → Bytes) : Reply σ → Bytes → Prop
  | .interim, R => R = text "HTTP/1.1 100 Continue\r\n\r\n"
  | .failure res opts, R => R = headText res opts ++ res.body
  | .answer req res opts, R =>
    if req.method = text "HEAD" ∨ (framingOf res opts).1 = .none then R = headText res opts
    else ∃ w, R = headText res opts ++ w ∧ res.Body srv files (framingOf res opts).1 w

theorem Reply.serializes_fixed {req : Request} {res : Response σ} {opts : HeadOptions}
    {files : Fd → Bytes} (hfile : res.file = none) (hprod : res.producer = none) :
    (Reply.answer req res opts).Serializes srv files (Reply.answer req res opts).opening.1 := by
  simp only [Reply.Serializes, Reply.opening]
  split
  · next h => rcases h with h | h <;> simp [h]
  · next h =>
    rw [not_or] at h
    simp [h, Response.Body, Response.immediate, hfile, hprod]

/-- What is to come from a source whose producer keeps to the announced length. -/
def Source.Rest (srv : Server ω σ) (files : Fd → Bytes) : Source σ → Bytes → Prop
  | .idle, w => w = []
  | .file fd off left, w => w.length = left ∧ w <+: (files fd).drop off
  | .stream p tr c, w => ∃ pieces tr', Yields srv p tr pieces tr' ∧
      (∀ n ∈ c.left?, pieces.flatten.length = n) ∧ w = c.body pieces tr'

variable {files : Fd → Bytes}

theorem Yields.call_false {p next : σ} {piece : Bytes} {pieces : List Bytes} {tr tr' tr'' : Headers}
    (h : Yields srv p tr pieces tr'') (hcall : srv.call p tr = .returned false piece tr' next) :
    pieces = [piece] ∧ tr'' = tr' := by
  cases h with
  | last h => cases hcall.symm.trans h; exact ⟨rfl, rfl⟩
  | more h => cases hcall.symm.trans h

theorem Yields.call_true {p next : σ} {piece : Bytes} {pieces : List Bytes} {tr tr' tr'' : Headers}
    (h : Yields srv p tr pieces tr'') (hcall : srv.call p tr = .returned true piece tr' next) :
    ∃ pieces', pieces = piece :: pieces' ∧ Yields srv next tr' pieces' tr'' := by
  cases h with
  | last h => cases hcall.symm.trans h
  | more h _ hy => cases hcall.symm.trans h; exact ⟨_, rfl, hy⟩

@[simp] theorem Coding.body_cons (c : Coding) (piece : Bytes) (pieces : List Bytes)
    (trailers : Headers) :
    c.body (piece :: pieces) trailers = c.frame piece ++ c.body pieces trailers := by
  simp [Coding.body]

theorem Coding.body_sized (n : ℕ) (pieces : List Bytes) (trailers : Headers) :
    (Coding.sized n).body pieces trailers = pieces.flatten := by
  change (pieces.map id).flatten ++ [] = _
  simp

theorem Coding.body_plain (pieces : List Bytes) (trailers : Headers) :
    Coding.plain.body pieces trailers = pieces.flatten :=
  Coding.body_sized 0 pieces trailers

theorem Coding.body_consume (c : Coding) (k : ℕ) (pieces : List Bytes) (trailers : Headers) :
    (c.consume k).body pieces trailers = c.body pieces trailers := by
  cases c <;> rfl

theorem Source.Emits.rest (h : src.Emits srv (· = files) b src') (hw : src.Rest srv files w) :
    ∃ w', w = b ++ w' ∧ src'.Rest srv files w' := by
  cases h with
  | file hF hd hle =>
    subst hF
    obtain ⟨hlen, hpre⟩ := hw
    obtain ⟨w', rfl⟩ := List.prefix_of_prefix_length_le hd hpre (by omega)
    refine ⟨w', rfl, ?_⟩
    rw [List.length_append] at hlen
    split
    · exact List.eq_nil_of_length_eq_zero (by omega)
    · refine ⟨by omega, ?_⟩
      have := hpre.drop b.length
      rwa [List.drop_left, List.drop_drop] at this
  | @piece p next piece tr tr' c hcall hne hlt =>
    obtain ⟨pieces, tr'', hy, hlen, rfl⟩ := hw
    obtain ⟨pieces, rfl, hy'⟩ := hy.call_true hcall
    refine ⟨c.body pieces tr'', c.body_cons .., pieces, tr'', hy', fun n hn => ?_,
      (c.body_consume ..).symm⟩
    rw [Session.left?_consume, Option.mem_def, Option.map_eq_some_iff] at hn
    obtain ⟨n, hn, rfl⟩ := hn
    rw [← hlen n hn, List.flatten_cons, List.length_append]
    omega
  | @last p next more piece tr tr' c hcall _ hend hlen' =>
    obtain ⟨pieces, tr'', hy, hlen, rfl⟩ := hw
    refine ⟨[], ?_, rfl⟩
    cases more with
    | false =>
      obtain ⟨rfl, rfl⟩ := hy.call_false hcall
      simp [Coding.body]
    | true =>
      -- the announced length is reached, so that what the producer goes on with is empty
      obtain ⟨pieces, rfl, -⟩ := hy.call_true hcall
      cases c with
      | chunked | plain => cases hend rfl
      | sized n =>
        have h := hlen n rfl
        rw [List.flatten_cons, List.length_append, hlen' n rfl, Nat.add_eq_left,
          List.length_eq_zero_iff] at h
        rw [Coding.body_sized, List.flatten_cons, h]
        simp [Coding.frame, Coding.ending]

theorem Source.Truncates.not_rest (h : src.Truncates srv b) : ¬ src.Rest srv files w := by
  cases h with
  | short hcall hlt =>
    rintro ⟨pieces, tr'', hy, hlen, -⟩
    obtain ⟨rfl, -⟩ := hy.call_false hcall
    have := hlen _ rfl
    simp only [List.flatten_cons, List.flatten_nil, List.append_nil] at this
    omega

theorem Response.Body.rest {res : Response σ} {opts : HeadOptions}
    (h : res.Body srv files (framingOf res opts).1 w) :
    ∃ w', w = res.immediate ++ w' ∧ (res.source (framingOf res opts).1).Rest srv files w' := by
  unfold Response.Body at h
  split at h
  · next fd _ hfile =>
    obtain ⟨hlen, hpre⟩ := h
    refine ⟨w, by simp [Response.immediate, hfile], ?_⟩
    simp only [Response.source, hfile]
    split
    · next h0 => exact List.eq_nil_of_length_eq_zero (hlen.trans h0)
    · exact ⟨hlen, hpre⟩
  · next p hfile hprod =>
    obtain ⟨pieces, trailers, hy, hlen, hw⟩ := h
    refine ⟨w, by simp [Response.immediate, hprod], ?_⟩
    cases hs : res.streamLength with
    | none =>
      simp only [Response.source, hfile, hprod, hs]
      split at hw
      · next hch =>
        rw [if_pos hch]
        exact ⟨pieces, trailers, hy, by simp [Coding.left?], hw⟩
      · next hch =>
        rw [if_neg hch]
        exact ⟨pieces, trailers, hy, by simp [Coding.left?], by rw [hw, Coding.body_plain]⟩
    | some n =>
      rw [if_neg (Session.framingOf_sized hfile hs)] at hw
      have h := hlen n hs
      simp only [Response.source, hfile, hprod, hs]
      split
      · next h0 => exact hw.trans (List.eq_nil_of_length_eq_zero (h.trans h0))
      · refine ⟨pieces, trailers, hy, ?_, by rw [hw, Coding.body_sized]⟩
        rintro _ ⟨⟩
        exact h
  · next hfile hprod =>
    refine ⟨[], by simp [Response.immediate, hfile, hprod, h], ?_⟩
    simp [Response.source, hfile, hprod, Source.Rest]

theorem Reply.Serializes.rest {r : Reply σ} {R : Bytes} (h : r.Serializes srv files R) :
    ∃ w, R = r.opening.1 ++ w ∧ r.opening.2.Rest srv files w := by
  cases r with
  | interim => exact ⟨[], by simpa [Reply.opening, Reply.Serializes] using h, rfl⟩
  | failure res opts => exact ⟨[], by simpa [Reply.opening, Reply.Serializes] using h, rfl⟩
  | answer req res opts =>
    simp only [Reply.Serializes] at h
    split at h
    · next hnone =>
      refine ⟨[], ?_⟩
      rcases hnone with hnone | hnone <;> simp [Reply.opening, hnone, h, Source.Rest]
    · next hbody =>
      rw [not_or] at hbody
      obtain ⟨w, rfl, hw⟩ := h
      obtain ⟨w', rfl, hw'⟩ := hw.rest
      refine ⟨w', ?_⟩
      simpa [Reply.opening, hbody.1, hbody.2] using hw'

/-- With the files as they are and producers that keep to the announced lengths, replies are
written as they are serialized. -/
theorem exact_serializes :
    Exact (discipline srv (· = files)) (Reply.Serializes srv files) (Source.Rest srv files) where
  opens := by
    intro r b src R h hR
    obtain ⟨rfl, rfl⟩ := Prod.mk.inj h
    exact hR.rest
  emits := fun h hw => h.rest hw
  truncates := fun h => h.not_rest
  idle := id

end Httpd
