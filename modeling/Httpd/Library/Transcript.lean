import Mathlib

/-! # Transcripts

A writer puts out messages one after the other. The first part of a message is written when
it is opened; the rest comes from a source, piece by piece, and the next message may be opened
only when the source is idle. The log keeps what was written for each message. What the
steps of a message keep until it is finished holds of every message but the last; if sources
are exact for a serialization, what was written is a prefix of the serialized messages.
-/

namespace Transcript

open Relation

variable {M S α : Type*}

def extendLast (b : List α) : List (M × List α) → List (M × List α)
  | [] => []
  | [e] => [(e.1, e.2 ++ b)]
  | e :: es => e :: extendLast b es

theorem extendLast_concat (b : List α) (l : List (M × List α)) (m : M) (c : List α) :
    extendLast b (l ++ [(m, c)]) = l ++ [(m, c ++ b)] := by
  induction l with
  | nil => rfl
  | cons e l ih =>
    cases l with
    | nil => rfl
    | cons e' l => simpa [extendLast] using ih

@[simp] theorem extendLast_nil (l : List (M × List α)) : extendLast [] l = l := by
  rcases l.eq_nil_or_concat with rfl | ⟨l, ⟨m, d⟩, rfl⟩
  · rfl
  · simp [extendLast_concat]

theorem extendLast_extendLast (b c : List α) (l : List (M × List α)) :
    extendLast c (extendLast b l) = extendLast (b ++ c) l := by
  rcases l.eq_nil_or_concat with rfl | ⟨l, ⟨m, d⟩, rfl⟩
  · rfl
  · simp [extendLast_concat]

@[simp] theorem map_fst_extendLast (b : List α) (l : List (M × List α)) :
    (extendLast b l).map Prod.fst = l.map Prod.fst := by
  fun_induction extendLast b l with
  | case1 => rfl
  | case2 e => rfl
  | case3 e es _ ih => simp [ih]

structure State (M S α : Type*) where
  sent : List α
  pending : List α
  log : List (M × List α)
  source : S
  closed : Bool

/-- How messages are written: what opening a message puts out and which source it installs,
what a source puts out, and how a source may give up. -/
structure Discipline (M S α : Type*) where
  idle : S
  closes : M → Bool
  Opens : M → List α → S → Prop
  Emits : S → List α → S → Prop
  Truncates : S → List α → Prop

namespace State

def emit (s : State M S α) (b : List α) (src : S) : State M S α :=
  { s with pending := s.pending ++ b, log := extendLast b s.log, source := src }

theorem emit_emit (s : State M S α) (b c : List α) (src src' : S) :
    (s.emit b src).emit c src' = s.emit (b ++ c) src' := by
  simp [emit, extendLast_extendLast]

def emitDirectly (s : State M S α) (b : List α) (src : S) : State M S α :=
  { s with sent := s.sent ++ b, log := extendLast b s.log, source := src }

inductive Step (D : Discipline M S α) : State M S α → State M S α → Prop where
  | deliver {s : State M S α} (n : ℕ) :
      Step D s { s with sent := s.sent ++ s.pending.take n, pending := s.pending.drop n }
  | opening {s : State M S α} {m : M} {b : List α} {src : S} : s.source = D.idle →
      s.closed = false → D.Opens m b src →
      Step D s { s with
        pending := s.pending ++ b
        log := s.log ++ [(m, b)]
        source := src
        closed := D.closes m }
  | emit {s : State M S α} {b : List α} {src : S} : s.source ≠ D.idle → D.Emits s.source b src →
      Step D s (s.emit b src)
  | direct {s : State M S α} {b : List α} {src : S} : s.source ≠ D.idle → s.pending = [] →
      D.Emits s.source b src → Step D s (s.emitDirectly b src)
  | truncate {s : State M S α} {b : List α} : s.source ≠ D.idle → D.Truncates s.source b →
      Step D s { s.emit b D.idle with closed := true }

abbrev Steps (D : Discipline M S α) : State M S α → State M S α → Prop := ReflTransGen (Step D)

variable {D : Discipline M S α} {s t : State M S α}

/-- What is known of the log: the finished messages, of which none closes, and the last one. -/
structure Shape (D : Discipline M S α) (Done : M → List α → Prop)
    (Last : M → List α → S → Bool → Prop) (s : State M S α) : Prop where
  flat : s.sent ++ s.pending = (s.log.map Prod.snd).flatten
  entries : (s.log = [] ∧ s.source = D.idle ∧ s.closed = false) ∨
    ∃ l m b, s.log = l ++ [(m, b)] ∧ (∀ e ∈ l, Done e.1 e.2 ∧ D.closes e.1 = false) ∧
      Last m b s.source s.closed ∧ (s.closed = false → D.closes m = false)

/-- The steps of the last message keep what is known of it, until it is finished. -/
structure Keeps (D : Discipline M S α) (Done : M → List α → Prop)
    (Last : M → List α → S → Bool → Prop) : Prop where
  opens : ∀ {m b src}, D.Opens m b src → Last m b src (D.closes m)
  emits : ∀ {m b src closed b' src'}, src ≠ D.idle → Last m b src closed →
    D.Emits src b' src' → Last m (b ++ b') src' closed
  truncates : ∀ {m b src closed b'}, src ≠ D.idle → Last m b src closed →
    D.Truncates src b' → Last m (b ++ b') D.idle true
  finished : ∀ {m b}, Last m b D.idle false → Done m b

variable {Done : M → List α → Prop} {Last : M → List α → S → Bool → Prop}

theorem shape_initial : Shape D Done Last ⟨[], [], [], D.idle, false⟩ :=
  ⟨rfl, .inl ⟨rfl, rfl, rfl⟩⟩

theorem Shape.active (h : Shape D Done Last s) (hs : s.source ≠ D.idle) :
    ∃ l m b, s.log = l ++ [(m, b)] ∧ (∀ e ∈ l, Done e.1 e.2 ∧ D.closes e.1 = false) ∧
      Last m b s.source s.closed ∧ (s.closed = false → D.closes m = false) := by
  rcases h.entries with ⟨_, h', _⟩ | h'
  · exact absurd h' hs
  · exact h'

theorem Shape.forall_mem {P : M → List α → Prop} (h : Shape D Done Last s)
    (hdone : ∀ {m b}, Done m b → P m b) (hlast : ∀ {m b src closed}, Last m b src closed → P m b) :
    ∀ e ∈ s.log, P e.1 e.2 := by
  rintro e he
  rcases h.entries with ⟨hlog, _, _⟩ | ⟨l, m, b, hlog, hl, hm, _⟩
  · rw [hlog] at he
    cases he
  · rw [hlog, List.mem_append, List.mem_singleton] at he
    rcases he with he | rfl
    · exact hdone (hl e he).1
    · exact hlast hm

/-- While the source is idle and nothing was closed, every message is finished. -/
theorem Shape.finished (hk : Keeps D Done Last) (h : Shape D Done Last s)
    (hs : s.source = D.idle) (hc : s.closed = false) :
    ∀ e ∈ s.log, Done e.1 e.2 ∧ D.closes e.1 = false := by
  rcases h.entries with ⟨hlog, _, _⟩ | ⟨l, m, b, hlog, hl, hlast, hcl⟩
  · simp [hlog]
  · rw [hs, hc] at hlast
    intro e he
    rw [hlog, List.mem_append, List.mem_singleton] at he
    rcases he with he | rfl
    · exact hl e he
    · exact ⟨hk.finished hlast, hcl hc⟩

theorem Shape.step (hk : Keeps D Done Last) (h : Shape D Done Last s) (hst : Step D s t) :
    Shape D Done Last t := by
  have hflat := h.flat
  cases hst with
  | deliver n =>
    refine ⟨?_, h.entries⟩
    rw [← hflat, List.append_assoc, List.take_append_drop]
  | opening hidle hopen hm =>
    constructor
    · simp [← hflat]
    · exact .inr ⟨s.log, _, _, rfl, h.finished hk hidle hopen, hk.opens hm, id⟩
  | emit hsrc he =>
    obtain ⟨l, m, b, hlog, hl, hlast, hcl⟩ := h.active hsrc
    constructor
    · simp [State.emit, hlog, extendLast_concat, ← List.append_assoc, hflat]
    · exact .inr ⟨l, m, _, by simp [State.emit, hlog, extendLast_concat], hl,
        hk.emits hsrc hlast he, hcl⟩
  | direct hsrc hpend he =>
    obtain ⟨l, m, b, hlog, hl, hlast, hcl⟩ := h.active hsrc
    rw [hpend, List.append_nil] at hflat
    constructor
    · simp [State.emitDirectly, hlog, extendLast_concat, hflat, hpend]
    · exact .inr ⟨l, m, _, by simp [State.emitDirectly, hlog, extendLast_concat], hl,
        hk.emits hsrc hlast he, hcl⟩
  | truncate hsrc ht =>
    obtain ⟨l, m, b, hlog, hl, hlast, hcl⟩ := h.active hsrc
    constructor
    · simp [State.emit, hlog, extendLast_concat, ← List.append_assoc, hflat]
    · exact .inr ⟨l, m, _, by simp [State.emit, hlog, extendLast_concat], hl,
        hk.truncates hsrc hlast ht, by simp⟩

theorem Shape.steps (hk : Keeps D Done Last) (h : Shape D Done Last s) (hst : Steps D s t) :
    Shape D Done Last t := by
  induction hst with
  | refl => exact h
  | tail _ hstep ih => exact ih.step hk hstep

theorem Steps.sent_prefix (hst : Steps D s t) : s.sent <+: t.sent := by
  induction hst with
  | refl => exact List.prefix_rfl
  | tail _ hstep ih =>
    cases hstep with
    | deliver n => exact ih.trans (List.prefix_append _ _)
    | direct => exact ih.trans (List.prefix_append _ _)
    | _ => exact ih

end State

section UpToClose

variable {closes : M → Bool} {l ms : List M} {m : M}

def upToClose (closes : M → Bool) : List M → List M
  | [] => []
  | m :: ms => if closes m then [m] else m :: upToClose closes ms

theorem upToClose_append (hl : ∀ x ∈ l, closes x = false) (ms : List M) :
    upToClose closes (l ++ ms) = l ++ upToClose closes ms := by
  induction l with
  | nil => rfl
  | cons x l ih =>
    rw [List.forall_mem_cons] at hl
    simp [upToClose, hl.1, ih hl.2]

theorem upToClose_eq_self (h : ∀ x ∈ ms, closes x = false) : upToClose closes ms = ms := by
  simpa [upToClose] using upToClose_append h []

theorem upToClose_of_closes (hl : ∀ x ∈ l, closes x = false) (hm : closes m = true)
    (h : l ++ [m] <+: ms) : upToClose closes ms = l ++ [m] := by
  obtain ⟨ms, rfl⟩ := h
  rw [List.append_assoc, upToClose_append hl]
  simp [upToClose, hm]

theorem upToClose_map {N : Type*} (f : N → M) (ns : List N) :
    upToClose closes (ns.map f) = (upToClose (fun n => closes (f n)) ns).map f := by
  induction ns with
  | nil => rfl
  | cons n ns ih =>
    simp only [List.map_cons, upToClose, ih]
    split_ifs <;> rfl

theorem upToClose_isPrefix (ms : List M) : upToClose closes ms <+: ms := by
  induction ms with
  | nil => exact List.prefix_rfl
  | cons m ms ih =>
    unfold upToClose
    split_ifs
    · exact List.prefix_append [m] ms
    · exact List.prefix_cons_inj m |>.mpr ih

theorem prefix_upToClose (hl : ∀ x ∈ l, closes x = false) (h : l ++ [m] <+: ms) :
    l ++ [m] <+: upToClose closes ms := by
  cases hm : closes m with
  | true => rw [upToClose_of_closes hl hm h]
  | false =>
    obtain ⟨ms, rfl⟩ := h
    rw [upToClose_append]
    · exact List.prefix_append _ _
    · simpa [or_imp, forall_and, hm] using hl

end UpToClose

section Exact

open State

variable {D : Discipline M S α} {Ser : M → List α → Prop} {Rest : S → List α → Prop}

/-- The source puts out what the serialization of the message goes on with. -/
structure Exact (D : Discipline M S α) (Ser : M → List α → Prop) (Rest : S → List α → Prop) :
    Prop where
  opens : ∀ {m b src R}, D.Opens m b src → Ser m R → ∃ w, R = b ++ w ∧ Rest src w
  emits : ∀ {src b src' w}, D.Emits src b src' → Rest src w → ∃ w', w = b ++ w' ∧ Rest src' w'
  truncates : ∀ {src b w}, D.Truncates src b → ¬ Rest src w
  idle : ∀ {w}, Rest D.idle w → w = []

def Serialized (Ser : M → List α → Prop) (m : M) (b : List α) : Prop := ∀ R, Ser m R → b = R

/-- The message has been written in part, the source will put out the rest, and what follows is
closed only if the message closes. -/
def Underway (D : Discipline M S α) (Ser : M → List α → Prop) (Rest : S → List α → Prop) (m : M)
    (b : List α) (src : S) (closed : Bool) : Prop :=
  ∀ R, Ser m R → closed = D.closes m ∧ ∃ w, R = b ++ w ∧ Rest src w

theorem Exact.keeps (h : Exact D Ser Rest) : Keeps D (Serialized Ser) (Underway D Ser Rest) where
  opens hm R hR := ⟨rfl, h.opens hm hR⟩
  emits := by
    intro m b src closed b' src' _ hlast he R hR
    obtain ⟨hcl, w, rfl, hw⟩ := hlast R hR
    obtain ⟨w', rfl, hw'⟩ := h.emits he hw
    exact ⟨hcl, w', by simp, hw'⟩
  truncates := by
    intro m b src closed b' _ hlast ht R hR
    obtain ⟨-, w, _, hw⟩ := hlast R hR
    exact absurd hw (h.truncates ht)
  finished := by
    intro m b hlast R hR
    obtain ⟨-, w, rfl, hw⟩ := hlast R hR
    rw [h.idle hw, List.append_nil]

theorem flatten_of_serialized {l : List (M × List α)} (hl : ∀ e ∈ l, Serialized Ser e.1 e.2)
    {ms : List M} {Rs : List (List α)} (hser : List.Forall₂ Ser ms Rs)
    (hpre : l.map Prod.fst <+: ms) : ∃ ms' Rs', List.Forall₂ Ser ms' Rs' ∧
      ms = l.map Prod.fst ++ ms' ∧ Rs.flatten = (l.map Prod.snd).flatten ++ Rs'.flatten := by
  induction l generalizing ms Rs with
  | nil => exact ⟨ms, Rs, hser, rfl, rfl⟩
  | cons e l ih =>
    obtain ⟨ms', rfl⟩ := hpre
    rw [List.map_cons, List.cons_append] at hser
    obtain ⟨R, Rs, hR, hser', rfl⟩ := List.forall₂_cons_left_iff.mp hser
    obtain ⟨ms'', Rs', hser'', hms, hRs⟩ :=
      ih (fun e he => hl e (List.mem_cons_of_mem _ he)) hser' (List.prefix_append _ _)
    refine ⟨ms'', Rs', hser'', by simp [List.append_cancel_left hms], ?_⟩
    rw [List.flatten_cons, hRs, ← hl e List.mem_cons_self R hR]
    simp

theorem flatten_around {l : List (M × List α)} {m : M} {ms : List M} {Rs : List (List α)}
    (hl : ∀ e ∈ l, Serialized Ser e.1 e.2 ∧ D.closes e.1 = false)
    (hser : List.Forall₂ Ser (upToClose D.closes ms) Rs) (hpre : l.map Prod.fst ++ [m] <+: ms) :
    ∃ R ms' Rs', Ser m R ∧ List.Forall₂ Ser ms' Rs' ∧
      upToClose D.closes ms = l.map Prod.fst ++ m :: ms' ∧
      Rs.flatten = (l.map Prod.snd).flatten ++ (R ++ Rs'.flatten) := by
  have hpre : l.map Prod.fst ++ [m] <+: upToClose D.closes ms :=
    prefix_upToClose (by simpa using fun x y hx => (hl (x, y) hx).2) hpre
  obtain ⟨ms', Rs', hser', hms, hRs⟩ := flatten_of_serialized (fun e he => (hl e he).1) hser
    ((List.prefix_append _ _).trans hpre)
  rw [hms] at hpre ⊢
  obtain ⟨ms', rfl⟩ := (List.prefix_append_right_inj _).mp hpre
  obtain ⟨R, Rs', hR, hrest, rfl⟩ := List.forall₂_cons_left_iff.mp hser'
  exact ⟨R, ms', Rs', hR, hrest, rfl, by rw [hRs, List.flatten_cons]⟩

/-- What was written is a prefix of the serialized messages, up to the first that closes. -/
theorem prefix_of_underway {s : State M S α} {ms : List M} {Rs : List (List α)}
    (h : Shape D (Serialized Ser) (Underway D Ser Rest) s)
    (hser : List.Forall₂ Ser (upToClose D.closes ms) Rs) (hpre : s.log.map Prod.fst <+: ms) :
    s.sent ++ s.pending <+: Rs.flatten := by
  rw [h.flat]
  rcases h.entries with ⟨hlog, _, _⟩ | ⟨l, m, b, hlog, hl, hlast, _⟩
  · simp [hlog]
  · rw [hlog, List.map_append] at hpre
    obtain ⟨R, ms', Rs', hR, -, -, hRs⟩ := flatten_around hl hser hpre
    obtain ⟨-, w, rfl, -⟩ := hlast R hR
    simp [hRs, hlog]

/-- When the source is idle, everything has been written once the log has all messages or the
writer has closed. -/
theorem eq_of_underway {s : State M S α} {ms : List M} {Rs : List (List α)}
    (hidle : ∀ {w}, Rest D.idle w → w = [])
    (h : Shape D (Serialized Ser) (Underway D Ser Rest) s) (hs : s.source = D.idle)
    (hser : List.Forall₂ Ser (upToClose D.closes ms) Rs) (hpre : s.log.map Prod.fst <+: ms)
    (hend : s.closed = true ∨ s.log.map Prod.fst = ms) : s.sent ++ s.pending = Rs.flatten := by
  rw [h.flat]
  rcases h.entries with ⟨hlog, _, hcl⟩ | ⟨l, m, b, hlog, hl, hlast, _⟩
  · obtain rfl : ms = [] := by simpa [hcl, hlog] using hend.symm
    cases hser
    simp [hlog]
  · have hfree : ∀ x ∈ l.map Prod.fst, D.closes x = false := by
      simpa using fun x y hx => (hl (x, y) hx).2
    rw [hlog, List.map_append] at hpre hend
    obtain ⟨R, ms', Rs', hR, hser', hms, hRs⟩ := flatten_around hl hser hpre
    obtain ⟨hcl, w, rfl, hw⟩ := hlast R hR
    rw [hs] at hw
    obtain rfl := hidle hw
    have hall : upToClose D.closes ms = l.map Prod.fst ++ [m] := by
      cases hm : D.closes m with
      | true => exact upToClose_of_closes hfree hm hpre
      | false =>
        rw [hcl, hm] at hend
        rw [← hend.resolve_left (by simp)]
        exact upToClose_eq_self (by simpa [or_imp, forall_and, hm] using hfree)
    rw [hms] at hall
    obtain rfl : ms' = [] := by simpa using hall
    cases hser'
    simp [hRs, hlog]

end Exact

end Transcript
