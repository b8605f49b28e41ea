import Httpd.Server.Timer

/-! # Deadlines

Timeouts are enforced by a sweep that the loop makes when the last one is a tick ago. Relative
to the time of the last sweep no connection has been inactive, or has taken over its header
section, for longer than the configuration allows; so at the end of every pass of the loop no
connection is late by a tick.
-/

namespace Httpd

open Relation

variable {ω σ : Type}

namespace RequestParser

variable {p q : RequestParser} {u : Bytes}

theorem Reads.headersComplete (h : p.Reads u q) (hp : p.headersComplete = true) :
    q.headersComplete = true := by
  cases h with
  | blank => exact hp
  | requestLine hs => simp [RequestParser.headersComplete, hs] at hp
  | field _ _ _ _ _ hq =>
    obtain ⟨_, _, _, ⟨_, _, rfl⟩ | ⟨_, rfl⟩⟩ := parseFieldLine_ok hq <;> exact hp
  | finish hs => simp [RequestParser.headersComplete, hs] at hp
  | trailersEnd => rfl
  | data =>
    rcases takeData_cases (p := p) u with hq | hq <;> rw [hq]
    · exact hp
    · dsimp only [RequestParser.headersComplete]
      split <;> rfl
  | dataEnd => rfl
  | chunkSize _ _ _ hq =>
    obtain ⟨_, _, ⟨_, rfl⟩ | ⟨_, _, _, rfl⟩⟩ := parseChunkSize_ok hq <;> rfl

theorem Reads.not_failed (h : p.Reads u q) : p.failed = false := by
  cases h with
  | field hs => rcases hs with hs | hs <;> simp [failed, hs]
  | data hs => rcases hs with hs | hs <;> simp [failed, hs]
  | _ hs => simp [failed, hs]

theorem feed_headersComplete (hp : p.headersComplete = true) (d : Bytes)
    (hf : (p.feed d).1.failed = false) : (p.feed d).1.headersComplete = true := by
  have h : (p.feed d).1.headersComplete = true ∨ (p.feed d).1.failed = true := by
    apply feed_keeps (I := fun q => q.headersComplete = true ∨ q.failed = true) _ _ (.inl hp)
    · rintro p u q hu (hp | hp)
      · exact .inl (hu.headersComplete hp)
      · cases hp.symm.trans hu.not_failed
    · rintro p rest q n hf -
      exact .inr (by simp [failed, hf.state])
  exact h.resolve_right (by simp [hf])

end RequestParser

theorem elapsed_of_le {now past : ℕ} (h : past ≤ now) (hnow : now < 2 ^ 64) :
    elapsed now past = now - past :=
  wrapSub_of_le h hnow

theorem Watch.Step.start {now : ℕ} {w w' : Watch} (h : w.Step now w') :
    (w'.start = w.start ∧
      (w'.parser.headersComplete = false → w.parser.headersComplete = false)) ∨
    w'.start = now ∨ w'.start = 0 := by
  cases h with
  | recv => exact .inl ⟨rfl, id⟩
  | feed _ hf =>
    by_cases hstart : w.start = 0
    · exact .inr (.inl (if_pos hstart))
    · refine .inl ⟨if_neg hstart, fun hnew => ?_⟩
      by_contra hold
      rw [Bool.not_eq_false] at hold
      cases hnew.symm.trans (RequestParser.feed_headersComplete hold _ hf)
  | answer => exact .inr (.inr rfl)
  | reject => exact .inr (.inr rfl)

/-- The timers lie in the past, and at an earlier moment they had not run out. -/
structure Connection.Within (cfg : ServerConfig ω σ) (past now : ℕ) (c : Connection σ) : Prop where
  active_le : c.lastActiveUs ≤ now
  start_le : c.requestStartUs ≤ now
  idle : past ≤ c.lastActiveUs + cfg.idleTimeoutUs
  header : c.requestStartUs ≠ 0 → c.parser.headersComplete = false →
    past ≤ c.requestStartUs + cfg.headerTimeoutUs

variable {cfg : ServerConfig ω σ} {past now now' : ℕ}

theorem Connection.Within.mono {c : Connection σ} (h : c.Within cfg past now) (hle : now ≤ now') :
    c.Within cfg past now' :=
  ⟨h.active_le.trans hle, h.start_le.trans hle, h.idle, h.header⟩

namespace Session

variable {srv : Server ω σ} {m : Moment ω} {s t : Session σ}

theorem refills_lastActiveUs {x y : Session σ × Bool} (h : ReflTransGen (Refill srv) x y) :
    y.1.conn.lastActiveUs = x.1.conn.lastActiveUs := by
  apply refills_frame (f := fun s => s.conn.lastActiveUs) _ h
  intro s next trailers piece
  unfold takePiece consumeStream
  split <;> rfl

theorem Step.lastActiveUs (h : Step srv m s t) :
    t.conn.lastActiveUs = s.conn.lastActiveUs ∨ t.conn.lastActiveUs = m.nowUs := by
  cases h with
  | recv => exact .inr rfl
  | answer =>
    left
    unfold dispatchNext dispatch
    dsimp only [recordResponse, say]
    split
    · unfold installBody
      dsimp only
      repeat' split
      all_goals rfl
    · rfl
  | @send room ks =>
    obtain ⟨_, _, _, h⟩ := exists_sendSome (s.setSends ks) m room
    exact .inr (congrArg (fun u => u.conn.lastActiveUs) h)
  | @file fd room files ks =>
    unfold fileStep
    dsimp only
    split
    · exact .inl rfl
    · obtain ⟨_, _, h⟩ := exists_moveFile ((s.setSendfiles ks).attempt (.file s.fileWant room
        ((files fd).drop s.conn.fileOff).length)) m room ((files fd).drop s.conn.fileOff)
      exact .inr (congrArg (fun u => u.conn.lastActiveUs) h)
  | refill _ _ _ _ hr => exact .inl (refills_lastActiveUs hr)
  | @refillEnd u _ _ _ _ _ hr =>
    left
    have hfinish : u.finishStream.conn.lastActiveUs = u.conn.lastActiveUs := by
      unfold finishStream
      dsimp only
      split <;> rfl
    exact hfinish.trans (refills_lastActiveUs hr)
  | _ => exact .inl rfl

/-- A step sets a timer to the present, clears it or leaves it alone. -/
theorem Step.within (h : Step srv m s t) (hpast : past ≤ m.nowUs)
    (hs : s.conn.Within cfg past m.nowUs) : t.conn.Within cfg past m.nowUs := by
  have hactive : t.conn.lastActiveUs ≤ m.nowUs ∧
      past ≤ t.conn.lastActiveUs + cfg.idleTimeoutUs := by
    rcases h.lastActiveUs with ha | ha <;> rw [ha]
    · exact ⟨hs.active_le, hs.idle⟩
    · exact ⟨le_rfl, hpast.trans (Nat.le_add_right ..)⟩
  have hstart : (t.conn.requestStartUs = s.conn.requestStartUs ∧
      (t.conn.parser.headersComplete = false → s.conn.parser.headersComplete = false)) ∨
      t.conn.requestStartUs = m.nowUs ∨ t.conn.requestStartUs = 0 := by
    rcases h.watch [] with hw | hw
    · have hsame : t.conn.parser = s.conn.parser := congrArg Watch.parser hw
      exact .inl ⟨congrArg Watch.start hw, by rw [hsame]; exact id⟩
    · exact hw.start
  refine ⟨hactive.1, ?_, hactive.2, fun hne hhead => ?_⟩
  · rcases hstart with ⟨hstart, -⟩ | hstart | hstart <;> rw [hstart]
    · exact hs.start_le
    · exact Nat.zero_le _
  · rcases hstart with ⟨hstart, hbefore⟩ | hstart | hstart
    · rw [hstart] at hne ⊢
      exact hs.header hne (hbefore hhead)
    · rw [hstart]
      exact hpast.trans (Nat.le_add_right ..)
    · exact absurd hstart hne

theorem within_of_drive {k : Kernel} {readable writable : Bool} {w : WorkerMetrics} {fuel : ℕ}
    (h : (s.wake readable writable w k).drive srv m fuel = .ok (true, t))
    (hpast : past ≤ m.nowUs) (hs : s.conn.Within cfg past m.nowUs) :
    t.conn.Within cfg past m.nowUs := by
  obtain ⟨u, hu, ⟨hok, -⟩ | ⟨hfin, -⟩⟩ := outcome_of_drive h
  · cases hok
  · rw [(finish_eq_true_iff.mp hfin).1]
    clear h hfin
    induction hu with
    | refl => exact ⟨hs.active_le, hs.start_le, hs.idle, hs.header⟩
    | tail _ hstep ih => exact hstep.within hpast ih

end Session

namespace Worker

variable {w w' : Worker σ} {fd : Fd} {s t : Session σ} {Ok : Worker σ → Label ω → Prop}

/-- Of no connection a timer had run out at a moment in the past. -/
structure Alive (cfg : ServerConfig ω σ) (past : ℕ) (w : Worker σ) : Prop where
  past_le : past ≤ w.nowUs
  within : ∀ fd s, w.conns.lookup fd = some s → s.conn.Within cfg past w.nowUs

/-- The clock does not go back. -/
def Label.Later (w : Worker σ) : Label ω → Prop
  | .wait now _ => w.nowUs ≤ now
  | _ => True

theorem Alive.closeConnection (h : w.Alive cfg past) (fd : Fd) :
    (w.closeConnection fd).Alive cfg past := by
  have hnow : (w.closeConnection fd).nowUs = w.nowUs :=
    congrArg Prod.fst (closeConnection_loopState fd)
  constructor <;> rw [hnow]
  · exact h.past_le
  · exact fun k s hs => h.within k s (lookup_closeConnection hs)

theorem Alive.put (h : w.Alive cfg past) (ht : t.conn.Within cfg past w.nowUs) (fd : Fd) :
    (w.put fd t).Alive cfg past := by
  constructor
  · exact h.past_le
  · intro k s hs
    rcases lookup_insert_some hs with ⟨-, rfl⟩ | ⟨-, hs⟩
    · exact ht
    · exact h.within k s hs

theorem invariant_alive : Invariant cfg Label.Later fun w : Worker σ => w.Alive cfg past where
  wakeUp h hlater := ⟨h.past_le.trans hlater, fun fd s hs => (h.within fd s hs).mono hlater⟩
  beginDrain {w} h := by
    unfold beginDrain
    split
    · exact h
    · exact ⟨h.past_le, h.within⟩
  onAccept {w e} h _ _ := by
    apply onAccept_keeps _ _ h
    · intro w fd h
      constructor
      · exact h.past_le
      · intro k s hs
        unfold emplace at hs
        dsimp only at hs
        split at hs
        · exact h.within k s hs
        · rcases lookup_insert_some hs with ⟨-, rfl⟩ | ⟨-, hs⟩
          · exact ⟨le_rfl, Nat.zero_le _, h.past_le.trans (Nat.le_add_right ..),
              fun hne => absurd rfl hne⟩
          · exact h.within k s hs
    · exact fun h => ⟨h.past_le, h.within⟩
  put {w e s t} h hs ht :=
    h.put (Session.within_of_drive (m := w.moment e) ht h.past_le (h.within _ _ hs)) _
  drop {w e s t} h hs ht := by
    rw [put_closeConnection]
    constructor
    · exact h.past_le
    · intro k u hu
      by_cases hk : k = e.fd
      · rw [hk, AList.lookup_erase] at hu
        cases hu
      · rw [AList.lookup_erase_ne hk, AList.lookup_insert_ne hk] at hu
        exact h.within k u hu
  close h _ := h.closeConnection _
  timeOut {w fd s} h _ := by
    have hnote : w.noteTimeout.Alive cfg past := ⟨h.past_le, h.within⟩
    exact hnote.closeConnection fd
  swept h := ⟨h.past_le, h.within⟩
  stop h := ⟨h.past_le, h.within⟩

theorem lookup_sweepOne {k : Fd} (h : (w.sweepOne cfg fd).conns.lookup k = some s) :
    w.conns.lookup k = some s := by
  unfold sweepOne at h
  repeat' split at h
  all_goals first
    | exact h
    | exact lookup_closeConnection h
    | exact lookup_closeConnection (w := w.noteTimeout) h

theorem lookup_closeConnection_self : (w.closeConnection fd).conns.lookup fd = none := by
  cases hs : w.conns.lookup fd with
  | none => rwa [closeConnection_of_none hs]
  | some s =>
    rw [closeConnection_of_some hs]
    exact AList.lookup_erase ..

/-- A connection that the sweep has looked at and left alone has not expired. -/
theorem sweepOne_spares (h : (w.sweepOne cfg fd).conns.lookup fd = some s) :
    s.conn.headerExpired cfg w.nowUs = false ∧ s.conn.idleExpired cfg w.nowUs = false := by
  unfold sweepOne at h
  split at h
  · next hnone => cases hnone.symm.trans h
  · next u hu =>
    repeat' split at h
    · cases lookup_closeConnection_self.symm.trans h
    · cases lookup_closeConnection_self.symm.trans h
    · cases lookup_closeConnection_self.symm.trans h
    · next hheader hidle =>
      obtain rfl : u = s := Option.some.inj (hu.symm.trans h)
      exact ⟨by simpa using hheader, by simpa using hidle⟩

theorem sweep_spares (h : (w.sweep cfg).conns.lookup fd = some s) :
    w.conns.lookup fd = some s ∧ s.conn.headerExpired cfg w.nowUs = false ∧
      s.conn.idleExpired cfg w.nowUs = false := by
  have hfold (ks : List Fd) : ∀ v : Worker σ, v.nowUs = w.nowUs →
      (ks.foldl (Worker.sweepOne cfg) v).conns.lookup fd = some s →
      v.conns.lookup fd = some s ∧ (fd ∈ ks → s.conn.headerExpired cfg w.nowUs = false ∧
        s.conn.idleExpired cfg w.nowUs = false) := by
    induction ks with
    | nil => exact fun v _ hv => ⟨hv, fun hmem => absurd hmem List.not_mem_nil⟩
    | cons k ks ih =>
      intro v hnow hv
      have hnow' : (v.sweepOne cfg k).nowUs = w.nowUs :=
        (congrArg Prod.fst (sweepOne_loopState k)).trans hnow
      obtain ⟨hold, hks⟩ := ih _ hnow' hv
      refine ⟨lookup_sweepOne hold, fun hmem => ?_⟩
      rcases List.mem_cons.mp hmem with rfl | hmem
      · rw [← hnow]
        exact sweepOne_spares hold
      · exact hks hmem
  obtain ⟨hold, hmem⟩ := hfold w.conns.keys w rfl h
  exact ⟨hold, hmem (Table.mem_of_lookup hold)⟩

theorem Alive.sweep (h : w.Alive cfg past) (hnow : w.nowUs < 2 ^ 64) :
    (w.sweep cfg).Alive cfg w.nowUs := by
  have hsame : (w.sweep cfg).nowUs = w.nowUs := congrArg Prod.fst sweep_loopState
  constructor <;> rw [hsame]
  intro fd s hs
  obtain ⟨hold, hheader, hidle⟩ := sweep_spares hs
  have hwithin := h.within fd s hold
  refine ⟨hwithin.active_le, hwithin.start_le, ?_, fun hne hhead => ?_⟩
  · rw [Connection.idleExpired, decide_eq_false_iff_not, not_lt,
      elapsed_of_le hwithin.active_le hnow] at hidle
    exact Nat.sub_le_iff_le_add'.mp hidle
  · have hstart : (s.conn.requestStartUs != 0) = true := bne_iff_ne.mpr hne
    rw [Connection.headerExpired, hstart, hhead, Bool.not_false, Bool.and_true, Bool.true_and,
      decide_eq_false_iff_not, not_lt, elapsed_of_le hwithin.start_le hnow] at hheader
    exact Nat.sub_le_iff_le_add'.mp hheader

/-- At the end of a pass the last sweep is less than a tick ago. -/
structure Timely (cfg : ServerConfig ω σ) (w : Worker σ) : Prop where
  alive : w.Alive cfg w.lastSweep
  swept : w.nowUs < w.lastSweep + cfg.tickUs

theorem tickUs_pos : 0 < cfg.tickUs := Nat.lt_of_lt_of_le (by decide) (Nat.le_max_left ..)

/-- Every event of a batch is admitted when its turn comes. -/
def Admits (cfg : ServerConfig ω σ) (Ok : Worker σ → Label ω → Prop) :
    List (Event ω) → Worker σ → Prop
  | [], _ => True
  | e :: es, w => Ok w (.event e) ∧ ∀ w', w.handle cfg e = some w' → Admits cfg Ok es w'

theorem admits_of_forall (hok : ∀ w (e : Event ω), Ok w (.event e)) (es : List (Event ω))
    (w : Worker σ) : Admits cfg Ok es w := by
  induction es generalizing w with
  | nil => trivial
  | cons e es ih => exact ⟨hok w e, fun w' _ => ih w'⟩

theorem Invariant.batch {P : Worker σ → Prop} (hP : Invariant cfg Ok P) {es : List (Event ω)}
    (hw : P w) (hes : Admits cfg Ok es w)
    (h : es.foldlM (fun w e => Worker.handle w cfg e) w = some w') : P w' := by
  induction es generalizing w with
  | nil =>
    obtain rfl : w = w' := Option.some.inj h
    exact hw
  | cons e es ih =>
    obtain ⟨w₁, h₁, h₂⟩ := Option.bind_eq_some_iff.mp h
    exact ih (hP.handle hw hes.1 h₁) (hes.2 w₁ h₁) h₂

def sweepIfDue (cfg : ServerConfig ω σ) (w : Worker σ) : Worker σ :=
  if w.sweepDue cfg then w.sweepNow cfg else w

def stopIfDone (w : Worker σ) : Worker σ := if w.mayStop then { w with stopped := true } else w

def endPass (cfg : ServerConfig ω σ) (w : Worker σ) : Worker σ := (w.sweepIfDue cfg).stopIfDone

theorem round_eq (es : List (Event ω)) : w.round cfg now es =
    (es.foldlM (fun w e => Worker.handle w cfg e) (w.wakeUp now es.length)).map (endPass cfg) := by
  unfold round
  cases es.foldlM (fun w e => Worker.handle w cfg e) (w.wakeUp now es.length) <;> rfl

theorem exists_of_round {es : List (Event ω)} (h : w.round cfg now es = some w') :
    ∃ v, es.foldlM (fun w e => Worker.handle w cfg e) (w.wakeUp now es.length) = some v ∧
      w' = v.endPass cfg := by
  rw [round_eq, Option.map_eq_some_iff] at h
  obtain ⟨v, hv, rfl⟩ := h
  exact ⟨v, hv, rfl⟩

theorem handle_clock {e : Event ω} (h : w.handle cfg e = some w') :
    w'.nowUs = w.nowUs ∧ w'.lastSweep = w.lastSweep := by
  have hclose (v : Worker σ) (fd : Fd) : (v.closeConnection fd).nowUs = v.nowUs ∧
      (v.closeConnection fd).lastSweep = v.lastSweep := by
    unfold closeConnection
    split <;> exact ⟨rfl, rfl⟩
  rcases handle_cases h with rfl | ⟨-, rfl⟩ | rfl | ⟨s, t, -, ⟨-, rfl⟩ | ⟨-, rfl⟩⟩
  · unfold beginDrain
    split <;> exact ⟨rfl, rfl⟩
  · exact onAccept_keeps (P := fun v => v.nowUs = w.nowUs ∧ v.lastSweep = w.lastSweep) id id
      ⟨rfl, rfl⟩ _
  · exact ⟨rfl, rfl⟩
  · exact ⟨rfl, rfl⟩
  · exact hclose _ _

theorem batch_clock : ∀ {es : List (Event ω)} {w : Worker σ},
    es.foldlM (fun w e => Worker.handle w cfg e) w = some w' →
      w'.nowUs = w.nowUs ∧ w'.lastSweep = w.lastSweep
  | [], w, h => by
    obtain rfl : w = w' := Option.some.inj h
    exact ⟨rfl, rfl⟩
  | e :: es, w, h => by
    obtain ⟨w₁, h₁, h₂⟩ := Option.bind_eq_some_iff.mp h
    obtain ⟨hnow, hswept⟩ := handle_clock h₁
    obtain ⟨hnow', hswept'⟩ := batch_clock h₂
    exact ⟨hnow'.trans hnow, hswept'.trans hswept⟩

theorem sweepIfDue_loopState : (w.sweepIfDue cfg).loopState = w.loopState := by
  unfold sweepIfDue
  split
  · exact sweep_loopState
  · rfl

theorem stopIfDone_nowUs : w.stopIfDone.nowUs = w.nowUs := by
  unfold stopIfDone
  split <;> rfl

theorem endPass_nowUs : (w.endPass cfg).nowUs = w.nowUs :=
  stopIfDone_nowUs.trans (congrArg Prod.fst sweepIfDue_loopState)

theorem Timely.sweepIfDue (h : w.Alive cfg w.lastSweep) (hlt : w.nowUs < 2 ^ 64) :
    (w.sweepIfDue cfg).Timely cfg := by
  unfold Worker.sweepIfDue
  split
  · have hsweep := h.sweep hlt
    have hsame : (w.sweepNow cfg).nowUs = w.nowUs := congrArg Prod.fst sweep_loopState
    refine ⟨⟨hsweep.past_le, hsweep.within⟩, ?_⟩
    rw [hsame]
    exact Nat.lt_add_of_pos_right tickUs_pos
  · next hdue =>
    refine ⟨h, ?_⟩
    have hpast := h.past_le
    simp only [sweepDue, Bool.or_eq_true, decide_eq_true_eq, not_or, not_le,
      elapsed_of_le hpast hlt] at hdue
    omega

theorem Timely.endPass (h : w.Alive cfg w.lastSweep) (hlt : w.nowUs < 2 ^ 64) :
    (w.endPass cfg).Timely cfg := by
  have hafter := Timely.sweepIfDue h hlt
  unfold Worker.endPass stopIfDone
  split
  · exact ⟨⟨hafter.alive.past_le, hafter.alive.within⟩, hafter.swept⟩
  · exact hafter

theorem Timely.round {es : List (Event ω)} (h : w.Timely cfg) (hle : w.nowUs ≤ now)
    (hlt : now < 2 ^ 64) (hround : w.round cfg now es = some w') :
    w'.Timely cfg ∧ w'.nowUs = now := by
  obtain ⟨v, hv, rfl⟩ := exists_of_round hround
  obtain ⟨hnow, hswept⟩ := batch_clock hv
  have hnow : v.nowUs = now := hnow
  have hswept : v.lastSweep = w.lastSweep := hswept
  have halive : v.Alive cfg w.lastSweep := invariant_alive.batch
    (invariant_alive.wakeUp h.alive hle) (admits_of_forall (fun _ _ => trivial) _ _) hv
  exact ⟨.endPass (hswept ▸ halive) (hnow ▸ hlt), endPass_nowUs.trans hnow⟩

def times (ws : List (Wait ω)) : List ℕ :=
  ws.filterMap fun
    | .ready now _ => some now
    | _ => none

theorem lookup_closeAll (w : Worker σ) (fd : Fd) : w.closeAll.conns.lookup fd = none := by
  have hfold (ks : List Fd) : ∀ (v : Worker σ) (s : Session σ),
      (ks.foldl Worker.closeConnection v).conns.lookup fd = some s →
        v.conns.lookup fd = some s ∧ fd ∉ ks := by
    induction ks with
    | nil => exact fun v s hv => ⟨hv, List.not_mem_nil⟩
    | cons k ks ih =>
      intro v s hv
      obtain ⟨hold, hks⟩ := ih _ s hv
      refine ⟨lookup_closeConnection hold, fun hmem => ?_⟩
      rcases List.mem_cons.mp hmem with rfl | hmem
      · cases lookup_closeConnection_self.symm.trans hold
      · exact hks hmem
  cases hs : w.closeAll.conns.lookup fd with
  | none => rfl
  | some s =>
    obtain ⟨hold, hnot⟩ := hfold w.conns.keys w s hs
    exact absurd (Table.mem_of_lookup hold) hnot

theorem Timely.run {ws : List (Wait ω)} (h : w.Timely cfg)
    (hsorted : (w.nowUs :: times ws).Pairwise (· ≤ ·)) (hlt : ∀ now ∈ times ws, now < 2 ^ 64)
    (hrun : Worker.run cfg ws w = some w') :
    w'.Timely cfg ∨ ∀ fd, w'.conns.lookup fd = none := by
  induction ws generalizing w with
  | nil =>
    obtain rfl : w = w' := Option.some.inj hrun
    exact .inl h
  | cons x ws ih =>
    cases x with
    | interrupted => exact ih h hsorted hlt hrun
    | failed =>
      obtain rfl := Option.some.inj hrun
      exact .inr (lookup_closeAll _)
    | ready now es =>
      obtain ⟨w₁, h₁, h₂⟩ := Option.bind_eq_some_iff.mp hrun
      obtain ⟨hfirst, hrest⟩ := List.pairwise_cons.mp hsorted
      have hlt : ∀ t ∈ now :: times ws, t < 2 ^ 64 := hlt
      obtain ⟨htimely, rfl⟩ :=
        h.round (hfirst now List.mem_cons_self) (hlt now List.mem_cons_self) h₁
      split at h₂
      · obtain rfl := Option.some.inj h₂
        exact .inr (lookup_closeAll _)
      · exact ih htimely hrest (fun t ht => hlt t (List.mem_cons_of_mem _ ht)) h₂

/-- The tick is a quarter of the shorter timeout, between ten milliseconds and a second. -/
theorem tickUs_le : cfg.tickUs ≤ max 10000 (min cfg.idleTimeoutUs cfg.headerTimeoutUs / 4) := by
  unfold ServerConfig.tickUs
  omega

/-- At the end of every pass of the loop, no connection has been inactive for its timeout and a
quarter, and none has taken over its header section for that long; but for timeouts of less than
forty milliseconds, which may be overrun by ten. -/
theorem timeouts_enforced {cfg : ServerConfig ω σ} {listener wakeFd : Fd} {start : ℕ}
    {ws : List (Wait ω)} {w : Worker σ} (hclock : (start :: times ws).Pairwise (· ≤ ·))
    (hlt : ∀ now ∈ times ws, now < 2 ^ 64)
    (hrun : run cfg ws (started listener wakeFd start) = some w) :
    ∀ fd s, w.conns.lookup fd = some s →
      (s.conn.lastActiveUs ≤ w.nowUs ∧ w.nowUs - s.conn.lastActiveUs <
        cfg.idleTimeoutUs + max 10000 (cfg.idleTimeoutUs / 4)) ∧
      (s.conn.requestStartUs ≠ 0 → s.conn.parser.headersComplete = false →
        s.conn.requestStartUs ≤ w.nowUs ∧ w.nowUs - s.conn.requestStartUs <
          cfg.headerTimeoutUs + max 10000 (cfg.headerTimeoutUs / 4)) := by
  intro fd s hs
  have hstarted : (started listener wakeFd start : Worker σ).Timely cfg :=
    ⟨⟨le_rfl, fun fd s hs => by cases hs⟩, Nat.lt_add_of_pos_right tickUs_pos⟩
  rcases hstarted.run hclock hlt hrun with h | h
  · have hwithin := h.alive.within fd s hs
    have htick : cfg.tickUs ≤ _ := tickUs_le
    have hswept := h.swept
    refine ⟨⟨hwithin.active_le, ?_⟩, fun hne hhead => ⟨hwithin.start_le, ?_⟩⟩
    · have hidle := hwithin.idle
      have := hwithin.active_le
      omega
    · have hheader := hwithin.header hne hhead
      have := hwithin.start_le
      omega
  · cases (h fd).symm.trans hs

/-- A client that has sent a part of a request line and nothing for nine seconds. -/
def slowWaits : List (Wait Unit) :=
  [.ready 1 [bareEvent 3 [.ok 5 true] {},
      bareEvent 5 [] { recvs := [.ok (text "GET"), .error .eagain] }],
    .interrupted,
    .ready 9000000 []]

theorem timeouts_enforced_slow : ∃ (w : Worker Unit) (s : Session Unit),
    run { server := bareServer } slowWaits (started 3 4 1) = some w ∧
    w.conns.lookup 5 = some s ∧
    (s.conn.requestStartUs = 1 ∧ s.conn.parser.headersComplete = false ∧ w.nowUs = 9000000) ∧
    w.nowUs - s.conn.requestStartUs < toUs 10000 + max 10000 (toUs 10000 / 4) := by
  have hrun : ((run { server := bareServer } slowWaits (started 3 4 1)).any fun w =>
      (w.conns.lookup 5).any fun s => decide (s.conn.requestStartUs = 1 ∧
        s.conn.parser.headersComplete = false ∧ w.nowUs = 9000000)) = true := by
    decide +kernel
  obtain ⟨w, hw, hrest⟩ := (Option.any_eq_true _ _).mp hrun
  obtain ⟨s, hs, htest⟩ := (Option.any_eq_true _ _).mp hrest
  have htest := of_decide_eq_true htest
  have hclock : (1 :: times slowWaits).Pairwise (· ≤ ·) := by decide
  have hlt : ∀ now ∈ times slowWaits, now < 2 ^ 64 := by decide
  have hstart : s.conn.requestStartUs ≠ 0 := by
    rw [htest.1]
    exact one_ne_zero
  exact ⟨w, s, hw, hs, htest,
    ((timeouts_enforced hclock hlt hw 5 s hs).2 hstart htest.2.1).2⟩

end Worker

end Httpd
