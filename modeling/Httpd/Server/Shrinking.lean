import Httpd.Server.Steps

/-! # Files that shrink

A short count from `sendfile` is taken for a full socket, and a count of zero for the end of a
file that has shrunk. A file that ends within the bytes asked for gives a short count too: the
connection is then left waiting for room that it has. The write attempts of a run tell the
two apart.
-/

namespace Httpd

open Relation

variable {ω σ : Type}

namespace Attempt

/-- The socket took less than was wanted because it had no more room. -/
def SpaceLimited : Attempt → Prop
  | .send want accepted => accepted < want
  | .blocked => True
  | .file want room left => room = 0 ∨ room < want ∧ room ≤ left

/-- The file does not end within what the socket has room for. -/
def FileWhole : Attempt → Prop
  | .file want room left => min want room ≤ left
  | _ => True

def Short : Attempt → Prop
  | .send want accepted => accepted < want
  | .blocked => True
  | .file want room left => room = 0 ∨ min (min want room) left < want

/-- The file ends within what the socket has room for, but not at once. -/
def Cut : Attempt → Prop
  | .file want room left => 0 < left ∧ left < min want room
  | _ => False

/-- With room, `sendfile` has found something of the file. -/
def Found : Attempt → Prop
  | .file _ room left => room = 0 ∨ 0 < left
  | _ => True

variable {a : Attempt}

theorem Short.spaceLimited_iff (h : a.Short) : a.SpaceLimited ↔ a.FileWhole := by
  cases a with
  | send want accepted => exact iff_of_true h trivial
  | blocked => exact Iff.rfl
  | file want room left =>
    simp only [Short, SpaceLimited, FileWhole] at *
    omega

end Attempt

namespace Session

variable {srv : Server ω σ} {m : Moment ω} {s t : Session σ}

def outlet (s : Session σ) : Bool × List Attempt := (s.conn.canWrite, s.attempts)

@[simp] theorem takePiece_outlet (piece : Bytes) : (s.takePiece piece).outlet = s.outlet := by
  unfold takePiece consumeStream
  split <;> rfl

theorem refills_outlet {x y : Session σ × Bool} (h : ReflTransGen (Refill srv) x y) :
    y.1.outlet = x.1.outlet :=
  refills_frame (fun _ _ _ piece => takePiece_outlet piece) h

@[simp] theorem finishStream_outlet : s.finishStream.outlet = s.outlet := by
  unfold finishStream
  dsimp only
  split <;> rfl

theorem installBody_canWrite (c : Connection σ) (res : Response σ) (f : Framing) :
    (installBody c res f).canWrite = c.canWrite := by
  unfold installBody
  dsimp only
  repeat' split
  all_goals rfl

theorem dispatchNext_outlet : (s.dispatchNext srv m).outlet = s.outlet := by
  unfold dispatchNext dispatch
  dsimp only [recordResponse, say, outlet]
  split
  · rw [installBody_canWrite]
  · rfl

structure Tries (s t : Session σ) (a : Attempt) : Prop where
  writable : s.conn.canWrite = true
  attempts : t.attempts = s.attempts ++ [a]
  found : a.Found
  short : t.conn.canWrite = false → a.Short
  cut : a.Cut → t.conn.canWrite = false ∧ t.conn.file.isSome = true

theorem dropSent_canWrite (c : Connection σ) (n : ℕ) : (dropSent c n).canWrite = c.canWrite := by
  obtain ⟨_, _, h⟩ := exists_dropSent c n
  rw [h]

theorem sendSome_tries (hw : s.conn.canWrite = true) (room : ℕ) (ks : List (Except Errno ℕ)) :
    s.Tries ((s.setSends ks).sendSome m room)
      (.send s.conn.outPending (min room s.conn.outPending)) := by
  have hcw := dropSent_canWrite s.conn (min room s.conn.outPending)
  unfold sendSome accept
  dsimp only [attempt, setSends, stopWriting]
  split
  · next hlt => exact ⟨hw, rfl, trivial, fun _ => hlt, False.elim⟩
  · exact ⟨hw, rfl, trivial, fun h => by simp [hcw, hw] at h, False.elim⟩

theorem moveFile_stops (hw : s.conn.canWrite = true) (room : ℕ) (left : Bytes) :
    ((s.moveFile m room left).conn.canWrite = false →
        min (min s.fileWant room) left.length < s.fileWant) ∧
      (left.length < min s.fileWant room →
        (s.moveFile m room left).conn.canWrite = false ∧
          (s.moveFile m room left).conn.file = s.conn.file) := by
  have hwant : s.fileWant ≤ s.conn.fileLeft := min_le_left ..
  have hlen : (left.take (min s.fileWant room)).length = min (min s.fileWant room) left.length :=
    List.length_take
  unfold moveFile
  dsimp only [transfer, stopWriting, resetFile]
  rw [hlen]
  split
  · exact ⟨fun h => by simp [hw] at h, by omega⟩
  · split
    · next hlt => exact ⟨fun _ => hlt, fun _ => ⟨rfl, rfl⟩⟩
    · exact ⟨fun h => by simp [hw] at h, by omega⟩

@[simp] theorem moveFile_attempts (room : ℕ) (left : Bytes) :
    (s.moveFile m room left).attempts = s.attempts := by
  obtain ⟨_, _, h⟩ := exists_moveFile s m room left
  rw [h]
  rfl

theorem fileStep_tries {fd : Fd} {room : ℕ} {files : Fd → Bytes}
    (ks : List (Except Errno (ℕ × (Fd → Bytes)))) (hw : s.conn.canWrite = true)
    (hfile : s.conn.file = some fd)
    (hd : room ≠ 0 → ((files fd).drop s.conn.fileOff).take (min s.fileWant room) ≠ []) :
    s.Tries (s.fileStep m fd room files ks)
      (.file s.fileWant room ((files fd).drop s.conn.fileOff).length) := by
  have hfound : room = 0 ∨ 0 < ((files fd).drop s.conn.fileOff).length := by
    rcases Nat.eq_zero_or_pos room with h | h
    · exact .inl h
    · refine .inr (List.length_pos_of_ne_nil fun hnil => hd h.ne' ?_)
      rw [hnil, List.take_nil]
  unfold fileStep
  dsimp only
  split
  · next h0 =>
    refine ⟨hw, rfl, hfound, fun _ => .inl h0, fun h => ?_⟩
    simp only [Attempt.Cut, h0] at h
    omega
  · let u := (s.setSendfiles ks).attempt
      (.file s.fileWant room ((files fd).drop s.conn.fileOff).length)
    obtain ⟨hshort, hcut⟩ :=
      moveFile_stops (s := u) (m := m) hw room ((files fd).drop s.conn.fileOff)
    refine ⟨hw, moveFile_attempts .., hfound, fun h => .inr (hshort h), fun h => ?_⟩
    obtain ⟨hstop, hkeep⟩ := hcut h.2
    exact ⟨hstop, by rw [hkeep]; simp [u, setSendfiles, attempt, hfile]⟩

/-- A step tries to write, or it leaves what only the write attempts change. -/
theorem Step.tries (h : Step srv m s t) : (∃ a, s.Tries t a) ∨
    t.outlet = s.outlet ∧ (s.conn.file.isSome = true → t.conn.file = s.conn.file) := by
  have hback (h : s.holdsBack = false) : s.conn.file.isSome = false := by
    simp only [holdsBack, Connection.bodySourceActive, Bool.or_eq_false_iff] at h
    exact h.1.2.1
  cases h with
  | interim hb => exact .inr ⟨rfl, fun h => by simp [hback hb] at h⟩
  | answer hb => exact .inr ⟨dispatchNext_outlet, fun h => by simp [hback hb] at h⟩
  | reject hb => exact .inr ⟨rfl, fun h => by simp [hback hb] at h⟩
  | sendAgain hw => exact .inl ⟨.blocked, hw, rfl, trivial, fun _ => trivial, False.elim⟩
  | send hw => exact .inl ⟨_, sendSome_tries hw _ _⟩
  | fileAgain hw => exact .inl ⟨.blocked, hw, rfl, trivial, fun _ => trivial, False.elim⟩
  | file hw _ hfile _ hd => exact .inl ⟨_, fileStep_tries _ hw hfile hd⟩
  | refill _ _ hfile _ hr => exact .inr ⟨refills_outlet hr, fun h => by simp [hfile] at h⟩
  | refillEnd _ _ hfile _ hr =>
    exact .inr ⟨finishStream_outlet.trans (refills_outlet hr), fun h => by simp [hfile] at h⟩
  | _ => exact .inr ⟨rfl, fun _ => rfl⟩

variable {A : Moment ω → Kernel → Prop} {k : Kernel} {w : WorkerMetrics} {fuel : ℕ}
  {readable writable ok : Bool}

/-- The socket counts as full only after an attempt that fell short. -/
structure Honest (s : Session σ) : Prop where
  short : s.conn.canWrite = false → ∃ a, s.attempts.getLast? = some a ∧ a.Short
  found : ∀ a ∈ s.attempts, a.Found

theorem Honest.step (h : s.Honest) (hstep : Step srv m s t) : t.Honest := by
  rcases hstep.tries with ⟨a, ht⟩ | ⟨ho, -⟩
  · constructor
    · intro hc
      exact ⟨a, by simp [ht.attempts], ht.short hc⟩
    · simpa [ht.attempts, or_imp, forall_and, ht.found] using h.found
  · obtain ⟨hc, ha⟩ := Prod.mk.inj ho
    exact ⟨by rw [hc, ha]; exact h.short, by rw [ha]; exact h.found⟩

theorem invariant_honest : Invariant srv A Honest where
  accepted _ := ⟨by simp [accepted], by simp [accepted]⟩
  wake _ _ _ _ h := ⟨fun hc => h.short (by simp_all [wake]), h.found⟩
  step _ _ h hstep := h.step hstep

/-- The attempts of a call; after one that was cut by the end of the file, nothing is written. -/
def Since (before : List Attempt) (s : Session σ) : Prop :=
  ∃ new, s.attempts = before ++ new ∧
    ((∃ a ∈ new, a.Cut) → s.conn.canWrite = false ∧ s.conn.file.isSome = true)

theorem Since.step {before : List Attempt} (h : Since before s) (hstep : Step srv m s t) :
    Since before t := by
  obtain ⟨new, hnew, hcut⟩ := h
  rcases hstep.tries with ⟨a, ht⟩ | ⟨ho, hfile⟩
  · refine ⟨new ++ [a], by rw [ht.attempts, hnew, List.append_assoc], ?_⟩
    rintro ⟨b, hb, hbcut⟩
    rcases List.mem_append.mp hb with hb | hb
    · cases ht.writable.symm.trans (hcut ⟨b, hb, hbcut⟩).1
    · exact ht.cut (List.mem_singleton.mp hb ▸ hbcut)
  · obtain ⟨hc, ha⟩ := Prod.mk.inj ho
    refine ⟨new, ha.trans hnew, fun h => ?_⟩
    obtain ⟨hstop, hsome⟩ := hcut h
    exact ⟨hc.trans hstop, by rw [hfile hsome]; exact hsome⟩

theorem Since.steps {before : List Attempt} (h : Since before s) (hsteps : Steps srv m s t) :
    Since before t := by
  induction hsteps with
  | refl => exact h
  | tail _ hstep ih => exact ih.step hstep

/-- A call gives up because of a failed `recv`, or with room in the socket. -/
theorem Abort.attempts (h : Abort srv s t) : .error .other ∈ s.kernel.recvs ∨
    s.conn.canWrite = true ∧ ∃ new, t.attempts = s.attempts ++ new ∧ ∀ a ∈ new, ¬ a.Cut := by
  cases h with
  | recv _ hk => exact .inl (by simp [hk])
  | send hw => exact .inr ⟨hw, [], by simp [setSends], by simp⟩
  | sendfile hw => exact .inr ⟨hw, [], by simp [setSendfiles], by simp⟩
  | shrank hw _ _ _ hroom hnil =>
    refine .inr ⟨hw, [_], rfl, ?_⟩
    rw [List.take_eq_nil_iff] at hnil
    simp only [List.mem_singleton, forall_eq, Attempt.Cut]
    rcases hnil with hnil | hnil
    · omega
    · simp [hnil]
  | refill hw _ _ _ hr ht =>
    have hout := congrArg Prod.snd (refills_outlet hr)
    refine .inr ⟨hw, [], ?_, by simp⟩
    rw [List.append_nil]
    rcases ht with rfl | ⟨_, _, rfl⟩ <;> exact hout

theorem Steps.advances (h : Steps srv m s t) : s.kernel.Advances t.kernel := by
  induction h with
  | refl => exact .refl _
  | tail _ hstep ih => exact ih.trans hstep.advances

theorem hasOutput_of_file (h : s.conn.file.isSome = true) : s.conn.hasOutput = true := by
  simp [Connection.hasOutput, Connection.bodySourceActive, h]

/-- A connection with a file in flight waits for room in the socket if and only if the file did
not end within the last attempt; and a call that finds the end of the file while there is room
gives up the connection if and only if nothing of the file was left. -/
theorem shrinking_file_iff (hs : Open srv (fun _ _ => True) s)
    (hd : (s.wake readable writable w k).drive srv m fuel = .ok (ok, t)) :
    (ok = true → t.conn.file.isSome = true →
      ∃ a, t.attempts.getLast? = some a ∧ (a.SpaceLimited ↔ a.FileWhole)) ∧
      ∀ new want room left, t.attempts = s.attempts ++ new → .file want room left ∈ new →
        left < min want room → .error .other ∉ k.recvs → (ok = false ↔ left = 0) := by
  obtain ⟨u, hu, hend⟩ := outcome_of_drive hd
  have hinv : Invariant srv (fun _ _ => True) Honest := invariant_honest
  have hhonest : u.Honest := hinv.steps_wake trivial (hinv.open hs) hu
  have hsince : Since s.attempts u := Since.steps ⟨[], by simp [wake], by simp⟩ hu
  constructor
  · rintro rfl hfile
    rcases hend with ⟨h, -⟩ | ⟨hfin, hq⟩
    · cases h
    · obtain rfl := (finish_eq_true_iff.mp hfin).1
      obtain ⟨a, ha, hshort⟩ := hhonest.short (hq.write (hasOutput_of_file hfile))
      exact ⟨a, ha, hshort.spaceLimited_iff⟩
  · intro new want room left hnew hmem hlt hrecv
    obtain ⟨newu, hnewu, hcutu⟩ := hsince
    rcases hend with ⟨hok, hab⟩ | ⟨hfin, -⟩
    · refine ⟨fun _ => ?_, fun _ => hok⟩
      by_contra hne
      have hcut : (Attempt.file want room left).Cut := ⟨Nat.pos_of_ne_zero hne, hlt⟩
      rcases hab.attempts with h | ⟨hw, new', hnew', hnot⟩
      · exact hrecv (hu.advances.recvs.subset h)
      · rw [hnew', hnewu, List.append_assoc] at hnew
        obtain rfl := List.append_cancel_left hnew
        rcases List.mem_append.mp hmem with h | h
        · cases hw.symm.trans (hcutu ⟨_, h, hcut⟩).1
        · exact hnot _ h hcut
    · have hattempts : t.attempts = u.attempts := by
        obtain ⟨rs, -, rfl⟩ := finish_snd hfin
        rfl
      rw [hattempts, hnewu] at hnew
      obtain rfl := List.append_cancel_left hnew
      have hfound := hhonest.found _ (by rw [hnewu]; exact List.mem_append_right _ hmem)
      have hpos : 0 < left := hfound.resolve_left (by omega)
      have hfile := (hcutu ⟨_, hmem, hpos, hlt⟩).2
      obtain rfl : ok = true := by
        rw [finish, if_pos (hasOutput_of_file hfile)] at hfin
        cases hfin
        rfl
      simp [hpos.ne']

def oneFileServer : Server Unit Unit where
  router := Router.add {} (text "GET") (text "/") fun _ _ res =>
    .ok { res with file := some 3, fileLength := 10 }
  call _ _ := .threw

/-- A call that finds room for five bytes of the file. -/
theorem shrinking_file_iff_room : ∃ t, Session.drive
      ((accepted oneFileServer 1).wake true true {}
        { recvs := [.ok (text "GET / HTTP/1.1\r\nHost: x\r\n\r\n"), .error .eagain]
          sends := [.ok 1000]
          sendfiles := [.ok (5, fun _ => text "0123456789")] })
      oneFileServer bareMoment 8 = .ok (true, t) ∧ t.conn.file.isSome = true ∧
    ∃ a, t.attempts.getLast? = some a ∧ (a.SpaceLimited ↔ a.FileWhole) := by
  obtain ⟨t, ht, hfile⟩ := exists_of_returns (r := Session.drive
      ((accepted oneFileServer 1).wake true true {}
        { recvs := [.ok (text "GET / HTTP/1.1\r\nHost: x\r\n\r\n"), .error .eagain]
          sends := [.ok 1000]
          sendfiles := [.ok (5, fun _ => text "0123456789")] })
      oneFileServer bareMoment 8)
    (show returns true (fun t => t.conn.file.isSome) _ = true by decide +kernel)
  exact ⟨t, ht, hfile, (shrinking_file_iff (.accepted 1) ht).1 rfl hfile⟩

/-- The file was cut to five bytes before it is sent. The socket has room for all of it, and the
connection waits for more room. -/
theorem shrinking_file_stalls : ∃ t, Session.drive
      ((accepted oneFileServer 1).wake true true {}
        { recvs := [.ok (text "GET / HTTP/1.1\r\nHost: x\r\n\r\n"), .error .eagain]
          sends := [.ok 1000]
          sendfiles := [.ok (1000, fun _ => text "01234")] })
      oneFileServer bareMoment 8 = .ok (true, t) ∧ t.conn.file.isSome = true ∧
    t.attempts.getLast? = some (.file 10 1000 5) ∧ ¬ (Attempt.file 10 1000 5).SpaceLimited := by
  obtain ⟨t, ht, htest⟩ := exists_of_returns (r := Session.drive
      ((accepted oneFileServer 1).wake true true {}
        { recvs := [.ok (text "GET / HTTP/1.1\r\nHost: x\r\n\r\n"), .error .eagain]
          sends := [.ok 1000]
          sendfiles := [.ok (1000, fun _ => text "01234")] })
      oneFileServer bareMoment 8)
    (show returns true (fun t => decide (t.conn.file.isSome = true ∧
      t.attempts.getLast? = some (.file 10 1000 5))) _ = true by decide +kernel)
  obtain ⟨hfile, hlast⟩ := of_decide_eq_true htest
  exact ⟨t, ht, hfile, hlast, by simp [Attempt.SpaceLimited]⟩

end Session

end Httpd
