import Httpd.Parser.Retained
import Httpd.Server.Intake

/-! # Waiting for events

Events are edge-triggered, so a connection may be left alone only when a kernel call has
said that it would block. That `drive` leaves it alone in no other state needs a bound
on the input that a waiting parser retains: were it as large as the cap of the input
buffer, nothing would be read and no event would follow.
-/

namespace Httpd

variable {ω σ : Type}

namespace Session

variable {srv : Server ω σ} {m : Moment ω} {s t : Session σ} {fuel : ℕ}

theorem Steps.limits (h : Steps srv m s t) : t.conn.parser.limits = s.conn.parser.limits := by
  induction h with
  | refl => rfl
  | tail _ hstep ih =>
    rcases hstep.intake with h | h
    · exact (congrArg (·.parser.limits) h).trans ih
    · exact h.limits.trans ih

/-- With the limits that are shipped a waiting parser retains less than the cap. -/
theorem retained_lt {n : ℕ} {p : RequestParser} {rest : Bytes}
    (hl : p.limits = { maxBodyBytes := n }) (h : p.Waits rest) (hd : p.done = false)
    (hf : p.failed = false) : rest.length < 64 * 1024 := by
  have hle := h.length_le hd hf
  simp only [hl, wrap] at hle
  omega

/-- A connection is left alone only with output that the socket has no room for, or without
output while it waits for input. -/
theorem no_lost_wakeup {n : ℕ} (hl : srv.limits = { maxBodyBytes := n })
    (hs : s.conn.parser.limits = srv.limits) (h : s.drive srv m fuel = .ok (true, t)) :
    (t.conn.hasOutput = true ∧ t.conn.canWrite = false) ∨
      (t.conn.hasOutput = false ∧ t.conn.canRead = false ∧ t.conn.peerClosed = false ∧
        t.conn.closeAfterWrite = false) := by
  obtain ⟨u, hu, ⟨h, _⟩ | ⟨hfin, hread, hinput, hwrite⟩⟩ := outcome_of_drive h
  · cases h
  obtain ⟨rfl, hopen⟩ := finish_eq_true_iff.mp hfin
  cases hout : t.conn.hasOutput with
  | true => exact .inl ⟨rfl, hwrite hout⟩
  | false =>
    right
    have hflags := hopen.resolve_left (by simp [hout])
    refine ⟨rfl, ?_, hflags.2, hflags.1⟩
    have hbuf : t.conn.inBuf.length < srv.maxInBuffer := by
      have hcap : 64 * 1024 ≤ srv.maxInBuffer := le_max_left ..
      rcases hinput with hback | hnil | ⟨hwaits, hf, hd⟩
      · rw [holdsBack_of_not_hasOutput hout hflags.1] at hback
        cases hback
      · rw [hnil]; exact lt_of_lt_of_le (by decide) hcap
      · exact (retained_lt (hu.limits.trans (hs.trans hl)) hwaits hd hf).trans_le hcap
    by_contra hcan
    have : t.mayRead srv = true :=
      mayRead_iff.mpr ⟨⟨by simpa using hcan, hflags.2, hflags.1⟩, hbuf⟩
    rw [hread] at this
    cases this

/-- Half a request line is read, and the connection waits for the rest. -/
theorem no_lost_wakeup_partial : ∃ t, Session.drive
      ((accepted bareServer 1).wake true true {}
        { recvs := [.ok (text "GET / HT"), .error .eagain] })
      bareServer bareMoment 4 = .ok (true, t) ∧
    ((t.conn.hasOutput = true ∧ t.conn.canWrite = false) ∨
      (t.conn.hasOutput = false ∧ t.conn.canRead = false ∧ t.conn.peerClosed = false ∧
        t.conn.closeAfterWrite = false)) := by
  obtain ⟨t, ht⟩ : ∃ t, Session.drive
      ((accepted bareServer 1).wake true true {}
        { recvs := [.ok (text "GET / HT"), .error .eagain] })
      bareServer bareMoment 4 = .ok (true, t) := ⟨_, rfl⟩
  exact ⟨t, ht, no_lost_wakeup (n := 8388608) rfl rfl ht⟩

end Session

end Httpd
