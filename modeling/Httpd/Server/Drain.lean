import Httpd.Server.Framing
import Httpd.Server.HeadRequests
import Httpd.Server.Worker

/-! # Draining

Once a worker drains, no connection is added. Every connection that is left queues one more
final response at most, which says that the connection is closed; and until the deadline it
is closed for a reason of its own.
-/

namespace Httpd

open Transcript

variable {ω σ : Type}

namespace Reply

def isFinal : Reply σ → Bool
  | .interim => false
  | _ => true

def AnnouncesClose (r : Reply σ) : Prop :=
  ∃ status fields, r.head = responseHead status fields ∧
    (text "Connection", text "close") ∈ fields

end Reply

namespace Intake

/-- What a connection that is driven by a draining worker has queued in the meantime. -/
inductive Drains (i j : Intake σ) : Prop where
  | waiting {rs : List (Reply σ)} : j.replies = i.replies ++ rs →
      (∀ r ∈ rs, r.isFinal = false) → (i.closing = true → rs = [] ∧ j.closing = true) → Drains i j
  | answered {rs : List (Reply σ)} {r : Reply σ} : i.closing = false →
      j.replies = i.replies ++ rs ++ [r] → (∀ r ∈ rs, r.isFinal = false) → r.isFinal = true →
      r.AnnouncesClose → j.closing = true → Drains i j

variable {srv : Server ω σ} {m : Moment ω} {i j k : Intake σ}

theorem Drains.refl (i : Intake σ) : i.Drains i :=
  .waiting (List.append_nil _).symm (by simp) fun h => ⟨rfl, h⟩

theorem Drains.final {r : Reply σ} (hc : i.closing = false) (hj : j.replies = i.replies ++ [r])
    (hr : r.isFinal = true) (hann : r.AnnouncesClose) (hjc : j.closing = true) : i.Drains j :=
  .answered hc (hj.trans (congrArg (· ++ [r]) (List.append_nil _).symm)) (by simp) hr hann hjc

theorem Drains.trans (h : i.Drains j) (h' : j.Drains k) : i.Drains k := by
  cases h with
  | waiting hj hint hclose =>
    cases h' with
    | waiting hk hint' hclose' =>
      refine .waiting (by rw [hk, hj, List.append_assoc]) ?_ fun hi => ?_
      · exact List.forall_mem_append.mpr ⟨hint, hint'⟩
      · obtain ⟨rfl, hjc⟩ := hclose hi
        exact hclose' hjc
    | answered hjc hk hint' hfinal hann hkc =>
      refine .answered ?_ (by rw [hk, hj, List.append_assoc i.replies])
        (List.forall_mem_append.mpr ⟨hint, hint'⟩) hfinal hann hkc
      rw [Bool.eq_false_iff]
      intro hi
      rw [(hclose hi).2] at hjc
      cases hjc
  | answered hi hj hint hfinal hann hjc =>
    cases h' with
    | waiting hk _ hclose =>
      obtain ⟨rfl, hkc⟩ := hclose hjc
      exact .answered hi (by rw [hk, hj, List.append_nil]) hint hfinal hann hkc
    | answered hjc' => rw [hjc] at hjc'; cases hjc'

end Intake

namespace Session

variable {srv : Server ω σ} {m : Moment ω} {s t : Session σ} {fuel : ℕ} {ok : Bool}
  {A : Moment ω → Kernel → Prop}

end Session

namespace Worker

variable {w w' : Worker σ} {cfg : ServerConfig ω σ} {Ok : Worker σ → Label ω → Prop} {fd : Fd}
  {s : Session σ} {l : Label ω}

/-- The sweep has a reason to close the connection. -/
def Expired (cfg : ServerConfig ω σ) (w : Worker σ) (s : Session σ) : Prop :=
  s.conn.headerExpired cfg w.nowUs = true ∨ s.conn.idleExpired cfg w.nowUs = true ∨
    w.draining = true ∧ s.conn.idle = true

theorem lookup_closeConnection_ne {k : Fd} (h : k ≠ fd) :
    (w.closeConnection fd).conns.lookup k = w.conns.lookup k := by
  unfold closeConnection
  split
  · rfl
  · exact AList.lookup_erase_ne h

theorem sweepOne_expired {k : Fd} (hs : w.conns.lookup k = some s) :
    (w.sweepOne cfg fd).conns.lookup k = some s ∨ w.Expired cfg s := by
  by_cases hk : k = fd
  · subst hk
    unfold sweepOne
    rw [hs]
    dsimp only
    split
    · next h => exact .inr (.inr (.inr (by simpa using h)))
    · split
      · next h => exact .inr (.inl h)
      · split
        · next h => exact .inr (.inr (.inl h))
        · exact .inl hs
  · left
    unfold sweepOne
    split
    · exact hs
    · repeat' split
      all_goals first
        | exact hs
        | exact (lookup_closeConnection_ne hk).trans hs

theorem Expired.of_loopState (h : w'.Expired cfg s) (hw : w'.loopState = w.loopState) :
    w.Expired cfg s := by
  have hnow : w'.nowUs = w.nowUs := congrArg Prod.fst hw
  have hd : w'.draining = w.draining := congrArg (fun x => x.2.1) hw
  unfold Expired at *
  rwa [hnow, hd] at h

theorem sweep_expired (hs : w.conns.lookup fd = some s) :
    (w.sweep cfg).conns.lookup fd = some s ∨ w.Expired cfg s := by
  have h : (w.sweep cfg).loopState = w.loopState ∧
      ((w.sweep cfg).conns.lookup fd = some s ∨ w.Expired cfg s) := by
    apply List.foldlRecOn (motive := fun w' : Worker σ => w'.loopState = w.loopState ∧
      (w'.conns.lookup fd = some s ∨ w.Expired cfg s))
    · exact ⟨rfl, .inl hs⟩
    · rintro w' ⟨hloop, hs'⟩ k _
      refine ⟨(sweepOne_loopState k).trans hloop, ?_⟩
      rcases hs' with hs' | hexp
      · exact (sweepOne_expired hs').imp_right fun h => h.of_loopState hloop
      · exact .inr hexp
  exact h.2

theorem lookup_onAccept (hs : w.conns.lookup fd = some s) (rs : List Accepted) :
    (w.onAccept cfg rs).conns.lookup fd = some s := by
  apply onAccept_keeps (P := fun w => w.conns.lookup fd = some s) _ id hs
  intro w k hs
  unfold emplace
  dsimp only
  split
  · exact hs
  · next hk =>
    rwa [AList.lookup_insert_ne]
    rintro rfl
    exact hk (Table.mem_of_lookup hs)

/-- A step removes a connection that is given up or has expired, or after the loop. -/
theorem Step.removes (h : Step cfg w l w') (hs : w.conns.lookup fd = some s)
    (hgone : fd ∉ w'.conns) : (∃ e t, e.fd = fd ∧ w.driven cfg e s = .ok (false, t)) ∨
      w.Expired cfg s ∨ w.stopped = true := by
  have hstays (h : w'.conns.lookup fd = some s) : False :=
    hgone (Table.mem_of_lookup h)
  cases h with
  | wait => exact (hstays hs).elim
  | @event _ e _ hw =>
    rcases handle_cases hw with rfl | ⟨_, rfl⟩ | rfl | ⟨u, t, hu, ⟨_, rfl⟩ | ⟨ht, rfl⟩⟩
    · refine (hstays ?_).elim
      unfold beginDrain
      split <;> exact hs
    · exact (hstays (lookup_onAccept hs _)).elim
    · exact (hstays hs).elim
    · refine absurd ?_ hgone
      rw [put, AList.mem_insert]
      exact .inr (Table.mem_of_lookup hs)
    · by_cases hk : fd = e.fd
      · subst hk
        obtain rfl : u = s := Option.some.inj (hu.symm.trans hs)
        exact .inl ⟨e, t, rfl, ht⟩
      · refine (hstays ?_).elim
        rw [lookup_closeConnection_ne hk, put, AList.lookup_insert_ne hk]
        exact hs
  | sweep =>
    have hsweep : (w.sweep cfg).conns.lookup fd = some s ∨ w.Expired cfg s := sweep_expired hs
    exact .inr (.inl (hsweep.resolve_left hstays))
  | stop => exact (hstays hs).elim
  | fail => exact (hstays hs).elim
  | close _ hstop => exact .inr (.inr hstop)

theorem mayStop_iff : w.mayStop = true ↔
    w.draining = true ∧ (w.conns.keys = [] ∨ w.drainDeadlineUs ≤ w.nowUs) := by
  simp [mayStop]

theorem mayStop_closeConnection (h : w.mayStop = true) (fd : Fd) :
    (w.closeConnection fd).mayStop = true := by
  cases hs : w.conns.lookup fd with
  | none => rwa [closeConnection_of_none hs]
  | some s =>
    rw [closeConnection_of_some hs]
    rw [mayStop_iff] at h ⊢
    obtain ⟨hd, hnil | hle⟩ := h
    · have hmem : fd ∈ w.conns.keys := Table.mem_of_lookup hs
      rw [hnil] at hmem
      cases hmem
    · exact ⟨hd, .inr hle⟩

/-- The loop ends when `epoll_wait` fails or the drain is over. -/
def StopsInTime (w : Worker σ) : Prop :=
  w.stopped = true → w.failed = true ∨ w.mayStop = true

theorem StopsInTime.step (h : w.StopsInTime) (hstep : Step cfg w l w') : w'.StopsInTime := by
  have hrunning (hw : w'.stopped = false) : w'.StopsInTime := fun h => by rw [hw] at h; cases h
  cases hstep with
  | wait hw => exact hrunning hw
  | event hw he => exact hrunning ((handle_stopped he).trans hw)
  | sweep hw => exact hrunning ((stopped_of_loopState sweep_loopState).trans hw)
  | stop _ hstop => exact fun _ => .inr hstop
  | fail => exact fun _ => .inl rfl
  | close fd hw =>
    intro _
    have hloop := closeConnection_loopState (w := w) fd
    rcases h hw with hf | hs
    · exact .inl ((congrArg (fun x => x.2.2.2.2.2) hloop).trans hf)
    · exact .inr (mayStop_closeConnection hs fd)

theorem StopsInTime.steps (h : w.StopsInTime) (hsteps : Steps cfg Ok w w') : w'.StopsInTime := by
  induction hsteps with
  | refl => exact h
  | tail _ _ hstep ih => exact ih.step hstep

end Worker

end Httpd
