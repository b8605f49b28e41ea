import Mathlib

/-! # Loops that can be cut short

A computation that waits for its environment is observed up to a point: it returns, or
it is cut with the state it has reached. Loops are run with a bound on their passes,
and reaching the bound is one way of being cut. A triple says what holds at the cut
and what holds of the result.
-/

namespace Loop

universe u

variable {S R E : Type*} {α β : Type u}

/-- A pass of a loop goes round again or leaves the loop. -/
inductive Flow (S R : Type*) where
  | again (s : S)
  | leave (r : R)

def loop (cut : S → E) (body : S → Except E (Flow S R)) : ℕ → S → Except E R
  | 0, s => .error (cut s)
  | k + 1, s =>
    match body s with
    | .error e => .error e
    | .ok (.again s') => loop cut body k s'
    | .ok (.leave r) => .ok r

theorem loop_again {cut : S → E} {body : S → Except E (Flow S R)} {s s' : S}
    (h : body s = .ok (.again s')) (k : ℕ) : loop cut body (k + 1) s = loop cut body k s' := by
  rw [loop, h]

/-- A computation returns what another one returns, and may return more often. -/
def Extends (x y : Except E α) : Prop := ∀ a, x = .ok a → y = .ok a

theorem Extends.refl (x : Except E α) : Extends x x := fun _ h => h

theorem Extends.bind {x y : Except E α} {f g : α → Except E β} (h : Extends x y)
    (hf : ∀ a, Extends (f a) (g a)) : Extends (x >>= f) (y >>= g) := by
  intro b hb
  cases x with
  | error e => cases hb
  | ok a =>
    rw [h a rfl]
    exact hf a b hb

/-- A loop that has come to its end does so with every larger bound. -/
theorem Extends.loop {cut : S → E} {body body' : S → Except E (Flow S R)}
    (hbody : ∀ s, Extends (body s) (body' s)) {k k' : ℕ} (hk : k ≤ k') (s : S) :
    Extends (loop cut body k s) (loop cut body' k' s) := by
  induction k generalizing s k' with
  | zero => rintro r ⟨⟩
  | succ k ih =>
    obtain ⟨k', rfl⟩ := Nat.exists_eq_add_of_le' (Nat.zero_lt_of_lt hk)
    intro r h
    rw [Loop.loop] at h ⊢
    cases hb : body s with
    | error e => rw [hb] at h; cases h
    | ok f =>
      rw [hbody s f hb]
      rw [hb] at h
      cases f with
      | again s' => exact ih (Nat.le_of_succ_le_succ hk) s' r h
      | leave r' => exact h

/-- What holds at the cut and of the result. -/
def Meets (C : E → Prop) (Q : α → Prop) : Except E α → Prop
  | .error e => C e
  | .ok a => Q a

variable {C : E → Prop} {Q : α → Prop} {P : β → Prop} {x : Except E α}

@[simp] theorem meets_error {e : E} : Meets C Q (.error e) ↔ C e := Iff.rfl
@[simp] theorem meets_ok {a : α} : Meets C Q (.ok a) ↔ Q a := Iff.rfl
@[simp] theorem meets_pure {a : α} : Meets C Q (pure a) ↔ Q a := Iff.rfl
@[simp] theorem meets_throw {e : E} : Meets C Q (throw e) ↔ C e := Iff.rfl

theorem meets_of_ok (h : ∀ a, x = .ok a → Q a) : Meets (fun _ => True) Q x := by
  cases x with
  | error e => trivial
  | ok a => exact h a rfl

theorem Meets.bind {f : α → Except E β} (h : Meets C Q x) (hf : ∀ a, Q a → Meets C P (f a)) :
    Meets C P (x >>= f) := by
  cases x with
  | error e => exact h
  | ok a => exact hf a h

theorem Meets.mono {C' : E → Prop} {Q' : α → Prop} (h : Meets C Q x) (hC : ∀ e, C e → C' e)
    (hQ : ∀ a, Q a → Q' a) : Meets C' Q' x := by
  cases x with
  | error e => exact hC e h
  | ok a => exact hQ a h

theorem Meets.and {C' : E → Prop} {Q' : α → Prop} (h : Meets C Q x) (h' : Meets C' Q' x) :
    Meets (fun e => C e ∧ C' e) (fun a => Q a ∧ Q' a) x := by
  cases x with
  | error e => exact ⟨h, h'⟩
  | ok a => exact ⟨h, h'⟩

/-- What holds of a pass: the invariant if it goes round again, the result if it leaves. -/
def Pass (I : S → Prop) (Q : R → Prop) : Flow S R → Prop
  | .again s => I s
  | .leave r => Q r

@[simp] theorem pass_again {I : S → Prop} {Q : R → Prop} {s : S} :
    Pass I Q (.again s) ↔ I s := Iff.rfl
@[simp] theorem pass_leave {I : S → Prop} {Q : R → Prop} {r : R} :
    Pass I Q (.leave r) ↔ Q r := Iff.rfl

/-- The invariant rule. -/
theorem loop_meets {cut : S → E} {body : S → Except E (Flow S R)} {I : S → Prop} {Q : R → Prop}
    (hcut : ∀ s, I s → C (cut s)) (hbody : ∀ s, I s → Meets C (Pass I Q) (body s)) (k : ℕ) {s : S}
    (h : I s) : Meets C Q (loop cut body k s) := by
  induction k generalizing s with
  | zero => exact hcut s h
  | succ k ih =>
    have hs := hbody s h
    rw [loop]
    cases hb : body s with
    | error e => rw [hb] at hs; exact hs
    | ok f =>
      rw [hb] at hs
      cases f with
      | again s' => exact ih hs
      | leave r => exact hs

abbrev Returns (Q : α → Prop) : Except E α → Prop := Meets (fun _ => False) Q

theorem Returns.exists_eq (h : Returns Q x) : ∃ a, x = .ok a ∧ Q a := by
  cases x with
  | error e => exact h.elim
  | ok a => exact ⟨a, rfl, h⟩

theorem Returns.and_meets {P : α → Prop} (h : Returns Q x) (h' : Meets C P x) :
    Returns (fun a => Q a ∧ P a) x :=
  (Meets.and h h').mono (fun _ he => he.1) fun _ ha => ha

theorem Returns.and_pass {I J : S → Prop} {Q P : R → Prop} {f : Except E (Flow S R)}
    (h : Returns (Pass I Q) f) (h' : Meets C (Pass J P) f) :
    Returns (Pass (fun s => I s ∧ J s) Q) f := by
  refine (Meets.and h h').mono (fun _ he => he.1) ?_
  rintro (s | r) hp
  · exact hp
  · exact hp.1

/-- The rule for loops that end: every pass keeps the invariant and lowers a measure. -/
theorem loop_returns {cut : S → E} {body : S → Except E (Flow S R)} {I : S → Prop} {Q : R → Prop}
    {f : S → ℕ} (hbody : ∀ s, I s → Returns (Pass (fun t => I t ∧ f t < f s) Q) (body s)) {k : ℕ}
    {s : S} (h : I s) (hk : f s < k) : Returns Q (loop cut body k s) := by
  induction k generalizing s with
  | zero => exact absurd hk (Nat.not_lt_zero _)
  | succ k ih =>
    obtain ⟨p, hp, hpass⟩ := (hbody s h).exists_eq
    rw [loop, hp]
    cases p with
    | again t => exact ih hpass.1 (hpass.2.trans_le (Nat.le_of_lt_succ hk))
    | leave r => exact hpass

end Loop
