import Mathlib

/-! # Push parsers

A push parser reads what it can from the front of its unread input, reports how
much it used and keeps the rest for the next call. A machine whose passes do not
care where the input is cut gives the same result for every segmentation, and so
does the pipeline that restarts it after each finished message.
-/

namespace Incremental

variable {S α ρ : Type*}

/-- The effect of one pass over the unread input: return, or go round again. -/
inductive Turn (S : Type*) where
  | stop (s : S) (used : ℕ)
  | more (s : S) (used : ℕ)
  deriving DecidableEq, Repr

/-- Account for input that was used before. -/
def Turn.shift (n : ℕ) : Turn S → Turn S
  | .stop s k => .stop s (n + k)
  | .more s k => .more s (n + k)

def shift (n : ℕ) (r : S × ℕ) : S × ℕ := (r.1, n + r.2)

@[simp] theorem shift_fst (n : ℕ) (r : S × ℕ) : (shift n r).1 = r.1 := rfl
@[simp] theorem shift_snd (n : ℕ) (r : S × ℕ) : (shift n r).2 = n + r.2 := rfl
@[simp] theorem shift_zero (r : S × ℕ) : shift 0 r = r := by simp [shift]
@[simp] theorem shift_shift (m n : ℕ) (r : S × ℕ) : shift m (shift n r) = shift (m + n) r := by
  simp [shift, Nat.add_assoc]

/-- A push parser. A pass that goes round again uses input or lowers the rank. -/
structure Machine (S α : Type*) where
  step : S → List α → Turn S
  rank : S → ℕ
  stop_le : ∀ {s d s' n}, step s d = .stop s' n → n ≤ d.length ∧ rank s' ≤ rank s + 2 * n
  more_lt : ∀ {s d s' n}, step s d = .more s' n → n ≤ d.length ∧ rank s' < rank s + 2 * n

namespace Machine

variable (m : Machine S α) {s s' t : S} {d : List α} {n k : ℕ}

def size (s : S) (d : List α) : ℕ := 2 * d.length + m.rank s

def loop : ℕ → S → List α → S × ℕ
  | 0, s, _ => (s, 0)
  | k + 1, s, d =>
    match m.step s d with
    | .stop s' n => (s', n)
    | .more s' n => shift n (loop k s' (d.drop n))

def feed (s : S) (d : List α) : S × ℕ := m.loop (m.size s d + 1) s d

theorem size_lt (h : m.step s d = .more s' n) : m.size s' (d.drop n) < m.size s d := by
  have := m.more_lt h
  simp only [size, List.length_drop]
  omega

/-- Induction along the passes of a call. -/
theorem induct {P : S → List α → Prop}
    (h : ∀ s d, (∀ s' n, m.step s d = .more s' n → P s' (d.drop n)) → P s d)
    (s : S) (d : List α) : P s d := by
  generalize hk : m.size s d = k
  induction k using Nat.strong_induction_on generalizing s d with
  | _ k ih => exact h s d fun s' n hs => ih _ (hk ▸ m.size_lt hs) _ _ rfl

theorem fuel_irrelevant {β : Type*} {f : ℕ → S → List α → β}
    (hstop : ∀ {s d s' n}, m.step s d = .stop s' n → ∀ j k, f (j + 1) s d = f (k + 1) s d)
    (hmore : ∀ {s d s' n}, m.step s d = .more s' n → ∀ {j k},
      f j s' (d.drop n) = f k s' (d.drop n) → f (j + 1) s d = f (k + 1) s d)
    (s : S) (d : List α) : ∀ {j k}, m.size s d < j → m.size s d < k → f j s d = f k s d := by
  induction s, d using m.induct with
  | h s d ih =>
    intro j k hj hk
    obtain ⟨j, rfl⟩ : ∃ i, j = i + 1 := ⟨j - 1, by omega⟩
    obtain ⟨k, rfl⟩ : ∃ i, k = i + 1 := ⟨k - 1, by omega⟩
    cases hs : m.step s d with
    | stop s' n => exact hstop hs j k
    | more s' n =>
      have hlt := m.size_lt hs
      exact hmore hs (ih s' n hs (by omega) (by omega))

theorem loop_eq_feed (s : S) (d : List α) (hk : m.size s d < k) : m.loop k s d = m.feed s d := by
  refine m.fuel_irrelevant ?_ ?_ s d hk (Nat.lt_succ_self _)
  · intro s d s' n hs j k
    rw [loop, loop, hs]
  · intro s d s' n hs j k h
    rw [loop, loop, hs]
    exact congrArg (shift n) h

theorem feed_stop (h : m.step s d = .stop s' n) : m.feed s d = (s', n) := by
  rw [feed, loop, h]

theorem feed_more (h : m.step s d = .more s' n) :
    m.feed s d = shift n (m.feed s' (d.drop n)) := by
  rw [feed, loop, h]
  simp only [m.loop_eq_feed s' (d.drop n) (m.size_lt h)]

theorem feed_le (s : S) (d : List α) :
    (m.feed s d).2 ≤ d.length ∧ m.rank (m.feed s d).1 ≤ m.rank s + 2 * (m.feed s d).2 := by
  induction s, d using m.induct with
  | h s d ih =>
    cases hs : m.step s d with
    | stop s' n => rw [m.feed_stop hs]; exact m.stop_le hs
    | more s' n =>
      have h₁ := m.more_lt hs
      have h₂ := ih s' n hs
      rw [m.feed_more hs]
      simp only [shift_fst, shift_snd, List.length_drop] at h₂ ⊢
      omega

theorem size_feed_le (s : S) (d : List α) :
    m.size (m.feed s d).1 (d.drop (m.feed s d).2) ≤ m.size s d := by
  have := m.feed_le s d
  simp only [size, List.length_drop]
  omega

theorem size_feed_lt (h : ∀ t d' n, m.step t d' = .stop (m.feed s d).1 n → n = 0)
    (hn : (m.feed s d).2 ≠ 0) :
    m.size (m.feed s d).1 (d.drop (m.feed s d).2) < m.size s d := by
  cases hs : m.step s d with
  | stop s' n =>
    rw [m.feed_stop hs] at h hn
    exact absurd (h s d n hs) hn
  | more s' n =>
    rw [m.feed_more hs, shift_fst, shift_snd, ← List.drop_drop]
    exact (m.size_feed_le s' (d.drop n)).trans_lt (m.size_lt hs)

theorem feed_invariant {I : S → Prop}
    (hstop : ∀ s d s' n, m.step s d = .stop s' n → I s → I s')
    (hmore : ∀ s d s' n, m.step s d = .more s' n → I s → I s')
    (s : S) (d : List α) (h : I s) : I (m.feed s d).1 := by
  induction s, d using m.induct with
  | h s d ih =>
    cases hs : m.step s d with
    | stop s' n => rw [m.feed_stop hs]; exact hstop _ _ _ _ hs h
    | more s' n => rw [m.feed_more hs]; exact ih s' n hs (hmore _ _ _ _ hs h)

/-- A call never leaves a state in which another pass over the same input would go on. -/
theorem feed_stops (s : S) (d : List α) : ∃ s₁ k n,
    m.step s₁ (d.drop k) = .stop (m.feed s d).1 n ∧ (m.feed s d).2 = k + n := by
  induction s, d using m.induct with
  | h s d ih =>
    cases hs : m.step s d with
    | stop s' n => exact ⟨s, 0, n, by simp [m.feed_stop hs, hs]⟩
    | more s' n =>
      obtain ⟨s₁, k, j, hstep, hused⟩ := ih s' n hs
      refine ⟨s₁, n + k, j, ?_, ?_⟩
      · rw [m.feed_more hs, shift_fst, ← List.drop_drop, hstep]
      · rw [m.feed_more hs, shift_snd, hused]; omega

/-- The first state with a given property that a call passes through, and the input it has
used by then. -/
inductive Until (P : S → Prop) : S → List α → S → ℕ → Prop where
  | here {s t : S} {d : List α} {n : ℕ} : m.step s d = .more t n → P t → Until P s d t n
  | later {s s' t : S} {d : List α} {n k : ℕ} : m.step s d = .more s' n → ¬ P s' →
      Until P s' (d.drop n) t k → Until P s d t (n + k)

variable {m} {P : S → Prop}

theorem Until.feed (h : m.Until P s d t k) : m.feed s d = shift k (m.feed t (d.drop k)) := by
  induction h with
  | here hs _ => rw [m.feed_more hs]
  | later hs _ _ ih => rw [m.feed_more hs, ih, shift_shift, List.drop_drop]

theorem Until.prop (h : m.Until P s d t k) : P t := by
  induction h with
  | here _ hP => exact hP
  | later _ _ _ ih => exact ih

theorem until_iff_of_more (h : m.step s d = .more s' n) (hP : ¬ P s') :
    m.Until P s d t k ↔ ∃ j, m.Until P s' (d.drop n) t j ∧ k = n + j := by
  constructor
  · rintro (⟨hs, ht⟩ | ⟨hs, _, ht⟩)
    · cases h.symm.trans hs; exact absurd ht hP
    · cases h.symm.trans hs; exact ⟨_, ht, rfl⟩
  · rintro ⟨j, hj, rfl⟩
    exact .later h hP hj

theorem until_iff_of_here (h : m.step s d = .more s' n) (hP : P s') :
    m.Until P s d t k ↔ t = s' ∧ k = n := by
  constructor
  · rintro (⟨hs, _⟩ | ⟨hs, hn, _⟩)
    · cases h.symm.trans hs; exact ⟨rfl, rfl⟩
    · cases h.symm.trans hs; exact absurd hP hn
  · rintro ⟨rfl, rfl⟩
    exact .here h hP

theorem not_until_of_stop (h : m.step s d = .stop s' n) : ¬ m.Until P s d t k := by
  rintro (⟨hs, _⟩ | ⟨hs, _, _⟩) <;> cases h.symm.trans hs

/-- A property whose states use no more input, and which no returning pass establishes, is
reached if and only if the call ends with it. -/
theorem until_iff_feed (hrests : ∀ {s}, P s → ∀ d, m.step s d = .stop s 0)
    (hstop : ∀ {s d s' n}, m.step s d = .stop s' n → P s' → P s) (hs : ¬ P s) :
    m.Until P s d t k ↔ m.feed s d = (t, k) ∧ P t := by
  constructor
  · intro h
    rw [h.feed, m.feed_stop (hrests h.prop _)]
    exact ⟨rfl, h.prop⟩
  · rintro ⟨h, ht⟩
    induction s, d using m.induct generalizing k with
    | h s d ih =>
      cases hstep : m.step s d with
      | stop s' n =>
        rw [m.feed_stop hstep] at h
        cases h
        exact absurd (hstop hstep ht) hs
      | more s' n =>
        rw [m.feed_more hstep] at h
        by_cases hs' : P s'
        · rw [m.feed_stop (hrests hs' _)] at h
          cases h
          exact .here hstep hs'
        · obtain ⟨rfl, rfl⟩ := Prod.mk.inj h
          exact .later hstep hs' (ih s' n hstep hs' rfl)

theorem Until.exists_of_imp {Q : S → Prop} (hPQ : ∀ {s}, P s → Q s) (h : m.Until P s d t k) :
    ∃ t' k', m.Until Q s d t' k' := by
  induction h with
  | here hs ht => exact ⟨_, _, .here hs (hPQ ht)⟩
  | @later s s' t d n k hs _ _ ih =>
    by_cases hs' : Q s'
    · exact ⟨_, _, .here hs hs'⟩
    · obtain ⟨t', k', ht'⟩ := ih
      exact ⟨_, _, .later hs hs' ht'⟩

variable (m) in
/-- Some input takes the machine from a state to another before a property is established,
whatever follows. -/
structure Passes (P : S → Prop) (s : S) (u : List α) (t : S) : Prop where
  feed : ∀ d, m.feed s (u ++ d) = shift u.length (m.feed t d)
  until_iff : ∀ {d r k}, m.Until P s (u ++ d) r k ↔ ∃ j, m.Until P t d r j ∧ k = u.length + j

namespace Passes

variable {u v : List α} {r : S}

theorem nil : m.Passes P s [] s where
  feed d := by simp
  until_iff := by simp

theorem of_more (h : ∀ d, m.step s (u ++ d) = .more t u.length) (ht : ¬ P t) :
    m.Passes P s u t where
  feed d := by rw [m.feed_more (h d), List.drop_left]
  until_iff := by
    intro d r k
    rw [until_iff_of_more (h d) ht, List.drop_left]

theorem append (hu : m.Passes P s u t) (hv : m.Passes P t v r) : m.Passes P s (u ++ v) r where
  feed d := by rw [List.append_assoc, hu.feed, hv.feed, shift_shift, List.length_append]
  until_iff := by
    intro d q k
    simp only [List.append_assoc, hu.until_iff, hv.until_iff, List.length_append]
    constructor
    · rintro ⟨_, ⟨j, hj, rfl⟩, rfl⟩
      exact ⟨j, hj, by omega⟩
    · rintro ⟨j, hj, rfl⟩
      exact ⟨_, ⟨j, hj, rfl⟩, by omega⟩

end Passes

variable (m)

/-- On the states of an invariant, feeding is insensitive to cutting the input in two. -/
structure Resumable (I : S → Prop) : Prop where
  keeps : ∀ {s}, I s → ∀ d, I (m.feed s d).1
  append : ∀ {s}, I s → ∀ a b, m.feed s (a ++ b) =
    shift (m.feed s a).2 (m.feed (m.feed s a).1 (a.drop (m.feed s a).2 ++ b))

/-- A pass keeps the invariant. It waits, or it does the same on every extension of
its input, or it has used all of its input and would have used more of a longer one. -/
structure StepResumable (I : S → Prop) : Prop where
  stop_keeps : ∀ {s d s' n}, I s → m.step s d = .stop s' n → I s'
  more_keeps : ∀ {s d s' n}, I s → m.step s d = .more s' n → I s'
  stop : ∀ {s a s' n}, I s → m.step s a = .stop s' n → (s' = s ∧ n = 0) ∨
    (∀ b, m.step s (a ++ b) = .stop s' n) ∧ ∀ d, m.step s' d = .stop s' 0
  more : ∀ {s a s' n}, I s → m.step s a = .more s' n → (∀ b, m.step s (a ++ b) = .more s' n) ∨
    n = a.length ∧ ∀ b, b ≠ [] → m.step s (a ++ b) = (m.step s' b).shift n

variable {m} {I : S → Prop}

theorem feed_of_step_shift {a b : List α} (h : m.step s (a ++ b) = (m.step s' b).shift a.length) :
    m.feed s (a ++ b) = shift a.length (m.feed s' b) := by
  cases hs : m.step s' b with
  | stop t k =>
    rw [hs] at h
    rw [m.feed_stop h, m.feed_stop hs]; rfl
  | more t k =>
    rw [hs] at h
    rw [m.feed_more h, m.feed_more hs, shift_shift, List.drop_length_add_append]

theorem StepResumable.feed_append (hm : m.StepResumable I) (hI : I s) (a b : List α) :
    m.feed s (a ++ b) =
      shift (m.feed s a).2 (m.feed (m.feed s a).1 (a.drop (m.feed s a).2 ++ b)) := by
  induction s, a using m.induct with
  | h s a ih =>
    cases hs : m.step s a with
    | stop s' n =>
      rw [m.feed_stop hs]
      rcases hm.stop hI hs with ⟨rfl, rfl⟩ | ⟨hsame, habs⟩
      · simp
      · rw [m.feed_stop (hsame b), m.feed_stop (habs _)]; rfl
    | more s' n =>
      have hle := (m.more_lt hs).1
      have hcut : m.feed s (a ++ b) = shift n (m.feed s' (a.drop n ++ b)) := by
        rcases hm.more hI hs with hsame | ⟨rfl, hjoin⟩
        · rw [m.feed_more (hsame b), List.drop_append_of_le_length hle]
        · rcases eq_or_ne b [] with rfl | hb
          · rw [List.append_nil, List.append_nil, m.feed_more hs]
          · rw [feed_of_step_shift (hjoin b hb)]; simp
      rw [hcut, ih s' n hs (hm.more_keeps hI hs), m.feed_more hs]
      simp [List.drop_drop]

theorem StepResumable.resumable (hm : m.StepResumable I) : m.Resumable I where
  keeps hI d := m.feed_invariant (fun _ _ _ _ h hI => hm.stop_keeps hI h)
    (fun _ _ _ _ h hI => hm.more_keeps hI h) _ d hI
  append := hm.feed_append

end Machine

section Reads

variable (m : Machine S α)

/-- Append each read to the unread input, feed the whole, keep what was not used. -/
def Machine.feedReads : S → List α → List (List α) → S × ℕ
  | s, _, [] => (s, 0)
  | s, buf, r :: rs =>
    let u := m.feed s (buf ++ r)
    shift u.2 (feedReads u.1 ((buf ++ r).drop u.2) rs)

variable {m} {I : S → Prop} {s : S}

theorem Machine.Resumable.feedReads_cons (hm : m.Resumable I) (hI : I s) (buf r : List α)
    (rs : List (List α)) :
    m.feedReads s buf (r :: rs) = m.feed s (buf ++ (r :: rs).flatten) := by
  induction rs generalizing s buf r with
  | nil => simp [Machine.feedReads, shift]
  | cons r' rs ih =>
    rw [Machine.feedReads, ih (hm.keeps hI _), List.flatten_cons (l := r), ← List.append_assoc,
      hm.append hI (buf ++ r)]

/-- Every segmentation of a stream gives the same state and the same total use. -/
theorem Machine.Resumable.feedReads_eq (hm : m.Resumable I) (hI : I s)
    (hs : m.feed s [] = (s, 0)) (rs : List (List α)) :
    m.feedReads s [] rs = m.feed s rs.flatten := by
  cases rs with
  | nil => rw [Machine.feedReads, List.flatten_nil, hs]
  | cons r rs => rw [hm.feedReads_cons hI, List.nil_append]

end Reads

section Units

variable (m : Machine S α)

def Machine.unitsLoop : ℕ → S → List α → List (S × List α)
  | 0, _, _ => []
  | k + 1, s, d =>
    match m.step s d with
    | .stop _ _ => []
    | .more s' n => (s, d.take n) :: unitsLoop k s' (d.drop n)

/-- The passes of a call that go on, each with the state it starts in and the input it uses. -/
def Machine.units (s : S) (d : List α) : List (S × List α) := m.unitsLoop (m.size s d + 1) s d

def Machine.unitsReads : S → List α → List (List α) → List (S × List α)
  | _, _, [] => []
  | s, buf, r :: rs =>
    let u := m.feed s (buf ++ r)
    m.units s (buf ++ r) ++ unitsReads u.1 ((buf ++ r).drop u.2) rs

variable {m} {s s' t : S} {d u : List α} {n : ℕ}

theorem Machine.unitsLoop_eq_units (s : S) (d : List α) {k : ℕ} (hk : m.size s d < k) :
    m.unitsLoop k s d = m.units s d := by
  refine m.fuel_irrelevant ?_ ?_ s d hk (Nat.lt_succ_self _)
  · intro s d s' n hs j k
    rw [Machine.unitsLoop, Machine.unitsLoop, hs]
  · intro s d s' n hs j k h
    rw [Machine.unitsLoop, Machine.unitsLoop, hs]
    exact congrArg ((s, d.take n) :: ·) h

theorem Machine.units_stop (h : m.step s d = .stop s' n) : m.units s d = [] := by
  rw [Machine.units, Machine.unitsLoop, h]

theorem Machine.units_more (h : m.step s d = .more s' n) :
    m.units s d = (s, d.take n) :: m.units s' (d.drop n) := by
  rw [Machine.units, Machine.unitsLoop, h]
  simp only [m.unitsLoop_eq_units s' (d.drop n) (m.size_lt h)]

theorem Machine.step_of_mem_units (h : (t, u) ∈ m.units s d) :
    ∃ s' rest, m.step t (u ++ rest) = .more s' u.length := by
  induction s, d using m.induct with
  | h s d ih =>
    cases hs : m.step s d with
    | stop s' n => rw [m.units_stop hs] at h; cases h
    | more s' n =>
      rw [m.units_more hs, List.mem_cons] at h
      rcases h with h | h
      · cases h
        have hlen : (d.take n).length = n := List.length_take_of_le (m.more_lt hs).1
        exact ⟨s', d.drop n, by rw [List.take_append_drop, hlen, hs]⟩
      · exact ih s' n hs h

theorem Machine.step_of_mem_unitsReads {buf : List α} {rs : List (List α)}
    (h : (t, u) ∈ m.unitsReads s buf rs) : ∃ s' rest, m.step t (u ++ rest) = .more s' u.length := by
  induction rs generalizing s buf with
  | nil => cases h
  | cons r rs ih =>
    rw [Machine.unitsReads, List.mem_append] at h
    rcases h with h | h
    · exact m.step_of_mem_units h
    · exact ih h

theorem Machine.units_flatten (h : ∀ t d' n, m.step t d' = .stop (m.feed s d).1 n → n = 0) :
    ((m.units s d).map Prod.snd).flatten = d.take (m.feed s d).2 := by
  induction s, d using m.induct with
  | h s d ih =>
    cases hs : m.step s d with
    | stop s' n =>
      rw [m.feed_stop hs] at h ⊢
      simp [m.units_stop hs, h _ _ _ hs]
    | more s' n =>
      rw [m.feed_more hs] at h ⊢
      rw [m.units_more hs, List.map_cons, List.flatten_cons, ih s' n hs h, shift_snd,
        List.take_add]

theorem Machine.unitsReads_flatten {Q : S → Prop}
    (hstop : ∀ {t d s' n}, m.step t d = .stop s' n → Q s' → n = 0)
    (hback : ∀ {s d}, Q (m.feed s d).1 → Q s) {buf : List α} {rs : List (List α)}
    (h : Q (m.feedReads s buf rs).1) : Q s ∧ ((m.unitsReads s buf rs).map Prod.snd).flatten =
      (buf ++ rs.flatten).take (m.feedReads s buf rs).2 := by
  induction rs generalizing s buf with
  | nil => exact ⟨h, by simp [Machine.unitsReads, Machine.feedReads]⟩
  | cons r rs ih =>
    obtain ⟨hQ, hrest⟩ := ih h
    have hle := (m.feed_le s (buf ++ r)).1
    refine ⟨hback hQ, ?_⟩
    rw [Machine.unitsReads, Machine.feedReads, List.map_append, List.flatten_append, hrest,
      m.units_flatten fun t d' n hs => hstop hs hQ, shift_snd, List.flatten_cons,
      ← List.append_assoc, List.take_add, List.take_append_of_le_length hle,
      List.drop_append_of_le_length hle]

end Units

section Pipeline

/-- How to tell a finished message and a failure from the state of a machine. In
both the machine uses no more input. -/
structure Delimiter (m : Machine S α) (ρ : Type*) where
  take : S → Option (ρ × S)
  failed : S → Bool
  take_rank : ∀ {s x s'}, take s = some (x, s') → m.rank s' < m.rank s
  take_rests : ∀ {s x s'}, take s = some (x, s') → ∀ d, m.step s d = .stop s 0
  failed_rests : ∀ {s}, failed s = true → ∀ d, m.step s d = .stop s 0

variable {m : Machine S α} (f : Delimiter m ρ)

def Delimiter.step (q : S × List ρ) (d : List α) : Turn (S × List ρ) :=
  let u := m.feed q.1 d
  if f.failed u.1 then .stop (u.1, q.2) u.2
  else match f.take u.1 with
    | some (x, s') => .more (s', q.2 ++ [x]) u.2
    | none => .stop (u.1, q.2) u.2

/-- The three ways a message ends a pass of the pipeline. -/
theorem Delimiter.step_cases (q : S × List ρ) (d : List α) :
    (f.failed (m.feed q.1 d).1 = true ∧
      f.step q d = .stop ((m.feed q.1 d).1, q.2) (m.feed q.1 d).2) ∨
    (f.failed (m.feed q.1 d).1 = false ∧ ∃ x s', f.take (m.feed q.1 d).1 = some (x, s') ∧
      f.step q d = .more (s', q.2 ++ [x]) (m.feed q.1 d).2) ∨
    (f.failed (m.feed q.1 d).1 = false ∧ f.take (m.feed q.1 d).1 = none ∧
      f.step q d = .stop ((m.feed q.1 d).1, q.2) (m.feed q.1 d).2) := by
  unfold Delimiter.step
  dsimp only
  split
  · next hf => exact .inl ⟨hf, rfl⟩
  · next hf =>
    rw [Bool.not_eq_true] at hf
    split
    · next x s' ht => exact .inr (.inl ⟨hf, x, s', ht, rfl⟩)
    · next ht => exact .inr (.inr ⟨hf, ht, rfl⟩)

/-- Restart the machine after each finished message, collecting the messages, and
give up at the first failure. -/
def Delimiter.pipeline : Machine (S × List ρ) α where
  step := f.step
  rank q := m.rank q.1
  stop_le := by
    rintro q d q' n h
    have hle := m.feed_le q.1 d
    rcases f.step_cases q d with ⟨_, hs⟩ | ⟨_, x, s', ht, hs⟩ | ⟨_, _, hs⟩ <;> rw [hs] at h <;>
      cases h <;> exact hle
  more_lt := by
    rintro q d q' n h
    have hle := m.feed_le q.1 d
    rcases f.step_cases q d with ⟨_, hs⟩ | ⟨_, x, s', ht, hs⟩ | ⟨_, _, hs⟩ <;> rw [hs] at h <;>
      cases h
    have := f.take_rank ht
    exact ⟨hle.1, by dsimp only; omega⟩

theorem Delimiter.feed_of_failed {s : S} (h : f.failed s = true) (d : List α) :
    m.feed s d = (s, 0) :=
  m.feed_stop (f.failed_rests h d)

theorem Delimiter.feed_of_take {s s' : S} {x : ρ} (h : f.take s = some (x, s')) (d : List α) :
    m.feed s d = (s, 0) :=
  m.feed_stop (f.take_rests h d)

theorem Delimiter.pipeline_feed_congr {s s' : S} {out : List ρ} {d d' : List α} {n : ℕ}
    (h : m.feed s d = shift n (m.feed s' d')) (hd : ∀ k, d.drop (n + k) = d'.drop k) :
    f.pipeline.feed (s, out) d = shift n (f.pipeline.feed (s', out) d') := by
  have h₁ : (m.feed s d).1 = (m.feed s' d').1 := by rw [h]; rfl
  have h₂ : (m.feed s d).2 = n + (m.feed s' d').2 := by rw [h]; rfl
  have hc := f.step_cases (s', out) d'
  have hc' := f.step_cases (s, out) d
  simp only [h₁, h₂] at hc'
  rcases hc with ⟨hf, hs⟩ | ⟨hf, x, t, ht, hs⟩ | ⟨hf, ht, hs⟩
  · have hs' := hc'.resolve_right (by simp [hf])
    rw [f.pipeline.feed_stop hs'.2, f.pipeline.feed_stop hs]; rfl
  · obtain ⟨x', t', ht', hs'⟩ := ((hc'.resolve_left (by simp [hf])).resolve_right (by simp [ht])).2
    cases ht.symm.trans ht'
    rw [f.pipeline.feed_more hs', f.pipeline.feed_more hs, shift_shift, hd]
  · have hs' := (hc'.resolve_left (by simp [hf])).resolve_left (by simp [ht])
    rw [f.pipeline.feed_stop hs'.2.2, f.pipeline.feed_stop hs]; rfl

theorem Machine.Resumable.pipeline {I : S → Prop} (hm : m.Resumable I)
    (htake : ∀ {s x s'}, I s → f.take s = some (x, s') → I s') :
    f.pipeline.Resumable fun q => I q.1 where
  keeps hI d := by
    refine f.pipeline.feed_invariant (I := fun q => I q.1) ?_ ?_ _ d hI <;>
      intro q d' q' n h hq <;> change f.step q d' = _ at h <;>
      rcases f.step_cases q d' with ⟨_, hs⟩ | ⟨_, x, s', ht, hs⟩ | ⟨_, _, hs⟩ <;> rw [hs] at h <;>
      cases h
    · exact hm.keeps hq d'
    · exact hm.keeps hq d'
    · exact htake (hm.keeps hq d') ht
  append := by
    rintro ⟨s, out⟩ hI a b
    generalize hq : (s, out) = q
    induction q, a using f.pipeline.induct generalizing s out with
    | h q a ih =>
      subst hq
      have hle := (m.feed_le s a).1
      have hres := hm.append hI a b
      have hrest : ∀ k, (a ++ b).drop ((m.feed s a).2 + k) = (a.drop (m.feed s a).2 ++ b).drop k :=
        fun k => by rw [← List.drop_drop, List.drop_append_of_le_length hle]
      rcases f.step_cases (s, out) a with ⟨hf, hs⟩ | ⟨hf, x, s', ht, hs⟩ | ⟨hf, ht, hs⟩
      · rw [f.pipeline.feed_stop hs]
        exact f.pipeline_feed_congr hres hrest
      · -- a finished message uses nothing of the rest, so the longer input restarts alike
        rw [f.feed_of_take ht] at hres
        have hs' : f.step (s, out) (a ++ b) = .more (s', out ++ [x]) (m.feed s a).2 := by
          rcases f.step_cases (s, out) (a ++ b) with ⟨hf', _⟩ | ⟨_, y, t, ht', hs'⟩ | ⟨_, ht', _⟩
          · simp [hres, shift, hf] at hf'
          · simp only [hres, shift, ht] at ht' hs'
            cases ht'
            exact hs'
          · simp [hres, shift, ht] at ht'
        rw [f.pipeline.feed_more hs', f.pipeline.feed_more hs, List.drop_append_of_le_length hle,
          ih _ _ hs _ _ (htake (hm.keeps hI a) ht) rfl]
        simp [List.drop_drop]
      · rw [f.pipeline.feed_stop hs]
        exact f.pipeline_feed_congr hres hrest

theorem Delimiter.prefix_pipeline_feed (q : S × List ρ) (d : List α) :
    q.2 <+: (f.pipeline.feed q d).1.2 := by
  refine f.pipeline.feed_invariant (I := fun r => q.2 <+: r.2) ?_ ?_ q d (List.prefix_refl _)
  · intro r d' r' n h hr
    change f.step r d' = _ at h
    rcases f.step_cases r d' with ⟨_, hs⟩ | ⟨_, x, s', _, hs⟩ | ⟨_, _, hs⟩ <;> rw [hs] at h <;>
      cases h <;> exact hr
  · intro r d' r' n h hr
    change f.step r d' = _ at h
    rcases f.step_cases r d' with ⟨_, hs⟩ | ⟨_, x, s', _, hs⟩ | ⟨_, _, hs⟩ <;> rw [hs] at h <;>
      cases h
    exact hr.trans (List.prefix_append _ _)

/-- The words that make up a message, where every message is begun in the same state. -/
structure Delimiter.Reads (s₀ : S) (M : List α → ρ → Prop) : Prop where
  again : ∀ {d x s'}, f.take (m.feed s₀ d).1 = some (x, s') → s' = s₀
  iff : ∀ {d x n}, (f.failed (m.feed s₀ d).1 = false ∧
    (∃ s', f.take (m.feed s₀ d).1 = some (x, s')) ∧ (m.feed s₀ d).2 = n) ↔
      n ≤ d.length ∧ M (d.take n) x

variable {f}

theorem Delimiter.Reads.step_message {s₀ : S} {M : List α → ρ → Prop} (h : f.Reads s₀ M)
    {u : List α} {x : ρ} (hu : M u x) (out : List ρ) (d : List α) :
    f.step (s₀, out) (u ++ d) = .more (s₀, out ++ [x]) u.length := by
  obtain ⟨hf, ⟨s', ht⟩, hn⟩ := h.iff (d := u ++ d) (n := u.length) |>.mpr
    ⟨by simp, by simpa using hu⟩
  rcases f.step_cases (s₀, out) (u ++ d) with ⟨hf', _⟩ | ⟨_, y, t, ht', hs⟩ | ⟨_, ht', _⟩
  · cases hf.symm.trans hf'
  · cases ht.symm.trans ht'
    rw [hs, h.again ht, hn]
  · cases ht.symm.trans ht'

theorem Delimiter.Reads.step_rest {s₀ : S} {M : List α → ρ → Prop} (h : f.Reads s₀ M)
    {d : List α} (hd : ∀ u x, M u x → ¬ u <+: d) (out : List ρ) :
    ∃ s n, f.step (s₀, out) d = .stop (s, out) n := by
  rcases f.step_cases (s₀, out) d with ⟨_, hs⟩ | ⟨hf, x, t, ht, _⟩ | ⟨_, _, hs⟩
  · exact ⟨_, _, hs⟩
  · exact absurd (List.take_prefix _ d) (hd _ _ (h.iff.mp ⟨hf, ⟨t, ht⟩, rfl⟩).2)
  · exact ⟨_, _, hs⟩

theorem Delimiter.Reads.feed_messages {s₀ : S} {M : List α → ρ → Prop} (h : f.Reads s₀ M)
    {us : List (List α)} {xs : List ρ} (hus : List.Forall₂ M us xs) (out : List ρ) (d : List α) :
    f.pipeline.feed (s₀, out) (us.flatten ++ d) =
      shift us.flatten.length (f.pipeline.feed (s₀, out ++ xs) d) := by
  induction hus generalizing out with
  | nil => simp
  | @cons u x us xs hu _ ih =>
    have hs : f.pipeline.step (s₀, out) (u ++ (us.flatten ++ d)) = _ := h.step_message hu out _
    rw [List.flatten_cons, List.append_assoc, f.pipeline.feed_more hs, List.drop_left, ih,
      shift_shift, List.append_assoc, List.singleton_append, List.length_append]

/-- The pipeline collects the messages of a list one after another, as long as what is left
begins with one. -/
theorem Delimiter.Reads.collects_iff {s₀ : S} {M : List α → ρ → Prop} (h : f.Reads s₀ M)
    (out xs : List ρ) (d : List α) : (f.pipeline.feed (s₀, out) d).1.2 = out ++ xs ↔
      ∃ us y, d = us.flatten ++ y ∧ List.Forall₂ M us xs ∧ ∀ u x, M u x → ¬ u <+: y := by
  constructor
  · intro hxs
    generalize hq : (s₀, out) = q at hxs
    induction q, d using f.pipeline.induct generalizing out xs with
    | h q d ih =>
      subst hq
      by_cases hd : ∃ u x, M u x ∧ u <+: d
      · obtain ⟨u, x, hu, y, rfl⟩ := hd
        have hs : f.pipeline.step (s₀, out) (u ++ y) = _ := h.step_message hu out y
        rw [f.pipeline.feed_more hs, shift_fst, List.drop_left] at hxs
        obtain ⟨xs', hxs'⟩ := f.prefix_pipeline_feed (s₀, out ++ [x]) y
        obtain rfl : xs = x :: xs' := by
          rw [← hxs'] at hxs
          simpa using hxs.symm
        obtain ⟨us, z, hy, hus, hz⟩ := ih _ _ hs (out ++ [x]) xs' rfl
          (by rw [List.drop_left, ← hxs'])
        rw [List.drop_left] at hy
        exact ⟨u :: us, z, by rw [hy, List.flatten_cons, List.append_assoc], .cons hu hus, hz⟩
      · have hd : ∀ u x, M u x → ¬ u <+: d := fun u x hu hpre => hd ⟨u, x, hu, hpre⟩
        obtain ⟨s, n, hs⟩ := h.step_rest hd out
        rw [f.pipeline.feed_stop hs, List.self_eq_append_right] at hxs
        subst hxs
        exact ⟨[], d, rfl, .nil, hd⟩
  · rintro ⟨us, y, rfl, hus, hy⟩
    obtain ⟨s, n, hs⟩ := h.step_rest hy (out ++ xs)
    rw [h.feed_messages hus, shift_fst, f.pipeline.feed_stop hs]

end Pipeline

end Incremental
