import Httpd.Library.Slice
import Httpd.Parser.Basic

/-! # The input buffer

The buffer of `byte_buffer.hpp`: a block of memory with a reading and a writing position. It
is a queue of bytes, whichever way it makes room. A run of the buffer is compared with a queue
that notes the sizes it was asked for, so that the capacity can be bounded by these.
-/

namespace Httpd

open Slice

structure ByteBuffer where
  /-- The block of memory. -/
  data : Bytes := []
  cap : ℕ := 0
  rpos : ℕ := 0
  wpos : ℕ := 0

namespace ByteBuffer

variable (b : ByteBuffer)

def size : ℕ := wrapSub b.wpos b.rpos

def readable : Bytes := slice b.data b.rpos b.size

def empty : Bool := b.rpos == b.wpos

def consume (n : ℕ) : ByteBuffer :=
  let rpos := wrap (b.rpos + n)
  if rpos = b.wpos then { b with rpos := 0, wpos := 0 } else { b with rpos := rpos }

def growLoop (live n : ℕ) : ℕ → ℕ → Option ℕ
  | 0, _ => none
  | fuel + 1, newCap =>
    if wrapSub newCap live < n then growLoop live n fuel (wrap (newCap * 2)) else some newCap

def startCap : ℕ := if b.cap = 0 then 4096 else b.cap

/-- Make room for `n` bytes. New memory has arbitrary content. -/
def prepare (fuel : ℕ) (junk : ℕ → UInt8) (n : ℕ) : Option ByteBuffer :=
  if n ≤ wrapSub b.cap b.wpos then some b
  else
    let live := b.size
    let kept := slice b.data b.rpos live
    if 0 < b.rpos && n ≤ wrapSub b.cap live then
      -- compact in place
      some { b with data := overwrite b.data 0 kept, rpos := 0, wpos := live }
    else
      (growLoop live n fuel b.startCap).map fun newCap =>
        { data := overwrite ((List.range newCap).map junk) 0 kept
          cap := newCap
          rpos := 0
          wpos := live }

def writable : ℕ := wrapSub b.cap b.wpos

/-- What a caller does with the memory it was given. -/
def write (d : Bytes) : ByteBuffer := { b with data := overwrite b.data b.wpos d }

def commit (n : ℕ) : ByteBuffer := { b with wpos := wrap (b.wpos + n) }

/-- A queue of bytes. It notes the greatest length at which room was asked for, the greatest
room, and how much of the last room is left. -/
structure Queue where
  content : Bytes := []
  live : ℕ := 0
  want : ℕ := 0
  room : ℕ := 0

def Queue.ask (q : Queue) (n : ℕ) : Queue :=
  { q with live := max q.live q.content.length, want := max q.want n, room := n }

/-- The operations of a buffer: room is asked for, bytes are written to it and some of these
committed, and bytes are consumed. -/
inductive Op where
  | prepare (n : ℕ) (junk : ℕ → UInt8)
  | commit (d : Bytes) (m : ℕ)
  | consume (k : ℕ)

namespace Op

def run (fuel : ℕ) (b : ByteBuffer) : Op → Option ByteBuffer
  | .prepare n junk => b.prepare fuel junk n
  | .commit d m => some ((b.write d).commit m)
  | .consume k => some (b.consume k)

def apply (q : Queue) : Op → Queue
  | .prepare n _ => q.ask n
  | .commit d m => { q with content := q.content ++ d.take m, room := q.room - m }
  | .consume k => { q with content := q.content.drop k, room := 0 }

/-- No more is committed than written, no more written than there is room for, and no more consumed
than there is. The room is lost when bytes are consumed: its place may have changed. -/
def Fits (q : Queue) : Op → Prop
  | .prepare _ _ => True
  | .commit d m => m ≤ d.length ∧ d.length ≤ q.room
  | .consume k => k ≤ q.content.length

instance (q : Queue) : (o : Op) → Decidable (o.Fits q)
  | .prepare _ _ => isTrue trivial
  | .commit _ _ => inferInstanceAs (Decidable (_ ∧ _))
  | .consume _ => inferInstanceAs (Decidable (_ ≤ _))

end Op

def run (fuel : ℕ) (ops : List Op) : Option ByteBuffer := ops.foldlM (Op.run fuel) {}

def queue (ops : List Op) : Queue := ops.foldl Op.apply {}

def Fit (ops : List Op) : Prop := AtEach (fun before o => o.Fits (queue before)) ops

/-- The buffer holds the content of the queue, and is not larger than the queue has asked for. -/
structure Holds (b : ByteBuffer) (q : Queue) : Prop where
  rpos_le : b.rpos ≤ b.wpos
  wpos_le : b.wpos ≤ b.cap
  block : b.data.length = b.cap
  readable : slice b.data b.rpos (b.wpos - b.rpos) = q.content
  bound : b.cap ≤ 4096 ∨ b.cap < 2 * (q.live + q.want)
  room : q.room ≤ b.cap - b.wpos

/-- What the queue has asked for can be had. -/
def Queue.Small (q : Queue) : Prop := q.live + q.want ≤ 2 ^ 63

instance (q : Queue) : Decidable q.Small := inferInstanceAs (Decidable (_ ≤ _))

variable {b} {q : Queue} {n : ℕ}

theorem Holds.cap_lt (h : b.Holds q) (hq : q.Small) : b.cap < 2 ^ 64 := by
  unfold Queue.Small at hq
  rcases h.bound with h | h <;> omega

theorem Holds.length_content (h : b.Holds q) : q.content.length = b.wpos - b.rpos := by
  have hle := h.wpos_le
  rw [← h.readable, length_slice (by rw [h.block]; have := h.rpos_le; omega)]

theorem Holds.size_eq (h : b.Holds q) (hq : q.Small) : b.size = q.content.length := by
  rw [h.length_content]
  exact wrapSub_of_le h.rpos_le (h.wpos_le.trans_lt (h.cap_lt hq))

theorem Holds.readable_eq (h : b.Holds q) (hq : q.Small) : b.readable = q.content := by
  rw [ByteBuffer.readable, h.size_eq hq, h.length_content, h.readable]

theorem Holds.writable_eq (h : b.Holds q) (hq : q.Small) : b.writable = b.cap - b.wpos :=
  wrapSub_of_le h.wpos_le (h.cap_lt hq)

theorem Holds.consume {k : ℕ} (h : b.Holds q) (hq : q.Small) (hk : k ≤ q.content.length) :
    (b.consume k).Holds ((Op.consume k).apply q) := by
  have hlen := h.length_content
  have hcap := h.cap_lt hq
  have hle := h.rpos_le
  have hle' := h.wpos_le
  have hpos : wrap (b.rpos + k) = b.rpos + k := Nat.mod_eq_of_lt (by omega)
  unfold ByteBuffer.consume
  dsimp only
  rw [hpos]
  split
  · next hend =>
    refine ⟨le_rfl, Nat.zero_le _, h.block, ?_, h.bound, Nat.zero_le _⟩
    rw [Op.apply, List.drop_eq_nil_of_le (by omega)]
    exact slice_zero
  · refine ⟨by dsimp only; omega, hle', h.block, ?_, h.bound, Nat.zero_le _⟩
    dsimp only [Op.apply]
    rw [← h.readable, drop_slice, Nat.sub_sub]

/-- The loop ends after some doublings. No subtraction on its way goes below zero and no product
above the range. -/
theorem exists_growLoop {live n c fuel : ℕ} (hc : live ≤ c) (hpos : 0 < c) (hlt : c < 2 ^ 64)
    (hsmall : live + n ≤ 2 ^ 63) (hfuel : live + n ≤ c * 2 ^ fuel) :
    ∃ k, growLoop live n (fuel + 1) c = some (c * 2 ^ k) ∧
      (∀ j ≤ k, live ≤ c * 2 ^ j ∧ c * 2 ^ j < 2 ^ 64) ∧ (∀ j < k, c * 2 ^ j < live + n) ∧
      live + n ≤ c * 2 ^ k := by
  induction fuel generalizing c with
  | zero =>
    refine ⟨0, ?_, fun j hj => ?_, fun j hj => by omega, by simpa using hfuel⟩
    · rw [growLoop, wrapSub_of_le hc hlt, if_neg (by omega), pow_zero, Nat.mul_one]
    · obtain rfl := Nat.le_zero.mp hj
      simpa using ⟨hc, hlt⟩
  | succ fuel ih =>
    rw [growLoop, wrapSub_of_le hc hlt]
    by_cases hdone : live + n ≤ c
    · refine ⟨0, by rw [if_neg (by omega), pow_zero, Nat.mul_one], fun j hj => ?_,
        fun j hj => by omega, by simpa using hdone⟩
      obtain rfl := Nat.le_zero.mp hj
      simpa using ⟨hc, hlt⟩
    · have hdouble : wrap (c * 2) = c * 2 := Nat.mod_eq_of_lt (by omega)
      have hnext : c * 2 * 2 ^ fuel = c * 2 ^ (fuel + 1) := by rw [pow_succ']; ring
      obtain ⟨k, hrun, hrange, hbefore, hend⟩ :=
        ih (by omega) (by omega) (by omega) (hnext ▸ hfuel)
      have hshift : ∀ j, c * 2 * 2 ^ j = c * 2 ^ (j + 1) := fun j => by rw [pow_succ']; ring
      rw [if_pos (by omega), hdouble, hrun]
      refine ⟨k + 1, by rw [hshift], fun j hj => ?_, fun j hj => ?_, by rwa [← hshift]⟩
      · cases j with
        | zero => simpa using ⟨hc, hlt⟩
        | succ j => rw [← hshift]; exact hrange j (by omega)
      · cases j with
        | zero => simpa using (by omega : c < live + n)
        | succ j => rw [← hshift]; exact hbefore j (by omega)

theorem le_startCap : b.cap ≤ b.startCap := by
  unfold startCap
  split <;> omega

theorem startCap_le : b.startCap ≤ max 4096 b.cap := by
  unfold startCap
  split <;> omega

theorem startCap_pos : 0 < b.startCap := by
  unfold startCap
  split <;> omega

theorem Queue.Small.of_ask (h : (q.ask n).Small) : q.Small := by
  simp only [Queue.Small, Queue.ask] at h ⊢
  omega

theorem Queue.Small.length_add (h : (q.ask n).Small) : q.content.length + n ≤ 2 ^ 63 := by
  simp only [Queue.Small, Queue.ask] at h
  omega

theorem Holds.exists_growLoop {fuel : ℕ} (h : b.Holds q) (hq : (q.ask n).Small)
    (hfuel : 64 ≤ fuel) :
    ∃ k, growLoop q.content.length n fuel b.startCap = some (b.startCap * 2 ^ k) ∧
      (∀ j ≤ k, q.content.length ≤ b.startCap * 2 ^ j ∧ b.startCap * 2 ^ j < 2 ^ 64) ∧
      (∀ j < k, b.startCap * 2 ^ j < q.content.length + n) ∧
      q.content.length + n ≤ b.startCap * 2 ^ k := by
  have hcap := h.cap_lt hq.of_ask
  have hlen := h.length_content
  have hwpos := h.wpos_le
  have hle : b.cap ≤ b.startCap := le_startCap
  have hle' : b.startCap ≤ max 4096 b.cap := startCap_le
  have hpos : 0 < b.startCap := startCap_pos
  have hsmall := hq.length_add
  obtain ⟨fuel, rfl⟩ : ∃ f, fuel = f + 1 := ⟨fuel - 1, by omega⟩
  have hpow : 2 ^ 63 ≤ b.startCap * 2 ^ fuel :=
    calc 2 ^ 63 ≤ 2 ^ fuel := Nat.pow_le_pow_right (by decide) (by omega)
      _ ≤ b.startCap * 2 ^ fuel := Nat.le_mul_of_pos_left _ hpos
  exact ByteBuffer.exists_growLoop (by omega) hpos (by omega) hsmall (by omega)

theorem Holds.prepare {fuel : ℕ} (h : b.Holds q) (hq : (q.ask n).Small) (hfuel : 64 ≤ fuel)
    (junk : ℕ → UInt8) : ∃ b', b.prepare fuel junk n = some b' ∧ b'.Holds (q.ask n) := by
  have hlen := h.length_content
  have hrpos := h.rpos_le
  have hwpos := h.wpos_le
  have hcap := h.cap_lt hq.of_ask
  have hlive : q.content.length ≤ (q.ask n).live := le_max_right _ _
  have hwant : n ≤ (q.ask n).want := le_max_right _ _
  have hbound : b.cap ≤ 4096 ∨ b.cap < 2 * ((q.ask n).live + (q.ask n).want) := by
    have hmono : q.live ≤ (q.ask n).live ∧ q.want ≤ (q.ask n).want :=
      ⟨le_max_left _ _, le_max_left _ _⟩
    rcases h.bound with h | h
    · exact .inl h
    · right; omega
  unfold ByteBuffer.prepare
  rw [wrapSub_of_le hwpos hcap]
  by_cases hplace : n ≤ b.cap - b.wpos
  · rw [if_pos hplace]
    exact ⟨b, rfl, hrpos, hwpos, h.block, h.readable, hbound, hplace⟩
  rw [if_neg hplace]
  have hkept : slice b.data b.rpos q.content.length = q.content := by rw [hlen, h.readable]
  have hfront {l : Bytes} : slice (overwrite l 0 q.content) 0 q.content.length = q.content :=
    slice_overwrite_self (Nat.zero_le _)
  dsimp only
  rw [h.size_eq hq.of_ask, wrapSub_of_le (by omega) hcap, hkept]
  by_cases hcompact : 0 < b.rpos ∧ n ≤ b.cap - q.content.length
  · rw [if_pos (by simpa using hcompact)]
    refine ⟨_, rfl, Nat.zero_le _, by dsimp only; omega, ?_, hfront, hbound, hcompact.2⟩
    rw [length_overwrite (by rw [h.block]; omega), h.block]
  · rw [if_neg (by simpa using hcompact)]
    have hle : b.startCap ≤ max 4096 b.cap := startCap_le
    obtain ⟨k, hrun, hrange, hbefore, hend⟩ := h.exists_growLoop hq hfuel
    generalize b.startCap = c at hle hrun hrange hbefore hend ⊢
    have hlast := (hrange k le_rfl).1
    rw [hrun]
    refine ⟨_, rfl, Nat.zero_le _, hlast, ?_, hfront, ?_, ?_⟩
    · rw [length_overwrite (by simpa using hlast)]
      simp
    · dsimp only
      cases k with
      | zero =>
        -- no doubling: the least block is enough, or the old capacity
        rw [pow_zero, Nat.mul_one]
        omega
      | succ k =>
        have hstep := hbefore k (Nat.lt_succ_self k)
        rw [pow_succ, ← Nat.mul_assoc]
        omega
    · dsimp only [Queue.ask]
      omega

theorem Holds.commit {d : Bytes} {m : ℕ} (h : b.Holds q) (hq : q.Small) (hm : m ≤ d.length)
    (hd : d.length ≤ q.room) : ((b.write d).commit m).Holds ((Op.commit d m).apply q) := by
  have hrpos := h.rpos_le
  have hwpos := h.wpos_le
  have hblock := h.block
  have hroom := h.room
  have hcap := h.cap_lt hq
  have hmod : wrap (b.wpos + m) = b.wpos + m := Nat.mod_eq_of_lt (by omega)
  have hpos : (b.write d).commit m = { b.write d with wpos := b.wpos + m } := by
    rw [← hmod]
    rfl
  have hsplit : b.wpos + m - b.rpos = (b.wpos - b.rpos) + m := by omega
  have hmid : b.rpos + (b.wpos - b.rpos) = b.wpos := by omega
  rw [hpos]
  refine ⟨?_, ?_, ?_, ?_, h.bound, ?_⟩ <;> dsimp only [write, Op.apply]
  · omega
  · omega
  · exact (length_overwrite (by omega)).trans hblock
  · rw [hsplit, slice_add, hmid, slice_overwrite_of_le (by omega) (by omega),
      slice_overwrite_take (by omega) hm, h.readable]
  · omega

theorem run_concat (fuel : ℕ) (ops : List Op) (o : Op) :
    run fuel (ops ++ [o]) = (run fuel ops).bind fun b => o.run fuel b := by
  rw [run, List.foldlM_append, run]
  exact congrArg _ (funext fun b => by rw [List.foldlM_cons]; exact bind_pure _)

theorem queue_concat (ops : List Op) (o : Op) : queue (ops ++ [o]) = o.apply (queue ops) := by
  rw [queue, List.foldl_append, queue]
  rfl

theorem Queue.Small.of_apply {o : Op} (h : (o.apply q).Small) : q.Small := by
  cases o with
  | prepare n junk => exact of_ask h
  | commit d m => exact h
  | consume k => exact h

theorem Holds.run_op {fuel : ℕ} {o : Op} (h : b.Holds q) (hq : (o.apply q).Small)
    (hfit : o.Fits q) (hfuel : 64 ≤ fuel) :
    ∃ b', o.run fuel b = some b' ∧ b'.Holds (o.apply q) := by
  cases o with
  | prepare n junk => exact h.prepare hq hfuel junk
  | commit d m => exact ⟨_, rfl, h.commit hq.of_apply hfit.1 hfit.2⟩
  | consume k => exact ⟨_, rfl, h.consume hq.of_apply hfit⟩

/-- The buffer is the queue, over any run. -/
theorem exists_run {fuel : ℕ} {ops : List Op} (hfit : Fit ops) (hsmall : (queue ops).Small)
    (hfuel : 64 ≤ fuel) : ∃ b, run fuel ops = some b ∧ b.Holds (queue ops) := by
  induction ops using List.reverseRecOn with
  | nil => exact ⟨{}, rfl, le_rfl, le_rfl, rfl, rfl, .inl (Nat.zero_le _), le_rfl⟩
  | append_singleton ops o ih =>
    rw [Fit, atEach_concat] at hfit
    rw [queue_concat] at hsmall ⊢
    obtain ⟨b, hb, hholds⟩ := ih hfit.1 hsmall.of_apply
    rw [run_concat, hb, Option.bind_some]
    exact hholds.run_op hsmall hfit.2 hfuel

end ByteBuffer

end Httpd
