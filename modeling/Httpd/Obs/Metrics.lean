import Mathlib

/-! # Worker metrics

The counters of one event-loop worker, from `metrics.hpp`. Each worker is the sole writer of its
own block. Counters are natural numbers here; the source has them modulo `2 ^ 64`, which is the
same as long as none of them gets there. A block keeps a record of what has been added to it.
-/

namespace Httpd

/-- Latencies fall into buckets by their number of bits. -/
def kLatencyBuckets : ℕ := 24

inductive Counter where
  | connectionsAccepted
  | connectionsClosed
  | connectionsTimedOut
  | acceptErrors
  | requests
  | parseErrors
  | responses (cls : Fin 6)
  | bytesReceived
  | bytesSent
  | bytesSendfile
  | loopWakeups
  | loopEvents
  | latencyBucket (b : Fin kLatencyBuckets)
  | latencySumUs
  deriving DecidableEq

structure WorkerMetrics where
  connectionsAccepted : ℕ := 0
  connectionsClosed : ℕ := 0
  connectionsTimedOut : ℕ := 0
  acceptErrors : ℕ := 0
  requests : ℕ := 0
  parseErrors : ℕ := 0
  responsesByClass : List ℕ := List.replicate 6 0
  bytesReceived : ℕ := 0
  bytesSent : ℕ := 0
  bytesSendfile : ℕ := 0
  loopWakeups : ℕ := 0
  loopEvents : ℕ := 0
  latencyBuckets : List ℕ := List.replicate kLatencyBuckets 0
  latencySumUs : ℕ := 0
  /-- Not a counter: what `bump` has been called with. -/
  trace : List (Counter × ℕ) := []
  deriving DecidableEq

def bumpAt (n : ℕ) (counters : List ℕ) (i : ℕ) : List ℕ := counters.modify i (· + n)

theorem sum_bumpAt {l : List ℕ} {i : ℕ} (h : i < l.length) (n : ℕ) :
    (bumpAt n l i).sum = l.sum + n := by
  unfold bumpAt
  induction l generalizing i with
  | nil => cases h
  | cons a l ih =>
    cases i with
    | zero => simp only [List.modify_zero_cons, List.sum_cons]; omega
    | succ i =>
      rw [List.modify_succ_cons, List.sum_cons, List.sum_cons, ih (Nat.lt_of_succ_lt_succ h)]
      omega

@[simp] theorem length_bumpAt (n : ℕ) (l : List ℕ) (i : ℕ) : (bumpAt n l i).length = l.length :=
  List.length_modify ..

theorem drop_one_bumpAt (n : ℕ) (l : List ℕ) (i : ℕ) :
    (bumpAt n l (i + 1)).drop 1 = bumpAt n (l.drop 1) i := by
  cases l <;> simp [bumpAt]

theorem getD_bumpAt {l : List ℕ} {j : ℕ} (hj : j < l.length) (n i : ℕ) :
    (bumpAt n l j).getD i 0 = l.getD i 0 + if j = i then n else 0 := by
  unfold bumpAt
  rw [List.getD_eq_getElem?_getD, List.getElem?_modify, List.getD_eq_getElem?_getD]
  split
  · next h =>
    subst h
    simp [hj]
  · simp

namespace WorkerMetrics

variable (w : WorkerMetrics)

def bump (c : Counter) (n : ℕ := 1) : WorkerMetrics :=
  let w := { w with trace := w.trace ++ [(c, n)] }
  match c with
  | .connectionsAccepted => { w with connectionsAccepted := w.connectionsAccepted + n }
  | .connectionsClosed => { w with connectionsClosed := w.connectionsClosed + n }
  | .connectionsTimedOut => { w with connectionsTimedOut := w.connectionsTimedOut + n }
  | .acceptErrors => { w with acceptErrors := w.acceptErrors + n }
  | .requests => { w with requests := w.requests + n }
  | .parseErrors => { w with parseErrors := w.parseErrors + n }
  | .responses cls => { w with responsesByClass := bumpAt n w.responsesByClass cls }
  | .bytesReceived => { w with bytesReceived := w.bytesReceived + n }
  | .bytesSent => { w with bytesSent := w.bytesSent + n }
  | .bytesSendfile => { w with bytesSendfile := w.bytesSendfile + n }
  | .loopWakeups => { w with loopWakeups := w.loopWakeups + n }
  | .loopEvents => { w with loopEvents := w.loopEvents + n }
  | .latencyBucket b => { w with latencyBuckets := bumpAt n w.latencyBuckets b }
  | .latencySumUs => { w with latencySumUs := w.latencySumUs + n }

theorem bump_trace (c : Counter) (n : ℕ) : (w.bump c n).trace = w.trace ++ [(c, n)] := by
  cases c <;> rfl

@[simp] theorem bump_parseErrors_requests (n : ℕ) :
    (w.bump .parseErrors n).requests = w.requests := rfl

theorem bucket_lt (us : ℕ) : min us.size (kLatencyBuckets - 1) < kLatencyBuckets :=
  (min_le_right _ _).trans_lt (by decide)

def observeLatencyUs (us : ℕ) : WorkerMetrics :=
  (w.bump (.latencyBucket ⟨min us.size (kLatencyBuckets - 1), bucket_lt us⟩)).bump .latencySumUs us

theorem class_lt {cls : ℕ} (h : 1 ≤ cls ∧ cls ≤ 5) : cls < 6 := Nat.lt_succ_of_le h.2

def recordStatus (status : ℕ) : WorkerMetrics :=
  let w := w.bump .requests
  if h : 1 ≤ status / 100 ∧ status / 100 ≤ 5 then w.bump (.responses ⟨status / 100, class_lt h⟩)
  else w

theorem exists_recordStatus (status : ℕ) : ∃ classes trace, w.recordStatus status =
    { w with requests := w.requests + 1, responsesByClass := classes, trace := trace } := by
  unfold recordStatus
  dsimp only
  split <;> exact ⟨_, _, rfl⟩

end WorkerMetrics

end Httpd
