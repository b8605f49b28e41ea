import Httpd.Http.Response
import Httpd.Obs.Metrics

/-! # The metrics page

The text of `metrics.cpp`. Counters are printed as floating-point numbers; the numbers and
the two ways to print them are parameters. Latencies are sorted by their number of bits, so
that a bucket counts the samples below a power of two, while the bound it is printed with
is inclusive.
-/

namespace Httpd

/-- The floating-point numbers of the page. -/
structure Doubles (δ : Type) where
  ofNat : ℕ → δ
  /-- Division by `1e6`. -/
  micro : δ → δ
  /-- The format `%.17g`. -/
  long : δ → Bytes
  /-- The format `%g`. -/
  short : δ → Bytes

namespace Prometheus

variable {δ : Type} (d : Doubles δ)

def header (name type help : String) : Bytes :=
  text "# HELP " ++ text name ++ text " " ++ text help ++ text "\n" ++
    text "# TYPE " ++ text name ++ text " " ++ text type ++ text "\n"

def sample (name : String) (labels : Bytes) (value : δ) : Bytes :=
  text name ++ (if labels.isEmpty then [] else text "\x7b" ++ labels ++ text "\x7d") ++
    text " " ++ d.long value ++ text "\n"

def workerLabel (i : ℕ) : Bytes := text "worker=\"" ++ appendNumber 10 i ++ text "\""

def eachWorker (ws : List WorkerMetrics) (name : String) (value : WorkerMetrics → ℕ) : Bytes :=
  (ws.mapIdx fun i w => sample d name (workerLabel i) (d.ofNat (value w))).flatten

def perWorker (ws : List WorkerMetrics) (name type help : String) (field : WorkerMetrics → ℕ) :
    Bytes :=
  header name type help ++ eachWorker d ws name field

def sumOver (ws : List WorkerMetrics) (field : WorkerMetrics → ℕ) (start : ℕ) : ℕ :=
  ws.foldl (fun sum w => sum + field w) start

def total (ws : List WorkerMetrics) (name help : String) (field : WorkerMetrics → ℕ) : Bytes :=
  header name "counter" help ++ sample d name [] (d.ofNat (sumOver ws field 0))

def responsesByClass (ws : List WorkerMetrics) : Bytes :=
  header "httpd_responses_total" "counter" "Responses by status class." ++
    ((List.range' 1 5).map fun cls =>
      sample d "httpd_responses_total" (text "code=\"" ++ appendNumber 10 cls ++ text "xx\"")
        (d.ofNat (sumOver ws (·.responsesByClass.getD cls 0) 0))).flatten

def le (b : ℕ) : Bytes := text "le=\"" ++ d.short (d.micro (d.ofNat (2 ^ b))) ++ text "\""

def bucket (labels : Bytes) (count : ℕ) : Bytes :=
  sample d "httpd_request_duration_seconds_bucket" labels (d.ofNat count)

/-- The loop over the buckets: the lines it writes and the count it ends with. -/
def bucketLoop (ws : List WorkerMetrics) : List ℕ → ℕ → Bytes × ℕ
  | [], cumulative => ([], cumulative)
  | b :: bs, cumulative =>
    let cumulative := sumOver ws (·.latencyBuckets.getD b 0) cumulative
    -- the last bucket is open-ended
    if b + 1 == kLatencyBuckets then ([], cumulative)
    else
      let rest := bucketLoop ws bs cumulative
      (bucket d (le d b) cumulative ++ rest.1, rest.2)

def latencyHeader : Bytes :=
  header "httpd_request_duration_seconds" "histogram"
    "Time from the first byte of a request until its response is queued."

def latencies (ws : List WorkerMetrics) : Bytes :=
  let loop := bucketLoop d ws (List.range kLatencyBuckets) 0
  latencyHeader ++ loop.1 ++ bucket d (text "le=\"+Inf\"") loop.2 ++
    sample d "httpd_request_duration_seconds_sum" []
      (d.micro (d.ofNat (sumOver ws (·.latencySumUs) 0))) ++
    sample d "httpd_request_duration_seconds_count" [] (d.ofNat loop.2)

def counters (ws : List WorkerMetrics) (uptime : δ) : Bytes :=
  header "httpd_uptime_seconds" "gauge" "Seconds since the server started." ++
    sample d "httpd_uptime_seconds" [] uptime ++
    header "httpd_connections_active" "gauge" "Open client connections per worker." ++
    -- the subtraction is cut off at zero
    eachWorker d ws "httpd_connections_active"
      (fun w => w.connectionsAccepted - w.connectionsClosed) ++
    perWorker d ws "httpd_connections_accepted_total" "counter" "Accepted TCP connections."
      (·.connectionsAccepted) ++
    perWorker d ws "httpd_requests_total" "counter" "Requests dispatched to a handler."
      (·.requests) ++
    total d ws "httpd_connections_timed_out_total" "Connections closed by idle/header timeouts."
      (·.connectionsTimedOut) ++
    total d ws "httpd_accept_errors_total" "accept4() failures (EMFILE, ENOBUFS, ...)."
      (·.acceptErrors) ++
    total d ws "httpd_parse_errors_total" "Requests rejected by the HTTP parser."
      (·.parseErrors) ++
    total d ws "httpd_bytes_received_total" "Bytes read from client sockets."
      (·.bytesReceived) ++
    total d ws "httpd_bytes_sent_total" "Bytes written to client sockets (all paths)."
      (·.bytesSent) ++
    total d ws "httpd_bytes_sendfile_total" "Bytes sent zero-copy via sendfile(2)."
      (·.bytesSendfile) ++
    perWorker d ws "httpd_eventloop_wakeups_total" "counter" "epoll_wait() returns."
      (·.loopWakeups) ++
    perWorker d ws "httpd_eventloop_events_total" "counter" "Events delivered by epoll_wait()."
      (·.loopEvents) ++
    responsesByClass d ws

def renderPrometheus (ws : List WorkerMetrics) (uptime : δ) : Bytes :=
  counters d ws uptime ++ latencies d ws

/-- The numbers of a histogram of latencies, in microseconds. -/
structure Histogram where
  /-- The counts up to each bound. -/
  counts : List ℕ
  total : ℕ
  sum : ℕ

/-- A histogram as it stands on the page: the bucket of index `b` has the bound `2 ^ b`. -/
def Histogram.text (h : Histogram) : Bytes :=
  latencyHeader ++ (h.counts.mapIdx fun b n => bucket d (le d b) n).flatten ++
    bucket d (Httpd.text "le=\"+Inf\"") h.total ++
    sample d "httpd_request_duration_seconds_sum" [] (d.micro (d.ofNat h.sum)) ++
    sample d "httpd_request_duration_seconds_count" [] (d.ofNat h.total)

/-- The samples in the buckets up to an index. -/
def cumulative (ws : List WorkerMetrics) (b : ℕ) : ℕ :=
  ((List.range (b + 1)).map fun i => (ws.map (·.latencyBuckets.getD i 0)).sum).sum

def histogramOf (ws : List WorkerMetrics) : Histogram where
  counts := (List.range (kLatencyBuckets - 1)).map (cumulative ws)
  total := cumulative ws (kLatencyBuckets - 1)
  sum := (ws.map (·.latencySumUs)).sum

theorem sumOver_eq (ws : List WorkerMetrics) (field : WorkerMetrics → ℕ) (start : ℕ) :
    sumOver ws field start = start + (ws.map field).sum := by
  unfold sumOver
  induction ws generalizing start with
  | nil => rfl
  | cons w ws ih => rw [List.foldl_cons, ih, List.map_cons, List.sum_cons, Nat.add_assoc]

theorem cumulative_succ (ws : List WorkerMetrics) (b : ℕ) :
    cumulative ws (b + 1) = cumulative ws b + (ws.map (·.latencyBuckets.getD (b + 1) 0)).sum := by
  unfold cumulative
  rw [List.range_succ (n := b + 1), List.map_append, List.sum_append]
  simp

theorem bucketLoop_eq (ws : List WorkerMetrics) {n b c : ℕ} (hn : b + n + 1 = kLatencyBuckets)
    (hc : c + (ws.map (·.latencyBuckets.getD b 0)).sum = cumulative ws b) :
    bucketLoop d ws (List.range' b (n + 1)) c =
      (((List.range' b n).map fun i => bucket d (le d i) (cumulative ws i)).flatten,
        cumulative ws (kLatencyBuckets - 1)) := by
  induction n generalizing b c with
  | zero =>
    obtain rfl : b = kLatencyBuckets - 1 := by omega
    rw [List.range'_one, bucketLoop, sumOver_eq, hc]
    rfl
  | succ n ih =>
    have hlast : (b + 1 == kLatencyBuckets) = false := by
      rw [beq_eq_false_iff_ne]
      omega
    rw [List.range'_succ, bucketLoop, sumOver_eq, hc, hlast,
      ih (by omega) (cumulative_succ ws b).symm]
    simp [List.range'_succ]

theorem latencies_eq (ws : List WorkerMetrics) : latencies d ws = (histogramOf ws).text d := by
  have hloop : bucketLoop d ws (List.range kLatencyBuckets) 0 = _ :=
    List.range_eq_range' ▸ bucketLoop_eq d ws (n := kLatencyBuckets - 1) rfl (by simp [cumulative])
  have hcounts : ((List.range (kLatencyBuckets - 1)).map (cumulative ws)).mapIdx
      (fun b n => bucket d (le d b) n) =
      (List.range' 0 (kLatencyBuckets - 1)).map fun b => bucket d (le d b) (cumulative ws b) :=
    List.ext_getElem (by simp) fun i h h' => by simp
  unfold latencies Histogram.text histogramOf
  dsimp only
  rw [hloop, hcounts, sumOver_eq, Nat.zero_add]

theorem renderPrometheus_eq (ws : List WorkerMetrics) (uptime : δ) :
    renderPrometheus d ws uptime = counters d ws uptime ++ (histogramOf ws).text d := by
  rw [renderPrometheus, latencies_eq]

def bucketOf (us : ℕ) : ℕ := min us.size (kLatencyBuckets - 1)

theorem bucketOf_le_iff {us b : ℕ} (hb : b < kLatencyBuckets - 1) :
    bucketOf us ≤ b ↔ us < 2 ^ b := by
  unfold bucketOf
  rw [← Nat.size_le]
  omega

end Prometheus

/-- The latencies in a block of metrics are these samples. The other counters are free. -/
structure WorkerMetrics.Recorded (w : WorkerMetrics) (samples : List ℕ) : Prop where
  buckets : w.latencyBuckets =
    (samples.foldl WorkerMetrics.observeLatencyUs {}).latencyBuckets
  sum : w.latencySumUs = (samples.foldl WorkerMetrics.observeLatencyUs {}).latencySumUs

namespace Prometheus

theorem getD_foldl_observe {w : WorkerMetrics} (hw : w.latencyBuckets.length = kLatencyBuckets)
    (samples : List ℕ) (i : ℕ) :
    (samples.foldl WorkerMetrics.observeLatencyUs w).latencyBuckets.getD i 0 =
      w.latencyBuckets.getD i 0 + samples.countP (bucketOf · = i) := by
  induction samples generalizing w with
  | nil => rfl
  | cons us samples ih =>
    have hlt : bucketOf us < w.latencyBuckets.length := by
      rw [hw]
      exact WorkerMetrics.bucket_lt us
    have hlen : (w.observeLatencyUs us).latencyBuckets.length = kLatencyBuckets :=
      (List.length_modify ..).trans hw
    have hbump : (w.observeLatencyUs us).latencyBuckets.getD i 0 =
        w.latencyBuckets.getD i 0 + if bucketOf us = i then 1 else 0 := getD_bumpAt hlt 1 i
    rw [List.foldl_cons, ih hlen, hbump, List.countP_cons]
    simp only [decide_eq_true_eq]
    omega

theorem sum_foldl_observe (w : WorkerMetrics) (samples : List ℕ) :
    (samples.foldl WorkerMetrics.observeLatencyUs w).latencySumUs =
      w.latencySumUs + samples.sum := by
  induction samples generalizing w with
  | nil => rfl
  | cons us samples ih =>
    rw [List.foldl_cons, ih, List.sum_cons, ← Nat.add_assoc]
    rfl

end Prometheus

namespace WorkerMetrics.Recorded

open Prometheus

variable {w : WorkerMetrics} {samples : List ℕ}

theorem getD_buckets (h : w.Recorded samples) (i : ℕ) :
    w.latencyBuckets.getD i 0 = samples.countP (bucketOf · = i) := by
  have hzero : (List.replicate kLatencyBuckets 0).getD i 0 = 0 := by
    rw [List.getD_eq_getElem?_getD, List.getElem?_replicate]
    split <;> rfl
  rw [h.buckets, getD_foldl_observe rfl, hzero, Nat.zero_add]

theorem sum_eq (h : w.Recorded samples) : w.latencySumUs = samples.sum := by
  rw [h.sum, sum_foldl_observe, Nat.zero_add]

end WorkerMetrics.Recorded

namespace Prometheus

theorem countP_le_succ (samples : List ℕ) (b : ℕ) :
    samples.countP (bucketOf · ≤ b + 1) =
      samples.countP (bucketOf · ≤ b) + samples.countP (bucketOf · = b + 1) := by
  induction samples with
  | nil => rfl
  | cons us samples ih =>
    simp only [List.countP_cons, ih, decide_eq_true_eq]
    split <;> split <;> split <;> omega

variable {ws : List (WorkerMetrics × List ℕ)}

/-- What each worker has of its own samples, all have together of all the samples. -/
theorem sum_workers {f : WorkerMetrics → ℕ} {g : List ℕ → ℕ} (hnil : g [] = 0)
    (happend : ∀ a b, g (a ++ b) = g a + g b) (hws : ∀ w ∈ ws, f w.1 = g w.2) :
    ((ws.map Prod.fst).map f).sum = g (ws.flatMap Prod.snd) := by
  induction ws with
  | nil => exact hnil.symm
  | cons w ws ih =>
    rw [List.map_cons, List.map_cons, List.sum_cons, List.flatMap_cons, happend,
      hws w List.mem_cons_self, ih fun w h => hws w (List.mem_cons_of_mem _ h)]

theorem sum_buckets (hws : ∀ w ∈ ws, w.1.Recorded w.2) (i : ℕ) :
    ((ws.map Prod.fst).map (·.latencyBuckets.getD i 0)).sum =
      (ws.flatMap Prod.snd).countP (bucketOf · = i) :=
  sum_workers rfl (fun _ _ => List.countP_append) fun w h => (hws w h).getD_buckets i

theorem sum_sums (hws : ∀ w ∈ ws, w.1.Recorded w.2) :
    ((ws.map Prod.fst).map (·.latencySumUs)).sum = (ws.flatMap Prod.snd).sum :=
  sum_workers rfl (fun _ _ => List.sum_append) fun w h => (hws w h).sum_eq

theorem cumulative_eq (hws : ∀ w ∈ ws, w.1.Recorded w.2) (b : ℕ) :
    cumulative (ws.map Prod.fst) b = (ws.flatMap Prod.snd).countP (bucketOf · ≤ b) := by
  induction b with
  | zero => simpa [cumulative] using sum_buckets hws 0
  | succ b ih => rw [cumulative_succ, ih, sum_buckets hws, countP_le_succ]

/-- A bucket counts the samples below its bound. -/
theorem cumulative_lt (hws : ∀ w ∈ ws, w.1.Recorded w.2) {b : ℕ} (hb : b < kLatencyBuckets - 1) :
    cumulative (ws.map Prod.fst) b = (ws.flatMap Prod.snd).countP (· < 2 ^ b) := by
  rw [cumulative_eq hws]
  simp only [bucketOf_le_iff hb]

theorem cumulative_last (hws : ∀ w ∈ ws, w.1.Recorded w.2) :
    cumulative (ws.map Prod.fst) (kLatencyBuckets - 1) = (ws.flatMap Prod.snd).length := by
  rw [cumulative_eq hws, List.countP_eq_length]
  exact fun us _ => decide_eq_true (min_le_right _ _)

theorem countP_lt_eq_countP_le_iff (samples : List ℕ) (n : ℕ) :
    samples.countP (· < n) = samples.countP (· ≤ n) ↔ n ∉ samples := by
  have hsplit : samples.countP (· ≤ n) = samples.countP (· < n) + samples.count n := by
    induction samples with
    | nil => rfl
    | cons us samples ih =>
      simp only [List.countP_cons, List.count_cons, ih, decide_eq_true_eq, beq_iff_eq]
      split <;> split <;> split <;> omega
  rw [hsplit, ← List.count_eq_zero]
  omega

/-- The page ends with a histogram of all samples whose total and sum are right. The count of a
bucket is right when no sample is the very bound of the bucket. -/
theorem latency_histogram_iff (hws : ∀ w ∈ ws, w.1.Recorded w.2) :
    let samples := ws.flatMap Prod.snd
    ∃ h : Histogram,
      (∀ {δ : Type} (d : Doubles δ) (uptime : δ), ∃ before,
        renderPrometheus d (ws.map Prod.fst) uptime = before ++ h.text d) ∧
      h.counts.length = kLatencyBuckets - 1 ∧
      (∀ b < kLatencyBuckets - 1,
        h.counts.getD b 0 = samples.countP (· ≤ 2 ^ b) ↔ 2 ^ b ∉ samples) ∧
      h.total = samples.length ∧ h.sum = samples.sum := by
  refine ⟨histogramOf (ws.map Prod.fst), fun d uptime => ⟨_, renderPrometheus_eq d _ uptime⟩, ?_,
    fun b hb => ?_, cumulative_last hws, sum_sums hws⟩
  · simp [histogramOf]
  · have hcount : (histogramOf (ws.map Prod.fst)).counts.getD b 0 =
        cumulative (ws.map Prod.fst) b := by
      simp [histogramOf, List.getD_eq_getElem?_getD, List.getElem?_range hb]
    rw [hcount, cumulative_lt hws hb, countP_lt_eq_countP_le_iff]

/-- Two workers with three samples, one of which is the bound of a bucket. -/
theorem latency_histogram_iff_merged : ∃ h : Histogram,
    (∀ {δ : Type} (d : Doubles δ) (uptime : δ), ∃ before, renderPrometheus d
      [(WorkerMetrics.observeLatencyUs {} 3).observeLatencyUs 2,
        WorkerMetrics.observeLatencyUs {} 7] uptime = before ++ h.text d) ∧
    h.counts.getD 1 0 ≠ [3, 2, 7].countP (· ≤ 2 ^ 1) ∧
    h.counts.getD 2 0 = [3, 2, 7].countP (· ≤ 2 ^ 2) ∧ h.total = 3 ∧ h.sum = 12 := by
  have hfirst : ((WorkerMetrics.observeLatencyUs {} 3).observeLatencyUs 2).Recorded [3, 2] :=
    ⟨rfl, rfl⟩
  have hsecond : (WorkerMetrics.observeLatencyUs {} 7).Recorded [7] := ⟨rfl, rfl⟩
  obtain ⟨h, htext, -, hcounts, htotal, hsum⟩ := @latency_histogram_iff
    [((WorkerMetrics.observeLatencyUs {} 3).observeLatencyUs 2, [3, 2]),
      (WorkerMetrics.observeLatencyUs {} 7, [7])] (by simpa using ⟨hfirst, hsecond⟩)
  exact ⟨h, htext, (hcounts 1 (by decide)).not.mpr (by decide),
    (hcounts 2 (by decide)).mpr (by decide), htotal, hsum⟩

/-- A sample of one microsecond is missing in the bucket up to one microsecond. -/
theorem latency_histogram_misses_bound :
    ∃ h : Histogram,
      (∀ {δ : Type} (d : Doubles δ) (uptime : δ), ∃ before, renderPrometheus d
        [WorkerMetrics.observeLatencyUs {} 1] uptime = before ++ h.text d) ∧
      h.counts.getD 0 0 = 0 ∧ [1].countP (· ≤ 2 ^ 0) = 1 := by
  exact ⟨histogramOf [WorkerMetrics.observeLatencyUs {} 1],
    fun d uptime => ⟨_, renderPrometheus_eq d _ uptime⟩, by decide +kernel, by decide⟩

end Prometheus

end Httpd
