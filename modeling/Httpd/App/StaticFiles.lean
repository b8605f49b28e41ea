import Httpd.Http.Response
import Httpd.Library.Search

/-! # Static files

The path of a request below the mount point is decoded and normalised before a file is
opened, from `static_files.cpp`. What is accepted is said without reference to the loops of
the source, and what is opened stays below the root. The system calls on files are
parameters.
-/

namespace Httpd

variable {σ : Type}

def hexDigit (c : UInt8) : Option ℕ := hexValue c

namespace StaticFiles

/-- Bytes that are refused in a path, encoded or not. -/
def refused (c : UInt8) : Bool := c == 0 || c == ch '\\'

def decodeLoop : Bytes → Bytes → Option Bytes
  | [], decoded => some decoded
  | c :: rest, decoded =>
    if c == ch '%' then
      match rest with
      | h :: l :: rest =>
        match hexDigit h, hexDigit l with
        | some hi, some lo =>
          let c := UInt8.ofNat (hi * 16 + lo)
          if refused c then none else decodeLoop rest (decoded ++ [c])
        | _, _ => none
      | _ => none
    else if refused c then none
    else decodeLoop rest (decoded ++ [c])

/-- Add a segment to the path, unless it leads upwards. -/
def addSegment (out segment : Bytes) : Option Bytes :=
  if segment == text ".." then none
  else if !segment.isEmpty && segment != text "." then
    some ((if out.isEmpty then out else out ++ [ch '/']) ++ segment)
  else some out

/-- The loop over the segments, from the rest of the decoded path. -/
def segmentLoop (out rest : Bytes) : Option Bytes :=
  match _h : rest.idxOf? (ch '/') with
  | none => addSegment out rest
  | some slash =>
    match addSegment out (rest.take slash) with
    | none => none
    | some out => segmentLoop out (rest.drop (slash + 1))
  termination_by rest.length
  decreasing_by
    obtain ⟨u, v, rfl, rfl, -⟩ := Search.idxOf?_eq_some_iff_append.mp _h
    simp
    omega

def sanitize (urlPath : Bytes) : Option Bytes :=
  match decodeLoop urlPath [] with
  | none => none
  | some decoded => segmentLoop [] decoded

inductive FileKind where
  | directory
  | regular
  | other
  deriving DecidableEq, Repr

structure Stat where
  kind : FileKind
  size : ℕ

/-- What opening a path below the root and `fstat` report. -/
structure Tree where
  openBeneath : Bytes → Option Fd
  fstat : Fd → Option Stat

def mimeType (path : Bytes) : Bytes :=
  let ext := if ch '.' ∈ path then path.rtakeWhile (· != ch '.') else []
  if ext == text "html" || ext == text "htm" then text "text/html; charset=utf-8"
  else if ext == text "css" then text "text/css; charset=utf-8"
  else if ext == text "js" || ext == text "mjs" then text "text/javascript; charset=utf-8"
  else if ext == text "json" then text "application/json"
  else if ext == text "txt" || ext == text "log" then text "text/plain; charset=utf-8"
  else if ext == text "svg" then text "image/svg+xml"
  else if ext == text "png" then text "image/png"
  else if ext == text "jpg" || ext == text "jpeg" then text "image/jpeg"
  else if ext == text "gif" then text "image/gif"
  else if ext == text "ico" then text "image/x-icon"
  else if ext == text "wasm" then text "application/wasm"
  else if ext == text "pdf" then text "application/pdf"
  else text "application/octet-stream"

/-- The path to open and the file there; the index stands for a directory. -/
def locate (t : Tree) (path : Bytes) : Bytes × Option Fd :=
  let file := t.openBeneath path
  match file.bind t.fstat with
  | some st =>
    if st.kind == .directory then
      (path ++ text "/index.html", t.openBeneath (path ++ text "/index.html"))
    else (path, file)
  | none => (path, file)

def serve (root : Option Tree) (relPath : Bytes) (res : Response σ) : Response σ :=
  match root with
  | none => Response.text 404 (text "static root not available\n")
  | some t =>
    match sanitize relPath with
    | none => Response.text 400 (text "invalid path\n")
    | some out =>
      let (path, file) := locate t (if out.isEmpty then text "index.html" else out)
      match file, file.bind t.fstat with
      | some fd, some st =>
        if st.kind == .regular then
          { res with
            status := 200
            headers := res.headers.set (text "Content-Type") (mimeType path)
            file := some fd
            fileOffset := 0
            fileLength := st.size }
        else Response.text 404 (text "not found\n")
      | _, _ => Response.text 404 (text "not found\n")

end StaticFiles

/-- The percent-encoding is undone, from left to right and once. -/
inductive Decodes : Bytes → Bytes → Prop where
  | nil : Decodes [] []
  | plain {c : UInt8} {s d : Bytes} : c ≠ ch '%' → Decodes s d → Decodes (c :: s) (c :: d)
  | escape {h l : UInt8} {hi lo : ℕ} {s d : Bytes} : hexDigit h = some hi → hexDigit l = some lo →
      Decodes s d → Decodes (ch '%' :: h :: l :: s) (.ofNat (hi * 16 + lo) :: d)

def namesIn (segments : List Bytes) : List Bytes :=
  segments.filter fun s => !(s.isEmpty || s == text ".")

def joinSegments (segments : List Bytes) : Bytes := [ch '/'].intercalate segments

def segmentsOf (path : Bytes) : List Bytes := if path = [] then [] else path.splitOn (ch '/')

/-- Follow segments from a directory below the root, as long as the root is not left. -/
def descend : List Bytes → List Bytes → Option (List Bytes)
  | dirs, [] => some dirs
  | dirs, s :: segments =>
    if s = text ".." then if dirs = [] then none else descend dirs.dropLast segments
    else if s = [] ∨ s = text "." then descend dirs segments
    else descend (dirs ++ [s]) segments

/-- The directories and the file that a path names below the root, resolved lexically. -/
def resolve (path : Bytes) : Option (List Bytes) := descend [] (path.splitOn (ch '/'))

namespace StaticFiles

variable {p d out : Bytes}

theorem decodeLoop_plain {c : UInt8} (hc : c ≠ ch '%') (s acc : Bytes) :
    decodeLoop (c :: s) acc = if refused c then none else decodeLoop s (acc ++ [c]) := by
  rw [decodeLoop.eq_def]
  simp [hc]

theorem decodeLoop_escape {h l : UInt8} {hi lo : ℕ} (hh : hexDigit h = some hi)
    (hl : hexDigit l = some lo) (s acc : Bytes) :
    decodeLoop (ch '%' :: h :: l :: s) acc =
      if refused (.ofNat (hi * 16 + lo)) then none
      else decodeLoop s (acc ++ [.ofNat (hi * 16 + lo)]) := by
  rw [decodeLoop.eq_def]
  simp [hh, hl]

/-- The first loop accepts what decodes to a string without refused bytes. -/
theorem decodeLoop_eq_some_iff {acc : Bytes} : decodeLoop p acc = some out ↔
    ∃ d, Decodes p d ∧ (∀ c ∈ d, refused c = false) ∧ out = acc ++ d := by
  constructor
  · intro h
    generalize hn : p.length = n
    induction n using Nat.strong_induction_on generalizing p acc with
    | _ n ih =>
      have step : ∀ {s : Bytes} {c : UInt8}, s.length < n →
          (if refused c then none else decodeLoop s (acc ++ [c])) = some out →
          ∃ d, Decodes s d ∧ (∀ b ∈ c :: d, refused b = false) ∧ out = acc ++ c :: d := by
        intro s c hlt hs
        split at hs
        · cases hs
        · next hc =>
          obtain ⟨d, hd, hclean, rfl⟩ := ih _ hlt hs rfl
          exact ⟨d, hd, List.forall_mem_cons.mpr ⟨by simpa using hc, hclean⟩, by simp⟩
      cases p with
      | nil =>
        cases h
        exact ⟨[], .nil, by simp, by simp⟩
      | cons c s =>
        by_cases hc : c = ch '%'
        · subst hc
          rw [decodeLoop.eq_def] at h
          simp only [beq_self_eq_true, if_true] at h
          split at h
          · next hx lx s =>
            split at h
            · next hi lo hh hl =>
              obtain ⟨d, hd, hclean, rfl⟩ := step (by simp at hn; omega) h
              exact ⟨_, .escape hh hl hd, hclean, rfl⟩
            · cases h
          · cases h
        · rw [decodeLoop_plain hc] at h
          obtain ⟨d, hd, hclean, rfl⟩ := step (by simp at hn; omega) h
          exact ⟨c :: d, .plain hc hd, hclean, rfl⟩
  · rintro ⟨d, hd, hclean, rfl⟩
    induction hd generalizing acc with
    | nil => simp [decodeLoop]
    | plain hc _ ih =>
      obtain ⟨hbyte, hclean⟩ := List.forall_mem_cons.mp hclean
      rw [decodeLoop_plain hc, hbyte, if_neg Bool.false_ne_true, ih hclean]
      simp
    | escape hh hl _ ih =>
      obtain ⟨hbyte, hclean⟩ := List.forall_mem_cons.mp hclean
      rw [decodeLoop_escape hh hl, hbyte, if_neg Bool.false_ne_true, ih hclean]
      simp

theorem segmentLoop_last {u : Bytes} (hu : ch '/' ∉ u) (acc : Bytes) :
    segmentLoop acc u = addSegment acc u := by
  rw [segmentLoop]
  split
  · rfl
  · next k hk =>
    obtain ⟨w, v, rfl, -⟩ := Search.idxOf?_eq_some_iff_append.mp hk
    simp at hu

theorem segmentLoop_cons {u : Bytes} (hu : ch '/' ∉ u) (v acc : Bytes) :
    segmentLoop acc (u ++ ch '/' :: v) = (addSegment acc u).bind (segmentLoop · v) := by
  have hidx : (u ++ ch '/' :: v).idxOf? (ch '/') = some u.length :=
    Search.idxOf?_eq_some_iff_append.mpr ⟨u, v, rfl, rfl, hu⟩
  rw [segmentLoop]
  split
  · next hnone => cases hidx.symm.trans hnone
  · next k hk =>
    cases hidx.symm.trans hk
    rw [List.take_left, List.drop_length_add_append]
    cases addSegment acc u <;> rfl

/-- The second loop goes through the segments between slashes. -/
theorem segmentLoop_eq (acc s : Bytes) :
    segmentLoop acc s = (s.splitOn (ch '/')).foldlM addSegment acc := by
  induction s using Search.split_induction (a := ch '/') generalizing acc with
  | hlast u hu => simp [segmentLoop_last hu, List.splitOn_eq_singleton hu]
  | hcons u v hu ih =>
    rw [segmentLoop_cons hu, List.splitOn_append_cons_self_of_not_mem hu, List.foldlM_cons]
    exact congrArg _ (funext ih)

theorem addSegment_join {ws : List Bytes} (hws : ∀ w ∈ ws, w ≠ []) {s : Bytes}
    (hs : s ≠ text "..") : addSegment (joinSegments ws) s =
      some (joinSegments (ws ++ namesIn [s])) := by
  have hempty : (joinSegments ws).isEmpty = ws.isEmpty := by
    cases ws with
    | nil => rfl
    | cons w ws =>
      have hw := hws w List.mem_cons_self
      cases ws <;> simp [joinSegments, List.intercalate_cons_cons, hw]
  rw [addSegment, if_neg (by simpa using hs)]
  by_cases hname : s = [] ∨ s = text "."
  · rw [if_neg (by rcases hname with rfl | rfl <;> decide)]
    rcases hname with rfl | rfl <;> simp [namesIn]
  · rw [not_or] at hname
    rw [if_pos (by simp [hname.1, hname.2]), hempty]
    have hkeep : namesIn [s] = [s] := by simp [namesIn, hname.1, hname.2]
    have hconcat := Search.intercalate_concat [ch '/'] ws s
    rw [hkeep, joinSegments, joinSegments, hconcat]
    cases ws <;> simp

theorem foldlM_addSegment {ws segments : List Bytes} (hws : ∀ w ∈ ws, w ≠ []) :
    segments.foldlM addSegment (joinSegments ws) =
      if text ".." ∈ segments then none else some (joinSegments (ws ++ namesIn segments)) := by
  induction segments generalizing ws with
  | nil => simp [namesIn]
  | cons s segments ih =>
    rw [List.foldlM_cons]
    by_cases hs : s = text ".."
    · subst hs
      rw [if_pos List.mem_cons_self]
      rfl
    · have hws' : ∀ w ∈ ws ++ namesIn [s], w ≠ [] := by
        intro w hw
        rcases List.mem_append.mp hw with hw | hw
        · exact hws w hw
        · rintro rfl
          simp [namesIn] at hw
      have hmem : text ".." ∈ s :: segments ↔ text ".." ∈ segments := by
        simp [List.mem_cons, Ne.symm hs]
      have happend : namesIn (s :: segments) = namesIn [s] ++ namesIn segments := by
        rw [namesIn, namesIn, namesIn, ← List.filter_append]
        rfl
      rw [addSegment_join hws hs, happend, ← List.append_assoc]
      simp only [hmem]
      exact ih hws'

theorem sanitize_eq_some_iff : sanitize p = some out ↔
    ∃ d, Decodes p d ∧ 0 ∉ d ∧ ch '\\' ∉ d ∧ text ".." ∉ d.splitOn (ch '/') ∧
      out = joinSegments (namesIn (d.splitOn (ch '/'))) := by
  have hclean : ∀ d : Bytes, (∀ c ∈ d, refused c = false) ↔ 0 ∉ d ∧ ch '\\' ∉ d := by
    intro d
    simp only [refused, Bool.or_eq_false_iff, beq_eq_false_iff_ne]
    constructor
    · exact fun h => ⟨fun hm => (h _ hm).1 rfl, fun hm => (h _ hm).2 rfl⟩
    · rintro ⟨h0, hb⟩ c hc
      exact ⟨fun e => h0 (e ▸ hc), fun e => hb (e ▸ hc)⟩
  have hloop : ∀ d : Bytes, segmentLoop [] d =
      if text ".." ∈ d.splitOn (ch '/') then none
      else some (joinSegments (namesIn (d.splitOn (ch '/')))) := by
    intro d
    have hnil : ∀ w ∈ ([] : List Bytes), w ≠ [] := by simp
    rw [segmentLoop_eq]
    exact foldlM_addSegment hnil
  unfold sanitize
  constructor
  · intro h
    split at h
    · cases h
    · next dec hdec =>
      obtain ⟨d, hd, hd', rfl⟩ := decodeLoop_eq_some_iff.mp hdec
      rw [hloop] at h
      split at h
      · cases h
      · next hup =>
        cases h
        exact ⟨dec, hd, ((hclean dec).mp hd').1, ((hclean dec).mp hd').2, hup, rfl⟩
  · rintro ⟨d, hd, h0, hb, hup, rfl⟩
    have hdec : decodeLoop p [] = some d :=
      decodeLoop_eq_some_iff.mpr ⟨d, hd, (hclean d).mpr ⟨h0, hb⟩, rfl⟩
    rw [hdec]
    exact (hloop d).trans (if_neg hup)

theorem descend_eq {dirs segments : List Bytes} (h : text ".." ∉ segments) :
    descend dirs segments = some (dirs ++ namesIn segments) := by
  induction segments generalizing dirs with
  | nil => simp [descend, namesIn]
  | cons s segments ih =>
    rw [List.mem_cons, not_or] at h
    rw [descend, if_neg (Ne.symm h.1)]
    by_cases hname : s = [] ∨ s = text "."
    · rw [if_pos hname, ih h.2]
      rcases hname with rfl | rfl <;> simp [namesIn]
    · rw [if_neg hname, ih h.2]
      rw [not_or] at hname
      simp [namesIn, hname.1, hname.2]

structure Contained (path : Bytes) : Prop where
  names : ∀ s ∈ segmentsOf path, s ≠ [] ∧ s ≠ text "." ∧ s ≠ text ".."
  head : path.head? ≠ some (ch '/')
  last : path.getLast? ≠ some (ch '/')

theorem segmentsOf_join {ws : List Bytes} (h : ∀ w ∈ ws, w ≠ [] ∧ ch '/' ∉ w) :
    segmentsOf (joinSegments ws) = ws := by
  cases ws with
  | nil => rfl
  | cons w ws =>
    have hsplit : (joinSegments (w :: ws)).splitOn (ch '/') = w :: ws :=
      List.splitOn_intercalate (ch '/') (fun u hu => (h u hu).2) (by simp)
    rw [segmentsOf, if_neg ?_, hsplit]
    intro hnil
    rw [hnil, List.splitOn_nil] at hsplit
    exact (h w List.mem_cons_self).1 (List.cons.inj hsplit).1.symm

theorem contained_of_names {path : Bytes}
    (h : ∀ s ∈ segmentsOf path, s ≠ [] ∧ s ≠ text "." ∧ s ≠ text "..") : Contained path := by
  have hsplit : path ≠ [] → [] ∉ path.splitOn (ch '/') := by
    intro hne hm
    rw [segmentsOf, if_neg hne] at h
    exact (h [] hm).1 rfl
  refine ⟨h, fun hhead => ?_, fun hlast => ?_⟩
  · obtain ⟨v, rfl⟩ := List.head?_eq_some_iff.mp hhead
    refine hsplit (by simp) ?_
    have hfirst : (ch '/' :: v).splitOn (ch '/') = [] :: v.splitOn (ch '/') :=
      List.splitOn_append_cons_self_of_not_mem List.not_mem_nil v
    simp [hfirst]
  · obtain ⟨v, rfl⟩ := List.getLast?_eq_some_iff.mp hlast
    refine hsplit (by simp) ?_
    rw [List.splitOn_append_cons_self]
    simp

theorem Contained.resolve_eq (h : Contained out) : resolve out = some (segmentsOf out) ∧
    resolve (out ++ text "/index.html") = some (segmentsOf out ++ [text "index.html"]) := by
  have hnames : namesIn (out.splitOn (ch '/')) = segmentsOf out := by
    have hn := h.names
    unfold segmentsOf at hn ⊢
    split
    · next hnil => rw [hnil]; rfl
    · next hne =>
      rw [if_neg hne] at hn
      exact List.filter_eq_self.mpr fun s hs => by simp [(hn s hs).1, (hn s hs).2.1]
  have hup : text ".." ∉ out.splitOn (ch '/') := by
    have hn := h.names
    unfold segmentsOf at hn
    split at hn
    · next hnil => rw [hnil]; decide
    · exact fun hm => (hn _ hm).2.2 rfl
  constructor
  · rw [resolve, descend_eq hup, hnames, List.nil_append]
  · have hsplit : (out ++ text "/index.html").splitOn (ch '/') =
        out.splitOn (ch '/') ++ [text "index.html"] :=
      (List.splitOn_append_cons_self out (text "index.html")).trans
        (congrArg _ (List.splitOn_eq_singleton (by decide)))
    have hup' : text ".." ∉ out.splitOn (ch '/') ++ [text "index.html"] := by
      simp only [List.mem_append, List.mem_singleton, not_or]
      exact ⟨hup, by decide⟩
    have hindex : namesIn [text "index.html"] = [text "index.html"] := by decide
    rw [resolve, hsplit, descend_eq hup', List.nil_append, namesIn, List.filter_append, ← namesIn,
      ← namesIn, hnames, hindex]

theorem contained_sanitize (h : sanitize p = some out) : Contained out := by
  obtain ⟨d, -, -, -, hup, rfl⟩ := sanitize_eq_some_iff.mp h
  have hnames : ∀ w ∈ namesIn (d.splitOn (ch '/')), w ≠ [] ∧ w ≠ text "." ∧ w ≠ text ".." ∧
      ch '/' ∉ w := by
    intro w hw
    obtain ⟨hmem, hname⟩ := List.mem_filter.mp hw
    simp only [Bool.not_eq_true', Bool.or_eq_false_iff, List.isEmpty_eq_false_iff,
      beq_eq_false_iff_ne] at hname
    exact ⟨hname.1, hname.2, fun e => hup (e ▸ hmem), Search.not_mem_of_mem_splitOn hmem⟩
  apply contained_of_names
  rw [segmentsOf_join fun w hw => ⟨(hnames w hw).1, (hnames w hw).2.2.2⟩]
  exact fun w hw => ⟨(hnames w hw).1, (hnames w hw).2.1, (hnames w hw).2.2.1⟩

theorem Contained.index (h : Contained out) (hne : out ≠ []) :
    Contained (out ++ text "/index.html") := by
  apply contained_of_names
  have hsplit : segmentsOf (out ++ text "/index.html") = segmentsOf out ++ [text "index.html"] := by
    rw [segmentsOf, segmentsOf, if_neg (by simp [hne]), if_neg hne]
    exact (List.splitOn_append_cons_self out (text "index.html")).trans
      (congrArg _ (List.splitOn_eq_singleton (by decide)))
  intro s hs
  rw [hsplit, List.mem_append, List.mem_singleton] at hs
  rcases hs with hs | rfl
  · exact h.names s hs
  · decide

/-- Only contained paths are opened: what lies elsewhere has no influence on an answer. -/
theorem serve_congr {t t' : Tree} (hstat : t.fstat = t'.fstat)
    (hopen : ∀ path, Contained path → path ≠ [] → t.openBeneath path = t'.openBeneath path)
    (relPath : Bytes) (res : Response σ) :
    serve (some t) relPath res = serve (some t') relPath res := by
  have hlocate : ∀ {path}, Contained path → path ≠ [] → locate t path = locate t' path := by
    intro path hc hne
    rw [locate, locate, hopen path hc hne, hstat, hopen _ (hc.index hne) (by simp [hne])]
  unfold serve
  dsimp only
  split
  · rfl
  · next out hout =>
    have hc := contained_sanitize hout
    by_cases hempty : out = []
    · subst hempty
      have hindex : Contained (text "index.html") := contained_of_names (by decide)
      rw [List.isEmpty_nil, if_pos rfl, hlocate hindex (by decide), hstat]
    · rw [if_neg (by simpa using hempty), hlocate hc hempty, hstat]

/-- A path is accepted exactly if its encoding is sound and, decoded once, it has no refused
byte and no segment that leads upwards. The result is made of the names in it, so neither it
nor the index below it leaves the root. -/
theorem sanitize_exact (p out : Bytes) :
    (sanitize p = some out ↔ ∃ d, Decodes p d ∧ 0 ∉ d ∧ ch '\\' ∉ d ∧
      text ".." ∉ d.splitOn (ch '/') ∧
      out = joinSegments ((d.splitOn (ch '/')).filter fun s => !(s.isEmpty || s == text "."))) ∧
    (sanitize p = some out →
      (∀ s ∈ segmentsOf out, s ≠ [] ∧ s ≠ text "." ∧ s ≠ text "..") ∧
      out.head? ≠ some (ch '/') ∧ out.getLast? ≠ some (ch '/') ∧
      resolve out = some (segmentsOf out) ∧
      resolve (out ++ text "/index.html") = some (segmentsOf out ++ [text "index.html"])) := by
  refine ⟨sanitize_eq_some_iff, fun h => ?_⟩
  have hc := contained_sanitize h
  exact ⟨hc.names, hc.head, hc.last, hc.resolve_eq⟩

theorem sanitize_exact_encoded :
    sanitize (text "a%2f.//b%252e") = some (text "a/b%2e") ∧
      resolve (text "a/b%2e") = some [text "a", text "b%2e"] := by
  have h : sanitize (text "a%2f.//b%252e") = some (text "a/b%2e") := by decide +kernel
  exact ⟨h, ((sanitize_exact _ _).2 h).2.2.2.1⟩

end StaticFiles

end Httpd
