import Httpd.Parser.Lines

/-! # Request targets in absolute form

A proxy-style target names a scheme and an authority in front of the path and the
query. The parser looks for the path by searching for the first slash behind the
authority, which is right unless a query follows the authority directly.
-/

namespace Httpd

structure AbsoluteTarget where
  scheme : Bytes
  authority : Bytes
  pq : Bytes
  scheme_http : iequals scheme (text "http") = true ∨ iequals scheme (text "https") = true
  authority_ne : authority ≠ []
  authority_free : ch '/' ∉ authority ∧ ch '?' ∉ authority ∧ ch '#' ∉ authority
  authority_clean : ∀ c ∈ authority, 0x20 < c ∧ c ≠ 0x7f
  pq_form : pq = [] ∨ pq.head? = some (ch '/') ∨ pq.head? = some (ch '?')
  pq_clean : ∀ c ∈ pq, 0x20 < c ∧ c ≠ 0x7f

variable {s t pre method : Bytes} {minor : ℕ}

theorem startsWithIcase_append (h : iequals s pre = true) (t : Bytes) :
    startsWithIcase (s ++ t) pre = true := by
  have hlen : s.length = pre.length := by simpa using congrArg List.length (iequals_iff.mp h)
  simp [startsWithIcase, ← hlen, h]

theorem iequals_append (h : iequals s pre = true) (t : Bytes) :
    iequals (s ++ t) (pre ++ t) = true := by
  simp [iequals_iff, iequals_iff.mp h]

/-- Letters are not changed into one of these bytes by a change of case. -/
theorem mem_of_iequals {c : UInt8} (h : iequals s pre = true) (hc : c ∈ s)
    (hlower : asciiLower c = c) : c ∈ pre.map asciiLower := by
  rw [← iequals_iff.mp h]
  exact hlower ▸ List.mem_map_of_mem hc

/-- What the parser takes for the path and the query behind an authority. -/
def fromSlash (pq : Bytes) : Bytes :=
  if ch '/' ∈ pq then pq.dropWhile (· != ch '/') else text "/"

theorem fromSlash_of_slash {u : Bytes} (v : Bytes) (hu : ch '/' ∉ u) :
    fromSlash (u ++ ch '/' :: v) = ch '/' :: v := by
  have hall : ∀ c ∈ u, (c != ch '/') = true := by
    intro c hc
    simpa using fun e : c = ch '/' => hu (e ▸ hc)
  rw [fromSlash, if_pos (by simp), List.dropWhile_append_of_pos hall]
  simp

namespace AbsoluteTarget

variable (a : AbsoluteTarget)

def target : Bytes := a.scheme ++ text "://" ++ a.authority ++ a.pq

/-- The target in origin form for the same path and query. -/
def originForm : Bytes := if a.pq.head? = some (ch '/') then a.pq else ch '/' :: a.pq

theorem target_eq :
    a.target = (a.scheme ++ [ch ':']) ++ (text "//" ++ (a.authority ++ a.pq)) := by
  simp [target, text]

theorem slash_not_mem_scheme : ch '/' ∉ a.scheme ++ [ch ':'] := by
  intro hm
  rcases List.mem_append.mp hm with hm | hm
  · rcases a.scheme_http with h | h <;> exact absurd (mem_of_iequals h hm (by decide)) (by decide)
  · exact absurd (List.mem_singleton.mp hm) (by decide)

theorem isHttp : startsWithIcase a.target (text "http://") = true ∨
    startsWithIcase a.target (text "https://") = true := by
  have htarget : a.target = (a.scheme ++ text "://") ++ (a.authority ++ a.pq) := by
    simp [target]
  rw [htarget]
  rcases a.scheme_http with h | h
  · exact .inl (startsWithIcase_append (iequals_append h (text "://")) _)
  · exact .inr (startsWithIcase_append (iequals_append h (text "://")) _)

theorem find_slashes : Search.find (text "//") a.target = some (a.scheme.length + 1) := by
  have hfind : Search.find (text "//") (text "//" ++ (a.authority ++ a.pq)) = some 0 :=
    if_pos (List.prefix_append (text "//") _)
  have happend : Search.find (text "//") a.target =
      (Search.find (text "//") (text "//" ++ (a.authority ++ a.pq))).map
        ((a.scheme ++ [ch ':']).length + ·) :=
    a.target_eq ▸ Search.find_append_of_not_mem a.slash_not_mem_scheme
  rw [happend, hfind]
  simp

theorem drop_authority (n : ℕ) :
    a.target.drop (a.scheme.length + 1 + 2 + n) = (a.authority ++ a.pq).drop n := by
  have hsplit : a.target = (a.scheme ++ text "://") ++ (a.authority ++ a.pq) := by simp [target]
  have hlen : (a.scheme ++ text "://").length = a.scheme.length + 1 + 2 := by
    rw [List.length_append]; rfl
  rw [hsplit, ← hlen, List.drop_length_add_append]

theorem pathAndQuery_target (method : Bytes) :
    pathAndQuery method a.target = some (fromSlash a.pq) := by
  have hdrop := a.drop_authority 0
  rw [Nat.add_zero, List.drop_zero] at hdrop
  rw [pathAndQuery, if_pos (by simpa using a.isHttp), a.find_slashes, Option.getD_some]
  dsimp only
  rw [hdrop]
  split
  · next hnone =>
    rw [List.idxOf?_eq_none_iff, List.mem_append, not_or] at hnone
    rw [fromSlash, if_neg hnone.2]
  · next k hk =>
    obtain ⟨u, v, huv, rfl, hu⟩ := Search.idxOf?_eq_some_iff_append.mp hk
    rw [drop_authority, huv, List.drop_left]
    -- the slash found is not in the authority
    obtain ⟨w, rfl, hpq⟩ : ∃ w, u = a.authority ++ w ∧ a.pq = w ++ ch '/' :: v := by
      rcases List.append_eq_append_iff.mp huv with ⟨w, rfl, h⟩ | ⟨w, hw, h⟩
      · exact ⟨w, rfl, h⟩
      · cases w with
        | nil => exact ⟨[], by simpa using hw.symm, by simpa using h.symm⟩
        | cons c w =>
          obtain ⟨rfl, -⟩ := List.cons.inj h
          exact absurd (hw ▸ by simp) a.authority_free.1
    rw [hpq, fromSlash_of_slash v fun h => hu (List.mem_append_right _ h)]

theorem originForm_head : a.originForm.head? = some (ch '/') := by
  unfold originForm
  split
  · assumption
  · rfl

theorem originForm_clean : ∀ c ∈ a.originForm, 0x20 < c ∧ c ≠ 0x7f := by
  unfold originForm
  split
  · exact a.pq_clean
  · exact List.forall_mem_cons.mpr ⟨by decide, a.pq_clean⟩

theorem pathAndQuery_originForm (method : Bytes) :
    pathAndQuery method a.originForm = some a.originForm := by
  have hhead := a.originForm_head
  have hnot : ∀ {pre : Bytes}, pre.head? = some (ch 'h') →
      startsWithIcase a.originForm pre = false := by
    intro pre hpre
    obtain ⟨v, hv⟩ : ∃ v, a.originForm = ch '/' :: v := List.head?_eq_some_iff.mp hhead
    obtain ⟨w, rfl⟩ : ∃ w, pre = ch 'h' :: w := List.head?_eq_some_iff.mp hpre
    have hne : asciiLower (ch '/') ≠ asciiLower (ch 'h') := by decide
    rw [startsWithIcase, hv, Bool.and_eq_false_imp]
    intro _
    rw [Bool.eq_false_iff, ne_eq, iequals_iff]
    simp [hne]
  rw [pathAndQuery, hnot rfl, hnot rfl]
  simp [hhead]

theorem target_clean : ∀ c ∈ a.target, 0x20 < c ∧ c ≠ 0x7f := by
  have hscheme : ∀ c ∈ a.scheme, 0x20 < c ∧ c ≠ 0x7f := by
    have hbyte : ∀ c : UInt8, asciiLower c ∈ text "https" → 0x20 < c ∧ c ≠ 0x7f := by
      intro c
      exact forall_byte (P := fun c => asciiLower c ∈ text "https" → 0x20 < c ∧ c ≠ 0x7f)
        (by decide +kernel) c
    intro c hc
    have hmem := List.mem_map_of_mem (f := asciiLower) hc
    rcases a.scheme_http with h | h <;> rw [iequals_iff.mp h] at hmem
    · exact hbyte c (List.mem_of_mem_dropLast hmem)
    · exact hbyte c hmem
  intro c hc
  simp only [target, List.mem_append] at hc
  rcases hc with ((hc | hc) | hc) | hc
  · exact hscheme c hc
  · exact (show ∀ c ∈ text "://", 0x20 < c ∧ c ≠ 0x7f by decide +kernel) c hc
  · exact a.authority_clean c hc
  · exact a.pq_clean c hc

theorem target_ne : a.target ≠ [] := by
  simp [target, text]

theorem originForm_ne : a.originForm ≠ [] := by
  intro h
  simpa [h] using a.originForm_head

def absoluteLine {method : Bytes} (hm : isToken method = true) (hv : minor ≤ 1) : RequestLine :=
  ⟨method, a.target, minor, hv, hm, a.target_ne, a.target_clean, .absolute a.isHttp⟩

def originLine {method : Bytes} (hm : isToken method = true) (hv : minor ≤ 1) : RequestLine :=
  ⟨method, a.originForm, minor, hv, hm, a.originForm_ne, a.originForm_clean,
    .origin a.originForm_head⟩

/-- Both forms of the target are accepted, with the same path and the same query. -/
def ResolvesAlike (p : RequestParser) (method : Bytes) (minor : ℕ) : Prop :=
  ∃ q q', p.parseRequestLine (method ++ SP :: (a.target ++ SP :: httpVersion minor)) = .ok q ∧
    p.parseRequestLine (method ++ SP :: (a.originForm ++ SP :: httpVersion minor)) = .ok q' ∧
    q.req.path = q'.req.path ∧ q.req.query = q'.req.query

theorem resolvesAlike_iff (p : RequestParser) (hm : isToken method = true) (hv : minor ≤ 1) :
    a.ResolvesAlike p method minor ↔
      (fromSlash a.pq).takeWhile (· != ch '?') = a.originForm.takeWhile (· != ch '?') ∧
      ((fromSlash a.pq).dropWhile (· != ch '?')).drop 1 =
        (a.originForm.dropWhile (· != ch '?')).drop 1 := by
  have habs : p.parseRequestLine (method ++ SP :: (a.target ++ SP :: httpVersion minor)) = .ok _ :=
    RequestParser.parseRequestLine_ok_iff.mpr ⟨a.absoluteLine hm hv, rfl, rfl⟩
  have horg : p.parseRequestLine (method ++ SP :: (a.originForm ++ SP :: httpVersion minor)) =
      .ok _ := RequestParser.parseRequestLine_ok_iff.mpr ⟨a.originLine hm hv, rfl, rfl⟩
  have hpq : (a.absoluteLine hm hv).pathAndQuery = fromSlash a.pq := by
    simp [RequestLine.pathAndQuery, absoluteLine, pathAndQuery_target]
  have hpq' : (a.originLine hm hv).pathAndQuery = a.originForm := by
    simp [RequestLine.pathAndQuery, originLine, pathAndQuery_originForm]
  simp [ResolvesAlike, habs, horg, RequestParser.withRequestLine, hpq, hpq']

/-- A query that follows the authority directly is lost, or what follows its first slash is
taken for the path. -/
theorem fromSlash_query (q : Bytes) :
    ((fromSlash (ch '?' :: q)).dropWhile (· != ch '?')).drop 1 = q ↔ q = [] := by
  have hne : ch '/' ≠ ch '?' := by decide
  constructor
  · intro h
    by_cases hslash : ch '/' ∈ q
    · obtain ⟨u, v, rfl, hu⟩ := List.eq_append_cons_of_mem hslash
      have hfrom : fromSlash (ch '?' :: (u ++ ch '/' :: v)) = ch '/' :: v :=
        fromSlash_of_slash (u := ch '?' :: u) v (List.not_mem_cons_of_ne_of_not_mem hne hu)
      have hlen := congrArg List.length h
      rw [hfrom] at hlen
      have hle := (List.dropWhile_suffix (l := ch '/' :: v) (· != ch '?')).length_le
      simp only [List.length_drop, List.length_append, List.length_cons] at hlen hle
      omega
    · rw [fromSlash, if_neg (List.not_mem_cons_of_ne_of_not_mem hne hslash)] at h
      simpa [text, ch] using h.symm
  · rintro rfl
    decide

/-- A target in absolute form resolves like its origin form exactly if no query follows the
authority directly. -/
theorem absolute_form_iff (p : RequestParser) (a : AbsoluteTarget) {method : Bytes}
    (hm : isToken method = true) {minor : ℕ} (hv : minor ≤ 1) :
    a.ResolvesAlike p method minor ↔ ∀ q, a.pq = ch '?' :: q → q = [] := by
  rw [a.resolvesAlike_iff p hm hv]
  rcases a.pq_form with hpq | hpq | hpq
  · simp [originForm, hpq, fromSlash, text]
  · obtain ⟨v, hv⟩ := List.head?_eq_some_iff.mp hpq
    have hfrom : fromSlash a.pq = a.pq := by
      rw [hv]
      exact fromSlash_of_slash (u := []) v (by simp)
    rw [originForm, if_pos hpq, hfrom]
    refine iff_of_true ⟨rfl, rfl⟩ fun q hq => ?_
    cases (List.cons.inj (hv.symm.trans hq)).1
  · obtain ⟨q, hq⟩ := List.head?_eq_some_iff.mp hpq
    have horg : a.originForm = ch '/' :: ch '?' :: q := by simp [originForm, hq, ch]
    have hquery := fromSlash_query q
    rw [horg, hq]
    constructor
    · rintro ⟨-, h⟩ q' hq'
      obtain rfl := (List.cons.inj hq').2
      exact hquery.mp (by simpa [ch] using h)
    · intro h
      obtain rfl := h q rfl
      decide

theorem iequals_http : iequals (text "HTTP") (text "http") = true := by decide

theorem one_letter_free : ch '/' ∉ text "h" ∧ ch '?' ∉ text "h" ∧ ch '#' ∉ text "h" := by decide

theorem one_letter_clean : ∀ c ∈ text "h", 0x20 < c ∧ c ≠ 0x7f := by decide +kernel

def onAuthority (pq : Bytes)
    (hf : pq = [] ∨ pq.head? = some (ch '/') ∨ pq.head? = some (ch '?'))
    (hc : ∀ c ∈ pq, 0x20 < c ∧ c ≠ 0x7f) : AbsoluteTarget :=
  ⟨text "HTTP", text "h", pq, .inl iequals_http, List.cons_ne_nil _ _, one_letter_free,
    one_letter_clean, hf, hc⟩

theorem absolute_form_iff_path : isToken (text "GET") = true ∧
    (onAuthority (text "/a?b=/c") (.inr (.inl rfl)) (by decide +kernel)).ResolvesAlike {}
      (text "GET") 1 :=
  ⟨isToken_get, (absolute_form_iff {} (onAuthority (text "/a?b=/c") _ _) isToken_get
    le_rfl).mpr fun _ h => absurd (List.cons.inj h).1 (by decide)⟩

/-- Behind a bare authority, `?x=1` is dropped, and `?x=/y` gives the path `/y`. -/
theorem absolute_form_query_lost :
    ¬ (onAuthority (text "?x=1") (.inr (.inr rfl)) (by decide +kernel)).ResolvesAlike {}
      (text "GET") 1 ∧
    (RequestParser.parseRequestLine {} (text "GET HTTP://h?x=1 HTTP/1.1")).map
      (fun q => (q.req.path, q.req.query)) = .ok (text "/", []) ∧
    (RequestParser.parseRequestLine {} (text "GET /?x=1 HTTP/1.1")).map
      (fun q => (q.req.path, q.req.query)) = .ok (text "/", text "x=1") ∧
    (RequestParser.parseRequestLine {} (text "GET HTTP://h?x=/y HTTP/1.1")).map
      (fun q => (q.req.path, q.req.query)) = .ok (text "/y", []) := by
  refine ⟨?_, rfl, rfl, rfl⟩
  rw [resolvesAlike_iff _ {} isToken_get le_rfl]
  decide +kernel

end AbsoluteTarget

end Httpd
