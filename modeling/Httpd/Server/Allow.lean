import Httpd.Library.Slice
import Httpd.Server.Router

/-! # The methods a 405 allows

The `Allow` value of a 405 is collected over the routes of a path, with a textual test for
the methods that are there already. It lists the methods that reach a handler exactly when
that test says what it is meant to say: a method occurs in the list only if it is a repeated
one, or `HEAD`, which has its place next to `GET`.
-/

namespace Httpd

variable {ω σ : Type}

def Route.matches (r : Route ω σ) (path : Bytes) : Bool :=
  if r.byPrefix then r.path.isPrefixOf path else path == r.path

def Route.answer (r : Route ω σ) (w : ω) (req : Request) : Response σ :=
  match r.handler w req {} with
  | .ok res => res
  | .error what => Response.text 500 (text "internal error: " ++ what ++ text "\n")

namespace Router

def methods (router : Router ω σ) (path : Bytes) : List Bytes :=
  (router.routes.filter (·.matches path)).map Route.method

def invoked (router : Router ω σ) (req : Request) : Option (Route ω σ) :=
  router.routes.find? fun r =>
    r.matches req.path && r.method == if req.method == text "HEAD" then text "GET" else req.method

def refusal (allow : Bytes) : Response σ :=
  if !allow.isEmpty then
    let res := Response.text 405 (text "method not allowed\n")
    { res with headers := res.headers.set (text "Allow") allow }
  else Response.text 404 (text "not found\n")

theorem dispatchLoop_eq (w : ω) (req : Request) (method : Bytes) (routes : List (Route ω σ))
    (allow : Bytes) :
    dispatchLoop w req method routes allow =
      (routes.find? fun r => r.matches req.path && r.method == method).elim
        (refusal (((routes.filter (·.matches req.path)).map Route.method).foldl extendAllow allow))
        (·.answer w req) := by
  induction routes generalizing allow with
  | nil => rfl
  | cons r rs ih =>
    rw [dispatchLoop]
    change (if !r.matches req.path then _ else _) = _
    cases hmatch : r.matches req.path with
    | false => simp [hmatch, ih]
    | true =>
      cases hmethod : r.method == method with
      | false => simp [hmatch, hmethod, ih]
      | true =>
        simp only [hmatch, hmethod, Bool.not_true, Bool.false_eq_true, if_false, if_true,
          Bool.and_self, List.find?_cons_of_pos, Option.elim_some]
        rfl

theorem dispatch_eq (router : Router ω σ) (w : ω) (req : Request) :
    router.dispatch w req = (router.invoked req).elim
      (refusal ((router.methods req.path).foldl extendAllow [])) (·.answer w req) :=
  dispatchLoop_eq w req _ router.routes []

theorem invoked_isSome_iff {router : Router ω σ} {req : Request} :
    (∃ r, router.invoked req = some r) ↔
      (if req.method = text "HEAD" then text "GET" else req.method) ∈ router.methods req.path := by
  rw [← Option.isSome_iff_exists, invoked, List.find?_isSome, methods, List.mem_map]
  constructor
  · rintro ⟨r, hr, h⟩
    simp only [Bool.and_eq_true, beq_iff_eq] at h
    exact ⟨r, List.mem_filter.mpr ⟨hr, h.1⟩, h.2⟩
  · rintro ⟨r, hr, h⟩
    obtain ⟨hr, hmatch⟩ := List.mem_filter.mp hr
    exact ⟨r, hr, by simp [hmatch, h]⟩

/-- The list with one more method, as `extendAllow` extends the text. -/
def extend (listed : List Bytes) (method : Bytes) : List Bytes :=
  if ∃ m ∈ listed, method <:+: m then listed
  else listed ++ method :: if method = text "GET" then [text "HEAD"] else []

theorem mem_extend {listed : List Bytes} {method m : Bytes} (h : m ∈ extend listed method) :
    m ∈ listed ∨ m = method ∨ m = text "HEAD" := by
  unfold extend at h
  split at h
  · exact .inl h
  · rw [List.mem_append, List.mem_cons] at h
    rcases h with h | h | h
    · exact .inl h
    · exact .inr (.inl h)
    · split at h
      · exact .inr (.inr (List.mem_singleton.mp h))
      · cases h

theorem unbordered_comma : Search.Unbordered (text ", ") := by
  intro k hpos hlt
  have hk : k < 2 := hlt
  obtain rfl : k = 1 := by omega
  decide

theorem get_ne_head : text "GET" ≠ text "HEAD" := by decide

theorem comma_not_mem_token {m : Bytes} (hm : isToken m = true) : ∀ c ∈ text ", ", c ∉ m := by
  intro c hc h
  have hfixed : ∀ c ∈ text ", ", isTchar c = false := by decide +kernel
  cases (hfixed c hc).symm.trans ((isToken_iff.mp hm).2 c h)

theorem isEmpty_intercalate_iff {listed : List Bytes} (h : ∀ m ∈ listed, isToken m = true) :
    ((text ", ").intercalate listed).isEmpty = true ↔ listed = [] := by
  cases listed with
  | nil => simp
  | cons m ms =>
    have hm := (isToken_iff.mp (h m List.mem_cons_self)).1
    cases ms <;> simp [List.intercalate_cons_cons, hm]

theorem extendAllow_intercalate {listed : List Bytes} {method : Bytes}
    (hlisted : ∀ m ∈ listed, isToken m = true) (hmethod : isToken method = true) :
    extendAllow ((text ", ").intercalate listed) method =
      (text ", ").intercalate (extend listed method) := by
  have hfound : (Search.find method ((text ", ").intercalate listed)).isSome = true ↔
      ∃ m ∈ listed, method <:+: m := by
    rw [Search.find_isSome_iff]
    exact Search.infix_intercalate_iff (by decide) (comma_not_mem_token hmethod)
      (isToken_iff.mp hmethod).1
  have hhead : text ", HEAD" = text ", " ++ text "HEAD" := by decide
  have hmethod : (text ", ").intercalate (listed ++ [method]) =
      (if listed = [] then (text ", ").intercalate listed
        else (text ", ").intercalate listed ++ text ", ") ++ method := by
    rw [Search.intercalate_concat]
    split
    · next h => simp [h]
    · rfl
  unfold extendAllow extend
  simp only [hfound, isEmpty_intercalate_iff hlisted, beq_iff_eq]
  split
  · rfl
  · rw [← hmethod]
    split
    · rw [hhead, ← List.append_assoc, List.append_cons listed method [text "HEAD"],
        Search.intercalate_concat _ (listed ++ [method]), if_neg (by simp)]
    · rw [List.append_nil]

theorem foldl_extendAllow {ms listed : List Bytes} (hlisted : ∀ m ∈ listed, isToken m = true)
    (hms : ∀ m ∈ ms, isToken m = true) :
    ms.foldl extendAllow ((text ", ").intercalate listed) =
      (text ", ").intercalate (ms.foldl extend listed) := by
  induction ms generalizing listed with
  | nil => rfl
  | cons m ms ih =>
    have hm := hms m List.mem_cons_self
    rw [List.foldl_cons, List.foldl_cons, extendAllow_intercalate hlisted hm]
    refine ih (fun e he => ?_) fun m h => hms m (List.mem_cons_of_mem _ h)
    rcases mem_extend he with he | rfl | rfl
    · exact hlisted e he
    · exact hm
    · decide

/-- The methods that reach a handler, when the routes have these methods. -/
def served (ms : List Bytes) : List Bytes :=
  ms.filter (· ≠ text "HEAD") ++ if text "GET" ∈ ms then [text "HEAD"] else []

/-- The list has the methods that reach a handler, each of them once. -/
def Exact (ms listed : List Bytes) : Prop := listed.Nodup ∧ ∀ m, m ∈ listed ↔ m ∈ served ms

/-- The textual test finds the method in the list exactly when the list need not grow. -/
def Clear (ms : List Bytes) (r : Bytes) : Prop :=
  (∃ m ∈ served ms, r <:+: m) ↔ r = text "HEAD" ∨ r ∈ ms

instance (ms : List Bytes) (r : Bytes) : Decidable (Clear ms r) :=
  inferInstanceAs (Decidable ((∃ m ∈ served ms, r <:+: m) ↔ r = text "HEAD" ∨ r ∈ ms))

/-- A list that no more routes can put right. -/
def Spoilt (ms listed : List Bytes) : Prop :=
  (∃ r ∈ ms, r ≠ text "HEAD" ∧ r ∉ listed ∧ ∃ m ∈ listed, r <:+: m) ∨
    (text "HEAD" ∈ listed ∧ text "GET" ∉ listed) ∨ ¬ listed.Nodup

theorem mem_served {ms : List Bytes} {m : Bytes} :
    m ∈ served ms ↔ (if m = text "HEAD" then text "GET" else m) ∈ ms := by
  unfold served
  by_cases hget : text "GET" ∈ ms <;> by_cases hm : m = text "HEAD" <;> simp [hget, hm]

theorem mem_served_of_ne {ms : List Bytes} {m : Bytes} (hm : m ≠ text "HEAD") :
    m ∈ served ms ↔ m ∈ ms := by
  rw [mem_served, if_neg hm]

theorem head_mem_served {ms : List Bytes} : text "HEAD" ∈ served ms ↔ text "GET" ∈ ms := by
  rw [mem_served, if_pos rfl]

theorem mem_served_concat {ms : List Bytes} {r m : Bytes} :
    m ∈ served (ms ++ [r]) ↔
      m ∈ served ms ∨ (m = r ∧ r ≠ text "HEAD") ∨ (m = text "HEAD" ∧ r = text "GET") := by
  by_cases hm : m = text "HEAD"
  · subst hm
    rw [head_mem_served, head_mem_served, List.mem_append, List.mem_singleton]
    grind
  · rw [mem_served_of_ne hm, mem_served_of_ne hm, List.mem_append, List.mem_singleton]
    grind

theorem extend_of_found {listed : List Bytes} {r : Bytes} (h : ∃ m ∈ listed, r <:+: m) :
    extend listed r = listed := if_pos h

theorem mem_extend_of_mem {listed : List Bytes} {m : Bytes} (r : Bytes) (h : m ∈ listed) :
    m ∈ extend listed r := by
  unfold extend
  split
  · exact h
  · exact List.mem_append_left _ h

theorem Spoilt.not_exact {ms listed : List Bytes} (h : Spoilt ms listed) : ¬ Exact ms listed := by
  rintro ⟨hnodup, hmem⟩
  rcases h with ⟨r, hr, hne, hnot, -⟩ | ⟨hhead, hget⟩ | hdup
  · exact hnot ((hmem r).mpr ((mem_served_of_ne hne).mpr hr))
  · have hms := head_mem_served.mp ((hmem _).mp hhead)
    exact hget ((hmem _).mpr ((mem_served_of_ne get_ne_head).mpr hms))
  · exact hdup hnodup

theorem Spoilt.extend {ms listed : List Bytes} (h : Spoilt ms listed) (r : Bytes) :
    Spoilt (ms ++ [r]) (extend listed r) := by
  rcases h with ⟨m, hm, hne, hnot, e, he, hin⟩ | ⟨hhead, hget⟩ | hdup
  · refine .inl ⟨m, List.mem_append_left _ hm, hne, ?_, e, mem_extend_of_mem r he, hin⟩
    intro hmem
    unfold Router.extend at hmem
    split at hmem
    · exact hnot hmem
    · next hfound =>
      -- the method is in the text already, so it is not the one appended
      rw [List.mem_append, List.mem_cons] at hmem
      rcases hmem with h | rfl | h
      · exact hnot h
      · exact hfound ⟨e, he, hin⟩
      · split at h
        · exact hne (List.mem_singleton.mp h)
        · cases h
  · by_cases hfound : ∃ m ∈ listed, r <:+: m
    · rw [extend_of_found hfound]
      exact .inr (.inl ⟨hhead, hget⟩)
    · unfold Router.extend
      rw [if_neg hfound]
      by_cases hr : r = text "GET"
      · -- the second entry for HEAD
        right; right
        rw [if_pos hr]
        intro hnodup
        exact (List.nodup_append.mp hnodup).2.2 _ hhead _ (by simp) rfl
      · right; left
        rw [if_neg hr]
        refine ⟨List.mem_append_left _ hhead, ?_⟩
        rw [List.mem_append, List.mem_singleton, not_or]
        exact ⟨hget, Ne.symm hr⟩
  · refine .inr (.inr fun hnodup => hdup ?_)
    unfold Router.extend at hnodup
    split at hnodup
    · exact hnodup
    · exact (List.nodup_append.mp hnodup).1

theorem Exact.found_iff {ms listed : List Bytes} (h : Exact ms listed) (r : Bytes) :
    (∃ m ∈ listed, r <:+: m) ↔ ∃ m ∈ served ms, r <:+: m := by
  simp only [h.2]

theorem Exact.extend_found {ms listed : List Bytes} {r : Bytes} (h : Exact ms listed)
    (hf : ∃ m ∈ listed, r <:+: m) :
    (Clear ms r → Exact (ms ++ [r]) (extend listed r)) ∧
      (¬ Clear ms r → Spoilt (ms ++ [r]) (extend listed r)) := by
  have hserved := (h.found_iff r).mp hf
  obtain ⟨hnodup, hmem⟩ := h
  rw [extend_of_found hf]
  refine ⟨fun hc => ⟨hnodup, fun m => ?_⟩, fun hc => ?_⟩
  · rw [hmem, mem_served_concat, iff_self_or]
    rcases hc.mp hserved with rfl | hr
    · rintro (⟨-, h⟩ | ⟨-, h⟩)
      · exact absurd rfl h
      · exact absurd h.symm get_ne_head
    · rintro (⟨rfl, hne⟩ | ⟨rfl, rfl⟩)
      · exact (mem_served_of_ne hne).mpr hr
      · exact head_mem_served.mpr hr
  · have hr : r ≠ text "HEAD" ∧ r ∉ ms := by
      rw [← not_or]
      exact fun hr => hc ⟨fun _ => hr, fun _ => hserved⟩
    refine .inl ⟨r, by simp, hr.1, fun hl => ?_, hf⟩
    exact hr.2 ((mem_served_of_ne hr.1).mp ((hmem r).mp hl))

theorem Exact.extend_new {ms listed : List Bytes} {r : Bytes} (h : Exact ms listed)
    (hf : ¬ ∃ m ∈ listed, r <:+: m) :
    (Clear ms r → Exact (ms ++ [r]) (extend listed r)) ∧
      (¬ Clear ms r → Spoilt (ms ++ [r]) (extend listed r)) := by
  have hserved : ¬ ∃ m ∈ served ms, r <:+: m := fun hs => hf ((h.found_iff r).mpr hs)
  have hnew : r ∉ listed := fun hr => hf ⟨r, hr, List.infix_rfl⟩
  obtain ⟨hnodup, hmem⟩ := h
  unfold Router.extend
  rw [if_neg hf]
  refine ⟨fun hc => ?_, fun hc => ?_⟩
  · have hr : r ≠ text "HEAD" ∧ r ∉ ms := not_or.mp fun hr => hserved (hc.mpr hr)
    refine ⟨List.nodup_append.mpr ⟨hnodup, ?_, ?_⟩, fun m => ?_⟩
    · split
      · simpa using hr.1
      · simp
    · rintro a ha b hb rfl
      rcases List.mem_cons.mp hb with rfl | hb
      · exact hnew ha
      · split at hb
        · next hget =>
          obtain rfl := List.mem_singleton.mp hb
          exact hr.2 (hget ▸ head_mem_served.mp ((hmem _).mp ha))
        · cases hb
    · have hhead : (m ∈ if r = text "GET" then [text "HEAD"] else []) ↔
          m = text "HEAD" ∧ r = text "GET" := by
        split <;> simp [*]
      rw [mem_served_concat, List.mem_append, List.mem_cons, hmem, hhead,
        and_iff_left (a := m = r) hr.1]
  · have hr : r = text "HEAD" := by
      by_contra hne
      have hr : r ∉ ms := fun hr =>
        hserved ⟨r, (mem_served_of_ne hne).mpr hr, List.infix_rfl⟩
      exact hc ⟨fun h => absurd h hserved, fun h => absurd h (not_or.mpr ⟨hne, hr⟩)⟩
    subst hr
    refine .inr (.inl ⟨by simp, ?_⟩)
    intro hget
    rw [if_neg get_ne_head.symm, List.mem_append, List.mem_singleton,
      or_iff_left get_ne_head] at hget
    have hms := (mem_served_of_ne get_ne_head).mp ((hmem _).mp hget)
    exact hnew ((hmem _).mpr (head_mem_served.mpr hms))

/-- A list that is exact stays so, or is spoilt, by what the textual test finds. -/
theorem Exact.extend {ms listed : List Bytes} (h : Exact ms listed) (r : Bytes) :
    (Clear ms r → Exact (ms ++ [r]) (extend listed r)) ∧
      (¬ Clear ms r → Spoilt (ms ++ [r]) (extend listed r)) := by
  by_cases hf : ∃ m ∈ listed, r <:+: m
  · exact h.extend_found hf
  · exact h.extend_new hf

/-- The test does not fail for any of the methods, in the order they come in. -/
def AllClear (ms : List Bytes) : Prop := Slice.AtEach Clear ms

theorem exact_or_spoilt (ms : List Bytes) :
    (AllClear ms ∧ Exact ms (ms.foldl extend [])) ∨
      (¬ AllClear ms ∧ Spoilt ms (ms.foldl extend [])) := by
  induction ms using List.reverseRecOn with
  | nil =>
    exact .inl ⟨Slice.atEach_nil, List.nodup_nil, fun m => Iff.rfl⟩
  | append_singleton ms r ih =>
    rw [List.foldl_append, List.foldl_cons, List.foldl_nil, AllClear, Slice.atEach_concat]
    rcases ih with ⟨hc, hexact⟩ | ⟨hc, hspoilt⟩
    · by_cases hr : Clear ms r
      · exact .inl ⟨⟨hc, hr⟩, (hexact.extend r).1 hr⟩
      · exact .inr ⟨fun h => hr h.2, (hexact.extend r).2 hr⟩
    · exact .inr ⟨fun h => hc h.1, hspoilt.extend r⟩

theorem exact_iff {ms : List Bytes} : Exact ms (ms.foldl extend []) ↔ AllClear ms := by
  rcases exact_or_spoilt ms with ⟨hc, hexact⟩ | ⟨hc, hspoilt⟩
  · exact ⟨fun _ => hc, fun _ => hexact⟩
  · exact ⟨fun h => absurd h hspoilt.not_exact, fun h => absurd h hc⟩

theorem token_foldl_extend {ms : List Bytes} (hms : ∀ m ∈ ms, isToken m = true) :
    ∀ m ∈ ms.foldl extend [], isToken m = true := by
  induction ms using List.reverseRecOn with
  | nil => simp
  | append_singleton ms r ih =>
    intro m hm
    rw [List.foldl_append, List.foldl_cons, List.foldl_nil] at hm
    rcases mem_extend hm with hm | rfl | rfl
    · exact ih (fun m h => hms m (List.mem_append_left _ h)) m hm
    · exact hms m (by simp)
    · decide

/-- The list of a 405 of the router itself has the methods that would reach a handler, each of
them once, just when no method is taken for listed because it is a part of a listed one and
none is `HEAD` with nothing of that name in the list. -/
theorem allow_exact_iff {router : Router ω σ} (htoken : ∀ r ∈ router.routes, isToken r.method = true)
    {w : ω} {req : Request} (hown : router.invoked req = none)
    (h405 : (router.dispatch w req).status = 405) :
    ∃ allow, (router.dispatch w req).headers.get (text "Allow") = some allow ∧
      ((Search.pieces (text ", ") allow).Nodup ∧
          (∀ m, m ∈ Search.pieces (text ", ") allow ↔
            ∃ r, router.invoked { req with method := m } = some r) ↔
        AllClear (router.methods req.path)) := by
  have hms : ∀ m ∈ router.methods req.path, isToken m = true := by
    intro m hm
    obtain ⟨r, hr, rfl⟩ := List.mem_map.mp hm
    exact htoken r (List.mem_filter.mp hr).1
  have hnil : ∀ m ∈ ([] : List Bytes), isToken m = true := by simp
  have hallow : (router.methods req.path).foldl extendAllow [] =
      (text ", ").intercalate ((router.methods req.path).foldl extend []) :=
    foldl_extendAllow hnil hms
  have htokens := token_foldl_extend hms
  rw [dispatch_eq, hown, Option.elim_none, hallow] at h405 ⊢
  generalize hlisted : (router.methods req.path).foldl extend [] = listed at h405 htokens ⊢
  have hne : listed ≠ [] := by
    rintro rfl
    cases h405
  have hempty : ((text ", ").intercalate listed).isEmpty = false :=
    Bool.eq_false_iff.mpr fun h => hne ((isEmpty_intercalate_iff htokens).mp h)
  have hpieces : Search.pieces (text ", ") ((text ", ").intercalate listed) = listed :=
    Search.pieces_intercalate unbordered_comma (by decide) hne fun m hm hin =>
      comma_not_mem_token (htokens m hm) _ (by decide) (hin.subset List.mem_cons_self)
  refine ⟨(text ", ").intercalate listed, ?_, ?_⟩
  · rw [refusal, hempty]
    exact (Headers.get_set _ _ _ _).trans (if_pos (by decide))
  · rw [hpieces, ← exact_iff, hlisted, Exact]
    simp only [invoked_isSome_iff, mem_served]

def onRoot (methods : List Bytes) : Router Unit Unit :=
  ⟨methods.map fun m => ⟨m, text "/", false, fun _ _ res => .ok res⟩⟩

theorem allow_exact_iff_getPost : ∃ allow,
    ((onRoot [text "GET", text "POST"]).dispatch ()
      { method := text "PUT", path := text "/" }).headers.get (text "Allow") = some allow ∧
    (Search.pieces (text ", ") allow).Nodup := by
  obtain ⟨allow, hallow, hiff⟩ := @allow_exact_iff Unit Unit (onRoot [text "GET", text "POST"])
    (by decide) () { method := text "PUT", path := text "/" } rfl (by decide)
  have hclear : AllClear ([] ++ [text "GET"] ++ [text "POST"]) := by
    rw [AllClear, Slice.atEach_concat, Slice.atEach_concat]
    exact ⟨⟨Slice.atEach_nil, by decide⟩, by decide⟩
  exact ⟨allow, hallow, (hiff.mpr hclear).1⟩

/-- `PATCH` is not listed after `PROPPATCH`, though it is served. -/
theorem allow_misses_patch :
    let router := onRoot [text "PROPPATCH", text "PATCH"]
    let req : Request := { method := text "GET", path := text "/" }
    (∀ r ∈ router.routes, isToken r.method = true) ∧ router.invoked req = none ∧
      (router.dispatch () req).status = 405 ∧
      (router.dispatch () req).headers.get (text "Allow") = some (text "PROPPATCH") ∧
      text "PATCH" ∉ Search.pieces (text ", ") (text "PROPPATCH") ∧
      ∃ r, router.invoked { req with method := text "PATCH" } = some r := by
  refine ⟨by decide, rfl, by decide, by decide +kernel, ?_, ⟨_, rfl⟩⟩
  rw [Search.pieces_of_not_infix (by decide)]
  decide

end Router

end Httpd
