import Nova.App.Auth

/-!
# What the API-key guard lets through

In front of a route that writes, the guard lets exactly those requests pass that carry a
configured key or whose `Host` header names a public path (`dispatch_eq_callNext_iff`):
after `x/docs`, the path of `request.url` starts with `/docs`, whatever the raw path is. So
the guard protects the route if and only if the `Host` header names no such path
(`guard_sound_iff`).
-/

namespace Nova

open ApiKeyMiddleware (publicPrefixes)

/-- The middleware as `main` adds it, with `require_auth` set. -/
def keyGuard (apiKeys : String) : ApiKeyMiddleware where
  requireAuth := true
  validKeys := validApiKeys apiKeys

/-! ## Keys -/

/-- The `X-API-Key` header is one of the segments of `apiKeys`, stripped and not empty. -/
def HttpRequest.HasKey (r : HttpRequest) (apiKeys : String) : Prop :=
  ∃ key ∈ apiKeys.toList.splitOn ',', Text.strip key ≠ [] ∧
    r.header Headers.apiKey = some (String.ofList (Text.strip key))

instance (r : HttpRequest) (apiKeys : String) : Decidable (r.HasKey apiKeys) :=
  inferInstanceAs (Decidable (∃ _ ∈ _, _ ∧ _))

/-- The keys are the segments between commas, without spaces around them. -/
theorem mem_validApiKeys {apiKeys key : String} : key ∈ validApiKeys apiKeys ↔
    ∃ seg ∈ apiKeys.toList.splitOn ',',
      Text.strip seg ≠ [] ∧ String.ofList (Text.strip seg) = key := by
  unfold validApiKeys
  split
  · rename_i hempty
    subst hempty
    simp [Text.strip]
  · simp [and_assoc]

/-- A request has a key when its header is one of the valid keys. -/
theorem HttpRequest.hasKey_iff {r : HttpRequest} {apiKeys : String} :
    r.HasKey apiKeys ↔ ∃ key ∈ validApiKeys apiKeys, r.header Headers.apiKey = some key := by
  simp only [HasKey, mem_validApiKeys]
  constructor
  · rintro ⟨seg, hseg, hne, hkey⟩
    exact ⟨_, ⟨seg, hseg, hne, rfl⟩, hkey⟩
  · rintro ⟨_, ⟨seg, hseg, hne, rfl⟩, hkey⟩
    exact ⟨seg, hseg, hne, hkey⟩

/-- No valid key is empty. -/
theorem ne_empty_of_mem_validApiKeys {apiKeys key : String} (h : key ∈ validApiKeys apiKeys) :
    key ≠ "" := by
  obtain ⟨seg, _, hne, rfl⟩ := mem_validApiKeys.mp h
  intro hempty
  exact hne (by simpa using congrArg String.toList hempty)

/-- A blank configuration has no keys. -/
theorem HttpRequest.not_hasKey_of_blank {apiKeys : String} (h : Text.strip apiKeys.toList = [])
    (r : HttpRequest) : ¬r.HasKey apiKeys := by
  rintro ⟨seg, hseg, hne, _⟩
  have hspace := Text.strip_eq_nil_iff.mp h
  exact hne (Text.strip_eq_nil_iff.mpr fun c hc => hspace c (Text.mem_of_mem_splitOn hseg hc))

/-! ## Paths -/

/-- `urlsplit` takes the host name, which names a public path. -/
def PublicHost (check : List Char → Bool) (host : String) : Prop :=
  check (Text.netlocOf host.toList) = true ∧
    ∃ p ∈ publicPrefixes, p.toList <+: Text.pathOf host.toList

instance (check : List Char → Bool) (host : String) : Decidable (PublicHost check host) :=
  inferInstanceAs (Decidable (_ ∧ _))

/-- The path of a request is what follows the authority, which the `Host` header may reach
    into. -/
theorem HttpRequest.urlPath_eq (check : List Char → Bool) (r : HttpRequest) :
    r.urlPath check = if check (Text.netlocOf (r.host.toList ++ r.path.toList)) then
      some (Text.pathOf (r.host.toList ++ r.path.toList)) else none := by
  have hurl : r.url = r.scheme.value.toList ++
      ':' :: '/' :: '/' :: (r.host.toList ++ r.path.toList) := by
    simp [url]
  unfold urlPath
  rw [hurl]
  apply Text.urlsplit_authority
  · cases r.scheme <;> decide
  · cases r.scheme <;> decide

/-- A path that matches begins with the first literal segment. -/
theorem matchPath_lit {s : String} {segs : List Segment} {path : List Char}
    (h : matchPath (.lit s :: segs) path = true) : ∃ rest, path = '/' :: s.toList ++ rest := by
  unfold matchPath at h
  split at h
  · rename_i rest hrest
    exact ⟨rest, (List.isPrefixOf?_eq_some_iff_append_eq.mp hrest).symm⟩
  · cases h

/-- The write routes are below `/api`. -/
theorem WriteRoute.Serves.path_eq {route : WriteRoute} {r : HttpRequest} (h : route.Serves r) :
    ∃ rest, r.path.toList = '/' :: 'a' :: rest := by
  have hmatch := h.2
  cases route <;>
  · obtain ⟨rest, hpath⟩ := matchPath_lit hmatch
    exact ⟨'p' :: 'i' :: rest, hpath⟩

/-- No path of the API begins with a public prefix. -/
theorem not_public_api {p : String} (hp : p ∈ publicPrefixes) (rest : List Char) :
    ¬p.toList <+: '/' :: 'a' :: rest := by
  simp only [publicPrefixes, List.mem_cons, List.not_mem_nil, or_false] at hp
  rcases hp with rfl | rfl | rfl | rfl <;> simp

/-- Behind a host name, a public prefix of a write route's URL path is one of the host name's
    own path. -/
theorem public_path_iff {route : WriteRoute} {r : HttpRequest} (h : route.Serves r) :
    (∃ p ∈ publicPrefixes, p.toList <+: Text.pathOf (r.host.toList ++ r.path.toList)) ↔
      ∃ p ∈ publicPrefixes, p.toList <+: Text.pathOf r.host.toList := by
  have hslash : ∀ p ∈ publicPrefixes, '/' ∉ p.toList.tail := by decide
  obtain ⟨rest, hpath⟩ := h.path_eq
  rw [hpath]
  by_cases hplain : Text.afterNetloc r.host.toList = []
  · have hhost : Text.pathOf r.host.toList = [] := by simp [Text.pathOf, hplain]
    have hapi : ∃ rest', Text.pathOf (r.host.toList ++ '/' :: 'a' :: rest) = '/' :: 'a' :: rest' :=
      ⟨_, Text.pathOf_append_of_plain hplain _⟩
    obtain ⟨rest', hrest'⟩ := hapi
    rw [hhost, hrest']
    constructor
    · rintro ⟨p, hp, hprefix⟩
      exact absurd hprefix (not_public_api hp rest')
    · rintro ⟨p, hp, hprefix⟩
      have hnil : ∀ p ∈ publicPrefixes, p.toList ≠ [] := by decide
      exact absurd (List.prefix_nil.mp hprefix) (hnil p hp)
  · exact exists_congr fun p => and_congr_right fun hp =>
      Text.path_append_iff (hslash p hp) hplain _

/-! ## The guard -/

variable {check : List Char → Bool} {apiKeys : String} {route : WriteRoute} {r : HttpRequest}

/-- The method of a write route is one of the write methods. -/
theorem WriteRoute.Serves.method_mem (h : route.Serves r) :
    r.method ≠ "GET" ∧ r.method ∈ ApiKeyMiddleware.writeMethods := by
  have hmethod : route.method = "POST" ∨ route.method = "PATCH" := by
    cases route <;> simp [method]
  rw [h.1]
  rcases hmethod with hpost | hpatch
  · rw [hpost]
    decide
  · rw [hpatch]
    decide

/-- A write is let through on a public path, or with a key. -/
theorem dispatch_of_urlPath {path : List Char} (h : route.Serves r)
    (hpath : r.urlPath check = some path) :
    (keyGuard apiKeys).dispatch check r = .callNext ↔
      (∃ p ∈ publicPrefixes, p.toList <+: path) ∨ r.HasKey apiKeys := by
  obtain ⟨hget, hwrite⟩ := h.method_mem
  have hpublic : (publicPrefixes.any fun p => p.toList.isPrefixOf path) = true ↔
      ∃ p ∈ publicPrefixes, p.toList <+: path := by
    simp
  rw [HttpRequest.hasKey_iff, ← hpublic]
  unfold ApiKeyMiddleware.dispatch
  simp only [keyGuard, hpath, hget, hwrite, Bool.not_true, Bool.false_eq_true, if_false, if_true]
  split
  · simp_all
  · cases hkey : r.header Headers.apiKey with
    | none => simp_all
    | some key =>
      have hne : key ∈ validApiKeys apiKeys → key ≠ "" := ne_empty_of_mem_validApiKeys
      by_cases hmem : key ∈ validApiKeys apiKeys
      · simp [hmem, hne hmem]
      · by_cases hempty : key = "" <;> simp_all

/-- What the guard lets through to a write route. -/
theorem dispatch_eq_callNext_iff (h : route.Serves r) :
    (keyGuard apiKeys).dispatch check r = .callNext ↔
      check (Text.netlocOf r.host.toList) = true ∧
        ((∃ p ∈ publicPrefixes, p.toList <+: Text.pathOf r.host.toList) ∨ r.HasKey apiKeys) := by
  have hpath := r.urlPath_eq check
  have hnetloc : Text.netlocOf (r.host.toList ++ r.path.toList) = Text.netlocOf r.host.toList := by
    obtain ⟨rest, hrest⟩ := h.path_eq
    rw [hrest, Text.netlocOf_append]
  rw [hnetloc] at hpath
  by_cases hcheck : check (Text.netlocOf r.host.toList) = true
  · rw [if_pos hcheck] at hpath
    rw [dispatch_of_urlPath h hpath, public_path_iff h]
    simp [hcheck]
  · rw [if_neg hcheck] at hpath
    simp [ApiKeyMiddleware.dispatch, keyGuard, hpath, hcheck]

/-- The guard lets `r` through only with one of the configured keys, and not at all if the
    configuration is blank. -/
structure Guarded (check : List Char → Bool) (apiKeys : String) (r : HttpRequest) : Prop where
  hasKey : (keyGuard apiKeys).dispatch check r = .callNext → r.HasKey apiKeys
  blank : Text.strip apiKeys.toList = [] → (keyGuard apiKeys).dispatch check r ≠ .callNext

/-- The guard protects a write route exactly from the requests whose `Host` header names no
    public path; with such a header it asks for no key. -/
theorem guard_sound_iff (h : route.Serves r) :
    Guarded check apiKeys r ↔ (PublicHost check r.host → r.HasKey apiKeys) := by
  constructor
  · intro hguarded hpublic
    exact hguarded.hasKey ((dispatch_eq_callNext_iff h).mpr ⟨hpublic.1, Or.inl hpublic.2⟩)
  · intro hhost
    have hkey : (keyGuard apiKeys).dispatch check r = .callNext → r.HasKey apiKeys := by
      intro hnext
      obtain ⟨hcheck, hpublic | hkey⟩ := (dispatch_eq_callNext_iff h).mp hnext
      · exact hhost ⟨hcheck, hpublic⟩
      · exact hkey
    exact ⟨hkey, fun hblank hnext => r.not_hasKey_of_blank hblank (hkey hnext)⟩

/-- A network location of letters, digits, dots, hyphens and a port, to which `urlsplit` has
    no objection. -/
def plainNetloc (netloc : List Char) : Bool :=
  netloc.all fun c => c.isAlphanum || c = '.' || c = '-' || c = ':'

/-- `POST /api/v1/orders` without a key. -/
def keyless (host : String) : HttpRequest where
  method := "POST"
  host
  path := "/api/v1/orders"

/-- The request serves the route for orders. -/
theorem keyless_serves (host : String) : WriteRoute.placeOrder.Serves (keyless host) := by
  constructor
  · rfl
  · show matchPath WriteRoute.placeOrder.path "/api/v1/orders".toList = true
    decide

/-- With a plain host the order is refused, and with a public path in the host it passes. -/
theorem guard_sound_iff_hosts :
    Guarded plainNetloc "key1, key2" (keyless "localhost:8000") ∧
    ¬Guarded plainNetloc "key1, key2" (keyless "localhost:8000/docs") := by
  constructor
  · rw [guard_sound_iff (keyless_serves _)]
    decide
  · rw [guard_sound_iff (keyless_serves _)]
    decide

/-- `Host: x/docs` opens the write routes, whether there are keys or not. -/
theorem guard_bypassed :
    WriteRoute.placeOrder.Serves (keyless "x/docs") ∧
    (keyGuard "key1, key2").dispatch plainNetloc (keyless "x/docs") = .callNext ∧
    ¬(keyless "x/docs").HasKey "key1, key2" ∧
    ¬Guarded plainNetloc "key1, key2" (keyless "x/docs") ∧
    ¬Guarded plainNetloc "" (keyless "x/docs") := by
  have hkey : ¬(keyless "x/docs").HasKey "key1, key2" := by decide
  have hnext : (keyGuard "key1, key2").dispatch plainNetloc (keyless "x/docs") = .callNext := by
    decide
  refine ⟨keyless_serves _, hnext, hkey, fun hguarded => hkey (hguarded.hasKey hnext),
    fun hguarded => ?_⟩
  exact hguarded.blank (by decide) (by decide)

end Nova
