import Nova.ForStd.Text
import Nova.App.Schemas

/-!
# The API-key guard

`ApiKeyMiddleware` stands before all routes. It decides on `request.url.path`, which
Starlette parses out of scheme, `Host` header and raw path, while the router matches the
raw path alone.

`check` is what `urlsplit` checks of a network location: its brackets, and the characters
that normalize to delimiters.
-/

namespace Nova

/-! ## Requests -/

/-- `request.url.scheme` -/
inductive Scheme where
  | http | https
  deriving DecidableEq

/-- The text of a scheme in a URL. -/
def Scheme.value : Scheme → String
  | .http => "http"
  | .https => "https"

/-- An HTTP request as the server passes it on. -/
structure HttpRequest where
  method : String
  scheme : Scheme := .http
  host : String
  path : String
  /-- The other headers, their names in lower case. -/
  headers : List (String × String) := []
  deriving DecidableEq

namespace HttpRequest

/-- `request.url` -/
def url (r : HttpRequest) : List Char :=
  r.scheme.value.toList ++ "://".toList ++ r.host.toList ++ r.path.toList

/-- `request.url.path` -/
def urlPath (check : List Char → Bool) (r : HttpRequest) : Option (List Char) :=
  (Text.urlsplit check r.url).map (·.path)

/-- `request.headers.get(key)` -/
def header (r : HttpRequest) (key : String) : Option String :=
  (r.headers.find? fun h => h.1 = String.ofList (key.toList.map Char.toLower)).map (·.2)

end HttpRequest

/-! ## The guard -/

/-- The header that carries the key. -/
def Headers.apiKey : String := "X-API-Key"

/-- `Settings.valid_api_keys` -/
def validApiKeys (apiKeys : String) : List String :=
  if apiKeys = "" then []
  else
    (((apiKeys.toList.splitOn ',').map Text.strip).filter (· ≠ [])).map String.ofList

/-- What a request gets from the guard: the answer of the routes, one of its own, or a
    `ValueError` of `request.url`. -/
inductive Passage where
  | callNext
  | json (statusCode : Nat) (detail : String)
  | valueError
  deriving DecidableEq

/-- The middleware with the settings it was built from. -/
structure ApiKeyMiddleware where
  requireAuth : Bool
  validKeys : List String

namespace ApiKeyMiddleware

/-- Routes that are always public regardless of auth setting. -/
def publicPrefixes : List String := ["/docs", "/redoc", "/openapi.json", "/health"]

/-- HTTP methods that require auth when auth is enabled. -/
def writeMethods : List String := ["POST", "PUT", "PATCH", "DELETE"]

/-- `dispatch`: what the middleware does with one request. -/
def dispatch (m : ApiKeyMiddleware) (check : List Char → Bool) (request : HttpRequest) : Passage :=
  if !m.requireAuth then .callNext
  else
    match request.urlPath check with
    | none => .valueError
    | some path =>
      -- public paths always pass
      if publicPrefixes.any fun p => p.toList.isPrefixOf path then .callNext
      -- GET requests are public reads
      else if request.method = "GET" then .callNext
      -- write operations require a valid API key
      else if request.method ∈ writeMethods then
        match request.header Headers.apiKey with
        | none => .json 401 s!"Missing {Headers.apiKey} header"
        | some key =>
          if key = "" then .json 401 s!"Missing {Headers.apiKey} header"
          else if key ∉ m.validKeys then .json 403 "Invalid API key"
          else .callNext
      else .callNext

end ApiKeyMiddleware

/-! ## The routes that write -/

/-- A part of a route's path between two slashes. -/
inductive Segment where
  | lit (s : String)
  | param
  deriving DecidableEq

/-- The match of a raw path with the regular expression of a route: a parameter is
    `[^/]+`, and the `$` at the end also matches before a last newline. -/
def matchPath : List Segment → List Char → Bool
  | [], path => path = [] || path = ['\n']
  | .lit s :: segs, path =>
    match ('/' :: s.toList).isPrefixOf? path with
    | some rest => matchPath segs rest
    | none => false
  | .param :: segs, '/' :: path =>
    path.takeWhile (· ≠ '/') ≠ [] && matchPath segs (path.dropWhile (· ≠ '/'))
  | .param :: _, _ => false

/-- The last segment of an action's path. -/
def Action.value : Action → String
  | .confirm => "confirm"
  | .ship => "ship"
  | .deliver => "deliver"
  | .cancel => "cancel"

/-- The `POST` and `PATCH` routes under `/api/v1`. -/
inductive WriteRoute where
  | createItem
  | adjustStock
  | placeOrder
  | transition (action : Action)
  deriving DecidableEq

namespace WriteRoute

/-- The method of a write route. -/
def method : WriteRoute → String
  | .adjustStock => "PATCH"
  | _ => "POST"

/-- The path of a write route, its parameters as holes. -/
def path : WriteRoute → List Segment
  | .createItem => [.lit "api", .lit "v1", .lit "items"]
  | .adjustStock => [.lit "api", .lit "v1", .lit "items", .param, .lit "stock"]
  | .placeOrder => [.lit "api", .lit "v1", .lit "orders"]
  | .transition action => [.lit "api", .lit "v1", .lit "orders", .param, .lit action.value]

/-- The router sends `r` to the route. -/
def Serves (route : WriteRoute) (r : HttpRequest) : Prop :=
  r.method = route.method ∧ matchPath route.path r.path.toList = true

instance (route : WriteRoute) (r : HttpRequest) : Decidable (route.Serves r) :=
  inferInstanceAs (Decidable (_ ∧ _))

end WriteRoute

/-- The route of a request that writes. -/
def Request.writeRoute? : Request → Option WriteRoute
  | .createItem _ => some .createItem
  | .adjustStock _ _ => some .adjustStock
  | .placeOrder _ => some .placeOrder
  | .transition action _ => some (.transition action)
  | .getStock _ => none

/-- Every request but the reads has such a route. -/
theorem Request.isSome_writeRoute? (req : Request) : req.writeRoute?.isSome = !req.isRead := by
  cases req <;> rfl

end Nova
