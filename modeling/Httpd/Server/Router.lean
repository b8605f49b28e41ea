import Httpd.Http.Response
import Httpd.Parser.Basic

/-! # The router

Routes in registration order, from `router.cpp`. A handler fills in a response or
throws; what it can see of the world besides the request is a parameter.
-/

namespace Httpd

variable {ω σ : Type}

/-- A handler fills in the response it is given, or throws an exception with a text. -/
abbrev Handler (ω σ : Type) := ω → Request → Response σ → Except Bytes (Response σ)

structure Route (ω σ : Type) where
  method : Bytes
  path : Bytes
  byPrefix : Bool
  handler : Handler ω σ

structure Router (ω σ : Type) where
  routes : List (Route ω σ) := []

namespace Router

def add (r : Router ω σ) (method path : Bytes) (handler : Handler ω σ) : Router ω σ :=
  ⟨r.routes ++ [⟨method, path, false, handler⟩]⟩

def addPrefix (r : Router ω σ) (method path : Bytes) (handler : Handler ω σ) : Router ω σ :=
  ⟨r.routes ++ [⟨method, path, true, handler⟩]⟩

def extendAllow (allow method : Bytes) : Bytes :=
  if (Search.find method allow).isSome then allow
  else
    (if allow.isEmpty then allow else allow ++ text ", ") ++ method ++
      (if method == text "GET" then text ", HEAD" else [])

def dispatchLoop (w : ω) (req : Request) (method : Bytes) :
    List (Route ω σ) → Bytes → Response σ
  | [], allow =>
    if !allow.isEmpty then
      let res := Response.text 405 (text "method not allowed\n")
      { res with headers := res.headers.set (text "Allow") allow }
    else Response.text 404 (text "not found\n")
  | r :: rs, allow =>
    if !(if r.byPrefix then r.path.isPrefixOf req.path else req.path == r.path) then
      dispatchLoop w req method rs allow
    else if r.method == method then
      match r.handler w req {} with
      | .ok res => res
      | .error what => Response.text 500 (text "internal error: " ++ what ++ text "\n")
    else dispatchLoop w req method rs (extendAllow allow r.method)

/-- A `HEAD` request is served by the handler for `GET`. -/
def dispatch (r : Router ω σ) (w : ω) (req : Request) : Response σ :=
  let method := if req.method == text "HEAD" then text "GET" else req.method
  dispatchLoop w req method r.routes []

end Router

end Httpd
