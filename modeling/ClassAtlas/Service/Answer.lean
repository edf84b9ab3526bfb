import ClassAtlas.Atlas.Wire
import ClassAtlas.Service.Body
/-!
# Answers of the service

The service tells its health and generates atlases. The status of an answer tells what became of the
request: 200 for an atlas, 404 when the path leads nowhere, 400 when it is no directory or its
settings are no good, 422 when the request is not well formed, and 500 for all that is not foreseen.
-/
namespace ClassAtlas.Service

open ClassAtlas.Action

structure Call where
  method : String
  target : String
  body : List Char
deriving Repr

inductive MediaType where
  | json
  | plain
deriving DecidableEq, Repr

def MediaType.text : MediaType → String
  | json => "application/json"
  | plain => "text/plain"

inductive Payload where
  | json (v : Json)
  | text (s : String)
deriving Repr

structure Reply where
  status : Nat
  mediaType : MediaType
  payload : Payload
deriving Repr

namespace Reply

def ofJson (status : Nat) (v : Json) : Reply := ⟨status, .json, .json v⟩

/-- A reply that says what is wrong. -/
def detail (status : Nat) (v : Json) : Reply := ofJson status (.obj [("detail", v)])

def unforeseen : Reply := ⟨500, .plain, .text "Internal Server Error"⟩

/-- The reply to a call that asks for the head alone. -/
def headOnly (r : Reply) : Reply := { r with payload := .text "" }

end Reply

/-- What the service has to offer. -/
inductive Route where
  | health
  | generate
deriving DecidableEq, Repr

namespace Route

def method : Route → String
  | health => "GET"
  | generate => "POST"

def path : Route → List Char
  | health => "/health".toList
  | generate => "/generate".toList

/-- The route of a path; slashes at its end do not matter. -/
def ofPath? (p : List Char) : Option Route :=
  let short := Text.dropEndWhile (· == '/') p
  [health, generate].find? fun r => r.path == p || r.path == short

end Route

/-- Characters written as a percent sign and two hexadecimal digits. -/
def percentDecoded : Nat → List Char → List UInt8
  | 0, _ => []
  | fuel + 1, cs =>
    match cs with
    | [] => []
    | '%' :: a :: b :: rest =>
      match Json.hexNumber? [a, b] with
      | some n => UInt8.ofNat n :: percentDecoded fuel rest
      | none => Utf8.encode ['%'] ++ percentDecoded fuel (a :: b :: rest)
    | c :: rest => Utf8.encode [c] ++ percentDecoded fuel rest

/-- Drops a host that is named in front, after two slashes. -/
def withoutHost : List Char → List Char
  | '/' :: '/' :: rest => rest.dropWhile (· != '/')
  | cs => cs

/-- Single dots taken out of a path, and double dots with the name before them. -/
def withoutDots (path : List Char) : List Char :=
  let names := (Text.splitOn '/' path).foldl (fun done n =>
    if n = ['.'] then done
    else if n = ['.', '.'] then if done = [[]] then done else done.dropLast
    else done ++ [n]) []
  (names.intersperse ['/']).flatten

/-- The path of a target, without what follows a question mark or number sign. -/
def pathOf (target : String) : List Char :=
  let own := withoutHost (target.toList.takeWhile fun c => c != '?' && c != '#')
  let own := withoutDots ('/' :: own.dropWhile (· == '/'))
  match Utf8.decode (percentDecoded own.length own) with
  | .ok cs => cs
  | .error _ => own

mutual
/-- Whether a value holds a number that is not finite. -/
def hasNonFinite : Json → Bool
  | .real .nan | .real (.infinite _) => true
  | .arr vs => anyNonFinite vs
  | .obj ms => anyMemberNonFinite ms
  | _ => false
def anyNonFinite : List Json → Bool
  | [] => false
  | v :: vs => hasNonFinite v || anyNonFinite vs
def anyMemberNonFinite : List (String × Json) → Bool
  | [] => false
  | (_, v) :: ms => hasNonFinite v || anyMemberNonFinite ms
end

/-- The reply to a request with problems. Values that no document can hold cannot be shown. -/
def refuse (ps : List Problem) : Reply :=
  let shown := Json.arr (ps.map Problem.toJson)
  if hasNonFinite shown then .unforeseen else .detail 422 shown

/-- The reply for a failure. -/
def replyTo (f : Failure) : Reply :=
  if f.isMissing then .detail 404 (.str f.message)
  else if f.isNoDirectory || f.isSettings then .detail 400 (.str f.message)
  else .unforeseen

def generate (q : Request) : Action Reply := do
  match ← attempt (Generation.generate .sequential q) with
  | .ok g => return .ofJson 200 g.snapshot.toJson
  | .error f => return replyTo f

def generateFrom (body : List Char) : Action Reply :=
  match BodyText.read body with
  | .unreadable => pure (.detail 400 (.str "There was an error parsing the body"))
  | .problems ps => pure (refuse ps)
  | .value v =>
    match requestOf v with
    | .error ps => pure (refuse ps)
    | .ok q => generate q

def answerAt (c : Call) : Action Reply :=
  match Route.ofPath? (pathOf c.target) with
  | none => pure (.detail 404 (.str "Not Found"))
  | some r =>
    if c.method != r.method then pure (.detail 405 (.str "Method Not Allowed"))
    else
      match r with
      | .health => pure (.ofJson 200 (.obj [("status", .str "ok")]))
      | .generate => generateFrom c.body

/-- The reply to a call. -/
def answer (c : Call) : Action Reply := do
  let r ← answerAt c
  return if c.method = "HEAD" then r.headOnly else r

end ClassAtlas.Service
