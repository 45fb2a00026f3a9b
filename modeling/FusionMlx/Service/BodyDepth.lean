import FusionMlx.Support.JsonBytes
import FusionMlx.Support.PyText

/-!
# The cap on the nesting of JSON bodies

`RequestBodyDepthMiddleware`: the body of a guarded request is received whole,
scanned byte by byte for its brackets, and decoded when the scan finds more of
them open than the cap allows. The cap, read from the environment for each
request, comes with the call.
-/
namespace FusionMlx.BodyDepth

open JsonText (Json Text)
open JsonBytes OrderedDict

structure Scope where
  type : String
  method : String
  path : Option Text
  headers : List (Bytes × Bytes)

def guardedMethods : List String := ["POST", "PUT", "PATCH", "DELETE"]

def guardedPrefixes : List Text :=
  ["/v1/".toList, "/internal/".toList, "/anthropic/".toList, "/distributed/".toList, "/admin/".toList, "/rpc".toList,
    "/stats".toList]

def excludedPaths : List Text := ["/v1/audio/transcriptions".toList]

def jsonContentTypeOptionalPaths : List Text :=
  ["/v1/chat/completions".toList, "/v1/completions".toList, "/v1/embeddings".toList, "/v1/messages".toList,
    "/v1/messages/count_tokens".toList, "/v1/responses".toList, "/anthropic/v1/messages".toList]

def pathIsGuarded (path : Option Text) : Bool :=
  match path with
  | none => false
  | some path => path ≠ [] && path ∉ excludedPaths && guardedPrefixes.any (fun p => p.isPrefixOf path)

def lowerBytes (b : Bytes) : Bytes := b.map (fun c => if 0x41 ≤ c.toNat ∧ c.toNat ≤ 0x5A then c + 32 else c)

def lowerLatin1 (b : Bytes) : Text :=
  b.map (fun c =>
    if (0x41 ≤ c.toNat ∧ c.toNat ≤ 0x5A) ∨ (0xC0 ≤ c.toNat ∧ c.toNat ≤ 0xDE ∧ c.toNat ≠ 0xD7)
      then Char.ofNat (c.toNat + 32) else Char.ofNat c.toNat)

def isJsonishContentType (headers : List (Bytes × Bytes)) (path : Option Text) : Bool :=
  let name : Bytes := "content-type".toList.map (fun c => UInt8.ofNat c.toNat)
  let ctype := (headers.find? (fun h => lowerBytes h.1 = name)).elim [] (fun h => lowerLatin1 h.2)
  if ctype = [] then path.any (· ∈ jsonContentTypeOptionalPaths)
  else
    let primary := PyText.strip (ctype.takeWhile (· ≠ ';'))
    primary = "application/json".toList ||
      ("application/".toList.isPrefixOf primary && "+json".toList.isSuffixOf primary)

def guarded (scope : Scope) (maxDepth : Int) : Bool :=
  scope.type = "http" && scope.method ∈ guardedMethods && pathIsGuarded scope.path && 0 < maxDepth &&
    isJsonishContentType scope.headers scope.path

structure Scan where
  depth : Int := 0
  peak : Int := 0
  inString : Bool := false
  escapeNext : Bool := false

namespace Scan

def step (s : Scan) (byte : UInt8) : Scan :=
  if s.escapeNext then { s with escapeNext := false }
  else if s.inString then
    if byte = 0x5C then { s with escapeNext := true }
    else if byte = 0x22 then { s with inString := false }
    else s
  else if byte = 0x22 then { s with inString := true }
  else if byte = 0x7B ∨ byte = 0x5B then { s with depth := s.depth + 1, peak := max s.peak (s.depth + 1) }
  else if byte = 0x7D ∨ byte = 0x5D then { s with depth := s.depth - 1 }
  else s

def run (s : Scan) (body : Bytes) : Scan := body.foldl step s

end Scan

def quickLoop (cap : Int) : Scan → Bytes → Bool
  | s, [] => cap ≤ s.peak
  | s, byte :: body =>
    let s' := s.step byte
    if s.peak < s'.peak ∧ cap ≤ s'.peak then true else quickLoop cap s' body

def quickDepthMightExceed (body : Bytes) (maxDepth : Int) : Bool := quickLoop (maxDepth + 1) {} body

def isContainer : Json → Bool
  | .arr _ => true
  | .obj _ => true
  | _ => false

def children : Json → List Json
  | .arr items => items
  | .obj members => (members.foldl (fun d m => d.set m.1 m.2) (.empty : Dict (List Nat) Json)).entries.map Prod.snd
  | _ => []

mutual

def containers : Json → Nat
  | .arr items => containersOfItems items + 1
  | .obj members => containersOfMembers members + 1
  | _ => 0

def containersOfItems : List Json → Nat
  | [] => 0
  | v :: items => containers v + containersOfItems items

def containersOfMembers : List (List Nat × Json) → Nat
  | [] => 0
  | (_, v) :: members => containers v + containersOfMembers members

end

def exceedsLoop (maxDepth : Int) : Nat → List (Json × Int) → Bool
  | 0, _ => false
  | n + 1, stack =>
    match stack.getLast? with
    | none => false
    | some (node, depth) =>
      if maxDepth < depth then true
      else exceedsLoop maxDepth n
        (stack.dropLast ++ ((children node).filter isContainer).map (fun v => (v, depth + 1)))

def jsonNestingDepthExceeds (obj : Json) (maxDepth : Int) : Bool :=
  if maxDepth ≤ 0 then false
  else if ! isContainer obj then false
  else exceedsLoop maxDepth (containers obj + 1) [(obj, 1)]

inductive Message where
  | request (body : Bytes) (moreBody : Bool)
  | disconnect
  | other
  deriving DecidableEq

inductive Received where
  | body (body : Bytes)
  | disconnected (chunks : List Bytes)

def receiveLoop : List Bytes → List Message → Option (Received × List Message)
  | _, [] => none
  | chunks, .request chunk moreBody :: rest =>
    let chunks := if chunk = [] then chunks else chunks ++ [chunk]
    if moreBody then receiveLoop chunks rest else some (.body chunks.flatten, rest)
  | chunks, .disconnect :: rest => some (.disconnected chunks, rest)
  | chunks, .other :: rest => receiveLoop (chunks ++ [[]]) rest

/-- The app is called and receives these messages, the request is refused with status 400, or an exception
of `json.loads` passes. -/
inductive Outcome where
  | app (messages : List Message)
  | tooDeep
  | raised
  deriving DecidableEq

def replayBuffered (body : Bytes) (originalReceive : List Message) : List Message :=
  .request body false :: originalReceive

def replayWithDisconnect (chunks : List Bytes) : List Message :=
  chunks.map (fun chunk => .request chunk true) ++ [.disconnect]

def isSpaceByte (b : UInt8) : Bool := b = 0x20 ∨ (0x09 ≤ b.toNat ∧ b.toNat ≤ 0x0D)

def strip (body : Bytes) : Bytes := (body.dropWhile isSpaceByte).reverse.dropWhile isSpaceByte |>.reverse

def judge (P : Interpreter) (maxDepth : Int) (body : Bytes) (rest : List Message) : Outcome :=
  if strip body = [] then .app (replayBuffered body rest)
  else if ! quickDepthMightExceed body maxDepth then .app (replayBuffered body rest)
  else
    match loads P body with
    | .error .decode => .app (replayBuffered body rest)
    | .error .recursion => .tooDeep
    | .error _ => .raised
    | .ok parsed => if jsonNestingDepthExceeds parsed maxDepth then .tooDeep else .app (replayBuffered body rest)

def call (P : Interpreter) (scope : Scope) (maxDepth : Int) (messages : List Message) : Option Outcome :=
  if ! guarded scope maxDepth then some (.app messages)
  else
    (receiveLoop [] messages).map (fun r =>
      match r.1 with
      | .disconnected chunks => .app (replayWithDisconnect chunks)
      | .body body => judge P maxDepth body r.2)

end FusionMlx.BodyDepth
