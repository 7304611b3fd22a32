import Mathlib
import Nslc.LSP.Documents
/-!
# LSP — envelopes and what the server does with one

A message the server reads is a JSON value. `dispatch` looks at its
method and id, passes it through the two lifecycle gates, and picks the
handler; which response is owed, and to whom, is decided here. The
version string of the build is a parameter.
-/

namespace Nslc

namespace LSP

inductive Json where
  | null
  | bool (b : Bool)
  | integer (i : ℤ)
  /-- A number that is no integer. -/
  | fraction
  | string (s : Text)
  | array (xs : List Json)
  | object (fields : List (Text × Json))

namespace Json

/-- `Object::get`; none for a value that is no object. -/
def get (key : Text) : Json → Option Json
  | .object fields => (fields.find? fun f => f.1 = key).map Prod.snd
  | _ => none

def isObject : Json → Bool
  | .object _ => true
  | _ => false

/-- `Value::getAsInteger`: numbers that an `int64_t` holds. -/
def asInteger : Json → Option ℤ
  | .integer i => if -2 ^ 63 ≤ i ∧ i < 2 ^ 63 then some i else none
  | _ => none

def asString : Json → Option Text
  | .string s => some s
  | _ => none

def asArray : Json → Option (List Json)
  | .array xs => some xs
  | _ => none

def getString (key : Text) (v : Json) : Option Text := (v.get key).bind asString

def getInteger (key : Text) (v : Json) : Option ℤ := (v.get key).bind asInteger

def getObject (key : Text) (v : Json) : Option Json := (v.get key).filter isObject

def getArray (key : Text) (v : Json) : Option (List Json) := (v.get key).bind asArray

end Json

/-- The id of a request: an `int64_t` or a string. -/
inductive RequestId where
  | integer (i : ℤ)
  | string (s : Text)
  deriving DecidableEq, Repr

def RequestId.fromJson (v : Json) : Option RequestId :=
  match v.asInteger with
  | some i => some (.integer i)
  | none => v.asString.map .string

/-! ## Responses -/

/-- What a response carries. -/
inductive Body where
  | result (v : Json)
  | error (code : ℤ) (message : Text)

structure Response where
  id : RequestId
  body : Body

def kInvalidRequest : ℤ := -32600
def kMethodNotFound : ℤ := -32601
def kServerNotInitialized : ℤ := -32002
def kRequestCancelled : ℤ := -32800

def requestCancelled : Body := .error kRequestCancelled "request cancelled".toList

def Body.isCancelled : Body → Bool
  | .result _ => false
  | .error code _ => code = kRequestCancelled

def buildCapabilities : Json :=
  .object [("foldingRangeProvider".toList, .bool true),
    ("textDocumentSync".toList, .object [("change".toList, .integer 1),
      ("openClose".toList, .bool true), ("save".toList, .bool false),
      ("willSave".toList, .bool false), ("willSaveWaitUntil".toList, .bool false)])]

def buildInitializeResult (version : Text) : Json :=
  .object [("capabilities".toList, buildCapabilities),
    ("serverInfo".toList, .object [("name".toList, .string "nsl-lsp".toList),
      ("version".toList, .string version)])]

/-! ## Methods -/

/-- The methods that have a handler, and the rest by name. -/
inductive Method where
  | initializeRequest
  | initialized
  | shutdown
  | exit
  | didOpen
  | didChange
  | didClose
  | foldingRange
  | cancelRequest
  | other (name : Text)
  deriving DecidableEq, Repr

namespace Method

def ofText (name : Text) : Method :=
  if name = "initialize".toList then .initializeRequest
  else if name = "initialized".toList then .initialized
  else if name = "shutdown".toList then .shutdown
  else if name = "exit".toList then .exit
  else if name = "textDocument/didOpen".toList then .didOpen
  else if name = "textDocument/didChange".toList then .didChange
  else if name = "textDocument/didClose".toList then .didClose
  else if name = "textDocument/foldingRange".toList then .foldingRange
  else if name = "$/cancelRequest".toList then .cancelRequest
  else .other name

/-- `starts_with("$/")`. -/
def dollar : Method → Bool
  | .cancelRequest => true
  | .other name => "$/".toList.isPrefixOf name
  | _ => false

/-- Let through before `initialized`. -/
def early : Method → Bool
  | .initializeRequest | .initialized | .shutdown | .exit => true
  | m => m.dollar

/-- Let through after `shutdown`. -/
def late : Method → Bool
  | .exit => true
  | m => m.dollar

/-- The protocol's notifications among the methods that have a handler. -/
def notification : Method → Bool
  | .initialized | .exit | .didOpen | .didChange | .didClose | .cancelRequest => true
  | _ => false

end Method

/-! ## Params -/

def onDidOpen (params : Json) : Option (Notification Text) :=
  (params.getObject "textDocument".toList).bind fun td =>
    let uri := (td.getString "uri".toList).getD []
    let text := (td.getString "text".toList).getD []
    let version := (td.getInteger "version".toList).getD 0
    if uri = [] then none else some (.didOpen uri version text)

/-- Up to the stale check: one change, of the whole text. -/
def onDidChange (params : Json) : Option (Notification Text) :=
  (params.getObject "textDocument".toList).bind fun td =>
    (params.getArray "contentChanges".toList).bind fun changes =>
      let uri := (td.getString "uri".toList).getD []
      let version := (td.getInteger "version".toList).getD 0
      if uri = [] then none
      else
        match changes with
        | [change] =>
          if change.isObject ∧ (change.get "range".toList).isNone then
            some (.didChange uri version ((change.getString "text".toList).getD []))
          else none
        | _ => none

def onDidClose (params : Json) : Option (Notification Text) :=
  (params.getObject "textDocument".toList).bind fun td =>
    let uri := (td.getString "uri".toList).getD []
    if uri = [] then none else some (.didClose uri)

/-- The URI of a folding request; `none` where the params are no
object. -/
def foldingUri (params : Json) : Option Text :=
  if params.isObject then
    some (((params.getObject "textDocument".toList).bind fun td => td.getString "uri".toList).getD [])
  else none

def onCancelRequest (params : Json) : Option RequestId :=
  (params.get "id".toList).bind RequestId.fromJson

/-! ## Dispatch -/

/-- What an envelope makes the dispatch thread do. -/
inductive Handler where
  | ignored
  | respond (r : Response)
  | initialized
  | shutdown (id : RequestId)
  | exit
  | document (n : Notification Text)
  | fold (id : RequestId) (uri : Text)
  | cancel (id : RequestId)

namespace Handler

/-- An error for a request, nothing for a notification. -/
def refuse (id : Option RequestId) (code : ℤ) (message : Text) : Handler :=
  match id with
  | none => .ignored
  | some id => .respond ⟨id, .error code message⟩

def ofNotification : Option (Notification Text) → Handler
  | none => .ignored
  | some n => .document n

end Handler

section Dispatch

variable (version : Text)

/-- Method dispatch, behind the gates. -/
def handle (method : Method) (id : Option RequestId) (params : Json) : Handler :=
  match method, id with
  | .initializeRequest, some id => .respond ⟨id, .result (buildInitializeResult version)⟩
  | .initializeRequest, none => .ignored
  | .initialized, _ => .initialized
  | .shutdown, some id => .shutdown id
  | .shutdown, none => .ignored
  | .exit, _ => .exit
  | .didOpen, _ => .ofNotification (onDidOpen params)
  | .didChange, _ => .ofNotification (onDidChange params)
  | .didClose, _ => .ofNotification (onDidClose params)
  | .foldingRange, some id =>
    match foldingUri params with
    | none => .respond ⟨id, .result (.array [])⟩
    | some uri => .fold id uri
  | .foldingRange, none => .ignored
  | .cancelRequest, _ =>
    match onCancelRequest params with
    | none => .ignored
    | some id => .cancel id
  | .other name, id => .refuse id kMethodNotFound ("method not found: ".toList ++ name)

def Json.method (envelope : Json) : Option Method :=
  (envelope.getString "method".toList).map Method.ofText

def Json.id (envelope : Json) : Option RequestId :=
  (envelope.get "id".toList).bind RequestId.fromJson

/-- `null` where there are none. -/
def Json.params (envelope : Json) : Json := (envelope.get "params".toList).getD .null

def dispatch (initialized shutdownReceived : Bool) (envelope : Json) : Handler :=
  match envelope.method with
  | none => .ignored
  | some method =>
    if !initialized && !method.early then
      .refuse envelope.id kServerNotInitialized
        "server not initialized: send 'initialize' first".toList
    else if shutdownReceived && !method.late then
      .refuse envelope.id kInvalidRequest "request received after shutdown".toList
    else handle version method envelope.id envelope.params

end Dispatch

end LSP

end Nslc
