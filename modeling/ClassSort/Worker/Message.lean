import ClassSort.Json.Decode
import ClassSort.Json.Write
import ClassSort.Order.Error
import ClassSort.Order.Resolver

/-!
# Messages

The client sends requests with numbers of their own; the worker sends answers, which carry the
number of a request, and notifications, which carry none. Requests from the worker are refused.
-/

namespace ClassSort

/-- An error that a worker answers with. -/
structure ResponseError where
  code : Int
  message : String
  deriving DecidableEq, Repr

inductive Inbound where
  | response (id : Nat) (result : Except ResponseError Json)
  | notification (method : String) (params : Json)

/-- What a worker reports about a configuration it has loaded. -/
structure LoadResult where
  version : Option Nat
  leading : String
  layers : LayerBands
  deriving DecidableEq, Repr

structure LogLine where
  level : String
  message : String
  deriving DecidableEq, Repr

/-- Asks a worker to load a configuration. A new stamp makes it load the configuration again. -/
structure LoadQuery where
  config : Json
  stamp : Nat

/-- Asks a worker for the keys of classes. -/
structure OrderQuery where
  config : Json
  stamp : Nat
  classes : List String

namespace Layer

def name : Layer → String
  | base => "base"
  | components => "components"
  | utilities => "utilities"

def ofName? : String → Option Layer
  | "base" => some base
  | "components" => some components
  | "utilities" => some utilities
  | _ => none

end Layer

def LayerBands.set (bands : LayerBands) (layer : Layer) (key : OrderKey) : LayerBands :=
  bands.filter (·.1 != layer) ++ [(layer, key)]

namespace Message

def request (id : Nat) (method : String) (params : Json) : Json :=
  .obj [("id", .int id), ("jsonrpc", .str "2.0"), ("method", .str method), ("params", params)]

def loadQuery (q : LoadQuery) : Json :=
  .obj [("config", q.config), ("stamp", .int q.stamp)]

def orderQuery (q : OrderQuery) : Json :=
  .obj [("classes", .arr (q.classes.map .str)), ("config", q.config), ("stamp", .int q.stamp)]

def decodeLoadQuery (v : Json) : Option LoadQuery := do
  match ← v.record ["config", "stamp"] with
  | [some config, some stamp] => some ⟨config, ← Json.decodeNat 64 stamp⟩
  | _ => none

def decodeOrderQuery (v : Json) : Option OrderQuery := do
  match ← v.record ["config", "stamp", "classes"] with
  | [some config, some stamp, some classes] =>
    some ⟨config, ← Json.decodeNat 64 stamp, ← Json.decodeStrings classes⟩
  | _ => none

def decodeLayers : Json → Option LayerBands
  | .obj fields => fields.foldlM (fun bands (name, v) => do
      some (LayerBands.set bands (← Layer.ofName? name) (← Json.decodeKey v))) []
  | _ => none

def decodeLoadResult (v : Json) : Option LoadResult := do
  match ← v.record ["version", "prefix", "layers"] with
  | [version, leading, layers] =>
    some {
      version := ← Json.withDefault none (Json.decodeOption (Json.decodeNat 32)) version
      leading := ← Json.withDefault "" Json.string? leading
      layers := ← Json.withDefault [] decodeLayers layers }
  | _ => none

def decodeClassOrder : Json → Option (List (String × Option OrderKey)) :=
  Json.decodeList fun
    | .arr [name, key] => do some (← name.string?, ← Json.decodeOption Json.decodeKey key)
    | _ => none

def decodeResponseError (v : Json) : Option ResponseError := do
  match ← v.record ["code", "message"] with
  | [some code, some message] => some ⟨← Json.decodeInt code, ← message.string?⟩
  | _ => none

def decodeLogLine (v : Json) : Option LogLine := do
  match ← v.record ["level", "message"] with
  | [level, some message] => some ⟨← Json.withDefault "" Json.string? level, ← message.string?⟩
  | _ => none

def classify (m : Json) : Except OracleError Inbound :=
  match m.field? "id", (m.field? "method").bind Json.string? with
  | some id, none =>
    match id.unsigned? with
    | none => .error (.protocol s!"unexpected response id {id.print}")
    | some id =>
      match m.field? "error" with
      | some e =>
        match decodeResponseError e with
        | some e => .ok (.response id (.error e))
        | none => .error .malformed
      | none => .ok (.response id (.ok ((m.field? "result").getD .null)))
  | none, some method => .ok (.notification method ((m.field? "params").getD .null))
  | some _, some method => .error (.protocol s!"worker sent unsupported request `{method}`")
  | none, none => .error (.protocol "message has neither id nor method")

end Message

end ClassSort
