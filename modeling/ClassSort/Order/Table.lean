import ClassSort.Json.Read
import ClassSort.Order.Service
import ClassSort.Worker.Message

/-!
# Order tables

A table lists the keys of the classes it knows and answers without a worker. It ignores the
framework's configuration. A table kept in a file is read again for every context.
-/

namespace ClassSort

structure OrderTable where
  /-- What every class begins with. -/
  leading : String
  version : Option Nat
  layers : LayerBands
  /-- The keys of the known classes; of two keys for a class the last counts. -/
  order : List (String × OrderKey)
  deriving DecidableEq, Repr

namespace OrderTable

def none : OrderTable := ⟨"", .none, [], []⟩

def key? (t : OrderTable) (token : String) : Option OrderKey := t.order.reverse.lookup token

def layer? (t : OrderTable) (layer : Layer) : Option OrderKey := t.layers.lookup layer

def decode (v : Json) : Option OrderTable := do
  match ← v.record ["prefix", "version", "layers", "order"] with
  | [leading, version, layers, order] =>
    some {
      leading := ← Json.withDefault "" Json.string? leading
      version := ← Json.withDefault .none (Json.decodeOption (Json.decodeNat 32)) version
      layers := ← Json.withDefault [] Message.decodeLayers layers
      order := ← Json.withDefault [] decodeOrder order }
  | _ => failure
where
  decodeOrder : Json → Option (List (String × OrderKey))
    | .obj fields => fields.mapM fun (name, v) => do some (name, ← Json.decodeKey v)
    | _ => failure

def parse? (text : String) : Option OrderTable := (Json.parseRaw? text.toList).bind decode

/-- A table as the only context of a ranking. -/
def ranking {σ : Type} : Ranking σ OrderTable where
  classOrder t tokens s := (.ok (tokens.map fun token => (token, t.key? token)), s)
  leading t := t.leading
  layerStart := layer?
  version t := t.version

def fixed {σ : Type} (t : OrderTable) : Oracle σ OrderTable :=
  { ranking with create := fun _ _ s => (.ok t, s) }

/-- Reads a table file. -/
def read (files : FileTree) (p : Path) : Except OracleError OrderTable :=
  match files.read p with
  | .error e => .error (.table p e.message)
  | .ok text =>
    match parse? text with
    | some t => .ok t
    | .none => .error .malformed

def fromFile {σ : Type} (p : Path) : Oracle σ OrderTable :=
  { ranking with create := fun files _ s => ((read files p).mapError .oracle, s) }

end OrderTable

end ClassSort
