import ClassSort.Config.Source
import ClassSort.Json.Decode
import ClassSort.Options
import ClassSort.Toml.Read

/-!
# Settings

What a run is configured by: what is checked, the framework's configuration, and who ranks the
classes. Every field of a settings file may be left out; unknown fields are skipped.
-/

namespace ClassSort

structure Settings where
  sort : SortOptions
  config : ConfigSource
  /-- Search for the configuration upwards from each file. -/
  monorepo : Bool
  /-- Program and arguments of the worker; `none` stands for the bundled one. -/
  worker : Option (List String)
  /-- A table of orders that answers in place of a worker. -/
  table : Option Path

namespace Declarations

def decode (v : Json) : Option Declarations := do
  match ← v.record ["prefix", "suffix", "names"] with
  | [leading, trailing, names] =>
    some {
      leading := ← Json.withDefault [] Json.decodeStrings leading
      trailing := ← Json.withDefault [] Json.decodeStrings trailing
      names := ← Json.withDefault [] Json.decodeStrings names }
  | _ => failure

end Declarations

namespace SortOptions

def fieldNames : List String := ["callees", "declarations", "ignoredKeys", "tags", "removeDuplicates"]

def decode (v : Json) : Option SortOptions := do
  match ← v.record fieldNames with
  | [callees, declarations, ignoredKeys, tags, removeDuplicates] =>
    some {
      callees := ← Json.withDefault standard.callees Json.decodeStrings callees
      declarations := ← Json.withDefault standard.declarations Declarations.decode declarations
      ignoredKeys := ← Json.withDefault standard.ignoredKeys Json.decodeStrings ignoredKeys
      tags := ← Json.withDefault standard.tags Json.decodeStrings tags
      removeDuplicates := ← Json.withDefault standard.removeDuplicates Json.decodeBool removeDuplicates }
  | _ => none

end SortOptions

def ConfigSource.decode : Json → ConfigSource
  | .str text => .path ⟨text⟩
  | v => .inline v.canonical

namespace Settings

def standard : Settings := ⟨.standard, .standard, false, none, none⟩

def fileName : String := "weft.toml"

def decodeFields (v : Json) : Option Settings := do
  match ← v.record ["config", "monorepo", "worker", "table"] with
  | [config, monorepo, worker, table] =>
    some {
      sort := ← SortOptions.decode v
      config := (config.map ConfigSource.decode).getD .standard
      monorepo := ← Json.withDefault false Json.decodeBool monorepo
      worker := ← Json.withDefault none (Json.decodeOption Json.decodeStrings) worker
      table := (← Json.withDefault none (Json.decodeOption Json.string?) table).map Path.mk }
  | _ => none

/-- Settings are an object that holds the fields of the options beside its own. -/
def decode : Json → Option Settings
  | .obj fields => decodeFields (.obj fields)
  | _ => none

/-- Reads a settings file. A field is left out or has a value: what is no number does not stand for
a worker or a table that is not there. -/
def parse? (text : String) : Option Settings := do
  let entries ← Toml.parse? text
  let isNothing (key : String) : Bool :=
    match entries.lookup key with
    | some .nonFinite => true
    | _ => false
  if isNothing "worker" || isNothing "table" then none
  else decode (.obj (Toml.entriesToJson entries))

end Settings

end ClassSort
