import ClassSort.Config.Search
import ClassSort.Config.Source
import ClassSort.Order.Expiring
import ClassSort.Order.Resolver

/-!
# Contexts for configurations

The service hands out resolvers. Requests whose configurations have the same identity share one
for as long as its context lives; a context is made when there is none. A request is two steps:
its configuration is resolved, then its context is looked up or made. Either may fail, and then
nothing that other requests use is lost.
-/

namespace ClassSort

structure Oracle (σ κ : Type) extends Ranking σ κ where
  create : FileTree → ResolvedConfig → σ → Except OrderError κ × σ

structure ConfigRequest where
  source : ConfigSource
  /-- Search upwards from the processed file instead. -/
  monorepo : Bool
  /-- Relative paths start here, and searches end here. -/
  cwd : Path
  /-- The file being processed. -/
  file : Option Path

namespace ConfigRequest

def searched (files : FileTree) (r : ConfigRequest) : Except OrderError ConfigSource := do
  let start := r.cwd.join ((r.file.bind Path.parent?).getD r.cwd)
  let configured := match r.source with
    | .path p => p.fileName?
    | .inline _ => none
  .ok (.path (← ConfigSearch.find files r.cwd start configured))

end ConfigRequest

/-- The resolvers made so far, by number, and the live ones among them by identity. -/
structure Service (κ : Type) where
  configs : ConfigResolver
  contexts : Expiring ConfigIdentity Nat
  resolvers : List (Resolver κ)

namespace Service

variable {σ κ : Type}

def contextTtl : Nat := 10000

/-- From this major version on configurations are no files that could be searched for. -/
def cssFirstVersion : Nat := 4

def new (refresh ttl : Nat) : Service κ := ⟨.new refresh, .empty ttl, []⟩

def config (service : Service κ) (files : FileTree) (request : ConfigRequest) (now : Nat) :
    Except OrderError ResolvedConfig × Service κ :=
  let source := if request.monorepo then request.searched files else .ok request.source
  match source with
  | .error e => (.error e, service)
  | .ok source =>
    let (result, configs) := service.configs.resolve files source request.cwd now
    (result, { service with configs })

/-- Makes a context; a searched configuration is refused where the framework has none in files. -/
def create (o : Oracle σ κ) (files : FileTree) (monorepo : Bool) (config : ResolvedConfig) (s : σ) :
    Except OrderError κ × σ :=
  match o.create files config s with
  | (.error e, s) => (.error e, s)
  | (.ok context, s) =>
    match o.version context with
    | some v => if monorepo ∧ cssFirstVersion ≤ v then (.error (.monorepoUnsupported v), s) else (.ok context, s)
    | none => (.ok context, s)

def context (o : Oracle σ κ) (service : Service κ) (files : FileTree) (monorepo : Bool)
    (config : ResolvedConfig) (now : Nat) (s : σ) : Except OrderError Nat × Service κ × σ :=
  match service.contexts.get config.identity now with
  | (some id, contexts) => (.ok id, { service with contexts }, s)
  | (none, contexts) =>
    let service := { service with contexts }
    match create o files monorepo config s with
    | (.error e, s) => (.error e, service, s)
    | (.ok made, s) =>
      let id := service.resolvers.length
      let contexts := (service.contexts.purge now).insert config.identity id now
      (.ok id, { service with contexts, resolvers := service.resolvers ++ [.new made] }, s)

def resolver (o : Oracle σ κ) (service : Service κ) (files : FileTree) (request : ConfigRequest)
    (now : Nat) (s : σ) : Except OrderError Nat × Service κ × σ :=
  match service.config files request now with
  | (.error e, service) => (.error e, service, s)
  | (.ok config, service) => service.context o files request.monorepo config now s

def onResolver {α : Type} (service : Service κ) (id : Nat) (otherwise : α)
    (run : Resolver κ → σ → α × Resolver κ × σ) (s : σ) : α × Service κ × σ :=
  match service.resolvers[id]? with
  | none => (otherwise, service, s)
  | some r =>
    let (result, r, s) := run r s
    (result, { service with resolvers := service.resolvers.set id r }, s)

end Service

end ClassSort
