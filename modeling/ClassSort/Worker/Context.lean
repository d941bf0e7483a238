import ClassSort.Order.Service
import ClassSort.Worker.Client

/-!
# Contexts in a worker

A context that lives in a worker is addressed by its configuration. Every question carries the
configuration, so a worker that was restarted builds the context again.
-/

namespace ClassSort

structure WorkerContext where
  config : Json
  stamp : Nat
  info : LoadResult

namespace WorkerContext

def loadMethod : String := "load"
def classOrderMethod : String := "classOrder"
def logMethod : String := "log"

def asOrderError {α : Type} : Except OracleError α × Client → Except OrderError α × Client
  | (.ok a, c) => (.ok a, c)
  | (.error e, c) => (.error (.oracle e), c)

def load (b : Behaviour) (config : ResolvedConfig) (c : Client) : Except OrderError WorkerContext × Client :=
  let params := Message.loadQuery ⟨config.payload, config.stamp⟩
  match asOrderError (c.requestAs b Message.decodeLoadResult loadMethod params) with
  | (.ok info, c) => (.ok ⟨config.payload, config.stamp, info⟩, c)
  | (.error e, c) => (.error e, c)

/-- Contexts of the worker of a client. -/
def oracle (b : Behaviour) : Oracle Client WorkerContext where
  classOrder context tokens c :=
    asOrderError (c.requestAs b Message.decodeClassOrder classOrderMethod
      (Message.orderQuery ⟨context.config, context.stamp, tokens⟩))
  leading context := context.info.leading
  layerStart context layer := context.info.layers.lookup layer
  version context := context.info.version
  create _ config c := load b config c

end WorkerContext

end ClassSort
