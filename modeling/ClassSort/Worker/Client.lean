import ClassSort.Worker.Frame
import ClassSort.Worker.Message

/-!
# The worker client

A worker is a process that answers one request at a time. The client starts it when it is first
needed, and again after it failed: a request is repeated on a fresh process until it is answered or
the allowed number of restarts is used up. Every attempt has a number of its own.

What a worker does is a value: whether its `k`-th launch succeeds, and if so, how it takes a request and what
it puts on its output, in the time that a request may take, when it receives one. What the
client does not read stays on the output.
-/

namespace ClassSort

inductive Reading where
  | message (value : Json)
  | closed
  | failed (cause : OracleError) {fatal : cause.isFatal = true}

/-- What a client reads off a stream, one frame after the other; `none` if that stops the program. -/
def Reading.ofStream (ended : Bool) (bytes : Frame.Bytes) : Option (List Reading) :=
  let (messages, last) := Frame.readAll ended bytes
  let before := messages.map .message
  match last with
  | .finished => some (before ++ [.closed])
  | .failed cause fatal => some (before ++ [@failed cause fatal])
  | .overflow => none
  | _ => some before

inductive Writing where
  | done
  | broken
  /-- The worker does not take the request in time. -/
  | stalled
  deriving DecidableEq, Repr

/-- What a worker does, launch by launch; those that fail count, too. -/
structure Behaviour where
  refusal : Nat → Option String
  /-- How it goes with the last of the requests for a launch. -/
  writing : Nat → List Json → Writing := fun _ _ => .done
  /-- The output of a launch, frame by frame, upon the last of the requests it has received. -/
  output : Nat → List Json → List Reading

structure Process where
  launch : Nat
  received : List Json
  /-- Output that was not read yet. -/
  pipe : List Reading

structure WorkerConfig where
  /-- Program and arguments. -/
  command : List String
  cwd : Option Path
  /-- How many milliseconds a request may take. -/
  timeout : Nat
  /-- How many failures in a row lead to a restart. -/
  maxRestarts : Nat
  deriving DecidableEq, Repr

structure Client where
  config : WorkerConfig
  process : Option Process
  nextId : Nat
  restarts : Nat
  /-- Launches that were tried. -/
  launches : Nat

namespace WorkerConfig

def new (command : List String) : WorkerConfig := ⟨command, none, 30000, 3⟩

def node (file : String) : WorkerConfig := new ["node", file]

def bundled (script : String) : WorkerConfig := new ["node", "--input-type=module", "--eval", script]

end WorkerConfig

namespace Client

def new (config : WorkerConfig) : Except OracleError Client :=
  if config.command.isEmpty then .error .emptyCommand else .ok ⟨config, none, 0, 0, 0⟩

def isRunning (c : Client) : Bool := c.process.isSome

/-- Reads up to the answer to request `id`. Older answers and notifications are dropped; output
that ends without the answer means that the time runs out. -/
def await (timeout id : Nat) : List Reading → Except OracleError Json × List Reading
  | [] => (.error (.timeout timeout), [])
  | .closed :: rest => (.error .exited, rest)
  | .failed e :: rest => (.error e, rest)
  | .message m :: rest =>
    match Message.classify m with
    | .error e => (.error e, rest)
    | .ok (.notification _ _) => await timeout id rest
    | .ok (.response got result) =>
      if got = id then
        match result with
        | .ok v => (.ok v, rest)
        | .error e => (.error (.remote e.code e.message), rest)
      else await timeout id rest

def ensure (b : Behaviour) (c : Client) : Except OracleError Process × Client :=
  match c.process with
  | some p => (.ok p, c)
  | none =>
    match c.config.command with
    | [] => (.error .emptyCommand, c)
    | program :: _ =>
      let tried := { c with launches := c.launches + 1 }
      match b.refusal c.launches with
      | some reason => (.error (.spawn program reason), tried)
      | none => (.ok ⟨c.launches, [], []⟩, tried)

def exchange (b : Behaviour) (method : String) (params : Json) (p : Process) (c : Client) :
    Except OracleError Json × Client :=
  let received := p.received ++ [Message.request c.nextId method params]
  let (result, pipe) :=
    match b.writing p.launch received with
    | .done => await c.config.timeout c.nextId (p.pipe ++ b.output p.launch received)
    | .broken => (.error .broken, p.pipe)
    | .stalled => (.error (.timeout c.config.timeout), p.pipe)
  (result, { c with process := some { p with received, pipe }, nextId := c.nextId + 1 })

def attempt (b : Behaviour) (method : String) (params : Json) :
    Nat → Client → Except OracleError Json × Client
  | left, c =>
    match c.ensure b with
    | (.error e, c) => (.error e, c)
    | (.ok p, c) =>
      match c.exchange b method params p with
      | (.ok v, c) => (.ok v, { c with restarts := 0 })
      | (.error e, c) =>
        if !e.isFatal then (.error e, c)
        else
          let c := { c with process := none }
          match left with
          | 0 => (.error e, c)
          | left + 1 => attempt b method params left { c with restarts := c.restarts + 1 }

def request (b : Behaviour) (method : String) (params : Json) (c : Client) :
    Except OracleError Json × Client :=
  c.attempt b method params (c.config.maxRestarts - c.restarts)

/-- The answer to a request, read as a value of known shape. -/
def requestAs {α : Type} (b : Behaviour) (decode : Json → Option α) (method : String) (params : Json)
    (c : Client) : Except OracleError α × Client :=
  match c.request b method params with
  | (.error e, c) => (.error e, c)
  | (.ok v, c) =>
    match decode v with
    | some a => (.ok a, c)
    | none => (.error .malformed, c)

end Client

end ClassSort
