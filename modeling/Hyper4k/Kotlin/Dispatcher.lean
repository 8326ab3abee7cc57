import Mathlib.Logic.Function.Basic
import Hyper4k.Runs.Guarded
import Hyper4k.Server.Responder

/-! The Kotlin request dispatcher: admission, the handler with its response channel, and the
one place that decides how a request is answered. -/
namespace Hyper4k.Dispatch
open Server (Code Responder Entries)
open Text

structure Hyper4kResponse where
  status : Int32
  headers : Entries := []
  body : Octets := []
  streamed : Bool := false
  deriving DecidableEq, Repr

structure NativeResponseChannel where
  started : Bool := false
  finished : Bool := false
  written : Nat := 0
  deriving DecidableEq, Repr

namespace NativeResponseChannel

def isStreaming (c : NativeResponseChannel) : Bool := c.started && !c.finished

/-- The methods, for a given result of the native call. An error is an exception. -/
def begin (c : NativeResponseChannel) (rc : Code) : Except String Unit × NativeResponseChannel :=
  if c.started then (.error "hyper4k: response already begun", c)
  else if rc = .ok then (.ok (), { c with started := true })
  else (.error ("hyper4k_response_begin failed with " ++ toString rc.value), c)

def write (c : NativeResponseChannel) (chunk : Octets) (rc : Code) : Except String Bool × NativeResponseChannel :=
  if !c.started then (.error "hyper4k: write before begin", c)
  else if c.finished then (.error "hyper4k: write after finish", c)
  else if chunk.isEmpty then (.ok true, c)
  else match rc with
    | .ok => (.ok true, { c with written := c.written + chunk.length })
    | .clientGone => (.ok false, c)
    | .wouldBlock => (.error ("hyper4k_response_write would block on an engine thread; " ++
        "streaming writes must run on a blocking-capable dispatcher"), c)
    | .failed | .wrongState => (.error ("hyper4k_response_write failed with " ++ toString rc.value), c)

def finish (c : NativeResponseChannel) (rc : Code) : Except String Unit × NativeResponseChannel :=
  if !c.started || c.finished then (.ok (), c)
  else if rc = .ok ∨ rc = .wrongState then (.ok (), { c with finished := true })
  else (.error ("hyper4k_response_finish failed with " ++ toString rc.value), { c with finished := true })

end NativeResponseChannel

/-- A call of the handler on its channel, with what the engine answers. -/
inductive Op
  | begin (rc : Code)
  | write (chunk : Octets) (rc : Code)
  | finish (rc : Code)
  deriving DecidableEq, Repr

def Op.run (c : NativeResponseChannel) : Op → NativeResponseChannel
  | .begin rc => (c.begin rc).2
  | .write chunk rc => (c.write chunk rc).2
  | .finish rc => (c.finish rc).2

/-- How the handler ends; a timeout or a cancellation strikes after any of its calls. -/
inductive Ending
  | returned (response : Hyper4kResponse)
  | timedOut
  | cancelled
  | threw
  deriving DecidableEq, Repr

/-- What the injected functions do for one request. `none` is an exception, except that
`newChannel` only says whether there was none. -/
structure Behaviour where
  newChannel : Bool := true
  ops : List Op := []
  ending : Ending
  failureResponse : Int32 → String → Option Hyper4kResponse
  complete : Option Bool := some true
  closeCode : Code := .ok

inductive Pc
  | away
  | loadAccepting
  | tryAcquire
  | addActive
  | recheckAccepting
  | refuse (slot : Bool)
  | newChannel
  | handler (ops : List Op)
  | recover (status : Int32) (message : String)
  | finish (response : Hyper4kResponse)
  | closeStream
  | complete (response : Hyper4kResponse) (slot : Bool)
  | subActive
  | releaseSlot
  | released
  | refused
  | thrown
  deriving DecidableEq, Repr

/-- The value of the `try` around the handler, or the branch that catches it. -/
def Ending.next : Ending → Pc
  | .returned response => .finish response
  | .timedOut => .recover 504 "Gateway Timeout"
  | .cancelled => .recover 503 "Service Unavailable"
  | .threw => .recover 500 "Internal Server Error"

/-- One call of `submit`. `completed` is a history: the responses given to `complete`. -/
structure Job where
  pc : Pc := .away
  channel : Option NativeResponseChannel := none
  completed : List Hyper4kResponse := []
  deriving DecidableEq, Repr

structure Config where
  maxConcurrentRequests : Nat
  behaviour : Responder → Behaviour

structure Dispatcher where
  accepting : Bool := true
  activeRequests : Int := 0
  slots : Nat
  droppedResponses : Nat := 0
  jobs : Responder → Job := fun _ => {}

namespace Dispatcher

def init (cfg : Config) : Dispatcher := { slots := cfg.maxConcurrentRequests }

def setJob (s : Dispatcher) (r : Responder) (job : Job) : Dispatcher :=
  { s with jobs := Function.update s.jobs r job }

def goto (s : Dispatcher) (r : Responder) (pc : Pc) : Dispatcher := s.setJob r { s.jobs r with pc := pc }

/-- `submit` and the coroutine it launches, one access or call at a time. -/
def exec (cfg : Config) (s : Dispatcher) (r : Responder) : Option Dispatcher :=
  let b := cfg.behaviour r
  match (s.jobs r).pc with
  | .loadAccepting => some (s.goto r (if s.accepting then .tryAcquire else .refuse false))
  | .tryAcquire =>
    some (if 0 < s.slots then { s with slots := s.slots - 1 }.goto r .addActive else s.goto r (.refuse false))
  | .addActive => some ({ s with activeRequests := s.activeRequests + 1 }.goto r .recheckAccepting)
  | .recheckAccepting => some (s.goto r (if s.accepting then .newChannel else .refuse true))
  | .refuse slot => some (s.goto r (match b.failureResponse 503 "Service Unavailable" with
    | some response => .complete response slot
    | none => .thrown))
  | .newChannel =>
    if b.newChannel then some (s.setJob r { s.jobs r with channel := some {}, pc := .handler b.ops })
    else some (s.goto r .thrown)
  | .handler (op :: ops) =>
    some (s.setJob r { s.jobs r with channel := (s.jobs r).channel.map op.run, pc := .handler ops })
  | .handler [] => some (s.goto r b.ending.next)
  | .recover status message => some (s.goto r (match b.failureResponse status message with
    | some response => .finish response
    | none => .thrown))
  | .finish response =>
    some (s.goto r (if (s.jobs r).channel.any (·.isStreaming) then .closeStream
      else if response.streamed then .subActive else .complete response true))
  -- `runCatching` drops what `finish` throws
  | .closeStream =>
    some (s.setJob r { s.jobs r with
      channel := (s.jobs r).channel.map fun c => (c.finish b.closeCode).2, pc := .subActive })
  | .complete response slot =>
    some ({ s with droppedResponses := s.droppedResponses + if b.complete = some true then 0 else 1 }.setJob r
      { s.jobs r with completed := (s.jobs r).completed ++ [response], pc := if slot then .subActive else .refused })
  | .subActive => some ({ s with activeRequests := s.activeRequests - 1 }.goto r .releaseSlot)
  | .releaseSlot => some ({ s with slots := s.slots + 1 }.goto r .released)
  | .away | .released | .refused | .thrown => none

end Dispatcher

inductive Act
  | submit (r : Responder)
  | exec (r : Responder)
  | stopAccepting
  deriving DecidableEq, Repr

def Dispatcher.step (cfg : Config) (s : Dispatcher) : Act → Option Dispatcher
  | .submit r => match (s.jobs r).pc with
    | .away => some (s.goto r .loadAccepting)
    | _ => none
  | .exec r => s.exec cfg r
  | .stopAccepting => some { s with accepting := false }

def single (ops : List Op) (ending : Ending) : Config where
  maxConcurrentRequests := 1
  behaviour _ := { ops, ending, failureResponse := fun status _ => some { status } }

abbrev Dispatcher.Reaches (cfg : Config) (ok : Dispatcher → Act → Prop) (as : List Act) (s : Dispatcher) : Prop :=
  Runs.Run (Dispatcher.step cfg) ok (Dispatcher.init cfg) as s

end Hyper4k.Dispatch
