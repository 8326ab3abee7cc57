import Mathlib.Data.List.Basic
import Hyper4k.Bridge.Abi
import Hyper4k.Runs.Guarded

/-! The Kotlin side of a client request. The C callbacks publish into `RequestState`, and
`Hyper4kResponseStream` takes from it. The engine is the one the ABI specifies. -/
namespace Hyper4k.Kotlin
open Bridge

inductive ClientEvent
  | headers (status : UInt16) (version : UInt8) (fields : List (Bytes × Bytes))
  | chunk (bytes : Bytes)
  | done (error : Option Terminal)
  deriving DecidableEq, Repr

def ClientEvent.isChunk : ClientEvent → Bool
  | .chunk _ => true
  | _ => false

/-- What `send` requires of its `chunkHighWater`. -/
abbrev HighWater := { n : Int32 // 0 < n }

structure RequestState where
  highWater : HighWater
  events : List ClientEvent := []
  closed : Bool := false
  queued : Int32 := 0
  paused : Bool := false
  requestId : Int64 := 0
  deriving DecidableEq, Repr

/-- An unlimited channel refuses nothing until it is closed. -/
def RequestState.trySend (st : RequestState) (e : ClientEvent) : RequestState :=
  if st.closed then st else { st with events := st.events ++ [e] }

/-- The engine between two callbacks, or the next access of the callback it is in. A pause
takes effect some time after the callback has returned it. -/
inductive EnginePc
  | sending
  | running
  | pausing
  | parked
  | cancelled
  | done
  | onHeaders (status : UInt16) (version : UInt8) (fields : List (Bytes × Bytes))
  | increment (bytes : Bytes)
  | trySend (bytes : Bytes) (queued : Int32)
  | storePaused
  | returning (action : ChunkAction)
  | sendDone (error : Option Terminal)
  | close
  deriving DecidableEq, Repr

/-- `OnDone` may follow at any time, except inside another callback. -/
def EnginePc.mayFinish : EnginePc → Bool
  | .sending | .running | .pausing | .parked | .cancelled => true
  | _ => false

/-- What a callback's return means to the engine; `permit` is a resume during it. -/
def EnginePc.after (permit : Bool) : ChunkAction → EnginePc
  | .cont => .running
  | .pause => if permit then .running else .pausing
  | .cancel => .cancelled

/-- The next access of `next` and of the `resumeWhenParked` it calls. -/
inductive ConsumerPc
  | unsent
  | outside
  | receive
  | decrement
  | loadPaused (remaining : Int32)
  | awaitRequestId
  | resume
  | delay
  | storePaused
  deriving DecidableEq, Repr

structure Session extends RequestState where
  engine : EnginePc := .sending
  permit : Bool := false
  consumer : ConsumerPc := .unsent
  deriving DecidableEq, Repr

namespace Session

def publish (s : Session) (e : ClientEvent) : Session := { s with toRequestState := s.toRequestState.trySend e }

/-- The next access of `onHeaders`, `onChunk` or `onDone`. -/
def callback (s : Session) : Option Session :=
  match s.engine with
  | .onHeaders status version fields =>
    some { s.publish (.headers status version fields) with engine := .returning .cont }
  | .increment bytes => some { s with queued := s.queued + 1, engine := .trySend bytes (s.queued + 1) }
  | .trySend bytes queued =>
    some { s.publish (.chunk bytes) with
      engine := if queued ≥ s.highWater.val then .storePaused else .returning .cont }
  | .storePaused => some { s with paused := true, engine := .returning .pause }
  | .returning action => some { s with engine := .after s.permit action, permit := false }
  | .sendDone error => some { s.publish (.done error) with engine := .close }
  | .close => some { s with closed := true, engine := .done }
  | _ => none

/-- The callback's body throws: `onHeaders` and `onChunk` cancel, `onDone` gives up. -/
def throw (s : Session) : Option Session :=
  match s.engine with
  | .onHeaders .. | .increment _ | .trySend .. => some { s with engine := .returning .cancel }
  | .sendDone _ | .close => some { s with engine := .done }
  | _ => none

/-- `hyper4k_client_resume`, as specified. -/
def resume (s : Session) : Status × Session :=
  match s.engine with
  | .parked => (.ok, { s with engine := .running })
  | .onHeaders .. | .increment _ | .trySend .. | .storePaused | .returning _ => (.ok, { s with permit := true })
  | .sendDone _ | .close | .done => (.alreadyDone, s)
  | .sending | .running | .pausing | .cancelled => (.notPaused, s)

/-- The next access of `next`. -/
def consume (s : Session) : Option Session :=
  match s.consumer with
  | .unsent | .outside => none
  | .receive =>
    match s.events with
    | .chunk _ :: rest => some { s with events := rest, consumer := .decrement }
    | _ :: rest => some { s with events := rest, consumer := .outside }
    -- a closed channel makes `receive` throw, an open one suspends it
    | [] => if s.closed then some { s with consumer := .outside } else none
  | .decrement => some { s with queued := s.queued - 1, consumer := .loadPaused (s.queued - 1) }
  | .loadPaused remaining =>
    some { s with
      consumer := if s.paused = true ∧ remaining ≤ s.highWater.val / 2 then .awaitRequestId else .outside }
  | .awaitRequestId => some { s with consumer := if 0 < s.requestId then .resume else .awaitRequestId }
  | .resume =>
    match s.resume with
    | (.notPaused, t) => some { t with consumer := .delay }
    | (_, t) => some { t with consumer := .storePaused }
  | .delay => some { s with consumer := .resume }
  | .storePaused => some { s with paused := false, consumer := .outside }

end Session

/-- The engine calls back with `headers`, `chunk` and `finish`, and `park`s; `callback` and
`throw` run the callback it is in. `sent` is the end of `send`, `next` a call of `next`, and
`consume` runs it. -/
inductive Act
  | headers (status : UInt16) (version : UInt8) (fields : List (Bytes × Bytes))
  | chunk (bytes : Bytes)
  | finish (error : Option Terminal)
  | park
  | callback
  | throw
  | sent (id : UInt64)
  | next
  | consume
  deriving DecidableEq, Repr

def Session.step (s : Session) : Act → Option Session
  | .headers status version fields =>
    if s.engine = .sending then some { s with engine := .onHeaders status version fields } else none
  | .chunk bytes => if s.engine = .running then some { s with engine := .increment bytes } else none
  | .finish error => if s.engine.mayFinish then some { s with engine := .sendDone error } else none
  | .park => if s.engine = .pausing then some { s with engine := .parked } else none
  | .callback => s.callback
  | .throw => s.throw
  | .sent id =>
    if s.consumer = .unsent then some { s with requestId := id.toInt64, consumer := .outside } else none
  | .next => if s.consumer = .outside then some { s with consumer := .receive } else none
  | .consume => s.consume

/-- A request with its callbacks registered, before `hyper4k_client_send`. -/
def Session.init (highWater : HighWater) : Session := { highWater }

abbrev Session.Reaches (ok : Session → Act → Prop) (s : Session) (as : List Act) (t : Session) : Prop :=
  Runs.Run Session.step ok s as t

end Hyper4k.Kotlin
