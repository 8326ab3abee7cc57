import Mathlib.Data.List.Basic

/-! The part of the C ABI that the request machinery reads and returns. -/
namespace Hyper4k.Bridge

abbrev Bytes := List UInt8

/-- `HYPER4K_ERR_*`, the asynchronous channel. -/
inductive ErrorKind
  | none | dns | connect | tlsCa | tlsHostname | tlsExpired | tlsOther | alpnNoH2 | protocol
  | timeout | idleTimeout | cancelled | truncated | outcomeUnknown
  deriving DecidableEq, Repr

/-- `HYPER4K_STATUS_*`, the synchronous channel. -/
inductive Status
  | ok | abiMismatch | structSize | invalidArg | unsupported | clientClosed | resourceExhausted
  | notFound | alreadyDone | notPaused
  deriving DecidableEq, Repr

/-- What an `OnChunk` callback returns. Any other code acts as `cont`. -/
inductive ChunkAction
  | cont | pause | cancel
  deriving DecidableEq, Repr

structure Terminal where
  kind : ErrorKind
  protocolCode : UInt32 := 0
  message : String
  deriving DecidableEq, Repr

/-- `deliver_done`: success reaches the user as a null error. -/
def Terminal.error (t : Terminal) : Option Terminal := if t.kind = .none then .none else some t

inductive Event
  | headers (status : UInt16) (version : UInt8) (fields : List (Bytes × Bytes))
  | chunk (data : Bytes)
  deriving DecidableEq, Repr

inductive Callback
  | onHeaders (status : UInt16) (version : UInt8) (fields : List (Bytes × Bytes))
  | onChunk (data : Bytes)
  | onDone (error : Option Terminal)
  deriving DecidableEq, Repr

/-- The user callback `Slot::deliver` runs for an event. `onChunk` says whether the
request was sent with an `OnChunk`; without one the body is discarded. -/
def Event.callback (onChunk : Bool) : Event → Option Callback
  | .headers status version fields => some (.onHeaders status version fields)
  | .chunk data => if onChunk then some (.onChunk data) else .none

/-- `Slot::deliver` maps the headers action onto the chunk actions: a cancel
survives, and a pause means nothing before the first chunk. -/
def Event.action : Event → ChunkAction → Option ChunkAction
  | .headers .., .cancel => some .cancel
  | .headers .., _ => none
  | .chunk _, a => some a

end Hyper4k.Bridge
