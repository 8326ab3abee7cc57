import Hyper4k.Bridge.Retry

/-! One request's bridge slot and the code that runs on it, cut at every atomic
access, lock-protected section and callback boundary. -/
namespace Hyper4k.Bridge

abbrev ConnId := Nat

/-- `RequestState::state`. -/
inductive State
  | running | terminalDrain | terminalDiscard
  deriving DecidableEq, Repr

inductive Frame
  | data (bytes : Bytes)
  | trailers
  deriving DecidableEq, Repr

/-- `RequestState`, `Slot` and the abort handle of one request. The last five fields
are histories: what the response consisted of, what the network task queued, what
`deliver` was given, what was dropped as stale, and the callbacks started. -/
structure Slot where
  state : State := .running
  committed : Bool := false
  paused : Bool := false
  inCallback : Bool := false
  permit : Bool := false
  conn : Option ConnId := none
  pauseGuard : Option ConnId := none
  onChunk : Bool
  queue : List Event := []
  space : Nat
  terminal : Option Terminal := none
  doneReady : Bool := false
  scheduled : Bool := false
  running : Bool := false
  finishedFlag : Bool := false
  finished : Bool := true
  abort : Bool := false
  aborted : Bool := false
  head : Option Event := none
  frames : List Frame := []
  pushed : List Event := []
  handed : List Event := []
  dropped : List Event := []
  trace : List Callback := []
  deriving DecidableEq, Repr

/-- Who runs `settle_slot`: the `CANCEL` branch of `run_owned`, or
`RequestHandle::settle` from the network task, `cancel` or `close`. -/
inductive Caller
  | callback | task | cancel | close
  deriving DecidableEq, Repr

/-- Where `schedule_slot` returns to. -/
inductive After
  | settled (caller : Caller)
  | resumed
  | sent
  deriving DecidableEq, Repr

/-- What an attempt of the network task carries: the method's idempotency and the
retries left. -/
structure Attempt where
  idempotent : Bool
  budget : UInt32
  deriving DecidableEq, Repr

/-- Program counters. Each names the access that comes next; `iterate`, `scheduled`
and `settled` are a loop header and two returns. `n` counts the iterations left. -/
inductive Pc
  | away
  -- run_slice
  | swapRunning (budget : Nat)
  | bounce
  | releaseRunning (more : Bool)
  | loadFinished (more : Bool)
  | recheckQueue
  | requeue
  -- run_owned
  | clearScheduled (budget : Nat)
  | loadPaused (budget : Nat)
  | iterate (n : Nat)
  | popFront (n : Nat)
  | addPermits (n : Nat) (ev : Event)
  | loadState (n : Nat) (ev : Event)
  | setInCallback (n : Nat) (ev : Event)
  | deliver (n : Nat) (ev : Event)
  | inCallback (n : Nat) (ev : Event)
  | clearInCallback (n : Nat) (action : Option ChunkAction)
  | clearPermit (n : Nat)
  | swapPermit (n : Nat)
  | cancelPermit
  | checkEmpty
  | loadDone
  | takeTerminal
  | deliverDone (t : Terminal)
  | inDone
  | storeFinished
  | takeFinished
  | dropBytes
  | dropInflight
  | removeRequest
  | leave
  -- enter_pause
  | enterPause
  | newGuard
  | storeGuard (guard : Option ConnId)
  -- settle_slot
  | claim (caller : Caller) (t : Terminal) (discard : Bool)
  | lostPaused (caller : Caller)
  | storeTerminal (caller : Caller) (t : Terminal) (discard : Bool)
  | storeDone (caller : Caller) (discard : Bool)
  | wakeProducer (caller : Caller) (discard : Bool)
  | wonPaused (caller : Caller)
  -- leave_pause, then schedule_slot
  | leavePause (after : After)
  | dropGuard (after : After)
  | swapScheduled (after : After)
  | pushReady (after : After)
  | scheduled (after : After)
  -- back from settle_slot; RequestHandle::settle aborts the task
  | settled (caller : Caller)
  -- RequestHandle::resume
  | resumePaused
  | resumeInCallback
  | resumePermit
  | resumeState
  -- hyper4k_client_cancel
  | cancelState
  | returned (status : Status)
  -- attempt_loop
  | acquire (a : Attempt)
  | bind (a : Attempt) (conn : ConnId)
  | trySend (a : Attempt)
  | loadCommitted (a : Attempt) (unsent : Bool)
  -- EventSink::send and deliver_response
  | sendState (ev : Event)
  | acquirePermit (ev : Event)
  | recheckState (ev : Event)
  | markCommitted (ev : Event)
  | pushEvent (ev : Event)
  | sendPaused
  | frame
  | ended
  deriving DecidableEq, Repr

/-- What a step does outside the slot. -/
inductive Effect
  | quiet
  | push
  | newGuard (conn : Option ConnId)
  | dropGuard (conn : Option ConnId)
  | dropBytes
  | dropInflight
  | removeRequest
  | leave
  deriving DecidableEq, Repr

structure Outcome where
  slot : Slot
  pc : Pc
  effect : Effect := .quiet

end Hyper4k.Bridge
