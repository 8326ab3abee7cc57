import Mathlib.Logic.Function.Basic
import Hyper4k.Runs.Guarded
import Hyper4k.Server.Headers

/-! Responders of the server: the registry of pending requests, the registry of streams,
the thread-local fast path, and the four ABI functions that use them. -/
namespace Hyper4k.Server
open Text

abbrev Responder := Nat
abbrev ThreadId := Nat
abbrev StreamId := Nat

/-- `HYPER4K_OK`, `HYPER4K_FAILED` and `HYPER4K_ERR_*`. -/
inductive Code
  | ok | failed | wrongState | clientGone | wouldBlock
  deriving DecidableEq, Repr

def Code.value : Code → Int
  | .ok => 1
  | .failed => 0
  | .wrongState => -4
  | .clientGone => -5
  | .wouldBlock => -6

def STREAM_CHANNEL_CAPACITY : Nat := 4

inductive Buffer
  | null (len : Nat)
  | bytes (b : Octets)
  deriving DecidableEq, Repr

def Buffer.read : Buffer → Octets
  | .null _ => []
  | .bytes b => b

structure ResponseData where
  status : UInt16
  headers : HeaderList
  body : Octets
  deriving DecidableEq, Repr

structure StreamStart where
  status : UInt16
  headers : HeaderList
  rx : StreamId
  deriving DecidableEq, Repr

inductive Delivery
  | buffered (data : ResponseData)
  | stream (start : StreamStart)
  deriving DecidableEq, Repr

inductive BodyKind
  | full (bytes : Octets)
  | stream (rx : StreamId)
  deriving DecidableEq, Repr

structure Response where
  status : UInt16
  headers : HeaderList
  body : BodyKind
  deriving DecidableEq, Repr

def text (s : String) : Octets := s.toList.map fun c => .ofNat c.toNat

def errorResponse (status : UInt16) (message : Octets) : Response := ⟨status, [], .full message⟩

def Delivery.response : Delivery → Response
  | .buffered data => ⟨data.status, data.headers, .full data.body⟩
  | .stream start => ⟨start.status, start.headers, .stream start.rx⟩

/-- The status codes that `http` accepts. -/
def validStatus (status : UInt16) : Bool := decide (100 ≤ status.toNat) && decide (status.toNat < 1000)

def buildResponse (d : Delivery) : Response :=
  if validStatus d.response.status then d.response else errorResponse 500 (text "hyper4k: bad response")

/-- What `deliver_response` sends when it finds the slot taken. -/
def slotBusy : Delivery := .buffered ⟨500, [], text "hyper4k: sync response slot busy"⟩

/-- How `handle` ends: with a delivery, because its responder was dropped, or dropped
itself together with its connection. -/
inductive Ending
  | answered (d : Delivery)
  | orphaned
  | cancelled
  deriving DecidableEq, Repr

def Ending.response : Ending → Option Response
  | .answered d => some (buildResponse d)
  | .orphaned => some (errorResponse 500 (text "hyper4k: handler dropped responder"))
  | .cancelled => none

/-- The next access of `handle`. Up to the `await` it runs on one engine thread. -/
inductive HandlePc
  | unborn
  | insertPending (w : ThreadId)
  | setCallback (w : ThreadId)
  | inCallback (w : ThreadId)
  | clearCallback (w : ThreadId)
  | takeSync (w : ThreadId)
  | await
  | removePending (e : Ending)
  | dropReceiver (e : Ending)
  | done (e : Ending)
  deriving DecidableEq, Repr

def HandlePc.thread : HandlePc → Option ThreadId
  | .insertPending w | .setCallback w | .inCallback w | .clearCallback w | .takeSync w => some w
  | _ => none

def HandlePc.ending : HandlePc → Option Ending
  | .removePending e | .dropReceiver e | .done e => some e
  | _ => none

/-- The next access of an ABI call. `own` is the call's delivery, `payload` what it sends. -/
inductive CallPc
  | idle
  | checkStreams (r : Responder) (own : Delivery)
  | claimStream (r : Responder) (status : UInt16) (headers : HeaderList)
  | deliver (r : Responder) (own : Delivery)
  | takePending (r : Responder) (own payload : Delivery)
  | send (r : Responder) (own payload : Delivery)
  | releaseStream (r : Responder)
  | getSender (r : Responder) (chunk : Buffer)
  | trySend (i : StreamId) (chunk : Octets)
  | blockingSend (i : StreamId) (chunk : Octets)
  | removeStream (r : Responder)
  | returned (code : Code)
  deriving DecidableEq, Repr

inductive Api
  | respond (r : Responder) (status : UInt16) (headers body : Buffer)
  | begin (r : Responder) (status : UInt16) (headers : Buffer)
  | write (r : Responder) (chunk : Buffer)
  | finish (r : Responder)
  deriving DecidableEq, Repr

/-- Entry of `hyper4k_respond`, `hyper4k_response_begin`, `_write` and `_finish`. -/
def Api.start (http : HttpTypes) : Api → CallPc
  | .respond r status headers body =>
    if r = 0 then .returned .failed
    else .checkStreams r (.buffered ⟨status, parseHeaders http headers.read, body.read⟩)
  | .begin r status headers =>
    if r = 0 then .returned .wrongState else .claimStream r status (parseHeaders http headers.read)
  | .write r chunk => if r = 0 then .returned .wrongState else .getSender r chunk
  | .finish r => if r = 0 then .returned .wrongState else .removeStream r

/-- The end of a call whose delivery was refused: `begin` takes its stream back. -/
def Delivery.refused (r : Responder) : Delivery → CallPc
  | .buffered _ => .returned .failed
  | .stream _ => .releaseStream r

/-- A thread with its thread-local variables. `serving` is the request whose `handle` it
is running. -/
structure Thread where
  serving : Option Responder := none
  inCallback : Responder := 0
  syncResponse : Option Delivery := none
  call : CallPc := .idle
  deriving DecidableEq, Repr

structure Channel where
  sent : Option Delivery := none
  sender : Bool := false
  receiver : Bool := false
  deriving DecidableEq, Repr

structure Stream where
  buffer : List Octets := []
  receiver : Bool := true
  deriving DecidableEq, Repr

/-- `accepted` is a history: the own delivery of every `respond` and `begin` whose result
is `HYPER4K_OK`. -/
structure Engine where
  nextId : Responder := 1
  nextStream : StreamId := 0
  pending : Responder → Bool := fun _ => false
  channels : Responder → Channel := fun _ => {}
  active : Responder → Option StreamId := fun _ => none
  streams : StreamId → Stream := fun _ => {}
  handles : Responder → HandlePc := fun _ => .unborn
  threads : ThreadId → Thread := fun _ => {}
  accepted : Responder → List Delivery := fun _ => []

/-- The parsers of the `http` crate, and which threads belong to the runtime. -/
structure Config where
  http : HttpTypes
  engine : ThreadId → Bool

namespace Engine

def setThread (s : Engine) (w : ThreadId) (t : Thread) : Engine := { s with threads := Function.update s.threads w t }

def setCall (s : Engine) (w : ThreadId) (pc : CallPc) : Engine := s.setThread w { s.threads w with call := pc }

def setHandle (s : Engine) (r : Responder) (pc : HandlePc) : Engine :=
  { s with handles := Function.update s.handles r pc }

def setPending (s : Engine) (r : Responder) (b : Bool) : Engine := { s with pending := Function.update s.pending r b }

def setChannel (s : Engine) (r : Responder) (c : Channel) : Engine :=
  { s with channels := Function.update s.channels r c }

def setActive (s : Engine) (r : Responder) (i : Option StreamId) : Engine :=
  { s with active := Function.update s.active r i }

def setStream (s : Engine) (i : StreamId) (c : Stream) : Engine := { s with streams := Function.update s.streams i c }

def accept (s : Engine) (r : Responder) (d : Delivery) : Engine :=
  { s with accepted := Function.update s.accepted r (s.accepted r ++ [d]) }

/-- The `await` of `handle` is over. The receiver it has consumed is dropped with it, before
the locals are. -/
def endAwait (s : Engine) (r : Responder) (e : Ending) : Engine :=
  (s.setChannel r { s.channels r with receiver := false }).setHandle r (.removePending e)

/-- The next step of `handle` for request `r`. -/
def serve (s : Engine) (r : Responder) : Option Engine :=
  match s.handles r with
  | .insertPending w =>
    some (((s.setPending r true).setChannel r ⟨none, true, true⟩).setHandle r (.setCallback w))
  | .setCallback w => some ((s.setThread w { s.threads w with inCallback := r }).setHandle r (.inCallback w))
  -- the callback returns once the calls made inside it have
  | .inCallback w => if (s.threads w).call = .idle then some (s.setHandle r (.clearCallback w)) else none
  | .clearCallback w => some ((s.setThread w { s.threads w with inCallback := 0 }).setHandle r (.takeSync w))
  | .takeSync w =>
    match (s.threads w).syncResponse with
    | some d =>
      some ((s.setThread w { s.threads w with syncResponse := none, serving := none }).setHandle r
        (.removePending (.answered d)))
    | none => some ((s.setThread w { s.threads w with serving := none }).setHandle r .await)
  | .await =>
    match (s.channels r).sent with
    | some d => some (s.endAwait r (.answered d))
    | none => if (s.channels r).sender then none else some (s.endAwait r .orphaned)
  | .removePending e =>
    some (((s.setPending r false).setChannel r
      { s.channels r with sender := (s.channels r).sender && !s.pending r }).setHandle r (.dropReceiver e))
  | .dropReceiver e => some ((s.setChannel r { s.channels r with receiver := false }).setHandle r (.done e))
  | .unborn | .done _ => none

/-- A call is made by a thread that runs no `handle`, or by the callback of the one it runs. -/
def mayCall (s : Engine) (w : ThreadId) : Bool :=
  match (s.threads w).serving with
  | none => true
  | some r => decide (s.handles r = .inCallback w)

/-- The next step of the ABI call on thread `w`. -/
def advance (cfg : Config) (s : Engine) (w : ThreadId) : Option Engine :=
  match (s.threads w).call with
  | .idle => none
  | .checkStreams r own =>
    some (s.setCall w (if (s.active r).isSome then .returned .wrongState else .deliver r own))
  | .claimStream r status headers =>
    match s.active r with
    | some _ => some (s.setCall w (.returned .wrongState))
    | none =>
      some (({ s with nextStream := s.nextStream + 1 }.setActive r (some s.nextStream)).setCall w
        (.deliver r (.stream ⟨status, headers, s.nextStream⟩)))
  | .deliver r own =>
    if (s.threads w).inCallback = r then
      match (s.threads w).syncResponse with
      | none =>
        some ((s.setThread w { s.threads w with syncResponse := some own, call := .returned .ok }).accept r own)
      | some _ => some (s.setCall w (.takePending r own slotBusy))
    else some (s.setCall w (.takePending r own own))
  | .takePending r own payload =>
    if s.pending r then some ((s.setPending r false).setCall w (.send r own payload))
    else some (s.setCall w (own.refused r))
  | .send r own payload =>
    if (s.channels r).receiver then
      some (((s.setChannel r { s.channels r with sent := some payload, sender := false }).accept r own).setCall w
        (.returned .ok))
    else some ((s.setChannel r { s.channels r with sender := false }).setCall w (own.refused r))
  | .releaseStream r => some ((s.setActive r none).setCall w (.returned .wrongState))
  | .getSender r chunk =>
    match s.active r with
    | none => some (s.setCall w (.returned .wrongState))
    | some i =>
      match chunk with
      | .bytes [] | .null 0 => some (s.setCall w (.returned .ok))
      | .null (_ + 1) => some (s.setCall w (.returned .wrongState))
      | .bytes (b :: bs) => some (s.setCall w (.trySend i (b :: bs)))
  | .trySend i chunk =>
    if (s.streams i).receiver = false then some (s.setCall w (.returned .clientGone))
    else if (s.streams i).buffer.length < STREAM_CHANNEL_CAPACITY then
      some ((s.setStream i { s.streams i with buffer := (s.streams i).buffer ++ [chunk] }).setCall w (.returned .ok))
    else if cfg.engine w then some (s.setCall w (.returned .wouldBlock))
    else some (s.setCall w (.blockingSend i chunk))
  | .blockingSend i chunk =>
    if (s.streams i).receiver = false then some (s.setCall w (.returned .clientGone))
    else if (s.streams i).buffer.length < STREAM_CHANNEL_CAPACITY then
      some ((s.setStream i { s.streams i with buffer := (s.streams i).buffer ++ [chunk] }).setCall w (.returned .ok))
    else none
  | .removeStream r =>
    match s.active r with
    | some _ => some ((s.setActive r none).setCall w (.returned .ok))
    | none => some (s.setCall w (.returned .wrongState))
  | .returned _ => some (s.setCall w .idle)

end Engine

inductive Act
  | request (w : ThreadId)
  | handle (r : Responder)
  | disconnect (r : Responder)
  | enter (w : ThreadId) (api : Api)
  | call (w : ThreadId)
  | poll (i : StreamId)
  | dropBody (i : StreamId)
  deriving DecidableEq, Repr

def Engine.step (cfg : Config) (s : Engine) : Act → Option Engine
  | .request w =>
    if cfg.engine w ∧ (s.threads w).serving = none ∧ (s.threads w).call = .idle then
      some (({ s with nextId := s.nextId + 1 }.setThread w { s.threads w with serving := some s.nextId }).setHandle
        s.nextId (.insertPending w))
    else none
  | .handle r => s.serve r
  -- the connection is gone, and `handle` is dropped where it waits
  | .disconnect r =>
    if s.handles r = .await then some (s.endAwait r .cancelled) else none
  | .enter w api =>
    if (s.threads w).call = .idle ∧ s.mayCall w then some (s.setCall w (api.start cfg.http)) else none
  | .call w => s.advance cfg w
  | .poll i =>
    match (s.streams i).buffer with
    | _ :: rest => some (s.setStream i { s.streams i with buffer := rest })
    | [] => none
  | .dropBody i => some (s.setStream i { s.streams i with receiver := false })

abbrev Engine.Reaches (cfg : Config) (ok : Engine → Act → Prop) (s : Engine) (as : List Act) (t : Engine) : Prop :=
  Runs.Run (Engine.step cfg) ok s as t

end Hyper4k.Server
