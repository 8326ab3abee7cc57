import Hyper4k.Bridge.Refusal
import Hyper4k.Bridge.Upcalls
import Hyper4k.Kotlin.Lifecycle

/-! The whole client: the threads and streams of `Hyper4kClient`, the engine they call, and the C
callbacks by which the engine calls back, each on the `StableRef` that its `send` has made. Texts stand
as the bytes that `readString` decodes. A run ends where an engine that is freed would be called. -/
namespace Hyper4k.Streams
open Bridge (Bytes Callback ChunkAction Terminal Config SendArgs Api ReqId Status)
open Kotlin (ClientEvent)
open Lifecycle (StreamId ThreadId Op Access NativeCall)
open Runs

/-- A `StableRef` on the state of a request, from `create` to `dispose`. -/
inductive Ref
  | unmade | live | disposed
  deriving DecidableEq, Repr

/-- The next access of the callback that the engine is in. `OnDone` returns nothing. -/
inductive CallbackPc
  | outside
  | get (cb : Callback)
  | onHeaders (status : UInt16) (version : UInt8) (fields : List (Bytes × Bytes))
  | increment (bytes : Bytes)
  | trySend (bytes : Bytes) (queued : Int32)
  | storePaused
  | sendDone (error : Option Terminal)
  | close
  | dispose
  | returning (action : Option ChunkAction)
  deriving DecidableEq, Repr

def CallbackPc.start : Callback → CallbackPc
  | .onHeaders status version fields => .onHeaders status version fields
  | .onChunk data => .increment data
  | .onDone error => .sendDone error

def eventOf : Callback → ClientEvent
  | .onHeaders status version fields => .headers status version fields
  | .onChunk data => .chunk data
  | .onDone error => .done error

def api (args : SendArgs) : Lifecycle.Pc → Option Api
  | .callSend _ => some (.send args)
  | .callClose => some .close
  | .callFree => some .free
  | .callResume _ id => some (.resume id.toNat)
  | .callCancel id => some (.cancel id.toNat)
  | _ => none

/-- `send` passes an `OnChunk` with every request. -/
def native (cfg : Config) : Config := { cfg with onChunk := fun _ => true }

/-- What `hyper4k_client_send` makes of its arguments. It never refuses with `OK`. -/
abbrev Args := { args : SendArgs // args.refused ≠ some .ok }

/-- `userData` is what the slot of a request was made with, and `out` the cell that a `send` gives to
the engine for the id. `taken` is a history: the events that `next` has taken out of the channel. -/
structure Frontend where
  kotlin : Lifecycle.Client := {}
  engine : Bridge.Client
  refs : StreamId → Ref := fun _ => .unmade
  userData : ReqId → Option StreamId := fun _ => none
  out : ThreadId → ReqId := fun _ => 0
  callbacks : ReqId → CallbackPc := fun _ => .outside
  taken : StreamId → List ClientEvent := fun _ => []

namespace Frontend

def init (cfg : Config) : Frontend := { engine := .init cfg }

def goto (s : Frontend) (r : ReqId) (pc : CallbackPc) : Frontend :=
  { s with callbacks := Function.update s.callbacks r pc }

def touch (s : Frontend) (r : ReqId) (st : StreamId) (a : Access) (pc : CallbackPc) : Frontend :=
  { s.goto r pc with kotlin := s.kotlin.setStream st (a.on (s.kotlin.streams st)) }

/-- The next access of `onHeaders`, `onChunk` or `onDone`. A reference that is not live has no meaning. -/
def callback (s : Frontend) (r : ReqId) : Option Frontend :=
  match s.userData r with
  | none => none
  | some st => match s.callbacks r with
    | .outside | .returning _ => none
    | .get cb => if s.refs st = .live then some (s.goto r (.start cb)) else none
    | .onHeaders status version fields =>
      some (s.touch r st (.trySend (.headers status version fields)) (.returning (some .cont)))
    | .increment bytes => some (s.touch r st .increment (.trySend bytes ((s.kotlin.streams st).queued + 1)))
    | .trySend bytes queued =>
      some (s.touch r st (.trySend (.chunk bytes))
        (if queued ≥ (s.kotlin.streams st).highWater.val then .storePaused else .returning (some .cont)))
    | .storePaused => some (s.touch r st .storePaused (.returning (some .pause)))
    | .sendDone error => some (s.touch r st (.trySend (.done error)) .close)
    | .close => some (s.touch r st .closeEvents .dispose)
    | .dispose =>
      if s.refs st = .live then
        some { s.goto r (.returning none) with refs := Function.update s.refs st .disposed }
      else none

/-- The body of a callback throws: `onHeaders` and `onChunk` cancel, `onDone` still disposes. -/
def throw (s : Frontend) (r : ReqId) : Option Frontend :=
  match s.callbacks r with
  | .onHeaders .. | .increment _ | .trySend .. => some (s.goto r (.returning (some .cancel)))
  | .sendDone _ | .close => some (s.goto r .dispose)
  | _ => none

/-- What an access of `send` or `next` does beside the state of the client: `send` makes the
reference, and `next` gets an event. -/
def noted (s : Frontend) (t : ThreadId) : Frontend :=
  match s.kotlin.threads t with
  | .loadLifecycle _ =>
    if s.kotlin.lifecycle = .opened then { s with refs := Function.update s.refs s.kotlin.nextStream .live } else s
  | .receive st =>
    { s with taken := Function.update s.taken st (s.taken st ++ (s.kotlin.streams st).events.take 1) }
  | _ => s

/-- A native call returns. A refused `send` disposes its reference, and `close` and `cancel` look at
no status. -/
def returned (s : Frontend) (t : ThreadId) (status : Status) : Frontend :=
  { s with
    kotlin := (s.kotlin.step (.returned t status (UInt64.ofNat (s.out t)))).getD s.kotlin
    refs := match s.kotlin.threads t with
      | .inSend st => if status = .ok then s.refs else Function.update s.refs st .disposed
      | _ => s.refs }

/-- What a step of the engine means to the caller: `bridge::spawn` keeps the reference, the id is
written, or the call returns. -/
def told (s : Frontend) : Bridge.Act → Frontend
  | .call t => match s.engine.calls t with
    | .sending _ (.enterBridges id) => match s.kotlin.threads t with
      | .inSend st => { s with userData := Function.update s.userData id (some st) }
      | _ => s
    | .sending _ (.writeId id) => { s with out := Function.update s.out t id }
    | .done status => s.returned t status
    | .request _ (.returned status) => s.returned t status
    | _ => s
  | _ => s

/-- The callbacks around a step of the engine, which waits for the answer of a callback. -/
def heard (s : Frontend) (a : Bridge.Act) : Option (ReqId → CallbackPc) :=
  match s.engine.upcall a with
  | some (r, .call cb) => some (Function.update s.callbacks r (.get cb))
  | some (r, .answer x) =>
    if s.callbacks r = .returning x then some (Function.update s.callbacks r .outside) else none
  | none => some s.callbacks

end Frontend

/-- `kotlin` runs a thread outside the engine, or into it, and `abandon` is an exception in `send` or
`close`; `engine` is a step of the engine or of a call in it, and `callback` and `throw` run the
callback of a request. -/
inductive Act
  | begin (t : ThreadId) (op : Op)
  | kotlin (t : ThreadId) (args : Args)
  | abandon (t : ThreadId)
  | engine (a : Bridge.Act)
  | callback (r : ReqId)
  | throw (r : ReqId)
  deriving DecidableEq

namespace Frontend

/-- The next access of a thread. A call on an engine that has been given to `free` has no meaning. -/
def exec (cfg : Config) (s : Frontend) (t : ThreadId) (args : Args) : Option Frontend :=
  match api args.val (s.kotlin.threads t) with
  | none => (s.kotlin.exec t).map fun k => { s.noted t with kotlin := k }
  | some api =>
    if NativeCall.free ∈ s.kotlin.issued then none
    else (s.kotlin.exec t).bind fun k =>
      (s.engine.step cfg (.begin t api)).map fun c => { s with kotlin := k, engine := c }

def step (cfg : Config) (s : Frontend) : Act → Option Frontend
  | .begin t op =>
    if s.engine.calls t = .idle then (s.kotlin.step (.begin t op)).map fun k => { s with kotlin := k } else none
  | .kotlin t args => if s.engine.calls t = .idle then s.exec cfg t args else none
  | .abandon t =>
    if s.engine.calls t = .idle then (s.kotlin.step (.throw t)).map fun k => { s with kotlin := k } else none
  | .engine (.begin _ _) => none
  | .engine a =>
    (s.heard a).bind fun callbacks => (s.engine.step cfg a).map fun c => { s.told a with engine := c, callbacks }
  | .callback r => s.callback r
  | .throw r => s.throw r

abbrev Reaches (cfg : Config) (ok : Frontend → Act → Prop) (as : List Act) (s : Frontend) : Prop :=
  Run (step (native cfg)) ok (init (native cfg)) as s

inductive Stepped (cfg : Config) (s : Frontend) : Act → Frontend → Prop
  | begin (t : ThreadId) (op : Op) (free : s.engine.calls t = .idle) (away : s.kotlin.threads t = .away) :
    s.Stepped cfg (.begin t op) { s with kotlin := s.kotlin.goto t op.start }
  | abandon (t : ThreadId) (free : s.engine.calls t = .idle)
      (pc : (∃ st, s.kotlin.threads t = .callSend st) ∨ s.kotlin.threads t = .callFree) :
    s.Stepped cfg (.abandon t) { s with kotlin := s.kotlin.goto t .away }
  | exec (t : ThreadId) (args : Args) (k : Lifecycle.Client) (free : s.engine.calls t = .idle)
      (here : api args.val (s.kotlin.threads t) = none) (hk : s.kotlin.exec t = some k) :
    s.Stepped cfg (.kotlin t args) { s.noted t with kotlin := k }
  | call (t : ThreadId) (args : Args) (x : Api) (k : Lifecycle.Client) (c : Bridge.Client)
      (free : s.engine.calls t = .idle) (there : api args.val (s.kotlin.threads t) = some x)
      (hk : s.kotlin.exec t = some k) (hc : s.engine.step cfg (.begin t x) = some c) :
    s.Stepped cfg (.kotlin t args) { s with kotlin := k, engine := c }
  | engine (a : Bridge.Act) (c : Bridge.Client) (callbacks : ReqId → CallbackPc) (own : ∀ n x, a ≠ .begin n x)
      (hh : s.heard a = some callbacks) (hc : s.engine.step cfg a = some c) :
    s.Stepped cfg (.engine a) { s.told a with engine := c, callbacks }
  | callback (r : ReqId) (u : Frontend) (h : s.callback r = some u) : s.Stepped cfg (.callback r) u
  | throw (r : ReqId) (u : Frontend) (h : s.throw r = some u) : s.Stepped cfg (.throw r) u

section Steps
variable {cfg : Config} {s u : Frontend}

private theorem step_engine {b : Bridge.Act} (own : ∀ n x, b ≠ .begin n x) (h : s.step cfg (.engine b) = some u) :
    s.Stepped cfg (.engine b) u := by
  have hbind : ((s.heard b).bind fun callbacks => (s.engine.step cfg b).map fun c =>
      { s.told b with engine := c, callbacks }) = some u := by
    cases b with
    | begin n x => exact absurd rfl (own n x)
    | _ => exact h
  obtain ⟨callbacks, hh, hmap⟩ := Option.bind_eq_some_iff.mp hbind
  obtain ⟨c, hc, rfl⟩ := Option.map_eq_some_iff.mp hmap
  exact .engine b c callbacks own hh hc

theorem step_cases {a : Act} (h : s.step cfg a = some u) : s.Stepped cfg a u := by
  cases a with
  | begin t op =>
    simp only [step] at h
    split at h
    · rename_i hfree
      obtain ⟨k, hk, rfl⟩ := Option.map_eq_some_iff.mp h
      simp only [Lifecycle.Client.step] at hk
      split at hk
      · rename_i haway
        split at hk <;> cases hk
        exact .begin t op hfree haway
      · cases hk
    · cases h
  | kotlin t args =>
    simp only [step] at h
    split at h
    · rename_i hfree
      simp only [exec] at h
      split at h
      · rename_i hhere
        obtain ⟨k, hk, rfl⟩ := Option.map_eq_some_iff.mp h
        exact .exec t args k hfree hhere hk
      · rename_i x hthere
        split at h
        · cases h
        · obtain ⟨k, hk, hmap⟩ := Option.bind_eq_some_iff.mp h
          obtain ⟨c, hc, rfl⟩ := Option.map_eq_some_iff.mp hmap
          exact .call t args x k c hfree hthere hk hc
    · cases h
  | abandon t =>
    simp only [step] at h
    split at h
    · rename_i hfree
      obtain ⟨k, hk, rfl⟩ := Option.map_eq_some_iff.mp h
      simp only [Lifecycle.Client.step] at hk
      split at hk <;> cases hk
      · rename_i st hst
        exact .abandon t hfree (.inl ⟨st, hst⟩)
      · rename_i hst
        exact .abandon t hfree (.inr hst)
    · cases h
  | engine b =>
    refine step_engine (fun n x hb => ?_) h
    rw [hb] at h
    cases h
  | callback r => exact .callback r u h
  | throw r => exact .throw r u h

end Steps

end Frontend

end Hyper4k.Streams
