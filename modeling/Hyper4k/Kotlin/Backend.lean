import Hyper4k.Kotlin.Drops
import Hyper4k.Server.BodyFrames

/-! The whole server: `onRequest`, the dispatcher and its handlers with their channels, over the engine.
A handler uses its channel itself, one call after another, and not after it has returned. -/
namespace Hyper4k.Dispatch
open Server (Api Code Entries Responder StreamAct Streaming ThreadId encodeHeaders units)
open Text Runs

/-- `Hyper4kResponse.text`, which is also `defaultFailureResponse`. -/
def Hyper4kResponse.text (status : Int32) (body : String) : Hyper4kResponse where
  status
  headers := [(units "Content-Type".toList, [units "text/plain; charset=utf-8".toList])]
  body := utf8 (units body.toList)

def internalErrorResponse : Hyper4kResponse := .text 500 "Internal Server Error"

/-- What a handler asks of its channel. -/
inductive Method
  | begin (status : Int32) (headers : Entries)
  | write (chunk : Octets)
  | finish
  deriving DecidableEq, Repr

/-- The native call that a method comes to; `none` where it returns or throws before. -/
def NativeResponseChannel.native (r : Responder) (c : NativeResponseChannel) : Method → Option Api
  | .begin status headers =>
    if c.started then none
    else (encodeHeaders headers).map fun block => .begin r status.toUInt32.toUInt16 (pinned block)
  | .write chunk => if !c.started || c.finished || chunk.isEmpty then none else some (.write r (.bytes chunk))
  | .finish => if !c.started || c.finished then none else some (.finish r)

def Pc.refusing : Pc → Bool
  | .refuse _ => true
  | _ => false

/-- `submit` has not returned. The coroutine starts undispatched, and has a channel from then on. -/
def Job.submitting (j : Job) : Bool :=
  match j.pc with
  | .away | .loadAccepting | .tryAcquire | .addActive | .recheckAccepting | .refuse _ | .newChannel => true
  | .complete .. | .subActive | .releaseSlot => j.channel.isNone
  | _ => false

structure Setup where
  maxConcurrentRequests : Nat
  native : Server.Config

def Setup.config (cfg : Setup) (b : Behaviour) : Config := ⟨cfg.maxConcurrentRequests, fun _ => b⟩

/-- An ending of the handler, and what `failureResponse` gives if it is called. -/
def Behaviour.of (ending : Ending) (failure : Option Hyper4kResponse) : Behaviour :=
  { ending, failureResponse := fun _ _ => failure }

/-- `caught` are the requests whose `submit` has thrown and which `onRequest` has not answered yet. The rest is history:
the responses given to `hyper4k_respond`, the heads given to `hyper4k_response_begin`, and the chunks of the writes that
returned `HYPER4K_OK`, each with whether its handler was cancelled before. -/
structure Backend where
  dispatcher : Dispatcher
  streaming : Streaming := {}
  caught : Responder → Bool := fun _ => false
  given : Responder → List Hyper4kResponse := fun _ => []
  heads : Responder → List (Int32 × Entries) := fun _ => []
  wrote : Responder → List (Octets × Bool) := fun _ => []

inductive BackendAct
  | network (a : StreamAct)
  | submit (r : Responder)
  | exec (r : Responder) (ending : Ending) (failure : Option Hyper4kResponse)
  | throws (r : Responder)
  | call (r : Responder) (w : ThreadId) (method : Option Method)
  | back (w : ThreadId) (cut : Bool)
  | stopAccepting
  deriving DecidableEq, Repr

def Dispatcher.perform (d : Dispatcher) (r : Responder) (op : Op) : Dispatcher :=
  d.setJob r { d.jobs r with channel := (d.jobs r).channel.map op.run }

namespace Backend

def init (cfg : Setup) : Backend := { dispatcher := { slots := cfg.maxConcurrentRequests } }

def job (s : Backend) (r : Responder) : Job := s.dispatcher.jobs r

/-- Steps of the engine that need nobody on the Kotlin side. A callback returns with `onRequest`, and the result of a
call goes to its caller. -/
def free (s : Backend) : StreamAct → Bool
  | .engine (.enter _ _) => false
  | .engine (.call w) => match s.streaming.engine.pcs w with
    | .returned _ => false
    | _ => true
  | .engine (.handle r) => match s.streaming.engine.handles r with
    | .inCallback _ => !(s.job r).submitting && !s.caught r
    | _ => true
  | _ => true

def inCallback (s : Backend) (r : Responder) : Bool :=
  match s.streaming.engine.handles r with
  | .inCallback _ => true
  | _ => false

/-- The next step of the request is not a native call, and none is in progress. -/
def running (s : Backend) (r : Responder) : Bool :=
  (s.streaming.caller r).isNone && match (s.job r).pc with
    | .complete .. | .closeStream => false
    | _ => true

/-- The native call that request `r` is about to make, in its handler by the method given. -/
def native (s : Backend) (r : Responder) (method : Option Method) : Option Api :=
  match (s.job r).pc, method with
  | .handler [], some method => (s.job r).channel.bind fun c => c.native r method
  | .closeStream, none => (s.job r).channel.bind fun c => c.native r .finish
  | .complete response _, none => respondCall r response
  | .thrown, none => if s.caught r then respondCall r internalErrorResponse else none
  | _, _ => none

def tell (s : Backend) (r : Responder) (method : Option Method) : Backend :=
  match (s.job r).pc, method with
  | .handler [], some (.begin status headers) =>
    { s with heads := Function.update s.heads r (s.heads r ++ [(status, headers)]) }
  | .complete response _, none => { s with given := Function.update s.given r (s.given r ++ [response]) }
  | .thrown, none => { s with given := Function.update s.given r (s.given r ++ [internalErrorResponse]) }
  | _, _ => s

/-- A streaming write hops to a thread of its own pool, none of the engine's. -/
def mayRun (cfg : Setup) (w : ThreadId) : Api → Bool
  | .write .. => !cfg.native.engine w
  | _ => true

/-- The result of a native call reaches the request that made it. A write whose handler was cancelled meanwhile runs to
its end, and its result is lost. -/
def resume (cfg : Setup) (s : Backend) (api : Api) (code : Code) (cut : Bool) : Option Dispatcher :=
  match (s.job api.responder).pc, api with
  | .handler [], .begin r .. => some (s.dispatcher.perform r (.begin code))
  | .handler [], .write r chunk => some (if cut then s.dispatcher else s.dispatcher.perform r (.write chunk.read code))
  | .handler [], .finish r => some (s.dispatcher.perform r (.finish code))
  | .closeStream, .finish r => s.dispatcher.exec (cfg.config { Behaviour.of .threw none with closeCode := code }) r
  | .complete .., .respond r .. =>
    s.dispatcher.exec (cfg.config { Behaviour.of .threw none with complete := some (respondResult code) }) r
  | .thrown, .respond .. => some s.dispatcher
  | _, _ => none

def took (code : Code) (cut : Bool) : Api → List (Octets × Bool)
  | .write _ chunk => if code = .ok then [(chunk.read, cut)] else []
  | _ => []

def step (cfg : Setup) (s : Backend) : BackendAct → Option Backend
  | .network a => if s.free a then (s.streaming.step cfg.native a).map fun t => { s with streaming := t } else none
  | .submit r =>
    if s.inCallback r then
      (s.dispatcher.step (cfg.config (.of .threw none)) (.submit r)).map fun d => { s with dispatcher := d }
    else none
  | .exec r ending failure =>
    if s.running r then
      (s.dispatcher.exec (cfg.config (.of ending failure)) r).map fun d =>
        { s with
          dispatcher := d
          -- a `failureResponse` that throws leaves `submit`
          caught := if (s.job r).pc.refusing then Function.update s.caught r failure.isNone else s.caught }
    else none
  -- `encodeHeaders` throws inside `complete`
  | .throws r => match (s.job r).pc with
    | .complete response _ =>
      if s.streaming.caller r = none ∧ respondCall r response = none then
        (s.dispatcher.exec (cfg.config { Behaviour.of .threw none with complete := none }) r).map fun d =>
          { s with dispatcher := d }
      else none
    | _ => none
  | .call r w method =>
    if s.streaming.caller r = none then do
      let api ← s.native r method
      if mayRun cfg w api then
        (s.streaming.step cfg.native (.engine (.enter w api))).map fun t => { s.tell r method with streaming := t }
      else none
    else none
  | .back w cut => match s.streaming.calls w, s.streaming.engine.pcs w with
    | some api, .returned code => do
      let d ← s.resume cfg api code cut
      (s.streaming.step cfg.native (.engine (.call w))).map fun t =>
        { s with
          dispatcher := d
          streaming := t
          caught := if (s.job api.responder).pc = .thrown then Function.update s.caught api.responder false
            else s.caught
          wrote := Function.update s.wrote api.responder (s.wrote api.responder ++ took code cut api) }
    | _, _ => none
  | .stopAccepting => some { s with dispatcher := { s.dispatcher with accepting := false } }

abbrev Reaches (cfg : Setup) (ok : Backend → BackendAct → Prop) (as : List BackendAct) (s : Backend) : Prop :=
  Run (Backend.step cfg) ok (Backend.init cfg) as s

end Backend

inductive Backend.Stepped (cfg : Setup) (s : Backend) : BackendAct → Backend → Prop
  | network (a : StreamAct) (t : Streaming) (free : s.free a = true) (move : s.streaming.step cfg.native a = some t) :
    s.Stepped cfg (.network a) { s with streaming := t }
  | submit (r : Responder) (inside : s.inCallback r = true) (pc : (s.job r).pc = .away) :
    s.Stepped cfg (.submit r) { s with dispatcher := s.dispatcher.goto r .loadAccepting }
  | runs (r : Responder) (ending : Ending) (failure : Option Hyper4kResponse) (d : Dispatcher)
      (caught : Responder → Bool) (running : s.running r = true)
      (move : s.dispatcher.exec (cfg.config (.of ending failure)) r = some d)
      (catches : caught = if (s.job r).pc.refusing then Function.update s.caught r failure.isNone else s.caught) :
    s.Stepped cfg (.exec r ending failure) { s with dispatcher := d, caught }
  | throws (r : Responder) (response : Hyper4kResponse) (slot : Bool) (d : Dispatcher)
      (pc : (s.job r).pc = .complete response slot) (idle : s.streaming.caller r = none)
      (bad : respondCall r response = none)
      (move : s.dispatcher.exec (cfg.config { Behaviour.of .threw none with complete := none }) r = some d) :
    s.Stepped cfg (.throws r) { s with dispatcher := d }
  | call (r : Responder) (w : ThreadId) (method : Option Method) (api : Api) (t : Streaming)
      (idle : s.streaming.caller r = none) (native : s.native r method = some api)
      (may : Backend.mayRun cfg w api = true) (move : s.streaming.step cfg.native (.engine (.enter w api)) = some t) :
    s.Stepped cfg (.call r w method) { s.tell r method with streaming := t }
  | back (w : ThreadId) (cut : Bool) (api : Api) (code : Code) (d : Dispatcher) (t : Streaming)
      (caught : Responder → Bool) (calls : s.streaming.calls w = some api)
      (pc : s.streaming.engine.pcs w = .returned code) (resume : s.resume cfg api code cut = some d)
      (move : s.streaming.step cfg.native (.engine (.call w)) = some t)
      (catches : caught =
        if (s.job api.responder).pc = .thrown then Function.update s.caught api.responder false else s.caught) :
    s.Stepped cfg (.back w cut) { s with
      dispatcher := d, streaming := t, caught
      wrote := Function.update s.wrote api.responder (s.wrote api.responder ++ Backend.took code cut api) }
  | stops : s.Stepped cfg .stopAccepting { s with dispatcher := { s.dispatcher with accepting := false } }

theorem Backend.step_cases {cfg : Setup} {s t : Backend} {a : BackendAct} (h : s.step cfg a = some t) :
    s.Stepped cfg a t := by
  cases a with
  | network a =>
    simp only [Backend.step] at h
    split at h
    · rename_i hfree
      obtain ⟨u, hu, rfl⟩ := Option.map_eq_some_iff.mp h
      exact .network a u hfree hu
    · cases h
  | submit r =>
    simp only [Backend.step] at h
    split at h
    · rename_i hin
      obtain ⟨d, hd, rfl⟩ := Option.map_eq_some_iff.mp h
      simp only [Dispatcher.step] at hd
      split at hd <;> cases hd
      exact .submit r hin (by assumption)
    · cases h
  | exec r ending failure =>
    simp only [Backend.step] at h
    split at h
    · rename_i hrunning
      obtain ⟨d, hd, rfl⟩ := Option.map_eq_some_iff.mp h
      exact .runs r ending failure d _ hrunning hd rfl
    · cases h
  | throws r =>
    simp only [Backend.step] at h
    split at h
    · rename_i response slot hpc
      split at h
      · rename_i hbad
        obtain ⟨d, hd, rfl⟩ := Option.map_eq_some_iff.mp h
        exact .throws r response slot d hpc hbad.1 hbad.2 hd
      · cases h
    · cases h
  | call r w method =>
    simp only [Backend.step, Option.bind_eq_bind] at h
    split at h
    · rename_i hidle
      obtain ⟨api, hapi, h⟩ := Option.bind_eq_some_iff.mp h
      split at h
      · rename_i hmay
        obtain ⟨u, hu, rfl⟩ := Option.map_eq_some_iff.mp h
        exact .call r w method api u hidle hapi hmay hu
      · cases h
    · cases h
  | back w cut =>
    simp only [Backend.step, Option.bind_eq_bind] at h
    split at h
    · rename_i api code hcalls hpc
      obtain ⟨d, hd, h⟩ := Option.bind_eq_some_iff.mp h
      obtain ⟨u, hu, rfl⟩ := Option.map_eq_some_iff.mp h
      exact .back w cut api code d u _ hcalls hpc hd hu rfl
    · cases h
  | stopAccepting =>
    cases h
    exact .stops

/-- Where a request makes a native call. -/
theorem Backend.native_cases {s : Backend} {r : Responder} {method : Option Method} {api : Api}
    (h : s.native r method = some api) :
    (∃ c m, (s.job r).pc = .handler [] ∧ method = some m ∧ (s.job r).channel = some c ∧ c.native r m = some api) ∨
    (∃ c, (s.job r).pc = .closeStream ∧ method = none ∧ (s.job r).channel = some c ∧ c.native r .finish = some api) ∨
    (∃ response slot, (s.job r).pc = .complete response slot ∧ method = none ∧ respondCall r response = some api) ∨
    ((s.job r).pc = .thrown ∧ method = none ∧ s.caught r = true ∧ respondCall r internalErrorResponse = some api) := by
  unfold Backend.native at h
  split at h
  · rename_i m hpc
    obtain ⟨c, hc, hm⟩ := Option.bind_eq_some_iff.mp h
    exact .inl ⟨c, m, hpc, rfl, hc, hm⟩
  · rename_i hpc
    obtain ⟨c, hc, hm⟩ := Option.bind_eq_some_iff.mp h
    exact .inr (.inl ⟨c, hpc, rfl, hc, hm⟩)
  · rename_i response slot hpc
    exact .inr (.inr (.inl ⟨response, slot, hpc, rfl, h⟩))
  · rename_i hpc
    split at h
    · rename_i hcaught
      exact .inr (.inr (.inr ⟨hpc, rfl, hcaught, h⟩))
    · cases h
  · cases h

/-- A method of the channel makes its native call only in the states that it is for. -/
theorem NativeResponseChannel.native_cases {r : Responder} {c : NativeResponseChannel} {method : Method} {api : Api}
    (h : c.native r method = some api) :
    (∃ status headers block, c.started = false ∧ encodeHeaders headers = some block ∧
      method = .begin status headers ∧ api = .begin r status.toUInt32.toUInt16 (pinned block)) ∨
    (∃ b bs, c.isStreaming = true ∧ method = .write (b :: bs) ∧ api = .write r (.bytes (b :: bs))) ∨
    (c.isStreaming = true ∧ method = .finish ∧ api = .finish r) := by
  cases method with
  | begin status headers =>
    simp only [NativeResponseChannel.native] at h
    split at h
    · cases h
    · rename_i hstarted
      obtain ⟨block, hblock, rfl⟩ := Option.map_eq_some_iff.mp h
      exact .inl ⟨status, headers, block, Bool.eq_false_iff.mpr hstarted, hblock, rfl, rfl⟩
  | write chunk =>
    simp only [NativeResponseChannel.native] at h
    split at h <;> cases h
    rename_i hopen
    cases chunk with
    | nil => simp at hopen
    | cons b bs =>
      refine .inr (.inl ⟨b, bs, ?_, rfl, rfl⟩)
      rw [NativeResponseChannel.isStreaming]
      cases hs : c.started <;> cases hf : c.finished <;> simp_all
  | finish =>
    simp only [NativeResponseChannel.native] at h
    split at h <;> cases h
    rename_i hopen
    refine .inr (.inr ⟨?_, rfl, rfl⟩)
    rw [NativeResponseChannel.isStreaming]
    cases hs : c.started <;> cases hf : c.finished <;> simp_all

theorem respondCall_eq {r : Responder} {response : Hyper4kResponse} {api : Api} (h : respondCall r response = some api) :
    ∃ block, encodeHeaders response.headers = some block ∧
      api = .respond r response.status.toUInt32.toUInt16 (pinned block) (pinned response.body) := by
  obtain ⟨block, hblock, rfl⟩ := Option.map_eq_some_iff.mp h
  exact ⟨block, hblock, rfl⟩

theorem Backend.native_responder {s : Backend} {r : Responder} {method : Option Method} {api : Api}
    (h : s.native r method = some api) : api.responder = r := by
  have hmethod : ∀ {c : NativeResponseChannel} {m : Method}, c.native r m = some api → api.responder = r := by
    intro c m hm
    rcases NativeResponseChannel.native_cases hm with ⟨-, -, -, -, -, -, rfl⟩ | ⟨-, -, -, -, rfl⟩ | ⟨-, -, rfl⟩ <;> rfl
  have hrespond : ∀ {response : Hyper4kResponse}, respondCall r response = some api → api.responder = r := by
    intro response hr
    obtain ⟨-, -, rfl⟩ := respondCall_eq hr
    rfl
  rcases Backend.native_cases h with ⟨c, m, -, -, -, hm⟩ | ⟨c, -, -, -, hm⟩ | ⟨response, slot, -, -, hr⟩ | ⟨-, -, -, hr⟩
  · exact hmethod hm
  · exact hmethod hm
  · exact hrespond hr
  · exact hrespond hr

/-- The engine under the server is called by one call at a time on each responder. -/
theorem Backend.step_streaming {cfg : Setup} {s t : Backend} {a : BackendAct} (h : s.Stepped cfg a t) :
    t.streaming = s.streaming ∨
      ∃ b, (∀ r, s.streaming.OneByOne r b) ∧ s.streaming.step cfg.native b = some t.streaming := by
  cases h with
  | network a t free move =>
    refine .inr ⟨a, fun r => ?_, move⟩
    cases a with
    | poll q => trivial
    | engine b =>
      cases b with
      | enter w api => cases free
      | _ => trivial
  | call r w method api t idle native may move =>
    refine .inr ⟨.engine (.enter w api), fun q (hq : api.responder = q) => ?_, move⟩
    rw [← hq, Backend.native_responder native]
    exact idle
  | back w cut api code d t caught calls pc resume move catches => 
    exact .inr ⟨.engine (.call w), fun _ => trivial, move⟩
  | _ => exact .inl rfl

end Hyper4k.Dispatch
