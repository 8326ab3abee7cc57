import Hyper4k.Runs.Channel
import Hyper4k.Server.Provenance

/-! Streamed responses: `hyper4k_response_begin`, `_write` and `_finish` at one end of a body channel,
`Hyper4kBody` at the other. -/
namespace Hyper4k.Server
open Runs Text

def Api.responder : Api → Responder
  | .respond r .. | .begin r .. | .write r .. | .finish r => r

def Delivery.rx : Delivery → Option StreamId
  | .stream start => some start.rx
  | .buffered _ => none

def BodyKind.rx : BodyKind → Option StreamId
  | .stream i => some i
  | .full _ => none

namespace Engine

/-- The streams of the `begin`s on `r` that returned `HYPER4K_OK`. -/
def begun (s : Engine) (r : Responder) : List StreamId := (s.accepted r).filterMap Delivery.rx

def body (s : Engine) (r : Responder) : Option StreamId :=
  match s.handles r with
  | .done e => e.response.bind fun response => response.body.rx
  | _ => none

def pcs (s : Engine) (w : ThreadId) : CallPc := (s.threads w).call

end Engine

inductive StreamEvent
  | opens (r : Responder) (i : StreamId)
  | clones (i : StreamId)
  | accepts (i : StreamId) (chunk : Octets)
  | fails (i : StreamId)
  | removes (i : StreamId) (finish : Bool)
  | returns
  | other

/-- How a write ends, if it does. Its clone of the sender goes with it. -/
def CallPc.outcome (i : StreamId) (chunk : Octets) : CallPc → StreamEvent
  | .returned .ok => .accepts i chunk
  | .returned _ => .fails i
  | _ => .other

/-- Read off the call on thread `w` before and after the access. -/
def Engine.event (s : Engine) (w : ThreadId) (t : Engine) : StreamEvent :=
  match s.pcs w with
  | .claimStream r _ _ => if (s.active r).isSome then .other else .opens r s.nextStream
  | .getSender _ _ => match t.pcs w with
    | .trySend i _ => .clones i
    | _ => .other
  | .trySend i chunk | .blockingSend i chunk => (t.pcs w).outcome i chunk
  | .releaseStream r => match s.active r with
    | some i => .removes i false
    | none => .other
  | .removeStream r => match s.active r with
    | some i => .removes i true
    | none => .other
  | .returned _ => .returns
  | _ => .other

/-- The engine with its body channels tapped, and with what the callers of the ABI know: the call
that each thread is in, the thread that is in a call on each responder, and the chunks of the writes
on it that returned `HYPER4K_OK`. -/
structure Streaming where
  engine : Engine := {}
  taps : StreamId → Tap Octets := fun _ => {}
  owner : StreamId → Option Responder := fun _ => none
  finished : StreamId → Bool := fun _ => false
  calls : ThreadId → Option Api := fun _ => none
  caller : Responder → Option ThreadId := fun _ => none
  writes : Responder → List Octets := fun _ => []

namespace Streaming

def setTap (s : Streaming) (i : StreamId) (c : Tap Octets) : Streaming := { s with taps := Function.update s.taps i c }

def note (s : Streaming) (w : ThreadId) : StreamEvent → Streaming
  | .opens r i => { s.setTap i { senders := 1 } with owner := Function.update s.owner i (some r) }
  | .clones i => s.setTap i (s.taps i).clone
  | .accepts i chunk =>
    { s.setTap i ((s.taps i).write chunk).dropSender with
      writes := match s.calls w with
        | some api => Function.update s.writes api.responder (s.writes api.responder ++ [chunk])
        | none => s.writes }
  | .fails i => s.setTap i (s.taps i).dropSender
  | .removes i finish =>
    { s.setTap i (s.taps i).dropSender with finished := Function.update s.finished i (s.finished i || finish) }
  | .returns =>
    { s with
      calls := Function.update s.calls w none
      caller := match s.calls w with
        | some api => Function.update s.caller api.responder none
        | none => s.caller }
  | .other => s

/-- `Hyper4kBody::poll_frame` on the body of the response to `r`: a chunk, the end, or pending. -/
def pollFrame (s : Streaming) (r : Responder) : Option Streaming :=
  match s.engine.body r with
  | none => none
  | some i =>
    if (s.engine.streams i).receiver = false then none
    else match (s.engine.streams i).buffer with
      | chunk :: rest =>
        some { s.setTap i ((s.taps i).yield chunk) with
          engine := s.engine.setStream i { s.engine.streams i with buffer := rest } }
      | [] => some (if (s.taps i).senders = 0 then s.setTap i (s.taps i).finish else s)

end Streaming

inductive StreamAct
  | engine (a : Act)
  | poll (r : Responder)
  deriving DecidableEq, Repr

def Streaming.step (cfg : Config) (s : Streaming) : StreamAct → Option Streaming
  | .engine (.enter w api) => (s.engine.step cfg (.enter w api)).map fun t =>
    { s with
      engine := t
      calls := Function.update s.calls w (some api)
      caller := Function.update s.caller api.responder (some w) }
  | .engine (.call w) => (s.engine.step cfg (.call w)).map fun t => { s.note w (s.engine.event w t) with engine := t }
  | .engine (.poll _) => none
  | .engine a => (s.engine.step cfg a).map fun t => { s with engine := t }
  | .poll r => s.pollFrame r

abbrev Streaming.Reaches (cfg : Config) (ok : Streaming → StreamAct → Prop) (s : Streaming) (as : List StreamAct)
    (t : Streaming) : Prop :=
  Run (Streaming.step cfg) ok s as t

/-- The calls on `r` are made one after another. -/
def Streaming.OneByOne (r : Responder) (s : Streaming) : StreamAct → Prop
  | .engine (.enter _ api) => api.responder = r → s.caller r = none
  | _ => True

instance (r : Responder) (s : Streaming) : (a : StreamAct) → Decidable (s.OneByOne r a)
  | .engine (.enter _ api) => inferInstanceAs (Decidable (api.responder = r → s.caller r = none))
  | .engine (.request _) | .engine (.handle _) | .engine (.disconnect _) | .engine (.call _) | .engine (.poll _)
  | .engine (.dropBody _) | .poll _ => inferInstanceAs (Decidable True)

def CallPc.sending : CallPc → Option (StreamId × Octets)
  | .trySend i chunk | .blockingSend i chunk => some (i, chunk)
  | _ => none

/-- The stream that a `begin` has put into the map and not delivered yet. -/
def CallPc.begins : CallPc → Option (Responder × StreamId)
  | .deliver r own | .takePending r own _ | .send r own _ => own.rx.map (r, ·)
  | _ => none

/-- The delivery a call was made with, and what it sends in its place. -/
def CallPc.carried : CallPc → Option (Delivery × Delivery)
  | .takePending _ own payload | .send _ own payload => some (own, payload)
  | _ => none

def CallPc.on (owner : StreamId → Option Responder) : CallPc → Option Responder
  | .checkStreams r _ | .claimStream r _ _ | .deliver r _ | .takePending r _ _ | .send r _ _ | .releaseStream r
  | .getSender r _ | .removeStream r => some r
  | .trySend i _ | .blockingSend i _ => owner i
  | .idle | .returned _ => none

def CallPc.responds : CallPc → Prop
  | .checkStreams _ own => own.rx = none
  | _ => True

/-- An access that touches no channel and no entry of the map of streams. -/
structure CallPc.Turns (pc next : CallPc) : Prop where
  busy : pc ≠ .idle
  free : pc.sending = none
  held : ∀ r, pc ≠ .releaseStream r
  moves : next ≠ .idle
  unsent : next.sending = none
  responds : next.responds
  on : ∀ owner, next.on owner = none ∨ next.on owner = pc.on owner
  same : ∀ b, next.begins = some b → pc.begins = some b
  kept : pc.begins ≠ none → next.begins ≠ none ∨ ∃ r, next = .releaseStream r
  refused : ∀ r, next = .releaseStream r → ∃ i, pc.begins = some (r, i)
  carried : ∀ own payload, next.carried = some (own, payload) →
    payload = own ∨ payload = slotBusy ∨ pc.carried = some (own, payload)

inductive Engine.Accessed (s : Engine) (w : ThreadId) : StreamEvent → Engine → Prop
  | opens (r : Responder) (status : UInt16) (headers : HeaderList) (pc : s.pcs w = .claimStream r status headers)
      (free : s.active r = none) :
    s.Accessed w (.opens r s.nextStream)
      (({ s with nextStream := s.nextStream + 1 }.setActive r (some s.nextStream)).setCall w
        (.deliver r (.stream ⟨status, headers, s.nextStream⟩)))
  | clones (r : Responder) (i : StreamId) (chunk : Octets) (pc : s.pcs w = .getSender r (.bytes chunk))
      (full : chunk ≠ []) (found : s.active r = some i) :
    s.Accessed w (.clones i) (s.setCall w (.trySend i chunk))
  | accepts (i : StreamId) (chunk : Octets) (pc : (s.pcs w).sending = some (i, chunk))
      (room : (s.streams i).buffer.length < STREAM_CHANNEL_CAPACITY) :
    s.Accessed w (.accepts i chunk)
      ((s.setStream i { s.streams i with buffer := (s.streams i).buffer ++ [chunk] }).setCall w (.returned .ok))
  | fails (i : StreamId) (chunk : Octets) (code : Code) (pc : (s.pcs w).sending = some (i, chunk)) :
    s.Accessed w (.fails i) (s.setCall w (.returned code))
  | waits (i : StreamId) (chunk : Octets) (pc : (s.pcs w).sending = some (i, chunk)) :
    s.Accessed w .other (s.setCall w (.blockingSend i chunk))
  | removes (r : Responder) (i : StreamId) (finish : Bool) (code : Code)
      (pc : s.pcs w = if finish then .removeStream r else .releaseStream r) (found : s.active r = some i) :
    s.Accessed w (.removes i finish) ((s.setActive r none).setCall w (.returned code))
  | releasesNone (r : Responder) (code : Code) (pc : s.pcs w = .releaseStream r) (found : s.active r = none) :
    s.Accessed w .other ((s.setActive r none).setCall w (.returned code))
  | returns (code : Code) (pc : s.pcs w = .returned code) : s.Accessed w .returns (s.setCall w .idle)
  | delivers (r : Responder) (own : Delivery) (t : Engine)
      (pc : s.pcs w = .deliver r own ∨ ∃ payload, s.pcs w = .send r own payload)
      (pcs : t.pcs = Function.update s.pcs w (.returned .ok))
      (accepted : t.accepted = Function.update s.accepted r (s.accepted r ++ [own]))
      (active : t.active = s.active) (streams : t.streams = s.streams) (nextStream : t.nextStream = s.nextStream) :
    s.Accessed w .other t
  | turns (next : CallPc) (t : Engine) (turns : (s.pcs w).Turns next) (pcs : t.pcs = Function.update s.pcs w next)
      (accepted : t.accepted = s.accepted) (active : t.active = s.active) (streams : t.streams = s.streams)
      (nextStream : t.nextStream = s.nextStream) :
    s.Accessed w .other t

section Access
variable {cfg : Config} {s t : Engine} {w : ThreadId}

theorem pcs_setThread (s : Engine) (w : ThreadId) (X : Thread) :
    (s.setThread w X).pcs = Function.update s.pcs w X.call := by
  funext u
  by_cases hu : u = w
  · subst hu
    rw [Function.update_self]
    exact congrArg Thread.call (Function.update_self ..)
  · rw [Function.update_of_ne hu]
    exact congrArg Thread.call (Function.update_of_ne hu ..)

theorem pcs_setCall (s : Engine) (w : ThreadId) (pc : CallPc) : (s.setCall w pc).pcs = Function.update s.pcs w pc :=
  pcs_setThread s w _

theorem turns_refused (r : Responder) (own payload : Delivery) :
    (CallPc.takePending r own payload).Turns (own.refused r) ∧ (CallPc.send r own payload).Turns (own.refused r) := by
  cases own with
  | buffered data => constructor <;> constructor <;> simp [Delivery.refused, CallPc.sending, CallPc.begins, CallPc.on,
      CallPc.carried, CallPc.responds, Delivery.rx]
  | stream start => constructor <;> constructor <;> simp [Delivery.refused, CallPc.sending, CallPc.begins, CallPc.on,
      CallPc.carried, CallPc.responds, Delivery.rx]

def CallPc.clear : CallPc → Bool
  | .idle | .releaseStream _ => false
  | _ => true

theorem turns_returned {pc : CallPc} (code : Code) (clear : pc.clear = true) (free : pc.sending = none)
    (begins : pc.begins = none) : pc.Turns (.returned code) where
  busy := by
    rintro rfl
    cases clear
  free := free
  held r := by
    rintro rfl
    cases clear
  moves h := by cases h
  unsent := rfl
  responds := trivial
  on _ := .inl rfl
  same _ h := nomatch h
  kept h := absurd begins h
  refused _ h := nomatch h
  carried _ _ h := nomatch h

theorem event_sending {i : StreamId} {chunk : Octets} (h : (s.pcs w).sending = some (i, chunk)) (next : CallPc)
    (ht : t.pcs = Function.update s.pcs w next) : s.event w t = next.outcome i chunk := by
  have hnext : t.pcs w = next := by rw [ht, Function.update_self]
  rw [Engine.event, hnext]
  cases hpc : s.pcs w with
  | trySend | blockingSend =>
    rw [hpc] at h
    cases h
    rfl
  | _ =>
    rw [hpc] at h
    cases h

/-- The two places from which a write sends do the same when the channel is closed or has room. -/
theorem Engine.send_accessed {i : StreamId} {chunk : Octets} (hpc : (s.pcs w).sending = some (i, chunk)) :
    (∀ code, code ≠ .ok → s.Accessed w (s.event w (s.setCall w (.returned code))) (s.setCall w (.returned code))) ∧
    ∀ c, c = { s.streams i with buffer := (s.streams i).buffer ++ [chunk] } →
      (s.streams i).buffer.length < STREAM_CHANNEL_CAPACITY →
      s.Accessed w (s.event w ((s.setStream i c).setCall w (.returned .ok)))
        ((s.setStream i c).setCall w (.returned .ok)) := by
  constructor
  · intro code hcode
    rw [event_sending hpc _ (pcs_setCall ..)]
    cases code with
    | ok => exact absurd rfl hcode
    | _ => exact .fails i chunk _ hpc
  · intro c hc hroom
    rw [event_sending hpc (.returned .ok) (pcs_setCall (s.setStream i c) w _), hc]
    exact .accepts i chunk hpc hroom

theorem Engine.advance_accessed (hown : (s.pcs w).responds) (h : s.advance cfg w = some t) :
    s.Accessed w (s.event w t) t := by
  rw [Engine.advance, show (s.threads w).call = s.pcs w from rfl] at h
  generalize hpc : s.pcs w = pc at h hown
  cases pc with
  | idle => cases h
  | checkStreams r own =>
    have hnone : own.rx = none := hown
    cases h
    rw [show s.event w _ = .other by rw [Engine.event, hpc]]
    refine .turns _ _ ?_ (pcs_setCall ..) rfl rfl rfl rfl
    rw [hpc]
    split
    · exact turns_returned _ rfl rfl rfl
    · constructor <;> simp [CallPc.sending, CallPc.begins, CallPc.on, CallPc.carried, CallPc.responds, hnone]
  | claimStream r status headers =>
    simp only at h
    split at h
    · rename_i i hactive
      cases h
      rw [show s.event w _ = .other by rw [Engine.event, hpc]; simp [hactive]]
      exact .turns _ _ (hpc ▸ turns_returned _ rfl rfl rfl) (pcs_setCall ..) rfl rfl rfl rfl
    · rename_i hactive
      cases h
      rw [show s.event w _ = .opens r s.nextStream by rw [Engine.event, hpc]; simp [hactive]]
      exact .opens r status headers hpc hactive
  | deliver r own =>
    simp only at h
    rw [show s.event w t = .other by rw [Engine.event, hpc]]
    have hturn : ∀ payload, payload = own ∨ payload = slotBusy →
        (CallPc.deliver r own).Turns (.takePending r own payload) := by
      intro payload hp
      constructor <;> simp [CallPc.sending, CallPc.begins, CallPc.on, CallPc.carried, CallPc.responds]
      exact hp
    split at h
    · split at h
      · cases h
        exact .delivers r own _ (.inl hpc) (pcs_setThread ..) rfl rfl rfl rfl
      · cases h
        exact .turns _ _ (hpc ▸ hturn slotBusy (.inr rfl)) (pcs_setCall ..) rfl rfl rfl rfl
    · cases h
      exact .turns _ _ (hpc ▸ hturn own (.inl rfl)) (pcs_setCall ..) rfl rfl rfl rfl
  | takePending r own payload =>
    simp only at h
    rw [show s.event w t = .other by rw [Engine.event, hpc]]
    split at h
    · cases h
      refine .turns _ _ ?_ (pcs_setCall ..) rfl rfl rfl rfl
      rw [hpc]
      constructor <;> simp [CallPc.sending, CallPc.begins, CallPc.on, CallPc.carried, CallPc.responds]
    · cases h
      exact .turns _ _ (hpc ▸ (turns_refused r own payload).1) (pcs_setCall ..) rfl rfl rfl rfl
  | send r own payload =>
    simp only at h
    rw [show s.event w t = .other by rw [Engine.event, hpc]]
    split at h
    · cases h
      exact .delivers r own _ (.inr ⟨payload, hpc⟩) (pcs_setCall ..) rfl rfl rfl rfl
    · cases h
      exact .turns _ _ (hpc ▸ (turns_refused r own payload).2) (pcs_setCall ..) rfl rfl rfl rfl
  | releaseStream r =>
    cases h
    cases hactive : s.active r with
    | some i =>
      rw [show s.event w _ = .removes i false by rw [Engine.event, hpc]; simp [hactive]]
      exact .removes r i false _ hpc hactive
    | none =>
      rw [show s.event w _ = .other by rw [Engine.event, hpc]; simp [hactive]]
      exact .releasesNone r _ hpc hactive
  | getSender r chunk =>
    simp only at h
    have hreturn : ∀ code,
        s.Accessed w (s.event w (s.setCall w (.returned code))) (s.setCall w (.returned code)) := by
      intro code
      rw [show s.event w _ = .other by rw [Engine.event, hpc, pcs_setCall, Function.update_self]]
      exact .turns _ _ (hpc ▸ turns_returned _ rfl rfl rfl) (pcs_setCall ..) rfl rfl rfl rfl
    split at h
    · cases h
      exact hreturn _
    · rename_i i hactive
      split at h
      · cases h
        exact hreturn _
      · cases h
        exact hreturn _
      · cases h
        exact hreturn _
      · rename_i b bs
        cases h
        rw [show s.event w _ = .clones i by rw [Engine.event, hpc, pcs_setCall, Function.update_self]]
        exact .clones r i (b :: bs) hpc (List.cons_ne_nil b bs) hactive
  | trySend i chunk =>
    simp only at h
    have hsending : (s.pcs w).sending = some (i, chunk) := by rw [hpc]; rfl
    obtain ⟨hfails, haccepts⟩ := Engine.send_accessed hsending
    split at h
    · cases h
      exact hfails _ (by decide)
    · split at h
      · rename_i hroom
        cases h
        exact haccepts _ rfl hroom
      · split at h
        · cases h
          exact hfails _ (by decide)
        · cases h
          rw [event_sending hsending _ (pcs_setCall ..)]
          exact .waits i chunk hsending
  | blockingSend i chunk =>
    simp only at h
    have hsending : (s.pcs w).sending = some (i, chunk) := by rw [hpc]; rfl
    obtain ⟨hfails, haccepts⟩ := Engine.send_accessed hsending
    split at h
    · cases h
      exact hfails _ (by decide)
    · split at h
      · rename_i hroom
        cases h
        exact haccepts _ rfl hroom
      · cases h
  | removeStream r =>
    simp only at h
    split at h
    · rename_i i hactive
      cases h
      rw [show s.event w _ = .removes i true by rw [Engine.event, hpc]; simp [hactive]]
      exact .removes r i true _ hpc hactive
    · rename_i hactive
      cases h
      rw [show s.event w _ = .other by rw [Engine.event, hpc]; simp [hactive]]
      exact .turns _ _ (hpc ▸ turns_returned _ rfl rfl rfl) (pcs_setCall ..) rfl rfl rfl rfl
  | returned code =>
    cases h
    rw [show s.event w _ = .returns by rw [Engine.event, hpc]]
    exact .returns code hpc

end Access

/-- The streams on their way to a request, or in what it was answered with, are of `begin`s on it
that returned `HYPER4K_OK`. -/
structure Engine.Streamed (s : Engine) : Prop where
  sent : ∀ r d i, (s.channels r).sent = some d → d.rx = some i → i ∈ s.begun r
  slot : ∀ w r d i, (s.threads w).syncResponse = some d → (s.handles r).thread = some w → d.rx = some i → i ∈ s.begun r
  answer : ∀ r d i, (s.handles r).ending = some (.answered d) → d.rx = some i → i ∈ s.begun r

def Engine.SendsOwn (s : Engine) : Prop :=
  ∀ w own payload, (s.pcs w).carried = some (own, payload) → payload = own ∨ payload = slotBusy

section Streamed
variable {s t : Engine} {a : Act}

theorem Engine.Streamed.init : ({} : Engine).Streamed where
  sent _ _ _ h := nomatch h
  slot _ _ _ _ h := nomatch h
  answer _ _ _ h := nomatch h

theorem begun_congr (h : t.accepted = s.accepted) : t.begun = s.begun := by
  funext q
  rw [Engine.begun, h]
  rfl

theorem begun_accepted {r : Responder} {own : Delivery}
    (h : t.accepted = Function.update s.accepted r (s.accepted r ++ [own])) :
    t.begun = Function.update s.begun r (s.begun r ++ own.rx.toList) := by
  funext q
  by_cases hq : q = r
  · subst hq
    rw [Function.update_self, Engine.begun, h, Function.update_self, List.filterMap_append]
    cases hrx : own.rx <;> simp [Engine.begun, hrx]
  · rw [Function.update_of_ne hq, Engine.begun, h, Function.update_of_ne hq]
    rfl

theorem begun_accept (s : Engine) (r q : Responder) (own : Delivery) {i : StreamId} (h : i ∈ s.begun q) :
    i ∈ (s.accept r own).begun q := by
  rw [begun_accepted (rfl : (s.accept r own).accepted = _)]
  by_cases hq : q = r
  · subst hq
    rw [Function.update_self]
    exact List.mem_append_left _ h
  · rwa [Function.update_of_ne hq]

theorem begun_own (s : Engine) (r : Responder) {own : Delivery} {i : StreamId} (h : own.rx = some i) :
    i ∈ (s.accept r own).begun r := by
  rw [begun_accepted (rfl : (s.accept r own).accepted = _), Function.update_self, h]
  exact List.mem_append_right _ (List.mem_singleton_self i)

theorem Engine.Streamed.keep (hs : s.Streamed) (begun : t.begun = s.begun)
    (sent : ∀ r d, (t.channels r).sent = some d → (s.channels r).sent = some d)
    (slot : ∀ w r d, (t.threads w).syncResponse = some d → (t.handles r).thread = some w →
      (s.threads w).syncResponse = some d ∧ (s.handles r).thread = some w)
    (answer : ∀ r d, (t.handles r).ending = some (.answered d) → (s.handles r).ending = some (.answered d) ∨
      (s.channels r).sent = some d ∨ ∃ w, (s.threads w).syncResponse = some d ∧ (s.handles r).thread = some w) :
    t.Streamed := by
  refine ⟨fun r d i hd hi => ?_, fun w r d i hd hr hi => ?_, fun r d i hd hi => ?_⟩
  · rw [begun]
    exact hs.sent r d i (sent r d hd) hi
  · rw [begun]
    obtain ⟨hd, hr⟩ := slot w r d hd hr
    exact hs.slot w r d i hd hr hi
  · rw [begun]
    rcases answer r d hd with hd | hd | ⟨w, hd, hr⟩
    · exact hs.answer r d i hd hi
    · exact hs.sent r d i hd hi
    · exact hs.slot w r d i hd hr hi

theorem Engine.Streamed.handled (hs : s.Streamed) {r : Responder} {pc : HandlePc}
    (handles : t.handles = Function.update s.handles r pc) (begun : t.begun = s.begun)
    (sent : ∀ q d, (t.channels q).sent = some d → (s.channels q).sent = some d)
    (slot : ∀ u d, (t.threads u).syncResponse = some d → (s.threads u).syncResponse = some d)
    (thread : ∀ u, pc.thread = some u → (s.handles r).thread = some u)
    (answer : ∀ d, pc.ending = some (.answered d) → (s.handles r).ending = some (.answered d) ∨
      (s.channels r).sent = some d ∨ ∃ w, (s.threads w).syncResponse = some d ∧ (s.handles r).thread = some w) :
    t.Streamed := by
  refine hs.keep begun sent (fun w q d hd hq => ⟨slot w d hd, ?_⟩) fun q d hd => ?_
  · rw [handles] at hq
    by_cases hqr : q = r
    · subst hqr
      rw [Function.update_self] at hq
      exact thread w hq
    · rwa [Function.update_of_ne hqr] at hq
  · rw [handles] at hd
    by_cases hqr : q = r
    · subst hqr
      rw [Function.update_self] at hd
      exact answer d hd
    · rw [Function.update_of_ne hqr] at hd
      exact .inl hd

theorem Engine.Streamed.step (ho : s.Orderly) (hown : s.SendsOwn) (hs : s.Streamed) (h : s.Stepped a t) :
    t.Streamed := by
  have thread : ∀ {r : Responder} {pc pc' : HandlePc}, s.handles r = pc → pc'.thread = pc.thread → ∀ u,
      pc'.thread = some u → (s.handles r).thread = some u := fun hr hpc u hu => by rw [hr, ← hpc, hu]
  have slot : ∀ {w : ThreadId} {X : Thread}, X.syncResponse = none ∨ X.syncResponse = (s.threads w).syncResponse →
      ∀ u d, (Function.update s.threads w X u).syncResponse = some d → (s.threads u).syncResponse = some d := by
    intro w X hX u d hd
    by_cases hu : u = w
    · subst hu
      rw [Function.update_self] at hd
      rcases hX with hX | hX
      · rw [hX] at hd
        cases hd
      · rwa [hX] at hd
    · rwa [Function.update_of_ne hu] at hd
  have called : ∀ {w : ThreadId} {X : Thread}, X.syncResponse = (s.threads w).syncResponse → ∀ (u : ThreadId)
      (r : Responder) (d : Delivery), (Function.update s.threads w X u).syncResponse = some d →
      (s.handles r).thread = some u → (s.threads u).syncResponse = some d ∧ (s.handles r).thread = some u :=
    fun hX u r d hd hr => ⟨slot (.inr hX) u d hd, hr⟩
  cases h with
  | request w free idle =>
    have hempty : (s.threads w).syncResponse = none := Orderly.vacant ho free
    refine hs.keep rfl (fun _ _ hd => hd) (fun u r d hd hr => ?_) fun r d hd => .inl ?_
    · have hd : (s.threads u).syncResponse = some d :=
        slot (w := w) (X := { s.threads w with serving := some s.nextId }) (.inr rfl) u d hd
      refine ⟨hd, ?_⟩
      have hr : (Function.update s.handles s.nextId (.insertPending w) r).thread = some u := hr
      by_cases hrn : r = s.nextId
      · subst hrn
        rw [Function.update_self] at hr
        cases hr
        rw [hempty] at hd
        cases hd
      · rwa [Function.update_of_ne hrn] at hr
    · have hd : (Function.update s.handles s.nextId (.insertPending w) r).ending = some (.answered d) := hd
      by_cases hrn : r = s.nextId
      · subst hrn
        rw [Function.update_self] at hd
        cases hd
      · rwa [Function.update_of_ne hrn] at hd
  | insertPending r w pc =>
    exact hs.handled rfl rfl (sent_update (.inl rfl)) (fun _ _ hd => hd) (thread pc rfl) fun d hd => (by cases hd)
  | setCallback r w pc =>
    exact hs.handled rfl rfl (fun _ _ hd => hd) (slot (.inr rfl)) (thread pc rfl) fun d hd => (by cases hd)
  | endCallback r w pc idle =>
    exact hs.handled rfl rfl (fun _ _ hd => hd) (fun _ _ hd => hd) (thread pc rfl) fun d hd => (by cases hd)
  | clearCallback r w pc =>
    exact hs.handled rfl rfl (fun _ _ hd => hd) (slot (.inr rfl)) (thread pc rfl) fun d hd => (by cases hd)
  | takeSync r w d pc hslot =>
    refine hs.handled rfl rfl (fun _ _ hd => hd) (slot (.inl rfl)) (fun u hu => (by cases hu)) fun d' hd' => ?_
    cases hd'
    exact .inr (.inr ⟨w, hslot, by rw [pc]; rfl⟩)
  | noSync r w pc hslot =>
    exact hs.handled rfl rfl (fun _ _ hd => hd) (slot (.inr rfl)) (fun u hu => (by cases hu)) fun d hd => (by cases hd)
  | ending a r e pc hsent =>
    refine hs.handled rfl rfl (sent_update (.inr rfl)) (fun _ _ hd => hd) (fun u hu => (by cases hu)) fun d hd => ?_
    exact .inr (.inl (hsent d (Option.some.inj hd)))
  | removePending r e pc | dropReceiver r e pc =>
    refine hs.handled rfl rfl (sent_update (.inr rfl)) (fun _ _ hd => hd) (fun u hu => (by cases hu)) fun d hd => ?_
    exact .inl (by rw [pc]; exact hd)
  | enter w api pc => exact hs.keep rfl (fun _ _ hd => hd) (called rfl) fun _ _ hd => .inl hd
  | onward w pc active streams nextStream => exact hs.keep rfl (fun _ _ hd => hd) (called rfl) fun _ _ hd => .inl hd
  | take w r own payload => exact hs.keep rfl (fun _ _ hd => hd) (called rfl) fun _ _ hd => .inl hd
  | unsent w r own payload => exact hs.keep rfl (sent_update (.inr rfl)) (called rfl) fun _ _ hd => .inl hd
  | body a streams => exact hs.keep rfl (fun _ _ hd => hd) (fun _ _ _ hd hr => ⟨hd, hr⟩) fun _ _ hd => .inl hd
  | sync w r own pc inside hslot =>
    have hin : s.handles r = .inCallback w := ho.inside (by rw [pc]; rfl) inside
    refine ⟨fun q d i hd hi => begun_accept s r q own (hs.sent q d i hd hi), fun u q d i hd hq hi => ?_,
      fun q d i hd hi => begun_accept s r q own (hs.answer q d i hd hi)⟩
    have hd : (Function.update s.threads w _ u).syncResponse = some d := hd
    by_cases hu : u = w
    · subst hu
      rw [Function.update_self] at hd
      cases hd
      obtain rfl : q = r := Orderly.sole ho (by rw [hin]; rfl) hq
      exact begun_own s q hi
    · rw [Function.update_of_ne hu] at hd
      exact begun_accept s r q own (hs.slot u q d i hd hq hi)
  | sent w r own payload pc =>
    refine ⟨fun q d i hd hi => ?_, fun u q d i hd hq hi => ?_,
      fun q d i hd hi => begun_accept s r q own (hs.answer q d i hd hi)⟩
    · have hd : (Function.update s.channels r { s.channels r with sent := some payload, sender := false } q).sent =
        some d := hd
      by_cases hqr : q = r
      · subst hqr
        rw [Function.update_self] at hd
        cases hd
        rcases hown w own payload (by rw [Engine.pcs, pc]; rfl) with rfl | rfl
        · exact begun_own s q hi
        · cases hi
      · rw [Function.update_of_ne hqr] at hd
        exact begun_accept s r q own (hs.sent q d i hd hi)
    · have hd : (s.threads u).syncResponse = some d :=
        slot (w := w) (X := { s.threads w with call := .returned .ok }) (.inr rfl) u d hd
      exact begun_accept s r q own (hs.slot u q d i hd hq hi)

/-- A body reads a stream that was begun for its request. -/
theorem Engine.Streamed.body (hs : s.Streamed) {r : Responder} {i : StreamId} (h : s.body r = some i) :
    i ∈ s.begun r := by
  unfold Engine.body at h
  split at h
  · rename_i e hr
    obtain ⟨response, hresponse, hi⟩ := Option.bind_eq_some_iff.mp h
    cases e with
    | answered d =>
      refine hs.answer r d i (by rw [hr]; rfl) ?_
      cases hresponse
      unfold buildResponse at hi
      split at hi
      · cases d with
        | stream start => exact hi
        | buffered data => cases hi
      · cases hi
    | orphaned =>
      cases hresponse
      cases hi
    | cancelled => cases hresponse
  · cases h

end Streamed

end Hyper4k.Server
