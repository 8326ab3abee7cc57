import Hyper4k.Kotlin.Slots
import Hyper4k.Server.StreamOwner

/-! The dispatcher over the engine: `complete` is the real `respond`, which calls `hyper4k_respond`.
`droppedResponses` is compared with what the engine answered. -/
namespace Hyper4k.Dispatch
open Server (Api Buffer CallPc Code Delivery Engine Responder ThreadId encodeHeaders)
open Text
open Runs

/-- A pinned array; an empty one is passed as a null pointer. -/
def pinned (b : Octets) : Buffer := if b.isEmpty then .null 0 else .bytes b

/-- `respond` up to the native call. `none` where `encodeHeaders` throws. -/
def respondCall (r : Responder) (response : Hyper4kResponse) : Option Api :=
  (encodeHeaders response.headers).map fun headers =>
    .respond r response.status.toUInt32.toUInt16 (pinned headers) (pinned response.body)

/-- `hyper4k_respond(..) != 0`. -/
def respondResult (code : Code) : Bool := code.value != 0

def Pc.completing : Pc → Option Hyper4kResponse
  | .complete response _ => some response
  | _ => none

def Config.answering (cfg : Config) (r : Responder) (result : Option Bool) : Config :=
  { cfg with behaviour := Function.update cfg.behaviour r { cfg.behaviour r with complete := result } }

/-- The dispatcher and the engine. `calling` are the requests inside `hyper4k_respond`, `caller` says for which
request a thread is. -/
structure Serving where
  dispatcher : Dispatcher
  engine : Engine
  calling : Responder → Bool := fun _ => false
  caller : ThreadId → Option Responder := fun _ => none

/-- Steps of the dispatcher and of the engine, with calls of its functions by anybody. A completion enters
`hyper4k_respond` on some thread and takes its answer, or throws before. -/
inductive ServeAct
  | dispatch (a : SlotAct)
  | engine (a : Server.Act)
  | respond (r : Responder) (w : ThreadId)
  | throws (r : Responder)
  | returned (w : ThreadId)
  deriving DecidableEq

namespace Serving

def completes (s : Serving) : SlotAct → Bool
  | .dispatch (.exec r) => (s.dispatcher.jobs r).pc.completing.isSome
  | _ => false

def answers (s : Serving) : Server.Act → Bool
  | .call w => (s.caller w).isSome && match (s.engine.threads w).call with
    | .returned _ => true
    | _ => false
  | _ => false

def step (cfg : Config) (native : Server.Config) (s : Serving) : ServeAct → Option Serving
  | .dispatch a => if s.completes a then none else
      (s.dispatcher.slotStep cfg a).map fun d => { s with dispatcher := d }
  | .engine a => if s.answers a then none else (s.engine.step native a).map fun e => { s with engine := e }
  | .respond r w => do
    let response ← (s.dispatcher.jobs r).pc.completing
    let api ← respondCall r response
    if s.calling r then none
    else
      let e ← s.engine.step native (.enter w api)
      return { s with
        engine := e, calling := Function.update s.calling r true, caller := Function.update s.caller w (some r) }
  | .throws r =>
    if (s.dispatcher.jobs r).pc.completing.isSome && !s.calling r then
      (s.dispatcher.exec (cfg.answering r none) r).map fun d => { s with dispatcher := d }
    else none
  | .returned w => match s.caller w, (s.engine.threads w).call with
    | some r, .returned code =>
      if (s.dispatcher.jobs r).pc.completing.isSome then
        (s.dispatcher.exec (cfg.answering r (some (respondResult code))) r).map fun d =>
          ⟨d, s.engine.setCall w .idle, Function.update s.calling r false, Function.update s.caller w none⟩
      else none
    | _, _ => none

/-- An observer counts the completions that the engine did not take: the code is not `HYPER4K_OK`, or they threw. -/
def tally (s : Serving) (a : ServeAct) (_ : Serving) (n : Nat) : Nat :=
  match a with
  | .throws _ => n + 1
  | .returned w => match (s.engine.threads w).call with
    | .returned code => n + if code = .ok then 0 else 1
    | _ => n
  | _ => n

/-- Runs of a new dispatcher over an engine in any state. -/
abbrev Reaches (cfg : Config) (native : Server.Config) (ok : Serving → ServeAct → Prop) (e : Engine)
    (as : List ServeAct) (s : Serving) (n : Nat) : Prop :=
  Run (observe (Serving.step cfg native) Serving.tally) (fun p => ok p.1) ({ dispatcher := .init cfg, engine := e }, 0)
    as (s, n)

/-- `hyper4k_respond`, called for a completion, finds its responder streaming. -/
def findsStream (s : Serving) : ServeAct → Bool
  | .engine (.call w) => match (s.engine.threads w).call with
    | .checkStreams r _ => (s.caller w).isSome && (s.engine.active r).isSome
    | _ => false
  | _ => false

end Serving

section Counters
variable {cfg : Config} {s t : Dispatcher} {r : Responder}

theorem Dispatcher.exec_completing (hpc : (s.jobs r).pc.completing.isSome = true) (h : s.exec cfg r = some t) :
    t.droppedResponses = s.droppedResponses + if (cfg.behaviour r).complete = some true then 0 else 1 := by
  rw [Dispatcher.exec] at h
  generalize (s.jobs r).pc = pc at h hpc
  cases pc with
  | complete response slot =>
    cases h
    rfl
  | _ => cases hpc

/-- Nothing else in the dispatcher touches the counter. -/
theorem Dispatcher.exec_dropped (hpc : (s.jobs r).pc.completing.isSome = false) (h : s.exec cfg r = some t) :
    t.droppedResponses = s.droppedResponses := by
  rw [Dispatcher.exec] at h
  generalize (s.jobs r).pc = pc at h hpc
  cases pc with
  | complete response slot => cases hpc
  | away | released | refused | thrown => cases h
  | tryAcquire =>
    simp only [Option.some.injEq] at h
    subst h
    split <;> rfl
  | newChannel =>
    simp only at h
    split at h <;> cases h <;> rfl
  | handler ops => cases ops <;> cases h <;> rfl
  | _ =>
    cases h
    rfl

theorem Config.answering_complete (cfg : Config) (r : Responder) (result : Option Bool) :
    ((cfg.answering r result).behaviour r).complete = result := by
  simp only [Config.answering, Function.update_self]

end Counters

def inRespond : CallPc → Bool
  | .checkStreams _ (.buffered _) | .deliver _ (.buffered _) | .takePending _ (.buffered _) _
  | .send _ (.buffered _) _ | .returned .ok | .returned .failed => true
  | _ => false

section Engine
variable {native : Server.Config} {e e' : Engine} {w : ThreadId}

theorem advance_pcs (h : e.advance native w = some e') : ∃ next, e'.pcs = Function.update e.pcs w next := by
  unfold Engine.advance at h
  repeat' split at h
  all_goals first
    | (cases h; done)
    | (cases h; exact ⟨_, Server.pcs_setCall _ w _⟩)
    | (cases h; exact ⟨_, Server.pcs_setThread _ w _⟩)

theorem setThread_pcs (e : Engine) (w : ThreadId) (X : Server.Thread) : (e.setThread w X).pcs w = X.call := by
  rw [Server.pcs_setThread, Function.update_self]

theorem setCall_pcs (e : Engine) (w : ThreadId) (pc : CallPc) : (e.setCall w pc).pcs w = pc := by
  rw [Server.pcs_setCall, Function.update_self]

theorem enter_pcs {api : Api} (h : e.step native (.enter w api) = some e') : e'.pcs w = api.start native.http := by
  simp only [Engine.step] at h
  split at h <;> cases h
  exact setCall_pcs ..

/-- `hyper4k_respond` goes on to answer `HYPER4K_OK` or `HYPER4K_FAILED`, unless it finds a stream. -/
theorem advance_inRespond (h : e.advance native w = some e') (hpc : inRespond (e.pcs w) = true)
    (hbusy : ∀ code, e.pcs w ≠ .returned code)
    (hfree : ∀ r own, e.pcs w = .checkStreams r own → (e.active r).isSome = false) : inRespond (e'.pcs w) = true := by
  have hcall : inRespond (e.threads w).call = true := hpc
  unfold Engine.advance at h
  split at h
  case h_2 r own pc =>
    cases h
    rw [setCall_pcs, if_neg (by rw [hfree r own pc]; exact Bool.false_ne_true)]
    rw [pc] at hcall
    cases own with
    | buffered data => rfl
    | stream start => cases hcall
  case h_4 r own pc =>
    rw [pc] at hcall
    cases own with
    | stream start => cases hcall
    | buffered data =>
      split at h
      · split at h <;> cases h
        · exact congrArg inRespond (setThread_pcs ..)
        · exact congrArg inRespond (setCall_pcs ..)
      · cases h
        exact congrArg inRespond (setCall_pcs ..)
  case h_5 r own payload pc | h_6 r own payload pc =>
    rw [pc] at hcall
    cases own with
    | stream start => cases hcall
    | buffered data => split at h <;> cases h <;> exact congrArg inRespond (setCall_pcs ..)
  case h_12 code pc => exact absurd pc (hbusy code)
  all_goals rename_i pc; rw [pc] at hcall; cases hcall

end Engine

/-- What is known in every state: a thread that answers a completion is in `hyper4k_respond`, and the counter agrees
with the observer. -/
structure Serving.Tallied (s : Serving) (n : Nat) : Prop where
  calls : ∀ w, (s.caller w).isSome = true → inRespond (s.engine.pcs w) = true
  dropped : s.dispatcher.droppedResponses = n

section Steps
variable {cfg : Config} {native : Server.Config} {s t : Serving} {n : Nat}

theorem Serving.dispatch_dropped {a : SlotAct} {d : Dispatcher} (ha : s.completes a = false)
    (h : s.dispatcher.slotStep cfg a = some d) : d.droppedResponses = s.dispatcher.droppedResponses := by
  cases a with
  | dispatch a =>
    cases a with
    | submit r =>
      simp only [Dispatcher.slotStep, Dispatcher.step] at h
      split at h <;> cases h
      rfl
    | exec r => exact Dispatcher.exec_dropped ha h
    | stopAccepting =>
      cases h
      rfl
  | isStreaming r answer =>
    simp only [Dispatcher.slotStep] at h
    split at h <;> cases h
    rfl

/-- The calls of the completions after a step of the engine. -/
theorem Serving.Tallied.engine (hs : s.Tallied n) {a : Server.Act} {e : Engine}
    (hfree : s.findsStream (.engine a) = false) (ha : s.answers a = false) (h : s.engine.step native a = some e)
    (w : ThreadId) (hw : (s.caller w).isSome = true) : inRespond (e.pcs w) = true := by
  have hpc := hs.calls w hw
  by_cases haside : a.aside = true
  · rw [(Server.Engine.step_aside h haside).1]
    exact hpc
  · cases a with
    | poll i =>
      simp only [Engine.step] at h
      split at h <;> cases h
      exact hpc
    | enter v api =>
      simp only [Engine.step] at h
      split at h <;> cases h
      rename_i hidle
      have hne : w ≠ v := by
        rintro rfl
        rw [show s.engine.pcs w = .idle from hidle.1] at hpc
        cases hpc
      rw [Server.pcs_setCall, Function.update_of_ne hne]
      exact hpc
    | call v =>
      by_cases hv : w = v
      · subst hv
        refine advance_inRespond h hpc (fun code hcode => ?_) fun r own hcheck => ?_
        · simp only [Serving.answers, hw, show (s.engine.threads w).call = _ from hcode] at ha
          cases ha
        · simp only [Serving.findsStream, hw, show (s.engine.threads w).call = _ from hcheck, Bool.true_and] at hfree
          exact hfree
      · obtain ⟨next, hnext⟩ := advance_pcs h
        rw [hnext, Function.update_of_ne hv]
        exact hpc
    | _ => exact absurd rfl haside

/-- A `hyper4k_respond` begins by looking for a stream, unless the responder is 0. -/
theorem respondCall_inRespond {r : Responder} {response : Hyper4kResponse} {api : Api}
    (h : respondCall r response = some api) : inRespond (api.start native.http) = true := by
  obtain ⟨headers, -, rfl⟩ := Option.map_eq_some_iff.mp h
  rw [Api.start]
  split <;> rfl

/-- The Kotlin boolean says whether the engine took the response, for the two codes left. -/
theorem respondResult_eq {code : Code} (h : inRespond (.returned code) = true) :
    (if some (respondResult code) = some true then 0 else 1) = if code = .ok then 0 else 1 := by
  cases code with
  | ok | failed => rfl
  | wrongState | clientGone | wouldBlock => cases h

theorem Serving.Tallied.step (hs : s.Tallied n) {a : ServeAct} (hfree : s.findsStream a = false)
    (h : s.step cfg native a = some t) : t.Tallied (s.tally a t n) := by
  cases a with
  | dispatch a =>
    simp only [Serving.step] at h
    split at h
    · cases h
    · rename_i ha
      obtain ⟨d, hd, rfl⟩ := Option.map_eq_some_iff.mp h
      exact ⟨hs.calls, (Serving.dispatch_dropped (Bool.eq_false_iff.mpr ha) hd).trans hs.dropped⟩
  | engine a =>
    simp only [Serving.step] at h
    split at h
    · cases h
    · rename_i ha
      obtain ⟨e, he, rfl⟩ := Option.map_eq_some_iff.mp h
      exact ⟨hs.engine hfree (Bool.eq_false_iff.mpr ha) he, hs.dropped⟩
  | respond r w =>
    simp only [Serving.step, Option.bind_eq_bind, Option.bind_eq_some_iff] at h
    obtain ⟨response, -, api, hapi, h⟩ := h
    split at h
    · cases h
    · obtain ⟨e, he, h⟩ := Option.bind_eq_some_iff.mp h
      cases h
      refine ⟨fun v (hv : (Function.update s.caller w (some r) v).isSome = true) => ?_, hs.dropped⟩
      by_cases hvw : v = w
      · rw [hvw, enter_pcs he]
        exact respondCall_inRespond hapi
      · rw [Function.update_of_ne hvw] at hv
        exact hs.engine rfl rfl he v hv
  | throws r =>
    simp only [Serving.step] at h
    split at h
    · rename_i hpc
      rw [Bool.and_eq_true] at hpc
      obtain ⟨d, hd, rfl⟩ := Option.map_eq_some_iff.mp h
      refine ⟨hs.calls, ?_⟩
      rw [Dispatcher.exec_completing hpc.1 hd, Config.answering_complete, hs.dropped]
      rfl
    · cases h
  | returned w =>
    simp only [Serving.step] at h
    split at h
    · rename_i r code hw hcode
      split at h
      · rename_i hpc
        obtain ⟨d, hd, rfl⟩ := Option.map_eq_some_iff.mp h
        refine ⟨fun v (hv : (Function.update s.caller w none v).isSome = true) => ?_, ?_⟩
        · have hvw : v ≠ w := by
            rintro rfl
            rw [Function.update_self] at hv
            cases hv
          rw [Function.update_of_ne hvw] at hv
          refine (congrArg inRespond ?_).trans (hs.calls v hv)
          exact (congrFun (Server.pcs_setCall s.engine w .idle) v).trans (Function.update_of_ne hvw ..)
        · have hpcs := hs.calls w (by rw [hw]; rfl)
          rw [Engine.pcs, hcode] at hpcs
          rw [Dispatcher.exec_completing hpc hd, Config.answering_complete, respondResult_eq hpcs, hs.dropped]
          simp only [Serving.tally, hcode]
      · cases h
    · cases h

end Steps

/-- `droppedResponses` is the number of completions that the engine did not take, if no completion meets a stream. -/
theorem dropped_responses_exact {cfg : Config} {native : Server.Config} {e : Engine} {as : List ServeAct} {s : Serving}
    {n : Nat} (h : Serving.Reaches cfg native (fun s a => s.findsStream a = false) e as s n) :
    s.dispatcher.droppedResponses = n := by
  have keep : ∀ (p : Serving × Nat) (a : ServeAct) (q : Serving × Nat), p.1.findsStream a = false →
      p.1.Tallied p.2 → observe (Serving.step cfg native) Serving.tally p a = some q → q.1.Tallied q.2 := by
    intro p a q hfree hp hq
    obtain ⟨hstep, hnote⟩ := observe_eq_some hq
    rw [hnote]
    exact hp.step hfree hstep
  exact (h.invariant (I := fun p : Serving × Nat => p.1.Tallied p.2) keep ⟨fun w hw => (by cases hw), rfl⟩).dropped

def toComplete : List ServeAct :=
  .dispatch (.dispatch (.submit 1)) :: List.replicate 7 (.dispatch (.dispatch (.exec 1)))

/-- Nothing is pending under the responder, and the response is counted as dropped. -/
theorem dropped_responses_exact_stale : ∃ as s,
    Serving.Reaches (single [] (.returned { status := 200 })) Server.engineConfig
      (fun s a => s.findsStream a = false) {} as s 1 ∧ s.dispatcher.droppedResponses = 1 := by
  have hrun : (replay
      (observe (Serving.step (single [] (.returned { status := 200 })) Server.engineConfig) Serving.tally)
      (fun p a => p.1.findsStream a = false)
      ({ dispatcher := .init (single [] (.returned { status := 200 })), engine := {} }, 0)
      (toComplete ++ .respond 1 0 :: List.replicate 3 (.engine (.call 0)) ++ [.returned 0])).map Prod.snd = some 1 := by
    decide
  obtain ⟨⟨s, n⟩, hs, rfl⟩ := Option.map_eq_some_iff.mp hrun
  exact ⟨_, s, run_of_replay hs, dropped_responses_exact (run_of_replay hs)⟩

/-- Another coroutine begins a stream on the channel it was given while `complete` is on its way: `hyper4k_respond`
answers `HYPER4K_ERR_WRONG_STATE`, which is not 0. -/
theorem refused_completion_uncounted : ∃ as s,
    Serving.Reaches (single [] (.returned { status := 200 })) Server.engineConfig anyStep {} as s 1 ∧
    s.dispatcher.droppedResponses = 0 := by
  have hrun : (replay
      (observe (Serving.step (single [] (.returned { status := 200 })) Server.engineConfig) Serving.tally) anyStep
      ({ dispatcher := .init (single [] (.returned { status := 200 })), engine := {} }, 0)
      (Server.inRequest.map .engine ++ toComplete ++
        .engine (.enter 1 (.begin 1 200 (.null 0))) :: List.replicate 5 (.engine (.call 1)) ++
        [.respond 1 0, .engine (.call 0), .returned 0])).any
      (fun p => decide (p.1.dispatcher.droppedResponses = 0 ∧ p.2 = 1)) = true := by decide
  obtain ⟨⟨s, n⟩, hs, hd⟩ := (Option.any_eq_true _ _).mp hrun
  obtain ⟨hdropped, rfl⟩ := of_decide_eq_true hd
  exact ⟨_, s, run_of_replay hs, hdropped⟩

end Hyper4k.Dispatch
