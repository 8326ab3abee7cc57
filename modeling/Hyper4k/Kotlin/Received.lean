import Hyper4k.Kotlin.Linked

/-! From the network to `next`: the events of a stream are the callbacks of its request, in their
order, and a success is the whole response. -/
namespace Hyper4k.Streams
open Bridge (Callback Config ReqId Tally)
open Kotlin (ClientEvent)
open Lifecycle (StreamId ThreadId)
open Runs

/-- For request `r` no event is queued between the emptiness check of `run_owned` and its read of a
drained `done_ready`, and its callbacks do not throw. -/
def Frontend.Kept (r : ReqId) (s : Frontend) : Act → Prop
  | .engine a => Bridge.Client.On r Bridge.View.StillEmpty s.engine a
  | .throw q => q ≠ r
  | _ => True

instance (r : ReqId) (s : Frontend) : (a : Act) → Decidable (s.Kept r a)
  | .engine a => inferInstanceAs (Decidable (Bridge.Client.On r Bridge.View.StillEmpty s.engine a))
  | .throw q => inferInstanceAs (Decidable (q ≠ r))
  | .begin _ _ | .kotlin _ _ | .abandon _ | .callback _ => inferInstanceAs (Decidable True)

namespace Frontend

/-- An event of request `r` has been taken, is in the channel, or is in the hands of its callback. The
channel is closed only when the last one has been given to it. -/
structure Flowing (r : ReqId) (s : Frontend) : Prop where
  silent : (s.engine.view r).Silent
  onChunk : (s.engine.slots r).onChunk = true
  flow : ∀ st, s.userData r = some st → s.taken st ++ (s.kotlin.streams st).events ++ (s.callbacks r).pending =
    (s.engine.slots r).trace.map eventOf
  closed : ∀ st, s.userData r = some st → (s.kotlin.streams st).closed = true →
    (s.engine.slots r).dones ≠ [] ∧ (s.callbacks r).pending = []

section Flow
variable {cfg : Config} {o : Tally} {s u : Frontend} {a : Act} {r : ReqId}

theorem Flowing.init (cfg : Config) (r : ReqId) : (Frontend.init (native cfg)).Flowing r where
  silent := by
    rw [show (Frontend.init (native cfg)).engine.view r = _ from Bridge.view_init (native cfg) r]
    exact .init _ _
  onChunk := rfl
  flow _ h := by cases h
  closed _ h := by cases h

theorem Flowing.frame (hs : s.Flowing r) (engine : u.engine = s.engine) (callbacks : u.callbacks r = s.callbacks r)
    (userData : u.userData = s.userData)
    (streams : ∀ st, s.userData r = some st → u.taken st ++ (u.kotlin.streams st).events =
      s.taken st ++ (s.kotlin.streams st).events ∧ (u.kotlin.streams st).closed = (s.kotlin.streams st).closed) :
    u.Flowing r := by
  refine ⟨?_, ?_, fun st hst => ?_, fun st hst hc => ?_⟩
  · rw [engine]
    exact hs.silent
  · rw [engine]
    exact hs.onChunk
  · rw [userData] at hst
    rw [(streams st hst).1, callbacks, engine]
    exact hs.flow st hst
  · rw [userData] at hst
    rw [(streams st hst).2] at hc
    rw [engine, callbacks]
    exact hs.closed st hst hc

/-- While a worker is about to call, no callback of the request is running. -/
theorem Tied.uncalled (hs : s.Tied cfg o) (hl : (s.engine.view r).Locked)
    (hcalls : ∃ u, ((s.engine.view r).pc u).calls = true) : s.callbacks r = .outside := by
  by_contra hin
  obtain ⟨v, hv⟩ := hcalls
  obtain ⟨w, hw⟩ := hs.inside r hin
  have howns : ((s.engine.view r).pc v).owns = true := by
    generalize (s.engine.view r).pc v = pc at hv
    cases pc <;> first | rfl | cases hv
  have hvw := hl.sole v w howns (Bridge.Pc.owns_of_inUserCode hw)
  rw [hvw] at hv
  generalize (s.engine.view r).pc w = pc at hv hw
  cases pc with
  | deliver | deliverDone => cases hw
  | _ => cases hv

/-- A request that nobody has registered has had no callback, and has none now. -/
theorem Tied.untouched (hs : s.Tied cfg o) (hr : s.userData r = none) :
    s.engine.view r = Bridge.View.init (cfg.onChunk r) cfg.queueCapacity ∧ s.callbacks r = .outside := by
  have hview : s.engine.view r = Bridge.View.init (cfg.onChunk r) cfg.queueCapacity := by
    refine hs.accounts.untouched r fun hmem => ?_
    obtain ⟨st, hst⟩ := (hs.entered r).mp hmem
    rw [hr] at hst
    cases hst
  refine ⟨hview, ?_⟩
  by_contra hin
  obtain ⟨v, hv⟩ := hs.inside r hin
  rw [hview] at hv
  cases hv

private theorem Flowing.engine (hl : s.Linked cfg o) (hs : s.Flowing r) {b : Bridge.Act} {c : Bridge.Client}
    {callbacks : ReqId → CallbackPc} (hok : Bridge.Client.On r Bridge.View.StillEmpty s.engine b)
    (hh : s.heard b = some callbacks) (hc : s.engine.step cfg b = some c) (taken : u.taken = s.taken)
    (streams : u.kotlin.streams = s.kotlin.streams) (huengine : u.engine = c) (hucallbacks : u.callbacks = callbacks)
    (userData : u.userData r = s.userData r ∨
      s.userData r = none ∧ ∀ st, u.userData r = some st → Unowned s.userData st) : u.Flowing r := by
  subst huengine hucallbacks
  have hsilent : (u.engine.view r).Silent :=
    Bridge.step_keeps hl.tied.accounts.fresh hok hc (fun _ _ _ hok hv hm => hv.step hok hm) hs.silent
  have honChunk : (u.engine.slots r).onChunk = true :=
    Bridge.step_keeps (I := fun v => v.slot.onChunk = true) hl.tied.accounts.fresh hok hc
      (fun _ _ _ _ hv hm => hm.onChunk.trans hv) hs.onChunk
  have hheard := heard_cases hl.tied.accounts.fresh (hl.tied.manned r) hc hh (r := r)
  rcases userData with hdata | ⟨hnone, hunowned⟩
  · refine ⟨hsilent, honChunk, fun st hst => ?_, fun st hst hcl => ?_⟩
    · rw [hdata] at hst
      have hflow := hs.flow st hst
      rw [taken, streams]
      generalize u.callbacks r = pc at hheard
      cases hheard with
      | call cb calls trace inside =>
        rw [hl.tied.uncalled hs.silent.sound.locked calls] at hflow
        rw [trace, List.map_append, ← hflow]
        simp [CallbackPc.pending]
      | answer x was trace =>
        rw [was] at hflow
        rw [trace]
        exact hflow
      | silent trace inside =>
        rw [trace]
        exact hflow
    · rw [hdata] at hst
      rw [streams] at hcl
      obtain ⟨hdones, hpending⟩ := hs.closed st hst hcl
      generalize u.callbacks r = pc at hheard
      cases hheard with
      | call cb calls trace inside =>
        obtain ⟨v, hv⟩ := calls
        have hnot := hs.silent.uncalled hdones v
        rw [hv] at hnot
        cases hnot
      | answer x was trace => exact ⟨dones_congr trace ▸ hdones, rfl⟩
      | silent trace inside => exact ⟨dones_congr trace ▸ hdones, hpending⟩
  · obtain ⟨hview, hout⟩ := hl.tied.untouched hnone
    have htrace : (u.engine.slots r).trace = [] ∧ (u.callbacks r).pending = [] := by
      have hold : (s.engine.slots r).trace = [] := congrArg (fun v : Bridge.View => v.slot.trace) hview
      generalize u.callbacks r = pc at hheard
      cases hheard with
      | call cb calls trace inside =>
        obtain ⟨v, hv⟩ := calls
        rw [hview] at hv
        cases hv
      | answer x was trace => exact ⟨trace.trans hold, rfl⟩
      | silent trace inside => exact ⟨trace.trans hold, by rw [hout]; rfl⟩
    refine ⟨hsilent, honChunk, fun st hst => ?_, fun st hst hcl => ?_⟩
    · obtain ⟨hevents, -, htaken⟩ := hl.unused st (hunowned st hst)
      rw [taken, streams, hevents, htaken, htrace.1, htrace.2]
      rfl
    · obtain ⟨-, hclosed, -⟩ := hl.unused st (hunowned st hst)
      rw [streams, hclosed] at hcl
      cases hcl

private theorem Flowing.ran (hl : s.Linked cfg o) (hs : s.Flowing r) {st : StreamId} (hst : s.userData r = some st)
    (h : s.Ran r st u) : u.Flowing r := by
  obtain ⟨hengine, huserData, -, htaken, -⟩ := h.frame
  have hflow := hs.flow st hst
  have hclosed := hs.closed st hst
  have hmine {q : StreamId} (hq : u.userData r = some q) : q = st := by
    rw [huserData, hst] at hq
    exact (Option.some.inj hq).symm
  have hbuild (hflow' : u.taken st ++ (u.kotlin.streams st).events ++ (u.callbacks r).pending =
      (s.engine.slots r).trace.map eventOf) (hclosed' : (u.kotlin.streams st).closed = true →
      (s.engine.slots r).dones ≠ [] ∧ (u.callbacks r).pending = []) : u.Flowing r := by
    refine ⟨hengine ▸ hs.silent, hengine ▸ hs.onChunk, fun q hq => ?_, fun q hq => ?_⟩
    · rw [hmine hq, hengine]
      exact hflow'
    · rw [hmine hq, hengine]
      exact hclosed'
  cases h with
  | gets cb pc live =>
    have hpending : (CallbackPc.start cb).pending = (s.callbacks r).pending := by
      rw [pc]
      cases cb <;> rfl
    refine hbuild ?_ fun hc => ?_
    · simp only [goto, Function.update_self, hpending]
      exact hflow
    · simp only [goto, Function.update_self, hpending]
      exact hclosed hc
  | publishes e p was now inside ending =>
    have hopen : (s.kotlin.streams st).closed = false := by
      rw [Bool.eq_false_iff]
      intro hc
      have hnone := (hclosed hc).2
      rw [was] at hnone
      cases hnone
    refine hbuild ?_ fun hc => ?_
    · rw [was] at hflow
      simpa [touch, goto, Lifecycle.Client.setStream, Lifecycle.Access.on, Kotlin.RequestState.trySend, hopen, now]
        using hflow
    · simp [touch, goto, Lifecycle.Client.setStream, Lifecycle.Access.on, Kotlin.RequestState.trySend, hopen] at hc
  | works a p events closed pending inside ending =>
    refine hbuild ?_ fun hc => ?_
    · simp only [touch, goto, Lifecycle.Client.setStream, Function.update_self, events, pending]
      exact hflow
    · simp only [touch, goto, Lifecycle.Client.setStream, Function.update_self, closed] at hc
      simp only [touch, goto, Function.update_self, pending]
      exact hclosed hc
  | closes pc =>
    refine hbuild ?_ fun _ => ?_
    · rw [pc] at hflow
      simpa [touch, goto, Lifecycle.Client.setStream, Lifecycle.Access.on, CallbackPc.pending] using hflow
    · refine ⟨hl.tied.ending r (by rw [pc]; rfl), ?_⟩
      simp [touch, goto, CallbackPc.pending]
  | disposes pc live =>
    rw [pc] at hflow hclosed
    refine hbuild ?_ fun hc => ?_
    · simpa [goto, CallbackPc.pending] using hflow
    · simpa [goto, CallbackPc.pending] using hclosed hc

theorem Flowing.step (hl : s.Linked cfg o) (hs : s.Flowing r) (hok : s.Kept r a) (h : s.Stepped cfg a u) :
    u.Flowing r := by
  cases h with
  | begin | abandon => exact hs.frame rfl rfl rfl fun _ _ => ⟨rfl, rfl⟩
  | exec t args k free here hk =>
    obtain ⟨hengine, huserData, -, hcallbacks⟩ := noted_frame s t
    refine hs.frame hengine (congrFun hcallbacks r) huserData fun st hst => ?_
    rcases exec_stream (Lifecycle.exec_here here hk) st with ⟨hnew, -⟩ | hsame
    · exact absurd (hl.sent.made r st hst) (by rw [hnew]; exact Nat.lt_irrefl _)
    · exact hsame
  | call t args x k c free there hk hc =>
    obtain ⟨call, p, rfl, -⟩ := Lifecycle.exec_there there hk
    exact Flowing.engine hl hs (b := .begin t x) (fun m hm => by cases hm) rfl hc rfl rfl rfl rfl (.inl rfl)
  | engine b c callbacks own hh hc =>
    have htold := told_cases hl.sent.placed hc
    obtain ⟨htaken, hstreams, -, hreg⟩ := htold.frame
    refine Flowing.engine hl hs hok hh hc htaken hstreams rfl rfl ?_
    rcases hreg with ⟨-, hdata⟩ | ⟨id, q, henters, hdata, t, args, hcall, hpc⟩
    · exact .inl (congrFun hdata r)
    · by_cases hr : r = id
      · obtain ⟨hnone, hunowned⟩ := hl.registering hcall hpc
        refine .inr ⟨hr ▸ hnone, fun st hst => ?_⟩
        rw [show ({ s.told b with engine := c, callbacks } : Frontend).userData = _ from hdata, hr,
          Function.update_self] at hst
        cases hst
        exact hunowned
      · exact .inl ((congrFun hdata r).trans (Function.update_of_ne hr _ _))
  | callback q _ h =>
    obtain ⟨hin, st, hst, hran⟩ := callback_cases h
    by_cases hq : r = q
    · subst hq
      exact Flowing.ran hl hs hst hran
    · obtain ⟨hengine, huserData, hout, htaken, hthreads, hnext, hstreams⟩ := hran.frame
      obtain ⟨p, hcallbacks, -⟩ := hran.goes
      refine hs.frame hengine ?_ huserData fun st' hst' => ?_
      · rw [hcallbacks, Function.update_of_ne hq]
      · have hne : st' ≠ st := fun e => hq (hl.sent.own r q st' hst' (e ▸ hst))
        rw [hstreams st' hne, htaken]
        exact ⟨rfl, rfl⟩
  | throw q _ h =>
    obtain ⟨-, p, rfl, -⟩ := throw_cases h
    exact hs.frame rfl (Function.update_of_ne (Ne.symm hok) _ _) rfl fun _ _ => ⟨rfl, rfl⟩

end Flow

theorem Reaches.flowing {cfg : Config} {r : ReqId} {as : List Act} {s : Frontend}
    (h : Reaches cfg (Frontend.Kept r) as s) : (∃ o, s.Linked (native cfg) o) ∧ s.Flowing r :=
  h.linked (fun hl hs hok hstep => hs.step hl hok hstep) (.init cfg r)

end Frontend

/-- The events of a stream that were taken, those in its channel and the one in the hands of a callback
are the callbacks of its own request, each once and in order, in every run in which for this request no
event is queued between the emptiness check of `run_owned` and its read of a drained `done_ready` and no
callback throws. -/
theorem stream_is_its_requests_callbacks {cfg : Config} {r : ReqId} {as : List Act} {s : Frontend} {st : StreamId}
    (h : Frontend.Reaches cfg (Frontend.Kept r) as s) (hst : s.userData r = some st) :
    (∀ q, s.userData q = some st → q = r) ∧
    s.taken st ++ (s.kotlin.streams st).events ++ (s.callbacks r).pending = (s.engine.slots r).trace.map eventOf := by
  obtain ⟨⟨o, hl⟩, hs⟩ := h.flowing
  exact ⟨fun q hq => hl.sent.own q r st hq hst, hs.flow st hst⟩

def received : Bridge.Event → ClientEvent
  | .headers status version fields => .headers status version fields
  | .chunk data => .chunk data

/-- With an `OnChunk` every event is a callback. -/
theorem map_callbacks (events : List Bridge.Event) :
    (events.filterMap (Bridge.Event.callback true)).map eventOf = events.map received := by
  induction events with
  | nil => rfl
  | cons ev events ih =>
    cases ev <;> simpa [Bridge.Event.callback, eventOf, received] using ih

/-- A beginning of a list that has its last element, which is nowhere else, is all of it. -/
private theorem append_eq_of_mem_last {α : Type*} {front rest body : List α} {x : α} (h : front ++ rest = body ++ [x])
    (hx : x ∈ front) (hbody : x ∉ body) : rest = [] ∧ front = body ++ [x] := by
  rcases List.eq_nil_or_concat rest with rfl | ⟨rest', y, rfl⟩
  · rw [List.append_nil] at h
    exact ⟨rfl, h⟩
  · rw [List.concat_eq_append, ← List.append_assoc] at h
    obtain ⟨hfront, -⟩ := List.append_inj' h rfl
    exact absurd (hfront ▸ List.mem_append_left rest' hx) hbody

/-- When `next` has taken a `Done` without an error, what it has taken is the whole response, the head
and then every non-empty data frame that the network gave, and nothing is left. -/
theorem success_is_the_whole_response {cfg : Config} {r : ReqId} {as : List Act} {s : Frontend} {st : StreamId}
    (h : Frontend.Reaches cfg (Frontend.Kept r) as s) (hst : s.userData r = some st)
    (hdone : .done none ∈ s.taken st) :
    (s.engine.slots r).head ≠ none ∧ s.taken st = (s.engine.slots r).response.map received ++ [.done none] ∧
      (s.kotlin.streams st).events = [] := by
  obtain ⟨⟨o, hl⟩, hs⟩ := h.flowing
  have hflow := hs.flow st hst
  have hmem : .onDone none ∈ (s.engine.slots r).trace := by
    have hin : .done none ∈ (s.engine.slots r).trace.map eventOf := by
      rw [← hflow, List.append_assoc]
      exact List.mem_append_left _ hdone
    obtain ⟨cb, hcb, heq⟩ := List.mem_map.mp hin
    cases cb with
    | onHeaders | onChunk => cases heq
    | onDone e =>
      cases heq
      exact hcb
  obtain ⟨-, -, hhead, hpushed, hhanded, htrace⟩ := Bridge.wholeBody_of_closing hs.silent.sound hs.silent.closing hmem
  have hwhole : (s.engine.slots r).trace.map eventOf = (s.engine.slots r).response.map received ++ [.done none] := by
    rw [show (s.engine.slots r).trace = _ from htrace, List.map_append,
      show (s.engine.view r).slot.onChunk = true from hs.onChunk, map_callbacks, hhanded, hpushed]
    rfl
  rw [hwhole, List.append_assoc] at hflow
  have hbody : ClientEvent.done none ∉ (s.engine.slots r).response.map received := by
    intro hin
    obtain ⟨ev, -, heq⟩ := List.mem_map.mp hin
    cases ev <;> cases heq
  obtain ⟨hrest, htaken⟩ := append_eq_of_mem_last hflow hdone hbody
  exact ⟨hhead, htaken, (List.append_eq_nil_iff.mp hrest).1⟩

def plainArgs : Args := ⟨⟨none, 10, ⟨false, 0⟩⟩, by decide⟩

def sent : List Act :=
  Act.begin 0 (.send Lifecycle.DEFAULT_CHUNK_HIGH_WATER) :: List.replicate 2 (.kotlin 0 plainArgs) ++
    List.replicate 10 (Act.engine (.call 0)) ++ [Act.kotlin 0 plainArgs]

/-- A head, one chunk and the end arrive, and worker 0 delivers them. -/
def delivered : List Act :=
  sent ++ ([Bridge.Act.taskEnv 1 (.leased 5), .task 1, .taskEnv 1 (.response 200 1 [])] ++
    List.replicate 9 (Bridge.Act.task 1) ++ Bridge.Act.pop 0 :: List.replicate 9 (.worker 0)).map Act.engine ++
    List.replicate 2 (Act.callback 1) ++ (Bridge.Act.workerEnv 0 (.action .cont) :: List.replicate 9 (.worker 0) ++
    Bridge.chunkAndEnd ++ Bridge.Act.pop 0 :: List.replicate 9 (.worker 0)).map Act.engine ++
    List.replicate 3 (Act.callback 1) ++
    (Bridge.Act.workerEnv 0 (.action .cont) :: List.replicate 8 (.worker 0)).map Act.engine ++
    List.replicate 4 (Act.callback 1) ++ [Act.engine (.worker 0)]

def consumed : List Act :=
  delivered ++ [Act.begin 0 (.next 0), .kotlin 0 plainArgs, .begin 0 (.next 0), .kotlin 0 plainArgs,
    .kotlin 0 plainArgs, .kotlin 0 plainArgs, .begin 0 (.next 0), .kotlin 0 plainArgs]

set_option maxRecDepth 20000 in
theorem consumed_reaches : ∃ s, Frontend.Reaches .small (Frontend.Kept 1) consumed s ∧ s.userData 1 = some 0 ∧
    s.taken 0 = [.headers 200 1 [], .chunk [7], .done none] := by
  have hrun : (replay (Frontend.step (native .small)) (Frontend.Kept 1) (.init (native .small)) consumed).any
      (fun s => s.userData 1 = some 0 ∧ s.taken 0 = [.headers 200 1 [], .chunk [7], .done none]) = true := by
    decide +kernel
  obtain ⟨s, hs, hobs⟩ := (Option.any_eq_true _ _).mp hrun
  exact ⟨s, run_of_replay hs, of_decide_eq_true hobs⟩

theorem stream_is_its_requests_callbacks_consumed : ∃ s, Frontend.Reaches .small (Frontend.Kept 1) consumed s ∧
    s.userData 1 = some 0 ∧ (∀ q, s.userData q = some 0 → q = 1) ∧
    s.taken 0 ++ (s.kotlin.streams 0).events ++ (s.callbacks 1).pending = (s.engine.slots 1).trace.map eventOf := by
  obtain ⟨s, hs, hst, -⟩ := consumed_reaches
  exact ⟨s, hs, hst, stream_is_its_requests_callbacks hs hst⟩

theorem success_is_the_whole_response_consumed : ∃ s, Frontend.Reaches .small (Frontend.Kept 1) consumed s ∧
    s.userData 1 = some 0 ∧ .done none ∈ s.taken 0 ∧ ((s.engine.slots 1).head ≠ none ∧
    s.taken 0 = (s.engine.slots 1).response.map received ++ [.done none] ∧ (s.kotlin.streams 0).events = []) := by
  obtain ⟨s, hs, hst, htaken⟩ := consumed_reaches
  have hdone : .done none ∈ s.taken 0 := by
    rw [htaken]
    decide
  exact ⟨s, hs, hst, hdone, success_is_the_whole_response hs hst hdone⟩

end Hyper4k.Streams
