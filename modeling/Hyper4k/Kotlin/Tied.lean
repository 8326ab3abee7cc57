import Hyper4k.Kotlin.CallProgress
import Hyper4k.Kotlin.RequestView

/-! What ties a request's coroutine to the native call it has in progress, in every run. -/
namespace Hyper4k.Dispatch
open Server (Api Buffer CallPc Code Responder Streaming ThreadId)
open Runs

def Job.Calls (j : Job) (r : Responder) (caught : Bool) (api : Api) : Prop :=
  match j.pc, api with
  | .handler [], .begin .. => j.begun = false
  | .handler [], .write _ chunk => chunk.read ≠ []
  | .handler [], .finish _ | .closeStream, .finish _ => True
  | .complete response _, .respond .. => respondCall r response = some api
  | .thrown, .respond .. => caught = true
  | _, _ => False

theorem Job.Calls.writes {j : Job} {r q : Responder} {caught : Bool} {chunk : Buffer}
    (h : j.Calls r caught (.write q chunk)) : j.pc = .handler [] ∧ chunk.read ≠ [] := by
  unfold Job.Calls at h
  split at h
  case h_2 hpc he =>
    cases he
    exact ⟨hpc, h⟩
  case h_7 => exact absurd h id
  all_goals contradiction

/-- What the channel of a request says, and what the engine has: the same, but for a call on its way. -/
def Agrees (streaming active : Bool) : Option (Api × CallPc) → Prop
  | none => streaming = active
  | some (api, pc) => Progress streaming active api pc

structure Backend.TiedAt (s : Backend) (r : Responder) : Prop where
  order : (s.job r).InOrder
  closed : ∀ c, (s.job r).channel = some c → c.finished = true → c.started = true
  caught : s.caught r = true → (s.job r).pc = .thrown ∧ (s.job r).channel = none
  calls : ∀ api pc, s.streaming.call r = some (api, pc) → (s.job r).Calls r (s.caught r) api
  agree : Agrees (s.job r).streaming (s.streaming.engine.active r).isSome (s.streaming.call r)

section Tied
variable {cfg : Setup} {s t : Backend} {r : Responder}

/-- A call is made where the engine is ready for it. -/
theorem Backend.TiedAt.enters (cfg : Setup) {method : Option Method} {api : Api} (hs : s.TiedAt r)
    (zero : s.streaming.engine.active 0 = none) (idle : s.streaming.call r = none) (h : s.native r method = some api) :
    (s.job r).Calls r (s.caught r) api ∧
      Progress (s.job r).streaming (s.streaming.engine.active r).isSome api (api.start cfg.native.http) := by
  have hagree := hs.agree
  rw [idle] at hagree
  have hagree : (s.job r).streaming = (s.streaming.engine.active r).isSome := hagree
  have hborn : (s.job r).streaming = true → r ≠ 0 := by
    rintro hstreaming rfl
    rw [hagree, zero] at hstreaming
    cases hstreaming
  have hrespond : (s.job r).streaming = false → ∀ {response : Hyper4kResponse}, respondCall r response = some api →
      Progress (s.job r).streaming (s.streaming.engine.active r).isSome api (api.start cfg.native.http) := by
    intro hstreaming response hr
    have hin : inRespond (api.start cfg.native.http) = true := respondCall_inRespond hr
    obtain ⟨block, -, rfl⟩ := respondCall_eq hr
    exact ⟨hstreaming, hagree ▸ hstreaming, hin⟩
  have hfinish : (s.job r).streaming = true →
      Progress (s.job r).streaming (s.streaming.engine.active r).isSome (.finish r)
        (Api.start cfg.native.http (.finish r)) := by
    intro hstreaming
    refine ⟨hstreaming, ?_⟩
    rw [Api.start, if_neg (hborn hstreaming), ← hagree, hstreaming]
    rfl
  have horder := hs.order
  rcases Backend.native_cases h with ⟨c, m, hpc, -, hc, hm⟩ | ⟨c, hpc, -, hc, hm⟩ | ⟨response, slot, hpc, -, hr⟩ |
    ⟨hpc, -, hcaught, hr⟩
  · rcases NativeResponseChannel.native_cases hm with ⟨status, headers, block, hstarted, -, -, rfl⟩ |
      ⟨b, bs, hopen, -, rfl⟩ | ⟨hopen, -, rfl⟩
    · have hoff : (s.job r).streaming = false := by
        rw [Job.streaming_eq hc, NativeResponseChannel.isStreaming, hstarted]
        rfl
      refine ⟨?_, hoff, ?_⟩
      · simp only [Job.Calls, hpc, Job.begun, hc, Option.any_some, hstarted]
      · rw [← hagree, hoff, Api.start]
        split <;> rfl
    · have hon : (s.job r).streaming = true := (Job.streaming_eq hc).trans hopen
      refine ⟨?_, hon, hagree ▸ hon, ?_⟩
      · simp only [Job.Calls, hpc]
        exact List.cons_ne_nil b bs
      · rw [Api.start, if_neg (hborn hon)]
        exact decide_eq_true rfl
    · exact ⟨by simp only [Job.Calls, hpc], hfinish ((Job.streaming_eq hc).trans hopen)⟩
  · rcases NativeResponseChannel.native_cases hm with ⟨_, _, _, _, _, he, _⟩ | ⟨_, _, _, he, _⟩ |
      ⟨hopen, -, rfl⟩
    · cases he
    · cases he
    · exact ⟨by simp only [Job.Calls, hpc], hfinish ((Job.streaming_eq hc).trans hopen)⟩
  · rw [Job.InOrder, hpc] at horder
    refine ⟨?_, hrespond horder.1 hr⟩
    obtain ⟨block, -, rfl⟩ := respondCall_eq hr
    simp only [Job.Calls, hpc, hr]
  · have hoff : (s.job r).streaming = false := by
      rw [Job.streaming, (hs.caught hcaught).2]
      rfl
    refine ⟨?_, hrespond hoff hr⟩
    obtain ⟨block, -, rfl⟩ := respondCall_eq hr
    simp only [Job.Calls, hpc, hcaught]

/-- The channel and its flags after a method, for the codes that the engine gives. -/
theorem Op.run_closed {c : NativeResponseChannel} (hc : c.finished = true → c.started = true) (op : Op) :
    (op.run c).finished = true → (op.run c).started = true := by
  cases op with
  | begin rc =>
    simp only [Op.run, NativeResponseChannel.begin]
    split
    · exact hc
    · split
      · exact fun _ => rfl
      · exact hc
  | write chunk rc =>
    rw [Op.run]
    unfold NativeResponseChannel.write
    repeat' split
    all_goals exact hc
  | finish rc =>
    rw [Op.run]
    unfold NativeResponseChannel.finish
    split
    · exact hc
    · rename_i hopen
      have hstarted : c.started = true := by
        cases hs : c.started <;> simp_all
      split <;> exact fun _ => hstarted

theorem NativeResponseChannel.write_streaming (c : NativeResponseChannel) (chunk : Text.Octets) (rc : Code) :
    (c.write chunk rc).2.isStreaming = c.isStreaming := by
  unfold NativeResponseChannel.write
  repeat' split
  all_goals rfl

/-- What a performed method leaves of a request. -/
theorem Backend.perform_job (d : Dispatcher) (r : Responder) (op : Op) :
    (d.perform r op).jobs r = { d.jobs r with channel := (d.jobs r).channel.map op.run } :=
  Function.update_self ..

structure Backend.Resumed (s t : Backend) (r : Responder) (active : Bool) : Prop where
  order : (t.job r).InOrder
  closed : ∀ c, (t.job r).channel = some c → c.finished = true → c.started = true
  thrown : (s.job r).pc = .thrown ↔ (t.job r).pc = .thrown
  submitting : (s.job r).submitting = false → (t.job r).submitting = false
  agree : (t.job r).streaming = active

theorem Backend.TiedAt.unmoved (hs : s.TiedAt r) (h : t.job r = s.job r) : s.Resumed t r (s.job r).streaming := by
  refine ⟨?_, ?_, ?_, ?_, ?_⟩ <;> rw [h]
  · exact hs.order
  · exact hs.closed
  · exact id

theorem Backend.TiedAt.performs (hs : s.TiedAt r) {op : Op} (hpc : (s.job r).pc = .handler [])
    (h : t.dispatcher = s.dispatcher.perform r op) {active : Bool}
    (hstreaming : ∀ c, (s.job r).channel = some c → (op.run c).isStreaming = active) : s.Resumed t r active := by
  have horder := hs.order
  rw [Job.InOrder, hpc] at horder
  obtain ⟨-, hchannel, hnone⟩ := horder
  obtain ⟨c, hc⟩ := Option.ne_none_iff_exists'.mp hchannel
  have hjob : t.job r = { s.job r with channel := some (op.run c) } := by
    rw [Backend.job, h, Backend.perform_job]
    exact congrArg (fun channel => ({ s.job r with channel } : Job)) (by rw [← Backend.job, hc]; rfl)
  refine ⟨?_, fun c' hc' => ?_, by rw [hjob], fun _ => ?_, ?_⟩
  · rw [hjob]
    simp only [Job.InOrder, hpc]
    exact ⟨trivial, Option.some_ne_none _, hnone⟩
  · rw [hjob] at hc'
    cases hc'
    exact Op.run_closed (hs.closed c hc) op
  · rw [hjob]
    simp only [Job.submitting, hpc]
  · rw [hjob]
    exact hstreaming c hc

theorem Backend.TiedAt.executes (hs : s.TiedAt r) {b : Behaviour} (hb : b.newChannel = true ∧ b.ops = [])
    (hcalling : (s.job r).pc = .closeStream ∨ ∃ response slot, (s.job r).pc = .complete response slot)
    (h : s.dispatcher.exec (cfg.config b) r = some t.dispatcher) : s.Resumed t r false := by
  obtain ⟨j, hd, hruns⟩ := Dispatcher.exec_runs hb hs.order h
  have hjob : t.job r = j := by rw [Backend.job, hd, Function.update_self]
  have horder := hruns.inOrder hs.order
  have hold := hs.order
  have hruns : (s.job r).Runs ((cfg.config b).behaviour r) j := hruns
  suffices h : j.InOrder ∧ (∀ c, j.channel = some c → c.finished = true → c.started = true) ∧
      ((s.job r).pc = .thrown ↔ j.pc = .thrown) ∧ j.streaming = false from
    ⟨hjob ▸ h.1, hjob ▸ h.2.1, hjob ▸ h.2.2.1, fun hout => hjob ▸ hruns.submitting hs.order hout, hjob ▸ h.2.2.2⟩
  cases hruns with
  | onward pc inside away order thrown submitting =>
    rcases hcalling with hc | ⟨response, slot, hc⟩
    · exact absurd hc away.2.1
    · rw [hc] at inside
      cases inside
  | opens pc =>
    rcases hcalling with hc | ⟨response, slot, hc⟩ <;> rw [pc] at hc <;> cases hc
  | closes pc =>
    refine ⟨horder, fun c hc hfinished => ?_, ?_, horder.1⟩
    · obtain ⟨c', hc', rfl⟩ := Option.map_eq_some_iff.mp hc
      exact Op.run_closed (hs.closed c' hc') (.finish b.closeCode) hfinished
    · rw [pc]
      exact iff_of_false Pc.noConfusion Pc.noConfusion
  | completes response slot pc =>
    rw [Job.InOrder, pc] at hold
    refine ⟨horder, hs.closed, ?_, hold.1⟩
    rw [pc]
    refine iff_of_false Pc.noConfusion ?_
    cases slot <;> exact Pc.noConfusion

/-- A result brings the channel back to what the engine has. -/
theorem Backend.TiedAt.returns {api : Api} {code : Code} {cut : Bool} (hs : s.TiedAt r) (on : api.responder = r)
    (before : s.streaming.call r = some (api, .returned code)) (h : s.resume cfg api code cut = some t.dispatcher) :
    s.Resumed t r (s.streaming.engine.active r).isSome := by
  have hagree := hs.agree
  have hcalls := hs.calls api _ before
  rw [before] at hagree
  have hagree : Progress (s.job r).streaming (s.streaming.engine.active r).isSome api (.returned code) := hagree
  subst on
  unfold Backend.resume at h
  split at h
  case h_1 q status headers hpc =>
    obtain ⟨hoff, hbegin⟩ := hagree
    simp only [Job.Calls, hpc] at hcalls
    refine hs.performs hpc (Option.some.inj h).symm fun c hc => ?_
    have hstarted : c.started = false := by
      rw [Job.begun, hc] at hcalls
      exact hcalls
    have hfinished : c.finished = false := Bool.eq_false_iff.mpr fun hf => by
      have hopen := hs.closed c hc hf
      rw [hstarted] at hopen
      cases hopen
    cases code with
    | ok =>
      rw [← Option.some.inj hbegin]
      simp [Op.run, NativeResponseChannel.begin, hstarted, NativeResponseChannel.isStreaming, hfinished]
    | wrongState =>
      rw [← Option.some.inj hbegin]
      simp [Op.run, NativeResponseChannel.begin, hstarted, NativeResponseChannel.isStreaming]
    | _ => cases hbegin
  case h_2 q chunk _ hpc =>
    obtain ⟨hon, hactive, -⟩ := hagree
    rw [hactive]
    cases cut with
    | true =>
      rw [← hon]
      exact hs.unmoved (by rw [Backend.job, ← Option.some.inj h]; rfl)
    | false =>
      refine hs.performs hpc (Option.some.inj h).symm fun c hc => ?_
      rw [Op.run, NativeResponseChannel.write_streaming, ← Job.streaming_eq hc]
      exact hon
  case h_3 q hpc =>
    obtain ⟨hon, hfinish⟩ := hagree
    refine hs.performs hpc (Option.some.inj h).symm fun c hc => ?_
    cases code with
    | ok =>
      rw [← Option.some.inj hfinish]
      exact NativeResponseChannel.finish_closed c _
    | _ => cases hfinish
  case h_4 q hpc =>
    obtain ⟨hon, hfinish⟩ := hagree
    have hexec := hs.executes ⟨rfl, rfl⟩ (.inl hpc) h
    cases code with
    | ok =>
      rw [← Option.some.inj hfinish]
      exact hexec
    | _ => cases hfinish
  case h_5 response slot q status headers body _ hpc =>
    obtain ⟨hoff, hactive, -⟩ := hagree
    rw [hactive]
    exact hs.executes ⟨rfl, rfl⟩ (.inr ⟨response, slot, hpc⟩) h
  case h_6 q status headers body _ hpc =>
    obtain ⟨hoff, hactive, -⟩ := hagree
    rw [hactive, ← hoff]
    exact hs.unmoved (by rw [Backend.job, ← Option.some.inj h]; rfl)
  case h_7 => cases h

theorem Backend.TiedAt.step (hs : s.TiedAt r) (hown : s.streaming.Owned) (hserial : s.streaming.Serial r)
    (zero : s.streaming.engine.active 0 = none)
    (writers : ∀ w q chunk, s.streaming.calls w = some (.write q chunk) → cfg.native.engine w = false)
    (h : s.Seen cfg r t) : t.TiedAt r := by
  cases h with
  | still job caught told call active log =>
    refine ⟨?_, ?_, ?_, ?_, ?_⟩
    · rw [job]
      exact hs.order
    · rw [job]
      exact hs.closed
    · rw [job, caught]
      exact hs.caught
    · rw [job, caught, call]
      exact hs.calls
    · rw [job, call, active]
      exact hs.agree
  | goes w api job caught told calls before busy move after writes =>
    have hagree := hs.agree
    rw [before] at hagree
    have hon : (s.streaming.calls w).map Api.responder = some r := by
      obtain ⟨-, -, -, -, hr⟩ := hserial.call_on before
      rw [calls, Option.map_some, hr]
    refine ⟨?_, ?_, ?_, ?_, ?_⟩
    · rw [job]
      exact hs.order
    · rw [job]
      exact hs.closed
    · rw [job, caught]
      exact hs.caught
    · rw [job, caught, after]
      rintro api' pc he
      cases he
      exact hs.calls api _ before
    · rw [job, after]
      refine Progress.advance hagree (fun q hq => hown.on_self hon hq) busy ?_ move
      rintro q chunk rfl
      exact writers w q chunk calls
  | submits inside pc job caught told same =>
    have horder := hs.order
    rw [Job.InOrder, pc] at horder
    have hidle : s.streaming.call r = none := Option.eq_none_iff_forall_not_mem.mpr fun p hp => by
      have hcalls := hs.calls p.1 p.2 hp
      simp only [Job.Calls, pc] at hcalls
    have hagree := hs.agree
    rw [hidle] at hagree
    refine ⟨?_, ?_, fun hc => ?_, fun api pc hp => ?_, ?_⟩
    · rw [job]
      exact horder
    · rw [job]
      exact hs.closed
    · rw [caught] at hc
      have hthrown := (hs.caught hc).1
      rw [pc] at hthrown
      cases hthrown
    · rw [same, hidle] at hp
      cases hp
    · rw [job, same, hidle]
      exact hagree
  | runs b idle runs hopen throws caught refused told same =>
    have hagree := hs.agree
    rw [idle] at hagree
    have horder := hs.order
    refine ⟨runs.inOrder hs.order, runs.closed hopen hs.closed, fun hc => ?_, fun api pc hp => ?_, ?_⟩
    · cases hrefuse : (s.job r).pc.refusing with
      | false =>
        rw [caught hrefuse] at hc
        exact absurd (hs.caught hc).1 runs.not_thrown
      | true =>
        refine ⟨(refused hrefuse).mpr hc, ?_⟩
        obtain ⟨slot, hpc⟩ := Pc.refusing_eq hrefuse
        rw [Job.InOrder, hpc] at horder
        rw [runs.refused hpc]
        exact horder.1
    · rw [same, idle] at hp
      cases hp
    · rw [same, idle]
      exact (runs.streaming hs.order hopen).trans hagree
  | calls method w api idle native may job caught told call active log =>
    obtain ⟨hcalls, hprogress⟩ := hs.enters cfg zero idle native
    refine ⟨?_, ?_, ?_, fun api' pc hp => ?_, ?_⟩
    · rw [job]
      exact hs.order
    · rw [job]
      exact hs.closed
    · rw [job, caught]
      exact hs.caught
    · rw [call] at hp
      cases hp
      rw [job, caught]
      exact hcalls
    · rw [job, call, active]
      exact hprogress
  | returns w cut api code calls before after active log resume on caught told =>
    have hres := hs.returns on before resume
    refine ⟨hres.order, hres.closed, fun hc => ?_, fun api' pc hp => ?_, ?_⟩
    · rw [caught] at hc
      split at hc
      · cases hc
      · rename_i hpc
        exact absurd (hs.caught hc).1 hpc
    · rw [after] at hp
      cases hp
    · rw [after, active]
      exact hres.agree

/-- What the whole keeps of its parts: the engine is called one by one on each responder, and each request is tied to
what the engine has. -/
structure Backend.Tied (cfg : Setup) (s : Backend) : Prop where
  reached : ∃ bs, Streaming.Reaches cfg.native (fun u b => ∀ r, u.OneByOne r b) {} bs s.streaming
  zero : s.streaming.engine.active 0 = none
  writers : ∀ w q chunk, s.streaming.calls w = some (.write q chunk) → cfg.native.engine w = false
  tied : ∀ r, s.TiedAt r

theorem Backend.Tied.init : (Backend.init cfg).Tied cfg where
  reached := ⟨[], .nil _⟩
  zero := rfl
  writers w q chunk h := by cases h
  tied r := ⟨⟨rfl, rfl⟩, fun c hc => (by cases hc), fun hc => (by cases hc), fun api pc hp => (by cases hp), rfl⟩

theorem Backend.Tied.serial (hs : s.Tied cfg) (r : Responder) :
    s.streaming.engine.Streamed ∧ s.streaming.Owned ∧ s.streaming.Serial r := by
  obtain ⟨bs, hrun⟩ := hs.reached
  exact Streaming.Reaches.serial (hrun.mono fun u b hb => hb r)

/-- Only a streaming write is made by `write`, so never on a thread of the engine. -/
theorem Backend.step_writers {a : BackendAct} (h : s.Stepped cfg a t)
    (hs : ∀ w q chunk, s.streaming.calls w = some (.write q chunk) → cfg.native.engine w = false)
    (w : ThreadId) (q : Responder) (chunk : Buffer) (hw : t.streaming.calls w = some (.write q chunk)) :
    cfg.native.engine w = false := by
  cases h with
  | network a u free move =>
    rcases Streaming.step_calls move hw with hold | rfl
    · exact hs w q chunk hold
    · cases free
  | call r w' method api u idle native may move =>
    rcases Streaming.step_calls move hw with hold | he
    · exact hs w q chunk hold
    · cases he
      simpa [Backend.mayRun] using may
  | back w' cut api code d u caught calls pc resume move catches =>
    rcases Streaming.step_calls move hw with hold | he
    · exact hs w q chunk hold
    · cases he
  | _ => exact hs w q chunk hw

theorem Backend.Tied.step {a : BackendAct} (hs : s.Tied cfg) (h : s.step cfg a = some t) : t.Tied cfg := by
  have h := Backend.step_cases h
  obtain ⟨bs, hrun⟩ := hs.reached
  refine ⟨?_, ?_, Backend.step_writers h hs.writers, fun r => ?_⟩
  · rcases Backend.step_streaming h with he | ⟨b, hb, move⟩
    · exact ⟨bs, he ▸ hrun⟩
    · exact ⟨bs ++ [b], hrun.append (.cons hb move (.nil _))⟩
  · rcases Backend.step_streaming h with he | ⟨b, -, move⟩
    · rw [he]
      exact hs.zero
    · exact Streaming.zero_inactive (hs.serial 0).2.1 (Streaming.Reaches.orderly hrun) move hs.zero
  · obtain ⟨-, hown, hserial⟩ := hs.serial r
    exact (hs.tied r).step hown hserial hs.zero hs.writers
      (Backend.step_seen hown hserial (fun q => (hs.tied q).order) h)

theorem Backend.Reaches.tied {ok : Backend → BackendAct → Prop} {as : List BackendAct}
    (h : Backend.Reaches cfg ok as s) : s.Tied cfg :=
  Run.invariant (I := fun s : Backend => s.Tied cfg) h (fun _ _ _ _ hs hstep => hs.step hstep) .init

theorem Backend.TiedAt.idle_of_ended (hs : s.TiedAt r)
    (hpc : (s.job r).pc = .released ∨ (s.job r).pc = .refused) : s.streaming.call r = none := by
  refine Option.eq_none_iff_forall_not_mem.mpr fun p hp => ?_
  have hcalls := hs.calls p.1 p.2 hp
  rcases hpc with hpc | hpc <;> simp only [Job.Calls, hpc] at hcalls

end Tied

end Hyper4k.Dispatch
