import Hyper4k.Kotlin.Tied

/-! The channels and the engine agree on what is streaming: `isStreaming` is what `active_streams` says,
whenever no native call is in progress on the responder. -/
namespace Hyper4k.Dispatch
open Server (Api Code Responder Streaming ThreadId)
open Runs

/-- While no native call is in progress on its responder, a request's channel says what `active_streams` says. A request
that has ended, unless an exception left its coroutine, has no native call in progress and leaves no stream behind. -/
theorem channel_agrees_with_engine {cfg : Setup} {as : List BackendAct} {s : Backend}
    (h : Backend.Reaches cfg anyStep as s) (r : Responder) :
    (s.streaming.caller r = none → (s.job r).streaming = (s.streaming.engine.active r).isSome) ∧
    ((s.job r).pc = .released ∨ (s.job r).pc = .refused →
      s.streaming.caller r = none ∧ s.streaming.engine.active r = none) := by
  have htied := (Backend.Reaches.tied h).tied r
  obtain ⟨-, -, hserial⟩ := (Backend.Reaches.tied h).serial r
  have hagree := htied.agree
  refine ⟨fun hidle => ?_, fun hended => ?_⟩
  · rw [Streaming.call_none hidle] at hagree
    exact hagree
  · have hnone := htied.idle_of_ended hended
    have hclosed : (s.job r).streaming = false := by
      have horder := htied.order
      rcases hended with hpc | hpc <;> rw [Job.InOrder, hpc] at horder <;> exact horder.1
    rw [hnone] at hagree
    refine ⟨Option.eq_none_iff_forall_not_mem.mpr fun w hw => ?_, ?_⟩
    · obtain ⟨api, -, -, hcall⟩ := hserial.call_some hw
      rw [hnone] at hcall
      cases hcall
    · exact Option.not_isSome_iff_eq_none.mp (by rw [← hagree, hclosed]; exact Bool.false_ne_true)

def Setup.small : Setup := ⟨2, Server.engineConfig⟩

def inHandler : List BackendAct :=
  Server.inRequest.map (.network <| .engine ·) ++ .submit 1 :: List.replicate 5 (.exec 1 .threw none)

/-- A native call of request 1 on thread 2, with `n` accesses. -/
def BackendAct.called (method : Option Method) (n : Nat) : List BackendAct :=
  .call 1 2 method :: List.replicate n (.network (.engine (.call 2))) ++ [.back 2 false]

def chunkWritten : List BackendAct :=
  inHandler ++ BackendAct.called (some (.begin 200 [])) 4 ++ BackendAct.called (some (.write [1, 2])) 2

def streamClosed : List BackendAct :=
  chunkWritten ++ [.exec 1 .threw none, .exec 1 .threw (some internalErrorResponse), .exec 1 .threw none] ++
    BackendAct.called none 1 ++ List.replicate 2 (.exec 1 .threw none)

theorem channel_agrees_with_engine_thrown : ∃ s, Backend.Reaches .small anyStep streamClosed s ∧
    (s.job 1).pc = .released ∧ (s.job 1).streaming = false ∧ s.streaming.engine.active 1 = none := by
  have hrun : (replay (Backend.step .small) anyStep (.init .small) streamClosed).any (fun s =>
      decide ((s.job 1).pc = .released)) = true := by decide
  obtain ⟨s, hs, hd⟩ := (Option.any_eq_true _ _).mp hrun
  have hpc := of_decide_eq_true hd
  obtain ⟨hagree, hended⟩ := channel_agrees_with_engine (run_of_replay hs) 1
  obtain ⟨hidle, hnone⟩ := hended (.inl hpc)
  refine ⟨s, run_of_replay hs, hpc, ?_, hnone⟩
  rw [hagree hidle, hnone]
  rfl

def clientGone : List BackendAct :=
  chunkWritten ++ .network (.engine (.dropBody 0)) :: .call 1 2 (some (.write [3])) ::
    List.replicate 2 (.network (.engine (.call 2)))

/-- The observer counts the completions that threw or that `hyper4k_respond` answered otherwise than with
`HYPER4K_OK`. -/
def Backend.tally (s : Backend) (a : BackendAct) (_ : Backend) (n : Nat) : Nat :=
  match a with
  | .throws _ => n + 1
  | .back w _ => match s.streaming.calls w, s.streaming.engine.pcs w with
    | some api, .returned code =>
      if (s.job api.responder).pc.completing.isSome ∧ code ≠ .ok then n + 1 else n
    | _, _ => n
  | _ => n

section Dropped
variable {cfg : Setup} {s t : Backend}

theorem Backend.tell_dispatcher (s : Backend) (r : Responder) (method : Option Method) :
    (s.tell r method).dispatcher = s.dispatcher := by
  unfold Backend.tell
  split <;> rfl

theorem Backend.resume_dropped {api : Api} {code : Code} {cut : Bool} {d : Dispatcher} (hs : s.TiedAt api.responder)
    (before : s.streaming.call api.responder = some (api, .returned code))
    (h : s.resume cfg api code cut = some d) :
    d.droppedResponses = s.dispatcher.droppedResponses +
      if (s.job api.responder).pc.completing.isSome ∧ code ≠ .ok then 1 else 0 := by
  have hagree := hs.agree
  rw [before] at hagree
  unfold Backend.resume at h
  split at h
  case h_1 hpc | h_3 hpc | h_6 hpc =>
    cases h
    simp only [hpc, Pc.completing]
    rfl
  case h_2 hpc =>
    cases h
    simp only [hpc, Pc.completing]
    split <;> rfl
  case h_4 hpc =>
    rw [hpc]
    exact Dispatcher.exec_dropped (congrArg (·.completing.isSome) hpc) h
  case h_5 response slot q status headers body _ hpc =>
    obtain ⟨-, -, hin⟩ := hagree
    rw [Dispatcher.exec_completing (congrArg (·.completing.isSome) hpc) h]
    refine congrArg _ ((respondResult_eq hin).trans ?_)
    rw [hpc]
    by_cases hcode : code = .ok <;> simp [hcode, Pc.completing]
  case h_7 => cases h

theorem Backend.Tied.dropped {a : BackendAct} (hs : s.Tied cfg) (h : s.step cfg a = some t) {n : Nat}
    (hn : s.dispatcher.droppedResponses = n) : t.dispatcher.droppedResponses = s.tally a t n := by
  subst hn
  cases Backend.step_cases h with
  | network | submit | stops => rfl
  | runs r ending failure d caught running move catches =>
    refine Dispatcher.exec_dropped ?_ move
    obtain ⟨-, hpc⟩ := Bool.and_eq_true_iff.mp running
    rw [Backend.job] at hpc
    generalize (s.dispatcher.jobs r).pc = pc at hpc
    cases pc <;> first | rfl | cases hpc
  | throws r response slot d pc idle bad move =>
    rw [Dispatcher.exec_completing (congrArg (·.completing.isSome) pc) move]
    rfl
  | call r w method api u idle native may move =>
    exact congrArg Dispatcher.droppedResponses (Backend.tell_dispatcher s r method)
  | back w cut api code d u caught calls pc resume move catches =>
    obtain ⟨-, -, hserial⟩ := hs.serial api.responder
    have hcaller : s.streaming.caller api.responder = some w := (hserial.caller w).mpr (by rw [calls]; rfl)
    have before := Streaming.call_eq hcaller calls
    rw [pc] at before
    rw [Backend.resume_dropped (hs.tied api.responder) before resume]
    simp only [Backend.tally, calls, pc]
    split <;> rfl

end Dropped

end Hyper4k.Dispatch
