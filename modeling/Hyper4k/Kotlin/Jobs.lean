import Hyper4k.Kotlin.Backend

/-! The order in which one request goes through `dispatch`, and what its channel remembers at each place. -/
namespace Hyper4k.Dispatch
open Server (Code Responder)
open Runs

def Job.streaming (j : Job) : Bool := j.channel.any (·.isStreaming)

/-- The engine took the head of a stream from this request. -/
def Job.begun (j : Job) : Bool := j.channel.any (·.started)

theorem Job.streaming_eq {j : Job} {c : NativeResponseChannel} (hc : j.channel = some c) :
    j.streaming = c.isStreaming := by
  rw [Job.streaming, hc, Option.any_some]

/-- A request on its way, with the channel that its coroutine has and the responses it gave to `complete`. -/
def Job.InOrder (j : Job) : Prop :=
  match j.pc with
  | .away | .loadAccepting | .tryAcquire | .addActive | .recheckAccepting | .refuse _ | .newChannel =>
    j.channel = none ∧ j.completed = []
  | .handler ops => ops = [] ∧ j.channel ≠ none ∧ j.completed = []
  | .recover _ _ | .finish _ => j.channel ≠ none ∧ j.completed = []
  | .closeStream => j.streaming = true ∧ j.completed = []
  | .complete _ _ => j.streaming = false ∧ j.completed = []
  | .subActive | .releaseSlot | .released => j.streaming = false ∧ (j.channel = none → j.completed ≠ [])
  | .refused => j.streaming = false ∧ j.completed ≠ []
  | .thrown => j.completed = []

/-- The coroutine has been entered and has neither thrown nor a channel to close. -/
def Pc.alone : Pc → Bool
  | .away | .closeStream | .thrown => false
  | _ => true

theorem Pc.ne_of_alone {pc : Pc} (h : pc.alone = true) : pc ≠ .away ∧ pc ≠ .closeStream ∧ pc ≠ .thrown := by
  refine ⟨?_, ?_, ?_⟩
  all_goals
    rintro rfl
    cases h

/-- A step of the dispatcher for one request, whose handler is modelled by calls of its own. -/
inductive Job.Runs (b : Behaviour) (j : Job) : Job → Prop
  | onward (pc : Pc) (inside : j.pc.completing = none) (away : j.pc ≠ .away ∧ j.pc ≠ .closeStream ∧ j.pc ≠ .thrown)
      (order : ({ j with pc } : Job).InOrder)
      (thrown : pc = .thrown → j.pc.refusing = true ∨ j.channel ≠ none)
      (submitting : j.submitting = false → ({ j with pc } : Job).submitting = false) : j.Runs b { j with pc }
  | opens (pc : j.pc = .newChannel) : j.Runs b { j with channel := some {}, pc := .handler [] }
  | closes (pc : j.pc = .closeStream) :
    j.Runs b { j with channel := j.channel.map fun c => (c.finish b.closeCode).2, pc := .subActive }
  | completes (response : Hyper4kResponse) (slot : Bool) (pc : j.pc = .complete response slot) :
    j.Runs b { j with completed := j.completed ++ [response], pc := if slot then .subActive else .refused }

section Jobs
variable {cfg : Config} {d d' : Dispatcher} {r : Responder}

theorem Dispatcher.exec_runs (hops : (cfg.behaviour r).newChannel = true ∧ (cfg.behaviour r).ops = [])
    (hj : (d.jobs r).InOrder) (h : d.exec cfg r = some d') :
    ∃ j, d'.jobs = Function.update d.jobs r j ∧ (d.jobs r).Runs (cfg.behaviour r) j := by
  rw [Dispatcher.exec] at h
  rw [Job.InOrder] at hj
  generalize hpc : (d.jobs r).pc = pc at h hj
  have onward : ∀ (next : Pc), pc.completing = none → pc.alone = true →
      ({ d.jobs r with pc := next } : Job).InOrder → (next = .thrown → pc.refusing = true ∨ (d.jobs r).channel ≠ none) →
      (({ d.jobs r with pc } : Job).submitting = false → ({ d.jobs r with pc := next } : Job).submitting = false) →
      d'.jobs = Function.update d.jobs r { d.jobs r with pc := next } →
      ∃ j, d'.jobs = Function.update d.jobs r j ∧ (d.jobs r).Runs (cfg.behaviour r) j := by
    intro next hinside halone order thrown submitting hd
    subst hpc
    exact ⟨_, hd, .onward next hinside (Pc.ne_of_alone halone) order thrown submitting⟩
  cases pc with
  | away | released | refused | thrown => cases h
  | loadAccepting | recheckAccepting =>
    cases h
    refine onward _ rfl rfl ?_ ?_ (fun h => (by cases h)) rfl
    · split <;> exact hj
    · split <;> exact fun h => (by cases h)
  | tryAcquire =>
    by_cases hslots : 0 < d.slots
    · rw [if_pos hslots] at h
      cases h
      exact onward .addActive rfl rfl hj (fun h => (by cases h)) (fun h => (by cases h)) rfl
    · rw [if_neg hslots] at h
      cases h
      exact onward (.refuse false) rfl rfl hj (fun h => (by cases h)) (fun h => (by cases h)) rfl
  | addActive =>
    cases h
    exact onward .recheckAccepting rfl rfl hj (fun h => (by cases h)) (fun h => (by cases h)) rfl
  | refuse slot =>
    cases h
    refine onward _ rfl rfl ?_ (fun _ => .inl rfl) (fun h => (by cases h)) rfl
    split
    · refine ⟨?_, hj.2⟩
      rw [Job.streaming, hj.1]
      rfl
    · exact hj.2
  | newChannel =>
    simp only [hops.1, hops.2, if_true] at h
    cases h
    exact ⟨_, rfl, .opens hpc⟩
  | handler ops =>
    obtain ⟨rfl, hchannel, hnone⟩ := hj
    cases h
    refine onward _ rfl rfl ?_ (fun _ => .inr hchannel) (fun _ => ?_) rfl
    · cases (cfg.behaviour r).ending <;> exact ⟨hchannel, hnone⟩
    · cases (cfg.behaviour r).ending <;> rfl
  | recover status message =>
    cases h
    refine onward _ rfl rfl ?_ (fun _ => .inr hj.1) (fun _ => ?_) rfl
    · split
      · exact hj
      · exact hj.2
    · split <;> rfl
  | finish response =>
    cases h
    have hsome : (d.jobs r).channel.isNone = false := Option.isNone_eq_false_iff.mpr (Option.isSome_iff_ne_none.mpr hj.1)
    refine onward _ rfl rfl ?_ (fun _ => .inr hj.1) (fun _ => ?_) rfl
    · split
      · rename_i hstreaming
        exact ⟨hstreaming, hj.2⟩
      · rename_i hstreaming
        split
        · exact ⟨Bool.eq_false_iff.mpr hstreaming, fun hnone => absurd hnone hj.1⟩
        · exact ⟨Bool.eq_false_iff.mpr hstreaming, hj.2⟩
    · split
      · rfl
      · split <;> exact hsome
  | closeStream =>
    cases h
    exact ⟨_, rfl, .closes hpc⟩
  | complete response slot =>
    cases h
    exact ⟨_, rfl, .completes response slot hpc⟩
  | subActive =>
    cases h
    exact onward .releaseSlot rfl rfl hj (fun h => (by cases h)) id rfl
  | releaseSlot =>
    cases h
    exact onward .released rfl rfl hj (fun h => (by cases h)) (fun _ => rfl) rfl

/-- The `finally` of `finish` closes the channel, whatever the engine answers. -/
theorem NativeResponseChannel.finish_closed (c : NativeResponseChannel) (rc : Code) :
    (c.finish rc).2.isStreaming = false := by
  unfold NativeResponseChannel.finish
  split
  · rename_i h
    rw [NativeResponseChannel.isStreaming]
    cases hs : c.started <;> cases hf : c.finished <;> simp_all
  · split <;> simp [NativeResponseChannel.isStreaming]

theorem Job.Runs.inOrder {b : Behaviour} {j j' : Job} (hj : j.InOrder) (h : j.Runs b j') : j'.InOrder := by
  cases h with
  | onward pc inside away order thrown submitting => exact order
  | opens pc =>
    rw [Job.InOrder, pc] at hj
    exact ⟨rfl, Option.some_ne_none _, hj.2⟩
  | closes pc =>
    rw [Job.InOrder, pc] at hj
    obtain ⟨c, hc, -⟩ := (Option.any_eq_true _ _).mp hj.1
    refine ⟨?_, fun hnone => ?_⟩
    · rw [Job.streaming, hc]
      exact NativeResponseChannel.finish_closed c _
    · rw [hc] at hnone
      cases hnone
  | completes response slot pc =>
    rw [Job.InOrder, pc] at hj
    cases slot with
    | true => exact ⟨hj.1, fun _ => by simp⟩
    | false => exact ⟨hj.1, by simp⟩

/-- The dispatcher itself changes what the channel says only where it closes the stream. -/
theorem Job.Runs.streaming {b : Behaviour} {j j' : Job} (hj : j.InOrder) (h : j.Runs b j')
    (hopen : j.pc ≠ .closeStream) : j'.streaming = j.streaming := by
  cases h with
  | onward pc inside away order thrown submitting => rfl
  | opens pc =>
    rw [Job.InOrder, pc] at hj
    rw [Job.streaming, Job.streaming, hj.1]
    rfl
  | closes pc => exact absurd pc hopen
  | completes response slot pc => rfl

theorem Job.Runs.closed {b : Behaviour} {j j' : Job} (h : j.Runs b j') (hopen : j.pc ≠ .closeStream)
    (hj : ∀ c, j.channel = some c → c.finished = true → c.started = true) :
    ∀ c, j'.channel = some c → c.finished = true → c.started = true := by
  cases h with
  | onward pc inside away order thrown submitting => exact hj
  | opens pc =>
    rintro c hc hfinished
    cases hc
    cases hfinished
  | closes pc => exact absurd pc hopen
  | completes response slot pc => exact hj

theorem Job.Runs.not_thrown {b : Behaviour} {j j' : Job} (h : j.Runs b j') : j.pc ≠ .thrown := by
  cases h with
  | onward pc inside away order thrown submitting => exact away.2.2
  | opens pc | closes pc | completes response slot pc =>
    rw [pc]
    exact fun h => (by cases h)

theorem Pc.refusing_eq {pc : Pc} (h : pc.refusing = true) : ∃ slot, pc = .refuse slot := by
  cases pc with
  | refuse slot => exact ⟨slot, rfl⟩
  | _ => cases h

/-- A coroutine never finds itself inside `submit` again. -/
theorem Job.Runs.submitting {b : Behaviour} {j j' : Job} (hj : j.InOrder) (h : j.Runs b j')
    (hout : j.submitting = false) : j'.submitting = false := by
  cases h with
  | onward pc inside away order thrown submitting => exact submitting hout
  | opens pc => rfl
  | closes pc =>
    rw [Job.InOrder, pc] at hj
    obtain ⟨c, hc, -⟩ := (Option.any_eq_true _ _).mp hj.1
    simp only [Job.submitting, hc]
    rfl
  | completes response slot pc =>
    simp only [Job.submitting, pc] at hout
    cases slot with
    | true => exact hout
    | false => rfl

theorem Job.Runs.refused {b : Behaviour} {j j' : Job} {slot : Bool} (h : j.Runs b j') (hpc : j.pc = .refuse slot) :
    j'.channel = j.channel := by
  cases h with
  | onward pc inside away order thrown submitting => rfl
  | opens pc | closes pc => rw [pc] at hpc; cases hpc
  | completes response slot pc => rfl

/-- What a step of the dispatcher leaves of the request's dealings with the engine. -/
theorem Job.Runs.begun_of {b : Behaviour} {j j' : Job} (h : j.Runs b j') (hopen : j.pc ≠ .closeStream)
    (hb : j'.begun = true) : j.begun = true := by
  cases h with
  | onward pc inside away order thrown submitting => exact hb
  | opens pc => cases hb
  | closes pc => exact absurd pc hopen
  | completes response slot pc => exact hb

theorem Job.Runs.completed_of {b : Behaviour} {j j' : Job} (h : j.Runs b j') :
    j'.completed = j.completed ∨ ∃ response, j.pc.completing = some response ∧ response ∈ j'.completed := by
  cases h with
  | onward pc inside away order thrown submitting => exact .inl rfl
  | opens pc | closes pc => exact .inl rfl
  | completes response slot pc => exact .inr ⟨response, by rw [pc]; rfl, List.mem_append_right _ (List.mem_singleton_self _)⟩

theorem Job.Runs.thrown_of {b : Behaviour} {j j' : Job} (h : j.Runs b j') (hpc : j'.pc = .thrown) :
    j.pc.refusing = true ∨ j'.channel ≠ none := by
  cases h with
  | onward pc inside away order thrown submitting => exact thrown hpc
  | opens pc | closes pc => cases hpc
  | completes response slot pc => cases slot <;> cases hpc

theorem Job.Runs.not_away {b : Behaviour} {j j' : Job} (h : j.Runs b j') : j.pc ≠ .away := by
  cases h with
  | onward pc inside away order thrown submitting => exact away.1
  | opens pc | closes pc | completes response slot pc =>
    rw [pc]
    exact fun h => (by cases h)

theorem Job.begun_of_streaming {j : Job} (h : j.streaming = true) : j.begun = true := by
  obtain ⟨c, hc, hopen⟩ := (Option.any_eq_true _ _).mp h
  rw [Job.begun, hc]
  exact (Bool.and_eq_true_iff.mp hopen).1

theorem Job.submitting_of_refusing {j : Job} (h : j.pc.refusing = true) : j.submitting = true := by
  obtain ⟨slot, hpc⟩ := Pc.refusing_eq h
  simp only [Job.submitting, hpc]

/-- A completed request does not complete again, nor has it thrown. -/
theorem Job.InOrder.past {j : Job} (hj : j.InOrder) (hc : j.completed ≠ []) :
    (∀ response slot, j.pc ≠ .complete response slot) ∧ j.pc ≠ .thrown := by
  refine ⟨fun response slot hpc => ?_, fun hpc => ?_⟩ <;> rw [Job.InOrder, hpc] at hj
  · exact hc hj.2
  · exact hc hj

end Jobs

end Hyper4k.Dispatch
