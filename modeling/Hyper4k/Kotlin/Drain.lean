import Hyper4k.Kotlin.Dispatcher
import Hyper4k.Runs.Threads
import Hyper4k.Runs.Credits

/-! Stopping the Kotlin server: `stopAccepting`, then the poll of `awaitDrained`, against requests
that are at any point of `submit`. -/
namespace Hyper4k.Dispatch
open Server (Responder)
open Runs

/-- Where `stop` is, up to the two ends of the loop in `awaitDrained`. -/
inductive StopPc
  | stopAccepting
  | loadActive
  | checkDeadline
  | drained
  | expired
  deriving DecidableEq, Repr

structure Drain where
  dispatcher : Dispatcher
  stop : StopPc := .stopAccepting

inductive DrainAct
  | dispatch (a : Act)
  -- the next access of `stop`; `late` is what the clock says, where the clock is read
  | stop (late : Bool)
  deriving DecidableEq, Repr

namespace Drain

def init (cfg : Config) : Drain := { dispatcher := Dispatcher.init cfg }

def step (cfg : Config) (s : Drain) : DrainAct → Option Drain
  | .dispatch a => (s.dispatcher.step cfg a).map fun d => { s with dispatcher := d }
  | .stop late => match s.stop with
    | .stopAccepting =>
      (s.dispatcher.step cfg .stopAccepting).map fun d => { dispatcher := d, stop := .loadActive }
    | .loadActive => some { s with stop := if 0 < s.dispatcher.activeRequests then .checkDeadline else .drained }
    | .checkDeadline => some { s with stop := if late then .expired else .loadActive }
    | .drained | .expired => none

abbrev Reaches (cfg : Config) (as : List DrainAct) (s : Drain) : Prop :=
  Run (step cfg) anyStep (init cfg) as s

end Drain

/-- The request is past its admission and its handler is called next, or runs. -/
def Pc.running : Pc → Bool
  | .newChannel | .handler _ => true
  | _ => false

/-- The request is counted in `activeRequests`, and will be until it subtracts itself. -/
def Pc.counted : Pc → Bool
  | .recheckAccepting | .newChannel | .handler _ | .recover _ _ | .finish _ | .closeStream | .subActive => true
  | .refuse slot | .complete _ slot => slot
  | _ => false

/-- The request holds a slot and is not counted: not yet, or no longer. -/
def Pc.between : Pc → Bool
  | .addActive | .releaseSlot => true
  | _ => false

theorem Pc.counted_of_running {pc : Pc} (h : pc.running = true) : pc.counted = true := by
  cases pc <;> first | rfl | cases h

/-- What an access of request `r` can do to admission. -/
inductive Dispatcher.Moved (s : Dispatcher) (r : Responder) : Dispatcher → Prop
  | acquire (hslots : 0 < s.slots) : Moved s r ({ s with slots := s.slots - 1 }.goto r .addActive)
  | count (hpc : (s.jobs r).pc = .addActive) :
      Moved s r ({ s with activeRequests := s.activeRequests + 1 }.goto r .recheckAccepting)
  | launch (hpc : (s.jobs r).pc = .recheckAccepting) (hopen : s.accepting = true) : Moved s r (s.goto r .newChannel)
  | discount (hpc : (s.jobs r).pc = .subActive) :
      Moved s r ({ s with activeRequests := s.activeRequests - 1 }.goto r .releaseSlot)
  | release (hpc : (s.jobs r).pc = .releaseSlot) : Moved s r ({ s with slots := s.slots + 1 }.goto r .released)
  | inside {job : Job} {dropped : Nat} (hcounted : job.pc.counted = true → (s.jobs r).pc.counted = true)
      (hbetween : job.pc.between = false) (hrunning : job.pc.running = true → (s.jobs r).pc.running = true) :
      Moved s r ({ s with droppedResponses := dropped }.setJob r job)

section Steps
variable {cfg : Config} {s t : Dispatcher} {r : Responder} {a : Act}

theorem Dispatcher.exec_moved (h : s.exec cfg r = some t) : s.Moved r t := by
  rw [Dispatcher.exec] at h
  generalize hpc : (s.jobs r).pc = pc at h
  have outside {job : Job} {dropped : Nat} (hc : job.pc.counted = false) (hb : job.pc.between = false) :
      s.Moved r ({ s with droppedResponses := dropped }.setJob r job) := by
    refine .inside (fun h => ?_) hb fun h => ?_
    · rw [hc] at h
      cases h
    · rw [Pc.counted_of_running h] at hc
      cases hc
  have ending {job : Job} {dropped : Nat} (hc : (s.jobs r).pc.counted = true) (hr : job.pc.running = false)
      (hb : job.pc.between = false) : s.Moved r ({ s with droppedResponses := dropped }.setJob r job) := by
    refine .inside (fun _ => hc) hb fun h => ?_
    rw [hr] at h
    cases h
  cases pc with
  | away | released | refused | thrown => cases h
  | loadAccepting =>
    cases h
    split <;> exact outside rfl rfl
  | tryAcquire =>
    simp only [Option.some.injEq] at h
    split at h <;> subst h
    · exact .acquire ‹_›
    · exact outside rfl rfl
  | addActive =>
    cases h
    exact .count hpc
  | recheckAccepting =>
    cases h
    cases hopen : s.accepting with
    | true => exact .launch hpc hopen
    | false => exact ending (by rw [hpc]; rfl) rfl rfl
  | refuse slot =>
    cases h
    split
    · cases slot with
      | true => exact ending (by rw [hpc]; rfl) rfl rfl
      | false => exact outside rfl rfl
    · exact outside rfl rfl
  | newChannel =>
    simp only at h
    split at h <;> cases h
    · exact .inside (fun _ => by rw [hpc]; rfl) rfl fun _ => by rw [hpc]; rfl
    · exact outside rfl rfl
  | handler ops =>
    cases ops with
    | cons op ops =>
      cases h
      exact .inside (fun _ => by rw [hpc]; rfl) rfl fun _ => by rw [hpc]; rfl
    | nil =>
      cases h
      cases hend : (cfg.behaviour r).ending <;> exact ending (by rw [hpc]; rfl) rfl rfl
  | recover status message =>
    cases h
    split
    · exact ending (by rw [hpc]; rfl) rfl rfl
    · exact outside rfl rfl
  | finish response =>
    cases h
    split
    · exact ending (by rw [hpc]; rfl) rfl rfl
    · split <;> exact ending (by rw [hpc]; rfl) rfl rfl
  | closeStream =>
    cases h
    exact ending (by rw [hpc]; rfl) rfl rfl
  | complete response slot =>
    cases h
    cases slot with
    | true => exact ending (by rw [hpc]; rfl) rfl rfl
    | false => exact outside rfl rfl
  | subActive =>
    cases h
    exact .discount hpc
  | releaseSlot =>
    cases h
    exact .release hpc

/-- A step of the dispatcher moves one request, or closes admission. -/
theorem Dispatcher.step_moved (h : s.step cfg a = some t) :
    (∃ r, s.Moved r t) ∨ t = { s with accepting := false } := by
  cases a with
  | submit r =>
    simp only [Dispatcher.step] at h
    split at h <;> cases h
    exact .inl ⟨r, .inside (fun hc => by cases hc) rfl fun hr => by cases hr⟩
  | exec r => exact .inl ⟨r, Dispatcher.exec_moved h⟩
  | stopAccepting => exact .inr (Option.some.inj h).symm

@[simp] theorem Dispatcher.goto_slots {pc : Pc} : (s.goto r pc).slots = s.slots := rfl

@[simp] theorem Dispatcher.goto_activeRequests {pc : Pc} : (s.goto r pc).activeRequests = s.activeRequests := rfl

/-- What the two counters of admission say about the requests. Neither is touched in one step
with the other, and a request is between them when it holds a slot and is not counted. -/
structure Dispatcher.Admits (cfg : Config) (s : Dispatcher) : Prop where
  counted : AtMost (fun j : Job => j.pc.counted = true) s.activeRequests s.jobs
  between : AtMost (fun j : Job => j.pc.between = true)
    (cfg.maxConcurrentRequests - s.slots - s.activeRequests) s.jobs

theorem Dispatcher.Admits.init : (Dispatcher.init cfg).Admits cfg where
  counted := Nowhere.atMost fun _ h => by cases h
  between := by
    have hnone : AtMost (fun j : Job => j.pc.between = true) 0 (Dispatcher.init cfg).jobs :=
      Nowhere.atMost fun _ h => by cases h
    rwa [Dispatcher.init, sub_self, sub_zero]

theorem Dispatcher.Admits.moved (hs : s.Admits cfg) (h : s.Moved r t) : t.Admits cfg := by
  obtain ⟨hcounted, hbetween⟩ := hs
  cases h with
  | acquire hslots =>
    refine ⟨hcounted.keep (fun h => by cases h), hbetween.enter ?_⟩
    simp only [goto_slots, goto_activeRequests]
    omega
  | count hpc =>
    refine ⟨hcounted.enter le_rfl, hbetween.leave (by rw [hpc]; rfl) (fun h => by cases h) ?_⟩
    simp only [goto_slots, goto_activeRequests]
    omega
  | launch hpc hopen => exact ⟨hcounted.keep fun _ => by rw [hpc]; rfl, hbetween.keep fun h => by cases h⟩
  | discount hpc =>
    refine ⟨hcounted.leave (by rw [hpc]; rfl) (fun h => by cases h) le_rfl, hbetween.enter ?_⟩
    simp only [goto_slots, goto_activeRequests]
    omega
  | release hpc =>
    refine ⟨hcounted.keep (fun h => by cases h), hbetween.leave (by rw [hpc]; rfl) (fun h => by cases h) ?_⟩
    simp only [goto_slots, goto_activeRequests]
    omega
  | inside hc hb hr =>
    refine ⟨hcounted.keep hc, hbetween.keep fun h => ?_⟩
    rw [hb] at h
    cases h

theorem Dispatcher.Admits.step (hs : s.Admits cfg) (h : s.step cfg a = some t) : t.Admits cfg := by
  obtain ⟨r, hmoved⟩ | rfl := Dispatcher.step_moved h
  · exact hs.moved hmoved
  · exact ⟨hs.counted, hs.between⟩

/-- The counter stays within the configured number, so the `AtomicInt` does not overflow. -/
theorem Dispatcher.Admits.activeRequests_le (hs : s.Admits cfg) :
    0 ≤ s.activeRequests ∧ s.activeRequests ≤ cfg.maxConcurrentRequests := by
  have hcounted := hs.counted.nonneg
  have hbetween := hs.between.nonneg
  omega

theorem Dispatcher.step_closed (hs : s.accepting = false) (h : s.step cfg a = some t) : t.accepting = false := by
  obtain ⟨r, hmoved⟩ | rfl := Dispatcher.step_moved h
  · cases hmoved <;> exact hs
  · rfl

/-- No handler runs, and admission is closed for good. -/
structure Dispatcher.Idle (s : Dispatcher) : Prop where
  closed : s.accepting = false
  silent : Nowhere (fun j : Job => j.pc.running = true) s.jobs

/-- A request that was not past its second look at `accepting` finds it cleared there. -/
theorem Dispatcher.Idle.step (hs : s.Idle) (h : s.step cfg a = some t) : t.Idle := by
  refine ⟨Dispatcher.step_closed hs.closed h, ?_⟩
  obtain ⟨r, hmoved⟩ | rfl := Dispatcher.step_moved h
  · cases hmoved with
    | launch hpc hopen =>
      rw [hs.closed] at hopen
      cases hopen
    | inside hc hb hr => exact hs.silent.update fun h => hs.silent r (hr h)
    | acquire | count | discount | release => exact hs.silent.update fun h => by cases h
  · exact hs.silent

end Steps

namespace Drain
variable {cfg : Config} {s t : Drain} {a : DrainAct}

theorem step_dispatcher (h : s.step cfg a = some t) :
    t.dispatcher = s.dispatcher ∨ ∃ b, s.dispatcher.step cfg b = some t.dispatcher := by
  cases a with
  | dispatch b =>
    obtain ⟨d, hd, rfl⟩ := Option.map_eq_some_iff.mp h
    exact .inr ⟨b, hd⟩
  | stop late =>
    simp only [step] at h
    split at h
    · obtain ⟨d, hd, rfl⟩ := Option.map_eq_some_iff.mp h
      exact .inr ⟨.stopAccepting, hd⟩
    all_goals cases h
    all_goals exact .inl rfl

/-- Whatever every step of the dispatcher keeps, the system keeps. -/
theorem step_keeps {I : Dispatcher → Prop} (hI : ∀ d d' b, I d → d.step cfg b = some d' → I d')
    (hs : I s.dispatcher) (h : s.step cfg a = some t) : I t.dispatcher := by
  obtain heq | ⟨b, hb⟩ := step_dispatcher h
  · rwa [heq]
  · exact hI _ _ b hs hb

theorem Reaches.admits {as : List DrainAct} (h : Reaches cfg as s) : s.dispatcher.Admits cfg :=
  Run.invariant (I := fun s => s.dispatcher.Admits cfg) h
    (fun _ _ _ _ hs hstep => step_keeps (fun _ _ _ hd => hd.step) hs hstep) .init

def Closing (s : Drain) : Prop := s.stop = .stopAccepting ∨ s.dispatcher.accepting = false

theorem Closing.step (hs : s.Closing) (h : s.step cfg a = some t) : t.Closing := by
  have hclosed : s.dispatcher.accepting = false → t.dispatcher.accepting = false := fun hc =>
    step_keeps (I := fun d => d.accepting = false) (fun _ _ _ hd hstep => Dispatcher.step_closed hd hstep) hc h
  obtain hstart | hc := hs
  · cases a with
    | dispatch b =>
      obtain ⟨d, -, rfl⟩ := Option.map_eq_some_iff.mp h
      exact .inl hstart
    | stop late =>
      rw [step, hstart] at h
      cases h
      exact .inr rfl
  · exact .inr (hclosed hc)

theorem Reaches.closing {as : List DrainAct} (h : Reaches cfg as s) : s.Closing :=
  Run.invariant (I := Closing) h (fun _ _ _ _ hs hstep => hs.step hstep) (.inl rfl)

end Drain

/-- Where `awaitDrained` reads zero, no request is counted, so none is past its admission. -/
theorem Drain.Reaches.idle {cfg : Config} {as : List DrainAct} {s : Drain} (h : Drain.Reaches cfg as s)
    (hload : s.stop = .loadActive) (hzero : s.dispatcher.activeRequests = 0) : s.dispatcher.Idle := by
  have hcounted := (Reaches.admits h).counted
  rw [hzero] at hcounted
  refine ⟨?_, fun r hr => hcounted.nowhere r (Pc.counted_of_running hr)⟩
  obtain hstart | hclosed := Reaches.closing h
  · rw [hload] at hstart
    cases hstart
  · exact hclosed

/-- At every point at most `maxConcurrentRequests` handlers run; and where the poll of
`awaitDrained` reads zero, none runs, then or at any later point. -/
theorem drain_sound {cfg : Config} {as : List DrainAct} {s : Drain} (h : Drain.Reaches cfg as s) :
    (∀ F : Finset Responder, (∀ r ∈ F, (s.dispatcher.jobs r).pc.running = true) →
      F.card ≤ cfg.maxConcurrentRequests) ∧
    (s.stop = .loadActive → s.dispatcher.activeRequests = 0 → ∀ bs t, Run (Drain.step cfg) anyStep s bs t →
      ∀ r, (t.dispatcher.jobs r).pc.running = false) := by
  have hs := Drain.Reaches.admits h
  constructor
  · intro F hF
    have hcard := hs.counted F fun r hr => Pc.counted_of_running (hF r hr)
    have hle := hs.activeRequests_le.2
    omega
  · intro hload hzero bs t hrun r
    have hidle : t.dispatcher.Idle := Run.invariant (I := fun s => s.dispatcher.Idle) hrun
      (fun _ _ _ _ hd hstep => Drain.step_keeps (fun _ _ _ hd => hd.step) hd hstep)
      (Drain.Reaches.idle h hload hzero)
    exact Bool.eq_false_iff.mpr (hidle.silent r)

/-- A stop that lands between the two looks of a request at `accepting`: the poll reads one,
waits, and reads zero after the request took itself back. -/
theorem drain_sound_refused_inside : ∃ as s, Drain.Reaches (single [] (.returned { status := 200 })) as s ∧
    s.stop = .loadActive ∧ s.dispatcher.activeRequests = 0 ∧
    ∀ bs t, Run (Drain.step (single [] (.returned { status := 200 }))) anyStep s bs t →
      ∀ r, (t.dispatcher.jobs r).pc.running = false := by
  let cfg := single [] (.returned { status := 200 })
  let admission := DrainAct.dispatch (.submit 1) :: List.replicate 3 (.dispatch (.exec 1))
  let drain := [DrainAct.stop false, .stop false, .stop false] ++ List.replicate 4 (.dispatch (.exec 1))
  have hrun : (replay (Drain.step cfg) anyStep (Drain.init cfg) (admission ++ drain)).map
      (fun s => (s.stop, s.dispatcher.activeRequests)) = some (.loadActive, 0) := by decide
  obtain ⟨s, hs, hread⟩ := Option.map_eq_some_iff.mp hrun
  obtain ⟨hload, hzero⟩ := Prod.mk.inj hread
  exact ⟨_, s, run_of_replay hs, hload, hzero, (drain_sound (run_of_replay hs)).2 hload hzero⟩

end Hyper4k.Dispatch
