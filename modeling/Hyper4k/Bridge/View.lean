import Mathlib.Logic.Function.Basic
import Hyper4k.Bridge.Exec
import Hyper4k.Runs.Guarded

/-! One slot with every thread that can work on it: any number of executor workers
and API callers, and the request's network task. -/
namespace Hyper4k.Bridge

/-- Events one slot may deliver before yielding its worker. -/
def SLICE : Nat := 8

inductive Tid
  | worker (n : Nat)
  | task
  | call (n : Nat)
  deriving DecidableEq, Repr

/-- How an API call reaches a slot. -/
inductive Entry
  | resume | cancel | close
  deriving DecidableEq, Repr

def Entry.pc : Entry → Pc
  | .resume => .resumePaused
  | .cancel => .cancelState
  | .close => .claim .close { kind := .cancelled, message := "client closed" } true

/-- A slot, how often it stands in the ready queue, and where each thread is. -/
@[ext] structure View where
  slot : Slot
  ready : Nat
  pc : Tid → Pc

/-- `bridge::spawn`. -/
def View.init (onChunk : Bool) (queueCapacity : Nat) : View :=
  ⟨{ onChunk, space := queueCapacity }, 0, fun _ => .away⟩

def Effect.pushes : Effect → Nat
  | .push => 1
  | _ => 0

def View.put (v : View) (t : Tid) (o : Outcome) : View :=
  ⟨o.slot, v.ready + o.effect.pushes, Function.update v.pc t o.pc⟩

inductive Move
  | exec (t : Tid)
  | env (t : Tid) (c : Choice)
  | pop (n : Nat)
  | enter (n : Nat) (e : Entry)
  | spawn (a : Attempt)
  | setAbort
  deriving DecidableEq, Repr

def View.step (v : View) : Move → Option View
  | .exec t => (v.slot.exec (v.pc t)).map (v.put t)
  | .env t c => (v.slot.env (v.pc t) c).map (v.put t)
  -- worker_loop takes the slot from the front of the ready queue
  | .pop n =>
    if v.pc (.worker n) = .away ∧ 0 < v.ready then
      some { v with ready := v.ready - 1, pc := Function.update v.pc (.worker n) (.swapRunning SLICE) }
    else none
  | .enter n e =>
    if v.pc (.call n) = .away then some { v with pc := Function.update v.pc (.call n) e.pc } else none
  | .spawn a =>
    if v.pc .task = .away then some { v with pc := Function.update v.pc .task (.acquire a) } else none
  | .setAbort => some { v with slot := { v.slot with abort := true } }

abbrev View.Reaches (ok : View → Move → Prop) (v : View) (ms : List Move) (w : View) : Prop :=
  Runs.Run View.step ok v ms w

/-- Every step is a thread working on the slot, or an arrival: a worker that takes
the slot, an API call, the network task, or the handle of that task. -/
inductive View.Stepped (v : View) : Move → View → Prop
  | exec (t : Tid) (o : Outcome) (h : v.slot.exec (v.pc t) = some o) : v.Stepped (.exec t) (v.put t o)
  | env (t : Tid) (c : Choice) (o : Outcome) (h : v.slot.EnvStep (v.pc t) o) : v.Stepped (.env t c) (v.put t o)
  | pop (n k : Nat) (free : v.pc (.worker n) = .away) (hk : v.ready = k + 1) :
    v.Stepped (.pop n) ⟨v.slot, k, Function.update v.pc (.worker n) (.swapRunning SLICE)⟩
  | enter (n : Nat) (e : Entry) (free : v.pc (.call n) = .away) :
    v.Stepped (.enter n e) ⟨v.slot, v.ready, Function.update v.pc (.call n) e.pc⟩
  | spawn (a : Attempt) (free : v.pc .task = .away) :
    v.Stepped (.spawn a) ⟨v.slot, v.ready, Function.update v.pc .task (.acquire a)⟩
  | setAbort : v.Stepped .setAbort ⟨{ v.slot with abort := true }, v.ready, v.pc⟩

theorem View.step_cases {v w : View} {m : Move} (h : v.step m = some w) : v.Stepped m w := by
  cases m with
  | exec t =>
    obtain ⟨o, ho, rfl⟩ := Option.map_eq_some_iff.mp h
    exact .exec t o ho
  | env t c =>
    obtain ⟨o, ho, rfl⟩ := Option.map_eq_some_iff.mp h
    exact .env t c o (Slot.env_cases ho)
  | pop n =>
    simp only [View.step] at h
    split at h
    · rename_i hn
      cases h
      exact .pop n _ hn.1 (by omega)
    · cases h
  | enter n e =>
    simp only [View.step] at h
    split at h
    · cases h
      exact .enter n e (by assumption)
    · cases h
  | spawn a =>
    simp only [View.step] at h
    split at h
    · cases h
      exact .spawn a (by assumption)
    · cases h
  | setAbort =>
    cases h
    exact .setAbort

/-- Where a thread that starts on the slot begins. -/
inductive Pc.Enters : Pc → Prop
  | worker : Enters (.swapRunning SLICE)
  | resume : Enters .resumePaused
  | cancel : Enters .cancelState
  | close : Enters (.claim .close { kind := .cancelled, message := "client closed" } true)
  | task (a : Attempt) : Enters (.acquire a)

/-- A thread's step as its slot sees it: an instruction, a decision of the environment,
or the arrival of the thread. -/
inductive Slot.Acts (s : Slot) (pc : Pc) (o : Outcome) : Prop
  | exec (h : s.exec pc = some o)
  | env (h : s.EnvStep pc o)
  | arrive (free : pc = .away) (slot : o.slot = s) (entry : o.pc.Enters)

/-- A property of steps: a thread that arrives comes from nowhere and finds the slot as it is. -/
theorem Slot.Acts.rule {s : Slot} {pc : Pc} {o : Outcome} {P : Pc → Outcome → Prop} (h : s.Acts pc o)
    (exec : s.exec pc = some o → P pc o) (env : s.EnvStep pc o → P pc o)
    (arrive : ∀ p e, p.Enters → P .away ⟨s, p, e⟩) : P pc o := by
  cases h with
  | exec h => exact exec h
  | env h => exact env h
  | arrive free slot entry =>
    obtain ⟨s', p, e⟩ := o
    cases slot
    rw [free]
    exact arrive p e entry

/-- The points at which nothing but the next instruction can happen to a thread. -/
def Pc.internal : Pc → Bool
  | .away | .inCallback .. => false
  | pc => !pc.awaits

private theorem env_not_internal {s : Slot} {pc : Pc} {o : Outcome} (h : s.EnvStep pc o) :
    pc.internal = false := by
  cases h with
  | failed _ _ waits | aborted _ waits => cases pc <;> first | rfl | cases waits
  | _ => rfl

theorem View.Stepped.acts {v w : View} {m : Move} (h : v.Stepped m w) :
    w = ⟨{ v.slot with abort := true }, v.ready, v.pc⟩ ∨
    ∃ t o, v.slot.Acts (v.pc t) o ∧ ((v.pc t).internal = true → m = .exec t) ∧
      w = ⟨o.slot, w.ready, Function.update v.pc t o.pc⟩ := by
  have hfree : ∀ {t}, v.pc t = .away → (v.pc t).internal = true → m = .exec t := by
    intro t ht hi
    rw [ht] at hi
    cases hi
  cases h with
  | exec t o h => exact .inr ⟨t, o, .exec h, fun _ => rfl, rfl⟩
  | env t c o h =>
    refine .inr ⟨t, o, .env h, fun hi => ?_, rfl⟩
    rw [env_not_internal h] at hi
    cases hi
  | pop n k free hk =>
    exact .inr ⟨.worker n, ⟨v.slot, .swapRunning SLICE, .quiet⟩, .arrive free rfl .worker, hfree free, rfl⟩
  | enter n e free =>
    refine .inr ⟨.call n, ⟨v.slot, e.pc, .quiet⟩, .arrive free rfl ?_, hfree free, rfl⟩
    cases e with
    | resume => exact .resume
    | cancel => exact .cancel
    | close => exact .close
  | spawn a free =>
    exact .inr ⟨.task, ⟨v.slot, .acquire a, .quiet⟩, .arrive free rfl (.task a), hfree free, rfl⟩
  | setAbort => exact .inl rfl

end Hyper4k.Bridge
