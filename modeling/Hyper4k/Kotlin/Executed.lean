import Hyper4k.Kotlin.Frontend

/-! One access of `send`, `next`, `cancel`, `close` or `resume` of the Kotlin client, as the streams see it. -/
namespace Hyper4k.Lifecycle
open Kotlin (HighWater)

/-- The stream that a `send` is making. -/
def Pc.sends : Pc → Option StreamId
  | .callSend st | .inSend st => some st
  | _ => none

def Pc.names : Pc → Option (StreamId × UInt64)
  | .storeId st id | .callResume st id | .inResume st id | .delay st id => some (st, id)
  | _ => none

inductive Client.Executed (s : Client) (t : ThreadId) : Client → Prop
  | opens (highWater : HighWater) (pc : s.threads t = .loadLifecycle highWater) (opened : s.lifecycle = .opened) :
    s.Executed t (({ s with nextStream := s.nextStream + 1 }.setStream s.nextStream { highWater }).goto t
      (.callSend s.nextStream))
  | stores (st : StreamId) (id : UInt64) (pc : s.threads t = .storeId st id) :
    s.Executed t (({ s with handed := Function.update s.handed st true }.setStream st
      { s.streams st with requestId := id.toInt64 }).goto t .away)
  | takes (st : StreamId) (e : Kotlin.ClientEvent) (rest : List Kotlin.ClientEvent) (p : Pc)
      (pc : s.threads t = .receive st) (events : (s.streams st).events = e :: rest) (sends : p.sends = none)
      (names : p.names = none) : s.Executed t ((s.setStream st { s.streams st with events := rest }).goto t p)
  | works (u : Client) (p : Pc) (threads : u.threads = Function.update s.threads t p)
      (nextStream : u.nextStream = s.nextStream)
      (streams : ∀ st, (u.streams st).events = (s.streams st).events ∧ (u.streams st).closed = (s.streams st).closed ∧
        (u.streams st).requestId = (s.streams st).requestId)
      (taken : ∀ st, s.threads t = .receive st → (s.streams st).events = [])
      (unopened : ∀ highWater, s.threads t = .loadLifecycle highWater → s.lifecycle ≠ .opened)
      (sends : p.sends = none) (names : ∀ st id, p.names = some (st, id) → (s.threads t).names = some (st, id) ∨
        0 < (s.streams st).requestId ∧ id = (s.streams st).requestId.toUInt64) : s.Executed t u

section Exec
variable {s k : Client} {t : ThreadId}

private theorem Executed.moves {q : Pc} (hpc : s.threads t = q) (p : Pc)
    (taken : ∀ st, q = .receive st → (s.streams st).events = [])
    (unopened : ∀ highWater, q = .loadLifecycle highWater → s.lifecycle ≠ .opened) (sends : p.sends = none)
    (names : ∀ st id, p.names = some (st, id) → q.names = some (st, id) ∨
      0 < (s.streams st).requestId ∧ id = (s.streams st).requestId.toUInt64) : s.Executed t (s.goto t p) := by
  subst hpc
  exact .works _ p rfl rfl (fun _ => ⟨rfl, rfl, rfl⟩) taken unopened sends names

private theorem Executed.sets {q : Pc} (hpc : s.threads t = q) (p : Pc) (st : StreamId) (x : Kotlin.RequestState)
    (hx : x.events = (s.streams st).events ∧ x.closed = (s.streams st).closed ∧ x.requestId = (s.streams st).requestId)
    (plain : ∀ st, q ≠ .receive st) (unopened : ∀ highWater, q ≠ .loadLifecycle highWater) (sends : p.sends = none)
    (names : p.names = none) : s.Executed t ((s.setStream st x).goto t p) := by
  subst hpc
  refine .works _ p rfl rfl (fun st' => ?_) (fun st' h => absurd h (plain st')) (fun w h => absurd h (unopened w)) sends
    fun st' id h => ?_
  · by_cases hst : st' = st
    · subst hst
      simpa [Client.goto, Client.setStream] using hx
    · simp [Client.goto, Client.setStream, hst]
  · rw [names] at h
    cases h

theorem exec_here {args : Bridge.SendArgs} (here : Streams.api args (s.threads t) = none) (h : s.exec t = some k) :
    s.Executed t k := by
  unfold Client.exec at h
  generalize hpc : s.threads t = q at h here
  cases q with
  | away | inSend st | inFree | inResume st id => cases h
  | callSend st | callClose | callFree | callResume st id | callCancel id => cases here
  | loadLifecycle highWater =>
    simp only at h
    split at h <;> cases h
    · exact .opens highWater hpc (by assumption)
    · rename_i hopen
      exact Executed.moves hpc .away (fun _ h => by cases h) (fun _ _ => hopen) rfl fun _ _ h => by cases h
  | storeId st id =>
    cases h
    exact .stores st id hpc
  | compareAndSet =>
    simp only at h
    split at h <;> cases h
    · exact .works _ .callClose rfl rfl (fun _ => ⟨rfl, rfl, rfl⟩) (fun _ h => by rw [hpc] at h; cases h)
        (fun _ h => by rw [hpc] at h; cases h) rfl fun _ _ h => by cases h
    · exact Executed.moves hpc .away (fun _ h => by cases h) (fun _ h => by cases h) rfl fun _ _ h => by cases h
  | storeFreed =>
    cases h
    exact .works _ .away rfl rfl (fun _ => ⟨rfl, rfl, rfl⟩) (fun _ h => by rw [hpc] at h; cases h)
      (fun _ h => by rw [hpc] at h; cases h) rfl fun _ _ h => by cases h
  | receive st =>
    simp only at h
    split at h
    · rename_i hev
      cases h
      exact .takes st _ _ _ hpc hev rfl rfl
    · rename_i hev
      cases h
      exact .takes st _ _ _ hpc hev rfl rfl
    · rename_i hev
      split at h <;> cases h
      exact Executed.moves hpc .away (fun st' h => by cases h; exact hev) (fun _ h => by cases h) rfl
        fun _ _ h => by cases h
  | decrement st =>
    cases h
    exact Executed.sets hpc _ st _ ⟨rfl, rfl, rfl⟩ (fun _ => Pc.noConfusion) (fun _ => Pc.noConfusion) rfl rfl
  | loadPaused st remaining =>
    cases h
    refine Executed.moves hpc _ (fun _ h => by cases h) (fun _ h => by cases h) ?_ fun st' id h => ?_
    · split <;> rfl
    · split at h <;> cases h
  | awaitRequestId st =>
    cases h
    refine Executed.moves hpc _ (fun _ h => by cases h) (fun _ h => by cases h) ?_ fun st' id h => ?_
    · split <;> rfl
    · split at h
      · rename_i hpos
        cases h
        exact .inr ⟨hpos, rfl⟩
      · cases h
  | delay st id =>
    cases h
    exact Executed.moves hpc _ (fun _ h => by cases h) (fun _ h => by cases h) rfl fun _ _ h => .inl h
  | storePaused st =>
    cases h
    exact Executed.sets hpc _ st _ ⟨rfl, rfl, rfl⟩ (fun _ => Pc.noConfusion) (fun _ => Pc.noConfusion) rfl rfl
  | loadId st =>
    cases h
    refine Executed.moves hpc _ (fun _ h => by cases h) (fun _ h => by cases h) ?_ fun st' id h => ?_
    · split <;> rfl
    · split at h <;> cases h

/-- A thread that goes on outside the engine has no stream to send. -/
theorem exec_here_sends {args : Bridge.SendArgs} (here : Streams.api args (s.threads t) = none)
    (h : s.exec t = some k) : (s.threads t).sends = none := by
  unfold Client.exec at h
  generalize s.threads t = q at h here
  cases q with
  | callSend st => cases here
  | inSend st => cases h
  | _ => rfl

/-- A thread goes into the engine: `send` with its stream, and the others without one. -/
theorem exec_there {args : Bridge.SendArgs} {x : Bridge.Api} (there : Streams.api args (s.threads t) = some x)
    (h : s.exec t = some k) : ∃ call p, k = (s.issue call).goto t p ∧ p.names = (s.threads t).names ∧
      ((∃ st, s.threads t = .callSend st ∧ p = .inSend st ∧ x = .send args) ∨
        (s.threads t).sends = none ∧ p.sends = none ∧ ∀ args', x ≠ .send args') := by
  unfold Client.exec at h
  generalize s.threads t = q at h there
  cases q with
  | callSend st =>
    cases h
    cases there
    exact ⟨_, _, rfl, rfl, .inl ⟨st, rfl, rfl, rfl⟩⟩
  | callClose | callFree | callResume st id | callCancel id =>
    cases h
    cases there
    exact ⟨_, _, rfl, rfl, .inr ⟨rfl, rfl, fun _ => Bridge.Api.noConfusion⟩⟩
  | _ => cases there

end Exec

end Hyper4k.Lifecycle
