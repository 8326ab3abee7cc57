import Hyper4k.Kotlin.ResponseStream
import Hyper4k.Runs.Threads

/-! The Kotlin client around its native handle: `send` and `close`, and the streams that keep
the raw handle, on any number of threads. -/
namespace Hyper4k.Lifecycle
open Bridge (Status)
open Kotlin (RequestState HighWater ClientEvent)
open Runs

abbrev StreamId := Nat
abbrev ThreadId := Nat

/-- `OPEN`, `CLOSING` and `FREED`. -/
inductive Stage
  | opened | closing | freed
  deriving DecidableEq, Repr

inductive NativeCall
  | send
  | resume (id : UInt64)
  | cancel (id : UInt64)
  | close
  | free
  deriving DecidableEq, Repr

/-- The next access of `send`, `close`, `next` or `cancel`; `inSend`, `inResume` and `inFree`
are inside the native call. -/
inductive Pc
  | away
  | loadLifecycle (highWater : HighWater)
  | callSend (st : StreamId)
  | inSend (st : StreamId)
  | storeId (st : StreamId) (id : UInt64)
  | compareAndSet
  | callClose
  | callFree
  | inFree
  | storeFreed
  | receive (st : StreamId)
  | decrement (st : StreamId)
  | loadPaused (st : StreamId) (remaining : Int32)
  | awaitRequestId (st : StreamId)
  | callResume (st : StreamId) (id : UInt64)
  | inResume (st : StreamId) (id : UInt64)
  | delay (st : StreamId) (id : UInt64)
  | storePaused (st : StreamId)
  | loadId (st : StreamId)
  | callCancel (id : UInt64)
  deriving DecidableEq, Repr

def DEFAULT_CHUNK_HIGH_WATER : HighWater := ⟨8, by decide⟩

/-- `handed` are the streams that `send` has returned; `issued` is a history of the calls
made on the native handle. -/
structure Client where
  lifecycle : Stage := .opened
  streams : StreamId → RequestState := fun _ => { highWater := DEFAULT_CHUNK_HIGH_WATER }
  nextStream : StreamId := 0
  handed : StreamId → Bool := fun _ => false
  threads : ThreadId → Pc := fun _ => .away
  issued : List NativeCall := []

namespace Client

def goto (s : Client) (t : ThreadId) (pc : Pc) : Client := { s with threads := Function.update s.threads t pc }

def setStream (s : Client) (st : StreamId) (x : RequestState) : Client :=
  { s with streams := Function.update s.streams st x }

def issue (s : Client) (call : NativeCall) : Client := { s with issued := s.issued ++ [call] }

def exec (s : Client) (t : ThreadId) : Option Client :=
  match s.threads t with
  | .loadLifecycle highWater =>
    if s.lifecycle = .opened then
      some (({ s with nextStream := s.nextStream + 1 }.setStream s.nextStream { highWater }).goto t
        (.callSend s.nextStream))
    else some (s.goto t .away)
  | .callSend st => some ((s.issue .send).goto t (.inSend st))
  | .storeId st id =>
    some (({ s with handed := Function.update s.handed st true }.setStream st
      { s.streams st with requestId := id.toInt64 }).goto t .away)
  | .compareAndSet =>
    if s.lifecycle = .opened then some ({ s with lifecycle := .closing }.goto t .callClose)
    else some (s.goto t .away)
  | .callClose => some ((s.issue .close).goto t .callFree)
  | .callFree => some ((s.issue .free).goto t .inFree)
  | .storeFreed => some ({ s with lifecycle := .freed }.goto t .away)
  | .receive st =>
    match (s.streams st).events with
    | .chunk _ :: rest => some ((s.setStream st { s.streams st with events := rest }).goto t (.decrement st))
    | _ :: rest => some ((s.setStream st { s.streams st with events := rest }).goto t .away)
    -- a closed channel makes `receive` throw, an open one suspends it
    | [] => if (s.streams st).closed then some (s.goto t .away) else none
  | .decrement st =>
    some ((s.setStream st { s.streams st with queued := (s.streams st).queued - 1 }).goto t
      (.loadPaused st ((s.streams st).queued - 1)))
  | .loadPaused st remaining =>
    some (s.goto t (if (s.streams st).paused = true ∧ remaining ≤ (s.streams st).highWater.val / 2
      then .awaitRequestId st else .away))
  | .awaitRequestId st =>
    some (s.goto t (if 0 < (s.streams st).requestId then .callResume st (s.streams st).requestId.toUInt64
      else .awaitRequestId st))
  | .callResume st id => some ((s.issue (.resume id)).goto t (.inResume st id))
  | .delay st id => some (s.goto t (.callResume st id))
  | .storePaused st => some ((s.setStream st { s.streams st with paused := false }).goto t .away)
  | .loadId st =>
    some (s.goto t (if 0 < (s.streams st).requestId then .callCancel (s.streams st).requestId.toUInt64 else .away))
  | .callCancel id => some ((s.issue (.cancel id)).goto t .away)
  | .away | .inSend _ | .inFree | .inResume .. => none

end Client

inductive Op
  | send (highWater : HighWater)
  | close
  | next (st : StreamId)
  | cancel (st : StreamId)
  deriving DecidableEq

def Op.start : Op → Pc
  | .send highWater => .loadLifecycle highWater
  | .close => .compareAndSet
  | .next st => .receive st
  | .cancel st => .loadId st

/-- Only a stream that `send` has returned can be used. -/
def Op.usable (handed : StreamId → Bool) : Op → Bool
  | .send _ | .close => true
  | .next st | .cancel st => handed st

/-- The accesses of the callbacks to the state of a request. -/
inductive Access
  | increment
  | trySend (event : ClientEvent)
  | storePaused
  | closeEvents
  deriving DecidableEq

def Access.on (x : RequestState) : Access → RequestState
  | .increment => { x with queued := x.queued + 1 }
  | .trySend event => x.trySend event
  | .storePaused => { x with paused := true }
  | .closeEvents => { x with closed := true }

/-- `returned` ends a native call, `throw` the marshalling of `send` or the wait of `close` for
its thread, and `callback` is one access of a callback, at any time. -/
inductive Act
  | begin (t : ThreadId) (op : Op)
  | exec (t : ThreadId)
  | returned (t : ThreadId) (status : Status) (id : UInt64)
  | throw (t : ThreadId)
  | callback (st : StreamId) (a : Access)
  deriving DecidableEq

def Client.step (s : Client) : Act → Option Client
  | .begin t op => match s.threads t with
    | .away => if op.usable s.handed then some (s.goto t op.start) else none
    | _ => none
  | .exec t => s.exec t
  | .returned t status id => match s.threads t with
    | .inSend st => some (s.goto t (if status = .ok then .storeId st id else .away))
    | .inResume st rid => some (s.goto t (if status = .notPaused then .delay st rid else .storePaused st))
    | .inFree => some (s.goto t .storeFreed)
    | _ => none
  | .throw t => match s.threads t with
    | .callSend _ | .callFree => some (s.goto t .away)
    | _ => none
  | .callback st a => some (s.setStream st (a.on (s.streams st)))

abbrev Client.Reaches (ok : Client → Act → Prop) (as : List Act) (s : Client) : Prop := Run Client.step ok {} as s

def Pc.calls : Pc → Bool
  | .callSend _ | .callClose | .callFree | .awaitRequestId _ | .callResume .. | .inResume .. | .delay ..
  | .callCancel _ => true
  | _ => false

/-- The thread has won the `compareAndSet` of `close` and not freed the engine yet. -/
def Pc.closes : Pc → Bool
  | .callClose | .callFree => true
  | _ => false

/-- The thread is at the access of `next` or `cancel` that decides for a call, and finds what
makes it call. -/
def Client.decides (s : Client) (t : ThreadId) : Bool :=
  match s.threads t with
  | .loadPaused st remaining =>
    (s.streams st).paused && decide (remaining ≤ (s.streams st).highWater.val / 2)
  | .loadId st => decide (0 < (s.streams st).requestId)
  | _ => false

/-- What a step does: a thread moves on, decides for a call on an open client or on a stream,
makes its call, or wins the `compareAndSet` of `close`. -/
inductive Client.Stepped (s : Client) : Act → Client → Prop
  | move {a : Act} {u : Client} (t : ThreadId) (p : Pc) (threads : u.threads = Function.update s.threads t p)
      (lifecycle : u.lifecycle = .opened → s.lifecycle = .opened) (issued : u.issued = s.issued)
      (closes : p.closes = true → (s.threads t).closes = true)
      (calls : p.calls = true → (s.threads t).calls = true) : s.Stepped a u
  | decide {u : Client} (t : ThreadId) (p : Pc) (threads : u.threads = Function.update s.threads t p)
      (lifecycle : u.lifecycle = s.lifecycle) (issued : u.issued = s.issued) (closes : p.closes = false)
      (decides : s.lifecycle = .opened ∨ s.decides t = true) : s.Stepped (.exec t) u
  | call {u : Client} (t : ThreadId) (p : Pc) (call : NativeCall) (threads : u.threads = Function.update s.threads t p)
      (lifecycle : u.lifecycle = s.lifecycle) (issued : u.issued = s.issued ++ [call])
      (calls : (s.threads t).calls = true) (closes : p.closes = true → (s.threads t).closes = true)
      (free : call = .free → s.threads t = .callFree ∧ p.calls = false) : s.Stepped (.exec t) u
  | closing (t : ThreadId) (opened : s.lifecycle = .opened) :
    s.Stepped (.exec t) ({ s with lifecycle := .closing }.goto t .callClose)
  | quiet {a : Act} {u : Client} (threads : u.threads = s.threads) (lifecycle : u.lifecycle = s.lifecycle)
      (issued : u.issued = s.issued) : s.Stepped a u

section Steps
variable {s u : Client} {t : ThreadId}

private theorem stepped_off {a : Act} (p : Pc) (threads : u.threads = Function.update s.threads t p)
    (lifecycle : u.lifecycle = .opened → s.lifecycle = .opened) (issued : u.issued = s.issued)
    (hp : p.calls = false) : s.Stepped a u := by
  have hcloses : p.closes = false := by
    cases p <;> first | rfl | cases hp
  refine .move t p threads lifecycle issued (fun hc => ?_) fun hc => ?_
  · rw [hcloses] at hc
    cases hc
  · rw [hp] at hc
    cases hc

private theorem stepped_call {q : Pc} (hpc : s.threads t = q) (p : Pc) (call : NativeCall)
    (threads : u.threads = Function.update s.threads t p) (lifecycle : u.lifecycle = s.lifecycle)
    (issued : u.issued = s.issued ++ [call]) (calls : q.calls = true) (closes : p.closes = true → q.closes = true)
    (other : call ≠ .free) : s.Stepped (.exec t) u := by
  subst hpc
  exact .call t p call threads lifecycle issued calls closes fun hf => absurd hf other

private theorem exec_cases (h : s.exec t = some u) : s.Stepped (.exec t) u := by
  have same : s.lifecycle = .opened → s.lifecycle = .opened := id
  unfold Client.exec at h
  generalize hpc : s.threads t = q at h
  cases q with
  | away | inSend st | inFree | inResume st id => cases h
  | loadLifecycle highWater =>
    simp only at h
    split at h <;> cases h
    · exact .decide t _ rfl rfl rfl rfl (.inl (by assumption))
    · exact stepped_off _ rfl same rfl rfl
  | compareAndSet =>
    simp only at h
    split at h <;> cases h
    · exact .closing t (by assumption)
    · exact stepped_off _ rfl same rfl rfl
  | callSend st =>
    cases h
    exact stepped_call hpc _ .send rfl rfl rfl rfl (fun hc => (by cases hc)) NativeCall.noConfusion
  | callClose =>
    cases h
    exact stepped_call hpc _ .close rfl rfl rfl rfl (fun _ => rfl) NativeCall.noConfusion
  | callResume st id =>
    cases h
    exact stepped_call hpc _ (.resume id) rfl rfl rfl rfl (fun hc => (by cases hc)) NativeCall.noConfusion
  | callCancel id =>
    cases h
    exact stepped_call hpc _ (.cancel id) rfl rfl rfl rfl (fun hc => (by cases hc)) NativeCall.noConfusion
  | callFree =>
    cases h
    exact .call t _ .free rfl rfl rfl (by rw [hpc]; rfl) (fun hc => (by cases hc)) fun _ => ⟨hpc, rfl⟩
  | storeFreed =>
    cases h
    exact stepped_off _ rfl (fun hl => (by cases hl)) rfl rfl
  | storeId st id | decrement st | storePaused st =>
    cases h
    exact stepped_off _ rfl same rfl rfl
  | receive st =>
    simp only at h
    repeat' split at h
    all_goals cases h
    all_goals exact stepped_off _ rfl same rfl rfl
  | loadPaused st remaining =>
    cases h
    split
    · rename_i hdue
      refine .decide t _ rfl rfl rfl rfl (.inr ?_)
      simp only [Client.decides, hpc, hdue.1, Bool.true_and]
      exact decide_eq_true hdue.2
    · exact stepped_off _ rfl same rfl rfl
  | loadId st =>
    cases h
    split
    · rename_i hid
      refine .decide t _ rfl rfl rfl rfl (.inr ?_)
      simp only [Client.decides, hpc]
      exact decide_eq_true hid
    · exact stepped_off _ rfl same rfl rfl
  | awaitRequestId st =>
    cases h
    refine .move t _ rfl same rfl (fun hc => ?_) fun _ => by rw [hpc]; rfl
    split at hc <;> cases hc
  | delay st id =>
    cases h
    exact .move t _ rfl same rfl (fun hc => (by cases hc)) fun _ => by rw [hpc]; rfl

end Steps

theorem Client.step_cases {s u : Client} {a : Act} (h : s.step a = some u) : s.Stepped a u := by
  have same : s.lifecycle = .opened → s.lifecycle = .opened := id
  cases a with
  | exec t => exact exec_cases h
  | begin t op =>
    simp only [Client.step] at h
    repeat' split at h
    all_goals cases h
    refine stepped_off op.start rfl same rfl ?_
    cases op <;> rfl
  | returned t status id =>
    simp only [Client.step] at h
    split at h <;> cases h
    · refine stepped_off _ rfl same rfl ?_
      split <;> rfl
    · rename_i hpc
      refine .move t _ rfl same rfl (fun hc => ?_) fun _ => by rw [hpc]; rfl
      split at hc <;> cases hc
    · exact stepped_off _ rfl same rfl rfl
  | throw t =>
    simp only [Client.step] at h
    split at h <;> cases h <;> exact stepped_off _ rfl same rfl rfl
  | callback st x =>
    cases h
    exact .quiet rfl rfl rfl

/-- `close` frees the engine when no other thread is about to call it, and no stream decides
for a call once `free` has started. -/
def Client.Quiesced (s : Client) : Act → Prop
  | .exec t => (s.threads t = .callFree → ∀ u, u ≠ t → (s.threads u).calls = false) ∧
      (s.decides t = true → NativeCall.free ∉ s.issued)
  | _ => True

/-- At most one thread closes, and none before the client has left `OPEN`; once `free` has
started the client is not open, nobody is about to call, and `free` is the last call. -/
structure Client.Exclusive (s : Client) : Prop where
  opened : s.lifecycle = .opened → Nowhere (fun p : Pc => p.closes = true) s.threads
  sole : Sole (fun p : Pc => p.closes = true) s.threads
  freed : NativeCall.free ∈ s.issued → s.lifecycle ≠ .opened ∧ Nowhere (fun p : Pc => p.calls = true) s.threads ∧
    ∃ before, s.issued = before ++ [NativeCall.free] ∧ NativeCall.free ∉ before

theorem Client.Exclusive.init : ({} : Client).Exclusive where
  opened _ _ h := by cases h
  sole _ _ h := by cases h
  freed h := by cases h

private theorem Client.Exclusive.keep {s u : Client} (hs : s.Exclusive) {t : ThreadId} {p : Pc}
    (threads : u.threads = Function.update s.threads t p) (lifecycle : u.lifecycle = .opened → s.lifecycle = .opened)
    (issued : u.issued = s.issued) (closes : p.closes = true → (s.threads t).closes = true)
    (calls : NativeCall.free ∈ s.issued → p.calls = true → (s.threads t).calls = true) : u.Exclusive := by
  refine ⟨fun ho => ?_, ?_, fun hf => ?_⟩
  · rw [threads]
    exact (hs.opened (lifecycle ho)).update fun hp => hs.opened (lifecycle ho) t (closes hp)
  · rw [threads]
    exact hs.sole.keep closes
  · rw [issued] at hf
    obtain ⟨hopen, hnowhere, hlast⟩ := hs.freed hf
    refine ⟨fun ho => hopen (lifecycle ho), ?_, by rwa [issued]⟩
    rw [threads]
    exact hnowhere.update fun hp => hnowhere t (calls hf hp)

theorem Client.Exclusive.step {s u : Client} {a : Act} (hok : s.Quiesced a) (hs : s.Exclusive) (h : s.Stepped a u) :
    u.Exclusive := by
  cases h with
  | move t p threads lifecycle issued closes calls => exact hs.keep threads lifecycle issued closes fun _ => calls
  | decide t p threads lifecycle issued closes decides =>
    refine hs.keep threads (fun ho => lifecycle ▸ ho) issued (fun hc => ?_) fun hf => ?_
    · rw [closes] at hc
      cases hc
    · rcases decides with hopen | hdecides
      · exact absurd hopen (hs.freed hf).1
      · exact absurd hf (hok.2 hdecides)
  | call t p call threads lifecycle issued calls closes free =>
    have hnot : NativeCall.free ∉ s.issued := fun hf => (hs.freed hf).2.1 t calls
    refine ⟨fun ho => ?_, ?_, fun hf => ?_⟩
    · rw [lifecycle] at ho
      rw [threads]
      exact (hs.opened ho).update fun hp => hs.opened ho t (closes hp)
    · rw [threads]
      exact hs.sole.keep closes
    · rw [issued, List.mem_append, List.mem_singleton] at hf
      have hcall : call = .free := (hf.resolve_left hnot).symm
      obtain ⟨hpc, hp⟩ := free hcall
      refine ⟨fun ho => ?_, ?_, s.issued, by rw [issued, hcall], hnot⟩
      · rw [lifecycle] at ho
        exact hs.opened ho t (by rw [hpc]; rfl)
      · rw [threads]
        refine nowhere_update (by rw [hp]; exact Bool.false_ne_true) fun v hv hc => ?_
        rw [hok.1 hpc v hv] at hc
        cases hc
  | closing t opened =>
    refine ⟨fun ho => (by cases ho), (hs.opened opened).enter, fun hf => absurd opened (hs.freed hf).1⟩
  | quiet threads lifecycle issued =>
    refine ⟨?_, ?_, ?_⟩
    · rw [lifecycle, threads]
      exact hs.opened
    · rw [threads]
      exact hs.sole
    · rw [issued, lifecycle, threads]
      exact hs.freed

theorem Client.Reaches.exclusive {as : List Act} {s : Client} (h : Client.Reaches Client.Quiesced as s) : s.Exclusive :=
  Run.invariant (I := Client.Exclusive) h (fun _ _ _ hok hs hstep => hs.step hok (Client.step_cases hstep)) .init

/-- Where `close` frees the engine only when nobody else is about to call it, and streams
decide for no call afterwards, nothing is called at or after `free`, and `free` itself once. -/
theorem engine_not_called_after_free {as : List Act} {s : Client} (h : Client.Reaches Client.Quiesced as s) :
    s.issued.count .free ≤ 1 ∧ ∀ before after, s.issued = before ++ NativeCall.free :: after → after = [] := by
  have hs := Client.Reaches.exclusive h
  by_cases hf : NativeCall.free ∈ s.issued
  · obtain ⟨-, -, first, hlast, hnot⟩ := hs.freed hf
    constructor
    · rw [hlast, List.count_append, List.count_eq_zero_of_not_mem hnot]
      exact Nat.le_refl 1
    · intro before after hsplit
      rw [hlast] at hsplit
      exact ((List.append_cons_inj_of_notMem hnot List.not_mem_nil).mp hsplit).2.2.symm
  · constructor
    · rw [List.count_eq_zero_of_not_mem hf]
      exact Nat.zero_le 1
    · intro before after hsplit
      exact absurd (hsplit ▸ List.mem_append_right before List.mem_cons_self) hf

private theorem quiet_elsewhere {s : Client} (h : ∀ u, s.threads (u + 1) = .away) (u : ThreadId) (hu : u ≠ 0) :
    (s.threads u).calls = false := by
  obtain ⟨v, rfl⟩ := Nat.exists_eq_succ_of_ne_zero hu
  rw [h v]
  rfl

def sentAndFreed : List Act :=
  Act.begin 0 (.send DEFAULT_CHUNK_HIGH_WATER) :: List.replicate 2 (.exec 0) ++ Act.returned 0 .ok 1 :: .exec 0 ::
    .begin 0 .close :: List.replicate 3 (.exec 0)

theorem engine_not_called_after_free_closed : ∃ s, Client.Reaches Client.Quiesced sentAndFreed s ∧
    s.issued = [.send, .close, .free] ∧
    (s.issued.count .free ≤ 1 ∧ ∀ before after, s.issued = before ++ NativeCall.free :: after → after = []) := by
  have hquiet : ∀ {s : Client}, s.threads 0 ≠ .callFree → s.decides 0 = false → s.Quiesced (.exec 0) := by
    intro s hpc hd
    refine ⟨fun h => absurd h hpc, fun h => ?_⟩
    rw [hd] at h
    cases h
  have hrun : ∃ s, Client.Reaches Client.Quiesced sentAndFreed s ∧ s.issued = [.send, .close, .free] := by
    refine ⟨_, .cons trivial rfl <| .cons (hquiet (by decide) rfl) rfl <| .cons (hquiet (by decide) rfl) rfl <|
      .cons trivial rfl <| .cons (hquiet (by decide) rfl) rfl <| .cons trivial rfl <|
      .cons (hquiet (by decide) rfl) rfl <| .cons (hquiet (by decide) rfl) rfl <|
      .cons ⟨fun _ => quiet_elsewhere fun _ => rfl, fun h => ?_⟩ rfl <| .nil _, rfl⟩
    cases h
  obtain ⟨s, hs, hissued⟩ := hrun
  exact ⟨s, hs, hissued, engine_not_called_after_free hs⟩

/-- A stream is cancelled after its client was closed: it still has the raw handle and a
request id, and calls into the engine that has been freed. -/
theorem stream_calls_freed_engine : ¬ ∀ (as : List Act) (s : Client), Client.Reaches anyStep as s →
    s.issued.count .free ≤ 1 ∧ ∀ before after, s.issued = before ++ NativeCall.free :: after → after = [] := by
  intro h
  have hrun : (replay Client.step anyStep {} (sentAndFreed ++ Act.returned 0 .ok 0 :: .exec 0 ::
      .begin 0 (.cancel 0) :: List.replicate 2 (.exec 0))).map (fun s => (s.lifecycle, s.issued)) =
      some (.freed, [.send, .close, .free, .cancel 1]) := by decide
  obtain ⟨s, hs, hcalls⟩ := Option.map_eq_some_iff.mp hrun
  have hnil := (h _ s (run_of_replay hs)).2 [.send, .close] [.cancel 1] (Prod.mk.inj hcalls).2
  cases hnil

/-- Thread 1 has found the client open when thread 0 closes it. -/
example : (replay Client.step anyStep {} (Act.begin 1 (.send DEFAULT_CHUNK_HIGH_WATER) :: .exec 1 :: .begin 0 .close ::
    List.replicate 3 (.exec 0) ++ [Act.exec 1])).map (fun s => s.issued) = some [.close, .free, .send] := by decide

/-- A buffered chunk is taken after `close`, and the paused stream is resumed. -/
example : (replay Client.step anyStep {} (Act.begin 0 (.send ⟨1, by decide⟩) :: List.replicate 2 (.exec 0) ++
    Act.returned 0 .ok 1 :: .exec 0 :: .callback 0 .increment :: .callback 0 (.trySend (.chunk [7])) ::
    .callback 0 .storePaused :: .begin 0 .close :: List.replicate 3 (.exec 0) ++ Act.returned 0 .ok 0 :: .exec 0 ::
    .begin 0 (.next 0) :: List.replicate 5 (.exec 0))).map (fun s => s.issued) =
    some [.send, .close, .free, .resume 1] := by decide

end Hyper4k.Lifecycle
