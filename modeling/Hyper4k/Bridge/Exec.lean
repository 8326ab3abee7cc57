import Hyper4k.Bridge.Slot

/-! The next instruction of a thread that is working on a slot. -/
namespace Hyper4k.Bridge

/-- How the network task goes on after an attempt. A budget fault would stop the
task here; `Retry.iteration_cases` excludes it. -/
def Attempt.next (a : Attempt) (o : Retry.Outcome Event) : Option Pc :=
  match Retry.iteration a.idempotent a.budget o with
  | .ok (.inl budget) => some (.acquire { a with budget })
  | .ok (.inr (.settle t)) => some (.claim .task t true)
  | .ok (.inr (.deliver ev)) => some (.sendState ev)
  | .error _ => none

/-- The instruction at a program counter, where the code alone decides what happens.
`none` at the points that wait for something else. -/
def Slot.exec (s : Slot) : Pc → Option Outcome
  | .swapRunning n =>
    if s.running then some ⟨s, .bounce, .quiet⟩
    else some ⟨{ s with running := true }, .clearScheduled n, .quiet⟩
  | .bounce => some ⟨{ s with scheduled := false }, .away, .quiet⟩
  | .releaseRunning more => some ⟨{ s with running := false }, .loadFinished more, .quiet⟩
  | .loadFinished more =>
    if s.finishedFlag then some ⟨s, .away, .quiet⟩
    else if more then some ⟨s, .requeue, .quiet⟩
    else some ⟨s, .recheckQueue, .quiet⟩
  | .recheckQueue =>
    if s.queue.isEmpty then some ⟨s, .away, .quiet⟩ else some ⟨s, .requeue, .quiet⟩
  -- worker_loop pushes the slot back without touching `scheduled`
  | .requeue => some ⟨s, .away, .push⟩
  | .clearScheduled n => some ⟨{ s with scheduled := false }, .loadPaused n, .quiet⟩
  | .loadPaused n =>
    if s.paused then some ⟨s, .releaseRunning false, .quiet⟩ else some ⟨s, .iterate n, .quiet⟩
  | .iterate n =>
    match n with
    | 0 => some ⟨s, .checkEmpty, .quiet⟩
    | n + 1 =>
      if s.paused then some ⟨s, .releaseRunning false, .quiet⟩ else some ⟨s, .popFront n, .quiet⟩
  | .popFront n =>
    match s.queue with
    | [] => some ⟨s, .checkEmpty, .quiet⟩
    | ev :: rest => some ⟨{ s with queue := rest }, .addPermits n ev, .quiet⟩
  | .addPermits n ev => some ⟨{ s with space := s.space + 1 }, .loadState n ev, .quiet⟩
  | .loadState n ev =>
    if s.state = .terminalDiscard then some ⟨{ s with dropped := s.dropped ++ [ev] }, .iterate n, .quiet⟩
    else some ⟨s, .setInCallback n ev, .quiet⟩
  | .setInCallback n ev => some ⟨{ s with inCallback := true }, .deliver n ev, .quiet⟩
  | .deliver n ev =>
    match ev.callback s.onChunk with
    | some cb =>
      some ⟨{ s with handed := s.handed ++ [ev], trace := s.trace ++ [cb] }, .inCallback n ev, .quiet⟩
    | none => some ⟨{ s with handed := s.handed ++ [ev] }, .clearInCallback n none, .quiet⟩
  | .clearInCallback n action =>
    match action with
    | some .cancel => some ⟨{ s with inCallback := false }, .cancelPermit, .quiet⟩
    | some .pause => some ⟨{ s with inCallback := false }, .swapPermit n, .quiet⟩
    | _ => some ⟨{ s with inCallback := false }, .clearPermit n, .quiet⟩
  | .clearPermit n => some ⟨{ s with permit := false }, .iterate n, .quiet⟩
  | .swapPermit n =>
    if s.permit then some ⟨{ s with permit := false }, .iterate n, .quiet⟩
    else some ⟨s, .enterPause, .quiet⟩
  | .cancelPermit =>
    some ⟨{ s with permit := false },
      .claim .callback { kind := .cancelled, message := "cancelled by callback" } true, .quiet⟩
  | .checkEmpty =>
    if s.queue.isEmpty then some ⟨s, .loadDone, .quiet⟩ else some ⟨s, .releaseRunning true, .quiet⟩
  | .loadDone =>
    if s.doneReady then some ⟨s, .takeTerminal, .quiet⟩ else some ⟨s, .releaseRunning false, .quiet⟩
  | .takeTerminal =>
    match s.terminal with
    | some t => some ⟨{ s with terminal := none }, .deliverDone t, .quiet⟩
    | none => some ⟨s, .releaseRunning false, .quiet⟩
  | .deliverDone t => some ⟨{ s with trace := s.trace ++ [.onDone t.error] }, .inDone, .quiet⟩
  | .inDone => some ⟨s, .storeFinished, .quiet⟩
  | .storeFinished => some ⟨{ s with finishedFlag := true }, .takeFinished, .quiet⟩
  | .takeFinished =>
    if s.finished then some ⟨{ s with finished := false }, .dropBytes, .quiet⟩
    else some ⟨s, .leave, .quiet⟩
  | .dropBytes => some ⟨s, .dropInflight, .dropBytes⟩
  | .dropInflight => some ⟨s, .removeRequest, .dropInflight⟩
  | .removeRequest => some ⟨s, .leave, .removeRequest⟩
  | .leave => some ⟨s, .releaseRunning false, .leave⟩
  | .enterPause => some ⟨{ s with paused := true }, .newGuard, .quiet⟩
  | .newGuard => some ⟨s, .storeGuard s.conn, .newGuard s.conn⟩
  | .storeGuard guard => some ⟨{ s with pauseGuard := guard }, .releaseRunning false, .dropGuard s.pauseGuard⟩
  | .claim c t discard =>
    if s.state = .running then
      some ⟨{ s with state := if discard then .terminalDiscard else .terminalDrain },
        .storeTerminal c t discard, .quiet⟩
    else if discard then some ⟨s, .lostPaused c, .quiet⟩
    else some ⟨s, .settled c, .quiet⟩
  | .lostPaused c =>
    if s.paused then some ⟨s, .leavePause (.settled c), .quiet⟩ else some ⟨s, .settled c, .quiet⟩
  | .storeTerminal c t discard => some ⟨{ s with terminal := some t }, .storeDone c discard, .quiet⟩
  | .storeDone c discard => some ⟨{ s with doneReady := true }, .wakeProducer c discard, .quiet⟩
  | .wakeProducer c discard =>
    if discard then some ⟨{ s with space := s.space + 1 }, .wonPaused c, .quiet⟩
    else some ⟨{ s with space := s.space + 1 }, .swapScheduled (.settled c), .quiet⟩
  | .wonPaused c =>
    if s.paused then some ⟨s, .leavePause (.settled c), .quiet⟩
    else some ⟨s, .swapScheduled (.settled c), .quiet⟩
  | .leavePause k => some ⟨{ s with paused := false }, .dropGuard k, .quiet⟩
  | .dropGuard k => some ⟨{ s with pauseGuard := none }, .swapScheduled k, .dropGuard s.pauseGuard⟩
  | .swapScheduled k =>
    if s.scheduled then some ⟨s, .scheduled k, .quiet⟩
    else some ⟨{ s with scheduled := true }, .pushReady k, .quiet⟩
  | .pushReady k => some ⟨s, .scheduled k, .push⟩
  | .scheduled k =>
    match k with
    | .settled c => some ⟨s, .settled c, .quiet⟩
    | .resumed => some ⟨s, .returned .ok, .quiet⟩
    | .sent => some ⟨s, .frame, .quiet⟩
  | .settled c =>
    match c with
    | .callback => some ⟨s, .releaseRunning false, .quiet⟩
    | .task => some ⟨{ s with abort := false, aborted := s.aborted || s.abort }, .ended, .quiet⟩
    | .cancel => some ⟨{ s with abort := false, aborted := s.aborted || s.abort }, .returned .ok, .quiet⟩
    | .close => some ⟨{ s with abort := false, aborted := s.aborted || s.abort }, .away, .quiet⟩
  | .resumePaused =>
    if s.paused then some ⟨s, .leavePause .resumed, .quiet⟩ else some ⟨s, .resumeInCallback, .quiet⟩
  | .resumeInCallback =>
    if s.inCallback then some ⟨s, .resumePermit, .quiet⟩ else some ⟨s, .resumeState, .quiet⟩
  | .resumePermit => some ⟨{ s with permit := true }, .returned .ok, .quiet⟩
  | .resumeState =>
    if s.state = .running then some ⟨s, .returned .notPaused, .quiet⟩
    else some ⟨s, .returned .alreadyDone, .quiet⟩
  | .cancelState =>
    if s.state = .running then
      some ⟨s, .claim .cancel { kind := .cancelled, message := "cancelled" } true, .quiet⟩
    else some ⟨s, .returned .alreadyDone, .quiet⟩
  | .returned _ => some ⟨s, .away, .quiet⟩
  | .bind a conn => some ⟨{ s with conn := some conn }, .trySend a, .quiet⟩
  | .loadCommitted a unsent =>
    match Retry.iteration a.idempotent a.budget (.sendFailed unsent s.committed) with
    | .ok (.inl budget) => some ⟨s, .acquire { a with budget }, .quiet⟩
    | .ok (.inr (.settle t)) => some ⟨s, .claim .task t true, .quiet⟩
    | .ok (.inr (.deliver ev)) => some ⟨s, .sendState ev, .quiet⟩
    | .error _ => none
  | .sendState ev =>
    if s.state = .running then some ⟨s, .acquirePermit ev, .quiet⟩ else some ⟨s, .ended, .quiet⟩
  | .acquirePermit ev =>
    if 0 < s.space then some ⟨{ s with space := s.space - 1 }, .recheckState ev, .quiet⟩ else none
  -- a refused send drops its permit, which returns it
  | .recheckState ev =>
    if s.state = .running then some ⟨s, .markCommitted ev, .quiet⟩
    else some ⟨{ s with space := s.space + 1 }, .ended, .quiet⟩
  | .markCommitted ev => some ⟨{ s with committed := true }, .pushEvent ev, .quiet⟩
  | .pushEvent ev =>
    some ⟨{ s with queue := s.queue ++ [ev], pushed := s.pushed ++ [ev] }, .sendPaused, .quiet⟩
  | .sendPaused =>
    if s.paused then some ⟨s, .frame, .quiet⟩ else some ⟨s, .swapScheduled .sent, .quiet⟩
  | .away | .inCallback .. | .acquire _ | .trySend _ | .frame | .ended => none

/-- What the world outside the bridge decides: the action a callback returns, how an
attempt ends, the next frame, and when a timeout or an abort strikes. -/
inductive Choice
  | action (a : ChunkAction)
  | connectFailed (kind : ErrorKind)
  | leased (conn : ConnId)
  | leasedClosed
  | unbuildable
  | sendFailed (unsent : Bool)
  | response (status : UInt16) (version : UInt8) (fields : List (Bytes × Bytes))
  | frame (f : Frame)
  | bodyEnd
  | bodyFailed
  | idleTimeout
  | requestTimeout
  | aborted
  deriving DecidableEq, Repr

def Pc.awaits : Pc → Bool
  | .acquire _ | .trySend _ | .acquirePermit _ | .frame => true
  | _ => false

def Slot.go (s : Slot) : Option Pc → Option Outcome
  | some pc => some ⟨s, pc, .quiet⟩
  | none => none

/-- `deliver_response` on one frame: only non-empty data is sent on. -/
def Slot.receive (s : Slot) (f : Frame) : Outcome :=
  ⟨{ s with frames := s.frames ++ [f] }, match f with
    | .data [] => .frame
    | .data (b :: bs) => .sendState (.chunk (b :: bs))
    | .trailers => .frame, .quiet⟩

def Slot.env (s : Slot) (pc : Pc) : Choice → Option Outcome
  | .action a => match pc with
    | .inCallback n ev => some ⟨s, .clearInCallback n (ev.action a), .quiet⟩
    | _ => none
  -- no connector reports `NONE`
  | .connectFailed kind => match pc with
    | .acquire a => if kind = .none then none else s.go (a.next (.acquireFailed kind))
    | _ => none
  | .leased conn => match pc with
    | .acquire a => some ⟨s, .bind a conn, .quiet⟩
    | _ => none
  | .leasedClosed => match pc with
    | .acquire a => s.go (a.next .closed)
    | _ => none
  | .unbuildable => match pc with
    | .trySend a => s.go (a.next .unbuildable)
    | _ => none
  | .sendFailed unsent => match pc with
    | .trySend a => some ⟨s, .loadCommitted a unsent, .quiet⟩
    | _ => none
  | .response status version fields => match pc with
    | .trySend a =>
      let head := .headers status version fields
      { s with head := some head }.go (a.next (.response head))
    | _ => none
  | .frame f => match pc with
    | .frame => some (s.receive f)
    | _ => none
  | .bodyEnd => match pc with
    | .frame => some ⟨s, .claim .task { kind := .none, message := "" } false, .quiet⟩
    | _ => none
  | .bodyFailed => match pc with
    | .frame => some ⟨s, .claim .task { kind := .truncated, message := "response truncated" } true, .quiet⟩
    | _ => none
  | .idleTimeout => match pc with
    | .frame =>
      some ⟨s, .claim .task { kind := .idleTimeout, message := "idle timeout between chunks" } true, .quiet⟩
    | _ => none
  | .requestTimeout =>
    if pc.awaits then some ⟨s, .claim .task { kind := .timeout, message := "request timeout" } true, .quiet⟩
    else none
  | .aborted => if pc.awaits && s.aborted then some ⟨s, .ended, .quiet⟩ else none

/-- After an attempt the task tries again, settles with an error, or holds a response. -/
theorem Attempt.next_cases {a : Attempt} {r : Retry.Outcome Event} {pc : Pc} (h : a.next r = some pc)
    (hk : ∀ kind, r = .acquireFailed kind → kind ≠ .none) :
    (∃ b, pc = .acquire b) ∨ (∃ t : Terminal, t.kind ≠ .none ∧ pc = .claim .task t true) ∨
    (∃ ev, r = .response ev ∧ pc = .sendState ev) := by
  simp only [Attempt.next] at h
  split at h <;> cases h
  case h_1 => exact .inl ⟨_, rfl⟩
  case h_2 t ht => exact .inr (.inl ⟨t, Retry.iteration_settles ht hk, rfl⟩)
  case h_3 ev hev => exact .inr (.inr ⟨ev, Retry.iteration_delivers hev, rfl⟩)

private theorem go_some {s : Slot} {p : Option Pc} {o : Outcome} (h : s.go p = some o) :
    ∃ pc, p = some pc ∧ o = ⟨s, pc, .quiet⟩ := by
  cases p with
  | none => cases h
  | some pc =>
    cases h
    exact ⟨pc, rfl, rfl⟩

inductive Slot.EnvStep (s : Slot) : Pc → Outcome → Prop
  | answered (n : Nat) (ev : Event) (a : ChunkAction) :
    s.EnvStep (.inCallback n ev) ⟨s, .clearInCallback n (ev.action a), .quiet⟩
  | again (a b : Attempt) : s.EnvStep (.acquire a) ⟨s, .acquire b, .quiet⟩
  | leased (a : Attempt) (conn : ConnId) : s.EnvStep (.acquire a) ⟨s, .bind a conn, .quiet⟩
  | sendFailed (a : Attempt) (unsent : Bool) : s.EnvStep (.trySend a) ⟨s, .loadCommitted a unsent, .quiet⟩
  | responded (a : Attempt) (status : UInt16) (version : UInt8) (fields : List (Bytes × Bytes)) :
    s.EnvStep (.trySend a) ⟨{ s with head := some (.headers status version fields) },
      .sendState (.headers status version fields), .quiet⟩
  | received (f : Frame) : s.EnvStep .frame (s.receive f)
  | bodyEnd : s.EnvStep .frame ⟨s, .claim .task { kind := .none, message := "" } false, .quiet⟩
  | failed (pc : Pc) (t : Terminal) (waits : pc.awaits = true) (kind : t.kind ≠ .none) :
    s.EnvStep pc ⟨s, .claim .task t true, .quiet⟩
  | aborted (pc : Pc) (waits : pc.awaits = true) : s.EnvStep pc ⟨s, .ended, .quiet⟩

theorem Slot.env_cases {s : Slot} {pc : Pc} {c : Choice} {o : Outcome} (h : s.env pc c = some o) :
    s.EnvStep pc o := by
  cases c with
  | action a =>
    simp only [Slot.env] at h
    split at h <;> cases h
    exact .answered _ _ a
  | connectFailed kind =>
    simp only [Slot.env] at h
    split at h
    case h_2 => cases h
    case h_1 a =>
      split at h
      · cases h
      · rename_i hk
        obtain ⟨pc, hn, rfl⟩ := go_some h
        rcases Attempt.next_cases hn (fun k e => by cases e; exact hk) with
          ⟨b, rfl⟩ | ⟨t, ht, rfl⟩ | ⟨ev, he, -⟩
        · exact .again a b
        · exact .failed _ t rfl ht
        · cases he
  | leased conn =>
    simp only [Slot.env] at h
    split at h <;> cases h
    exact .leased _ conn
  | leasedClosed =>
    simp only [Slot.env] at h
    split at h
    case h_2 => cases h
    case h_1 a =>
      obtain ⟨pc, hn, rfl⟩ := go_some h
      rcases Attempt.next_cases hn (fun k e => by cases e) with ⟨b, rfl⟩ | ⟨t, ht, rfl⟩ | ⟨ev, he, -⟩
      · exact .again a b
      · exact .failed _ t rfl ht
      · cases he
  | unbuildable =>
    simp only [Slot.env] at h
    split at h <;> cases h
    exact .failed _ _ rfl ErrorKind.noConfusion
  | sendFailed unsent =>
    simp only [Slot.env] at h
    split at h <;> cases h
    exact .sendFailed _ unsent
  | response status version fields =>
    simp only [Slot.env] at h
    split at h <;> cases h
    exact .responded _ status version fields
  | frame f =>
    simp only [Slot.env] at h
    split at h <;> cases h
    exact .received f
  | bodyEnd =>
    simp only [Slot.env] at h
    split at h <;> cases h
    exact .bodyEnd
  | bodyFailed =>
    simp only [Slot.env] at h
    split at h <;> cases h
    exact .failed _ _ rfl ErrorKind.noConfusion
  | idleTimeout =>
    simp only [Slot.env] at h
    split at h <;> cases h
    exact .failed _ _ rfl ErrorKind.noConfusion
  | requestTimeout =>
    simp only [Slot.env] at h
    split at h
    · rename_i ha
      cases h
      exact .failed _ _ ha ErrorKind.noConfusion
    · cases h
  | aborted =>
    simp only [Slot.env] at h
    split at h
    · rename_i ha
      cases h
      exact .aborted _ (Bool.and_eq_true_iff.mp ha).1
    · cases h

end Hyper4k.Bridge
