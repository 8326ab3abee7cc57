import Hyper4k.Bridge.Retry
import Hyper4k.Pooling.Leasing
import Hyper4k.Pooling.Shutdown

/-! The tasks of `attempt_loop` over one pool: each leases a connection, carries one exchange
over it, and may be stopped at any await; every way out drops the lease. -/
namespace Hyper4k.Pooling
open Bridge (ConnId ErrorKind)
open Runs

/-- What an attempt needs of its request for the next one. -/
structure Job where
  key : PoolKey
  idempotent : Bool
  budget : UInt32
  deriving DecidableEq, Repr

/-- What `body.frame()` yields; `data` tells whether there are bytes in it. -/
inductive Frame
  | data (bytes : Bool)
  | error
  | finished
  deriving DecidableEq, Repr

/-- Where `attempt_loop` is. `drop` is the drop of the lease, on the way to the next attempt or
out of the loop. -/
inductive AttemptPc
  | idle
  | acquire (j : Job)
  | isClosed (j : Job)
  | build (j : Job)
  | send (j : Job)
  | sendHeaders
  | frame
  | sendChunk
  | drop (again : Option Job)
  deriving DecidableEq, Repr

/-- The tasks and their pool. `unfinished` tells of a connection that a request was handed to it
whose response it has not had to the end. -/
structure Attempts where
  net : ClosingPool := {}
  jobs : TaskId → AttemptPc := fun _ => .idle
  unfinished : ConnId → Bool := fun _ => false

inductive AttemptAct
  | net (b : ShutAct)
  | start (t : TaskId) (j : Job)
  | acquired (t : TaskId)
  | isClosed (t : TaskId)
  | built (t : TaskId) (ok : Bool)
  | response (t : TaskId)
  | sendFailed (t : TaskId) (unsent committed : Bool)
  | queued (t : TaskId) (accepted : Bool)
  | frame (t : TaskId) (f : Frame)
  | idleTimeout (t : TaskId)
  | stop (t : TaskId)
  | dropped (t : TaskId)
  | complete (c : ConnId)
  deriving DecidableEq

namespace Attempts

def goto (s : Attempts) (t : TaskId) (pc : AttemptPc) : Attempts := { s with jobs := Function.update s.jobs t pc }

def setUnfinished (s : Attempts) (c : ConnId) (b : Bool) : Attempts :=
  { s with unfinished := Function.update s.unfinished c b }

def drive (limits : Limits) (s : Attempts) (a : Act) (t : TaskId) (pc : AttemptPc) : Option Attempts :=
  (s.net.step limits (.pool a)).map fun net => { s with net }.goto t pc

/-- Leaving an attempt: the lease goes out of scope. -/
def leave (limits : Limits) (s : Attempts) (t : TaskId) (again : Option Job) : Option Attempts :=
  s.drive limits (.dropLease t) t (.drop again)

def retried (j : Job) : Job := { j with budget := j.budget - 1 }

/-- The pool on its own: `acquire` and the drop of a lease go on, but a task begins them. -/
def alone : ShutAct → Bool
  | .pool (.acquire _ _) | .pool (.abandon _) | .pool (.dropLease _) | .pool (.forget _) => false
  | _ => true

def step (limits : Limits) (s : Attempts) : AttemptAct → Option Attempts
  | .net b => if alone b then (s.net.step limits b).map fun net => { s with net } else none
  | .start t j => match s.jobs t with
    | .idle => s.drive limits (.acquire t j.key) t (.acquire j)
    | _ => none
  | .acquired t => match s.jobs t, s.net.pool.tasks t with
    | .acquire j, .leased _ => some (s.goto t (.isClosed j))
    | .acquire _, .failed _ => s.drive limits (.forget t) t .idle
    | _, _ => none
  | .isClosed t => match s.jobs t, s.net.pool.tasks t with
    | .isClosed j, .leased c =>
      if (s.net.pool.entries c).senderClosed then s.leave limits t (if j.budget > 0 then some (retried j) else none)
      else some (s.goto t (.build j))
    | _, _ => none
  | .built t ok => match s.jobs t, s.net.pool.tasks t with
    | .build j, .leased c => if ok then some ((s.setUnfinished c true).goto t (.send j)) else s.leave limits t none
    | _, _ => none
  | .response t => match s.jobs t with
    | .send _ => some (s.goto t .sendHeaders)
    | _ => none
  -- a request that is handed back was never written
  | .sendFailed t unsent committed => match s.jobs t, s.net.pool.tasks t with
    | .send j, .leased c =>
      (if unsent then s.setUnfinished c false else s).leave limits t
        (if Bridge.Retry.mayRetry committed unsent j.idempotent j.budget then some (retried j) else none)
    | _, _ => none
  | .queued t accepted => match s.jobs t with
    | .sendHeaders | .sendChunk => if accepted then some (s.goto t .frame) else s.leave limits t none
    | _ => none
  | .frame t f => match s.jobs t, s.net.pool.tasks t, f with
    | .frame, .leased _, .data bytes => some (s.goto t (if bytes then .sendChunk else .frame))
    | .frame, .leased _, .error => s.leave limits t none
    | .frame, .leased c, .finished => if s.unfinished c then none else s.leave limits t none
    | _, _, _ => none
  | .idleTimeout t => match s.jobs t with
    | .frame => s.leave limits t none
    | _ => none
  -- the future is dropped where it awaits: an abort, or the timeout of the whole request
  | .stop t => match s.jobs t with
    | .acquire _ => s.drive limits (.abandon t) t .idle
    | .send _ | .sendHeaders | .frame | .sendChunk => s.leave limits t none
    | _ => none
  | .dropped t => match s.jobs t, s.net.pool.tasks t with
    | .drop (some j), .idle => s.drive limits (.acquire t j.key) t (.acquire j)
    | .drop none, .idle => some (s.goto t .idle)
    | _, _ => none
  | .complete c => some (s.setUnfinished c false)

end Attempts

abbrev Attempts.Reaches (limits : Limits) (ok : Attempts → AttemptAct → Prop) (as : List AttemptAct) (s : Attempts) :
    Prop :=
  Run (Attempts.step limits) ok {} as s

/-- The task whose exchange ends before its response does: it is stopped or times out, the body or the request
fails, or the next event is refused. -/
def AttemptAct.breaksOff : AttemptAct → Option TaskId
  | .stop t | .idleTimeout t | .queued t false | .frame t .error | .sendFailed t false _ => some t
  | _ => none

/-- A request has been handed to the leased connection, or the lease is on its way back. -/
def AttemptPc.exchanging : AttemptPc → Bool
  | .send _ | .sendHeaders | .frame | .sendChunk | .drop _ => true
  | _ => false

/-- An exchange on an h1 connection is broken off only if its sender reports closed by then. -/
def Attempts.BreaksOffClosed (s : Attempts) (x : AttemptAct) : Prop :=
  ∀ t ∈ x.breaksOff, (s.jobs t).exchanging = true → ∀ c ∈ (s.net.pool.tasks t).lease,
    (s.net.pool.entries c).proto = .h1 → (s.net.pool.entries c).senderClosed = true

instance (s : Attempts) (x : AttemptAct) : Decidable (s.BreaksOffClosed x) :=
  inferInstanceAs (Decidable (∀ t ∈ x.breaksOff, (s.jobs t).exchanging = true → ∀ c ∈ (s.net.pool.tasks t).lease,
    (s.net.pool.entries c).proto = .h1 → (s.net.pool.entries c).senderClosed = true))

def Pc.carrying : Pc → Bool
  | .leased _ | .dropSender _ | .storeDead _ => true
  | _ => false

/-- An unfinished exchange is in the hands of the task that carries it, and of nobody else. -/
structure Attempts.Tidy (s : Attempts) (filed : List ConnId) : Prop where
  own : s.net.pool.Owned filed
  known : ∀ c, s.unfinished c = true → c ∈ filed
  busy : ∀ c, (s.net.pool.entries c).proto = .h1 → s.unfinished c = true →
    (s.net.pool.entries c).idle = false ∧ ∀ t, (s.net.pool.tasks t).holds = some c →
      (s.jobs t).exchanging = true ∧ (s.net.pool.tasks t).carrying = true
  returned : ∀ t c, s.net.pool.tasks t = .dropSender c → (s.net.pool.entries c).proto = .h1 →
    (s.net.pool.entries c).senderClosed = true ∨ s.unfinished c = false

section Steps
variable {limits : Limits} {s p : Attempts} {n : ClosingPool} {t : TaskId} {c : ConnId} {filed : List ConnId}
  {b : ShutAct}

theorem Pool.Access.idle {s m : Pool} {a : Act} {pc q : Pc} (h : s.Access limits t a pc m q)
    (hc : (m.entries c).idle = true) : (s.entries c).idle = true ∨ pc = .putBack c := by
  cases h with
  | putBack i =>
    by_cases hci : c = i
    · exact .inr (hci ▸ rfl)
    · exact .inl ((congrArg Conn.idle (Function.update_of_ne hci ..)).symm.trans hc)
  | take x =>
    by_cases hci : c = x.conn
    · subst hci
      change (Function.update s.entries x.conn _ x.conn).idle = true at hc
      rw [Function.update_self] at hc
      cases hc
    · exact .inl ((congrArg Conn.idle (Function.update_of_ne hci ..)).symm.trans hc)
  | addActive | subActive | storeDead | push => exact .inl ((update_part (f := Conn.idle) (by rfl) c).symm.trans hc)
  | _ => exact .inl hc

/-- A sender comes into a task's hands out of its slot, or by a clone. -/
theorem Pool.Handled.gains {s m : Pool} {pc q : Pc} (h : s.Handled pc m q) (hc : q.holds = some c) :
    pc.holds = some c ∨ (s.entries c).idle = true ∨ (s.entries c).proto = .h2 := by
  cases h with
  | keep hold => exact .inl (hold ▸ hc)
  | share i hp _ hq =>
    obtain rfl := Option.some.inj (hq.symm.trans hc)
    exact .inr (.inr hp)
  | take i hi _ hq =>
    obtain rfl := Option.some.inj (hq.symm.trans hc)
    exact .inr (.inl hi)
  | release _ _ hq | bury _ _ hq | putBack _ _ hq | push _ _ _ hq => exact absurd hc (Pc.not_holds hq)

/-- Who carries a lease goes on to carry it until the sender is put back. -/
theorem Pool.Access.carrying {s m : Pool} {a : Act} {pc q : Pc} (h : s.Access limits t a pc m q)
    (hpc : pc.carrying = true) (hc : q.holds = some c) : q.carrying = true ∨
      (a = .exec t ∧ pc = .dropSender c ∧ (s.entries c).senderClosed = false) := by
  cases h with
  | dropLease | dropClosed => exact .inl rfl
  | dropH1 i hclosed =>
    obtain rfl := Option.some.inj hc
    exact .inr ⟨rfl, rfl, hclosed⟩
  | dropH2 | storeDead => cases hc
  | _ => cases hpc

/-- Only the drop of a lease leads to the look at its sender. -/
theorem Pool.Access.dropSender {s m : Pool} {a : Act} {pc q : Pc} (h : s.Access limits t a pc m q)
    (hq : q = .dropSender c) : a = .dropLease t ∧ pc = .leased c ∧ m = s := by
  have hno : q.reading = false := by rw [hq]; rfl
  cases h with
  | dropLease =>
    cases hq
    exact ⟨rfl, rfl, rfl⟩
  | getList | crowded | slotEmpty => exact absurd (Pc.scan_reading ..) (Bool.eq_false_iff.mp hno)
  | getCount => exact absurd (Pc.count_reading ..) (Bool.eq_false_iff.mp hno)
  | dead x | slotClosed x => exact absurd x.closed_reading (Bool.eq_false_iff.mp hno)
  | slotOpen x => exact absurd x.live_reading (Bool.eq_false_iff.mp hno)
  | missed x => exact absurd x.missed_reading (Bool.eq_false_iff.mp hno)
  | addActive x => cases x <;> cases hq
  | _ => cases hq

/-- A connection that is in the map keeps its protocol. -/
theorem ClosingPool.Moved.proto_of_filed (hown : s.net.pool.Owned filed) (h : s.net.Moved limits b n)
    (hc : c ∈ filed) : (n.pool.entries c).proto = (s.net.pool.entries c).proto := by
  rcases h.senders with ⟨v, a, m, q, rfl, hv, hn⟩ | ⟨-, hsame⟩
  · rw [hn]
    rcases hv.proto c with ⟨-, he⟩ | ⟨k, hpc⟩
    · exact he
    · exact absurd hc (hown.pushing v c (by rw [hpc]; rfl)).2
  · exact (hsame c).1

theorem ClosingPool.Moved.dropSender (h : s.net.Moved limits b n) (hc : n.pool.tasks t = .dropSender c) :
    s.net.pool.tasks t = .dropSender c ∨ b = .pool (.dropLease t) ∧ s.net.pool.tasks t = .leased c := by
  rcases h.senders with ⟨v, a, m, q, rfl, hv, hn⟩ | ⟨htasks, -⟩
  · have htasks : n.pool.tasks = Function.update s.net.pool.tasks v q := hn ▸ hv.tasks
    rw [htasks] at hc
    by_cases htv : t = v
    · subst htv
      rw [Function.update_self] at hc
      obtain ⟨rfl, hpc, -⟩ := hv.dropSender hc
      exact .inr ⟨rfl, hpc⟩
    · rw [Function.update_of_ne htv] at hc
      exact .inl hc
  · exact .inl (htasks ▸ hc)

/-- The task that carries an unfinished exchange goes on with it: it puts the sender back only once
the sender reports closed or the exchange is finished. -/
theorem Attempts.Tidy.access (hs : s.Tidy filed) {v : TaskId} {a : Act} {m : Pool} {q : Pc}
    (hv : s.net.pool.Access limits v a (s.net.pool.tasks v) m q) (hp : (s.net.pool.entries c).proto = .h1)
    (hu : s.unfinished c = true) :
    (m.entries c).idle = false ∧ (q.holds = some c → (s.jobs v).exchanging = true ∧ q.carrying = true) := by
  obtain ⟨hidle, hheld⟩ := hs.busy c hp hu
  refine ⟨Bool.eq_false_iff.mpr fun hi => ?_, fun hq => ?_⟩
  · rcases hv.idle hi with hi | hpc
    · rw [hidle] at hi
      cases hi
    · have hcarry := (hheld v (by rw [hpc]; rfl)).2
      rw [hpc] at hcarry
      cases hcarry
  · have hpc : (s.net.pool.tasks v).holds = some c := by
      rcases hv.handled.gains hq with hpc | hi | hh2
      · exact hpc
      · rw [hidle] at hi
        cases hi
      · rw [hp] at hh2
        cases hh2
    obtain ⟨hexch, hcarry⟩ := hheld v hpc
    refine ⟨hexch, (hv.carrying hcarry hq).resolve_right ?_⟩
    rintro ⟨rfl, hdrop, hopen⟩
    rcases hs.returned v c hdrop hp with hclosed | hdone
    · rw [hopen] at hclosed
      cases hclosed
    · rw [hu] at hdone
      cases hdone

theorem Attempts.Tidy.carried (hs : s.Tidy filed) (h : s.net.Moved limits b n)
    (hp : (s.net.pool.entries c).proto = .h1) (hu : s.unfinished c = true) :
    (n.pool.entries c).idle = false ∧ ∀ t, (n.pool.tasks t).holds = some c →
      (s.jobs t).exchanging = true ∧ (n.pool.tasks t).carrying = true := by
  obtain ⟨hidle, hheld⟩ := hs.busy c hp hu
  rcases h.senders with ⟨v, a, m, q, rfl, hv, hn⟩ | ⟨htasks, hsame⟩
  · have htasks : n.pool.tasks = Function.update s.net.pool.tasks v q := hn ▸ hv.tasks
    obtain ⟨hidle, hmoves⟩ := hs.access hv hp hu
    refine ⟨by rw [hn]; exact hidle, fun t ht => ?_⟩
    rw [htasks] at ht ⊢
    by_cases htv : t = v
    · subst htv
      rw [Function.update_self] at ht ⊢
      exact hmoves ht
    · rw [Function.update_of_ne htv] at ht ⊢
      exact hheld t ht
  · rw [htasks]
    exact ⟨(hsame c).2.trans hidle, hheld⟩

/-- A step of the pool, after which fewer exchanges are unfinished and whoever still has a sender
goes on with its exchange. -/
theorem Attempts.Tidy.net (hs : s.Tidy filed) (h : s.net.Moved limits b n) {jobs : TaskId → AttemptPc}
    {unfinished : ConnId → Bool} (hless : ∀ c, unfinished c = true → s.unfinished c = true)
    (hjobs : ∀ u c, (n.pool.tasks u).holds = some c → (s.jobs u).exchanging = true → (jobs u).exchanging = true)
    (hleft : ∀ v c, b = .pool (.dropLease v) → s.net.pool.tasks v = .leased c → (s.net.pool.entries c).proto = .h1 →
      (s.net.pool.entries c).senderClosed = true ∨ unfinished c = false) :
    Attempts.Tidy ⟨n, jobs, unfinished⟩ (filed ++ s.net.filing b) where
  own := h.owned hs.own
  known c hc := List.mem_append_left _ (hs.known c (hless c hc))
  busy c hp hu := by
    have hold := hless c hu
    have hproto := (h.proto_of_filed hs.own (hs.known c hold)).symm.trans hp
    obtain ⟨hidle, hheld⟩ := hs.carried h hproto hold
    exact ⟨hidle, fun u hc => ⟨hjobs u c hc (hheld u hc).1, (hheld u hc).2⟩⟩
  returned u c hu hp := by
    have hold : (s.net.pool.tasks u).holds = some c → (s.net.pool.entries c).proto = .h1 := fun hc =>
      (h.proto_of_filed hs.own (hs.own.known u c (Pc.knows_of_holds hc))).symm.trans hp
    rcases h.dropSender hu with hpc | ⟨rfl, hpc⟩
    · refine (hs.returned u c hpc (hold (by rw [hpc]; rfl))).imp h.senderClosed fun hdone => ?_
      exact Bool.eq_false_iff.mpr fun hu => absurd (hless c hu) (Bool.eq_false_iff.mp hdone)
    · exact (hleft u c rfl hpc (hold (by rw [hpc]; rfl))).imp h.senderClosed id

inductive Attempts.Stepped (limits : Limits) (s : Attempts) : AttemptAct → Attempts → Prop
  | net {b : ShutAct} {n : ClosingPool} (h : s.net.Moved limits b n) (halone : ∀ v, b ≠ .pool (.dropLease v)) :
      Stepped limits s (.net b) { s with net := n }
  | begins {x : AttemptAct} {a : Act} {t : TaskId} {n : ClosingPool} {pc : AttemptPc}
      (h : s.net.Moved limits (.pool a) n) (ha : (∃ k, a = .acquire t k) ∨ a = .abandon t ∨ a = .forget t) :
      Stepped limits s x ({ s with net := n }.goto t pc)
  | leaves {x : AttemptAct} {t : TaskId} {n : ClosingPool} {again : Option Job} {unfinished : ConnId → Bool}
      (h : s.net.Moved limits (.pool (.dropLease t)) n) (hless : ∀ c, unfinished c = true → s.unfinished c = true)
      (hwhy : ∀ c, s.net.pool.tasks t = .leased c → (s.jobs t).exchanging = false ∨ unfinished c = false ∨
        x.breaksOff = some t ∧ (s.jobs t).exchanging = true) :
      Stepped limits s x ({ s with net := n, unfinished }.goto t (.drop again))
  | goes {x : AttemptAct} {t : TaskId} {pc : AttemptPc}
      (hpc : ∀ c, (s.net.pool.tasks t).holds = some c → (s.jobs t).exchanging = true → pc.exchanging = true) :
      Stepped limits s x (s.goto t pc)
  | sends {x : AttemptAct} {t : TaskId} {j : Job} {c : ConnId} (hc : s.net.pool.tasks t = .leased c) :
      Stepped limits s x ((s.setUnfinished c true).goto t (.send j))
  | complete (c : ConnId) : Stepped limits s (.complete c) (s.setUnfinished c false)

theorem Attempts.drive_moved {a : Act} {pc : AttemptPc} (h : s.drive limits a t pc = some p) :
    ∃ n, s.net.Moved limits (.pool a) n ∧ p = { s with net := n }.goto t pc := by
  obtain ⟨n, hn, rfl⟩ := Option.map_eq_some_iff.mp h
  exact ⟨n, ClosingPool.step_cases hn, rfl⟩

/-- A task that asks, gives up, or takes note of a failure has no sender. -/
theorem ClosingPool.Moved.empty_handed {s n : ClosingPool} {a : Act} (h : s.Moved limits (.pool a) n)
    (ha : (∃ k, a = .acquire t k) ∨ a = .abandon t ∨ a = .forget t) : (n.pool.tasks t).holds = none := by
  cases h with
  | pool h =>
    rcases ha with ⟨k, rfl⟩ | rfl | rfl
    all_goals
      cases h with
      | task h =>
        generalize s.pool.tasks _ = pc at h
        cases h <;> (change (Function.update s.pool.tasks t _ t).holds = none; rw [Function.update_self]; rfl)

section Leaving
variable {x : AttemptAct} {again : Option Job} {unfinished : ConnId → Bool}

theorem Attempts.Stepped.leave (hless : ∀ c, unfinished c = true → s.unfinished c = true)
    (hwhy : ∀ c, s.net.pool.tasks t = .leased c → (s.jobs t).exchanging = false ∨ unfinished c = false ∨
      x.breaksOff = some t ∧ (s.jobs t).exchanging = true)
    (h : Attempts.leave limits { s with unfinished } t again = some p) : s.Stepped limits x p := by
  obtain ⟨n, hn, rfl⟩ := Attempts.drive_moved h
  exact .leaves hn hless hwhy

/-- No request has gone out. -/
theorem Attempts.Stepped.early (hjob : (s.jobs t).exchanging = false)
    (h : Attempts.leave limits s t again = some p) : s.Stepped limits x p :=
  .leave (fun _ => id) (fun _ _ => .inl hjob) h

theorem Attempts.Stepped.breaksOff (hx : x.breaksOff = some t) (hjob : (s.jobs t).exchanging = true)
    (h : Attempts.leave limits s t again = some p) : s.Stepped limits x p :=
  .leave (fun _ => id) (fun _ _ => .inr (.inr ⟨hx, hjob⟩)) h

theorem Attempts.Stepped.begin {a : Act} {pc : AttemptPc}
    (ha : (∃ k, a = .acquire t k) ∨ a = .abandon t ∨ a = .forget t) (h : s.drive limits a t pc = some p) :
    s.Stepped limits x p := by
  obtain ⟨n, hn, rfl⟩ := Attempts.drive_moved h
  exact .begins hn ha

end Leaving

theorem Attempts.step_cases {x : AttemptAct} (h : s.step limits x = some p) : s.Stepped limits x p := by
  cases x with
  | net b =>
    simp only [Attempts.step] at h
    split at h
    · rename_i halone
      obtain ⟨n, hn, rfl⟩ := Option.map_eq_some_iff.mp h
      refine .net (ClosingPool.step_cases hn) ?_
      rintro v rfl
      cases halone
    · cases h
  | start t j =>
    simp only [Attempts.step] at h
    split at h
    · exact .begin (.inl ⟨_, rfl⟩) h
    · cases h
  | acquired t =>
    simp only [Attempts.step] at h
    split at h
    · rename_i hj _
      cases h
      exact .goes fun c _ hex => (by rw [hj] at hex; cases hex)
    · exact .begin (.inr (.inr rfl)) h
    · cases h
  | isClosed t =>
    simp only [Attempts.step] at h
    split at h
    · rename_i hj _
      split at h
      · exact .early (by rw [hj]; rfl) h
      · cases h
        exact .goes fun c _ hex => (by rw [hj] at hex; cases hex)
    · cases h
  | built t ok =>
    simp only [Attempts.step] at h
    split at h
    · rename_i hj hc
      split at h
      · cases h
        exact .sends hc
      · exact .early (by rw [hj]; rfl) h
    · cases h
  | response t =>
    simp only [Attempts.step] at h
    split at h
    · cases h
      exact .goes fun _ _ _ => rfl
    · cases h
  | sendFailed t unsent committed =>
    simp only [Attempts.step] at h
    split at h
    · rename_i c hj hc
      cases unsent with
      | true =>
        have hless : ∀ i, Function.update s.unfinished c false i = true → s.unfinished i = true := by
          intro i hi
          by_cases hic : i = c
          · rw [hic, Function.update_self] at hi
            cases hi
          · rwa [Function.update_of_ne hic] at hi
        refine .leave hless (fun i hi => .inr (.inl ?_)) h
        rw [hc] at hi
        cases hi
        exact Function.update_self ..
      | false => exact .breaksOff rfl (by rw [hj]; rfl) h
    · cases h
  | queued t accepted =>
    simp only [Attempts.step] at h
    split at h
    all_goals first
      | cases h
      | rename_i hj
        cases accepted with
        | true =>
          cases h
          exact .goes fun _ _ _ => rfl
        | false => exact .breaksOff rfl (by rw [hj]; rfl) h
  | frame t f =>
    simp only [Attempts.step] at h
    split at h
    · cases h
      refine .goes fun _ _ _ => ?_
      split <;> rfl
    · rename_i hj _
      exact .breaksOff rfl (by rw [hj]; rfl) h
    · rename_i hc
      split at h
      · cases h
      · rename_i hdone
        refine .leave (fun _ => id) (fun i hi => .inr (.inl ?_)) h
        rw [hc] at hi
        cases hi
        exact Bool.eq_false_iff.mpr hdone
    · cases h
  | idleTimeout t =>
    simp only [Attempts.step] at h
    split at h
    · rename_i hj
      exact .breaksOff rfl (by rw [hj]; rfl) h
    · cases h
  | stop t =>
    simp only [Attempts.step] at h
    split at h
    · exact .begin (.inr (.inl rfl)) h
    all_goals first
      | cases h
      | rename_i hj
        exact .breaksOff rfl (by rw [hj]; rfl) h
  | dropped t =>
    simp only [Attempts.step] at h
    split at h
    · exact .begin (.inl ⟨_, rfl⟩) h
    · rename_i hidle
      cases h
      exact .goes fun c hc _ => (by rw [hidle] at hc; cases hc)
    · cases h
  | complete c =>
    cases h
    exact .complete c

theorem Attempts.Tidy.goes (hs : s.Tidy filed) {pc : AttemptPc}
    (hpc : ∀ c, (s.net.pool.tasks t).holds = some c → (s.jobs t).exchanging = true → pc.exchanging = true) :
    (s.goto t pc).Tidy filed := by
  refine ⟨hs.own, hs.known, fun c hp hu => ?_, hs.returned⟩
  obtain ⟨hidle, hheld⟩ := hs.busy c hp hu
  refine ⟨hidle, fun u hc => ⟨?_, (hheld u hc).2⟩⟩
  change (Function.update s.jobs t pc u).exchanging = true
  by_cases hut : u = t
  · subst hut
    rw [Function.update_self]
    exact hpc c hc (hheld u hc).1
  · rw [Function.update_of_ne hut]
    exact (hheld u hc).1

theorem Attempts.Tidy.complete (hs : s.Tidy filed) : (s.setUnfinished c false).Tidy filed := by
  have hold : ∀ i, (s.setUnfinished c false).unfinished i = true → s.unfinished i = true := by
    intro i hi
    by_cases hic : i = c
    · rw [hic] at hi
      exact absurd ((Function.update_self ..).symm.trans hi) Bool.false_ne_true
    · exact (Function.update_of_ne hic ..).symm.trans hi
  refine ⟨hs.own, fun i hi => hs.known i (hold i hi), fun i hp hi => hs.busy i hp (hold i hi), fun u i hu hp => ?_⟩
  exact (hs.returned u i hu hp).imp_right fun hi =>
    Bool.eq_false_iff.mpr fun hu => absurd (hold i hu) (Bool.eq_false_iff.mp hi)

/-- The request goes to a connection that the sending task leases, and for h1 nobody else. -/
theorem Attempts.Tidy.sends (hs : s.Tidy filed) {j : Job} (hc : s.net.pool.tasks t = .leased c) :
    ((s.setUnfinished c true).goto t (.send j)).Tidy filed := by
  have hholds : (s.net.pool.tasks t).holds = some c := by rw [hc]; rfl
  have htidy : ∀ i, i ≠ c → (s.setUnfinished c true).unfinished i = s.unfinished i := fun i hi =>
    Function.update_of_ne hi ..
  refine ⟨hs.own, fun i hi => ?_, fun i hp hi => ?_, fun u i hu hp => ?_⟩
  · by_cases hic : i = c
    · subst hic
      exact hs.own.known t i (Pc.knows_of_holds hholds)
    · exact hs.known i ((htidy i hic).symm.trans hi)
  · by_cases hic : i = c
    · subst hic
      have hlent := hs.own.lent i hp
      refine ⟨Bool.eq_false_iff.mpr fun hidle => hlent.free hidle t hholds, fun u hu => ?_⟩
      obtain rfl := hlent.sole u t hu hholds
      refine ⟨?_, ?_⟩
      · change (Function.update s.jobs u (.send j) u).exchanging = true
        rw [Function.update_self]
        rfl
      · change (s.net.pool.tasks u).carrying = true
        rw [hc]
        rfl
    · have hnext : (s.goto t (.send j)).Tidy filed := hs.goes fun _ _ _ => rfl
      exact hnext.busy i hp ((htidy i hic).symm.trans hi)
  · change s.net.pool.tasks u = .dropSender i at hu
    have hic : i ≠ c := by
      rintro rfl
      obtain rfl := (hs.own.lent i hp).sole u t (by rw [hu]; rfl) hholds
      rw [hc] at hu
      cases hu
    exact (hs.returned u i hu hp).imp_right (htidy i hic).trans

/-- Leaving before the exchange or after it leaves nothing unfinished behind. -/
theorem Attempts.Tidy.leaves (hs : s.Tidy filed) {x : AttemptAct} (hok : s.BreaksOffClosed x) {unfinished : ConnId → Bool}
    (hless : ∀ c, unfinished c = true → s.unfinished c = true) (hc : s.net.pool.tasks t = .leased c)
    (hwhy : (s.jobs t).exchanging = false ∨ unfinished c = false ∨
      x.breaksOff = some t ∧ (s.jobs t).exchanging = true)
    (hp : (s.net.pool.entries c).proto = .h1) :
    (s.net.pool.entries c).senderClosed = true ∨ unfinished c = false := by
  rcases hwhy with hjob | hdone | ⟨hx, hjob⟩
  · refine .inr (Bool.eq_false_iff.mpr fun hu => ?_)
    have hexch := ((hs.busy c hp (hless c hu)).2 t (by rw [hc]; rfl)).1
    rw [hjob] at hexch
    cases hexch
  · exact .inr hdone
  · exact .inl (hok t hx hjob c (by rw [hc]; rfl) hp)

theorem Attempts.Tidy.step {x : AttemptAct} (hs : s.Tidy filed) (hok : s.BreaksOffClosed x)
    (h : s.Stepped limits x p) : ∃ filed', p.Tidy filed' := by
  have hjobs : ∀ {n : ClosingPool} {v : TaskId} {pc : AttemptPc},
      (∀ c, (n.pool.tasks v).holds = some c → pc.exchanging = true) → ∀ u c, (n.pool.tasks u).holds = some c →
      (s.jobs u).exchanging = true → (Function.update s.jobs v pc u).exchanging = true := by
    intro n v pc hpc u c hc hex
    by_cases huv : u = v
    · subst huv
      rw [Function.update_self]
      exact hpc c hc
    · rw [Function.update_of_ne huv]
      exact hex
  cases h with
  | net h halone => exact ⟨_, hs.net h (fun _ => id) (fun _ _ _ => id) fun v _ hv => absurd hv (halone v)⟩
  | begins h ha =>
    refine ⟨_, hs.net h (fun _ => id) (hjobs fun c hc => ?_) fun v _ hv => ?_⟩
    · rw [h.empty_handed ha] at hc
      cases hc
    · rcases ha with ⟨k, rfl⟩ | rfl | rfl <;> cases hv
  | leaves h hless hwhy =>
    refine ⟨_, hs.net h hless (hjobs fun _ _ => rfl) fun v c hv hc hp => ?_⟩
    cases hv
    exact hs.leaves hok hless hc (hwhy c hc) hp
  | goes hpc => exact ⟨_, hs.goes hpc⟩
  | sends hc => exact ⟨_, hs.sends hc⟩
  | complete c => exact ⟨_, hs.complete⟩

theorem Attempts.Reaches.tidy {as : List AttemptAct} (h : Attempts.Reaches limits Attempts.BreaksOffClosed as s) :
    ∃ filed, s.Tidy filed := by
  refine h.invariant (I := fun s => ∃ filed, s.Tidy filed) ?_ ⟨[], ?_⟩
  · rintro s x p hok ⟨filed, hs⟩ hstep
    exact hs.step hok (Attempts.step_cases hstep)
  · exact ⟨Pool.Owned.init, fun _ hc => (nomatch hc), fun _ _ hc => (nomatch hc), fun _ _ hc => (by cases hc)⟩

end Steps

/-- `acquire` hands out idle h1 senders: while no exchange on an h1 connection is broken off before its sender
reports closed, a lease that no request went out on yet is on a connection with no unfinished exchange, and
so is a sender that `Lease::drop` puts back. -/
theorem leased_sender_idle {limits : Limits} {as : List AttemptAct} {s : Attempts}
    (h : Attempts.Reaches limits Attempts.BreaksOffClosed as s) (t : TaskId) (c : ConnId)
    (hproto : (s.net.pool.entries c).proto = .h1) :
    (s.net.pool.tasks t = .leased c → (s.jobs t).exchanging = false → s.unfinished c = false) ∧
    (s.net.pool.tasks t = .putBack c → s.unfinished c = false) := by
  obtain ⟨filed, hs⟩ := h.tidy
  constructor
  · intro hlease hjob
    by_contra hu
    obtain ⟨-, hheld⟩ := hs.busy c hproto (Bool.of_not_eq_false hu)
    have hexch := (hheld t (by rw [hlease]; rfl)).1
    rw [hjob] at hexch
    cases hexch
  · intro hback
    by_contra hu
    obtain ⟨-, hheld⟩ := hs.busy c hproto (Bool.of_not_eq_false hu)
    have hcarry := (hheld t (by rw [hback]; rfl)).2
    rw [hback] at hcarry
    cases hcarry

def poolSteps (t : TaskId) (n : Nat) : List AttemptAct := List.replicate n (.net (.pool (.exec t)))

def plainJob : Job := ⟨plainKey, true, 0⟩

/-- Task 0 dials and sends its request, ends the exchange in some way and drops its lease; then
task 1 is given the connection. -/
def secondUse (ending : List AttemptAct) : List AttemptAct :=
  AttemptAct.start 0 plainJob :: poolSteps 0 8 ++ .net (.pool (.connected 0 (.ok .h1))) :: poolSteps 0 5 ++
    [.acquired 0, .isClosed 0, .built 0 true] ++ ending ++ poolSteps 0 3 ++
    AttemptAct.dropped 0 :: .start 1 plainJob :: poolSteps 1 9

set_option maxRecDepth 10000 in
theorem leased_sender_idle_after_exchange : ∃ as s, Attempts.Reaches {} Attempts.BreaksOffClosed as s ∧
    s.net.pool.tasks 1 = .leased 1 ∧ s.unfinished 1 = false := by
  have hrun : (replay (Attempts.step {}) Attempts.BreaksOffClosed {}
      (secondUse [.response 0, .queued 0 true, .complete 1, .frame 0 .finished])).any
      (fun s => s.net.pool.tasks 1 == .leased 1 && ((s.net.pool.entries 1).proto == .h1 &&
        !(s.jobs 1).exchanging)) = true := by decide +kernel
  obtain ⟨s, hs, hend⟩ := (Option.any_eq_true _ _).mp hrun
  simp only [Bool.and_eq_true, beq_iff_eq, Bool.not_eq_true'] at hend
  obtain ⟨hlease, hproto, hjob⟩ := hend
  have hreach := run_of_replay hs
  exact ⟨_, s, hreach, hlease, (leased_sender_idle hreach 1 1 hproto).1 hlease hjob⟩

set_option maxRecDepth 10000 in
/-- The first task is stopped while it awaits the response. Its sender does not report closed yet,
so `Lease::drop` puts it back, and the next `acquire` leases a connection in mid-exchange. -/
theorem stopped_exchange_leased_again : ∃ as s, Attempts.Reaches {} anyStep as s ∧
    s.net.pool.tasks 1 = .leased 1 ∧ (s.net.pool.entries 1).proto = .h1 ∧ s.jobs 1 = .acquire plainJob ∧
    s.unfinished 1 = true := by
  have hrun : (replay (Attempts.step {}) anyStep {} (secondUse [.stop 0])).any
      (fun s => s.net.pool.tasks 1 == .leased 1 && ((s.net.pool.entries 1).proto == .h1 &&
        (s.jobs 1 == .acquire plainJob && s.unfinished 1))) = true := by decide +kernel
  obtain ⟨s, hs, hend⟩ := (Option.any_eq_true _ _).mp hrun
  simp only [Bool.and_eq_true, beq_iff_eq] at hend
  exact ⟨_, s, run_of_replay hs, hend⟩

end Hyper4k.Pooling
