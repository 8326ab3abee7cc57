import Hyper4k.Pooling.Acquire
import Hyper4k.Runs.Threads

/-! What one step of the pool can do, said once for every invariant of it, and the dial locks. -/
namespace Hyper4k.Pooling
open Bridge (ConnId ErrorKind)
open Runs

/-- A step of task `t` by an action: where the task is, what the pool becomes apart from the
task's own move, and where the task goes. -/
inductive Pool.Access (limits : Limits) (s : Pool) (t : TaskId) : Act → Pc → Pool → Pc → Prop
  | acquire (k : PoolKey) : Access limits s t (.acquire t k) .idle s (.loadClosed k)
  | enters (k : PoolKey) (h : s.closed = false) : Access limits s t (.exec t) (.loadClosed k) s (.getList k false)
  | refuse (k : PoolKey) (h : s.closed = true) : Access limits s t (.exec t) (.loadClosed k) s (.failed .cancelled)
  | getList (k : PoolKey) (dialing : Bool) :
      Access limits s t (.exec t) (.getList k dialing) (s.setReaders k (s.readers k + 1)) (.scan k dialing (s.conns k))
  | dead (x : ClosedAt) (h : (s.entries x.conn).dead = true) : Access limits s t (.exec t) (.loadDead x) s x.closed
  | notDead (x : ClosedAt) (h : (s.entries x.conn).dead = false) :
      Access limits s t (.exec t) (.loadDead x) s (.loadSender x)
  | slotClosed (x : ClosedAt) (h : slotClosed (s.entries x.conn) = true) :
      Access limits s t (.exec t) (.loadSender x) s x.closed
  | slotOpen (x : ClosedAt) (h : slotClosed (s.entries x.conn) = false) :
      Access limits s t (.exec t) (.loadSender x) s x.live
  | crowded (x : Scan) (h : (limits.pausedCap : Int) ≤ (s.entries x.conn).paused) :
      Access limits s t (.exec t) (.loadPaused x) s x.next
  | multiplexed (x : Scan) (h : (s.entries x.conn).proto = .h2) :
      Access limits s t (.exec t) (.loadPaused x) s (.takeSender (.reuse x))
  | exclusive (x : Scan) (h : (s.entries x.conn).proto = .h1) :
      Access limits s t (.exec t) (.loadPaused x) s (.slotIdle x)
  | slotFull (x : Scan) (h : (s.entries x.conn).idle = true) :
      Access limits s t (.exec t) (.slotIdle x) s (.takeSender (.reuse x))
  | slotEmpty (x : Scan) (h : (s.entries x.conn).idle = false) : Access limits s t (.exec t) (.slotIdle x) s x.next
  | clone (x : TakeAt) (h : (s.entries x.conn).proto = .h2) :
      Access limits s t (.exec t) (.takeSender x) s (.addActive x)
  | take (x : TakeAt) (h : (s.entries x.conn).proto = .h1) (hidle : (s.entries x.conn).idle = true) :
      Access limits s t (.exec t) (.takeSender x) (s.setEntry x.conn { s.entries x.conn with idle := false })
        (.addActive x)
  | missed (x : TakeAt) (h : (s.entries x.conn).proto = .h1) (hidle : (s.entries x.conn).idle = false) :
      Access limits s t (.exec t) (.takeSender x) s x.missed
  | addActive (x : TakeAt) :
      Access limits s t (.exec t) (.addActive x)
        (s.setEntry x.conn { s.entries x.conn with active := (s.entries x.conn).active + 1 }) x.taken
  | found (k : PoolKey) (c : ConnId) :
      Access limits s t (.exec t) (.dropList k false (some c)) (s.setReaders k (s.readers k - 1)) (.leased c)
  | foundLocked (k : PoolKey) (c : ConnId) :
      Access limits s t (.exec t) (.dropList k true (some c)) (s.setReaders k (s.readers k - 1)) (.unlockDial k (.ok c))
  | notFound (k : PoolKey) :
      Access limits s t (.exec t) (.dropList k false none) (s.setReaders k (s.readers k - 1)) (.lockDial k)
  | notFoundLocked (k : PoolKey) :
      Access limits s t (.exec t) (.dropList k true none) (s.setReaders k (s.readers k - 1)) (.getCount k)
  | lockDial (k : PoolKey) (h : s.dialLocks k = none) :
      Access limits s t (.exec t) (.lockDial k) (s.setDial k (some t)) (.getList k true)
  | getCount (k : PoolKey) :
      Access limits s t (.exec t) (.getCount k) (s.setReaders k (s.readers k + 1)) (.count k 0 (s.conns k))
  | full (k : PoolKey) (live : Nat) (h : limits.maxConnsPerKey ≤ live) :
      Access limits s t (.exec t) (.dropCount k live) (s.setReaders k (s.readers k - 1))
        (.unlockDial k (.error .connect))
  | dial (k : PoolKey) (live : Nat) (h : live < limits.maxConnsPerKey) :
      Access limits s t (.exec t) (.dropCount k live) (s.setReaders k (s.readers k - 1)) (.connect k)
  | connected (k : PoolKey) (proto : Proto) :
      Access limits s t (.connected t (.ok proto)) (.connect k) s (.fetchId k proto)
  | refused (k : PoolKey) (kind : ErrorKind) :
      Access limits s t (.connected t (.error kind)) (.connect k) s (.unlockDial k (.error kind))
  | fetchId (k : PoolKey) (proto : Proto) :
      Access limits s t (.exec t) (.fetchId k proto) { s with nextId := s.nextId + 1 } (.push k proto s.nextId)
  | push (k : PoolKey) (proto : Proto) (c : ConnId) (h : s.readers k = 0) :
      Access limits s t (.exec t) (.push k proto c)
        ({ s with conns := Function.update s.conns k (s.conns k ++ [c]) }.setEntry c
          { s.entries c with proto := proto })
        (.takeSender (.dialled k c))
  | unlockDial (k : PoolKey) (c : ConnId) :
      Access limits s t (.exec t) (.unlockDial k (.ok c)) (s.setDial k none) (.leased c)
  | unlockFailed (k : PoolKey) (kind : ErrorKind) :
      Access limits s t (.exec t) (.unlockDial k (.error kind)) (s.setDial k none) (.failed kind)
  | abandonLock (k : PoolKey) : Access limits s t (.abandon t) (.lockDial k) s .idle
  | abandonDial (k : PoolKey) : Access limits s t (.abandon t) (.connect k) (s.setDial k none) .idle
  | dropLease (c : ConnId) : Access limits s t (.dropLease t) (.leased c) s (.dropSender c)
  | forget (kind : ErrorKind) : Access limits s t (.forget t) (.failed kind) s .idle
  | dropClosed (c : ConnId) (h : (s.entries c).senderClosed = true) :
      Access limits s t (.exec t) (.dropSender c) s (.storeDead c)
  | dropH1 (c : ConnId) (h : (s.entries c).senderClosed = false) (hp : (s.entries c).proto = .h1) :
      Access limits s t (.exec t) (.dropSender c) s (.putBack c)
  | dropH2 (c : ConnId) (h : (s.entries c).senderClosed = false) (hp : (s.entries c).proto = .h2) :
      Access limits s t (.exec t) (.dropSender c) s (.subActive c)
  | storeDead (c : ConnId) :
      Access limits s t (.exec t) (.storeDead c) (s.setEntry c { s.entries c with dead := true }) (.subActive c)
  | putBack (c : ConnId) :
      Access limits s t (.exec t) (.putBack c) (s.setEntry c { s.entries c with idle := true }) (.subActive c)
  | subActive (c : ConnId) :
      Access limits s t (.exec t) (.subActive c)
        (s.setEntry c { s.entries c with active := (s.entries c).active - 1 }) .idle

inductive Pool.Stepped (limits : Limits) (s : Pool) : Act → Pool → Prop
  | task {t : TaskId} {a : Act} {m : Pool} {q : Pc} (h : s.Access limits t a (s.tasks t) m q) :
      Stepped limits s a (m.goto t q)
  | peerClose (c : ConnId) :
      Stepped limits s (.peerClose c) (s.setEntry c { s.entries c with senderClosed := true })
  | newGuard (c : ConnId) : Stepped limits s (.newGuard c) (s.addPaused c 1)
  | dropGuard (c : ConnId) : Stepped limits s (.dropGuard c) (s.addPaused c (-1))

section Inversion
variable {limits : Limits} {s p : Pool} {a : Act}

private theorem exec_task {t : TaskId} (h : s.exec limits t = some p) :
    ∃ m q, s.Access limits t (.exec t) (s.tasks t) m q ∧ p = m.goto t q := by
  unfold Pool.exec at h
  generalize s.tasks t = pc at h ⊢
  cases pc with
  | idle | connect | leased | failed => cases h
  | loadClosed k =>
    cases h
    cases hc : s.closed
    · exact ⟨_, _, .enters k hc, rfl⟩
    · exact ⟨_, _, .refuse k hc, rfl⟩
  | getList k d =>
    cases h
    exact ⟨_, _, .getList k d, rfl⟩
  | loadDead x =>
    cases h
    cases hd : (s.entries x.conn).dead
    · exact ⟨_, _, .notDead x hd, rfl⟩
    · exact ⟨_, _, .dead x hd, rfl⟩
  | loadSender x =>
    cases h
    cases hd : Pool.slotClosed (s.entries x.conn)
    · exact ⟨_, _, .slotOpen x hd, rfl⟩
    · exact ⟨_, _, .slotClosed x hd, rfl⟩
  | loadPaused x =>
    cases h
    by_cases hp : (s.entries x.conn).paused ≥ limits.pausedCap
    · rw [if_pos hp]
      exact ⟨_, _, .crowded x hp, rfl⟩
    · rw [if_neg hp]
      cases he : (s.entries x.conn).proto
      · exact ⟨_, _, .exclusive x he, rfl⟩
      · exact ⟨_, _, .multiplexed x he, rfl⟩
  | slotIdle x =>
    cases h
    cases hi : (s.entries x.conn).idle
    · exact ⟨_, _, .slotEmpty x hi, rfl⟩
    · exact ⟨_, _, .slotFull x hi, rfl⟩
  | takeSender x =>
    simp only at h
    split at h
    · rename_i hp
      cases h
      exact ⟨_, _, .clone x hp, rfl⟩
    · rename_i hp
      split at h
      · rename_i hi
        cases h
        exact ⟨_, _, .take x hp hi, rfl⟩
      · rename_i hi
        cases h
        exact ⟨_, _, .missed x hp (Bool.eq_false_iff.mpr hi), rfl⟩
  | addActive x =>
    cases h
    exact ⟨_, _, .addActive x, rfl⟩
  | dropList k d found =>
    cases h
    cases found <;> cases d
    · exact ⟨_, _, .notFound k, rfl⟩
    · exact ⟨_, _, .notFoundLocked k, rfl⟩
    · exact ⟨_, _, .found k _, rfl⟩
    · exact ⟨_, _, .foundLocked k _, rfl⟩
  | lockDial k =>
    simp only at h
    split at h
    · rename_i hl
      cases h
      exact ⟨_, _, .lockDial k hl, rfl⟩
    · cases h
  | getCount k =>
    cases h
    exact ⟨_, _, .getCount k, rfl⟩
  | dropCount k live =>
    cases h
    by_cases hl : live ≥ limits.maxConnsPerKey
    · rw [if_pos hl]
      exact ⟨_, _, .full k live hl, rfl⟩
    · rw [if_neg hl]
      exact ⟨_, _, .dial k live (Nat.lt_of_not_le hl), rfl⟩
  | fetchId k proto =>
    cases h
    exact ⟨_, _, .fetchId k proto, rfl⟩
  | push k proto c =>
    simp only at h
    split at h
    · rename_i hr
      cases h
      exact ⟨_, _, .push k proto c hr, rfl⟩
    · cases h
  | unlockDial k result =>
    cases h
    cases result with
    | ok c => exact ⟨_, _, .unlockDial k c, rfl⟩
    | error kind => exact ⟨_, _, .unlockFailed k kind, rfl⟩
  | dropSender c =>
    cases h
    cases hc : (s.entries c).senderClosed
    · cases hp : (s.entries c).proto
      · exact ⟨_, _, .dropH1 c hc hp, rfl⟩
      · exact ⟨_, _, .dropH2 c hc hp, rfl⟩
    · exact ⟨_, _, .dropClosed c hc, rfl⟩
  | storeDead c =>
    cases h
    exact ⟨_, _, .storeDead c, rfl⟩
  | putBack c =>
    cases h
    exact ⟨_, _, .putBack c, rfl⟩
  | subActive c =>
    cases h
    exact ⟨_, _, .subActive c, rfl⟩

theorem Pool.step_cases (h : s.step limits a = some p) : s.Stepped limits a p := by
  cases a with
  | exec t =>
    obtain ⟨m, q, hm, rfl⟩ := exec_task h
    exact .task hm
  | peerClose c =>
    cases h
    exact .peerClose c
  | newGuard c =>
    cases h
    exact .newGuard c
  | dropGuard c =>
    cases h
    exact .dropGuard c
  | acquire t k =>
    simp only [Pool.step] at h
    split at h
    · rename_i ht
      cases h
      exact .task (ht ▸ .acquire k)
    · cases h
  | connected t result =>
    simp only [Pool.step] at h
    split at h
    · rename_i ht
      cases h
      exact .task (ht ▸ .connected _ _)
    · rename_i ht
      cases h
      exact .task (ht ▸ .refused _ _)
    · cases h
  | abandon t =>
    simp only [Pool.step] at h
    split at h
    · rename_i ht
      cases h
      exact .task (ht ▸ .abandonLock _)
    · rename_i ht
      cases h
      exact .task (ht ▸ .abandonDial _)
    · cases h
  | dropLease t =>
    simp only [Pool.step] at h
    split at h
    · rename_i ht
      cases h
      exact .task (ht ▸ .dropLease _)
    · cases h
  | forget t =>
    simp only [Pool.step] at h
    split at h
    · rename_i ht
      cases h
      exact .task (ht ▸ .forget _)
    · cases h

end Inversion

def Scan.lock (x : Scan) : Option PoolKey := if x.dialing then some x.key else none

def ClosedAt.lock : ClosedAt → Option PoolKey
  | .reuse x => x.lock
  | .count k _ _ _ => some k

def TakeAt.lock : TakeAt → Option PoolKey
  | .reuse x => x.lock
  | .dialled k _ => some k

def Pc.lock : Pc → Option PoolKey
  | .getList k dialing | .dropList k dialing _ => if dialing then some k else none
  | .loadDead x | .loadSender x => x.lock
  | .loadPaused x | .slotIdle x => x.lock
  | .takeSender x | .addActive x => x.lock
  | .getCount k | .dropCount k _ | .connect k | .fetchId k _ | .push k _ _ | .unlockDial k _ => some k
  | _ => none

theorem Pc.scan_lock (k : PoolKey) (dialing : Bool) (l : List ConnId) :
    (Pc.scan k dialing l).lock = if dialing then some k else none := by
  cases l <;> rfl

theorem Pc.count_lock (k : PoolKey) (live : Nat) (l : List ConnId) : (Pc.count k live l).lock = some k := by
  cases l <;> rfl

theorem Scan.next_lock (x : Scan) : x.next.lock = x.lock := Pc.scan_lock ..

theorem ClosedAt.closed_lock (x : ClosedAt) : x.closed.lock = x.lock := by
  cases x with
  | reuse x => exact x.next_lock
  | count => exact Pc.count_lock ..

theorem ClosedAt.live_lock (x : ClosedAt) : x.live.lock = x.lock := by
  cases x with
  | reuse => rfl
  | count => exact Pc.count_lock ..

theorem TakeAt.taken_lock (x : TakeAt) : x.taken.lock = x.lock := by cases x <;> rfl

theorem TakeAt.missed_lock (x : TakeAt) : x.missed.lock = x.lock := by
  cases x with
  | reuse x => exact x.next_lock
  | dialled => rfl

def Pc.pushes : Pc → Option ConnId
  | .push _ _ c => some c
  | _ => none

/-- A dial lock is held by the task that is in its section. -/
def Pool.Locked (s : Pool) : Prop := ∀ k, Guards (fun pc => pc.lock = some k) (s.dialLocks k) s.tasks

section DialLock
variable {limits : Limits} {s p m : Pool} {t : TaskId} {a : Act} {q : Pc}

/-- What a step does about dial locks: nothing, take one, or give it back. -/
theorem Pool.Access.lock {pc : Pc} (h : s.Access limits t a pc m q) :
    (q.lock = pc.lock ∧ m.dialLocks = s.dialLocks) ∨
      (∃ k, pc.lock = none ∧ s.dialLocks k = none ∧ q.lock = some k ∧
        m.dialLocks = Function.update s.dialLocks k (some t)) ∨
      ∃ k, pc.lock = some k ∧ q.lock = none ∧ m.dialLocks = Function.update s.dialLocks k none := by
  cases h with
  | lockDial k hfree => exact .inr (.inl ⟨k, rfl, hfree, rfl, rfl⟩)
  | unlockDial k | unlockFailed k | abandonDial k => exact .inr (.inr ⟨k, rfl, rfl, rfl⟩)
  | getList => exact .inl ⟨Pc.scan_lock .., rfl⟩
  | dead x | slotClosed x => exact .inl ⟨x.closed_lock, rfl⟩
  | slotOpen x => exact .inl ⟨x.live_lock, rfl⟩
  | crowded x | slotEmpty x => exact .inl ⟨x.next_lock, rfl⟩
  | missed x => exact .inl ⟨x.missed_lock, rfl⟩
  | addActive x => exact .inl ⟨x.taken_lock, rfl⟩
  | getCount => exact .inl ⟨Pc.count_lock .., rfl⟩
  | _ => exact .inl ⟨rfl, rfl⟩

theorem Pool.Access.tasks {pc : Pc} (h : s.Access limits t a pc m q) :
    (m.goto t q).tasks = Function.update s.tasks t q := by
  cases h <;> rfl

/-- Only the end of a dial adds a connection. -/
theorem Pool.Access.conns {pc : Pc} (h : s.Access limits t a pc m q) :
    (m.conns = s.conns ∧ pc.pushes = none) ∨ ∃ k proto c, pc = .push k proto c ∧ q = .takeSender (.dialled k c) ∧
      m.conns = Function.update s.conns k (s.conns k ++ [c]) := by
  cases h with
  | push k proto c => exact .inr ⟨k, proto, c, rfl, rfl, rfl⟩
  | _ => exact .inl ⟨rfl, rfl⟩

theorem Pool.Access.closed {pc : Pc} (h : s.Access limits t a pc m q) : m.closed = s.closed := by
  cases h <;> rfl

theorem Pool.Access.senderClosed {pc : Pc} (h : s.Access limits t a pc m q) (c : ConnId) :
    (m.entries c).senderClosed = (s.entries c).senderClosed := by
  cases h with
  | take | addActive | subActive | storeDead | putBack | push => exact update_part (f := Conn.senderClosed) (by rfl) c
  | _ => rfl

theorem Pool.Stepped.senderClosed (h : s.Stepped limits a p) {c : ConnId} (hc : (s.entries c).senderClosed = true) :
    (p.entries c).senderClosed = true := by
  cases h with
  | task h => exact (h.senderClosed c).trans hc
  | peerClose i =>
    exact forall_update (Q := fun j (e : Conn) => (s.entries j).senderClosed = true → e.senderClosed = true)
      (fun _ => rfl) (fun _ _ => id) c hc
  | newGuard | dropGuard => exact (update_part (f := Conn.senderClosed) (by rfl) c).trans hc

theorem Pool.Locked.step (hs : s.Locked) (h : s.Stepped limits a p) : p.Locked := by
  intro k
  cases h with
  | peerClose | newGuard | dropGuard => exact hs k
  | @task t a m q h =>
    rw [h.tasks]
    change Guards _ (m.dialLocks k) _
    rcases h.lock with ⟨hq, hm⟩ | ⟨k', hpc, hfree, hq, hm⟩ | ⟨k', hpc, hq, hm⟩
    · rw [hm]
      exact (hs k).keep (by rw [hq])
    · rw [hm]
      by_cases hk : k = k'
      · subst hk
        rw [Function.update_self]
        exact (hfree ▸ hs k : Guards _ none s.tasks).acquire hq
      · rw [Function.update_of_ne hk]
        refine (hs k).keep ?_
        rw [hpc, hq]
        exact ⟨fun he => absurd (Option.some.inj he).symm hk, fun he => (by cases he)⟩
    · rw [hm]
      by_cases hk : k = k'
      · subst hk
        rw [Function.update_self]
        exact (hs k).release hpc fun he => (by rw [hq] at he; cases he)
      · rw [Function.update_of_ne hk]
        refine (hs k).keep ?_
        rw [hpc, hq]
        exact ⟨fun he => (by cases he), fun he => absurd (Option.some.inj he).symm hk⟩

/-- Two tasks do not dial for one key at a time. -/
theorem Pool.Locked.alone (hs : s.Locked) {u : TaskId} {k : PoolKey} (ht : (s.tasks t).lock = some k)
    (hu : (s.tasks u).lock = some k) : t = u :=
  Option.some.inj (((hs k t).mpr ht).symm.trans ((hs k u).mpr hu))

end DialLock

end Hyper4k.Pooling
