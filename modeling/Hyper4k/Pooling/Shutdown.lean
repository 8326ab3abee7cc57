import Hyper4k.Pooling.Senders
import Hyper4k.Runs.Observed

/-! `Pool::shutdown` beside any number of `acquire` calls: the winner of the flag drains the map
once, the others wait for it. -/
namespace Hyper4k.Pooling
open Bridge (ConnId ErrorKind)
open Runs

/-- The task that drives a connection: its handle has been taken out of the entry, it has been
aborted, it has ended. -/
structure Driver where
  taken : Bool := false
  aborted : Bool := false
  ended : Bool := false
  deriving DecidableEq, Repr

/-- Where a call of `shutdown` is. The loops over `conns` keep the keys that were in the map when
they began and the keys they have passed. -/
inductive ShutPc
  | idle
  | swap
  | loadComplete
  | notified
  | reloadComplete (seen : Nat)
  | wait (seen : Nat)
  | storeClosed
  | iterMut
  | nextList (due passed : List PoolKey) (handles : List ConnId)
  | storeDead (key : PoolKey) (entries : List ConnId) (due passed : List PoolKey) (handles : List ConnId)
  | takeDriver (key : PoolKey) (conn : ConnId) (rest : List ConnId) (due passed : List PoolKey)
      (handles : List ConnId)
  | clear (handles : List ConnId)
  | nextClear (due passed : List PoolKey) (handles : List ConnId)
  | abort (handles : List ConnId)
  | join (conn : ConnId) (rest : List ConnId)
  | storeComplete
  | notify
  deriving DecidableEq, Repr

/-- The pool with what `shutdown` uses. `keys` are the keys of the map, `writer` is the one whose
list `iter_mut` has locked, `notices` counts the calls of `notify_waiters`. -/
structure ClosingPool where
  pool : Pool := {}
  keys : List PoolKey := []
  writer : Option PoolKey := none
  drivers : ConnId → Driver := fun _ => {}
  shuttingDown : Bool := false
  complete : Bool := false
  notices : Nat := 0
  calls : Nat → ShutPc := fun _ => .idle

namespace ClosingPool

def goto (s : ClosingPool) (u : Nat) (pc : ShutPc) : ClosingPool :=
  { s with calls := Function.update s.calls u pc }

def setDriver (s : ClosingPool) (c : ConnId) (d : Driver) : ClosingPool :=
  { s with drivers := Function.update s.drivers c d }

/-- The next access of a call of `shutdown`. -/
def exec (s : ClosingPool) (u : Nat) : Option ClosingPool :=
  match s.calls u with
  | .swap => some ({ s with shuttingDown := true }.goto u (if s.shuttingDown then .loadComplete else .storeClosed))
  | .loadComplete => some (s.goto u (if s.complete then .idle else .notified))
  | .notified => some (s.goto u (.reloadComplete s.notices))
  | .reloadComplete seen => some (s.goto u (if s.complete then .idle else .wait seen))
  | .wait seen => if seen < s.notices then some (s.goto u .loadComplete) else none
  | .storeClosed => some ({ s with pool := { s.pool with closed := true } }.goto u .iterMut)
  | .iterMut => some (s.goto u (.nextList s.keys [] []))
  | .nextList due passed handles => if ∀ k ∈ due, k ∈ passed then some (s.goto u (.clear handles)) else none
  | .storeDead k [] due passed handles =>
    some ({ s with writer := none }.goto u (.nextList due (k :: passed) handles))
  | .storeDead k (c :: rest) due passed handles =>
    some ({ s with pool := s.pool.setEntry c { s.pool.entries c with dead := true } }.goto u
      (.takeDriver k c rest due passed handles))
  | .takeDriver k c rest due passed handles =>
    some ((s.setDriver c { s.drivers c with taken := true }).goto u
      (.storeDead k rest due passed (if (s.drivers c).taken then handles else handles ++ [c])))
  | .clear handles => some (s.goto u (.nextClear s.keys [] handles))
  | .nextClear due passed handles => if ∀ k ∈ due, k ∈ passed then some (s.goto u (.abort handles)) else none
  | .abort [] => some (s.goto u .storeComplete)
  | .abort (c :: rest) => some ((s.setDriver c { s.drivers c with aborted := true }).goto u (.join c rest))
  | .join c rest => if (s.drivers c).ended then some (s.goto u (.abort rest)) else none
  | .storeComplete => some ({ s with complete := true }.goto u .notify)
  | .notify => some ({ s with notices := s.notices + 1 }.goto u .idle)
  | .idle => none

end ClosingPool

def Pc.opens : Pc → Option PoolKey
  | .getList k _ | .getCount k | .push k _ _ => some k
  | _ => none

def Pc.files : Pc → Option PoolKey
  | .push k _ _ => some k
  | _ => none

/-- Steps of the pool and of `shutdown`. The loops over the map go from key to key in an order of
the map's own. -/
inductive ShutAct
  | pool (a : Act)
  | shutdown (u : Nat)
  | exec (u : Nat)
  | visit (u : Nat) (key : PoolKey)
  | remove (u : Nat) (key : PoolKey)
  | driverEnd (c : ConnId)
  deriving DecidableEq

namespace ClosingPool

/-- The list that the next access of the pool needs is locked by `iter_mut`. -/
def blocked (s : ClosingPool) : Act → Bool
  | .exec t => s.writer.isSome && (s.pool.tasks t).opens == s.writer
  | _ => false

def keysAfter (s : ClosingPool) : Act → List PoolKey
  | .exec t => match (s.pool.tasks t).files with
    | some k => if k ∈ s.keys then s.keys else s.keys ++ [k]
    | none => s.keys
  | _ => s.keys

/-- `clear` reaches the list of a key. -/
def removeKey (s : ClosingPool) (k : PoolKey) : ClosingPool :=
  { s with pool := { s.pool with conns := Function.update s.pool.conns k [] }, keys := s.keys.filter (· ≠ k) }

def step (limits : Limits) (s : ClosingPool) : ShutAct → Option ClosingPool
  | .pool a => if s.blocked a then none else
      (s.pool.step limits a).map fun pool => { s with pool, keys := s.keysAfter a }
  | .shutdown u => match s.calls u with
    | .idle => some (s.goto u .swap)
    | _ => none
  | .exec u => s.exec u
  | .visit u k => match s.calls u with
    | .nextList due passed handles =>
      if k ∈ s.keys ∧ k ∉ passed ∧ s.pool.readers k = 0 then
        some ({ s with writer := some k }.goto u (.storeDead k (s.pool.conns k) due passed handles))
      else none
    | _ => none
  | .remove u k => match s.calls u with
    | .nextClear due passed handles =>
      if k ∈ s.keys ∧ k ∉ passed ∧ s.pool.readers k = 0 then
        some ((s.removeKey k).goto u (.nextClear due (k :: passed) handles))
      else none
    | _ => none
  | .driverEnd c => some (s.setDriver c { s.drivers c with ended := true })

end ClosingPool

/-- What an observer notes: the connections that were ever put into the map, and those that were
established after the pool was closed. -/
structure Arrivals where
  pushed : List ConnId := []
  lateDial : TaskId → Bool := fun _ => false
  late : ConnId → Bool := fun _ => false

/-- The notes on a step of the pool. A dial is late when the connector answers under a closed
pool, and its connection gets its identifier afterwards. -/
def Arrivals.poolNote (s : Pool) (o : Arrivals) : Act → Arrivals
  | .connected t (.ok _) => { o with lateDial := Function.update o.lateDial t s.closed }
  | .exec t => match s.tasks t with
    | .fetchId _ _ => { o with late := Function.update o.late s.nextId (o.lateDial t) }
    | pc => { o with pushed := o.pushed ++ pc.pushes.toList }
  | _ => o

def Arrivals.note (s : ClosingPool) (b : ShutAct) (_ : ClosingPool) (o : Arrivals) : Arrivals :=
  match b with
  | .pool a => o.poolNote s.pool a
  | _ => o

abbrev ClosingPool.Reaches (limits : Limits) (ok : ClosingPool × Arrivals → ShutAct → Prop) (as : List ShutAct)
    (s : ClosingPool) (o : Arrivals) : Prop :=
  Run (observe (ClosingPool.step limits) Arrivals.note) ok ({}, {}) as (s, o)

inductive ClosingPool.Moved (limits : Limits) (s : ClosingPool) : ShutAct → ClosingPool → Prop
  | pool {a : Act} {p : Pool} (h : s.pool.Stepped limits a p) :
      Moved limits s (.pool a) { s with pool := p, keys := s.keysAfter a }
  | call (u : Nat) : Moved limits s (.shutdown u) (s.goto u .swap)
  | exec {u : Nat} {t : ClosingPool} (h : s.exec u = some t) : Moved limits s (.exec u) t
  | visit (u : Nat) (k : PoolKey) {due passed : List PoolKey} {handles : List ConnId}
      (hpc : s.calls u = .nextList due passed handles) :
      Moved limits s (.visit u k)
        ({ s with writer := some k }.goto u (.storeDead k (s.pool.conns k) due passed handles))
  | remove (u : Nat) (k : PoolKey) {due passed : List PoolKey} {handles : List ConnId}
      (hpc : s.calls u = .nextClear due passed handles) :
      Moved limits s (.remove u k) ((s.removeKey k).goto u (.nextClear due (k :: passed) handles))
  | driverEnd (c : ConnId) : Moved limits s (.driverEnd c) (s.setDriver c { s.drivers c with ended := true })

theorem ClosingPool.step_cases {limits : Limits} {s t : ClosingPool} {b : ShutAct} (h : s.step limits b = some t) :
    s.Moved limits b t := by
  cases b with
  | pool a =>
    simp only [ClosingPool.step] at h
    split at h
    · cases h
    · obtain ⟨p, hp, rfl⟩ := Option.map_eq_some_iff.mp h
      exact .pool (Pool.step_cases hp)
  | shutdown u =>
    simp only [ClosingPool.step] at h
    split at h
    · cases h
      exact .call u
    · cases h
  | exec u => exact .exec h
  | visit u k =>
    simp only [ClosingPool.step] at h
    split at h
    · rename_i hpc
      split at h <;> cases h
      exact .visit u k hpc
    · cases h
  | remove u k =>
    simp only [ClosingPool.step] at h
    split at h
    · rename_i hpc
      split at h <;> cases h
      exact .remove u k hpc
    · cases h
  | driverEnd c =>
    cases h
    exact .driverEnd c

section Moves
variable {limits : Limits} {s t : ClosingPool} {p : Pool} {o : Arrivals} {a : Act} {b : ShutAct}

theorem Arrivals.poolNote_pushed (o : Arrivals) : (o.poolNote p a).pushed = o.pushed ++ p.filing a := by
  cases a with
  | exec v =>
    simp only [Arrivals.poolNote, Pool.filing]
    cases p.tasks v with
    | fetchId => exact (List.append_nil _).symm
    | _ => rfl
  | connected v result => cases result <;> exact (List.append_nil _).symm
  | _ => exact (List.append_nil _).symm

theorem Pool.Stepped.closed {p' : Pool} (h : p.Stepped limits a p') : p'.closed = p.closed := by
  cases h with
  | task h => exact h.closed
  | _ => rfl

theorem ClosingPool.exec_pool {u : Nat} (h : s.exec u = some t) :
    t.pool.tasks = s.pool.tasks ∧ t.pool.nextId = s.pool.nextId ∧ t.pool.conns = s.pool.conns ∧
      (∀ c, ∃ dead, t.pool.entries c = { s.pool.entries c with dead }) ∧
      (s.pool.closed = true → t.pool.closed = true) := by
  unfold ClosingPool.exec at h
  repeat' split at h
  all_goals first
    | cases h; exact ⟨rfl, rfl, rfl, fun _ => ⟨_, rfl⟩, id⟩
    | cases h; exact ⟨rfl, rfl, rfl, fun _ => ⟨_, rfl⟩, fun _ => rfl⟩
    | cases h; exact ⟨rfl, rfl, rfl,
        forall_update (Q := fun c (e : Conn) => ∃ dead, e = { s.pool.entries c with dead }) ⟨_, rfl⟩ fun _ _ => ⟨_, rfl⟩, id⟩
    | cases h

theorem ClosingPool.Moved.closed (h : s.Moved limits b t) (hc : s.pool.closed = true) : t.pool.closed = true := by
  cases h with
  | pool h => exact h.closed.trans hc
  | exec h => exact (ClosingPool.exec_pool h).2.2.2.2 hc
  | _ => exact hc

def ClosingPool.filing (s : ClosingPool) : ShutAct → List ConnId
  | .pool a => s.pool.filing a
  | _ => []

theorem Arrivals.note_pushed : (Arrivals.note s b t o).pushed = o.pushed ++ s.filing b := by
  cases b with
  | pool a => exact o.poolNote_pushed
  | _ => exact (List.append_nil _).symm

/-- `shutdown` moves no sender. -/
theorem ClosingPool.Moved.owned {filed : List ConnId} (h : s.Moved limits b t) (hs : s.pool.Owned filed) :
    t.pool.Owned (filed ++ s.filing b) := by
  cases h with
  | pool h => exact hs.step h
  | exec h =>
    obtain ⟨htasks, hid, hconns, hentries, -⟩ := ClosingPool.exec_pool h
    rw [show s.filing _ = [] from rfl, List.append_nil]
    refine hs.later (fun k c hc => by rwa [hconns] at hc) htasks hid (fun c => ?_) fun c => ?_
    all_goals
      obtain ⟨dead, he⟩ := hentries c
      rw [he]
  | remove u k =>
    rw [show s.filing _ = [] from rfl, List.append_nil]
    refine hs.later (fun k' c hc => ?_) rfl rfl (fun _ => rfl) fun _ => rfl
    change c ∈ Function.update s.pool.conns k [] k' at hc
    by_cases hk : k' = k
    · rw [hk, Function.update_self] at hc
      exact absurd hc List.not_mem_nil
    · rwa [Function.update_of_ne hk] at hc
  | call | visit | driverEnd =>
    rw [show s.filing _ = [] from rfl, List.append_nil]
    exact hs

/-- A task of the pool moves, or the senders stay where they are. -/
theorem ClosingPool.Moved.senders (h : s.Moved limits b t) :
    (∃ v a m q, b = .pool a ∧ s.pool.Access limits v a (s.pool.tasks v) m q ∧ t.pool = m.goto v q) ∨
      (t.pool.tasks = s.pool.tasks ∧ ∀ c, (t.pool.entries c).proto = (s.pool.entries c).proto ∧
        (t.pool.entries c).idle = (s.pool.entries c).idle) := by
  cases h with
  | pool h =>
    cases h with
    | task h => exact .inl ⟨_, _, _, _, rfl, h, rfl⟩
    | peerClose | newGuard | dropGuard =>
      exact .inr ⟨rfl, fun c => ⟨update_part (f := Conn.proto) (by rfl) c, update_part (f := Conn.idle) (by rfl) c⟩⟩
  | exec h =>
    obtain ⟨htasks, -, -, hentries, -⟩ := ClosingPool.exec_pool h
    refine .inr ⟨htasks, fun c => ?_⟩
    obtain ⟨dead, he⟩ := hentries c
    rw [he]
    exact ⟨rfl, rfl⟩
  | call | visit | remove | driverEnd => exact .inr ⟨rfl, fun _ => ⟨rfl, rfl⟩⟩

theorem ClosingPool.Moved.senderClosed (h : s.Moved limits b t) {c : ConnId}
    (hc : (s.pool.entries c).senderClosed = true) : (t.pool.entries c).senderClosed = true := by
  cases h with
  | pool h => exact h.senderClosed hc
  | exec h =>
    obtain ⟨dead, he⟩ := (ClosingPool.exec_pool h).2.2.2.1 c
    rw [he]
    exact hc
  | call | visit | remove | driverEnd => exact hc

end Moves

end Hyper4k.Pooling
