import Mathlib.Logic.Function.Basic
import Hyper4k.Bridge.Slot
import Hyper4k.Runs.Guarded

/-! The connection pool, cut at every atomic access and lock-protected section: any number of
`acquire` calls and leases, peers that close their connections, and pause guards. -/
namespace Hyper4k.Pooling
open Bridge (ConnId ErrorKind)

abbrev TaskId := Nat

structure PoolKey where
  scheme : String
  host : String
  port : UInt16
  deriving DecidableEq, Repr

inductive Proto
  | h1 | h2
  deriving DecidableEq, Repr

/-- `ConnEntry`. `idle` says that the sender of an h1 connection is in its slot;
`senderClosed` is what `is_closed` answers on the sender. -/
structure Conn where
  proto : Proto := .h1
  idle : Bool := true
  senderClosed : Bool := false
  dead : Bool := false
  active : Int := 0
  paused : Int := 0
  deriving DecidableEq, Repr

def DEFAULT_MAX_CONNS_PER_KEY : Nat := 8

/-- Paused streams allowed on one h2 connection. -/
def DEFAULT_PAUSED_CAP : Nat := 4

structure Limits where
  maxConnsPerKey : Nat := DEFAULT_MAX_CONNS_PER_KEY
  pausedCap : Nat := DEFAULT_PAUSED_CAP

/-- The loop of `reuse` at one entry. `dialing` tells its second call, under the dial lock. -/
structure Scan where
  key : PoolKey
  dialing : Bool
  conn : ConnId
  rest : List ConnId
  deriving DecidableEq, Repr

/-- Who calls `ConnEntry::closed`: `eligible`, or the count of live connections. -/
inductive ClosedAt
  | reuse (x : Scan)
  | count (key : PoolKey) (live : Nat) (conn : ConnId) (rest : List ConnId)
  deriving DecidableEq, Repr

/-- Who calls `take_lease`: `reuse`, or `acquire` on the connection it has dialled. -/
inductive TakeAt
  | reuse (x : Scan)
  | dialled (key : PoolKey) (conn : ConnId)
  deriving DecidableEq, Repr

def ClosedAt.conn : ClosedAt → ConnId
  | .reuse x => x.conn
  | .count _ _ c _ => c

def TakeAt.conn : TakeAt → ConnId
  | .reuse x => x.conn
  | .dialled _ c => c

/-- Program counters of `acquire` and of `Lease::drop`; each names the access that comes
next. `leased` and `failed` are what `acquire` has returned. -/
inductive Pc
  | idle
  | loadClosed (key : PoolKey)
  | getList (key : PoolKey) (dialing : Bool)
  | loadDead (site : ClosedAt)
  | loadSender (site : ClosedAt)
  | loadPaused (x : Scan)
  | slotIdle (x : Scan)
  | takeSender (site : TakeAt)
  | addActive (site : TakeAt)
  | dropList (key : PoolKey) (dialing : Bool) (found : Option ConnId)
  | lockDial (key : PoolKey)
  | getCount (key : PoolKey)
  | dropCount (key : PoolKey) (live : Nat)
  | connect (key : PoolKey)
  | fetchId (key : PoolKey) (proto : Proto)
  | push (key : PoolKey) (proto : Proto) (conn : ConnId)
  | unlockDial (key : PoolKey) (result : Except ErrorKind ConnId)
  | leased (conn : ConnId)
  | failed (kind : ErrorKind)
  | dropSender (conn : ConnId)
  | storeDead (conn : ConnId)
  | putBack (conn : ConnId)
  | subActive (conn : ConnId)
  deriving DecidableEq

def Pc.lease : Pc → Option ConnId
  | .leased c => some c
  | _ => none

/-- `reuse` goes on to the next entry of its list. -/
def Pc.scan (key : PoolKey) (dialing : Bool) : List ConnId → Pc
  | [] => .dropList key dialing none
  | c :: rest => .loadDead (.reuse ⟨key, dialing, c, rest⟩)

def Pc.count (key : PoolKey) (live : Nat) : List ConnId → Pc
  | [] => .dropCount key live
  | c :: rest => .loadDead (.count key live c rest)

def Scan.next (x : Scan) : Pc := .scan x.key x.dialing x.rest

def ClosedAt.closed : ClosedAt → Pc
  | .reuse x => x.next
  | .count key live _ rest => .count key live rest

def ClosedAt.live : ClosedAt → Pc
  | .reuse x => .loadPaused x
  | .count key live _ rest => .count key (live + 1) rest

def TakeAt.taken : TakeAt → Pc
  | .reuse x => .dropList x.key x.dialing (some x.conn)
  | .dialled key c => .unlockDial key (.ok c)

/-- Another lease has the exclusive sender. -/
def TakeAt.missed : TakeAt → Pc
  | .reuse x => x.next
  | .dialled key _ => .unlockDial key (.error .connect)

/-- The pool and its users. `readers` counts the `acquire` calls that hold a list of `conns`;
a connection is pushed only when nobody does. -/
structure Pool where
  entries : ConnId → Conn := fun _ => {}
  conns : PoolKey → List ConnId := fun _ => []
  readers : PoolKey → Nat := fun _ => 0
  dialLocks : PoolKey → Option TaskId := fun _ => none
  nextId : ConnId := 1
  closed : Bool := false
  tasks : TaskId → Pc := fun _ => .idle

namespace Pool

def goto (s : Pool) (t : TaskId) (pc : Pc) : Pool := { s with tasks := Function.update s.tasks t pc }

def setEntry (s : Pool) (c : ConnId) (e : Conn) : Pool := { s with entries := Function.update s.entries c e }

def setReaders (s : Pool) (k : PoolKey) (n : Nat) : Pool := { s with readers := Function.update s.readers k n }

def setDial (s : Pool) (k : PoolKey) (holder : Option TaskId) : Pool :=
  { s with dialLocks := Function.update s.dialLocks k holder }

/-- What the sender in the slot answers: a sender that is lent out answers nothing. -/
def slotClosed (e : Conn) : Bool :=
  match e.proto with
  | .h2 => e.senderClosed
  | .h1 => e.idle && e.senderClosed

def exec (limits : Limits) (s : Pool) (t : TaskId) : Option Pool :=
  match s.tasks t with
  | .loadClosed k => some (s.goto t (if s.closed then .failed .cancelled else .getList k false))
  | .getList k dialing => some ((s.setReaders k (s.readers k + 1)).goto t (.scan k dialing (s.conns k)))
  | .loadDead x => some (s.goto t (if (s.entries x.conn).dead then x.closed else .loadSender x))
  | .loadSender x => some (s.goto t (if slotClosed (s.entries x.conn) then x.closed else x.live))
  | .loadPaused x =>
    some (s.goto t (if (s.entries x.conn).paused ≥ limits.pausedCap then x.next
      else match (s.entries x.conn).proto with
        | .h2 => .takeSender (.reuse x)
        | .h1 => .slotIdle x))
  | .slotIdle x => some (s.goto t (if (s.entries x.conn).idle then .takeSender (.reuse x) else x.next))
  | .takeSender x =>
    match (s.entries x.conn).proto with
    | .h2 => some (s.goto t (.addActive x))
    | .h1 =>
      if (s.entries x.conn).idle then
        some ((s.setEntry x.conn { s.entries x.conn with idle := false }).goto t (.addActive x))
      else some (s.goto t x.missed)
  | .addActive x =>
    some ((s.setEntry x.conn { s.entries x.conn with active := (s.entries x.conn).active + 1 }).goto t x.taken)
  | .dropList k dialing found =>
    some ((s.setReaders k (s.readers k - 1)).goto t (match found, dialing with
      | some c, false => .leased c
      | some c, true => .unlockDial k (.ok c)
      | none, false => .lockDial k
      | none, true => .getCount k))
  | .lockDial k => if s.dialLocks k = none then some ((s.setDial k (some t)).goto t (.getList k true)) else none
  | .getCount k => some ((s.setReaders k (s.readers k + 1)).goto t (.count k 0 (s.conns k)))
  | .dropCount k live =>
    some ((s.setReaders k (s.readers k - 1)).goto t
      (if live ≥ limits.maxConnsPerKey then .unlockDial k (.error .connect) else .connect k))
  | .fetchId k proto => some ({ s with nextId := s.nextId + 1 }.goto t (.push k proto s.nextId))
  | .push k proto c =>
    if s.readers k = 0 then
      some (({ s with conns := Function.update s.conns k (s.conns k ++ [c]) }.setEntry c
        { s.entries c with proto := proto }).goto t (.takeSender (.dialled k c)))
    else none
  | .unlockDial k result =>
    some ((s.setDial k none).goto t (match result with
      | .ok c => .leased c
      | .error kind => .failed kind))
  | .dropSender c =>
    some (s.goto t (if (s.entries c).senderClosed then .storeDead c else match (s.entries c).proto with
      | .h1 => .putBack c
      | .h2 => .subActive c))
  | .storeDead c => some ((s.setEntry c { s.entries c with dead := true }).goto t (.subActive c))
  | .putBack c => some ((s.setEntry c { s.entries c with idle := true }).goto t (.subActive c))
  | .subActive c => some ((s.setEntry c { s.entries c with active := (s.entries c).active - 1 }).goto t .idle)
  | .idle | .connect _ | .leased _ | .failed _ => none

end Pool

inductive Act
  | acquire (t : TaskId) (key : PoolKey)
  | exec (t : TaskId)
  | connected (t : TaskId) (result : Except ErrorKind Proto)
  | abandon (t : TaskId)
  | dropLease (t : TaskId)
  | forget (t : TaskId)
  | peerClose (c : ConnId)
  | newGuard (c : ConnId)
  | dropGuard (c : ConnId)
  deriving DecidableEq

def Pool.addPaused (s : Pool) (c : ConnId) (d : Int) : Pool :=
  s.setEntry c { s.entries c with paused := (s.entries c).paused + d }

def Pool.step (limits : Limits) (s : Pool) : Act → Option Pool
  | .acquire t k => match s.tasks t with
    | .idle => some (s.goto t (.loadClosed k))
    | _ => none
  | .exec t => s.exec limits t
  | .connected t result => match s.tasks t, result with
    | .connect k, .ok proto => some (s.goto t (.fetchId k proto))
    | .connect k, .error kind => some (s.goto t (.unlockDial k (.error kind)))
    | _, _ => none
  -- the future of `acquire` is dropped where it waits, and the dial lock with it
  | .abandon t => match s.tasks t with
    | .lockDial _ => some (s.goto t .idle)
    | .connect k => some ((s.setDial k none).goto t .idle)
    | _ => none
  | .dropLease t => match s.tasks t with
    | .leased c => some (s.goto t (.dropSender c))
    | _ => none
  | .forget t => match s.tasks t with
    | .failed _ => some (s.goto t .idle)
    | _ => none
  | .peerClose c => some (s.setEntry c { s.entries c with senderClosed := true })
  -- `PauseGuard::new` and its drop
  | .newGuard c => some (s.addPaused c 1)
  | .dropGuard c => some (s.addPaused c (-1))

end Hyper4k.Pooling
