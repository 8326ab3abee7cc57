import Hyper4k.Runs.Guarded
import Hyper4k.Runs.Threads
import Hyper4k.Runs.Credits

/-! The bridge executor: worker threads that share a ready queue under a lock and a
condition variable, the threads that call `schedule`, and `shutdown`. -/
namespace Hyper4k.Executor
open Runs

/-- Program counters of `worker_loop` and `schedule`; `τ` stands for `Arc<dyn Runnable>`.
`lockBack` to `unlock` are the same three lines in both: put a slot back and notify. -/
inductive Pc (τ : Type)
  | away
  | checkStopped
  | lockReady
  | popFront
  | loadStopped
  | wait
  | waiting
  | relock
  | release (found : Option τ)
  | runSlice (slot : τ)
  | lockBack (slot : τ)
  | pushBack (slot : τ)
  | notifyOne
  | unlock
  | exited
  deriving DecidableEq, Repr

inductive Tid
  | worker (n : Nat)
  | caller (n : Nat)
  deriving DecidableEq, Repr

/-- `BridgeExecutor::shutdown`; the workers are joined in order. -/
inductive Shutdown
  | idle
  | storeStopped
  | notifyAll
  | join (n : Nat)
  | done
  deriving DecidableEq, Repr

/-- `Shared`, the lock of its `ready` queue, and where every thread is. -/
structure Exec (τ : Type) where
  threads : Nat
  ready : List τ
  lock : Option Tid
  stopped : Bool
  pc : Tid → Pc τ
  shutdown : Shutdown

/-- `BridgeExecutor::new`. -/
def Exec.new (τ : Type) (threads : Nat) : Exec τ where
  threads := threads
  ready := []
  lock := none
  stopped := false
  pc
    | .worker n => if n < threads then .checkStopped else .exited
    | .caller _ => .away
  shutdown := .idle

variable {τ : Type}

def Exec.goto (s : Exec τ) (t : Tid) (p : Pc τ) : Exec τ := { s with pc := Function.update s.pc t p }

def Exec.acquire (s : Exec τ) (t : Tid) (p : Pc τ) : Option (Exec τ) :=
  if s.lock = none then some ({ s with lock := some t }.goto t p) else none

def Exec.exec (s : Exec τ) (t : Tid) : Option (Exec τ) :=
  match s.pc t with
  | .checkStopped => some (s.goto t (if s.stopped then .exited else .lockReady))
  | .lockReady | .relock => s.acquire t .popFront
  | .popFront => match s.ready with
    | slot :: rest => some ({ s with ready := rest }.goto t (.release (some slot)))
    | [] => some (s.goto t .loadStopped)
  | .loadStopped => some (s.goto t (if s.stopped then .release none else .wait))
  -- `Condvar::wait` gives up the lock and joins the wait set at once
  | .wait => some ({ s with lock := none }.goto t .waiting)
  | .release found => some ({ s with lock := none }.goto t (match found with
    | some slot => .runSlice slot
    | none => .exited))
  | .lockBack slot => s.acquire t (.pushBack slot)
  | .pushBack slot => some ({ s with ready := s.ready ++ [slot] }.goto t .notifyOne)
  | .unlock => some ({ s with lock := none }.goto t (match t with
    | .worker _ => .checkStopped
    | .caller _ => .away))
  | .away | .waiting | .runSlice _ | .notifyOne | .exited => none

def Pc.isWaiting : Pc τ → Bool
  | .waiting => true
  | _ => false

/-- The worker has read `stopped` as false under the lock and is about to wait. -/
def Pc.isWait : Pc τ → Bool
  | .wait => true
  | _ => false

def Pc.isAway : Pc τ → Bool
  | .away => true
  | _ => false

def Pc.isExited : Pc τ → Bool
  | .exited => true
  | _ => false

theorem Pc.eq_waiting {p : Pc τ} (h : p.isWaiting = true) : p = .waiting := by
  cases p <;> first | rfl | cases h

/-- `notify_one` wakes one waiting worker, whichever, if there is one. -/
def Exec.wakeOne (s : Exec τ) : Option Nat → Option (Exec τ)
  | some n => if (s.pc (.worker n)).isWaiting then some (s.goto (.worker n) .relock) else none
  | none => if (List.range s.threads).all fun n => !(s.pc (.worker n)).isWaiting then some s else none

inductive Act (τ : Type)
  | exec (t : Tid)
  | ran (n : Nat) (more : Bool)
  | spurious (n : Nat)
  | notify (t : Tid) (woken : Option Nat)
  | schedule (n : Nat) (slot : τ)
  | shutdown
  deriving DecidableEq, Repr

/-- `shutdown`, one access at a time. -/
def Exec.shut (s : Exec τ) : Option (Exec τ) :=
  match s.shutdown with
  | .idle => some { s with shutdown := .storeStopped }
  | .storeStopped => some { s with stopped := true, shutdown := .notifyAll }
  | .notifyAll => some { s with
      pc := fun t => if (s.pc t).isWaiting then .relock else s.pc t, shutdown := .join 0 }
  | .join n =>
    if n < s.threads then
      if (s.pc (.worker n)).isExited then some { s with shutdown := .join (n + 1) } else none
    else some { s with shutdown := .done }
  | .done => none

def Exec.step (s : Exec τ) : Act τ → Option (Exec τ)
  | .exec t => s.exec t
  | .ran n more => match s.pc (.worker n) with
    | .runSlice slot => some (s.goto (.worker n) (if more then .lockBack slot else .checkStopped))
    | _ => none
  | .spurious n => if (s.pc (.worker n)).isWaiting then some (s.goto (.worker n) .relock) else none
  | .notify t woken => match s.pc t with
    | .notifyOne => (s.wakeOne woken).map (·.goto t .unlock)
    | _ => none
  | .schedule n slot => match s.pc (.caller n) with
    | .away => some (s.goto (.caller n) (.lockBack slot))
    | _ => none
  | .shutdown => s.shut

abbrev Reaches (threads : Nat) (ok : Exec τ → Act τ → Prop) (as : List (Act τ)) (s : Exec τ) : Prop :=
  Runs.Run Exec.step ok (Exec.new τ threads) as s

def Pc.holds : Pc τ → Bool
  | .popFront | .loadStopped | .wait | .release _ | .pushBack _ | .notifyOne | .unlock => true
  | _ => false

def Shutdown.notified : Shutdown → Bool
  | .join _ | .done => true
  | _ => false

/-- What a step does: one thread moves and keeps, takes or gives back the lock, a waiting
worker is notified, or `shutdown` goes on. -/
inductive Exec.Stepped (s : Exec τ) : Act τ → Exec τ → Prop
  | stay {a : Act τ} (t : Tid) (p : Pc τ) (ready : List τ) (live : (s.pc t).isExited = false)
      (holds : p.holds = (s.pc t).holds) (wait : p.isWait = true → s.stopped = false)
      (waiting : p.isWaiting = false) (away : p.isAway = false) :
    s.Stepped a { s with ready := ready, pc := Function.update s.pc t p }
  | acquire {a : Act τ} (t : Tid) (p : Pc τ) (free : s.lock = none) (live : (s.pc t).isExited = false)
      (holds : p.holds = true) (wait : p.isWait = false) :
    s.Stepped a { s with lock := some t, pc := Function.update s.pc t p }
  | release {a : Act τ} (t : Tid) (p : Pc τ) (held : (s.pc t).holds = true) (holds : p.holds = false)
      (waiting : p.isWaiting = true → (s.pc t).isWait = true) (away : p.isAway = true → ∃ n, t = .caller n) :
    s.Stepped a { s with lock := none, pc := Function.update s.pc t p }
  | notify {a : Act τ} (t : Tid) (n : Nat) (ht : s.pc t = .notifyOne) (hn : (s.pc (.worker n)).isWaiting = true) :
    s.Stepped a { s with pc := Function.update (Function.update s.pc (.worker n) .relock) t .unlock }
  | begin (h : s.shutdown = .idle) : s.Stepped .shutdown { s with shutdown := .storeStopped }
  | stop (h : s.shutdown = .storeStopped) : s.Stepped .shutdown { s with stopped := true, shutdown := .notifyAll }
  | notifyAll (h : s.shutdown = .notifyAll) : s.Stepped .shutdown { s with
      pc := fun t => if (s.pc t).isWaiting then .relock else s.pc t, shutdown := .join 0 }
  | join (k : Shutdown) (h : s.shutdown.notified = true) (hk : k.notified = true) :
    s.Stepped .shutdown { s with shutdown := k }

private theorem stay_from {s : Exec τ} {a : Act τ} {t : Tid} {q p : Pc τ} (hpc : s.pc t = q) (ready : List τ)
    (live : q.isExited = false) (holds : p.holds = q.holds) (waiting : p.isWaiting = false)
    (away : p.isAway = false) (wait : p.isWait = true → s.stopped = false) :
    s.Stepped a { s with ready := ready, pc := Function.update s.pc t p } := by
  subst hpc
  exact .stay t p ready live holds wait waiting away

private theorem acquire_from {s u : Exec τ} {a : Act τ} {t : Tid} {q p : Pc τ} (hpc : s.pc t = q)
    (h : s.acquire t p = some u) (live : q.isExited = false) (holds : p.holds = true) (wait : p.isWait = false) :
    s.Stepped a u := by
  subst hpc
  rw [Exec.acquire] at h
  split at h
  · rename_i hfree
    cases h
    exact .acquire t p hfree live holds wait
  · cases h

private theorem release_from {s : Exec τ} {a : Act τ} {t : Tid} {q p : Pc τ} (hpc : s.pc t = q)
    (held : q.holds = true) (holds : p.holds = false) (waiting : p.isWaiting = true → q.isWait = true)
    (away : p.isAway = true → ∃ n, t = .caller n) :
    s.Stepped a { s with lock := none, pc := Function.update s.pc t p } := by
  subst hpc
  exact .release t p held holds waiting away

private theorem exec_cases {s u : Exec τ} {a : Act τ} {t : Tid} (h : s.exec t = some u) : s.Stepped a u := by
  unfold Exec.exec at h
  generalize hpc : s.pc t = q at h
  cases q with
  | checkStopped =>
    cases hs : s.stopped <;> rw [hs] at h <;> cases h <;>
      exact stay_from hpc s.ready rfl rfl rfl rfl fun hw => Bool.noConfusion hw
  | lockReady | relock => exact acquire_from hpc h rfl rfl rfl
  | popFront =>
    simp only at h
    split at h <;> cases h <;> exact stay_from hpc _ rfl rfl rfl rfl fun hw => Bool.noConfusion hw
  | loadStopped =>
    cases hs : s.stopped <;> rw [hs] at h <;> cases h
    · exact stay_from hpc s.ready rfl rfl rfl rfl fun _ => hs
    · exact stay_from hpc s.ready rfl rfl rfl rfl fun hw => Bool.noConfusion hw
  | wait =>
    cases h
    exact release_from hpc rfl rfl (fun _ => rfl) fun ha => Bool.noConfusion ha
  | release found =>
    cases h
    cases found <;> exact release_from hpc rfl rfl (fun hw => Bool.noConfusion hw) fun ha => Bool.noConfusion ha
  | lockBack slot => exact acquire_from hpc h rfl rfl rfl
  | pushBack slot =>
    cases h
    exact stay_from hpc _ rfl rfl rfl rfl fun hw => Bool.noConfusion hw
  | unlock =>
    cases h
    cases t with
    | worker n => exact release_from hpc rfl rfl (fun hw => Bool.noConfusion hw) fun ha => Bool.noConfusion ha
    | caller n => exact release_from hpc rfl rfl (fun hw => Bool.noConfusion hw) fun _ => ⟨n, rfl⟩
  | away | waiting | runSlice slot | notifyOne | exited => cases h

theorem Exec.step_cases {s u : Exec τ} {a : Act τ} (h : s.step a = some u) : s.Stepped a u := by
  cases a with
  | exec t => exact exec_cases h
  | ran n more =>
    rw [Exec.step] at h
    split at h
    case h_2 => cases h
    case h_1 slot hpc =>
      cases more <;> cases h <;> exact stay_from hpc s.ready rfl rfl rfl rfl fun hw => Bool.noConfusion hw
  | spurious n =>
    rw [Exec.step] at h
    split at h
    case isFalse => cases h
    case isTrue hw =>
      cases h
      exact stay_from (Pc.eq_waiting hw) s.ready rfl rfl rfl rfl fun hw => Bool.noConfusion hw
  | notify t woken =>
    rw [Exec.step] at h
    split at h
    case h_2 => cases h
    case h_1 hpc =>
      obtain ⟨v, hv, rfl⟩ := Option.map_eq_some_iff.mp h
      cases woken with
      | some n =>
        rw [Exec.wakeOne] at hv
        split at hv
        · rename_i hw
          cases hv
          exact .notify t n hpc hw
        · cases hv
      | none =>
        rw [Exec.wakeOne] at hv
        split at hv <;> cases hv
        exact stay_from hpc s.ready rfl rfl rfl rfl fun hw => Bool.noConfusion hw
  | schedule n slot =>
    rw [Exec.step] at h
    split at h
    case h_2 => cases h
    case h_1 hpc =>
      cases h
      exact stay_from hpc s.ready rfl rfl rfl rfl fun hw => Bool.noConfusion hw
  | shutdown =>
    rw [Exec.step, Exec.shut] at h
    split at h
    case h_1 hs =>
      cases h
      exact .begin hs
    case h_2 hs =>
      cases h
      exact .stop hs
    case h_3 hs =>
      cases h
      exact .notifyAll hs
    case h_4 n hs =>
      have hn : s.shutdown.notified = true := by rw [hs]; rfl
      split at h
      · split at h <;> cases h
        exact .join _ hn rfl
      · cases h
        exact .join _ hn rfl
    case h_5 => cases h

/-- The lock and its holder agree, `stopped` stays set, no thread beyond the workers runs
`worker_loop`, and after `notify_all` nobody waits or is about to. -/
structure Exec.Sound (s : Exec τ) : Prop where
  guards : Guards (fun p : Pc τ => p.holds = true) s.lock s.pc
  stopped : s.shutdown = .notifyAll ∨ s.shutdown.notified = true → s.stopped = true
  beyond : ∀ n, s.threads ≤ n → (s.pc (.worker n)).isExited = true
  looping : ∀ n, (s.pc (.worker n)).isAway = false
  calm : s.shutdown.notified = true → ∀ t, (s.pc t).isWait = false ∧ (s.pc t).isWaiting = false

theorem Exec.Sound.new (threads : Nat) : (Exec.new τ threads).Sound where
  guards t := by
    refine ⟨fun h => (by cases h), fun h => ?_⟩
    cases t with
    | worker n =>
      simp only [Exec.new] at h
      split at h <;> cases h
    | caller n => cases h
  stopped h := by rcases h with h | h <;> cases h
  beyond n hn := by
    have hn' : ¬ n < threads := Nat.not_lt.mpr hn
    simp only [Exec.new, if_neg hn', Pc.isExited]
  looping n := by
    simp only [Exec.new]
    split <;> rfl
  calm h := by cases h

/-- At its `notify_all`, `shutdown` finds no worker between reading `stopped` as false and
waiting. -/
def Exec.NotifiesAll (s : Exec τ) : Act τ → Prop
  | .shutdown => s.shutdown = .notifyAll → ∀ t, (s.pc t).isWait = false
  | _ => True

private theorem holds_of_isWait {p : Pc τ} (h : p.isWait = true) : p.holds = true := by
  cases p <;> first | rfl | cases h

private theorem beyond_update {s : Exec τ} (hs : s.Sound) {t : Tid} (live : (s.pc t).isExited = false) (p : Pc τ)
    (n : Nat) (hn : s.threads ≤ n) : (Function.update s.pc t p (.worker n)).isExited = true := by
  have hne : Tid.worker n ≠ t := by
    rintro rfl
    rw [hs.beyond n hn] at live
    cases live
  rw [Function.update_of_ne hne]
  exact hs.beyond n hn

private theorem looping_update {s : Exec τ} (hs : s.Sound) {t : Tid} {p : Pc τ}
    (away : p.isAway = true → ∃ n, t = .caller n) (n : Nat) :
    (Function.update s.pc t p (.worker n)).isAway = false := by
  by_cases ht : Tid.worker n = t
  · subst ht
    rw [Function.update_self]
    refine Bool.eq_false_iff.mpr fun ha => ?_
    obtain ⟨m, hm⟩ := away ha
    cases hm
  · rw [Function.update_of_ne ht]
    exact hs.looping n

private theorem calm_update {s : Exec τ} (hs : s.Sound) (hn : s.shutdown.notified = true) {t : Tid} {p : Pc τ}
    (hp : p.isWait = false ∧ p.isWaiting = false) (u : Tid) :
    (Function.update s.pc t p u).isWait = false ∧ (Function.update s.pc t p u).isWaiting = false :=
  forall_update (Q := fun _ (p : Pc τ) => p.isWait = false ∧ p.isWaiting = false) hp (fun u _ => hs.calm hn u) u

private theorem Sound.notify {s : Exec τ} (hs : s.Sound) {t : Tid} {n : Nat} (ht : s.pc t = .notifyOne)
    (hwait : s.pc (.worker n) = .waiting) :
    ({ s with pc := Function.update (Function.update s.pc (.worker n) .relock) t .unlock } : Exec τ).Sound := by
  have hne : t ≠ .worker n := by
    rintro rfl
    rw [ht] at hwait
    cases hwait
  have hother : Function.update s.pc (.worker n) .relock t = .notifyOne := by
    rw [Function.update_of_ne hne, ht]
  refine ⟨(hs.guards.keep ?_).keep ?_, hs.stopped, fun i hi => ?_, fun i => ?_, fun hnot => ?_⟩
  · rw [hwait]
    exact Iff.rfl
  · rw [hother]
    exact Iff.rfl
  · have hold := hs.beyond i hi
    have hit : Tid.worker i ≠ t := by
      rintro rfl
      rw [ht] at hold
      cases hold
    have hin : Tid.worker i ≠ .worker n := by
      intro e
      rw [e, hwait] at hold
      cases hold
    simpa only [Function.update_of_ne hit, Function.update_of_ne hin] using hold
  · let Q : Tid → Pc τ → Prop := fun u p => u = .worker i → p.isAway = false
    have hbase : ∀ u, Q u (s.pc u) := by
      rintro u rfl
      exact hs.looping i
    have hwoken : ∀ u, Q u (Function.update s.pc (.worker n) .relock u) :=
      forall_update (Q := Q) (fun _ => rfl) fun u _ => hbase u
    exact forall_update (Q := Q) (fun _ => rfl) (fun u _ => hwoken u) (.worker i) rfl
  · have hold := (hs.calm hnot (.worker n)).2
    rw [hwait] at hold
    cases hold

private theorem woken (p : Pc τ) :
    (if p.isWaiting then .relock else p).holds = p.holds ∧ (if p.isWaiting then .relock else p).isExited = p.isExited ∧
    (if p.isWaiting then .relock else p).isAway = p.isAway ∧ (if p.isWaiting then .relock else p).isWait = p.isWait ∧
    (if p.isWaiting then .relock else p).isWaiting = false := by
  cases p <;> exact ⟨rfl, rfl, rfl, rfl, rfl⟩

/-- `notify_all` leaves nobody waiting, if nobody was about to wait. -/
private theorem Sound.notifyAll {s : Exec τ} (hs : s.Sound) (h : s.shutdown = .notifyAll)
    (hcalm : ∀ t, (s.pc t).isWait = false) :
    ({ s with pc := fun t => if (s.pc t).isWaiting then .relock else s.pc t, shutdown := .join 0 } : Exec τ).Sound where
  guards t := (hs.guards t).trans (iff_of_eq (congrArg (· = true) (woken (s.pc t)).1.symm))
  stopped _ := hs.stopped (.inl h)
  beyond n hn := (woken (s.pc (.worker n))).2.1.trans (hs.beyond n hn)
  looping n := (woken (s.pc (.worker n))).2.2.1.trans (hs.looping n)
  calm _ t := ⟨(woken (s.pc t)).2.2.2.1.trans (hcalm t), (woken (s.pc t)).2.2.2.2⟩

theorem Exec.Sound.step {s u : Exec τ} {a : Act τ} (hok : s.NotifiesAll a) (hs : s.Sound) (h : s.Stepped a u) :
    u.Sound := by
  cases h with
  | stay t p ready live holds wait waiting away =>
    refine ⟨hs.guards.keep (by rw [holds]), hs.stopped, beyond_update hs live p, looping_update hs fun ha => ?_,
      fun hn => ?_⟩
    · rw [away] at ha
      cases ha
    refine calm_update hs hn ⟨Bool.eq_false_iff.mpr fun hw => ?_, waiting⟩
    have hstopped := hs.stopped (.inr hn)
    rw [wait hw] at hstopped
    cases hstopped
  | acquire t p free live holds wait =>
    have hplace : p.isAway = false ∧ p.isWaiting = false := by
      cases p <;> first | exact ⟨rfl, rfl⟩ | cases holds
    refine ⟨Guards.acquire (by rw [← free]; exact hs.guards) holds, hs.stopped, beyond_update hs live p,
      looping_update hs fun ha => ?_, fun hn => calm_update hs hn ⟨wait, hplace.2⟩⟩
    rw [hplace.1] at ha
    cases ha
  | release t p held holds waiting away =>
    have live : (s.pc t).isExited = false := by
      generalize s.pc t = q at held
      cases q <;> first | rfl | cases held
    refine ⟨hs.guards.release held (by rw [holds]; exact Bool.false_ne_true), hs.stopped, beyond_update hs live p,
      looping_update hs away, fun hn => ?_⟩
    refine calm_update hs hn ⟨Bool.eq_false_iff.mpr fun hw => ?_, Bool.eq_false_iff.mpr fun hw => ?_⟩
    · rw [holds_of_isWait hw] at holds
      cases holds
    · have hold := (hs.calm hn t).1
      rw [waiting hw] at hold
      cases hold
  | notify t n ht hn => exact Sound.notify hs ht (Pc.eq_waiting hn)
  | begin h =>
    refine ⟨hs.guards, fun hn => ?_, hs.beyond, hs.looping, fun hn => (by cases hn)⟩
    rcases hn with hn | hn <;> cases hn
  | stop h => exact ⟨hs.guards, fun _ => rfl, hs.beyond, hs.looping, fun hn => (by cases hn)⟩
  | notifyAll h => exact Sound.notifyAll hs h (hok h)
  | join k h hk => exact ⟨hs.guards, fun _ => hs.stopped (.inr h), hs.beyond, hs.looping, fun _ => hs.calm h⟩

theorem Reaches.sound {threads : Nat} {as : List (Act τ)} {s : Exec τ}
    (h : Reaches threads Exec.NotifiesAll as s) : s.Sound :=
  Run.invariant h (fun _ _ _ hok hs hstep => hs.step hok (Exec.step_cases hstep)) (.new threads)

def Pc.left : Pc τ → Nat
  | .away | .exited => 0
  | .checkStopped | .release none => 1
  | .loadStopped | .unlock => 2
  | .notifyOne => 3
  | .pushBack _ => 4
  | .lockBack _ => 5
  | .runSlice _ => 6
  | .release (some _) => 7
  | .popFront => 8
  | .lockReady | .relock => 9
  | .wait | .waiting => 10

def Shutdown.left (threads : Nat) : Shutdown → Nat
  | .join n => threads - n + 1
  | _ => 0

/-- Nothing new is scheduled, and no worker wakes without being notified. -/
def Exec.Drains (_ : Exec τ) : Act τ → Prop
  | .schedule _ _ | .spurious _ => False
  | _ => True

/-- A step towards the end of `shutdown`: one thread, or `shutdown` itself, has less left. -/
inductive Exec.Descent (s u : Exec τ) : Prop
  | thread (t : Tid) (p : Pc τ) (pc : u.pc = Function.update s.pc t p) (less : p.left < (s.pc t).left)
      (shutdown : u.shutdown = s.shutdown) (threads : u.threads = s.threads)
  | join (pc : u.pc = s.pc) (less : u.shutdown.left s.threads < s.shutdown.left s.threads)
      (shutdown : u.shutdown.notified = true) (threads : u.threads = s.threads)

private theorem goto_descent {s v : Exec τ} {t : Tid} {q p : Pc τ} (hpc : s.pc t = q) (hv : v.pc = s.pc)
    (hshutdown : v.shutdown = s.shutdown) (hthreads : v.threads = s.threads) (less : p.left < q.left) :
    s.Descent (v.goto t p) :=
  .thread t p (by rw [Exec.goto, hv]) (hpc ▸ less) hshutdown hthreads

private theorem acquire_descent {s u : Exec τ} {t : Tid} {q p : Pc τ} (hpc : s.pc t = q)
    (h : s.acquire t p = some u) (less : p.left < q.left) : s.Descent u := by
  rw [Exec.acquire] at h
  split at h <;> cases h
  exact goto_descent hpc rfl rfl rfl less

private theorem exec_descent {s u : Exec τ} {t : Tid} (hstopped : s.stopped = true) (hwait : (s.pc t).isWait = false)
    (h : s.exec t = some u) : s.Descent u := by
  unfold Exec.exec at h
  generalize hpc : s.pc t = q at h hwait
  cases q with
  | checkStopped | loadStopped =>
    rw [hstopped] at h
    cases h
    exact goto_descent hpc rfl rfl rfl (by simp [Pc.left])
  | lockReady | relock | lockBack slot => exact acquire_descent hpc h (by simp [Pc.left])
  | popFront =>
    simp only at h
    split at h <;> cases h <;> exact goto_descent hpc rfl rfl rfl (by simp [Pc.left])
  | wait => cases hwait
  | release found =>
    cases h
    cases found <;> exact goto_descent hpc rfl rfl rfl (by simp [Pc.left])
  | pushBack slot =>
    cases h
    exact goto_descent hpc rfl rfl rfl (by simp [Pc.left])
  | unlock =>
    cases h
    cases t <;> exact goto_descent hpc rfl rfl rfl (by simp [Pc.left])
  | away | waiting | runSlice slot | notifyOne | exited => cases h

theorem Exec.Sound.descends {s u : Exec τ} {a : Act τ} (hs : s.Sound) (hn : s.shutdown.notified = true)
    (hok : s.Drains a) (h : s.step a = some u) : s.Descent u := by
  cases a with
  | exec t => exact exec_descent (hs.stopped (.inr hn)) (hs.calm hn t).1 h
  | ran n more =>
    simp only [Exec.step] at h
    split at h
    case h_2 => cases h
    case h_1 slot hpc =>
      cases h
      refine goto_descent hpc rfl rfl rfl ?_
      cases more <;> simp [Pc.left]
  | spurious n => exact hok.elim
  | notify t woken =>
    simp only [Exec.step] at h
    split at h
    case h_2 => cases h
    case h_1 hpc =>
      obtain ⟨v, hv, rfl⟩ := Option.map_eq_some_iff.mp h
      cases woken with
      | some n =>
        simp only [Exec.wakeOne, (hs.calm hn (.worker n)).2] at hv
        cases hv
      | none =>
        simp only [Exec.wakeOne] at hv
        split at hv <;> cases hv
        exact goto_descent hpc rfl rfl rfl (by simp [Pc.left])
  | schedule n slot => exact hok.elim
  | shutdown =>
    simp only [Exec.step, Exec.shut] at h
    cases hd : s.shutdown with
    | idle | storeStopped | notifyAll =>
      rw [hd] at hn
      cases hn
    | join n =>
      simp only [hd] at h
      split at h
      case isTrue hlt =>
        split at h <;> cases h
        refine .join rfl ?_ rfl rfl
        simp only [hd, Shutdown.left]
        omega
      case isFalse =>
        cases h
        refine .join rfl ?_ rfl rfl
        simp only [hd, Shutdown.left]
        omega
    | done =>
      simp only [hd] at h
      cases h

/-- A thread that holds the lock can always go on. -/
private theorem holder_steps {s : Exec τ} (hs : s.Sound) (hn : s.shutdown.notified = true) {t : Tid}
    (ht : (s.pc t).holds = true) : ∃ a u, s.Drains a ∧ s.step a = some u := by
  cases hpc : s.pc t with
  | notifyOne =>
    have hnobody : (List.range s.threads).all (fun n => !(s.pc (.worker n)).isWaiting) = true := by
      rw [List.all_eq_true]
      intro n _
      rw [(hs.calm hn (.worker n)).2]
      rfl
    refine ⟨.notify t none, s.goto t .unlock, trivial, ?_⟩
    simp only [Exec.step, hpc, Exec.wakeOne, hnobody, if_true, Option.map_some]
  | popFront =>
    cases hready : s.ready with
    | nil => exact ⟨.exec t, s.goto t .loadStopped, trivial, by simp only [Exec.step, Exec.exec, hpc, hready]⟩
    | cons slot rest =>
      exact ⟨.exec t, { s with ready := rest }.goto t (.release (some slot)), trivial,
        by simp only [Exec.step, Exec.exec, hpc, hready]⟩
  | loadStopped | wait | release found | pushBack slot | unlock =>
    exact ⟨.exec t, _, trivial, by simp only [Exec.step, Exec.exec, hpc]; rfl⟩
  | away | checkStopped | lockReady | waiting | relock | runSlice slot | lockBack slot | exited =>
    rw [hpc] at ht
    cases ht

/-- With the lock free, a worker that has not returned can go on. -/
private theorem worker_steps {s : Exec τ} (hs : s.Sound) (hn : s.shutdown.notified = true) (hfree : s.lock = none)
    {n : Nat} (hlive : (s.pc (.worker n)).isExited = false) : ∃ a u, s.Drains a ∧ s.step a = some u := by
  cases hpc : s.pc (.worker n) with
  | checkStopped => exact ⟨.exec (.worker n), _, trivial, by simp only [Exec.step, Exec.exec, hpc]; rfl⟩
  | lockReady | relock | lockBack slot =>
    exact ⟨.exec (.worker n), _, trivial, by simp only [Exec.step, Exec.exec, hpc, Exec.acquire, hfree, if_true]; rfl⟩
  | runSlice slot => exact ⟨.ran n false, _, trivial, by simp only [Exec.step, hpc]; rfl⟩
  | popFront | loadStopped | wait | release found | pushBack slot | notifyOne | unlock =>
    exact holder_steps hs hn (t := .worker n) (by rw [hpc]; rfl)
  | away =>
    have hnot := hs.looping n
    rw [hpc] at hnot
    cases hnot
  | waiting =>
    have hnot := (hs.calm hn (.worker n)).2
    rw [hpc] at hnot
    cases hnot
  | exited =>
    rw [hpc] at hlive
    cases hlive

/-- After `notify_all`, something can move until `shutdown` has returned. -/
theorem Exec.Sound.proceeds {s : Exec τ} (hs : s.Sound) (hn : s.shutdown.notified = true)
    (hd : s.shutdown ≠ .done) : ∃ a u, s.Drains a ∧ s.step a = some u := by
  cases hlock : s.lock with
  | some t => exact holder_steps hs hn ((hs.guards t).mp hlock)
  | none =>
    cases hshut : s.shutdown with
    | idle | storeStopped | notifyAll =>
      rw [hshut] at hn
      cases hn
    | done => exact absurd hshut hd
    | join n =>
      cases hexit : (s.pc (.worker n)).isExited with
      | false => exact worker_steps hs hn hlock hexit
      | true =>
        by_cases hlt : n < s.threads
        · exact ⟨.shutdown, { s with shutdown := .join (n + 1) }, trivial, by
            simp only [Exec.step, Exec.shut, hshut, hexit, if_pos hlt, if_true]⟩
        · exact ⟨.shutdown, { s with shutdown := .done }, trivial, by
            simp only [Exec.step, Exec.shut, hshut, if_neg hlt]⟩

def Exec.Finite (T : Finset Tid) (s : Exec τ) : Prop := ∀ u, u ∉ T → (s.pc u).left = 0

private theorem finite_update {s : Exec τ} {T : Finset Tid} (hT : s.Finite T) (t : Tid) (p : Pc τ) (u : Tid)
    (hu : u ∉ insert t T) : (Function.update s.pc t p u).left = 0 := by
  rw [Finset.mem_insert, not_or] at hu
  rw [Function.update_of_ne hu.1]
  exact hT u hu.2

theorem Exec.Stepped.finite {s u : Exec τ} {a : Act τ} (h : s.Stepped a u) (hs : ∃ T, s.Finite T) :
    ∃ T, u.Finite T := by
  obtain ⟨T, hT⟩ := hs
  cases h with
  | stay t p | acquire t p | release t p => exact ⟨insert t T, finite_update hT t p⟩
  | notify t n =>
    let s' : Exec τ := { s with pc := Function.update s.pc (.worker n) .relock }
    have hwoken : s'.Finite (insert (.worker n) T) := finite_update hT _ _
    exact ⟨insert t (insert (Tid.worker n) T), finite_update hwoken t .unlock⟩
  | begin | stop | join => exact ⟨T, hT⟩
  | notifyAll =>
    refine ⟨T, fun t ht => ?_⟩
    have hzero := hT t ht
    show (if (s.pc t).isWaiting then Pc.relock else s.pc t).left = 0
    split
    · rename_i hw
      rw [Pc.eq_waiting hw] at hzero
      cases hzero
    · exact hzero

theorem Reaches.finite {threads : Nat} {ok : Exec τ → Act τ → Prop} {as : List (Act τ)} {s : Exec τ}
    (h : Reaches threads ok as s) : ∃ T, s.Finite T := by
  refine Run.invariant (I := fun s => ∃ T, s.Finite T) h (fun _ _ _ _ hs hstep => (Exec.step_cases hstep).finite hs) ?_
  refine ⟨(Finset.range threads).image .worker, fun u hu => ?_⟩
  cases u with
  | caller n => rfl
  | worker n =>
    have hn : ¬ n < threads := fun hlt => hu (Finset.mem_image_of_mem _ (Finset.mem_range.mpr hlt))
    simp only [Exec.new, if_neg hn, Pc.left]

def Exec.left (T : Finset Tid) (s : Exec τ) : Nat := credits Pc.left T s.pc + s.shutdown.left s.threads

theorem Exec.Descent.lowers {s u : Exec τ} {T : Finset Tid} (h : s.Descent u) (hT : s.Finite T)
    (hn : s.shutdown.notified = true) : u.left T < s.left T ∧ u.Finite T ∧ u.shutdown.notified = true := by
  cases h with
  | thread t p pc less shutdown threads =>
    have hspend : 1 + p.left ≤ (s.pc t).left := by omega
    obtain ⟨hsum, hzero⟩ := credits_spend hT hspend
    simp only [Exec.left, Exec.Finite, pc, shutdown, threads]
    exact ⟨by omega, hzero, hn⟩
  | join pc less shutdown threads =>
    simp only [Exec.left, Exec.Finite, pc, threads]
    exact ⟨by omega, hT, shutdown⟩

private theorem notifiesAll_of_notified {s : Exec τ} (hn : s.shutdown.notified = true) (a : Act τ) :
    s.NotifiesAll a := by
  cases a with
  | shutdown =>
    intro hd
    rw [hd] at hn
    cases hn
  | _ => trivial

/-- From `notify_all` on, `shutdown` returns: what the threads still do is bounded, and until
it has returned one of them, or `shutdown`, can move. -/
theorem Exec.Sound.shutdown_returns {s : Exec τ} (hs : s.Sound) (hn : s.shutdown.notified = true) {T : Finset Tid}
    (hT : s.Finite T) {bs : List (Act τ)} {t : Exec τ} (h : Run Exec.step Exec.Drains s bs t) :
    bs.length ≤ s.left T ∧ (t.shutdown = .done ∨ ∃ b u, t.Drains b ∧ t.step b = some u) := by
  let I : Exec τ → Prop := fun s => s.Sound ∧ s.shutdown.notified = true ∧ s.Finite T
  have hdown : ∀ s a t, s.Drains a → I s → Exec.step s a = some t → I t ∧ t.left T < s.left T := by
    rintro s a t hok ⟨hs, hn, hT⟩ hstep
    obtain ⟨hless, hfin, hnot⟩ := (hs.descends hn hok hstep).lowers hT hn
    exact ⟨⟨hs.step (notifiesAll_of_notified hn a) (Exec.step_cases hstep), hnot, hfin⟩, hless⟩
  obtain ⟨hlen, hsound, hnot, -⟩ := h.length_le (Exec.left T) hdown ⟨hs, hn, hT⟩
  refine ⟨by omega, ?_⟩
  by_cases hd : t.shutdown = .done
  · exact .inl hd
  · exact .inr (hsound.proceeds hnot hd)

/-- A worker waits, every worker waits or has returned, and nobody is about to notify it. -/
def Exec.Stranded (s : Exec τ) : Prop :=
  (∃ n, n < s.threads ∧ (s.pc (.worker n)).isWaiting = true) ∧
    (∀ n, n < s.threads → (s.pc (.worker n)).isWaiting = true ∨ (s.pc (.worker n)).isExited = true) ∧
    ∀ n, (s.pc (.caller n)).isAway = true

/-- Where `shutdown` notifies with no worker between its test of `stopped` and its wait, no
worker waits afterwards, and `shutdown` returns: its threads and the workers have a bounded
number of steps left, and one of them can move until then. -/
theorem shutdown_strands_no_worker {threads : Nat} {as : List (Act τ)} {s : Exec τ}
    (h : Reaches threads Exec.NotifiesAll as s) (hn : s.shutdown.notified = true) :
    (∀ t, (s.pc t).isWaiting = false) ∧
      ∃ k, ∀ bs t, Run Exec.step Exec.Drains s bs t →
        bs.length ≤ k ∧ (t.shutdown = .done ∨ ∃ b u, t.Drains b ∧ t.step b = some u) := by
  have hs := Reaches.sound h
  obtain ⟨T, hT⟩ := Reaches.finite h
  exact ⟨fun t => (hs.calm hn t).2, s.left T, fun bs t hrun => hs.shutdown_returns hn hT hrun⟩

private theorem waiter_notified : ∃ s : Exec Unit,
    Reaches 1 Exec.NotifiesAll (List.replicate 5 (Act.exec (.worker 0)) ++ List.replicate 3 Act.shutdown) s ∧
      s.shutdown = .join 0 ∧ s.pc (.worker 0) = .relock := by
  have hcalm : ∀ s : Exec Unit, s.pc (.worker 0) = .waiting → (∀ n, s.pc (.worker (n + 1)) = .exited) →
      (∀ n, s.pc (.caller n) = .away) → ∀ t, (s.pc t).isWait = false := by
    intro s hwaiting hexited haway t
    match t with
    | .worker 0 => rw [hwaiting]; rfl
    | .worker (n + 1) => rw [hexited]; rfl
    | .caller n => rw [haway]; rfl
  refine ⟨_, .cons trivial rfl <| .cons trivial rfl <| .cons trivial rfl <| .cons trivial rfl <| .cons trivial rfl <|
    .cons (fun h => ?_) rfl <| .cons (fun h => ?_) rfl <| .cons (fun _ => hcalm _ ?_ ?_ ?_) rfl <| .nil _, ?_, ?_⟩
  · cases h
  · cases h
  · rfl
  · exact fun _ => rfl
  · exact fun _ => rfl
  · rfl
  · rfl

theorem shutdown_strands_no_worker_waiting : ∃ s : Exec Unit, s.shutdown.notified = true ∧
    s.pc (.worker 0) = .relock ∧ (∀ t, (s.pc t).isWaiting = false) ∧
      ∃ k, ∀ bs t, Run Exec.step Exec.Drains s bs t →
        bs.length ≤ k ∧ (t.shutdown = .done ∨ ∃ b u, t.Drains b ∧ t.step b = some u) := by
  obtain ⟨s, hrun, hshutdown, hpc⟩ := waiter_notified
  have hn : s.shutdown.notified = true := by rw [hshutdown]; rfl
  exact ⟨s, hn, hpc, shutdown_strands_no_worker hrun hn⟩

/-- The only worker reads `stopped` as false, `shutdown` stores it and notifies nobody, and
then the worker waits: nothing is left that could wake it, and `shutdown` joins it forever. -/
theorem worker_waits_after_notify_all : ∃ as, ∃ s : Exec Unit, Reaches 1 anyStep as s ∧
    s.shutdown.notified = true ∧ s.Stranded ∧ ∀ a, s.Drains a → s.step a = none := by
  refine ⟨List.replicate 4 (Act.exec (.worker 0)) ++ List.replicate 3 Act.shutdown ++ [Act.exec (.worker 0)], _,
    run_of_replay rfl, rfl, ⟨⟨0, Nat.one_pos, rfl⟩, fun n hn => ?_, fun _ => rfl⟩, fun a ha => ?_⟩
  · obtain rfl : n = 0 := Nat.lt_one_iff.mp hn
    exact .inl rfl
  · match a with
    | .exec (.worker 0) | .exec (.worker (n + 1)) | .exec (.caller n) => rfl
    | .ran 0 more | .ran (n + 1) more => rfl
    | .notify (.worker 0) woken | .notify (.worker (n + 1)) woken | .notify (.caller n) woken => rfl
    | .shutdown => rfl

end Hyper4k.Executor
