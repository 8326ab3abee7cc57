import Hyper4k.Pooling.Exchange
import Hyper4k.Pooling.Failures

/-! Which connection a request goes out on: the pool keeps the connections of each authority apart, and a lease tells
the protocol that was agreed on when its connection was dialled. -/
namespace Hyper4k.Pooling
open Bridge (ConnId ErrorKind)
open Runs

/-- An observer notes of each connection for which key it was dialled and what the connector answered. -/
abbrev Ledger := ConnId → Option (PoolKey × Proto)

def Ledger.dial (o : Ledger) (next : ConnId) : Pc → Ledger
  | .fetchId k proto => Function.update o next (some (k, proto))
  | _ => o

def Pool.ledger (s : Pool) (o : Ledger) : Act → Ledger
  | .exec t => o.dial s.nextId (s.tasks t)
  | _ => o

def ClosingPool.ledger (s : ClosingPool) (o : Ledger) : ShutAct → Ledger
  | .pool a => s.pool.ledger o a
  | _ => o

def Attempts.ledger (s : Attempts) (x : AttemptAct) (_ : Attempts) (o : Ledger) : Ledger :=
  match x with
  | .net b => s.net.ledger o b
  | _ => o

def Pool.AnswersBy (rule : PoolKey → Proto → Prop) (s : Pool) : Act → Prop
  | .connected t (.ok proto) => ∀ k, s.tasks t = .connect k → rule k proto
  | _ => True

def ClosingPool.AnswersBy (rule : PoolKey → Proto → Prop) (s : ClosingPool) : ShutAct → Prop
  | .pool a => s.pool.AnswersBy rule a
  | _ => True

def Attempts.AnswersBy (rule : PoolKey → Proto → Prop) (s : Attempts) : AttemptAct → Prop
  | .net b => s.net.AnswersBy rule b
  | _ => True

/-- The entry of a connection that was dialled for the key has the connector's answer. -/
def Pool.Dialled (s : Pool) (o : Ledger) (k : PoolKey) (c : ConnId) : Prop := o c = some (k, (s.entries c).proto)

/-- The notes agree with the map and with the dials on their way into it. -/
structure Pool.Filed (rule : PoolKey → Proto → Prop) (s : Pool) (o : Ledger) : Prop where
  fresh : ∀ c x, o c = some x → c < s.nextId
  offered : ∀ t k proto, s.tasks t = .fetchId k proto → rule k proto
  noted : ∀ c k proto, o c = some (k, proto) → rule k proto
  pushing : ∀ t k proto c, s.tasks t = .push k proto c → o c = some (k, proto)
  listed : ∀ k, ∀ c ∈ s.conns k, s.Dialled o k c

/-- A task is on its way to a lease for the key: it asks for nothing else, and every connection that it has met was
dialled for it. -/
structure Pool.Serves (s : Pool) (o : Ledger) (k : PoolKey) (pc : Pc) : Prop where
  key : ∀ k', pc.key = some k' → k' = k
  knows : ∀ c ∈ pc.knows, s.Dialled o k c

section Tasks
variable {limits : Limits} {rule : PoolKey → Proto → Prop} {s p m : Pool} {t : TaskId} {a : Act} {pc q : Pc}
  {c : ConnId} {k : PoolKey} {proto : Proto} {o : Ledger}

/-- A task meets a connection in the list of the key it asks for, or by dialling it. -/
theorem Pool.Access.meets (h : s.Access limits t a pc m q) (hc : c ∈ q.knows) :
    c ∈ pc.knows ∨ (∃ k, pc.key = some k ∧ c ∈ s.conns k) ∨ ∃ k proto, pc = .push k proto c := by
  cases h with
  | getList k d => exact .inr (.inl ⟨k, rfl, Pc.scan_knows _ _ _ hc⟩)
  | getCount k => exact .inr (.inl ⟨k, rfl, Pc.count_knows _ _ _ hc⟩)
  | dead x | slotClosed x => exact .inl (x.closed_knows hc)
  | slotOpen x => exact .inl (x.live_knows hc)
  | crowded x | slotEmpty x => exact .inl (x.next_knows hc)
  | missed x => exact .inl (x.missed_knows hc)
  | addActive x => exact .inl (x.taken_knows hc)
  | push k proto i => exact .inr (.inr ⟨k, proto, by rw [List.mem_singleton.mp hc]⟩)
  | notDead | multiplexed | exclusive | slotFull | clone | take | found | foundLocked | unlockDial | dropLease
  | dropClosed | dropH1 | dropH2 | storeDead | putBack => exact .inl hc
  | _ => cases hc

/-- A call keeps to the key that it was made with. -/
theorem Pool.Access.asks (h : s.Access limits t a pc m q) (hq : q.key = some k) :
    pc.key = some k ∨ a = .acquire t k := by
  cases h with
  | acquire k' =>
    cases hq
    exact .inr rfl
  | getList k' d => exact .inl ((Pc.scan_key d _).symm.trans hq)
  | getCount k' => exact .inl ((Pc.count_key 0 _).symm.trans hq)
  | dead x | slotClosed x =>
    cases x with
    | reuse x => exact .inl ((Pc.scan_key x.dialing _).symm.trans hq)
    | count k' live i rest => exact .inl ((Pc.count_key live _).symm.trans hq)
  | slotOpen x =>
    cases x with
    | reuse x => exact .inl hq
    | count k' live i rest => exact .inl ((Pc.count_key (live + 1) _).symm.trans hq)
  | crowded x | slotEmpty x => exact .inl ((Pc.scan_key x.dialing _).symm.trans hq)
  | missed x =>
    cases x with
    | reuse x => exact .inl ((Pc.scan_key x.dialing _).symm.trans hq)
    | dialled k' i => exact .inl hq
  | addActive x => cases x <;> exact .inl hq
  | enters | notDead | multiplexed | exclusive | slotFull | clone | take | foundLocked | notFound | notFoundLocked
  | lockDial | full | dial | connected | refused | fetchId | push => exact .inl hq
  | _ => cases hq

/-- A connection that is about to go into the map has just got its identifier. -/
theorem Pool.Access.fetches (h : s.Access limits t a pc m q) (hq : q = .push k proto c) :
    pc = .fetchId k proto ∧ c = s.nextId := by
  have idle : q.reading = true → pc = .fetchId k proto ∧ c = s.nextId := by
    intro hr
    rw [hq] at hr
    cases hr
  cases h with
  | fetchId =>
    cases hq
    exact ⟨rfl, rfl⟩
  | getList => exact idle (Pc.scan_reading ..)
  | getCount => exact idle (Pc.count_reading ..)
  | dead x | slotClosed x => exact idle x.closed_reading
  | slotOpen x => exact idle x.live_reading
  | crowded | slotEmpty => exact idle (Pc.scan_reading ..)
  | missed x => exact idle x.missed_reading
  | addActive x => cases x <;> cases hq
  | _ => cases hq

/-- It is the connector that offers a connection. -/
theorem Pool.Access.answered (h : s.Access limits t a pc m q) (hq : q = .fetchId k proto) :
    a = .connected t (.ok proto) ∧ pc = .connect k := by
  have idle : q.reading = true → a = .connected t (.ok proto) ∧ pc = .connect k := by
    intro hr
    rw [hq] at hr
    cases hr
  cases h with
  | connected =>
    cases hq
    exact ⟨rfl, rfl⟩
  | getList => exact idle (Pc.scan_reading ..)
  | getCount => exact idle (Pc.count_reading ..)
  | dead x | slotClosed x => exact idle x.closed_reading
  | slotOpen x => exact idle x.live_reading
  | crowded | slotEmpty => exact idle (Pc.scan_reading ..)
  | missed x => exact idle x.missed_reading
  | addActive x => cases x <;> cases hq
  | _ => cases hq

theorem Ledger.dial_of_ne {next : ConnId} (hc : c ≠ next) (pc : Pc) : o.dial next pc c = o c := by
  cases pc with
  | fetchId => exact Function.update_of_ne hc ..
  | _ => rfl

theorem Pool.Access.ledger (h : s.Access limits t a pc m q) (hpc : s.tasks t = pc) :
    s.ledger o a = o.dial s.nextId pc := by
  cases h with
  | acquire | connected | refused | abandonLock | abandonDial | dropLease | forget => rfl
  | _ => rw [Pool.ledger, hpc]

theorem Pool.Filed.dialled (hs : s.Filed rule o) (h : s.Access limits t a (s.tasks t) m q) (hc : s.Dialled o k c) :
    m.Dialled (o.dial s.nextId (s.tasks t)) k c := by
  have hold := Nat.ne_of_lt (hs.fresh c _ hc)
  unfold Pool.Dialled
  rw [Ledger.dial_of_ne hold]
  rcases h.proto c with ⟨-, hproto⟩ | ⟨k', hpush⟩
  · rw [hproto]
    exact hc
  · have hnoted := hs.pushing t k' _ c hpush
    obtain ⟨rfl, -⟩ := Prod.mk.inj (Option.some.inj (hc.symm.trans hnoted))
    exact hnoted

/-- A connection goes into the map as the connector has answered about it. -/
theorem Pool.Filed.pushed (hs : s.Filed rule o) (h : s.Access limits t a (s.tasks t) m q)
    (hpc : s.tasks t = .push k proto c) : m.Dialled (o.dial s.nextId (s.tasks t)) k c := by
  rcases h.proto c with ⟨hne, -⟩ | ⟨k', hpush⟩
  · exact absurd (by rw [hpc]; rfl) hne
  · have hnoted := hs.pushing t k' _ c hpush
    rw [hpc] at hpush
    cases hpush
    rw [hpc]
    exact hnoted

/-- A note is made when a connection gets its identifier. -/
theorem Pool.Access.dials (h : s.Access limits t a pc m q) :
    o.dial s.nextId pc = o ∨ ∃ k proto, pc = .fetchId k proto ∧ m.nextId = s.nextId + 1 := by
  cases h with
  | fetchId k proto => exact .inr ⟨k, proto, rfl, rfl⟩
  | _ => exact .inl rfl

theorem Pool.Filed.task (hs : s.Filed rule o) (h : s.Access limits t a (s.tasks t) m q) (hok : s.AnswersBy rule a) :
    (m.goto t q).Filed rule (o.dial s.nextId (s.tasks t)) := by
  refine ⟨fun c x hc => ?_, ?_, fun c k proto hc => ?_, ?_, fun k c hc => ?_⟩
  · by_cases hnew : c = s.nextId
    · rcases h.dials (o := o) with ho | ⟨k, proto, -, hnext⟩
      · rw [ho] at hc
        exact absurd hnew (Nat.ne_of_lt (hs.fresh c x hc))
      · rw [hnew]
        exact Nat.lt_of_lt_of_eq (Nat.lt_succ_self _) hnext.symm
    · rw [Ledger.dial_of_ne hnew] at hc
      exact Nat.lt_of_lt_of_le (hs.fresh c x hc) h.nextId_le
  · rw [h.tasks]
    refine forall_update (Q := fun _ (pc : Pc) => ∀ k proto, pc = .fetchId k proto → rule k proto) ?_
      fun u _ => hs.offered u
    intro k proto hq
    obtain ⟨rfl, hpc⟩ := h.answered hq
    exact hok k hpc
  · by_cases hnew : c = s.nextId
    · rcases h.dials (o := o) with ho | ⟨k', proto', hpc, -⟩
      · rw [ho] at hc
        exact hs.noted c k proto hc
      · have hnote : o.dial s.nextId (s.tasks t) c = some (k', proto') := by
          rw [hpc, hnew]
          exact Function.update_self ..
        rw [hnote] at hc
        cases hc
        exact hs.offered t k proto hpc
    · rw [Ledger.dial_of_ne hnew] at hc
      exact hs.noted c k proto hc
  · rw [h.tasks]
    refine forall_update (Q := fun _ (pc : Pc) => ∀ k proto c, pc = .push k proto c →
      o.dial s.nextId (s.tasks t) c = some (k, proto)) ?_ fun u _ k proto c hc => ?_
    · intro k proto c hq
      obtain ⟨hpc, rfl⟩ := h.fetches hq
      rw [hpc]
      exact Function.update_self ..
    · have hnote := hs.pushing u k proto c hc
      rw [Ledger.dial_of_ne (Nat.ne_of_lt (hs.fresh c _ hnote))]
      exact hnote
  · have hold : ∀ c ∈ s.conns k, m.Dialled (o.dial s.nextId (s.tasks t)) k c := fun c hc =>
      hs.dialled h (hs.listed k c hc)
    rcases h.conns with ⟨hm, -⟩ | ⟨k', proto, i, hpc, -, hm⟩
    · exact hold c (hm ▸ hc)
    · change c ∈ m.conns k at hc
      change m.Dialled _ k c
      rw [hm] at hc
      by_cases hk : k = k'
      · subst hk
        rw [Function.update_self, List.mem_append, List.mem_singleton] at hc
        rcases hc with hc | rfl
        · exact hold c hc
        · exact hs.pushed h hpc
      · rw [Function.update_of_ne hk] at hc
        exact hold c hc

/-- A task goes on towards its lease. -/
theorem Pool.Serves.task (hpc : s.Serves o k (s.tasks t)) (hs : s.Filed rule o)
    (h : s.Access limits t a (s.tasks t) m q) (ha : ∀ k', a ≠ .acquire t k') :
    m.Serves (o.dial s.nextId (s.tasks t)) k q := by
  constructor
  · intro k' hq
    exact hpc.key k' ((h.asks hq).resolve_right (ha k'))
  · intro c hc
    rcases h.meets hc with hold | ⟨k', hkey, hlist⟩ | ⟨k', proto, hpush⟩
    · exact hs.dialled h (hpc.knows c hold)
    · obtain rfl := hpc.key k' hkey
      exact hs.dialled h (hs.listed k' c hlist)
    · obtain rfl := hpc.key k' (by rw [hpush]; rfl)
      exact hs.pushed h hpush

theorem Pool.Filed.later (hs : s.Filed rule o) (hlist : ∀ k, ∀ c ∈ p.conns k, c ∈ s.conns k)
    (htasks : p.tasks = s.tasks) (hid : p.nextId = s.nextId) (hproto : ∀ c, (p.entries c).proto = (s.entries c).proto) : p.Filed rule o := by
  refine ⟨hid ▸ hs.fresh, htasks ▸ hs.offered, hs.noted, htasks ▸ hs.pushing, fun k c hc => ?_⟩
  unfold Pool.Dialled
  rw [hproto]
  exact hs.listed k c (hlist k c hc)

theorem Pool.Serves.later (hpc : s.Serves o k pc) (hproto : ∀ c, (p.entries c).proto = (s.entries c).proto) :
    p.Serves o k pc := by
  refine ⟨hpc.key, fun c hc => ?_⟩
  unfold Pool.Dialled
  rw [hproto]
  exact hpc.knows c hc

end Tasks

section Moves
variable {limits : Limits} {rule : PoolKey → Proto → Prop} {s n : ClosingPool} {b : ShutAct} {t : TaskId} {k : PoolKey}
  {o : Ledger}

/-- A task of the pool moves, or the connections stay as they are, but for lists that `clear` empties. -/
theorem ClosingPool.Moved.conns (h : s.Moved limits b n) :
    (∃ v a m q, b = .pool a ∧ s.pool.Access limits v a (s.pool.tasks v) m q ∧ n.pool = m.goto v q) ∨
      s.ledger o b = o ∧ n.pool.tasks = s.pool.tasks ∧ n.pool.nextId = s.pool.nextId ∧
        (∀ k, ∀ c ∈ n.pool.conns k, c ∈ s.pool.conns k) ∧
        ∀ c, (n.pool.entries c).proto = (s.pool.entries c).proto := by
  cases h with
  | pool h =>
    cases h with
    | task h => exact .inl ⟨_, _, _, _, rfl, h, rfl⟩
    | peerClose | newGuard | dropGuard =>
      exact .inr ⟨rfl, rfl, rfl, fun _ _ => id, update_part (f := Conn.proto) (by rfl)⟩
  | exec h =>
    obtain ⟨htasks, hid, hconns, hentries, -⟩ := ClosingPool.exec_pool h
    refine .inr ⟨rfl, htasks, hid, fun k c hc => by rwa [hconns] at hc, fun c => ?_⟩
    obtain ⟨dead, he⟩ := hentries c
    rw [he]
  | remove u k =>
    refine .inr ⟨rfl, rfl, rfl, fun k' c hc => ?_, fun _ => rfl⟩
    change c ∈ Function.update s.pool.conns k [] k' at hc
    by_cases hk : k' = k
    · rw [hk, Function.update_self] at hc
      exact absurd hc List.not_mem_nil
    · rwa [Function.update_of_ne hk] at hc
  | call | visit | driverEnd => exact .inr ⟨rfl, rfl, rfl, fun _ _ => id, fun _ => rfl⟩

theorem ClosingPool.Moved.filed (h : s.Moved limits b n) (hs : s.pool.Filed rule o) (hok : s.AnswersBy rule b) :
    n.pool.Filed rule (s.ledger o b) := by
  rcases h.conns (o := o) with ⟨v, a, m, q, rfl, hv, hn⟩ | ⟨ho, htasks, hid, hlist, hproto⟩
  · rw [ClosingPool.ledger, hv.ledger rfl, hn]
    exact hs.task hv hok
  · rw [ho]
    exact hs.later hlist htasks hid hproto

theorem ClosingPool.Moved.serves (h : s.Moved limits b n) (hs : s.pool.Filed rule o)
    (hb : ∀ k', b ≠ .pool (.acquire t k')) (ht : s.pool.Serves o k (s.pool.tasks t)) :
    n.pool.Serves (s.ledger o b) k (n.pool.tasks t) := by
  rcases h.conns (o := o) with ⟨v, a, m, q, rfl, hv, hn⟩ | ⟨ho, htasks, -, -, hproto⟩
  · rw [ClosingPool.ledger, hv.ledger rfl, hn, hv.tasks]
    by_cases htv : t = v
    · subst htv
      rw [Function.update_self]
      exact (ht.task hs hv fun k' ha => hb k' (congrArg _ ha)).later fun _ => rfl
    · rw [Function.update_of_ne htv]
      have hkept : m.Serves (o.dial s.pool.nextId (s.pool.tasks v)) k (s.pool.tasks t) :=
        ⟨ht.key, fun c hc => hs.dialled hv (ht.knows c hc)⟩
      exact hkept.later fun _ => rfl
  · rw [ho, htasks]
    exact ht.later hproto

/-- The call that a task makes is for the key it gives. -/
theorem ClosingPool.Moved.asks (h : s.Moved limits (.pool (.acquire t k)) n) : n.pool.tasks t = .loadClosed k := by
  cases h with
  | pool h =>
    cases h with
    | task h =>
      generalize s.pool.tasks _ = pc at h
      cases h
      exact Function.update_self ..

end Moves

section Attempts
variable {limits : Limits} {rule : PoolKey → Proto → Prop} {s p : Attempts} {x : AttemptAct} {t : TaskId}
  {c : ConnId} {o : Ledger}

def AttemptPc.job : AttemptPc → Option Job
  | .acquire j | .isClosed j | .build j | .send j => some j
  | .drop again => again
  | _ => none

def AttemptAct.ofTask : AttemptAct → Bool
  | .net _ => false
  | _ => true

structure Attempts.Isolated (rule : PoolKey → Proto → Prop) (s : Attempts) (o : Ledger) : Prop where
  filed : s.net.pool.Filed rule o
  serves : ∀ t j, (s.jobs t).job = some j → s.net.pool.Serves o j.key (s.net.pool.tasks t)

inductive Attempts.Led (limits : Limits) (s : Attempts) : AttemptAct → Attempts → Prop
  | net {b : ShutAct} {n : ClosingPool} (h : s.net.Moved limits b n) (hb : Attempts.alone b = true) :
      Led limits s (.net b) { s with net := n }
  | asks {x : AttemptAct} {t : TaskId} {j : Job} {n : ClosingPool} (hx : x.ofTask = true)
      (hj : x = .start t j ∨ (s.jobs t).job = some j) (h : s.net.Moved limits (.pool (.acquire t j.key)) n) :
      Led limits s x ({ s with net := n }.goto t (.acquire j))
  | ends {x : AttemptAct} {a : Act} {t : TaskId} {n : ClosingPool} {again : Option Job} {pc : AttemptPc}
      {unfinished : ConnId → Bool} (hx : x.ofTask = true) (h : s.net.Moved limits (.pool a) n)
      (ha : a = .abandon t ∨ a = .dropLease t ∨ a = .forget t) (hpc : pc = .idle ∨ pc = .drop again)
      (hagain : ∀ j', again = some j' → ∃ j, (s.jobs t).job = some j ∧ j'.key = j.key) :
      Led limits s x ({ s with net := n, unfinished }.goto t pc)
  | goes {x : AttemptAct} {t : TaskId} {pc : AttemptPc} {unfinished : ConnId → Bool} (hx : x.ofTask = true)
      (hpc : ∀ j, pc.job = some j → (s.jobs t).job = some j) (hsend : ∀ j, pc = .send j → x = .built t true) :
      Led limits s x ({ s with unfinished }.goto t pc)
  | complete (c : ConnId) : Led limits s (.complete c) (s.setUnfinished c false)

theorem Attempts.Led.leave {again : Option Job} {unfinished : ConnId → Bool} (hx : x.ofTask = true)
    (hagain : ∀ j', again = some j' → ∃ j, (s.jobs t).job = some j ∧ j'.key = j.key)
    (h : Attempts.leave limits { s with unfinished } t again = some p) : s.Led limits x p := by
  obtain ⟨n, hn, rfl⟩ := Attempts.drive_moved h
  exact .ends hx hn (.inr (.inl rfl)) (.inr rfl) hagain

theorem Attempts.Led.onward {pc : AttemptPc} {unfinished : ConnId → Bool} (hx : x.ofTask = true)
    (hpc : pc.job = none ∨ pc.job = (s.jobs t).job) (hsend : ∀ j, pc ≠ .send j) :
    s.Led limits x ({ s with unfinished }.goto t pc) := by
  refine .goes hx (fun j hj => ?_) fun j hj => absurd hj (hsend j)
  rcases hpc with hnone | hsame
  · rw [hnone] at hj
    cases hj
  · exact hsame.symm.trans hj

theorem Attempts.step_led (h : s.step limits x = some p) : s.Led limits x p := by
  have nobody : ∀ {t : TaskId} (j' : Job), none = some j' → ∃ j, (s.jobs t).job = some j ∧ j'.key = j.key := by
    rintro t j' ⟨⟩
  cases x with
  | net b =>
    simp only [Attempts.step] at h
    split at h
    · rename_i hb
      obtain ⟨n, hn, rfl⟩ := Option.map_eq_some_iff.mp h
      exact .net (ClosingPool.step_cases hn) hb
    · cases h
  | start t j =>
    simp only [Attempts.step] at h
    split at h
    · obtain ⟨n, hn, rfl⟩ := Attempts.drive_moved h
      exact .asks rfl (.inl rfl) hn
    · cases h
  | acquired t =>
    simp only [Attempts.step] at h
    split at h
    · rename_i hj _
      cases h
      exact .onward rfl (.inr (by rw [hj]; rfl)) fun _ hs => (by cases hs)
    · obtain ⟨n, hn, rfl⟩ := Attempts.drive_moved h
      exact .ends rfl hn (.inr (.inr rfl)) (.inl rfl) nobody
    · cases h
  | isClosed t =>
    simp only [Attempts.step] at h
    split at h
    · rename_i j c hj _
      split at h
      · refine .leave rfl (fun j' hj' => ⟨j, by rw [hj]; rfl, ?_⟩) h
        split at hj' <;> cases hj'
        rfl
      · cases h
        exact .onward rfl (.inr (by rw [hj]; rfl)) fun _ hs => (by cases hs)
    · cases h
  | built t ok =>
    simp only [Attempts.step] at h
    split at h
    · rename_i j c hj _
      cases ok with
      | true =>
        cases h
        refine .goes rfl (fun j' hj' => ?_) fun _ _ => rfl
        rw [hj]
        exact hj'
      | false => exact .leave rfl nobody h
    · cases h
  | response t =>
    simp only [Attempts.step] at h
    split at h
    · cases h
      exact .onward rfl (.inl rfl) fun _ hs => (by cases hs)
    · cases h
  | sendFailed t unsent committed =>
    simp only [Attempts.step] at h
    split at h
    · rename_i j c hj _
      have hagain : ∀ j', (if Bridge.Retry.mayRetry committed unsent j.idempotent j.budget then
          some (Attempts.retried j) else none) = some j' → ∃ i, (s.jobs t).job = some i ∧ j'.key = i.key := by
        intro j' hj'
        refine ⟨j, by rw [hj]; rfl, ?_⟩
        split at hj' <;> cases hj'
        rfl
      cases unsent <;> exact .leave rfl hagain h
    · cases h
  | queued t accepted =>
    simp only [Attempts.step] at h
    split at h
    all_goals first
      | cases h
      | split at h
        · cases h
          exact .onward rfl (.inl rfl) fun _ hs => (by cases hs)
        · exact .leave rfl nobody h
  | frame t f =>
    simp only [Attempts.step] at h
    split at h
    · cases h
      refine .onward rfl (.inl ?_) fun _ hs => ?_
      · split <;> rfl
      · split at hs <;> cases hs
    · exact .leave rfl nobody h
    · split at h
      · cases h
      · exact .leave rfl nobody h
    · cases h
  | idleTimeout t =>
    simp only [Attempts.step] at h
    split at h
    · exact .leave rfl nobody h
    · cases h
  | stop t =>
    simp only [Attempts.step] at h
    split at h
    · obtain ⟨n, hn, rfl⟩ := Attempts.drive_moved h
      exact .ends rfl hn (.inl rfl) (.inl rfl) nobody
    all_goals first
      | cases h
      | exact .leave rfl nobody h
  | dropped t =>
    simp only [Attempts.step] at h
    split at h
    · rename_i j hj _
      obtain ⟨n, hn, rfl⟩ := Attempts.drive_moved h
      exact .asks rfl (.inr (by rw [hj]; rfl)) hn
    · cases h
      exact .onward rfl (.inl rfl) fun _ hs => (by cases hs)
    · cases h
  | complete c =>
    cases h
    exact .complete c

/-- The request of a task is the one it was started with, up to its budget. -/
theorem Attempts.Led.job (h : s.Led limits x p) : ∀ t j, (p.jobs t).job = some j →
    x = .start t j ∨ ∃ i, (s.jobs t).job = some i ∧ j.key = i.key := by
  have same : ∀ t j, (s.jobs t).job = some j → x = .start t j ∨ ∃ i, (s.jobs t).job = some i ∧ j.key = i.key :=
    fun t j hj => .inr ⟨j, hj, rfl⟩
  cases h with
  | net | complete => exact same
  | @asks x u i n hx hi h =>
    refine forall_update (Q := fun t (pc : AttemptPc) => ∀ j, pc.job = some j →
      x = .start t j ∨ ∃ i, (s.jobs t).job = some i ∧ j.key = i.key) ?_ fun t _ => same t
    intro j hj
    cases hj
    exact hi.imp_right fun hi => ⟨_, hi, rfl⟩
  | @ends x a u n again pc unfinished hx h ha hpc hagain =>
    refine forall_update (Q := fun t (pc : AttemptPc) => ∀ j, pc.job = some j →
      x = .start t j ∨ ∃ i, (s.jobs t).job = some i ∧ j.key = i.key) ?_ fun t _ => same t
    intro j hj
    rcases hpc with rfl | rfl
    · cases hj
    · exact .inr (hagain j hj)
  | @goes x u pc unfinished hx hpc hsend =>
    exact forall_update (Q := fun t (pc : AttemptPc) => ∀ j, pc.job = some j →
      x = .start t j ∨ ∃ i, (s.jobs t).job = some i ∧ j.key = i.key) (fun j hj => .inr ⟨j, hpc j hj, rfl⟩)
      fun t _ => same t

/-- A request is sent once it has been built. -/
theorem Attempts.Led.sends (h : s.Led limits x p) : ∀ t j, p.jobs t = .send j →
    s.jobs t = .send j ∨ x = .built t true := by
  have same : ∀ t j, s.jobs t = .send j → s.jobs t = .send j ∨ x = .built t true := fun _ _ => .inl
  cases h with
  | net | complete => exact same
  | @asks x u i n hx hi h =>
    exact forall_update (Q := fun t (pc : AttemptPc) => ∀ j, pc = .send j → s.jobs t = .send j ∨ x = .built t true)
      (fun j hj => (by cases hj)) fun t _ => same t
  | @ends x a u n again pc unfinished hx h ha hpc hagain =>
    refine forall_update (Q := fun t (pc : AttemptPc) => ∀ j, pc = .send j → s.jobs t = .send j ∨ x = .built t true)
      ?_ fun t _ => same t
    intro j hj
    rcases hpc with rfl | rfl <;> cases hj
  | @goes x u pc unfinished hx hpc hsend =>
    exact forall_update (Q := fun t (pc : AttemptPc) => ∀ j, pc = .send j → s.jobs t = .send j ∨ x = .built t true)
      (fun j hj => .inr (hsend j hj)) fun t _ => same t

theorem Attempts.ledger_ofTask (hx : x.ofTask = true) : s.ledger x p o = o := by
  cases x with
  | net b => cases hx
  | _ => rfl

theorem Attempts.Isolated.step (hs : s.Isolated rule o) (h : s.Led limits x p) (hok : s.AnswersBy rule x) :
    p.Isolated rule (s.ledger x p o) := by
  cases h with
  | @net b n h hb =>
    refine ⟨h.filed hs.filed hok, fun t j hj => h.serves hs.filed ?_ (hs.serves t j hj)⟩
    rintro k rfl
    cases hb
  | @asks x t j n hx hj h =>
    rw [Attempts.ledger_ofTask hx]
    refine ⟨h.filed hs.filed trivial, ?_⟩
    refine forall_update (Q := fun u (pc : AttemptPc) => ∀ i, pc.job = some i →
      n.pool.Serves o i.key (n.pool.tasks u)) ?_ fun u hu i hi => ?_
    · intro i hi
      cases hi
      rw [h.asks]
      refine ⟨fun k hk => (Option.some.inj hk).symm, fun c hc => ?_⟩
      cases hc
    · refine h.serves hs.filed ?_ (hs.serves u i hi)
      rintro k hk
      cases hk
      exact hu rfl
  | @ends x a t n again pc unfinished hx h ha hpc hagain =>
    have hnone : ∀ u k, ShutAct.pool a ≠ .pool (.acquire u k) := by
      rintro u k hk
      cases hk
      rcases ha with ha | ha | ha <;> cases ha
    have hledger : s.net.ledger o (.pool a) = o := by rcases ha with rfl | rfl | rfl <;> rfl
    have hserves : ∀ u i, (s.jobs u).job = some i → n.pool.Serves o i.key (n.pool.tasks u) := by
      intro u i hi
      have hkept := h.serves hs.filed (hnone u) (hs.serves u i hi)
      rwa [hledger] at hkept
    have hfiled := h.filed hs.filed (by rcases ha with rfl | rfl | rfl <;> trivial)
    rw [Attempts.ledger_ofTask hx]
    rw [hledger] at hfiled
    refine ⟨hfiled, ?_⟩
    refine forall_update (Q := fun u (pc : AttemptPc) => ∀ i, pc.job = some i →
      n.pool.Serves o i.key (n.pool.tasks u)) ?_ fun u _ => hserves u
    intro i hi
    rcases hpc with rfl | rfl
    · cases hi
    · obtain ⟨j, hj, hkey⟩ := hagain i hi
      rw [hkey]
      exact hserves t j hj
  | @goes x t pc unfinished hx hpc hsend =>
    rw [Attempts.ledger_ofTask hx]
    refine ⟨hs.filed, ?_⟩
    refine forall_update (Q := fun u (pc : AttemptPc) => ∀ i, pc.job = some i →
      s.net.pool.Serves o i.key (s.net.pool.tasks u)) ?_ fun u _ => hs.serves u
    exact fun i hi => hs.serves t i (hpc i hi)
  | complete c => exact ⟨hs.filed, hs.serves⟩

theorem Attempts.Isolated.init : Attempts.Isolated rule {} fun _ => none := by
  refine ⟨⟨?_, ?_, ?_, ?_, ?_⟩, ?_⟩
  · rintro c x ⟨⟩
  · rintro t k proto ⟨⟩
  · rintro c k proto ⟨⟩
  · rintro t k proto c ⟨⟩
  · rintro k c ⟨⟩
  · rintro t j ⟨⟩

/-- What is sent goes out on a connection that was dialled for its own authority, as the connector answered. -/
theorem Attempts.Isolated.sends (hs : s.Isolated rule o) {j : Job} (hjob : s.jobs t = .send j)
    (hlease : s.net.pool.tasks t = .leased c) :
    o c = some (j.key, (s.net.pool.entries c).proto) ∧ rule j.key (s.net.pool.entries c).proto := by
  have hserves := hs.serves t j (by rw [hjob]; rfl)
  rw [hlease] at hserves
  have hc := hserves.knows c List.mem_cons_self
  exact ⟨hc, hs.filed.noted c _ _ hc⟩

end Attempts

end Hyper4k.Pooling
