import Hyper4k.Bridge.Quiescence
import Hyper4k.Bridge.ReadyQueue

/-! The paused-stream budget of a connection: the flag and the guard of a request are written one after the
other, and the connection counts the guards. -/
namespace Hyper4k.Bridge
open Runs

/-- `enter_pause` or `leave_pause` has written the flag and not yet the guard. -/
def Pc.pausing : Pc → Bool
  | .newGuard | .storeGuard _ | .dropGuard _ => true
  | _ => false

def Pc.connected : Pc → Bool
  | .acquire _ | .bind .. => false
  | pc => pc.feeds

def Pc.eventful : Pc → Bool
  | .addPermits .. | .loadState .. | .setInCallback .. | .deliver .. | .inCallback .. | .clearInCallback ..
  | .swapPermit _ | .enterPause | .newGuard | .storeGuard _ => true
  | _ => false

/-- What a step does about a pause: it binds the connection, queues an event, is a step of `enter_pause` or
`leave_pause`, or does none of this. -/
inductive Slot.GuardStep (s : Slot) : Pc → Outcome → Prop
  | bind (a : Attempt) (conn : ConnId) :
    s.GuardStep (.bind a conn) ⟨{ s with conn := some conn }, .trySend a, .quiet⟩
  | push (ev : Event) : s.GuardStep (.pushEvent ev)
      ⟨{ s with queue := s.queue ++ [ev], pushed := s.pushed ++ [ev] }, .sendPaused, .quiet⟩
  | park : s.GuardStep .enterPause ⟨{ s with paused := true }, .newGuard, .quiet⟩
  | create : s.GuardStep .newGuard ⟨s, .storeGuard s.conn, .newGuard s.conn⟩
  | store (guard : Option ConnId) : s.GuardStep (.storeGuard guard)
      ⟨{ s with pauseGuard := guard }, .releaseRunning false, .dropGuard s.pauseGuard⟩
  | leave (k : After) : s.GuardStep (.leavePause k) ⟨{ s with paused := false }, .dropGuard k, .quiet⟩
  | drop (k : After) : s.GuardStep (.dropGuard k)
      ⟨{ s with pauseGuard := none }, .swapScheduled k, .dropGuard s.pauseGuard⟩
  | other {pc : Pc} {o : Outcome} (conn : o.slot.conn = s.conn) (pushed : o.slot.pushed = s.pushed)
      (paused : o.slot.paused = s.paused) (guard : o.slot.pauseGuard = s.pauseGuard)
      (before : pc.pausing = false) (after : o.pc.pausing = false)
      (connected : o.pc.connected = true → pc.connected = true)
      (eventful : o.pc.eventful = true → pc.eventful = true ∨ s.queue ≠ [])
      (effect : ∀ conn, o.effect ≠ .newGuard conn ∧ o.effect ≠ .dropGuard conn) : s.GuardStep pc o

def Effect.isGuard : Effect → Bool
  | .newGuard _ | .dropGuard _ => true
  | _ => false

theorem Slot.GuardStep.aside {s : Slot} {pc : Pc} {o : Outcome} (conn : o.slot.conn = s.conn)
    (pushed : o.slot.pushed = s.pushed) (paused : o.slot.paused = s.paused) (guard : o.slot.pauseGuard = s.pauseGuard)
    (before : pc.pausing = false) (after : o.pc.pausing = false)
    (connected : o.pc.connected = true → pc.connected = true)
    (eventful : o.pc.eventful = true → pc.eventful = true ∨ s.queue ≠ []) (effect : o.effect.isGuard = false) :
    s.GuardStep pc o := by
  refine .other conn pushed paused guard before after connected eventful fun c => ⟨fun he => ?_, fun he => ?_⟩
  all_goals
    rw [he] at effect
    cases effect

theorem exec_guard {s : Slot} {pc : Pc} {o : Outcome} (h : s.exec pc = some o) : s.GuardStep pc o := by
  cases pc with
  | bind a conn =>
    cases h
    exact .bind a conn
  | pushEvent ev =>
    cases h
    exact .push ev
  | enterPause =>
    cases h
    exact .park
  | newGuard =>
    cases h
    exact .create
  | storeGuard guard =>
    cases h
    exact .store guard
  | leavePause k =>
    cases h
    exact .leave k
  | dropGuard k =>
    cases h
    exact .drop k
  | popFront n =>
    simp only [Slot.exec] at h
    split at h
    · cases h
      exact .aside rfl rfl rfl rfl rfl rfl id .inl rfl
    · rename_i hq
      cases h
      refine .aside rfl rfl rfl rfl rfl rfl id (fun _ => .inr ?_) rfl
      rw [hq]
      exact List.cons_ne_nil _ _
  | swapScheduled k | pushReady k | scheduled k =>
    rcases k with c | _ | _
    all_goals
      simp only [Slot.exec] at h
      repeat' split at h
      all_goals
        cases h
        exact .aside rfl rfl rfl rfl rfl rfl id .inl rfl
  | _ =>
    simp only [Slot.exec] at h
    repeat' split at h
    all_goals first
      | (cases h; exact .aside rfl rfl rfl rfl rfl rfl id .inl rfl)
      | (cases h; exact .aside rfl rfl rfl rfl rfl rfl (fun hc => by cases hc) .inl rfl)
      | (cases h; exact .aside rfl rfl rfl rfl rfl rfl id (fun he => by cases he) rfl)
      | cases h

theorem env_guard {s : Slot} {pc : Pc} {o : Outcome} (h : s.EnvStep pc o) : s.GuardStep pc o := by
  cases h with
  | received f =>
    rcases f with (_ | _) | _ <;>
      exact .aside rfl rfl rfl rfl rfl rfl (fun _ => rfl) (fun he => by cases he) rfl
  | answered n ev a => exact .aside rfl rfl rfl rfl rfl rfl (fun hc => by cases hc) (fun _ => .inl rfl) rfl
  | failed _ _ waits | aborted _ waits =>
    cases pc <;> first
      | (cases waits; done)
      | exact .aside rfl rfl rfl rfl rfl rfl (fun hc => by cases hc) (fun he => by cases he) rfl
  | bodyEnd => exact .aside rfl rfl rfl rfl rfl rfl (fun hc => by cases hc) (fun he => by cases he) rfl
  | _ => exact .aside rfl rfl rfl rfl rfl rfl id (fun he => by cases he) rfl

/-- Nothing is parked before an event was queued, and nothing is queued before the connection is bound. -/
structure Slot.Bound (s : Slot) : Prop where
  pushed : s.pushed ≠ [] → s.conn ≠ none
  parked : s.paused = true → s.pushed ≠ []
  guarded : s.pauseGuard ≠ none → s.pushed ≠ [] ∧ s.pauseGuard = s.conn

structure Slot.Grounded (s : Slot) (pc : Pc) : Prop where
  connected : pc.connected = true → s.conn ≠ none
  eventful : pc.eventful = true → s.pushed ≠ []
  carried : ∀ guard, pc = .storeGuard guard → guard = s.conn

theorem Slot.Grounded.of_plain (s : Slot) {pc : Pc} (hc : pc.connected = false) (he : pc.eventful = false) :
    s.Grounded pc where
  connected h := absurd h (by rw [hc]; exact Bool.false_ne_true)
  eventful h := absurd h (by rw [he]; exact Bool.false_ne_true)
  carried guard h := by
    rw [h] at he
    cases he

/-- A connection stays bound, and once an event is queued it stays the same one. -/
structure Slot.Binds (s t : Slot) : Prop where
  conn : s.conn ≠ none → t.conn ≠ none
  pushed : s.pushed ≠ [] → t.pushed ≠ []
  same : s.pushed ≠ [] → t.conn = s.conn

theorem Slot.Grounded.mono {s t : Slot} {pc : Pc} (h : s.Grounded pc) (ht : s.Binds t) : t.Grounded pc where
  connected hc := ht.conn (h.connected hc)
  eventful he := ht.pushed (h.eventful he)
  carried guard hg := by
    have hstarted : s.pushed ≠ [] := h.eventful (by rw [hg]; rfl)
    rw [ht.same hstarted]
    exact h.carried guard hg

theorem Slot.GuardStep.binds {s : Slot} {pc : Pc} {o : Outcome} (h : s.GuardStep pc o)
    (hbind : ∀ a conn, pc = .bind a conn → s.pushed = []) : s.Binds o.slot := by
  cases h with
  | bind a conn =>
    have hnone := hbind a conn rfl
    exact ⟨fun _ => Option.some_ne_none _, id, fun hp => absurd hnone hp⟩
  | push ev => exact ⟨id, fun _ => List.append_ne_nil_of_right_ne_nil _ (List.cons_ne_nil _ _), fun _ => rfl⟩
  | other conn pushed => exact ⟨fun h => conn ▸ h, fun h => pushed ▸ h, fun _ => conn⟩
  | park | create | store | leave | drop => exact ⟨id, id, fun _ => rfl⟩

theorem Slot.GuardStep.bound {s : Slot} {pc : Pc} {o : Outcome} (h : s.GuardStep pc o) (hs : s.Bound)
    (hpc : s.Grounded pc) (hbind : ∀ a conn, pc = .bind a conn → s.pushed = []) : o.slot.Bound := by
  cases h with
  | bind a conn =>
    have hnone := hbind a conn rfl
    exact ⟨fun _ => Option.some_ne_none _, hs.parked, fun hg => absurd hnone (hs.guarded hg).1⟩
  | push ev =>
    have hqueued : s.pushed ++ [ev] ≠ [] := List.append_ne_nil_of_right_ne_nil _ (List.cons_ne_nil _ _)
    exact ⟨fun _ => hpc.connected rfl, fun _ => hqueued, fun hg => ⟨hqueued, (hs.guarded hg).2⟩⟩
  | park => exact ⟨hs.pushed, fun _ => hpc.eventful rfl, hs.guarded⟩
  | create => exact hs
  | store guard => exact ⟨hs.pushed, hs.parked, fun _ => ⟨hpc.eventful rfl, hpc.carried guard rfl⟩⟩
  | leave k => exact ⟨hs.pushed, nofun, hs.guarded⟩
  | drop k => exact ⟨hs.pushed, hs.parked, fun hg => absurd rfl hg⟩
  | other conn pushed paused guard =>
    refine ⟨?_, ?_, ?_⟩
    · rw [conn, pushed]
      exact hs.pushed
    · rw [paused, pushed]
      exact hs.parked
    · rw [guard, pushed, conn]
      exact hs.guarded

theorem Slot.GuardStep.grounded {s : Slot} {pc : Pc} {o : Outcome} (h : s.GuardStep pc o) (hpc : s.Grounded pc)
    (hqueue : s.queue ≠ [] → s.pushed ≠ []) : o.slot.Grounded o.pc := by
  cases h with
  | bind a conn => exact ⟨fun _ => Option.some_ne_none _, nofun, nofun⟩
  | push ev => exact ⟨fun _ => hpc.connected rfl, nofun, nofun⟩
  | park => exact ⟨nofun, fun _ => hpc.eventful rfl, nofun⟩
  | create => exact ⟨nofun, fun _ => hpc.eventful rfl, fun guard h => by cases h; rfl⟩
  | store guard => exact .of_plain _ rfl rfl
  | leave k | drop k =>
    refine ⟨fun hc => hpc.connected ?_, nofun, nofun⟩
    rcases k with c | _ | _ <;> exact hc
  | other conn pushed paused guard before after connected eventful =>
    refine ⟨fun hc => ?_, fun he => ?_, fun guard h => ?_⟩
    · rw [conn]
      exact hpc.connected (connected hc)
    · rw [pushed]
      exact (eventful he).elim hpc.eventful hqueue
    · rw [h] at after
      cases after

structure View.Bound (v : View) : Prop where
  slot : v.slot.Bound
  threads : ∀ t, v.slot.Grounded (v.pc t)

theorem View.Bound.init (onChunk : Bool) (queueCapacity : Nat) : (View.init onChunk queueCapacity).Bound where
  slot := ⟨fun h => absurd rfl h, nofun, fun h => absurd rfl h⟩
  threads _ := .of_plain _ rfl rfl

theorem View.Sound.pushed_of_queue {v : View} (hv : v.Sound) (hq : v.slot.queue ≠ []) : v.slot.pushed ≠ [] := by
  obtain ⟨held, hline, -⟩ := hv.flow.line
  rw [hline]
  exact List.append_ne_nil_of_right_ne_nil _ hq

theorem View.Sound.pushed_of_bind {v : View} (hv : v.Sound) {t : Tid} {a : Attempt} {conn : ConnId}
    (ht : v.pc t = .bind a conn) : v.slot.pushed = [] := by
  have htask : t = .task := hv.fed.feeder t (by rw [ht]; rfl)
  have hfeeding := hv.fed.feeding
  rw [← htask, ht] at hfeeding
  exact hfeeding.1

theorem View.Bound.move {v : View} (hv : v.Bound) (hsound : v.Sound) {t : Tid} {o : Outcome} {k : Nat}
    (h : v.slot.GuardStep (v.pc t) o) : View.Bound ⟨o.slot, k, Function.update v.pc t o.pc⟩ := by
  have hbind : ∀ a conn, v.pc t = .bind a conn → v.slot.pushed = [] := fun _ _ => hsound.pushed_of_bind
  refine ⟨h.bound hv.slot (hv.threads t) hbind, ?_⟩
  refine forall_update (Q := fun _ pc => o.slot.Grounded pc) (h.grounded (hv.threads t) hsound.pushed_of_queue) ?_
  exact fun u _ => (hv.threads u).mono (h.binds hbind)

theorem View.Bound.arrive {v : View} (hv : v.Bound) {t : Tid} {k : Nat} {pc : Pc} (hc : pc.connected = false)
    (he : pc.eventful = false) : View.Bound ⟨v.slot, k, Function.update v.pc t pc⟩ :=
  ⟨hv.slot, forall_update (Q := fun _ pc => v.slot.Grounded pc) (.of_plain _ hc he) fun u _ => hv.threads u⟩

theorem View.Bound.step {v w : View} {m : Move} (hv : v.Bound) (hsound : v.Sound) (h : v.Stepped m w) : w.Bound := by
  cases h with
  | exec t o h => exact hv.move hsound (exec_guard h)
  | env t c o h => exact hv.move hsound (env_guard h)
  | pop n k => exact hv.arrive rfl rfl
  | enter n e => cases e <;> exact hv.arrive rfl rfl
  | spawn a => exact hv.arrive rfl rfl
  | setAbort =>
    exact ⟨⟨hv.slot.pushed, hv.slot.parked, hv.slot.guarded⟩, fun t => (hv.threads t).mono ⟨id, id, fun _ => rfl⟩⟩

/-- Where a transition writes the guard, `paused` is still what the transition set it to. -/
def Slot.keepsPause (s : Slot) : Pc → Bool
  | .storeGuard _ => s.paused
  | .dropGuard _ => !s.paused
  | _ => true

def View.PauseKept (v : View) : Move → Prop
  | .exec t => v.slot.keepsPause (v.pc t) = true
  | _ => True

instance (v : View) : (m : Move) → Decidable (v.PauseKept m)
  | .exec t => inferInstanceAs (Decidable (v.slot.keepsPause (v.pc t) = true))
  | .env _ _ | .pop _ | .enter _ _ | .spawn _ | .setAbort => inferInstanceAs (Decidable True)

def View.PauseSettled (v : View) : Prop := ∀ t, (v.pc t).pausing = false

/-- Outside of a transition the guard and the flag go together. -/
def View.Matched (v : View) : Prop := v.PauseSettled → (v.slot.pauseGuard ≠ none ↔ v.slot.paused = true)

theorem View.PauseSettled.before {v : View} {t : Tid} {s : Slot} {k : Nat} {pc : Pc}
    (h : View.PauseSettled ⟨s, k, Function.update v.pc t pc⟩) (ht : (v.pc t).pausing = false) : v.PauseSettled := by
  intro u
  by_cases hu : u = t
  · rw [hu]
    exact ht
  · have hother := h u
    rwa [show (⟨s, k, Function.update v.pc t pc⟩ : View).pc u = v.pc u from Function.update_of_ne hu _ _] at hother

theorem View.PauseSettled.moved {v : View} {t : Tid} {s : Slot} {k : Nat} {pc : Pc}
    (h : View.PauseSettled ⟨s, k, Function.update v.pc t pc⟩) : pc.pausing = false := by
  have hself := h t
  rwa [show (⟨s, k, Function.update v.pc t pc⟩ : View).pc t = pc from Function.update_self _ _ _] at hself

theorem View.Matched.same {v : View} (hv : v.Matched) {t : Tid} {s : Slot} {k : Nat} {pc : Pc}
    (hpaused : s.paused = v.slot.paused) (hguard : s.pauseGuard = v.slot.pauseGuard)
    (ht : (v.pc t).pausing = false) : View.Matched ⟨s, k, Function.update v.pc t pc⟩ := by
  intro hsettled
  change s.pauseGuard ≠ none ↔ s.paused = true
  rw [hpaused, hguard]
  exact hv (hsettled.before ht)

theorem View.Matched.move {v : View} (hv : v.Matched) (hb : v.Bound) {t : Tid} {o : Outcome} {k : Nat}
    (hok : v.slot.keepsPause (v.pc t) = true) (h : v.slot.GuardStep (v.pc t) o) :
    View.Matched ⟨o.slot, k, Function.update v.pc t o.pc⟩ := by
  have hground := hb.threads t
  generalize hpc : v.pc t = pc at h hok hground
  cases h with
  | park | create | leave k => exact fun hsettled => absurd hsettled.moved (by simp [Pc.pausing])
  | store guard =>
    intro _
    have hguard : guard ≠ none := by
      rw [hground.carried guard rfl]
      exact hb.slot.pushed (hground.eventful rfl)
    exact ⟨fun _ => hok, fun _ => hguard⟩
  | drop k =>
    intro _
    have hfree : v.slot.paused = false := by simpa [Slot.keepsPause] using hok
    refine ⟨fun hg => absurd rfl hg, fun hp => ?_⟩
    rw [show v.slot.paused = true from hp] at hfree
    cases hfree
  | bind a conn => exact hv.same rfl rfl (by rw [hpc]; rfl)
  | push ev => exact hv.same rfl rfl (by rw [hpc]; rfl)
  | other _ _ paused guard before => exact hv.same paused guard (by rw [hpc]; exact before)

theorem env_not_pausing {s : Slot} {pc : Pc} {o : Outcome} (h : s.EnvStep pc o) : s.keepsPause pc = true := by
  cases h with
  | failed _ _ waits | aborted _ waits => cases pc <;> first | rfl | cases waits
  | _ => rfl

theorem View.Matched.step {v w : View} {m : Move} (hok : v.PauseKept m) (hv : v.Matched) (hb : v.Bound)
    (h : v.Stepped m w) : w.Matched := by
  cases h with
  | exec t o h => exact hv.move hb hok (exec_guard h)
  | env t c o h => exact hv.move hb (env_not_pausing h) (env_guard h)
  | pop n k free | enter n e free | spawn a free => exact hv.same rfl rfl (by rw [free]; rfl)
  | setAbort => exact hv

section Counting
variable {cfg : Config} {s t : Client} {c : ConnId}

def Effect.guards (c : ConnId) : Effect → Int
  | .newGuard conn => if conn = some c then 1 else 0
  | .dropGuard conn => if conn = some c then -1 else 0
  | _ => 0

def Slot.holdsGuard (c : ConnId) (s : Slot) : Bool := s.pauseGuard = some c

def Pc.carriesGuard (c : ConnId) : Pc → Bool
  | .storeGuard guard => guard = some c
  | _ => false

theorem Pc.pausing_of_carriesGuard {pc : Pc} (h : pc.carriesGuard c = true) : pc.pausing = true := by
  cases pc <;> first | rfl | cases h

theorem Pc.slicing_of_carriesGuard {pc : Pc} (h : pc.carriesGuard c = true) : pc.slicing = true := by
  cases pc <;> first | rfl | cases h

/-- A guard is counted from its creation to its drop. -/
theorem Slot.GuardStep.count {s : Slot} {pc : Pc} {o : Outcome} (h : s.GuardStep pc o) (c : ConnId) :
    ((o.slot.holdsGuard c).toNat + (o.pc.carriesGuard c).toNat : Int) =
      (s.holdsGuard c).toNat + (pc.carriesGuard c).toNat + o.effect.guards c := by
  cases h with
  | bind a conn | push ev | park | leave k => simp [Slot.holdsGuard, Pc.carriesGuard, Effect.guards]
  | create | store guard | drop k =>
    simp only [Slot.holdsGuard, Pc.carriesGuard, Effect.guards]
    split <;> simp [*]
  | other conn pushed paused guard before after connected eventful effect =>
    have hbefore : pc.carriesGuard c = false := by
      refine Bool.eq_false_iff.mpr fun hc => ?_
      rw [Pc.pausing_of_carriesGuard hc] at before
      cases before
    have hafter : o.pc.carriesGuard c = false := by
      refine Bool.eq_false_iff.mpr fun hc => ?_
      rw [Pc.pausing_of_carriesGuard hc] at after
      cases after
    have heffect : o.effect.guards c = 0 := by
      cases he : o.effect with
      | newGuard conn => exact absurd he (effect conn).1
      | dropGuard conn => exact absurd he (effect conn).2
      | _ => rfl
    rw [Slot.holdsGuard, Slot.holdsGuard, guard, hbefore, hafter, heffect, Int.add_zero]

theorem commit_connPaused (s : Client) (r : ReqId) (o : Outcome) (c : ConnId) :
    (s.commit r o).connPaused c = s.connPaused c + o.effect.guards c := by
  unfold Client.commit
  cases o.effect with
  | newGuard conn | dropGuard conn =>
    rcases conn with _ | d
    · simp [Client.apply, Client.addPaused, Effect.guards]
    · by_cases hd : d = c
      · simp [Client.apply, Client.addPaused, Effect.guards, hd]
      · simp [Client.apply, Client.addPaused, Effect.guards, hd, Ne.symm hd]
  | _ => simp [Client.apply, Effect.guards]

def workerCarries (c : ConnId) : Option (ReqId × Pc) → Bool
  | some (_, pc) => pc.carriesGuard c
  | none => false

/-- A connection's paused count is the number of guards of requests and of workers that are about to store one. -/
def Client.Counts (c : ConnId) (s : Client) : Prop :=
  ∃ n m : Nat, Exactly (Slot.holdsGuard c) n s.slots ∧ Exactly (workerCarries c) m s.workers ∧ s.connPaused c = n + m

theorem Client.Counts.init (cfg : Config) (c : ConnId) : (Client.init cfg).Counts c :=
  ⟨0, 0, exactly_zero fun _ => rfl, exactly_zero fun _ => rfl, rfl⟩

theorem Client.Counts.worker (hs : s.Counts c) {n : Nat} {r : ReqId} {pc : Pc} {o : Outcome}
    (on : s.workers n = some (r, pc)) (h : (s.slots r).GuardStep pc o) :
    ((s.commit r o).setWorker n r o.pc).Counts c := by
  obtain ⟨i, j, hslots, hworkers, hsum⟩ := hs
  obtain ⟨i', hslots', hi⟩ := hslots.update r o.slot
  obtain ⟨j', hworkers', hj⟩ := hworkers.update n (if o.pc = .away then none else some (r, o.pc))
  have hplace : workerCarries c (if o.pc = .away then none else some (r, o.pc)) = o.pc.carriesGuard c := by
    split
    · rename_i haway
      rw [haway]
      rfl
    · rfl
  rw [on, hplace] at hj
  have hcount := h.count c
  refine ⟨i', j', ?_, ?_, ?_⟩
  · simpa [Client.setWorker, Client.commit] using hslots'
  · simpa [Client.setWorker, Client.commit] using hworkers'
  · change (s.commit r o).connPaused c = _
    rw [commit_connPaused]
    change j' + (pc.carriesGuard c).toNat = j + (o.pc.carriesGuard c).toNat at hj
    omega

/-- The step of a thread that is no worker, and so never has a guard in its hand. -/
theorem Client.Counts.outside (hs : s.Counts c) {r : ReqId} {pc : Pc} {o : Outcome}
    (h : (s.slots r).GuardStep pc o) (hpc : pc.carriesGuard c = false) (ho : o.pc.carriesGuard c = false)
    (ht : t.slots = (s.commit r o).slots ∧ t.workers = s.workers ∧ t.connPaused = (s.commit r o).connPaused) :
    t.Counts c := by
  obtain ⟨i, j, hslots, hworkers, hsum⟩ := hs
  obtain ⟨i', hslots', hi⟩ := hslots.update r o.slot
  have hcount := h.count c
  rw [hpc, ho] at hcount
  refine ⟨i', j, ?_, ?_, ?_⟩
  · rw [ht.1]
    simpa [Client.commit] using hslots'
  · rw [ht.2.1]
    exact hworkers
  · rw [ht.2.2, commit_connPaused]
    simp only [Bool.toNat_false] at hcount
    omega

theorem Client.Counts.same (hs : s.Counts c)
    (ht : t.slots = s.slots ∧ t.workers = s.workers ∧ t.connPaused = s.connPaused) : t.Counts c := by
  unfold Client.Counts
  rw [ht.1, ht.2.1, ht.2.2]
  exact hs

/-- A thread that is no worker is not in a slice, and stays outside. -/
theorem View.Manned.outside {v : View} (hv : v.Manned) {u : Tid} (hu : ∀ n, u ≠ .worker n) {pc : Pc}
    (hpc : pc.slicing = true → (v.pc u).slicing = true) (c : ConnId) :
    (v.pc u).carriesGuard c = false ∧ pc.carriesGuard c = false := by
  have hout : (v.pc u).slicing ≠ true := by
    intro h
    obtain ⟨n, hn⟩ := hv.worker u h
    exact hu n hn
  refine ⟨Bool.eq_false_iff.mpr fun h => ?_, Bool.eq_false_iff.mpr fun h => ?_⟩
  · exact hout (Pc.slicing_of_carriesGuard h)
  · exact hout (hpc (Pc.slicing_of_carriesGuard h))

theorem Client.Counts.step {a : Act} (hs : s.Counts c) (hm : ∀ r, (s.view r).Manned) (h : s.step cfg a = some t) :
    t.Counts c := by
  cases Client.step_cases h with
  | pop n r rest free ready =>
    obtain ⟨i, j, hslots, hworkers, hsum⟩ := hs
    obtain ⟨j', hworkers', hj⟩ := hworkers.update n (some (r, .swapRunning SLICE))
    rw [free] at hj
    have hsame : j' = j := hj
    exact ⟨i, j', hslots, hworkers', hsame ▸ hsum⟩
  | worker n r pc o on ho => exact hs.worker on (exec_guard ho)
  | workerEnv n e r pc o on ho => exact hs.worker on (env_guard (Slot.env_cases ho))
  | task r o ho =>
    obtain ⟨hpc, ho'⟩ := (hm r).outside (u := .task) (fun _ => Tid.noConfusion) (exec_slicing ho) c
    exact hs.outside (exec_guard ho) hpc ho' ⟨rfl, by simp [Client.setTask, Client.commit], rfl⟩
  | taskEnv r e o ho =>
    have henv := Slot.env_cases ho
    obtain ⟨hpc, ho'⟩ := (hm r).outside (u := .task) (fun _ => Tid.noConfusion) (env_slicing henv) c
    exact hs.outside (env_guard henv) hpc ho' ⟨rfl, by simp [Client.setTask, Client.commit], rfl⟩
  | begin n api => exact hs.same ⟨rfl, rfl, rfl⟩
  | call n _ h =>
    cases Client.advance_cases h with
    | send args pc =>
      cases pc with
      | setAbort id =>
        obtain ⟨i, j, hslots, hworkers, hsum⟩ := hs
        obtain ⟨i', hslots', hi⟩ := hslots.update id { s.slots id with abort := true }
        have hsame : i' = i := by
          simp only [Slot.holdsGuard] at hi
          omega
        exact ⟨i', j, hslots', hworkers, hsame ▸ hsum⟩
      | _ => exact hs.same ⟨rfl, rfl, rfl⟩
    | act r o d ho =>
      obtain ⟨hpc, ho'⟩ := (hm r).outside (u := .call n) (fun _ => Tid.noConfusion) (exec_slicing ho) c
      exact hs.outside (exec_guard ho) hpc ho' ⟨rfl, by simp [Client.setCall, Client.commit], rfl⟩
    | close free => exact hs.same ⟨rfl, rfl, rfl⟩
    | move d => exact hs.same ⟨rfl, rfl, rfl⟩

theorem Client.Reaches.counts {ok : Client → Act → Prop} {as : List Act}
    (h : Client.Reaches cfg ok (Client.init cfg) as s) (c : ConnId) : s.Counts c := by
  have hmanned : (Client.init cfg).Fresh ∧ (∀ r, ((Client.init cfg).view r).Manned) ∧ (Client.init cfg).Counts c := by
    refine ⟨.init cfg, fun r => ?_, .init cfg c⟩
    rw [view_init]
    exact .init _ _
  refine (h.invariant (I := fun s => s.Fresh ∧ (∀ r, (s.view r).Manned) ∧ s.Counts c) ?_ hmanned).2.2
  rintro s a t - ⟨hf, hm, hs⟩ hstep
  exact ⟨hf.step hstep, step_views hf hstep (fun _ _ _ hv hw => hv.step hw) hm, hs.step hm hstep⟩

end Counting

def Client.PauseKept (s : Client) (a : Act) : Prop := ∀ r, Client.On r View.PauseKept s a

instance (s : Client) (a : Act) : Decidable (s.PauseKept a) :=
  decidable_of_iff (∀ r ∈ s.target a, Client.On r View.PauseKept s a)
    ⟨fun h r m hm => h r (Client.target_of_moveOf hm) m hm, fun h r _ => h r⟩

theorem Client.Reaches.matched {cfg : Config} {as : List Act} {s : Client}
    (h : Client.Reaches cfg Client.PauseKept (Client.init cfg) as s) (r : ReqId) :
    (s.view r).Matched ∧ (s.view r).Bound := by
  have hon : Client.Reaches cfg (Client.On r View.PauseKept) (Client.init cfg) as s :=
    h.mono fun _ _ hok => hok r
  have hall := Client.Reaches.holds (I := fun v => v.Matched ∧ v.Bound ∧ v.Sound) hon ?_ ?_
  · exact ⟨hall.1, hall.2.1⟩
  · refine ⟨fun _ => ?_, .init _ _, .init _ _⟩
    exact ⟨fun h => absurd rfl h, nofun⟩
  · rintro v m w hok ⟨hm, hb, hsound⟩ hs
    exact ⟨hm.step hok hb hs, hb.step hsound hs, hsound.step hs⟩

/-- A request holds a guard exactly while it is parked, so that a connection's paused count is the number of its
parked requests; it is at no time negative. -/
theorem paused_count_exact {cfg : Config} {as : List Act} {s : Client}
    (h : Client.Reaches cfg Client.PauseKept (Client.init cfg) as s) :
    (∀ r, (s.view r).PauseSettled → ((s.slots r).pauseGuard ≠ none ↔ (s.slots r).paused = true)) ∧
    ∀ c, 0 ≤ s.connPaused c ∧ ((∀ r, (s.slots r).conn = some c → (s.view r).PauseSettled) →
      ∃ T : Finset ReqId, (∀ r, r ∈ T ↔ (s.slots r).conn = some c ∧ (s.slots r).paused = true) ∧
        s.connPaused c = T.card) := by
  refine ⟨fun r => (h.matched r).1, fun c => ?_⟩
  obtain ⟨n, m, ⟨T, hT, hcard⟩, hworkers, hsum⟩ := h.counts c
  refine ⟨by omega, fun hsettled => ⟨T, fun r => ?_, ?_⟩⟩
  · have hbound := (h.matched r).2.slot
    have hmatch : (s.slots r).conn = some c → ((s.slots r).pauseGuard ≠ none ↔ (s.slots r).paused = true) :=
      fun hc => (h.matched r).1 (hsettled r hc)
    have hheld : r ∈ T ↔ (s.slots r).pauseGuard = some c := (hT r).trans (by simp [Slot.holdsGuard])
    rw [hheld]
    constructor
    · intro hg
      have hne : (s.slots r).pauseGuard ≠ none := by
        rw [hg]
        exact Option.some_ne_none c
      have hconn : (s.slots r).conn = some c := (hbound.guarded hne).2.symm.trans hg
      exact ⟨hconn, (hmatch hconn).mp hne⟩
    · rintro ⟨hconn, hp⟩
      have hne := (hmatch hconn).mpr hp
      exact (hbound.guarded hne).2.trans hconn
  · have hnone : m = 0 := by
      refine hworkers.eq_zero fun k => Bool.eq_false_iff.mpr fun hk => ?_
      obtain ⟨r, pc, hw, hc⟩ : ∃ r pc, s.workers k = some (r, pc) ∧ pc.carriesGuard c = true := by
        cases hw : s.workers k with
        | none =>
          rw [hw] at hk
          cases hk
        | some x =>
          rw [hw] at hk
          exact ⟨x.1, x.2, rfl, hk⟩
      have hpc : (s.view r).pc (.worker k) = pc := by simp [Client.view, Client.pcOn, workerPcOn, hw]
      have hconn : (s.slots r).conn = some c := by
        cases pc with
        | storeGuard guard =>
          have hcarried := ((h.matched r).2.threads (.worker k)).carried guard hpc
          have hguard : guard = some c := of_decide_eq_true hc
          exact hcarried.symm.trans hguard
        | _ => cases hc
      have hquiet := hsettled r hconn (.worker k)
      rw [hpc, Pc.pausing_of_carriesGuard hc] at hquiet
      cases hquiet
    rw [hsum, hnone, hcard]
    exact Int.add_zero _

def Client.OnlyOn (r : ReqId) (s : Client) (a : Act) : Prop := ∀ q ∈ s.target a, q = r

instance (r : ReqId) (s : Client) (a : Act) : Decidable (Client.OnlyOn r s a) :=
  inferInstanceAs (Decidable (∀ q ∈ s.target a, q = r))

theorem Client.Reaches.elsewhere {cfg : Config} {as : List Act} {s : Client} {r q : ReqId}
    (h : Client.Reaches cfg (Client.OnlyOn r) (Client.init cfg) as s) (hq : q ≠ r) :
    s.view q = View.init (cfg.onChunk q) cfg.queueCapacity := by
  refine (h.invariant (I := fun s => s.Fresh ∧ s.view q = View.init (cfg.onChunk q) cfg.queueCapacity) ?_
    ⟨.init cfg, view_init cfg q⟩).2
  rintro s a t honly ⟨hf, hs⟩ hstep
  refine ⟨hf.step hstep, ?_⟩
  have hshow := step_shows hf hstep q
  cases hm : s.moveOf q a with
  | none =>
    rw [hm] at hshow
    exact Eq.trans hshow hs
  | some m => exact absurd (honly q (Client.target_of_moveOf hm)) hq

theorem paused_count_exact_parked : ∃ s : Client,
    Client.Reaches .small Client.PauseKept (Client.init .small) (inFirstChunk ++ pauseAnswered) s ∧
    (s.slots 1).paused = true ∧ (s.slots 1).pauseGuard ≠ none ∧
    ∃ T : Finset ReqId, (∀ r, r ∈ T ↔ (s.slots r).conn = some 5 ∧ (s.slots r).paused = true) ∧
      s.connPaused 5 = T.card := by
  have hrun : Client.after .small (fun s a => s.PauseKept a ∧ Client.OnlyOn 1 s a) (inFirstChunk ++ pauseAnswered)
      (fun s => (s.slots 1).paused = true ∧ s.allPcs 1 1 (fun _ pc => !pc.pausing) = true) (fun _ => true)
      (Client.init .small) = true := by decide
  obtain ⟨s, hs, ⟨hpaused, hpcs⟩, -⟩ := Client.of_after hrun
  have hkept : Client.Reaches .small Client.PauseKept (Client.init .small) (inFirstChunk ++ pauseAnswered) s :=
    hs.mono fun _ _ h => h.1
  have hsettled : ∀ r, (s.view r).PauseSettled := by
    intro r
    by_cases hr : r = 1
    · subst hr
      intro t
      have ht := hs.allPcs (by decide) (fun _ => rfl) hpcs t
      simpa using ht
    · have honly : Client.Reaches .small (Client.OnlyOn 1) (Client.init .small) (inFirstChunk ++ pauseAnswered) s :=
        hs.mono fun _ _ h => h.2
      rw [honly.elsewhere hr]
      exact fun _ => rfl
  obtain ⟨hmatch, hcount⟩ := paused_count_exact hkept
  exact ⟨s, hkept, hpaused, (hmatch 1 (hsettled 1)).mpr hpaused, (hcount 5).2 fun r _ => hsettled r⟩

/-- A resume falls between the store of `paused` and that of the guard: the request is not parked and keeps its
guard. -/
theorem resumed_request_keeps_guard : ¬ ∀ (cfg : Config) (as : List Act) (s : Client) (r : ReqId),
    Client.Reaches cfg anyStep (Client.init cfg) as s → (s.view r).PauseSettled →
    ((s.slots r).pauseGuard ≠ none ↔ (s.slots r).paused = true) := by
  intro h
  have hrun : Client.after .small anyStep
      (inFirstChunk ++ Act.workerEnv 0 (.action .pause) :: List.replicate 3 (.worker 0) ++
        Act.begin 0 (.resume 1) :: List.replicate 4 (.call 0) ++ List.replicate 2 (Act.worker 0))
      (fun s => ((s.slots 1).pauseGuard = some 5 ∧ (s.slots 1).paused = false ∧ s.connPaused 5 = 1) ∧
        s.allPcs 1 1 (fun _ pc => !pc.pausing) = true) (fun _ => true) (Client.init .small) = true := by decide
  obtain ⟨s, hs, ⟨⟨hguard, hpaused, -⟩, hpcs⟩, -⟩ := Client.of_after hrun
  have hsettled : (s.view 1).PauseSettled := by
    intro t
    have ht := hs.allPcs (by decide) (fun _ => rfl) hpcs t
    simpa using ht
  have hiff := h .small _ s 1 hs hsettled
  rw [hguard, hpaused] at hiff
  exact Bool.false_ne_true (hiff.mp (Option.some_ne_none 5))

end Hyper4k.Bridge
