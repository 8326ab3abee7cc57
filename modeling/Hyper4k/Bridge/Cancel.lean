import Hyper4k.Bridge.Parking

/-! A callback that answers `CANCEL`: what the user still hears of the request, and what
becomes of its network task. -/
namespace Hyper4k.Bridge
open Runs

/-- The `CANCEL` branch of `run_owned` is about to claim the terminal. -/
def Pc.claimsInSlice : Pc → Bool
  | .claim .callback _ discard => discard
  | _ => false

/-- A callback has answered `CANCEL`, and the slice has yet to claim the terminal. -/
def Pc.cancelling : Pc → Bool
  | .clearInCallback _ (some .cancel) | .cancelPermit => true
  | pc => pc.claimsInSlice

theorem Pc.owns_of_cancelling {pc : Pc} (h : pc.cancelling = true) : pc.owns = true := by
  cases pc with
  | claim c t discard => cases c <;> first | rfl | cases h
  | _ => first | rfl | cases h

theorem Pc.held_of_cancelling {pc : Pc} (h : pc.cancelling = true) : pc.held = [] ∧ pc.passed = false := by
  cases pc <;> first | exact ⟨rfl, rfl⟩ | cases h

/-- If the network task has already claimed a drain when the `CANCEL` branch claims, the
queue is empty. -/
def View.CancelsLast (v : View) : Move → Prop
  | .exec t => (v.pc t).claimsInSlice = true → v.slot.state = .terminalDrain → v.slot.queue = []
  | _ => True

instance (v : View) : (m : Move) → Decidable (v.CancelsLast m)
  | .exec t => inferInstanceAs (Decidable ((v.pc t).claimsInSlice = true → v.slot.state = .terminalDrain →
      v.slot.queue = []))
  | .env _ _ | .pop _ | .enter _ _ | .spawn _ | .setAbort => inferInstanceAs (Decidable True)

/-- No event can reach the user any more: those in the queue or in a worker's hands will
be dropped, or there are none. -/
structure View.Mute (v : View) : Prop where
  passed : ∀ t, (v.pc t).passed = false
  spent : v.slot.state = .terminalDiscard ∨
    v.slot.state = .terminalDrain ∧ v.slot.queue = [] ∧ ∀ t, (v.pc t).held = []

/-- A callback has answered `CANCEL` and its slice will settle, or nothing is left to deliver. -/
def View.Silenced (v : View) : Prop := (∃ t, (v.pc t).cancelling = true) ∨ v.Mute

/-- While a callback's `CANCEL` is being handled, no thread holds an event. -/
theorem View.Locked.idle_of_cancelling {v : View} (hl : v.Locked) {t : Tid} (ht : (v.pc t).cancelling = true)
    (u : Tid) : (v.pc u).held = [] ∧ (v.pc u).passed = false := by
  by_cases hut : u = t
  · rw [hut]
    exact Pc.held_of_cancelling ht
  · have hout : (v.pc u).owns = false :=
      Bool.eq_false_iff.mpr fun ho => hut (hl.sole u t ho (Pc.owns_of_cancelling ht))
    refine ⟨Pc.held_eq_nil hout, Bool.eq_false_iff.mpr fun hp => ?_⟩
    rw [Pc.owns_of_passed hp] at hout
    cases hout

theorem View.Silenced.idle {v : View} (hv : v.Silenced) (hl : v.Locked) (t : Tid) : (v.pc t).passed = false := by
  rcases hv with ⟨u, hu⟩ | hm
  · exact (hl.idle_of_cancelling hu t).2
  · exact hm.passed t

/-- A thread that holds no checked event adds nothing to the callbacks but `OnDone`. -/
theorem Slot.FlowStep.trace_of_not_passed {s : Slot} {pc : Pc} {o : Outcome} (h : s.FlowStep pc o)
    (hp : pc.passed = false) : ∃ l, o.slot.trace = s.trace ++ l ∧ ∀ cb ∈ l, cb.done? ≠ none := by
  cases h with
  | same flow held passed trace => exact ⟨[], by rw [trace, List.append_nil], fun _ hcb => by cases hcb⟩
  | hand => cases hp
  | done t =>
    refine ⟨[.onDone t.error], rfl, fun cb hcb => ?_⟩
    rw [List.mem_singleton.mp hcb]
    exact Option.some_ne_none _
  | _ => exact ⟨[], (List.append_nil _).symm, fun _ hcb => by cases hcb⟩

/-- The handling of `CANCEL` goes on, or its claim leaves nothing to deliver. -/
private theorem exec_cancelling {s : Slot} {pc : Pc} {o : Outcome} (h : s.exec pc = some o)
    (hpc : pc.cancelling = true)
    (hok : pc.claimsInSlice = true → s.state = .terminalDrain → s.queue = []) :
    o.pc.cancelling = true ∨ (o.slot.state = .terminalDiscard ∨ o.slot.state = .terminalDrain ∧ o.slot.queue = []) ∧
      o.pc.held = [] ∧ o.pc.passed = false := by
  cases pc with
  | clearInCallback n action =>
    rcases action with _ | _ | _ | _ <;> first | (cases hpc; done) | skip
    cases h
    exact .inl rfl
  | cancelPermit =>
    cases h
    exact .inl rfl
  | claim c t discard =>
    cases c <;> first | (cases hpc; done) | skip
    have hdiscard : discard = true := hpc
    subst hdiscard
    simp only [Slot.exec] at h
    split at h
    · cases h
      exact .inr ⟨.inl rfl, rfl, rfl⟩
    · rename_i hs
      cases h
      refine .inr ⟨?_, rfl, rfl⟩
      rcases hstate : s.state with _ | _ | _
      · exact absurd hstate hs
      · exact .inr ⟨rfl, hok rfl hstate⟩
      · exact .inl rfl
  | _ => cases hpc

/-- A step of another thread keeps the slot mute. -/
private theorem Mute.step {v : View} (hv : v.Mute) (hf : v.Fed) {t : Tid} {o : Outcome} {ready : Nat}
    (h : v.slot.FlowStep (v.pc t) o) : (⟨o.slot, ready, Function.update v.pc t o.pc⟩ : View).Mute := by
  have hne : v.slot.state ≠ .running := by
    rcases hv.spent with hs | ⟨hs, -⟩ <;> rw [hs] <;> exact State.noConfusion
  have passed : o.pc.passed = false → ∀ u, (Function.update v.pc t o.pc u).passed = false := fun hp =>
    forall_update (Q := fun _ (pc : Pc) => pc.passed = false) hp fun u _ => hv.passed u
  have held : o.pc.held = [] → (∀ u, (v.pc u).held = []) → ∀ u, (Function.update v.pc t o.pc u).held = [] :=
    fun hp hall => forall_update (Q := fun _ (pc : Pc) => pc.held = []) hp fun u _ => hall u
  have hold := hv.spent
  generalize hpc : v.pc t = pc at h
  cases h with
  | same flow hheld hpassed trace state =>
    refine ⟨passed (Bool.eq_false_iff.mpr fun hp => ?_), ?_⟩
    · have := hpassed hp
      rw [← hpc, hv.passed t] at this
      cases this
    · show o.slot.state = _ ∨ o.slot.state = _ ∧ o.slot.queue = [] ∧ _
      rw [state hne, flow.queue]
      refine hold.imp_right fun ⟨hs, hq, hall⟩ => ⟨hs, hq, held ?_ hall⟩
      rw [hheld, ← hpc]
      exact hall t
  | push ev =>
    have htask : t = .task := hf.feeder t (by rw [hpc]; rfl)
    refine ⟨passed rfl, .inl (hold.resolve_right fun ⟨hs, _⟩ => ?_)⟩
    have hfin := (hf.drained hs).1
    rw [← htask, hpc] at hfin
    cases hfin
  | pop n ev rest hq =>
    refine ⟨passed rfl, .inl (hold.resolve_right fun ⟨_, hn, _⟩ => ?_)⟩
    rw [hq] at hn
    cases hn
  | drop n ev hs => exact ⟨passed rfl, .inl hs⟩
  | pass n ev hs =>
    obtain ⟨-, -, hall⟩ := hold.resolve_left hs
    have := hall t
    rw [hpc] at this
    cases this
  | hand n ev pc' hpc' =>
    have := hv.passed t
    rw [hpc] at this
    cases this
  | done tm => exact ⟨passed rfl, hold.imp_right fun ⟨hs, hq, hall⟩ => ⟨hs, hq, held rfl hall⟩⟩

theorem View.Silenced.step {v w : View} {m : Move} (hok : v.CancelsLast m) (hv : v.Silenced) (hl : v.Locked)
    (hf : v.Fed) (h : v.Stepped m w) :
    w.Silenced ∧ ∃ l, w.slot.trace = v.slot.trace ++ l ∧ ∀ cb ∈ l, cb.done? ≠ none := by
  have hidle := hv.idle hl
  rcases h.acts with hw | ⟨t, o, ha, hm, hw⟩
  · rw [hw]
    refine ⟨hv.imp_right fun hm => ⟨hm.passed, hm.spent⟩, [], (List.append_nil _).symm, fun _ hcb => by cases hcb⟩
  · rw [hw]
    refine ⟨?_, ha.flow.trace_of_not_passed (hidle t)⟩
    rcases hv with ⟨u, hu⟩ | hmute
    · by_cases hut : u = t
      · subst hut
        obtain rfl : m = .exec u := hm (by
          generalize v.pc u = pc at hu
          cases pc <;> first | rfl | cases hu)
        cases ha with
        | exec h =>
          rcases exec_cancelling h hu hok with hc | ⟨hover, hheld, hpassed⟩
          · exact .inl (exists_update_self (P := fun pc : Pc => pc.cancelling = true) hc)
          · refine .inr ⟨?_, ?_⟩
            · exact forall_update (Q := fun _ (pc : Pc) => pc.passed = false) hpassed
                fun x _ => hidle x
            · refine hover.imp_right fun ⟨hs, hq⟩ => ⟨hs, hq, ?_⟩
              exact forall_update (Q := fun _ (pc : Pc) => pc.held = []) hheld
                fun x _ => (hl.idle_of_cancelling hu x).1
        | env h =>
          generalize v.pc u = pc at hu h
          cases h with
          | failed _ _ waits | aborted _ waits => cases pc <;> first | (cases waits; done) | cases hu
          | _ => cases hu
        | arrive free =>
          rw [free] at hu
          cases hu
      · exact .inl (exists_update_of_ne (P := fun pc : Pc => pc.cancelling = true) hut hu)
    · exact .inr (Mute.step hmute hf ha.flow)

/-- Once a callback has answered `CANCEL`, and provided that the `CANCEL` branch finds no
drain claimed before it with events still queued, only `OnDone` may follow. -/
theorem cancel_ends_delivery {cfg : Config} {r : ReqId} {n k : Nat} {as bs : List Act} {s t : Client}
    (h : Client.Reaches cfg Runs.anyStep (Client.init cfg) as s)
    (hcancel : (s.view r).pc (.worker n) = .clearInCallback k (some .cancel))
    (hlater : Client.Reaches cfg (Client.On r View.CancelsLast) s bs t) :
    ∃ l, (t.slots r).trace = (s.slots r).trace ++ l ∧ ∀ cb ∈ l, ∃ e, cb = .onDone e := by
  have hs : (s.view r).Locked ∧ (s.view r).Fed := h.always r (I := fun v => v.Locked ∧ v.Fed) ⟨.init _ _, .init _ _⟩
    fun v m w hv hstep => ⟨hv.1.step hstep, hv.2.step hstep⟩
  obtain ⟨ms, hms⟩ := hlater.view (h.fresh (Client.Fresh.init cfg))
  obtain ⟨-, -, l, hl, hdone⟩ := Runs.Run.invariant (I := fun v : View => (v.Locked ∧ v.Fed) ∧ v.Silenced ∧
      ∃ l, v.slot.trace = (s.slots r).trace ++ l ∧ ∀ cb ∈ l, cb.done? ≠ none) hms
    (fun v m w hok ⟨⟨hlock, hfed⟩, hsil, l, hl, hdone⟩ hstep => by
      have hstep := View.step_cases hstep
      obtain ⟨hsil', l', hl', hdone'⟩ := hsil.step hok hlock hfed hstep
      refine ⟨⟨hlock.step hstep, hfed.step hstep⟩, hsil', l ++ l', ?_, fun cb hcb => ?_⟩
      · rw [hl', hl, List.append_assoc]
      · exact (List.mem_append.mp hcb).elim (hdone cb) (hdone' cb))
    ⟨hs, .inl ⟨.worker n, by rw [hcancel]; rfl⟩, [], (List.append_nil _).symm, fun _ hcb => by cases hcb⟩
  refine ⟨l, hl, fun cb hcb => ?_⟩
  have hne := hdone cb hcb
  cases cb with
  | onDone e => exact ⟨e, rfl⟩
  | onHeaders status version fields => exact absurd rfl hne
  | onChunk data => exact absurd rfl hne

def chunkCancelled : List Act := inFirstChunk ++ [Act.workerEnv 0 (.action .cancel)]

set_option maxRecDepth 10000 in
theorem cancel_ends_delivery_first_chunk : ∃ s t : Client,
    Client.Reaches .small Runs.anyStep (Client.init .small) chunkCancelled s ∧
    (s.slots 1).trace = [.onHeaders 200 1 [], .onChunk [7]] ∧
    Client.Reaches .small (Client.On 1 View.CancelsLast) s
      (List.replicate 14 (Act.worker 0) ++ Act.pop 0 :: List.replicate 9 (.worker 0)) t ∧
    (t.slots 1).trace.length = 3 ∧
    ∃ l, (t.slots 1).trace = (s.slots 1).trace ++ l ∧ ∀ cb ∈ l, ∃ e, cb = .onDone e := by
  have hrun : Client.after .small Runs.anyStep chunkCancelled
      (fun s => (s.view 1).pc (.worker 0) = .clearInCallback 6 (some .cancel) ∧
        (s.slots 1).trace = [.onHeaders 200 1 [], .onChunk [7]])
      (Client.after .small (Client.On 1 View.CancelsLast)
        (List.replicate 14 (Act.worker 0) ++ Act.pop 0 :: List.replicate 9 (.worker 0))
        (fun t => (t.slots 1).trace.length = 3) fun _ => true) (Client.init .small) = true := by decide
  obtain ⟨s, hs, ⟨hpc, htrace⟩, hrun⟩ := Client.of_after hrun
  obtain ⟨t, ht, hlen, -⟩ := Client.of_after hrun
  exact ⟨s, t, hs, htrace, ht, hlen, cancel_ends_delivery hs hpc ht⟩

set_option maxRecDepth 10000 in
/-- The network task queues another chunk and completes while the callback runs. The claim
of the `CANCEL` branch then loses, and the next slice delivers the chunk. -/
theorem chunk_follows_cancel : ¬ ∀ (cfg : Config) (r : ReqId) (n k : Nat) (as bs : List Act) (s t : Client),
    Client.Reaches cfg Runs.anyStep (Client.init cfg) as s →
    (s.view r).pc (.worker n) = .clearInCallback k (some .cancel) → Client.Reaches cfg Runs.anyStep s bs t →
    ∃ l, (t.slots r).trace = (s.slots r).trace ++ l ∧ ∀ cb ∈ l, ∃ e, cb = .onDone e := by
  intro h
  have hrun : Client.after .small Runs.anyStep (inFirstChunk ++ Act.taskEnv 1 (.frame (.data [8])) ::
        List.replicate 9 (.task 1) ++ Act.taskEnv 1 .bodyEnd :: List.replicate 7 (.task 1) ++
        [Act.workerEnv 0 (.action .cancel)])
      (fun s => (s.view 1).pc (.worker 0) = .clearInCallback 6 (some .cancel) ∧
        (s.slots 1).trace = [.onHeaders 200 1 [], .onChunk [7]])
      (Client.after .small Runs.anyStep (List.replicate 9 (Act.worker 0) ++ Act.pop 0 :: List.replicate 9 (.worker 0))
        (fun t => (t.slots 1).trace = [.onHeaders 200 1 [], .onChunk [7], .onChunk [8]]) fun _ => true)
      (Client.init .small) = true := by decide
  obtain ⟨s, hs, ⟨hpc, htrace⟩, hrun⟩ := Client.of_after hrun
  obtain ⟨t, ht, hnext, -⟩ := Client.of_after hrun
  obtain ⟨l, hl, hdone⟩ := h .small 1 0 6 _ _ s t hs hpc ht
  rw [htrace, hnext] at hl
  have htail : [Callback.onChunk [8]] = l := by simpa using hl
  obtain ⟨e, he⟩ := hdone (.onChunk [8]) (htail ▸ List.mem_singleton_self _)
  cases he

/-- `RequestHandle::settle` is in progress: its last step takes the abort handle. -/
def Pc.aborts : Pc → Bool
  | .claim c _ _ | .lostPaused c | .storeTerminal c _ _ | .storeDone c _ | .wakeProducer c _ | .wonPaused c
  | .settled c | .leavePause (.settled c) | .dropGuard (.settled c) | .swapScheduled (.settled c)
  | .pushReady (.settled c) | .scheduled (.settled c) => !c.inSlice
  | _ => false

theorem Pc.settling_of_aborts {pc : Pc} (h : pc.aborts = true) : pc.settling = true := by
  cases pc with
  | leavePause k | dropGuard k | swapScheduled k | pushReady k | scheduled k =>
    cases k with
    | settled c => rfl
    | resumed => cases h
    | sent => cases h
  | _ => first | rfl | cases h

/-- How a step bears on the end of the network task: a slice discards the request, a
`RequestHandle::settle` takes the abort handle, or neither. -/
inductive Slot.AbortStep (s : Slot) : Pc → Outcome → Prop
  | other {pc : Pc} {o : Outcome} (aborted : o.slot.aborted = s.aborted)
      (aborts : pc.aborts = true → o.pc.aborts = true)
      (discard : o.slot.state = .terminalDiscard → s.state = .terminalDiscard ∨ o.pc.aborts = true) : s.AbortStep pc o
  | discard (t : Terminal) (hs : s.state = .running) : s.AbortStep (.claim .callback t true)
      ⟨{ s with state := .terminalDiscard }, .storeTerminal .callback t true, .quiet⟩
  | take (c : Caller) (pc : Pc) (hc : c.inSlice = false) (task : c = .task → pc = .ended) :
    s.AbortStep (.settled c) ⟨{ s with abort := false, aborted := s.aborted || s.abort }, pc, .quiet⟩

theorem exec_abort {s : Slot} {pc : Pc} {o : Outcome} (h : s.exec pc = some o) : s.AbortStep pc o := by
  cases pc with
  | claim c t discard =>
    simp only [Slot.exec] at h
    split at h
    · rename_i hs
      cases h
      cases hc : c.inSlice with
      | false => exact .other rfl id fun _ => .inr (by simp [Pc.aborts, hc])
      | true =>
        cases c <;> first | (cases hc; done) | skip
        cases discard with
        | true => exact .discard t hs
        | false => exact .other rfl id fun hd => by cases hd
    · split at h <;> cases h <;> exact .other rfl id .inl
  | settled c =>
    cases c with
    | callback =>
      cases h
      exact .other rfl (fun ha => by cases ha) .inl
    | task =>
      cases h
      exact .take .task .ended rfl fun _ => rfl
    | cancel =>
      cases h
      exact .take .cancel _ rfl fun hc => by cases hc
    | close =>
      cases h
      exact .take .close _ rfl fun hc => by cases hc
  | leavePause k | dropGuard k | pushReady k =>
    cases h
    cases k with
    | settled c => exact .other rfl id .inl
    | resumed => exact .other rfl id .inl
    | sent => exact .other rfl id .inl
  | swapScheduled k =>
    simp only [Slot.exec] at h
    split at h <;> cases h <;> exact .other rfl (fun ha => by cases k <;> exact ha) .inl
  | scheduled k =>
    cases k with
    | settled c =>
      cases h
      exact .other rfl id .inl
    | resumed =>
      cases h
      exact .other rfl (fun ha => by cases ha) .inl
    | sent =>
      cases h
      exact .other rfl (fun ha => by cases ha) .inl
  | lostPaused c | wonPaused c | wakeProducer c discard =>
    simp only [Slot.exec] at h
    split at h <;> cases h <;> exact .other rfl id .inl
  | storeTerminal c t discard | storeDone c discard =>
    cases h
    exact .other rfl id .inl
  | _ =>
    simp only [Slot.exec] at h
    repeat' split at h
    all_goals first
      | (cases h; exact .other rfl (fun ha => by cases ha) .inl)
      | cases h

theorem Slot.Acts.abort {s : Slot} {pc : Pc} {o : Outcome} (h : s.Acts pc o) : s.AbortStep pc o := by
  refine h.rule exec_abort (fun h => ?_) fun p e hentry => ?_
  · cases h with
    | received f => rcases f with (_ | _) | _ <;> exact .other rfl (fun ha => by cases ha) .inl
    | failed _ _ waits | aborted _ waits =>
      cases pc <;> first
        | (cases waits; done)
        | exact .other rfl (fun ha => by cases ha) .inl
    | _ => exact .other rfl (fun ha => by cases ha) .inl
  · exact .other rfl (fun ha => by cases ha) .inl

/-- A network task that has ended takes no step. -/
theorem Slot.Acts.not_ended {s : Slot} {pc : Pc} {o : Outcome} (h : s.Acts pc o) : pc ≠ .ended := by
  rintro rfl
  cases h with
  | exec h => cases h
  | env h =>
    cases h with
    | failed _ _ waits => cases waits
    | aborted _ waits => cases waits
  | arrive free => cases free

/-- Only the network task's own settle is on behalf of the task. -/
theorem exec_not_finishing {s : Slot} {pc : Pc} {o : Outcome} (hpc : pc.feeds = false)
    (hfin : pc.finishing = false) (h : s.exec pc = some o) : o.pc.finishing = false := by
  cases pc with
  | claim c t discard =>
    cases c <;> first | (cases hfin; done) | skip
    all_goals
      simp only [Slot.exec] at h
      repeat' split at h
      all_goals cases h
      all_goals rfl
  | lostPaused c | wakeProducer c discard | wonPaused c =>
    cases c <;> first | (cases hfin; done) | skip
    all_goals
      simp only [Slot.exec] at h
      split at h <;> cases h <;> rfl
  | storeTerminal c t discard | storeDone c discard | settled c =>
    cases c <;> first | (cases hfin; done) | (cases h; rfl)
  | leavePause k | dropGuard k | pushReady k | scheduled k =>
    rcases k with (_ | _ | _ | _) | _ | _ <;> first | (cases hfin; done) | (cases hpc; done) | (cases h; rfl)
  | swapScheduled k =>
    rcases k with (_ | _ | _ | _) | _ | _ <;> first | (cases hfin; done) | (cases hpc; done) | skip
    all_goals
      simp only [Slot.exec] at h
      split at h <;> cases h <;> rfl
  | _ =>
    first
      | (cases hpc; done)
      | (simp only [Slot.exec] at h
         repeat' split at h
         all_goals first
           | (cases h; rfl)
           | cases h)

def View.SettlesOwn (v : View) : Prop := ∀ t, (v.pc t).finishing = true → t = .task

theorem View.SettlesOwn.init (onChunk : Bool) (queueCapacity : Nat) :
    (View.init onChunk queueCapacity).SettlesOwn := fun _ h => by cases h

theorem View.SettlesOwn.step {v w : View} {m : Move} (hv : v.SettlesOwn) (hf : v.Fed) (h : v.Stepped m w) :
    w.SettlesOwn := by
  rcases h.acts with hw | ⟨t, o, ha, -, hw⟩
  · rw [hw]
    exact hv
  · rw [hw]
    refine forall_update (Q := fun u (pc : Pc) => pc.finishing = true → u = .task) (fun hfin => ?_) fun u _ => hv u
    by_contra ht
    have hfeeds : (v.pc t).feeds = false := Bool.eq_false_iff.mpr fun h => ht (hf.feeder t h)
    have hold : (v.pc t).finishing = false := Bool.eq_false_iff.mpr fun h => ht (hv t h)
    cases ha with
    | exec h =>
      rw [exec_not_finishing hfeeds hold h] at hfin
      cases hfin
    | env h =>
      generalize v.pc t = pc at hfeeds h
      cases h with
      | answered n ev a => cases hfin
      | failed _ _ waits | aborted _ waits => cases pc <;> first | (cases waits; done) | cases hfeeds
      | _ => cases hfeeds
    | arrive free slot entry =>
      generalize o.pc = p at entry hfin
      cases entry <;> cases hfin

def View.Stopped (v : View) : Prop := v.slot.aborted = true ∨ v.pc .task = .ended

/-- A discarding slice, and a `RequestHandle::settle` that finds no abort handle, leave
the network task to someone: it has stopped, or another `RequestHandle::settle` is still
to take the handle. -/
def View.LeavesNone (v : View) : Move → Prop
  | .exec t => (((v.pc t).claimsInSlice = true ∧ v.slot.state = .running) ∨
      (v.pc t = .settled .cancel ∨ v.pc t = .settled .close) ∧ v.slot.state = .terminalDiscard ∧ v.slot.abort = false) →
      v.Stopped ∨ ∃ u, u ≠ t ∧ (v.pc u).aborts = true
  | _ => True

def View.Stopping (v : View) : Prop :=
  v.slot.state = .terminalDiscard → v.Stopped ∨ ∃ t, (v.pc t).aborts = true

theorem View.Stopped.step {v w : View} {m : Move} (hv : v.Stopped) (h : v.Stepped m w) : w.Stopped := by
  rcases h.acts with hw | ⟨t, o, ha, -, hw⟩
  · rw [hw]
    exact hv
  · rw [hw]
    rcases hv with hs | hs
    · left
      have habort := ha.abort
      generalize v.pc t = pc at habort
      cases habort with
      | other aborted => exact aborted.trans hs
      | discard => exact hs
      | take => exact Bool.or_eq_true_iff.mpr (.inl hs)
    · right
      have ht : Tid.task ≠ t := by
        rintro rfl
        exact ha.not_ended hs
      exact (Function.update_of_ne ht _ _).trans hs

theorem View.Stopping.step {v w : View} {m : Move} (hok : v.LeavesNone m) (hv : v.Stopping) (hown : v.SettlesOwn)
    (h : v.Stepped m w) : w.Stopping := by
  intro hd
  by_cases hstopped : v.Stopped
  · exact .inl (hstopped.step h)
  rcases h.acts with hw | ⟨t, o, ha, hm, hw⟩
  · rw [hw] at hd ⊢
    exact hv hd
  · rw [hw] at hd ⊢
    have habort := ha.abort
    generalize hpc : v.pc t = pc at habort
    cases habort with
    | other aborted aborts discard =>
      right
      rcases discard hd with hs | hnew
      · obtain ⟨u, hu⟩ := (hv hs).resolve_left hstopped
        exact exists_update (P := fun pc : Pc => pc.aborts = true) ⟨u, hu⟩ fun ht => aborts (hpc ▸ ht)
      · exact exists_update_self (P := fun pc : Pc => pc.aborts = true) hnew
    | discard tm hs =>
      rw [hm (by rw [hpc]; rfl)] at hok
      obtain ⟨u, hut, hu⟩ := (hok (.inl ⟨by rw [hpc]; rfl, hs⟩)).resolve_left hstopped
      exact .inr (exists_update_of_ne (P := fun pc : Pc => pc.aborts = true) hut hu)
    | take c p hc task =>
      rw [hm (by rw [hpc]; rfl)] at hok
      by_cases habort : v.slot.abort = true
      · exact .inl (.inl (Bool.or_eq_true_iff.mpr (.inr habort)))
      have hnone : v.slot.abort = false := by simpa using habort
      have hleaves : (v.pc t = .settled .cancel ∨ v.pc t = .settled .close) →
          ∃ u, (Function.update v.pc t p u).aborts = true := by
        intro hcaller
        obtain ⟨u, hut, hu⟩ := (hok (.inr ⟨hcaller, hd, hnone⟩)).resolve_left hstopped
        exact exists_update_of_ne (P := fun pc : Pc => pc.aborts = true) hut hu
      cases c with
      | callback => cases hc
      | task =>
        have ht : t = .task := hown t (by rw [hpc]; rfl)
        rw [task rfl, ht]
        exact .inl (.inr (Function.update_self Tid.task Pc.ended v.pc))
      | cancel => exact .inr (hleaves (.inl hpc))
      | close => exact .inr (hleaves (.inr hpc))

/-- Whenever no settle of a discarded request is in progress, its network task has been
aborted or has ended, provided that no slice and no settle without an abort handle leaves
the task to nobody. -/
theorem discarded_task_stopped {cfg : Config} {r : ReqId} {as : List Act} {s : Client}
    (h : Client.Reaches cfg (Client.On r View.LeavesNone) (Client.init cfg) as s)
    (hd : (s.slots r).state = .terminalDiscard) (hq : (s.view r).Quiet) :
    (s.slots r).aborted = true ∨ s.tasks r = .ended := by
  obtain ⟨-, -, hs⟩ := h.holds (I := fun v => v.Fed ∧ v.SettlesOwn ∧ v.Stopping)
    ⟨.init _ _, .init _ _, fun hd => by cases hd⟩
    fun v m w hok ⟨hf, hown, hs⟩ hstep => ⟨hf.step hstep, hown.step hf hstep, hs.step hok hown hstep⟩
  rcases hs hd with hstopped | ⟨t, ht⟩
  · exact hstopped
  · have hsettling := Pc.settling_of_aborts ht
    rw [hq.2 t] at hsettling
    cases hsettling

def View.AbortsAlways (v : View) : Move → Prop
  | .exec t => (v.pc t).claimsInSlice = false ∧ (v.pc t = .settled .cancel → v.slot.abort = true) ∧
      v.pc t ≠ .settled .close
  | _ => True

instance (v : View) : (m : Move) → Decidable (v.AbortsAlways m)
  | .exec t => inferInstanceAs (Decidable ((v.pc t).claimsInSlice = false ∧
      (v.pc t = .settled .cancel → v.slot.abort = true) ∧ v.pc t ≠ .settled .close))
  | .env _ _ | .pop _ | .enter _ _ | .spawn _ | .setAbort => inferInstanceAs (Decidable True)

theorem View.AbortsAlways.leavesNone {v : View} {m : Move} (h : v.AbortsAlways m) : v.LeavesNone m := by
  cases m with
  | exec t =>
    obtain ⟨hclaim, hcancel, hclose⟩ := h
    rintro (⟨hc, -⟩ | ⟨hpc | hpc, -, hnone⟩)
    · rw [hclaim] at hc
      cases hc
    · rw [hcancel hpc] at hnone
      cases hnone
    · exact absurd hpc hclose
  | _ => trivial

set_option maxRecDepth 10000 in
/-- `hyper4k_client_cancel` settles request 1 while its network task waits for a frame. -/
theorem discarded_task_stopped_by_call : ∃ s : Client,
    Client.Reaches .small (Client.On 1 View.LeavesNone) (Client.init .small)
      (headQueued ++ [Act.begin 0 (.cancel 1), .call 0] ++ List.replicate 10 (Act.call 0)) s ∧
    (s.slots 1).state = .terminalDiscard ∧ (s.view 1).Quiet ∧ s.tasks 1 = .frame ∧
    ((s.slots 1).aborted = true ∨ s.tasks 1 = .ended) := by
  have hrun : Client.after .small (Client.On 1 View.AbortsAlways)
      (headQueued ++ [Act.begin 0 (.cancel 1), .call 0] ++ List.replicate 10 (Act.call 0))
      (fun s => (s.slots 1).state = .terminalDiscard ∧ s.allPcs 1 1 Pc.quiet = true ∧ s.tasks 1 = .frame)
      (fun _ => true) (Client.init .small) = true := by decide
  obtain ⟨s, hs, ⟨hd, hq, hframe⟩, -⟩ := Client.of_after hrun
  have hquiet := Client.Reaches.quiet hs (by decide) hq
  have hleaves := hs.mono fun _ _ hok m hm => (hok m hm).leavesNone
  exact ⟨s, hleaves, hd, hquiet, hframe, discarded_task_stopped hleaves hd hquiet⟩

set_option maxRecDepth 10000 in
/-- The callback of the first chunk answers `CANCEL`. Its slice settles and delivers `OnDone`,
and the network task goes on waiting for the next frame. -/
theorem callback_cancel_leaves_task : ¬ ∀ (cfg : Config) (r : ReqId) (as : List Act) (s : Client),
    Client.Reaches cfg Runs.anyStep (Client.init cfg) as s → (s.slots r).state = .terminalDiscard →
    (s.view r).Quiet → (∀ n, s.calls n = .idle) → (s.slots r).aborted = true ∨ s.tasks r = .ended := by
  intro h
  have hrun : Client.after .small Runs.anyStep
      (chunkCancelled ++ List.replicate 14 (Act.worker 0) ++ Act.pop 0 :: List.replicate 18 (.worker 0))
      (fun s => ((s.slots 1).state = .terminalDiscard ∧ s.allPcs 1 1 Pc.quiet = true ∧ s.calls 0 = .idle) ∧
        (s.slots 1).aborted = false ∧ s.tasks 1 = .frame)
      (fun _ => true) (Client.init .small) = true := by decide
  obtain ⟨s, hs, ⟨⟨hd, hq, hidle⟩, hnot, hframe⟩, -⟩ := Client.of_after hrun
  have hcalls : ∀ n, s.calls n = .idle := by
    intro n
    rcases Nat.eq_zero_or_pos n with rfl | hn
    · exact hidle
    · exact (hs.beyond (k := 1) (by decide) n hn).2
  rcases h .small 1 _ s hs hd (Client.Reaches.quiet hs (by decide) hq) hcalls with ha | he
  · rw [hnot] at ha
    cases ha
  · rw [hframe] at he
    cases he

end Hyper4k.Bridge
