import Hyper4k.Runs.Credits
import Hyper4k.Bridge.Projection

/-! The permits of a slot's queue: each is free, spent on a queued event, or on its way. The terminal
adds one, once. -/
namespace Hyper4k.Bridge
open Runs

/-- The thread carries a permit: the producer from its acquire to the push, the worker from the pop
to the return. -/
def Pc.inTransit : Pc → Bool
  | .recheckState _ | .markCommitted _ | .pushEvent _ | .addPermits .. => true
  | _ => false

def Pc.pushing : Pc → Bool
  | .markCommitted _ | .pushEvent _ => true
  | _ => false

/-- The thread has won the terminal and has not yet added the extra permit. -/
def Pc.owesPermit : Pc → Bool
  | .storeTerminal .. | .storeDone .. | .wakeProducer .. => true
  | _ => false

/-- The permit of the terminal: owed as long as the request runs. -/
def State.owed : State → Nat
  | .running => 1
  | _ => 0

def Slot.permits (s : Slot) (pc : Pc) : Nat :=
  s.space + s.queue.length + pc.inTransit.toNat + pc.owesPermit.toNat + s.state.owed

/-- What a step does to the permits: their number stays, the terminal is claimed once, and only a
producer that found the request running adds to the backlog. -/
structure Slot.PermitFlow (s : Slot) (pc : Pc) (o : Outcome) : Prop where
  conserved : o.slot.permits o.pc = s.permits pc
  claimed : o.pc.owesPermit.toNat + o.slot.state.owed ≤ pc.owesPermit.toNat + s.state.owed
  backlog : o.pc.pushing.toNat + o.slot.queue.length ≤ pc.pushing.toNat + s.queue.length ∨ o.slot.state = .running

theorem Slot.PermitFlow.trade {s : Slot} {pc : Pc} {o : Outcome} (queue : o.slot.queue = s.queue)
    (state : o.slot.state = s.state) (space : o.slot.space + o.pc.inTransit.toNat = s.space + pc.inTransit.toNat)
    (owes : o.pc.owesPermit = pc.owesPermit) (pushes : o.pc.pushing = pc.pushing) : s.PermitFlow pc o := by
  refine ⟨?_, ?_, .inl ?_⟩
  · simp only [Slot.permits, queue, state, owes]
    omega
  · rw [owes, state]
  · rw [pushes, queue]

theorem exec_permitFlow {s : Slot} {pc : Pc} {o : Outcome} (h : s.exec pc = some o) : s.PermitFlow pc o := by
  cases pc with
  | popFront n =>
    simp only [Slot.exec] at h
    split at h
    case h_1 => cases h; exact ⟨rfl, le_rfl, .inl le_rfl⟩
    case h_2 ev rest hq =>
      cases h
      have hlen : s.queue.length = rest.length + 1 := by rw [hq, List.length_cons]
      refine ⟨?_, le_rfl, .inl ?_⟩
      · simp only [Slot.permits, Pc.inTransit, Pc.owesPermit, Bool.toNat_true, Bool.toNat_false, hlen]
        omega
      · simp only [Pc.pushing, Bool.toNat_false, hlen]
        omega
  | claim c t discard =>
    simp only [Slot.exec] at h
    split at h
    case isTrue hs =>
      cases h
      refine ⟨?_, ?_, .inl le_rfl⟩
      · cases discard <;> simp [Slot.permits, Pc.inTransit, Pc.owesPermit, State.owed, hs]
      · cases discard <;> simp [Pc.owesPermit, State.owed, hs]
    case isFalse => split at h <;> cases h <;> exact ⟨rfl, le_rfl, .inl le_rfl⟩
  | wakeProducer c discard =>
    simp only [Slot.exec] at h
    split at h <;> cases h
    all_goals
      refine ⟨?_, ?_, .inl le_rfl⟩
      · simp only [Slot.permits, Pc.inTransit, Pc.owesPermit, Bool.toNat_true, Bool.toNat_false]
        omega
      · simp only [Pc.owesPermit, Bool.toNat_true, Bool.toNat_false]
        omega
  | addPermits n ev =>
    cases h
    exact .trade rfl rfl rfl rfl rfl
  | acquirePermit ev =>
    simp only [Slot.exec] at h
    split at h
    case isFalse => cases h
    case isTrue hs =>
      cases h
      exact .trade rfl rfl (Nat.sub_add_cancel hs) rfl rfl
  | recheckState ev =>
    simp only [Slot.exec] at h
    split at h
    case isTrue hs =>
      cases h
      exact ⟨rfl, le_rfl, .inr hs⟩
    case isFalse =>
      cases h
      exact .trade rfl rfl rfl rfl rfl
  | pushEvent ev =>
    cases h
    refine ⟨?_, le_rfl, .inl ?_⟩
    · simp only [Slot.permits, Pc.inTransit, Pc.owesPermit, Bool.toNat_true, Bool.toNat_false, List.length_append,
        List.length_singleton]
      omega
    · simp only [Pc.pushing, Bool.toNat_true, Bool.toNat_false, List.length_append, List.length_singleton]
      omega
  | _ =>
    simp only [Slot.exec] at h
    repeat' split at h
    all_goals first
      | (cases h; exact ⟨rfl, le_rfl, .inl le_rfl⟩)
      | cases h

theorem env_permitFlow {s : Slot} {pc : Pc} {o : Outcome} (h : s.EnvStep pc o) : s.PermitFlow pc o := by
  cases h with
  | received f => rcases f with (_ | _) | _ <;> exact ⟨rfl, le_rfl, .inl le_rfl⟩
  | failed _ _ waits | aborted _ waits =>
    cases pc <;> first | exact ⟨rfl, le_rfl, .inl le_rfl⟩ | cases waits
  | _ => exact ⟨rfl, le_rfl, .inl le_rfl⟩

theorem Slot.Acts.permitFlow {s : Slot} {pc : Pc} {o : Outcome} (h : s.Acts pc o) : s.PermitFlow pc o := by
  refine h.rule exec_permitFlow env_permitFlow fun p e hentry => ?_
  cases hentry <;> exact ⟨rfl, le_rfl, .inl le_rfl⟩

/-- Every permit of the capacity, and the one of the terminal, is accounted for. -/
structure View.Permits (capacity : Nat) (v : View) : Prop where
  count : ∃ n m, Exactly Pc.inTransit n v.pc ∧ Exactly Pc.owesPermit m v.pc ∧ m + v.slot.state.owed ≤ 1 ∧
    v.slot.space + v.slot.queue.length + n + m + v.slot.state.owed = capacity + 1
  backlog : ∃ k, Exactly Pc.pushing k v.pc ∧ k + v.slot.queue.length ≤ capacity

theorem View.Permits.init (onChunk : Bool) (capacity : Nat) : (View.init onChunk capacity).Permits capacity where
  count := ⟨0, 0, exactly_zero fun _ => rfl, exactly_zero fun _ => rfl, le_rfl, rfl⟩
  backlog := ⟨0, exactly_zero fun _ => rfl, Nat.zero_le _⟩

theorem Pc.inTransit_of_pushing (pc : Pc) (h : pc.pushing = true) : pc.inTransit = true := by
  cases pc <;> first | rfl | cases h

theorem View.Permits.step {capacity : Nat} {v w : View} {m : Move} (hv : v.Permits capacity) (h : v.Stepped m w) :
    w.Permits capacity := by
  rcases h.acts with hw | ⟨t, o, ha, -, hw⟩
  · rw [hw]
    exact ⟨hv.count, hv.backlog⟩
  · rw [hw]
    obtain ⟨n, m, htransit, hsettling, honce, hsum⟩ := hv.count
    obtain ⟨k, hpushing, hle⟩ := hv.backlog
    obtain ⟨hsame, hclaim, hback⟩ := ha.permitFlow
    obtain ⟨n', htransit', hn⟩ := htransit.update t o.pc
    obtain ⟨m', hsettling', hm⟩ := hsettling.update t o.pc
    obtain ⟨k', hpushing', hk⟩ := hpushing.update t o.pc
    simp only [Slot.permits] at hsame
    have hsum' : o.slot.space + o.slot.queue.length + n' + m' + o.slot.state.owed = capacity + 1 := by omega
    have honce' : m' + o.slot.state.owed ≤ 1 := by omega
    refine ⟨⟨n', m', htransit', hsettling', honce', hsum'⟩, k', hpushing', ?_⟩
    rcases hback with hback | hrun
    · change k' + o.slot.queue.length ≤ capacity
      omega
    · -- while the request runs the terminal still owes its permit, so a pushing producer has one of the capacity
      have hkn : k' ≤ n' := hpushing'.le htransit' Pc.inTransit_of_pushing
      rw [hrun] at hsum'
      simp only [State.owed] at hsum'
      change k' + o.slot.queue.length ≤ capacity
      omega

/-- The terminal has been claimed, and `settle_slot` has added its permit. -/
def View.PermitAdded (v : View) : Prop := v.slot.state ≠ .running ∧ ∀ t, (v.pc t).owesPermit = false

theorem View.Permits.total {capacity : Nat} {v : View} (hv : v.Permits capacity) :
    ∃ n, Exactly Pc.inTransit n v.pc ∧
      (¬ v.PermitAdded → v.slot.space + v.slot.queue.length + n = capacity) ∧
      (v.PermitAdded → v.slot.space + v.slot.queue.length + n = capacity + 1) := by
  obtain ⟨n, m, htransit, hsettling, honce, hsum⟩ := hv.count
  refine ⟨n, htransit, fun hnot => ?_, fun hadded => ?_⟩
  · have howed : m + v.slot.state.owed = 1 := by
      by_contra hne
      have hzero : m = 0 := by omega
      refine hnot ⟨fun hrun => ?_, (hzero ▸ hsettling).nowhere⟩
      rw [hrun] at honce hne
      simp only [State.owed] at honce hne
      omega
    omega
  · have hm : m = 0 := hsettling.eq_zero hadded.2
    have howed : v.slot.state.owed = 0 := by
      cases hs : v.slot.state with
      | running => exact absurd hs hadded.1
      | terminalDrain => rfl
      | terminalDiscard => rfl
    omega

/-- The queue holds no more than its capacity, and the free permits, the queued events and the permits
in transit add up to the capacity, with one more from the settle's extra permit on. -/
theorem event_queue_bounded {cfg : Config} {ok : Client → Act → Prop} {as : List Act} {s : Client}
    (h : Client.Reaches cfg ok (Client.init cfg) as s) (r : ReqId) :
    (s.slots r).queue.length ≤ cfg.queueCapacity ∧
    ∃ T : Finset Tid, (∀ t, t ∈ T ↔ (s.pcOn r t).inTransit = true) ∧
      (¬ (s.view r).PermitAdded → (s.slots r).space + (s.slots r).queue.length + T.card = cfg.queueCapacity) ∧
      ((s.view r).PermitAdded → (s.slots r).space + (s.slots r).queue.length + T.card = cfg.queueCapacity + 1) := by
  have hpermits : (s.view r).Permits cfg.queueCapacity :=
    Client.Reaches.always h r (View.Permits.init _ _) fun _ _ _ hv hs => hv.step hs
  obtain ⟨k, -, hle⟩ := hpermits.backlog
  obtain ⟨_, ⟨T, hT, rfl⟩, hsum⟩ := hpermits.total
  exact ⟨Nat.le_of_add_left_le hle, T, hT, hsum⟩

def cancelledQueued : List Act := headQueued ++ Act.begin 1 (.cancel 1) :: List.replicate 8 (.call 1)

/-- After the settle one permit more is free than the queued event leaves. -/
theorem event_queue_bounded_cancelled : ∃ s : Client,
    Client.Reaches .small Runs.anyStep (Client.init .small) cancelledQueued s ∧
    ((s.slots 1).queue.length = 1 ∧ (s.slots 1).space = 8) ∧ (s.view 1).PermitAdded ∧
    (s.slots 1).queue.length ≤ 8 ∧
    ∃ T : Finset Tid, (∀ t, t ∈ T ↔ (s.pcOn 1 t).inTransit = true) ∧
      (¬ (s.view 1).PermitAdded → (s.slots 1).space + (s.slots 1).queue.length + T.card = 8) ∧
      ((s.view 1).PermitAdded → (s.slots 1).space + (s.slots 1).queue.length + T.card = 9) := by
  have hrun : Client.after .small Runs.anyStep cancelledQueued
      (fun s => (s.slots 1).state = .terminalDiscard ∧ s.allPcs 2 1 (fun _ pc => !pc.owesPermit) = true ∧
        (s.slots 1).queue.length = 1 ∧ (s.slots 1).space = 8) (fun _ => true) (Client.init .small) = true := by decide
  obtain ⟨s, hs, ⟨hstate, hpcs, hend⟩, -⟩ := Client.of_after hrun
  have hnone : ∀ t, (!((s.view 1).pc t).owesPermit) = true := hs.allPcs (by decide) (fun _ => rfl) hpcs
  have hadded : (s.view 1).PermitAdded := by
    refine ⟨fun hrunning => ?_, fun t => Bool.not_eq_true' _ ▸ hnone t⟩
    rw [show (s.view 1).slot.state = .terminalDiscard from hstate] at hrunning
    cases hrunning
  exact ⟨s, hs, hend, hadded, event_queue_bounded hs 1⟩

end Hyper4k.Bridge
