import Hyper4k.Bridge.Feed

/-! Events go from the network task through the queue to the user's callbacks, in
order and once each, and `OnDone` closes the sequence. -/
namespace Hyper4k.Bridge
open Runs

/-- The event a worker has popped and not yet dropped or handed over. -/
def Pc.held : Pc → List Event
  | .addPermits _ ev | .loadState _ ev | .setInCallback _ ev | .deliver _ ev => [ev]
  | _ => []

def Pc.passed : Pc → Bool
  | .setInCallback .. | .deliver .. => true
  | _ => false

def Pc.closing : Pc → Bool
  | .takeTerminal | .deliverDone _ => true
  | _ => false

theorem Pc.held_eq_nil {pc : Pc} (h : pc.owns = false) : pc.held = [] := by
  cases pc <;> first | rfl | cases h

theorem Pc.owns_of_passed {pc : Pc} (h : pc.passed = true) : pc.owns = true := by
  cases pc <;> first | rfl | cases h

structure Slot.SameFlow (s t : Slot) : Prop where
  queue : t.queue = s.queue
  pushed : t.pushed = s.pushed
  handed : t.handed = s.handed
  dropped : t.dropped = s.dropped
  onChunk : t.onChunk = s.onChunk

inductive Slot.FlowStep (s : Slot) : Pc → Outcome → Prop
  | same {pc : Pc} {o : Outcome} (flow : s.SameFlow o.slot) (held : o.pc.held = pc.held)
      (passed : o.pc.passed = true → pc.passed = true) (trace : o.slot.trace = s.trace)
      (state : s.state ≠ .running → o.slot.state = s.state)
      (closing : o.pc.closing = true → pc.closing = true ∨ pc = .loadDone ∧ s.doneReady = true) :
      s.FlowStep pc o
  | push (ev : Event) : s.FlowStep (.pushEvent ev)
      ⟨{ s with queue := s.queue ++ [ev], pushed := s.pushed ++ [ev] }, .sendPaused, .quiet⟩
  | pop (n : Nat) (ev : Event) (rest : List Event) (hq : s.queue = ev :: rest) :
    s.FlowStep (.popFront n) ⟨{ s with queue := rest }, .addPermits n ev, .quiet⟩
  | drop (n : Nat) (ev : Event) (hs : s.state = .terminalDiscard) :
    s.FlowStep (.loadState n ev) ⟨{ s with dropped := s.dropped ++ [ev] }, .iterate n, .quiet⟩
  | pass (n : Nat) (ev : Event) (hs : s.state ≠ .terminalDiscard) :
    s.FlowStep (.loadState n ev) ⟨s, .setInCallback n ev, .quiet⟩
  | hand (n : Nat) (ev : Event) (pc : Pc) (hpc : pc = .inCallback n ev ∨ pc = .clearInCallback n none) :
    s.FlowStep (.deliver n ev)
      ⟨{ s with handed := s.handed ++ [ev], trace := s.trace ++ (ev.callback s.onChunk).toList }, pc, .quiet⟩
  | done (t : Terminal) : s.FlowStep (.deliverDone t)
      ⟨{ s with trace := s.trace ++ [.onDone t.error] }, .inDone, .quiet⟩

theorem exec_flow {s : Slot} {pc : Pc} {o : Outcome} (h : s.exec pc = some o) : s.FlowStep pc o := by
  cases pc with
  | pushEvent ev =>
    cases h
    exact .push ev
  | popFront n =>
    simp only [Slot.exec] at h
    split at h <;> cases h
    case h_1 => exact .same ⟨rfl, rfl, rfl, rfl, rfl⟩ rfl id rfl (fun _ => rfl) (fun hc => by cases hc)
    case h_2 ev rest hq => exact .pop n ev rest hq
  | loadState n ev =>
    simp only [Slot.exec] at h
    split at h
    · rename_i hs
      cases h
      exact .drop n ev hs
    · rename_i hs
      cases h
      exact .pass n ev hs
  | deliver n ev =>
    simp only [Slot.exec] at h
    split at h <;> cases h
    case h_1 cb hcb =>
      have := Slot.FlowStep.hand (s := s) n ev (.inCallback n ev) (.inl rfl)
      rwa [hcb] at this
    case h_2 hcb =>
      have := Slot.FlowStep.hand (s := s) n ev (.clearInCallback n none) (.inr rfl)
      rw [hcb] at this
      simpa using this
  | deliverDone t =>
    cases h
    exact .done t
  | claim c t discard =>
    simp only [Slot.exec] at h
    repeat' split at h
    all_goals cases h
    all_goals refine .same ⟨rfl, rfl, rfl, rfl, rfl⟩ rfl id rfl (fun hs => ?_) (fun hc => by cases hc)
    all_goals first | rfl | contradiction
  | takeTerminal =>
    simp only [Slot.exec] at h
    split at h <;> cases h <;> exact .same ⟨rfl, rfl, rfl, rfl, rfl⟩ rfl id rfl (fun _ => rfl) (fun _ => .inl rfl)
  | loadDone =>
    simp only [Slot.exec] at h
    split at h
    · rename_i hd
      cases h
      exact .same ⟨rfl, rfl, rfl, rfl, rfl⟩ rfl id rfl (fun _ => rfl) (fun _ => .inr ⟨rfl, hd⟩)
    · cases h
      exact .same ⟨rfl, rfl, rfl, rfl, rfl⟩ rfl id rfl (fun _ => rfl) (fun hc => by cases hc)
  | _ =>
    simp only [Slot.exec] at h
    repeat' split at h
    all_goals first
      | (cases h; exact .same ⟨rfl, rfl, rfl, rfl, rfl⟩ rfl id rfl (fun _ => rfl) (fun hc => by cases hc))
      | cases h

theorem env_flow {s : Slot} {pc : Pc} {o : Outcome} (h : s.EnvStep pc o) : s.FlowStep pc o := by
  cases h with
  | received f =>
    rcases f with (_ | _) | _ <;>
      exact .same ⟨rfl, rfl, rfl, rfl, rfl⟩ rfl id rfl (fun _ => rfl) (fun hc => by cases hc)
  | failed _ _ waits | aborted _ waits =>
    cases pc <;> first
      | (cases waits; done)
      | exact .same ⟨rfl, rfl, rfl, rfl, rfl⟩ rfl id rfl (fun _ => rfl) (fun hc => by cases hc)
  | _ => exact .same ⟨rfl, rfl, rfl, rfl, rfl⟩ rfl id rfl (fun _ => rfl) (fun hc => by cases hc)

theorem Slot.Acts.flow {s : Slot} {pc : Pc} {o : Outcome} (h : s.Acts pc o) : s.FlowStep pc o := by
  refine h.rule exec_flow env_flow fun p e hentry => ?_
  cases hentry <;> exact .same ⟨rfl, rfl, rfl, rfl, rfl⟩ rfl id rfl (fun _ => rfl) (fun hc => by cases hc)

/-- Nothing is lost on the way: what was queued was handed over, then dropped, is held
by the owner, or is still queued, in this order. Only a discarded request drops. -/
structure View.Flow (v : View) : Prop where
  line : ∃ held, v.slot.pushed = v.slot.handed ++ v.slot.dropped ++ held ++ v.slot.queue ∧
    (∀ t, (v.pc t).owns = true → (v.pc t).held = held) ∧
    (Nowhere (fun pc => pc.owns = true) v.pc → held = [])
  dropped : v.slot.dropped ≠ [] → v.slot.state = .terminalDiscard
  passed : ∀ t, (v.pc t).passed = true → v.slot.dropped = []

theorem View.Flow.init (onChunk : Bool) (queueCapacity : Nat) : (View.init onChunk queueCapacity).Flow where
  line := ⟨[], rfl, fun _ h => (by cases h), fun _ => rfl⟩
  dropped h := absurd rfl h
  passed _ _ := rfl

/-- The owner moves its event on: nobody else holds one. -/
private theorem Flow.advance {v : View} (hl : v.Locked) {t : Tid} {o : Outcome} {ready : Nat}
    (ht : (v.pc t).owns = true) (hpc : o.pc.owns = true)
    (hline : o.slot.pushed = o.slot.handed ++ o.slot.dropped ++ o.pc.held ++ o.slot.queue)
    (hdropped : o.slot.dropped ≠ [] → o.slot.state = .terminalDiscard)
    (hpassed : o.pc.passed = true → o.slot.dropped = []) :
    (⟨o.slot, ready, Function.update v.pc t o.pc⟩ : View).Flow := by
  have hothers : ∀ u, u ≠ t → (v.pc u).owns = true → False := fun u hu ho => hu (hl.sole u t ho ht)
  refine ⟨⟨o.pc.held, hline, ?_, fun hno => ?_⟩, hdropped, ?_⟩
  · exact forall_update (Q := fun _ (pc : Pc) => pc.owns = true → pc.held = o.pc.held) (fun _ => rfl)
      fun u hu ho => (hothers u hu ho).elim
  · have hout : ¬ o.pc.owns = true := by simpa using hno t
    exact absurd hpc hout
  · exact forall_update (Q := fun _ (pc : Pc) => pc.passed = true → o.slot.dropped = []) hpassed
      fun u hu hp => (hothers u hu (Pc.owns_of_passed hp)).elim

private theorem Flow.same {v : View} (hv : v.Flow) (hl : v.Locked) {t : Tid} {o : Outcome} {ready : Nat}
    (hlock : v.slot.LockMove (v.pc t) o) (flow : v.slot.SameFlow o.slot) (held : o.pc.held = (v.pc t).held)
    (passed : o.pc.passed = true → (v.pc t).passed = true)
    (state : v.slot.state ≠ .running → o.slot.state = v.slot.state) :
    (⟨o.slot, ready, Function.update v.pc t o.pc⟩ : View).Flow := by
  obtain ⟨h, hline, howner, hnone⟩ := hv.line
  refine ⟨⟨h, ?_, ?_, ?_⟩, ?_, ?_⟩
  · rw [flow.pushed, flow.handed, flow.dropped, flow.queue]
    exact hline
  · refine forall_update (Q := fun _ (pc : Pc) => pc.owns = true → pc.held = h) ?_ fun u _ => howner u
    intro ho
    rcases hlock with ⟨-, hpc⟩ | ⟨hfree, -, hout⟩ | ⟨-, -, hpc⟩
    · rw [held]
      exact howner t (hpc ▸ ho)
    · rw [held, hnone (hl.nowhere hfree)]
      exact Pc.held_eq_nil hout
    · rw [hpc] at ho
      cases ho
  · intro hno
    have hout : o.pc.owns = false := by simpa using hno t
    by_cases ht : (v.pc t).owns = true
    · rw [← howner t ht, ← held]
      exact Pc.held_eq_nil hout
    · refine hnone fun u hu => ?_
      by_cases hut : u = t
      · exact ht (hut ▸ hu)
      · have hu' := hno u
        simp only [Function.update_of_ne hut] at hu'
        exact hu' hu
  · intro hd
    have hs := hv.dropped (flow.dropped ▸ hd)
    rw [state (by rw [hs]; exact State.noConfusion)]
    exact hs
  · refine forall_update (Q := fun _ (pc : Pc) => pc.passed = true → o.slot.dropped = []) ?_ fun u _ hp => ?_
    · exact fun hp => flow.dropped.trans (hv.passed t (passed hp))
    · exact flow.dropped.trans (hv.passed u hp)

/-- The network task queues an event. -/
private theorem Flow.push {v : View} (hv : v.Flow) {t : Tid} {ev : Event} {ready : Nat}
    (ht : v.pc t = .pushEvent ev) :
    (⟨{ v.slot with queue := v.slot.queue ++ [ev], pushed := v.slot.pushed ++ [ev] }, ready,
      Function.update v.pc t .sendPaused⟩ : View).Flow := by
  obtain ⟨h, hline, howner, hnone⟩ := hv.line
  refine ⟨⟨h, ?_, ?_, ?_⟩, hv.dropped, ?_⟩
  · simp only [hline, List.append_assoc]
  · exact forall_update (Q := fun _ (pc : Pc) => pc.owns = true → pc.held = h) (fun ho => by cases ho)
      fun u _ => howner u
  · intro hno
    refine hnone fun u hu => ?_
    by_cases hut : u = t
    · rw [hut, ht] at hu
      cases hu
    · have hu' := hno u
      simp only [Function.update_of_ne hut] at hu'
      exact hu' hu
  · exact forall_update (Q := fun _ (pc : Pc) => pc.passed = true → v.slot.dropped = []) (fun hp => by cases hp)
      fun u _ => hv.passed u

theorem View.Flow.step {v w : View} {m : Move} (hv : v.Flow) (hl : v.Locked) (h : v.Stepped m w) : w.Flow := by
  rcases h.acts with hw | ⟨t, o, ha, -, hw⟩
  · rw [hw]
    exact ⟨hv.line, hv.dropped, hv.passed⟩
  · rw [hw]
    have hlock := ha.lock
    have hflow := ha.flow
    have hline := hv.line
    generalize hpc : v.pc t = pc at hlock hflow
    cases hflow with
    | same flow held passed _ state =>
      rw [← hpc] at hlock held passed
      exact Flow.same hv hl hlock flow held passed state
    | push ev => exact Flow.push hv hpc
    | pop n ev rest hq =>
      obtain ⟨h, hline, howner, -⟩ := hline
      have hh : [] = h := by simpa [hpc, Pc.owns, Pc.held] using howner t
      refine Flow.advance hl (by rw [hpc]; rfl) rfl ?_ hv.dropped (fun hp => by cases hp)
      simpa [← hh, hq, Pc.held] using hline
    | drop n ev hs =>
      obtain ⟨h, hline, howner, -⟩ := hline
      have hh : [ev] = h := by simpa [hpc, Pc.owns, Pc.held] using howner t
      refine Flow.advance hl (by rw [hpc]; rfl) rfl ?_ (fun _ => hs) (fun hp => by cases hp)
      simpa [← hh, Pc.held] using hline
    | pass n ev hs =>
      obtain ⟨h, hline, howner, -⟩ := hline
      have hh : [ev] = h := by simpa [hpc, Pc.owns, Pc.held] using howner t
      refine Flow.advance hl (by rw [hpc]; rfl) rfl ?_ hv.dropped (fun _ => ?_)
      · simpa [← hh, Pc.held] using hline
      · by_contra hd
        exact hs (hv.dropped hd)
    | hand n ev pc hpc' =>
      obtain ⟨h, hline, howner, -⟩ := hline
      have hh : [ev] = h := by simpa [hpc, Pc.owns, Pc.held] using howner t
      have hd : v.slot.dropped = [] := hv.passed t (by rw [hpc]; rfl)
      refine Flow.advance hl (by rw [hpc]; rfl) (by rcases hpc' with rfl | rfl <;> rfl) ?_ hv.dropped (fun _ => hd)
      have hheld : pc.held = [] := by rcases hpc' with rfl | rfl <;> rfl
      simpa [← hh, hd, hheld] using hline
    | done tm =>
      obtain ⟨h, hline, howner, -⟩ := hline
      have hh : [] = h := by simpa [hpc, Pc.owns, Pc.held] using howner t
      refine Flow.advance hl (by rw [hpc]; rfl) rfl ?_ hv.dropped (fun hp => by cases hp)
      simpa [← hh, Pc.held] using hline

/-- Where `run_owned` finds a drained terminal, the queue it saw empty is still empty. -/
def View.StillEmpty (v : View) : Move → Prop
  | .exec t => v.pc t = .loadDone → v.slot.doneReady = true → v.slot.state = .terminalDrain → v.slot.queue = []
  | _ => True

instance (v : View) : (m : Move) → Decidable (v.StillEmpty m)
  | .exec t => inferInstanceAs (Decidable (v.pc t = .loadDone → v.slot.doneReady = true →
      v.slot.state = .terminalDrain → v.slot.queue = []))
  | .env _ _ | .pop _ | .enter _ _ | .spawn _ | .setAbort => inferInstanceAs (Decidable True)

/-- Once `OnDone` is called, or certain to be, no event is delivered any more. -/
structure View.Closing (v : View) : Prop where
  last : (v.slot.dones ≠ [] ∨ ∃ t, (v.pc t).closing = true) →
    v.slot.state = .terminalDiscard ∨ v.slot.state = .terminalDrain ∧ v.slot.queue = []
  silent : v.slot.dones ≠ [] → ∀ t, (v.pc t).passed = false ∧
    ((v.pc t).held ≠ [] → v.slot.state = .terminalDiscard)
  trace : v.slot.trace =
    v.slot.handed.filterMap (Event.callback v.slot.onChunk) ++ v.slot.dones.map .onDone

theorem View.Closing.init (onChunk : Bool) (queueCapacity : Nat) :
    (View.init onChunk queueCapacity).Closing where
  last h := by
    rcases h with h | ⟨t, h⟩
    · exact absurd rfl h
    · cases h
  silent h := absurd rfl h
  trace := rfl

private theorem dones_append (s : Slot) (ev : Event) (handed : List Event) :
    ({ s with handed := handed, trace := s.trace ++ (ev.callback s.onChunk).toList } : Slot).dones = s.dones := by
  simp only [Slot.dones, List.filterMap_append]
  rcases h : ev.callback s.onChunk with _ | cb
  · simp
  · simp [Event.callback_done h]

private theorem Closing.same {v : View} (hv : v.Closing) (hg : v.Gated) {t : Tid} {o : Outcome} {ready : Nat}
    (flow : v.slot.SameFlow o.slot) (held : o.pc.held = (v.pc t).held)
    (passed : o.pc.passed = true → (v.pc t).passed = true) (trace : o.slot.trace = v.slot.trace)
    (state : v.slot.state ≠ .running → o.slot.state = v.slot.state)
    (closing : o.pc.closing = true → (v.pc t).closing = true ∨ v.pc t = .loadDone ∧ v.slot.doneReady = true)
    (ok : v.pc t = .loadDone → v.slot.doneReady = true → v.slot.state = .terminalDrain → v.slot.queue = []) :
    (⟨o.slot, ready, Function.update v.pc t o.pc⟩ : View).Closing := by
  have hdones : o.slot.dones = v.slot.dones := by rw [Slot.dones, Slot.dones, trace]
  have hkeep : (v.slot.state = .terminalDiscard ∨ v.slot.state = .terminalDrain ∧ v.slot.queue = []) →
      o.slot.state = .terminalDiscard ∨ o.slot.state = .terminalDrain ∧ o.slot.queue = [] := by
    intro h
    have hne : v.slot.state ≠ .running := by
      rcases h with h | ⟨h, -⟩ <;> rw [h] <;> exact State.noConfusion
    rwa [state hne, flow.queue]
  refine ⟨?_, ?_, ?_⟩
  · intro h
    apply hkeep
    rcases h with h | ⟨u, hu⟩
    · exact hv.last (.inl (hdones ▸ h))
    · by_cases hut : u = t
      · subst hut
        simp only [Function.update_self] at hu
        rcases closing hu with hc | ⟨hl, hr⟩
        · exact hv.last (.inr ⟨u, hc⟩)
        · have hne := hg.claimed_of_ready hr
          rcases hs : v.slot.state with _ | _ | _
          · exact absurd hs hne
          · exact .inr ⟨rfl, ok hl hr hs⟩
          · exact .inl rfl
      · simp only [Function.update_of_ne hut] at hu
        exact hv.last (.inr ⟨u, hu⟩)
  · intro h
    have hold := hv.silent (hdones ▸ h)
    have hne : v.slot.state ≠ .running := by
      rcases hv.last (.inl (hdones ▸ h)) with h | ⟨h, -⟩ <;> rw [h] <;> exact State.noConfusion
    refine forall_update (Q := fun _ (pc : Pc) => pc.passed = false ∧
      (pc.held ≠ [] → o.slot.state = .terminalDiscard)) ?_ fun u _ => ?_
    · refine ⟨?_, fun hh => ?_⟩
      · by_contra hp
        have := passed (by simpa using hp)
        rw [(hold t).1] at this
        cases this
      · rw [state hne]
        exact (hold t).2 (held ▸ hh)
    · rw [state hne]
      exact hold u
  · rw [trace, flow.handed, flow.onChunk, hdones]
    exact hv.trace

private theorem Closing.event {v : View} (hv : v.Closing) {t : Tid} {s : Slot} {pc : Pc} {ready : Nat}
    (hclosing : pc.closing = false) (hstate : s.state = v.slot.state) (hdones : s.dones = v.slot.dones)
    (hqueue : v.slot.state = .terminalDrain → v.slot.queue = [] → s.queue = [])
    (hpc : v.slot.dones ≠ [] → pc.passed = false ∧ (pc.held ≠ [] → v.slot.state = .terminalDiscard))
    (htrace : s.trace = s.handed.filterMap (Event.callback s.onChunk) ++ v.slot.dones.map .onDone) :
    (⟨s, ready, Function.update v.pc t pc⟩ : View).Closing := by
  refine ⟨?_, ?_, ?_⟩
  · intro h
    have hold : v.slot.dones ≠ [] ∨ ∃ t, (v.pc t).closing = true := by
      rcases h with h | ⟨u, hu⟩
      · exact .inl (hdones ▸ h)
      · by_cases hut : u = t
        · subst hut
          simp only [Function.update_self, hclosing] at hu
          cases hu
        · simp only [Function.update_of_ne hut] at hu
          exact .inr ⟨u, hu⟩
    rw [hstate]
    rcases hv.last hold with hs | ⟨hs, hq⟩
    · exact .inl hs
    · exact .inr ⟨hs, hqueue hs hq⟩
  · intro h
    rw [hdones] at h
    rw [hstate]
    exact forall_update (Q := fun _ (pc : Pc) => pc.passed = false ∧
      (pc.held ≠ [] → v.slot.state = .terminalDiscard)) (hpc h) fun u _ => hv.silent h u
  · rw [hdones]
    exact htrace

theorem View.Closing.step {v w : View} {m : Move} (hok : v.StillEmpty m) (hv : v.Closing) (hl : v.Locked)
    (hg : v.Gated) (hf : v.Fed) (h : v.Stepped m w) : w.Closing := by
  rcases h.acts with hw | ⟨t, o, ha, hm, hw⟩
  · rw [hw]
    exact ⟨hv.last, hv.silent, hv.trace⟩
  · rw [hw]
    have hflow := ha.flow
    generalize hpc : v.pc t = pc at hflow
    cases hflow with
    | same flow held passed trace state closing =>
      rw [← hpc] at held passed closing
      refine Closing.same hv hg flow held passed trace state closing fun hl => ?_
      rw [hm (by rw [hl]; rfl)] at hok
      exact hok hl
    | push ev =>
      have htask : t = .task := hf.feeder t (by rw [hpc]; rfl)
      refine Closing.event hv rfl rfl rfl (fun hs _ => ?_) (fun _ => ⟨rfl, fun h => absurd rfl h⟩) hv.trace
      have hfin := (hf.drained hs).1
      rw [← htask, hpc] at hfin
      cases hfin
    | pop n ev rest hq =>
      refine Closing.event hv rfl rfl rfl (fun _ hn => ?_) (fun hd => ⟨rfl, fun _ => ?_⟩) hv.trace
      · rw [hq] at hn
        cases hn
      · rcases hv.last (.inl hd) with hs | ⟨-, hn⟩
        · exact hs
        · rw [hq] at hn
          cases hn
    | drop n ev hs =>
      exact Closing.event hv rfl rfl rfl (fun _ => id) (fun _ => ⟨rfl, fun h => absurd rfl h⟩) hv.trace
    | pass n ev hs =>
      refine Closing.event hv rfl rfl rfl (fun _ => id) (fun hd => ?_) hv.trace
      have hdiscard := (hv.silent hd t).2 (by rw [hpc]; exact List.cons_ne_nil _ _)
      exact absurd hdiscard hs
    | hand n ev pc hpc' =>
      have hnone : v.slot.dones = [] := by
        by_contra hd
        have := (hv.silent hd t).1
        rw [hpc] at this
        cases this
      have hclosing : pc.closing = false := by rcases hpc' with rfl | rfl <;> rfl
      have htrace := hv.trace
      rw [hnone, List.map_nil, List.append_nil] at htrace
      refine Closing.event hv hclosing rfl (dones_append v.slot ev _) (fun _ => id) (fun hd => absurd hnone hd) ?_
      rw [hnone, List.map_nil, List.append_nil, List.filterMap_append, htrace]
      rcases hcb : ev.callback v.slot.onChunk with _ | cb <;> simp [hcb]
    | done tm =>
      have hlast := hv.last (.inr ⟨t, by rw [hpc]; rfl⟩)
      have hdones : ({ v.slot with trace := v.slot.trace ++ [.onDone tm.error] } : Slot).dones =
          v.slot.dones ++ [tm.error] := by
        simp [Slot.dones, Callback.done?]
      refine ⟨fun _ => hlast, fun _ => ?_, ?_⟩
      · refine forall_update (Q := fun _ (pc : Pc) => pc.passed = false ∧
          (pc.held ≠ [] → v.slot.state = .terminalDiscard)) ⟨rfl, fun h => absurd rfl h⟩ fun u hu => ?_
        have hout : (v.pc u).owns = false :=
          Bool.eq_false_iff.mpr fun ho => hu (hl.sole u t ho (by rw [hpc]; rfl))
        refine ⟨Bool.eq_false_iff.mpr fun hp => ?_, fun hh => absurd (Pc.held_eq_nil hout) hh⟩
        rw [Pc.owns_of_passed hp] at hout
        cases hout
      · rw [hdones]
        simp [hv.trace]

structure View.Sound (v : View) : Prop where
  locked : v.Locked
  gated : v.Gated
  fed : v.Fed
  flow : v.Flow

theorem View.Sound.init (onChunk : Bool) (queueCapacity : Nat) : (View.init onChunk queueCapacity).Sound :=
  ⟨.init _ _, .init _ _, .init _ _, .init _ _⟩

theorem View.Sound.step {v w : View} {m : Move} (hv : v.Sound) (h : v.Stepped m w) : w.Sound :=
  ⟨hv.locked.step h, hv.gated.step h, hv.fed.step h, hv.flow.step hv.locked h⟩

/-- What was handed over is an initial part of the response. -/
theorem View.Sound.handed_prefix {v : View} (hv : v.Sound) : v.slot.handed <+: v.slot.pushed := by
  obtain ⟨held, hline, -⟩ := hv.flow.line
  rw [hline, List.append_assoc, List.append_assoc]
  exact List.prefix_append _ _

/-- The callback sequences of a finished request: at most a head and chunks, then `OnDone`. -/
def Complete (w : List Callback) : Prop :=
  ∃ body e, (body = [] ∨ ∃ status version fields chunks,
    body = .onHeaders status version fields :: List.map .onChunk chunks) ∧ w = body ++ [.onDone e]

private theorem chunks_only (onChunk : Bool) {l : List Event} (h : ∀ ev ∈ l, ev.isHeaders = false) :
    ∃ chunks, l.filterMap (Event.callback onChunk) = List.map Callback.onChunk chunks := by
  induction l with
  | nil => exact ⟨[], rfl⟩
  | cons ev l ih =>
    obtain ⟨chunks, hc⟩ := ih fun e he => h e (List.mem_cons_of_mem _ he)
    cases ev with
    | headers status version fields => cases h _ List.mem_cons_self
    | chunk data =>
      cases onChunk with
      | true => exact ⟨data :: chunks, by simp [Event.callback, hc]⟩
      | false => exact ⟨chunks, by simpa [Event.callback] using hc⟩

/-- The callbacks for an initial part of a response are its head and some chunks. -/
private theorem body_of_response (onChunk : Bool) {s : Slot} {l : List Event} (hl : l <+: s.response)
    (hshape : (s.head = none → s.frames = []) ∧ ∀ ev, s.head = some ev → ev.isHeaders = true) :
    l.filterMap (Event.callback onChunk) = [] ∨ ∃ status version fields chunks,
      l.filterMap (Event.callback onChunk) =
        .onHeaders status version fields :: List.map Callback.onChunk chunks := by
  rcases hh : s.head with _ | ev
  · rw [Slot.response, hh, hshape.1 hh] at hl
    rw [List.prefix_nil.mp hl]
    exact .inl rfl
  · rw [Slot.response, hh] at hl
    rcases l with _ | ⟨e, rest⟩
    · exact .inl rfl
    · obtain ⟨rfl, hrest⟩ := List.cons_prefix_cons.mp hl
      have hhead := hshape.2 e hh
      have hchunks : ∀ e' ∈ rest, e'.isHeaders = false := by
        intro e' he'
        obtain ⟨f, -, hf⟩ := List.mem_filterMap.mp (hrest.subset he')
        rcases f with (_ | _) | _ <;> cases hf
        rfl
      obtain ⟨chunks, hc⟩ := chunks_only onChunk hchunks
      cases e with
      | headers status version fields =>
        exact .inr ⟨status, version, fields, chunks, by simp [Event.callback, hc]⟩
      | chunk data => cases hhead

theorem View.Closing.complete {v : View} (hc : v.Closing) (hv : v.Sound) :
    ∃ w, Complete w ∧ v.slot.trace <+: w := by
  have hbody := body_of_response v.slot.onChunk (hv.handed_prefix.trans hv.fed.sent) hv.fed.shape
  rw [hc.trace]
  rcases hv.gated.dones_cases with hd | ⟨e, hd, -⟩
  · rw [hd, List.map_nil, List.append_nil]
    exact ⟨_, ⟨_, none, hbody, rfl⟩, List.prefix_append _ _⟩
  · rw [hd]
    exact ⟨_, ⟨_, e, hbody, rfl⟩, List.prefix_rfl⟩

/-- One request's callbacks: they do not overlap, form an initial part of a complete
sequence, and deliver an initial part of what the network task queued. -/
structure View.Orderly (v : View) : Prop where
  alone : ∀ t u, (v.pc t).inUserCode = true → (v.pc u).inUserCode = true → t = u
  language : ∃ w, Complete w ∧ v.slot.trace <+: w
  delivered : v.slot.trace =
    v.slot.handed.filterMap (Event.callback v.slot.onChunk) ++ v.slot.dones.map .onDone
  inOrder : v.slot.handed <+: v.slot.pushed

/-- The callbacks of every request are orderly in every run in which no event is queued
between the emptiness check of `run_owned` and its read of a drained `done_ready`. -/
theorem callbacks_orderly {cfg : Config} {r : ReqId} {as : List Act} {t : Client}
    (h : Client.Reaches cfg (Client.On r View.StillEmpty) (Client.init cfg) as t) : (t.view r).Orderly := by
  obtain ⟨hv, hc⟩ := h.holds (I := fun v => v.Sound ∧ v.Closing) ⟨.init _ _, .init _ _⟩
    fun v m w hok hv hs => ⟨hv.1.step hs, .step hok hv.2 hv.1.locked hv.1.gated hv.1.fed hs⟩
  refine ⟨fun t u ht hu => ?_, hc.complete hv, hc.trace, hv.handed_prefix⟩
  exact hv.locked.sole t u (Pc.owns_of_inUserCode ht) (Pc.owns_of_inUserCode hu)

def headDelivered : List Act :=
  headQueued ++ Act.pop 0 :: List.replicate 9 (.worker 0) ++ Act.workerEnv 0 (.action .cont) ::
    List.replicate 5 (.worker 0)

def chunkAndEnd : List Act :=
  Act.taskEnv 1 (.frame (.data [7])) :: List.replicate 9 (.task 1) ++
    Act.taskEnv 1 .bodyEnd :: List.replicate 7 (.task 1)

/-- The slice ends before the last chunk arrives; the next one delivers it and `OnDone`. -/
def successful : List Act :=
  headDelivered ++ List.replicate 4 (Act.worker 0) ++ chunkAndEnd ++ Act.pop 0 :: List.replicate 9 (.worker 0) ++
    Act.workerEnv 0 (.action .cont) :: List.replicate 8 (.worker 0)

set_option maxRecDepth 10000 in
theorem callbacks_orderly_successful : ∃ t,
    Client.Reaches .small (Client.On 1 View.StillEmpty) (Client.init .small) successful t ∧
    (t.slots 1).trace = [.onHeaders 200 1 [], .onChunk [7], .onDone none] ∧ (t.view 1).Orderly := by
  have hrun : (Runs.replay (Client.step .small) (Client.On 1 View.StillEmpty) (Client.init .small) successful).map
      (fun t => (t.slots 1).trace) = some [.onHeaders 200 1 [], .onChunk [7], .onDone none] := by decide
  obtain ⟨t, ht, htrace⟩ := Option.map_eq_some_iff.mp hrun
  exact ⟨t, Runs.run_of_replay ht, htrace, callbacks_orderly (Runs.run_of_replay ht)⟩

set_option maxRecDepth 10000 in
/-- The last chunk and the terminal arrive between the two reads of `run_owned`: `OnDone`
is delivered first, and the next slice delivers the chunk. -/
theorem chunk_follows_onDone : ¬ ∀ (cfg : Config) (r : ReqId) (as : List Act) (t : Client),
    Client.Reaches cfg Runs.anyStep (Client.init cfg) as t → (t.view r).Orderly := by
  intro h
  have hrun : (Runs.replay (Client.step .small) Runs.anyStep (Client.init .small)
      (headDelivered ++ chunkAndEnd ++ List.replicate 12 (Act.worker 0) ++
        Act.pop 0 :: List.replicate 9 (.worker 0))).map (fun t => (t.slots 1).trace) =
      some [.onHeaders 200 1 [], .onDone none, .onChunk [7]] := by decide
  obtain ⟨t, ht, htrace⟩ := Option.map_eq_some_iff.mp hrun
  obtain ⟨w, ⟨body, e, hbody, rfl⟩, hw⟩ := (h .small 1 _ t (Runs.run_of_replay ht)).language
  have hw' : [Callback.onHeaders 200 1 [], .onDone none, .onChunk [7]] <+: body ++ [.onDone e] := htrace ▸ hw
  rcases hbody with rfl | ⟨status, version, fields, chunks, rfl⟩
  · exact absurd hw'.length_le (by simp)
  · cases chunks with
    | nil => exact absurd hw'.length_le (by simp)
    | cons c cs => simp at hw'

/-- Success means the whole body: the response was queued in full, and handed over in
full, in order and before `OnDone`. -/
def Slot.WholeBody (s : Slot) : Prop :=
  .onDone none ∈ s.trace → s.state = .terminalDrain ∧ s.dropped = [] ∧ s.head ≠ none ∧
    s.pushed = s.response ∧ s.handed = s.pushed ∧
    s.trace = s.handed.filterMap (Event.callback s.onChunk) ++ [.onDone none]

theorem wholeBody_of_closing {v : View} (hv : v.Sound) (hc : v.Closing) : v.slot.WholeBody := by
  intro hmem
  have hdone : none ∈ v.slot.dones := List.mem_filterMap.mpr ⟨.onDone none, hmem, rfl⟩
  obtain ⟨hd, hs⟩ : v.slot.dones = [none] ∧ v.slot.state = .terminalDrain := by
    rcases hv.gated.dones_cases with hn | ⟨e, he, -, hiff⟩
    · rw [hn] at hdone
      cases hdone
    · rw [he, List.mem_singleton] at hdone
      exact ⟨by rw [he, hdone], hiff.mp hdone.symm⟩
  have hne : v.slot.dones ≠ [] := by rw [hd]; exact List.cons_ne_nil _ _
  have hnot : v.slot.state ≠ .terminalDiscard := by rw [hs]; exact State.noConfusion
  have hdropped : v.slot.dropped = [] := by
    by_contra h
    exact hnot (hv.flow.dropped h)
  have hqueue : v.slot.queue = [] := by
    rcases hc.last (.inl hne) with h | ⟨-, h⟩
    · exact absurd h hnot
    · exact h
  obtain ⟨-, hhead, hpushed⟩ := hv.fed.drained hs
  obtain ⟨held, hline, howner, hnone⟩ := hv.flow.line
  have hheld : held = [] := by
    by_cases ho : ∃ t, (v.pc t).owns = true
    · obtain ⟨t, ht⟩ := ho
      rw [← howner t ht]
      by_contra h
      exact hnot ((hc.silent hne t).2 h)
    · exact hnone fun t ht => ho ⟨t, ht⟩
  refine ⟨hs, hdropped, hhead, hpushed, ?_, ?_⟩
  · rw [hline, hdropped, hheld, hqueue]
    simp
  · rw [hc.trace, hd]
    rfl

/-- A drained request stays drained and drops nothing. -/
private theorem drained_step {v w : View} {m : Move} (h : v.Stepped m w)
    (hv : v.slot.state = .terminalDrain ∧ v.slot.dropped = []) :
    w.slot.state = .terminalDrain ∧ w.slot.dropped = [] := by
  obtain ⟨hs, hd⟩ := hv
  rcases h.acts with hw | ⟨t, o, ha, -, hw⟩
  · rw [hw]
    exact ⟨hs, hd⟩
  · rw [hw]
    have hflow := ha.flow
    generalize v.pc t = pc at hflow
    cases hflow with
    | same flow held passed trace state closing =>
      exact ⟨(state (by rw [hs]; exact State.noConfusion)).trans hs, flow.dropped.trans hd⟩
    | drop n ev hdis => exact absurd (hs.symm.trans hdis) State.noConfusion
    | _ => exact ⟨hs, hd⟩

/-- In every run in which no event is queued between the emptiness check of `run_owned`
and its read of a drained `done_ready`, success means the whole body; and a drained
request is never discarded nor drops an event later, whatever happens. -/
theorem success_means_whole_body {cfg : Config} {r : ReqId} {as : List Act} {t : Client}
    (h : Client.Reaches cfg (Client.On r View.StillEmpty) (Client.init cfg) as t) :
    (t.slots r).WholeBody ∧ ∀ bs u, Client.Reaches cfg Runs.anyStep t bs u →
      (t.slots r).state = .terminalDrain → (u.slots r).state = .terminalDrain ∧ (u.slots r).dropped = [] := by
  obtain ⟨hv, hc⟩ := h.holds (I := fun v => v.Sound ∧ v.Closing) ⟨.init _ _, .init _ _⟩
    fun v m w hok hv hs => ⟨hv.1.step hs, .step hok hv.2 hv.1.locked hv.1.gated hv.1.fed hs⟩
  refine ⟨wholeBody_of_closing hv hc, fun bs u hu hs => ?_⟩
  have hd : (t.slots r).dropped = [] := by
    by_contra hne
    exact absurd (hs.symm.trans (hv.flow.dropped hne)) State.noConfusion
  obtain ⟨ms, hms⟩ := (hu.on_any r).view (h.fresh (Client.Fresh.init cfg))
  exact Runs.Run.invariant (I := fun v : View => v.slot.state = .terminalDrain ∧ v.slot.dropped = []) hms
    (fun v m w _ hv hstep => drained_step (View.step_cases hstep) hv) ⟨hs, hd⟩

set_option maxRecDepth 10000 in
theorem success_means_whole_body_successful : ∃ t,
    Client.Reaches .small (Client.On 1 View.StillEmpty) (Client.init .small) successful t ∧
    .onDone none ∈ (t.slots 1).trace ∧ (t.slots 1).WholeBody := by
  have hrun : (Runs.replay (Client.step .small) (Client.On 1 View.StillEmpty) (Client.init .small) successful).map
      (fun t => (t.slots 1).trace) = some [.onHeaders 200 1 [], .onChunk [7], .onDone none] := by decide
  obtain ⟨t, ht, htrace⟩ := Option.map_eq_some_iff.mp hrun
  refine ⟨t, Runs.run_of_replay ht, ?_, (success_means_whole_body (Runs.run_of_replay ht)).1⟩
  rw [htrace]
  decide

set_option maxRecDepth 10000 in
/-- The same interleaving reports success while the last chunk is still in the queue. -/
theorem success_with_queued_chunk : ¬ ∀ (cfg : Config) (r : ReqId) (as : List Act) (t : Client),
    Client.Reaches cfg Runs.anyStep (Client.init cfg) as t → (t.slots r).WholeBody := by
  intro h
  have hrun : (Runs.replay (Client.step .small) Runs.anyStep (Client.init .small)
      (headDelivered ++ chunkAndEnd ++ List.replicate 3 (Act.worker 0))).map
      (fun t => ((t.slots 1).trace, (t.slots 1).handed, (t.slots 1).pushed)) =
      some ([.onHeaders 200 1 [], .onDone none], [.headers 200 1 []], [.headers 200 1 [], .chunk [7]]) := by
    decide
  obtain ⟨t, ht, hobs⟩ := Option.map_eq_some_iff.mp hrun
  obtain ⟨htrace, hobs⟩ := Prod.mk.inj hobs
  obtain ⟨hhanded, hpushed⟩ := Prod.mk.inj hobs
  obtain ⟨-, -, -, -, heq, -⟩ := h .small 1 _ t (Runs.run_of_replay ht) (by rw [htrace]; decide)
  rw [hhanded, hpushed] at heq
  exact absurd heq (by decide)

end Hyper4k.Bridge
