import Hyper4k.Bridge.Gate

/-! The network task's side of a slot: what it queues is the response it received,
in order, and a drained terminal means it queued all of it. -/
namespace Hyper4k.Bridge
open Runs

def Event.isHeaders : Event → Bool
  | .headers .. => true
  | .chunk _ => false

def Frame.event? : Frame → Option Event
  | .data (b :: bs) => some (.chunk (b :: bs))
  | _ => none

/-- The response as received: the head, then every non-empty data frame. -/
def Slot.response (s : Slot) : List Event := s.head.toList ++ s.frames.filterMap Frame.event?

def Pc.feeds : Pc → Bool
  | .acquire _ | .bind .. | .trySend _ | .loadCommitted .. | .sendState _ | .acquirePermit _
  | .recheckState _ | .markCommitted _ | .pushEvent _ | .sendPaused | .frame
  | .leavePause .sent | .dropGuard .sent | .swapScheduled .sent | .pushReady .sent | .scheduled .sent => true
  | _ => false

def Pc.finishing : Pc → Bool
  | .claim .task _ _ | .lostPaused .task | .storeTerminal .task _ _ | .storeDone .task _
  | .wakeProducer .task _ | .wonPaused .task | .leavePause (.settled .task) | .dropGuard (.settled .task)
  | .swapScheduled (.settled .task) | .pushReady (.settled .task) | .scheduled (.settled .task)
  | .settled .task | .ended => true
  | _ => false

/-- How much of the response the task has queued at each point. -/
def Slot.Feeding (s : Slot) : Pc → Prop
  | .away | .acquire _ | .bind .. | .trySend _ | .loadCommitted .. =>
    s.pushed = [] ∧ s.head = none ∧ s.frames = []
  | .sendState ev | .acquirePermit ev | .recheckState ev | .markCommitted ev | .pushEvent ev =>
    s.head ≠ none ∧ s.pushed ++ [ev] = s.response
  | .sendPaused | .frame | .leavePause .sent | .dropGuard .sent | .swapScheduled .sent | .pushReady .sent
  | .scheduled .sent | .claim _ _ false =>
    s.head ≠ none ∧ s.pushed = s.response
  | _ => True

/-- A step that is not the feeding task's leaves the task's histories alone. -/
structure Slot.Unfed (s : Slot) (pc : Pc) (o : Outcome) : Prop where
  pushed : o.slot.pushed = s.pushed
  head : o.slot.head = s.head
  frames : o.slot.frames = s.frames
  feeds : o.pc.feeds = false
  claims : ∀ c t, o.pc ≠ .claim c t false
  state : o.slot.state = .terminalDrain → s.state = .terminalDrain ∨ ∃ c t, pc = .claim c t false

theorem exec_unfed {s : Slot} {pc : Pc} {o : Outcome} (hpc : pc.feeds = false) (h : s.exec pc = some o) :
    s.Unfed pc o := by
  cases pc with
  | claim c t discard =>
    simp only [Slot.exec] at h
    repeat' split at h
    all_goals cases h
    all_goals constructor <;> simp_all [Pc.feeds]
  | leavePause k | dropGuard k | pushReady k =>
    cases h
    cases k <;> first | (cases hpc; done) | (constructor <;> simp_all [Pc.feeds])
  | swapScheduled k | scheduled k =>
    simp only [Slot.exec] at h
    cases k <;> first | (cases hpc; done) | (repeat' split at h)
    all_goals cases h
    all_goals constructor <;> simp_all [Pc.feeds]
  | _ =>
    first
      | (cases hpc; done)
      | (simp only [Slot.exec] at h
         repeat' split at h
         all_goals first
           | (cases h; constructor <;> first | rfl | exact Or.inl | (intro c t e; cases e))
           | cases h)

theorem env_unfed {s : Slot} {pc : Pc} {o : Outcome} (hpc : pc.feeds = false) (h : s.EnvStep pc o) :
    s.Unfed pc o := by
  cases h with
  | answered n ev a => exact ⟨rfl, rfl, rfl, rfl, fun _ _ e => (nomatch e), Or.inl⟩
  | failed _ _ waits | aborted _ waits => cases pc <;> first | (cases waits; done) | cases hpc
  | _ => cases hpc

/-- A step of the feeding task keeps its place in the response. -/
structure Slot.Fed (s : Slot) (o : Outcome) : Prop where
  feeding : o.slot.Feeding o.pc
  role : o.pc.feeds = true ∨ o.pc.finishing = true
  sent : o.slot.pushed <+: o.slot.response
  shape : (o.slot.head = none → o.slot.frames = []) ∧ ∀ ev, o.slot.head = some ev → ev.isHeaders = true
  state : o.slot.state = s.state

private theorem sent_of_feeding {s : Slot} {pc : Pc} (hpc : pc.feeds = true) (hf : s.Feeding pc) :
    s.pushed <+: s.response := by
  cases pc with
  | acquire a | bind a conn | trySend a | loadCommitted a unsent =>
    rw [hf.1]
    exact List.nil_prefix
  | sendState ev | acquirePermit ev | recheckState ev | markCommitted ev | pushEvent ev =>
    exact ⟨[ev], hf.2⟩
  | sendPaused | frame => exact hf.2 ▸ List.prefix_rfl
  | leavePause k | dropGuard k | swapScheduled k | pushReady k | scheduled k =>
    cases k with
    | sent => exact hf.2 ▸ List.prefix_rfl
    | settled c => cases hpc
    | resumed => cases hpc
  | _ => cases hpc

theorem exec_fed {s : Slot} {pc : Pc} {o : Outcome} (hpc : pc.feeds = true) (hf : s.Feeding pc)
    (hshape : (s.head = none → s.frames = []) ∧ ∀ ev, s.head = some ev → ev.isHeaders = true)
    (h : s.exec pc = some o) : s.Fed o := by
  have hsent := sent_of_feeding hpc hf
  cases pc with
  | pushEvent ev =>
    cases h
    have hall : s.pushed ++ [ev] = s.response := hf.2
    refine ⟨⟨hf.1, hall⟩, .inl rfl, ?_, hshape, rfl⟩
    exact ⟨[], (List.append_nil _).trans hall⟩
  | loadCommitted a unsent =>
    simp only [Slot.exec] at h
    split at h <;> cases h
    case h_1 => exact ⟨hf, .inl rfl, hsent, hshape, rfl⟩
    case h_2 => exact ⟨trivial, .inr rfl, hsent, hshape, rfl⟩
    case h_3 ev hev => cases Retry.iteration_delivers hev
  | leavePause k | dropGuard k | pushReady k =>
    cases k with
    | sent =>
      cases h
      exact ⟨hf, .inl rfl, hsent, hshape, rfl⟩
    | settled c => cases hpc
    | resumed => cases hpc
  | swapScheduled k =>
    cases k with
    | sent =>
      simp only [Slot.exec] at h
      split at h <;> cases h <;> exact ⟨hf, .inl rfl, hsent, hshape, rfl⟩
    | settled c => cases hpc
    | resumed => cases hpc
  | scheduled k =>
    cases k with
    | sent =>
      cases h
      exact ⟨hf, .inl rfl, hsent, hshape, rfl⟩
    | settled c => cases hpc
    | resumed => cases hpc
  | bind a conn | markCommitted ev =>
    cases h
    exact ⟨hf, .inl rfl, hsent, hshape, rfl⟩
  | sendState ev | acquirePermit ev | recheckState ev | sendPaused =>
    simp only [Slot.exec] at h
    split at h <;> cases h
    all_goals first
      | exact ⟨hf, .inl rfl, hsent, hshape, rfl⟩
      | exact ⟨trivial, .inr rfl, hsent, hshape, rfl⟩
  | acquire a | trySend a | frame => cases h
  | _ => cases hpc

private theorem receive_response (s : Slot) (f : Frame) :
    (s.receive f).slot.response = s.response ++ f.event?.toList := by
  simp only [Slot.response, Slot.receive, List.filterMap_append, List.append_assoc]
  rcases f with (_ | _) | _ <;> rfl

theorem env_fed {s : Slot} {pc : Pc} {o : Outcome} (hpc : pc.feeds = true) (hf : s.Feeding pc)
    (hshape : (s.head = none → s.frames = []) ∧ ∀ ev, s.head = some ev → ev.isHeaders = true)
    (h : s.EnvStep pc o) : s.Fed o := by
  have hsent := sent_of_feeding hpc hf
  cases h with
  | answered n ev a => cases hpc
  | again a b | leased a conn | sendFailed a unsent => exact ⟨hf, .inl rfl, hsent, hshape, rfl⟩
  | responded a status version fields =>
    obtain ⟨hp, -, hframes⟩ := hf
    have hresp : ({ s with head := some (.headers status version fields) } : Slot).response =
        [.headers status version fields] := by
      simp [Slot.response, hframes]
    refine ⟨⟨Option.some_ne_none _, ?_⟩, .inl rfl, ?_, ⟨fun hn => ?_, fun ev he => ?_⟩, rfl⟩
    · rw [hresp, hp]
      rfl
    · rw [hp]
      exact List.nil_prefix
    · cases hn
    · cases he
      rfl
  | received f =>
    obtain ⟨hhead, hp⟩ := hf
    have hnone : s.head = none → s.frames ++ [f] = [] := fun hn => absurd hn hhead
    have hresp := receive_response s f
    have hmore : s.pushed <+: (s.receive f).slot.response := by
      rw [hresp, hp]
      exact List.prefix_append _ _
    rcases f with (_ | ⟨b, bs⟩) | _
    · exact ⟨⟨hhead, hp.trans (hresp.trans (List.append_nil _)).symm⟩, .inl rfl, hmore, ⟨hnone, hshape.2⟩, rfl⟩
    · refine ⟨⟨hhead, ?_⟩, .inl rfl, hmore, ⟨hnone, hshape.2⟩, rfl⟩
      rw [hresp, ← hp]
      rfl
    · exact ⟨⟨hhead, hp.trans (hresp.trans (List.append_nil _)).symm⟩, .inl rfl, hmore, ⟨hnone, hshape.2⟩, rfl⟩
  | bodyEnd => exact ⟨hf, .inr rfl, hsent, hshape, rfl⟩
  | failed _ _ waits => exact ⟨trivial, .inr rfl, hsent, hshape, rfl⟩
  | aborted _ waits => exact ⟨trivial, .inr rfl, hsent, hshape, rfl⟩

theorem exec_finishing {s : Slot} {pc : Pc} {o : Outcome} (hpc : pc.finishing = true)
    (h : s.exec pc = some o) : o.pc.finishing = true := by
  cases pc with
  | claim c t discard =>
    cases c <;> first | (cases hpc; done) | skip
    simp only [Slot.exec] at h
    repeat' split at h
    all_goals cases h
    all_goals rfl
  | lostPaused c | wakeProducer c discard | wonPaused c =>
    cases c <;> first | (cases hpc; done) | skip
    simp only [Slot.exec] at h
    split at h <;> cases h <;> rfl
  | storeTerminal c t discard | storeDone c discard =>
    cases c <;> first | (cases hpc; done) | (cases h; rfl)
  | settled c => cases c <;> first | (cases hpc; done) | (cases h; rfl)
  | leavePause k | dropGuard k | pushReady k | scheduled k =>
    rcases k with (_ | _ | _ | _) | _ | _ <;> first | (cases hpc; done) | (cases h; rfl)
  | swapScheduled k =>
    rcases k with (_ | _ | _ | _) | _ | _ <;> first | (cases hpc; done) | skip
    simp only [Slot.exec] at h
    split at h <;> cases h <;> rfl
  | ended => cases h
  | _ => cases hpc

private theorem feeds_of_finishing {pc : Pc} (h : pc.finishing = true) : pc.feeds = false := by
  cases pc <;> first | rfl | cases h | skip
  all_goals rename_i k
  all_goals rcases k with (_ | _ | _ | _) | _ | _ <;> first | rfl | cases h

/-- The task's place in the response, and that nobody else feeds the slot or drains it. -/
structure View.Fed (v : View) : Prop where
  role : v.pc .task = .away ∨ (v.pc .task).feeds = true ∨ (v.pc .task).finishing = true
  feeder : ∀ t, (v.pc t).feeds = true → t = .task
  drains : ∀ t c tm, v.pc t = .claim c tm false → t = .task
  feeding : v.slot.Feeding (v.pc .task)
  sent : v.slot.pushed <+: v.slot.response
  shape : (v.slot.head = none → v.slot.frames = []) ∧ ∀ ev, v.slot.head = some ev → ev.isHeaders = true
  drained : v.slot.state = .terminalDrain →
    (v.pc .task).finishing = true ∧ v.slot.head ≠ none ∧ v.slot.pushed = v.slot.response

theorem View.Fed.init (onChunk : Bool) (queueCapacity : Nat) : (View.init onChunk queueCapacity).Fed where
  role := .inl rfl
  feeder _ h := by cases h
  drains _ _ _ h := by cases h
  feeding := ⟨rfl, rfl, rfl⟩
  sent := List.nil_prefix
  shape := ⟨fun _ => rfl, fun _ h => by cases h⟩
  drained h := by cases h

private theorem Slot.Feeding.congr {s s' : Slot} {pc : Pc} (hp : s'.pushed = s.pushed) (hh : s'.head = s.head)
    (hf : s'.frames = s.frames) (h : s.Feeding pc) : s'.Feeding pc := by
  have hr : s'.response = s.response := by rw [Slot.response, Slot.response, hh, hf]
  unfold Slot.Feeding at h ⊢
  rw [hp, hh, hf, hr]
  exact h

private theorem feeding_of_finishing {s : Slot} {pc : Pc} (hpc : pc.finishing = true)
    (hc : ∀ c t, pc ≠ .claim c t false) : s.Feeding pc := by
  cases pc with
  | claim c t discard =>
    cases discard with
    | false => exact absurd rfl (hc c t)
    | true => trivial
  | leavePause k | dropGuard k | swapScheduled k | pushReady k | scheduled k =>
    cases k with
    | settled c => trivial
    | resumed => trivial
    | sent => cases hpc
  | _ => trivial

section Steps
variable {v : View} (hv : v.Fed) {o : Outcome} {ready : Nat}
include hv

private theorem Fed.other {t : Tid} (ht : t ≠ .task) (h : v.slot.Unfed (v.pc t) o) :
    (⟨o.slot, ready, Function.update v.pc t o.pc⟩ : View).Fed := by
  have htask : (⟨o.slot, ready, Function.update v.pc t o.pc⟩ : View).pc .task = v.pc .task :=
    Function.update_of_ne (Ne.symm ht) _ _
  have hresp : o.slot.response = v.slot.response := by rw [Slot.response, Slot.response, h.head, h.frames]
  refine ⟨?_, ?_, ?_, ?_, ?_, ?_, ?_⟩
  · rw [htask]
    exact hv.role
  · exact forall_update (Q := fun u (pc : Pc) => pc.feeds = true → u = .task)
      (fun hf => absurd (h.feeds.symm.trans hf) Bool.false_ne_true) fun u _ => hv.feeder u
  · exact forall_update (Q := fun u (pc : Pc) => ∀ c tm, pc = .claim c tm false → u = .task)
      (fun c tm e => absurd e (h.claims c tm)) fun u _ => hv.drains u
  · rw [htask]
    exact hv.feeding.congr h.pushed h.head h.frames
  · rw [h.pushed, hresp]
    exact hv.sent
  · rw [h.head, h.frames]
    exact hv.shape
  · intro hd
    rw [h.pushed, h.head, hresp, htask]
    rcases h.state hd with hs | ⟨c, tm, hpc⟩
    · exact hv.drained hs
    · exact absurd (hv.drains t c tm hpc) ht

private theorem Fed.feeder_task (pc : Pc) : ∀ u, (Function.update v.pc .task pc u).feeds = true → u = .task :=
  forall_update (Q := fun u (pc : Pc) => pc.feeds = true → u = .task) (fun _ => rfl) fun u _ => hv.feeder u

private theorem Fed.drains_task (pc : Pc) :
    ∀ u c tm, Function.update v.pc .task pc u = .claim c tm false → u = .task :=
  forall_update (Q := fun u (pc : Pc) => ∀ c tm, pc = .claim c tm false → u = .task) (fun _ _ _ => rfl)
    fun u _ => hv.drains u

private theorem Fed.finish (hnew : o.pc.finishing = true)
    (h : v.slot.Unfed (v.pc .task) o) :
    (⟨o.slot, ready, Function.update v.pc .task o.pc⟩ : View).Fed := by
  have htask : (⟨o.slot, ready, Function.update v.pc .task o.pc⟩ : View).pc .task = o.pc :=
    Function.update_self Tid.task o.pc v.pc
  have hresp : o.slot.response = v.slot.response := by rw [Slot.response, Slot.response, h.head, h.frames]
  refine ⟨?_, ?_, ?_, ?_, ?_, ?_, ?_⟩
  · rw [htask]
    exact .inr (.inr hnew)
  · exact Fed.feeder_task hv o.pc
  · exact Fed.drains_task hv o.pc
  · rw [htask]
    exact feeding_of_finishing hnew h.claims
  · rw [h.pushed, hresp]
    exact hv.sent
  · rw [h.head, h.frames]
    exact hv.shape
  · intro hd
    rw [h.pushed, h.head, hresp, htask]
    refine ⟨hnew, ?_⟩
    rcases h.state hd with hs | ⟨c, tm, hclaim⟩
    · exact (hv.drained hs).2
    · have hf := hv.feeding
      rw [hclaim] at hf
      exact hf

private theorem Fed.feed (hpc : (v.pc .task).finishing = false) (h : v.slot.Fed o) :
    (⟨o.slot, ready, Function.update v.pc .task o.pc⟩ : View).Fed := by
  have htask : (⟨o.slot, ready, Function.update v.pc .task o.pc⟩ : View).pc .task = o.pc :=
    Function.update_self Tid.task o.pc v.pc
  refine ⟨?_, ?_, ?_, ?_, h.sent, h.shape, ?_⟩
  · rw [htask]
    exact .inr h.role
  · exact Fed.feeder_task hv o.pc
  · exact Fed.drains_task hv o.pc
  · rw [htask]
    exact h.feeding
  · intro hd
    have hold := (hv.drained (h.state.symm.trans hd)).1
    rw [hpc] at hold
    cases hold

end Steps

private theorem finishing_of_feeds {pc : Pc} (h : pc.feeds = true) : pc.finishing = false := by
  cases hf : pc.finishing with
  | false => rfl
  | true => exact (feeds_of_finishing hf).symm.trans h |> Bool.noConfusion

theorem View.Fed.step {v w : View} {m : Move} (hv : v.Fed) (h : v.Stepped m w) : w.Fed := by
  have hother : ∀ t, t ≠ .task → (v.pc t).feeds = false := fun t ht =>
    Bool.eq_false_iff.mpr fun hf => ht (hv.feeder t hf)
  cases h with
  | exec t o h =>
    by_cases ht : t = .task
    · subst ht
      rcases hv.role with ha | hf | hf
      · rw [ha] at h
        cases h
      · exact Fed.feed hv (finishing_of_feeds hf) (exec_fed hf hv.feeding hv.shape h)
      · exact Fed.finish hv (exec_finishing hf h) (exec_unfed (feeds_of_finishing hf) h)
    · exact Fed.other hv ht (exec_unfed (hother t ht) h)
  | env t c o h =>
    by_cases ht : t = .task
    · subst ht
      rcases hv.role with ha | hf | hf
      · rw [ha] at h
        cases h with
        | failed _ _ waits => cases waits
        | aborted _ waits => cases waits
      · exact Fed.feed hv (finishing_of_feeds hf) (env_fed hf hv.feeding hv.shape h)
      · have hu := feeds_of_finishing hf
        generalize v.pc .task = pc at h hf hu
        cases h with
        | failed _ _ waits | aborted _ waits => cases pc <;> first | (cases waits; done) | cases hu
        | _ => cases hf
    · exact Fed.other hv ht (env_unfed (hother t ht) h)
  | pop n k free hk =>
    exact Fed.other hv (o := ⟨v.slot, .swapRunning SLICE, .quiet⟩) Tid.noConfusion
      ⟨rfl, rfl, rfl, rfl, fun _ _ e => (nomatch e), Or.inl⟩
  | enter n e free =>
    refine Fed.other hv (o := ⟨v.slot, e.pc, .quiet⟩) Tid.noConfusion ⟨rfl, rfl, rfl, ?_, ?_, Or.inl⟩
    · cases e <;> rfl
    · cases e <;> exact fun _ _ he => (nomatch he)
  | spawn a free =>
    have hf := hv.feeding
    rw [free] at hf
    refine Fed.feed hv (o := ⟨v.slot, .acquire a, .quiet⟩) (by rw [free]; rfl) ⟨hf, .inl rfl, hv.sent, hv.shape, rfl⟩
  | setAbort => exact ⟨hv.role, hv.feeder, hv.drains, hv.feeding, hv.sent, hv.shape, hv.drained⟩

end Hyper4k.Bridge
