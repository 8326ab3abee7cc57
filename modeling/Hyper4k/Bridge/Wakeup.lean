import Hyper4k.Bridge.Parking

/-! Who still has to look at a slot whose terminal is ready. -/
namespace Hyper4k.Bridge
open Runs

/-- `OnDone` is due: the terminal is ready, not delivered, and no pause holds it back. -/
def Slot.Pending (s : Slot) : Prop := s.doneReady = true ∧ s.finishedFlag = false ∧ s.paused = false

instance (s : Slot) : Decidable s.Pending :=
  inferInstanceAs (Decidable (s.doneReady = true ∧ s.finishedFlag = false ∧ s.paused = false))

/-- The thread has yet to look for the terminal, or to put the slot in the ready queue. -/
def Pc.watches : Pc → Bool
  | .swapRunning _ | .clearScheduled _ | .loadPaused _ | .iterate _ | .popFront _ | .addPermits .. | .loadState ..
  | .setInCallback .. | .deliver .. | .inCallback .. | .clearInCallback .. | .clearPermit _ | .swapPermit _
  | .cancelPermit | .enterPause | .checkEmpty | .loadDone | .takeTerminal | .deliverDone _ | .inDone
  | .storeFinished | .releaseRunning true | .loadFinished true | .requeue | .claim .callback _ _
  | .storeTerminal .. | .storeDone .. | .wakeProducer .. | .wonPaused _ | .leavePause _ | .dropGuard _
  | .swapScheduled _ | .pushReady _ => true
  | _ => false

/-- The thread will look at the queue, and at nothing else, before it lets go of the slot. -/
def Pc.rechecks : Pc → Bool
  | .newGuard | .storeGuard _ | .lostPaused .callback | .scheduled (.settled .callback) | .settled .callback
  | .releaseRunning false | .loadFinished false | .recheckQueue => true
  | _ => false

/-- The thread will bring the slot to a worker that looks for the terminal. -/
def Slot.attends (s : Slot) (pc : Pc) : Bool := pc.watches || (pc.rechecks && !s.queue.isEmpty)

theorem Slot.attends_of_queue {s s' : Slot} {pc : Pc} (h : s.attends pc = true)
    (hq : s'.queue = [] → s.queue = []) : s'.attends pc = true := by
  simp only [Slot.attends, Bool.or_eq_true, Bool.and_eq_true, Bool.not_eq_true', List.isEmpty_eq_false_iff] at h ⊢
  exact h.imp_right fun ⟨hr, hne⟩ => ⟨hr, fun he => hne (hq he)⟩

/-- The instructions by which a thread leaves the slot to others. -/
inductive Slot.Yields (s : Slot) : Pc → Prop
  | bounced (n : Nat) (h : s.running = true) : s.Yields (.swapRunning n)
  | trusted (k : After) (h : s.scheduled = true) : s.Yields (.swapScheduled k)
  | refused (t : Terminal) (discard : Bool) (hs : s.state ≠ .running) (hq : s.queue = []) :
    s.Yields (.claim .callback t discard)
  | missed (h : s.terminal = none) : s.Yields .takeTerminal

/-- What a step does to a pending terminal: whoever makes it pending attends to it,
whoever attends to it goes on doing so, hands the slot to the ready queue or yields, and
whoever empties the queue attends to it. -/
structure Slot.WatchStep (s : Slot) (pc : Pc) (o : Outcome) : Prop where
  begins : o.slot.Pending → s.Pending ∨ o.slot.attends o.pc = true
  keeps : s.attends pc = true → o.slot.Pending → o.slot.attends o.pc = true ∨ o.effect = .push ∨ s.Yields pc
  empties : o.slot.queue = [] → s.queue = [] ∨ o.slot.attends o.pc = true

theorem exec_watch {s : Slot} {pc : Pc} {o : Outcome} (h : s.exec pc = some o) : s.WatchStep pc o := by
  cases pc with
  | swapRunning n =>
    simp only [Slot.exec] at h
    split at h <;> cases h
    · rename_i hr
      exact ⟨.inl, fun _ _ => .inr (.inr (.bounced n hr)), .inl⟩
    · exact ⟨.inl, fun _ _ => .inl rfl, .inl⟩
  | swapScheduled k =>
    simp only [Slot.exec] at h
    split at h <;> cases h
    · rename_i hs
      exact ⟨.inl, fun _ _ => .inr (.inr (.trusted k hs)), .inl⟩
    · exact ⟨.inl, fun _ _ => .inl rfl, .inl⟩
  | claim c t discard =>
    simp only [Slot.exec] at h
    split at h
    · cases h
      exact ⟨.inl, fun _ _ => .inl rfl, .inl⟩
    · rename_i hs
      have hslot : o.slot = s := by split at h <;> cases h <;> rfl
      have hkeep : s.attends (.claim c t discard) = true → s.attends o.pc = true ∨ s.Yields (.claim c t discard) := by
        intro ha
        cases c with
        | callback =>
          by_cases hq : s.queue = []
          · exact .inr (.refused t discard hs hq)
          · refine .inl ?_
            split at h <;> cases h <;> simp [Slot.attends, Pc.rechecks, hq]
        | task | cancel | close => cases ha
      refine ⟨fun hp => .inl (hslot ▸ hp), fun ha _ => ?_, fun hq => .inl (hslot ▸ hq)⟩
      rw [hslot]
      exact (hkeep ha).imp_right .inr
  | takeTerminal =>
    simp only [Slot.exec] at h
    split at h <;> cases h
    · exact ⟨.inl, fun _ _ => .inl rfl, .inl⟩
    · exact ⟨.inl, fun _ _ => .inr (.inr (.missed (by assumption))), .inl⟩
  | releaseRunning more =>
    cases h
    refine ⟨.inl, fun ha _ => .inl ?_, .inl⟩
    cases more <;> exact ha
  | loadFinished more =>
    simp only [Slot.exec] at h
    split at h
    · rename_i hf
      cases h
      exact ⟨.inl, fun _ hp => by simp [Slot.Pending, hf] at hp, .inl⟩
    · cases more <;> cases h
      · exact ⟨.inl, fun ha _ => .inl ha, .inl⟩
      · exact ⟨.inl, fun _ _ => .inl rfl, .inl⟩
  | recheckQueue =>
    simp only [Slot.exec] at h
    split at h <;> cases h
    · rename_i hq
      exact ⟨.inl, fun ha _ => by simp [Slot.attends, Pc.watches, hq] at ha, .inl⟩
    · exact ⟨.inl, fun _ _ => .inl rfl, .inl⟩
  | popFront n =>
    simp only [Slot.exec] at h
    split at h <;> cases h
    · exact ⟨.inl, fun _ _ => .inl rfl, .inl⟩
    · exact ⟨.inl, fun _ _ => .inl rfl, fun _ => .inr rfl⟩
  | lostPaused c =>
    simp only [Slot.exec] at h
    split at h <;> cases h
    · exact ⟨.inl, fun _ _ => .inl rfl, .inl⟩
    · refine ⟨.inl, fun ha _ => .inl ?_, .inl⟩
      cases c <;> exact ha
  | scheduled k =>
    simp only [Slot.exec] at h
    split at h <;> cases h
    case h_1 c =>
      refine ⟨.inl, fun ha _ => .inl ?_, .inl⟩
      cases c <;> exact ha
    all_goals exact ⟨.inl, fun ha _ => absurd ha Bool.false_ne_true, .inl⟩
  | requeue | pushReady k =>
    cases h
    exact ⟨.inl, fun _ _ => .inr (.inl rfl), .inl⟩
  | storeFinished =>
    cases h
    exact ⟨fun hp => Bool.noConfusion hp.2.1, fun _ hp => Bool.noConfusion hp.2.1, .inl⟩
  | enterPause =>
    cases h
    exact ⟨fun hp => Bool.noConfusion hp.2.2, fun _ hp => Bool.noConfusion hp.2.2, .inl⟩
  | storeDone c discard | leavePause k =>
    cases h
    exact ⟨fun _ => .inr rfl, fun _ _ => .inl rfl, .inl⟩
  | pushEvent ev =>
    cases h
    exact ⟨.inl, fun ha _ => absurd ha Bool.false_ne_true, fun hq => by simp at hq⟩
  | _ =>
    simp only [Slot.exec] at h
    repeat' split at h
    all_goals first
      | (cases h; exact ⟨.inl, fun _ _ => .inl rfl, .inl⟩)
      | (cases h; exact ⟨.inl, fun ha _ => .inl ha, .inl⟩)
      | (cases h; exact ⟨.inl, fun ha _ => absurd ha Bool.false_ne_true, .inl⟩)
      | (rename_i hc; cases h; exact ⟨.inl, fun _ hp => by simp [Slot.Pending, hc] at hp, .inl⟩)
      | cases h

theorem env_watch {s : Slot} {pc : Pc} {o : Outcome} (h : s.EnvStep pc o) : s.WatchStep pc o := by
  cases h with
  | answered n ev a => exact ⟨.inl, fun _ _ => .inl rfl, .inl⟩
  | received f =>
    rcases f with (_ | _) | _ <;> exact ⟨.inl, fun ha _ => absurd ha Bool.false_ne_true, .inl⟩
  | failed _ _ waits | aborted _ waits =>
    cases pc <;> first
      | (cases waits; done)
      | exact ⟨.inl, fun ha _ => absurd ha Bool.false_ne_true, .inl⟩
  | _ => exact ⟨.inl, fun ha _ => absurd ha Bool.false_ne_true, .inl⟩

def View.Attended (v : View) : Prop := 0 < v.ready ∨ ∃ t, v.slot.attends (v.pc t) = true

def View.AttendedBeside (v : View) (t : Tid) : Prop :=
  0 < v.ready ∨ ∃ u, u ≠ t ∧ v.slot.attends (v.pc u) = true

def View.Watched (v : View) : Prop := v.slot.Pending → v.Attended

private theorem attended_of_self {v : View} {t : Tid} {o : Outcome} (h : o.slot.attends o.pc = true) :
    (v.put t o).Attended :=
  .inr (exists_update_self (P := fun pc : Pc => o.slot.attends pc = true) h)

private theorem attended_of_beside {v : View} {t : Tid} {o : Outcome} (hs : v.slot.WatchStep (v.pc t) o)
    (h : v.AttendedBeside t) : (v.put t o).Attended := by
  rcases h with hr | ⟨u, hut, hu⟩
  · exact .inl (Nat.lt_of_lt_of_le hr (Nat.le_add_right _ _))
  · by_cases hself : o.slot.attends o.pc = true
    · exact attended_of_self hself
    · have hu' := Slot.attends_of_queue hu fun hq => (hs.empties hq).resolve_right hself
      exact .inr (exists_update_of_ne (P := fun pc : Pc => o.slot.attends pc = true) hut hu')

/-- A step keeps a pending terminal attended to, if whoever yields is not alone. -/
theorem View.Watched.put {v : View} {t : Tid} {o : Outcome} (hv : v.Watched) (hs : v.slot.WatchStep (v.pc t) o)
    (hy : v.slot.Pending → v.slot.Yields (v.pc t) → v.AttendedBeside t) : (v.put t o).Watched := by
  intro hp
  rcases hs.begins hp with hold | hself
  · by_cases hbeside : v.AttendedBeside t
    · exact attended_of_beside hs hbeside
    · have hself : v.slot.attends (v.pc t) = true := by
        rcases hv hold with hr | ⟨u, hu⟩
        · exact absurd (.inl hr) hbeside
        · by_cases hut : u = t
          · exact hut ▸ hu
          · exact absurd (.inr ⟨u, hut, hu⟩) hbeside
      rcases hs.keeps hself hp with ha | he | hyield
      · exact attended_of_self ha
      · exact .inl (by simp [View.put, he, Effect.pushes])
      · exact absurd (hy hold hyield) hbeside
  · exact attended_of_self hself

/-- The thread accounts for `scheduled` being set. -/
def Pc.backs : Pc → Bool
  | .pushReady _ | .swapRunning _ | .clearScheduled _ | .bounce => true
  | _ => false

def Slot.BackStep (s : Slot) (pc : Pc) (o : Outcome) : Prop :=
  o.slot.scheduled = false ∨ o.pc.backs = true ∨ o.effect = .push ∨
    (o.slot.scheduled = s.scheduled ∧ pc.backs = false)

theorem exec_back {s : Slot} {pc : Pc} {o : Outcome} (h : s.exec pc = some o) : s.BackStep pc o := by
  cases pc with
  | swapRunning n =>
    simp only [Slot.exec] at h
    split at h <;> cases h <;> exact .inr (.inl rfl)
  | swapScheduled k =>
    simp only [Slot.exec] at h
    split at h <;> cases h
    · exact .inr (.inr (.inr ⟨rfl, rfl⟩))
    · exact .inr (.inl rfl)
  | bounce | clearScheduled n =>
    cases h
    exact .inl rfl
  | pushReady k =>
    cases h
    exact .inr (.inr (.inl rfl))
  | _ =>
    simp only [Slot.exec] at h
    repeat' split at h
    all_goals first
      | (cases h; exact .inr (.inr (.inr ⟨rfl, rfl⟩)))
      | cases h

theorem env_back {s : Slot} {pc : Pc} {o : Outcome} (h : s.EnvStep pc o) : s.BackStep pc o := by
  refine .inr (.inr (.inr ?_))
  cases h with
  | received f => rcases f with (_ | _) | _ <;> exact ⟨rfl, rfl⟩
  | failed _ _ waits | aborted _ waits => cases pc <;> first | (cases waits; done) | exact ⟨rfl, rfl⟩
  | _ => exact ⟨rfl, rfl⟩

/-- While `scheduled` is set the slot is in the ready queue, on its way there, or just
taken from it. -/
def View.Backed (v : View) : Prop :=
  v.slot.scheduled = true → 0 < v.ready ∨ ∃ t, (v.pc t).backs = true

theorem View.Backed.init (onChunk : Bool) (queueCapacity : Nat) : (View.init onChunk queueCapacity).Backed :=
  fun h => by cases h

theorem View.Backed.put {v : View} {t : Tid} {o : Outcome} (hv : v.Backed) (hs : v.slot.BackStep (v.pc t) o) :
    (v.put t o).Backed := by
  intro hset
  rcases hs with hclear | hself | he | ⟨hsame, hpc⟩
  · exact nomatch hclear.symm.trans hset
  · exact .inr (exists_update_self (P := fun pc : Pc => pc.backs = true) hself)
  · exact .inl (by simp [View.put, he, Effect.pushes])
  · rcases hv (hsame.symm.trans hset) with hr | hback
    · exact .inl (Nat.lt_of_lt_of_le hr (Nat.le_add_right _ _))
    · refine .inr (exists_update (P := fun pc : Pc => pc.backs = true) hback fun ht => ?_)
      exact nomatch hpc.symm.trans ht

theorem View.Backed.step {v w : View} {m : Move} (hv : v.Backed) (h : v.Stepped m w) : w.Backed := by
  have arrive : ∀ {t : Tid} {pc : Pc}, v.pc t = .away → (v.put t ⟨v.slot, pc, .quiet⟩).Backed := fun free =>
    hv.put (.inr (.inr (.inr ⟨rfl, by rw [free]; rfl⟩)))
  cases h with
  | exec t o h => exact hv.put (exec_back h)
  | env t c o h => exact hv.put (env_back h)
  | pop n k free hk => exact fun _ => .inr (exists_update_self (P := fun pc : Pc => pc.backs = true) rfl)
  | enter n e free => exact arrive free
  | spawn a free => exact arrive free
  | setAbort => exact hv

/-- A thread that leaves a slot with a pending terminal to others is not alone: a worker
that bounces, a thread that trusts a `scheduled` flag which a bouncing worker is about to
clear, and a callback whose cancellation comes too late. -/
def View.HandsOver (v : View) : Move → Prop
  | .exec t => v.slot.Pending → match v.pc t with
    | .swapRunning _ => v.slot.running = true → v.AttendedBeside t
    | .swapScheduled _ => v.slot.scheduled = true → (∃ u, v.pc u = .bounce) → v.AttendedBeside t
    | .claim .callback _ _ => v.slot.queue = [] → v.AttendedBeside t
    | _ => True
  | _ => True

private theorem beside_of_yields {v : View} {t : Tid} (hl : v.Locked) (hg : v.Gated) (hb : v.Backed)
    (hok : v.HandsOver (.exec t)) (hp : v.slot.Pending) (hy : v.slot.Yields (v.pc t)) : v.AttendedBeside t := by
  have hok := hok hp
  generalize hpc : v.pc t = pc at hy hok
  cases hy with
  | bounced n hr => exact hok hr
  | refused tm discard hs hq => exact hok hq
  | trusted k hset =>
    rcases hb hset with hr | ⟨u, hu⟩
    · exact .inl hr
    · have hut : u ≠ t := by
        rintro rfl
        rw [hpc] at hu
        cases hu
      cases hpcu : v.pc u <;> rw [hpcu] at hu <;> first
        | (cases hu; done)
        | exact hok hset ⟨u, hpcu⟩
        | exact .inr ⟨u, hut, by rw [hpcu]; rfl⟩
  | missed hnone =>
    -- the owner that finds no terminal would have to share the slot with the one that took it
    rcases hg.ready_cases hp.1 with hsome | hf | ⟨u, hu⟩
    · exact absurd hnone hsome
    · exact nomatch hf.symm.trans hp.2.1
    · have hown : (v.pc u).owns = true := by rcases hu with ⟨tm, hu⟩ | hu | hu <;> rw [hu] <;> rfl
      have hut := hl.sole u t hown (by rw [hpc]; rfl)
      subst hut
      rw [hpc] at hu
      rcases hu with ⟨tm, hu⟩ | hu | hu <;> cases hu

theorem View.Watched.init (onChunk : Bool) (queueCapacity : Nat) : (View.init onChunk queueCapacity).Watched :=
  fun h => by cases h.1

theorem View.Watched.step {v w : View} {m : Move} (hl : v.Locked) (hg : v.Gated) (hb : v.Backed) (hok : v.HandsOver m)
    (hv : v.Watched) (h : v.Stepped m w) : w.Watched := by
  have arrive : ∀ {t : Tid} {pc : Pc}, v.pc t = .away → (v.put t ⟨v.slot, pc, .quiet⟩).Watched := by
    intro t pc free
    refine hv.put ⟨.inl, fun ha => ?_, .inl⟩ fun _ hy => ?_
    · rw [free] at ha
      cases ha
    · rw [free] at hy
      cases hy
  cases h with
  | exec t o h => exact hv.put (exec_watch h) fun hp hy => beside_of_yields hl hg hb hok hp hy
  | env t c o h =>
    refine hv.put (env_watch h) fun hp hy => ?_
    generalize v.pc t = pc at h hy
    cases hy <;> cases h <;> contradiction
  | pop n k free hk =>
    exact fun _ => .inr (exists_update_self (P := fun pc : Pc => v.slot.attends pc = true) rfl)
  | enter n e free => exact arrive free
  | spawn a free => exact arrive free
  | setAbort => exact hv

def Pc.handling (pc : Pc) : Bool := pc.owns || pc.settling || match pc with
  | .swapRunning _ | .bounce | .loadFinished _ | .recheckQueue | .requeue | .leavePause _ | .dropGuard _
  | .swapScheduled _ | .pushReady _ | .scheduled _ => true
  | _ => false

theorem Pc.handling_of_attends {s : Slot} {pc : Pc} (h : s.attends pc = true) : pc.handling = true := by
  cases pc with
  | claim c | lostPaused c | settled c => cases c <;> rfl
  | _ => first | rfl | (cases h; done) | simp [Pc.handling, Pc.settling]

def View.Unhandled (v : View) : Prop := v.ready = 0 ∧ ∀ t, (v.pc t).handling = false

theorem View.Watched.finished {v : View} (hv : v.Watched) (hu : v.Unhandled) (hd : v.slot.doneReady = true)
    (hp : v.slot.paused = false) : v.slot.finishedFlag = true := by
  by_contra hf
  rcases hv ⟨hd, Bool.eq_false_iff.mpr hf, hp⟩ with hr | ⟨t, ht⟩
  · exact absurd hu.1 (Nat.ne_of_gt hr)
  · exact nomatch (hu.2 t).symm.trans (Pc.handling_of_attends ht)

structure View.Wakes (v : View) : Prop where
  locked : v.Locked
  gated : v.Gated
  backed : v.Backed
  watched : v.Watched

theorem View.Wakes.step {v w : View} {m : Move} (hok : v.HandsOver m) (hv : v.Wakes) (h : v.Stepped m w) : w.Wakes :=
  ⟨hv.locked.step h, hv.gated.step h, hv.backed.step h, hv.watched.step hv.locked hv.gated hv.backed hok h⟩

theorem Client.Reaches.wakes {cfg : Config} {r : ReqId} {as : List Act} {s : Client}
    (h : Client.Reaches cfg (Client.On r View.HandsOver) (Client.init cfg) as s) : (s.view r).Wakes :=
  h.holds (I := View.Wakes) ⟨.init _ _, .init _ _, .init _ _, .init _ _⟩ fun _ _ _ hok hv hstep => hv.step hok hstep

/-- If nobody leaves a pending terminal alone, then a request that is neither parked nor
handled nor queued has delivered its terminal. -/
theorem terminal_never_lost {cfg : Config} {r : ReqId} {as : List Act} {s : Client}
    (h : Client.Reaches cfg (Client.On r View.HandsOver) (Client.init cfg) as s) (hu : (s.view r).Unhandled)
    (hd : (s.slots r).doneReady = true) (hp : (s.slots r).paused = false) :
    (s.slots r).finishedFlag = true ∧ (s.slots r).dones ≠ [] := by
  have hf := h.wakes.watched.finished hu hd hp
  exact ⟨hf, h.wakes.gated.done_of_finished hf⟩

theorem Client.Reaches.unhandled {cfg : Config} {ok : Client → Act → Prop} {as : List Act} {t : Client} {k : Nat}
    {r : ReqId} (h : Client.Reaches cfg ok (Client.init cfg) as t) (hbelow : ∀ a ∈ as, a.below k = true)
    (hr : t.ready = []) (hp : t.allPcs k r (fun _ pc => !pc.handling) = true) : (t.view r).Unhandled := by
  refine ⟨by simp [Client.view, hr], fun u => ?_⟩
  exact (Bool.not_eq_true' _).mp (h.allPcs hbelow (fun _ => rfl) hp u)

def Slot.yields (s : Slot) : Pc → Bool
  | .swapRunning _ => s.running
  | .swapScheduled _ => s.scheduled
  | .claim .callback _ _ => true
  | _ => false

/-- Whoever leaves a pending terminal to others leaves it in the ready queue. -/
def View.StaysQueued (v : View) : Move → Prop
  | .exec t => v.slot.Pending → v.slot.yields (v.pc t) = true → 0 < v.ready
  | _ => True

instance (v : View) : (m : Move) → Decidable (v.StaysQueued m)
  | .exec t => inferInstanceAs (Decidable (v.slot.Pending → v.slot.yields (v.pc t) = true → 0 < v.ready))
  | .env _ _ | .pop _ | .enter _ _ | .spawn _ | .setAbort => inferInstanceAs (Decidable True)

theorem View.StaysQueued.handsOver {v : View} {m : Move} (h : v.StaysQueued m) : v.HandsOver m := by
  cases m with
  | exec t =>
    intro hp
    have hq := h hp
    generalize v.pc t = pc at hq
    cases pc with
    | swapRunning n => exact fun hr => .inl (hq hr)
    | swapScheduled k => exact fun hs _ => .inl (hq hs)
    | claim c tm d =>
      cases c with
      | callback => exact fun _ => .inl (hq rfl)
      | task | cancel | close => trivial
    | _ => trivial
  | _ => trivial

set_option maxRecDepth 10000 in
theorem terminal_never_lost_successful : ∃ s,
    Client.Reaches .small (Client.On 1 View.HandsOver) (Client.init .small)
      (successful ++ List.replicate 9 (Act.worker 0)) s ∧
    (s.view 1).Unhandled ∧ (s.slots 1).doneReady = true ∧ (s.slots 1).finishedFlag = true ∧ (s.slots 1).dones ≠ [] := by
  have hrun : Client.after .small (Client.On 1 View.StaysQueued) (successful ++ List.replicate 9 (Act.worker 0))
      (fun s => (s.ready = [] ∧ s.allPcs 1 1 (fun _ pc => !pc.handling) = true) ∧ (s.slots 1).doneReady = true ∧
        (s.slots 1).paused = false) (fun _ => true) (Client.init .small) = true := by decide
  obtain ⟨s, hs, ⟨⟨hr, hpcs⟩, hd, hp⟩, -⟩ := Client.of_after hrun
  have hu := hs.unhandled (by decide) hr hpcs
  have hover := hs.mono fun _ _ hok m hm => (hok m hm).handsOver
  exact ⟨s, hover, hu, hd, terminal_never_lost hover hu hd hp⟩

set_option maxRecDepth 10000 in
/-- The last event has been delivered and the owner has found no terminal. The request is
settled and queued before the owner gives the slot back; a second worker takes it from the
queue, bounces, and nobody looks at it again. -/
theorem terminal_lost_in_bounce : ¬ ∀ (cfg : Config) (r : ReqId) (as : List Act) (s : Client),
    Client.Reaches cfg Runs.anyStep (Client.init cfg) as s → (s.view r).Unhandled → (s.slots r).doneReady = true →
    (s.slots r).paused = false → (s.slots r).finishedFlag = true := by
  intro h
  have hrun : Client.after .small Runs.anyStep
      (headDelivered ++ Act.worker 0 :: .taskEnv 1 .bodyEnd :: List.replicate 8 (.task 1) ++
        [Act.pop 1, .worker 1, .worker 1, .worker 0, .worker 0, .worker 0])
      (fun s => (s.ready = [] ∧ s.allPcs 2 1 (fun _ pc => !pc.handling) = true) ∧ (s.slots 1).doneReady = true ∧
        (s.slots 1).paused = false ∧ (s.slots 1).finishedFlag = false) (fun _ => true) (Client.init .small) = true := by
    decide
  obtain ⟨s, hs, ⟨⟨hr, hpcs⟩, hd, hp, hf⟩, -⟩ := Client.of_after hrun
  have hu := hs.unhandled (by decide) hr hpcs
  exact nomatch hf.symm.trans (h .small 1 _ s hs hu hd hp)

set_option maxRecDepth 10000 in
/-- The other way to lose a terminal: the callback of the last event cancels a request
that has drained in the meantime, and the slice ends without a look at the terminal. -/
example : Client.after .small Runs.anyStep
    (inFirstChunk ++ Act.taskEnv 1 .bodyEnd :: List.replicate 8 (.task 1) ++ Act.pop 1 :: .worker 1 :: .worker 1 ::
      .workerEnv 0 (.action .cancel) :: List.replicate 8 (.worker 0))
    (fun s => (s.ready = [] ∧ s.allPcs 2 1 (fun _ pc => !pc.handling) = true) ∧ (s.slots 1).doneReady = true ∧
      (s.slots 1).paused = false ∧ (s.slots 1).finishedFlag = false) (fun _ => true) (Client.init .small) = true := by
  decide

/-- A worker parks a discarded request only while a discarding settle has yet to look at it. -/
def View.ParksInTime (v : View) : Move → Prop
  | .exec t => v.pc t = .enterPause → v.slot.state = .terminalDiscard → ∃ u, (v.pc u).releases = true
  | _ => True

theorem View.Released.of_discard {v w : View} {m : Move} (hok : v.ParksInTime m)
    (hv : v.slot.state = .terminalDiscard → v.Released) (h : v.Stepped m w)
    (hd : w.slot.state = .terminalDiscard) : w.Released := by
  by_cases hold : v.slot.state = .terminalDiscard
  · refine View.Released.step ?_ (hv hold) h
    cases m with
    | exec t => exact fun hpc => hok hpc hold
    | _ => trivial
  · rcases h.acts with hw | ⟨t, o, ha, -, hw⟩ <;> rw [hw] at hd ⊢
    · exact absurd hd hold
    · have hpause := ha.pause
      generalize v.pc t = pc at hpause
      cases hpause with
      | same paused unparked releases discard =>
        have hr := (discard hd).resolve_left hold
        exact .inr (exists_update_self (P := fun pc : Pc => pc.releases = true) hr)
      | park | leave k => exact absurd hd hold

theorem Pc.settling_of_publishes {pc : Pc} (h : pc.hand.publishes = true) : pc.settling = true := by
  cases pc <;> first | rfl | cases h

/-- A discarded request that is at rest has its terminal ready; once `OnDone` is delivered
it carries an error. -/
theorem View.Wakes.discarded {v : View} (hv : v.Wakes) (hd : v.slot.state = .terminalDiscard) (hq : v.Quiet)
    (hp : v.slot.paused = false) (hu : v.Unhandled) : ∃ e, v.slot.dones = [some e] := by
  have hready : v.slot.doneReady = true := by
    rcases hv.gated.ready_of_claimed (by rw [hd]; exact State.noConfusion) with hr | ⟨t, ht⟩
    · exact hr
    · exact nomatch (hq.2 t).symm.trans (Pc.settling_of_publishes ht)
  have hdone := hv.gated.done_of_finished (hv.watched.finished hu hready hp)
  obtain ⟨e, he, -, hdrain⟩ := hv.gated.dones_cases.resolve_left hdone
  cases e with
  | none => exact nomatch hd.symm.trans (hdrain.mp rfl)
  | some e => exact ⟨e, he⟩

/-- If a worker parks a discarded request only while a discarding settle has yet to look at
it, then a discarded request is not parked whenever it is quiet; and if besides nobody
leaves its terminal alone, it has delivered its error once it is neither handled nor queued. -/
theorem discarded_never_parked {cfg : Config} {r : ReqId} {as : List Act} {s : Client}
    (h : Client.Reaches cfg (Client.On r View.ParksInTime) (Client.init cfg) as s)
    (hd : (s.slots r).state = .terminalDiscard) (hq : (s.view r).Quiet) :
    (s.slots r).paused = false ∧
      (Client.Reaches cfg (Client.On r View.HandsOver) (Client.init cfg) as s → (s.view r).Unhandled →
        ∃ e, (s.slots r).dones = [some e]) := by
  have hr : (s.view r).slot.state = .terminalDiscard → (s.view r).Released :=
    h.holds (I := fun v => v.slot.state = .terminalDiscard → v.Released) (fun he => by cases he)
      fun _ _ _ hok hv hstep => View.Released.of_discard hok hv hstep
  have hp := (hr hd).not_paused hq
  exact ⟨hp, fun hover hu => hover.wakes.discarded hd hq hp hu⟩

def cancelled (steps : Nat) : List Act := .begin 0 (.cancel 1) :: List.replicate steps (.call 0)

def View.ParksBefore (v : View) : Move → Prop
  | .exec t => v.pc t = .enterPause → v.slot.state ≠ .terminalDiscard
  | _ => True

instance (v : View) : (m : Move) → Decidable (v.ParksBefore m)
  | .exec t => inferInstanceAs (Decidable (v.pc t = .enterPause → v.slot.state ≠ .terminalDiscard))
  | .env _ _ | .pop _ | .enter _ _ | .spawn _ | .setAbort => inferInstanceAs (Decidable True)

theorem View.ParksBefore.inTime {v : View} {m : Move} (h : v.ParksBefore m) : v.ParksInTime m := by
  cases m with
  | exec t => exact fun hpc hd => absurd hd (h hpc)
  | _ => trivial

set_option maxRecDepth 10000 in
theorem discarded_never_parked_request : ∃ s,
    Client.Reaches .small (Client.On 1 View.ParksInTime) (Client.init .small)
      (inFirstChunk ++ pauseAnswered ++ cancelled 14 ++ Act.pop 0 :: List.replicate 18 (.worker 0)) s ∧
    (s.slots 1).state = .terminalDiscard ∧ (s.slots 1).paused = false ∧ ∃ e, (s.slots 1).dones = [some e] := by
  have hrun : Client.after .small (fun s a => Client.On 1 View.ParksBefore s a ∧ Client.On 1 View.StaysQueued s a)
      (inFirstChunk ++ pauseAnswered ++ cancelled 14 ++ Act.pop 0 :: List.replicate 18 (.worker 0))
      (fun s => (s.ready = [] ∧ s.allPcs 1 1 (fun _ pc => !pc.handling) = true ∧ s.allPcs 1 1 Pc.quiet = true) ∧
        (s.slots 1).state = .terminalDiscard) (fun _ => true) (Client.init .small) = true := by decide
  obtain ⟨s, hs, ⟨⟨hr, hpcs, hquiet⟩, hd⟩, -⟩ := Client.of_after hrun
  have hparks := hs.mono fun _ _ hok m hm => (hok.1 m hm).inTime
  have hover := hs.mono fun _ _ hok m hm => (hok.2 m hm).handsOver
  obtain ⟨hp, hdone⟩ := discarded_never_parked hparks hd (hs.quiet (by decide) hquiet)
  exact ⟨s, hparks, hd, hp, hdone hover (hs.unhandled (by decide) hr hpcs)⟩

set_option maxRecDepth 10000 in
/-- `cancel` is called while the chunk callback is running; the callback then answers
`PAUSE`, and the cancelled request is parked. -/
theorem cancelled_request_parks : ¬ ∀ (cfg : Config) (r : ReqId) (as : List Act) (s : Client),
    Client.Reaches cfg Runs.anyStep (Client.init cfg) as s → (s.slots r).state = .terminalDiscard →
    (s.view r).Quiet → (s.slots r).paused = false := by
  intro h
  have hrun : Client.after .small Runs.anyStep
      (inFirstChunk ++ cancelled 12 ++ pauseAnswered ++ Act.pop 0 :: List.replicate 6 (.worker 0))
      (fun s => (s.slots 1).state = .terminalDiscard ∧ s.allPcs 1 1 Pc.quiet = true ∧ (s.slots 1).paused = true)
      (fun _ => true) (Client.init .small) = true := by decide
  obtain ⟨s, hs, ⟨hd, hq, hp⟩, -⟩ := Client.of_after hrun
  exact nomatch hp.symm.trans (h .small 1 _ s hs hd (hs.quiet (by decide) hq))

end Hyper4k.Bridge
