import Hyper4k.Bridge.Registry

/-! How a request becomes known to other threads: `send` registers it, writes its id for the
caller, and spawns its task, in this order. -/
namespace Hyper4k.Bridge
open Runs

def SendPc.written : SendPc → Option ReqId
  | .spawn id | .setAbort id => some id
  | _ => none

inductive SendPc.Next (s : Client) : SendPc → SendPc → Prop
  | admitted (h : s.closed = false) : Next s .loadClosed .fetchId
  | draw : Next s .fetchId (.addInflight s.nextId)
  | crowded (id : ReqId) : Next s (.addInflight id) .undoInflight
  | reserve (id : ReqId) : Next s (.addInflight id) (.addBytes id)
  | large (id : ReqId) : Next s (.addBytes id) .undoBytes
  | enter (id : ReqId) : Next s (.addBytes id) (.enterBridges id)
  | undo : Next s .undoBytes .undoInflight
  | register (id : ReqId) : Next s (.enterBridges id) (.insert id)
  | write (id : ReqId) : Next s (.insert id) (.writeId id)
  | spawn (id : ReqId) : Next s (.writeId id) (.spawn id)
  | store (id : ReqId) : Next s (.spawn id) (.setAbort id)

theorem send_goes {cfg : Config} {s : Client} {n : Nat} {args args' : SendArgs} {pc pc' : SendPc}
    (h : (s.send cfg n args pc).calls n = .sending args' pc') : SendPc.Next s pc pc' := by
  cases pc with
  | loadClosed =>
    simp only [Client.send, Client.setCall, Function.update_self] at h
    split at h
    · cases h
    · rename_i hopen
      split at h <;> cases h
      exact .admitted (Bool.eq_false_iff.mpr hopen)
  | addInflight id =>
    simp only [Client.send, Client.setCall, Function.update_self] at h
    split at h <;> cases h
    · exact .crowded id
    · exact .reserve id
  | addBytes id =>
    simp only [Client.send, Client.setCall, Function.update_self] at h
    split at h <;> cases h
    · exact .large id
    · exact .enter id
  | _ =>
    simp only [Client.send, Client.setCall, Function.update_self] at h
    cases h
    try constructor

/-- Where a `send` in progress was before the step. -/
theorem step_sending {cfg : Config} {s t : Client} {a : Act} (h : s.step cfg a = some t) {n : Nat} {args : SendArgs}
    {pc : SendPc} (hn : t.calls n = .sending args pc) :
    (s.calls n = .sending args pc ∧ a ≠ .call n) ∨ pc = .loadClosed ∨
      ∃ args' pc', a = .call n ∧ s.calls n = .sending args' pc' ∧ t = s.send cfg n args' pc' := by
  by_cases hcall : ∃ m, a = .call m
  · obtain ⟨m, rfl⟩ := hcall
    by_cases hmn : n = m
    · subst hmn
      by_cases hs : ∃ args' pc', s.calls n = .sending args' pc'
      · obtain ⟨args', pc', hs⟩ := hs
        simp only [Client.step, Client.advance, hs, Option.some.injEq] at h
        exact .inr (.inr ⟨args', pc', rfl, hs, h.symm⟩)
      · exact absurd hn (advance_not_sending h (fun args' pc' hs' => hs ⟨args', pc', hs'⟩) args pc)
    · rw [(advance_threads hmn h).2] at hn
      exact .inl ⟨hn, fun ha => hmn (by cases ha; rfl)⟩
  · rcases (step_calls h fun m hm => hcall ⟨m, hm⟩).2 n with he | ⟨-, api, -, he⟩
    · exact .inl ⟨he ▸ hn, fun ha => hcall ⟨n, ha⟩⟩
    · rw [he] at hn
      cases api <;> cases hn
      exact .inr (.inl rfl)

@[simp] theorem apply_outIds (s : Client) (q : ReqId) (e : Effect) : (s.apply q e).outIds = s.outIds := by
  cases e <;> simp only [Client.apply, Client.addPaused] <;> split <;> rfl

theorem step_outIds {cfg : Config} {s t : Client} {a : Act} (h : s.step cfg a = some t) {id : ReqId}
    (hid : id ∈ s.outIds) : id ∈ t.outIds := by
  cases Client.step_cases h with
  | pop | begin => exact hid
  | worker | workerEnv => simpa [Client.setWorker, Client.commit] using hid
  | task | taskEnv => simpa [Client.setTask, Client.commit] using hid
  | call n _ h =>
    cases Client.advance_cases h with
    | send args pc =>
      cases pc with
      | writeId id' => exact List.mem_append_left _ hid
      | _ => exact hid
    | act q o c => simpa [Client.setCall, Client.commit] using hid
    | close | move => exact hid

/-- How the threads of a request come to it. -/
inductive Client.Arrives (s : Client) (r : ReqId) : Act → Move → Prop
  | spawned {n : Nat} {args : SendArgs} {pc : SendPc} {m : Move} (hc : s.calls n = .sending args pc)
      (hpc : pc.written = some r) : s.Arrives r (.call n) m
  | found {n : Nat} {e : Entry} (hr : r ∈ s.requests) : s.Arrives r (.call n) (.enter n e)
  | popped (n : Nat) : s.Arrives r (.pop n) (.pop n)
  | works {a : Act} {t : Tid} (hcall : ∀ n, t = .call n → a = .call n ∧
      ((∃ pc, s.calls n = .request r pc) ∨ ∃ pc todo free, s.calls n = .closingOn r pc todo free)) :
      s.Arrives r a (.exec t)
  | decided {a : Act} {t : Tid} {c : Choice} : s.Arrives r a (.env t c)

theorem Client.moveOf_cases {s : Client} {r : ReqId} {a : Act} {m : Move} (h : s.moveOf r a = some m) :
    s.Arrives r a m := by
  cases a with
  | pop n =>
    simp only [Client.moveOf] at h
    split at h <;> cases h
    exact .popped n
  | worker n =>
    simp only [Client.moveOf] at h
    split at h
    · split at h <;> cases h
      exact .works fun _ ht => (by cases ht)
    · cases h
  | workerEnv n c =>
    simp only [Client.moveOf] at h
    split at h
    · split at h <;> cases h
      exact .decided
    · cases h
  | task q =>
    simp only [Client.moveOf] at h
    split at h <;> cases h
    exact .works fun _ ht => (by cases ht)
  | taskEnv q c =>
    simp only [Client.moveOf] at h
    split at h <;> cases h
    exact .decided
  | begin n api => cases h
  | call n =>
    rcases hc : s.calls n with _ | ⟨args, pc⟩ | ⟨q, e⟩ | ⟨q, pc⟩ | free | free | ⟨_ | ⟨q, todo⟩, free⟩ |
      ⟨q, pc, todo, free⟩ | _ | status <;> simp only [Client.moveOf, hc] at h
    case sending =>
      cases pc with
      | spawn q | setAbort q =>
        simp only at h
        split at h <;> cases h
        rename_i hq
        exact .spawned hc (hq ▸ rfl)
      | _ => cases h
    case lookup | closing.cons =>
      split at h <;> cases h
      rename_i hq
      exact .found (hq.1 ▸ hq.2)
    case request =>
      split at h <;> cases h
      rename_i hq
      refine .works fun k hk => ?_
      cases hk
      exact ⟨rfl, .inl ⟨pc, hq ▸ hc⟩⟩
    case closingOn =>
      split at h <;> cases h
      rename_i hq
      refine .works fun k hk => ?_
      cases hk
      exact ⟨rfl, .inr ⟨pc, todo, free, hq ▸ hc⟩⟩
    all_goals cases h

/-- A call has looked at the request and done nothing to it, unless it claims it next. -/
def Pc.looks : Pc → Bool
  | .away | .resumePaused | .resumeInCallback | .resumeState | .cancelState | .claim .. | .returned _ => true
  | _ => false

def Pc.claims : Pc → Bool
  | .claim .. => true
  | _ => false

structure View.Untouched (v : View) : Prop where
  state : v.slot.state = .running
  unpaused : v.slot.paused = false
  outside : v.slot.inCallback = false
  ready : v.ready = 0
  looks : ∀ t, v.pc t = .away ∨ ∃ n, t = .call n ∧ (v.pc t).looks = true

section Untouched
variable {v w : View} {m : Move}

theorem View.Untouched.init (onChunk : Bool) (queueCapacity : Nat) : (View.init onChunk queueCapacity).Untouched :=
  ⟨rfl, rfl, rfl, rfl, fun _ => .inl rfl⟩

theorem View.Untouched.looking (hv : v.Untouched) (t : Tid) : (v.pc t).looks = true := by
  rcases hv.looks t with ht | ⟨n, -, ht⟩
  · rw [ht]
    rfl
  · exact ht

private theorem exec_looks {s : Slot} {pc : Pc} {o : Outcome} (h : s.exec pc = some o) (hpc : pc.looks = true)
    (hclaim : pc.claims = false) (hstate : s.state = .running) (hpaused : s.paused = false)
    (hout : s.inCallback = false) : o.slot = s ∧ o.effect = .quiet ∧ o.pc.looks = true := by
  cases pc with
  | resumePaused =>
    simp only [Slot.exec, hpaused, Bool.false_eq_true, if_false] at h
    cases h
    exact ⟨rfl, rfl, rfl⟩
  | resumeInCallback =>
    simp only [Slot.exec, hout, Bool.false_eq_true, if_false] at h
    cases h
    exact ⟨rfl, rfl, rfl⟩
  | resumeState | cancelState =>
    simp only [Slot.exec, hstate, if_true] at h
    cases h
    exact ⟨rfl, rfl, rfl⟩
  | returned =>
    cases h
    exact ⟨rfl, rfl, rfl⟩
  | claim => cases hclaim
  | away => cases h
  | _ => cases hpc

private theorem env_not_looking {s : Slot} {pc : Pc} {o : Outcome} (h : s.EnvStep pc o) : pc.looks = false := by
  cases h with
  | failed _ _ waits | aborted _ waits => cases pc <;> first | rfl | cases waits
  | _ => rfl

private theorem claim_trace {s : Slot} {pc : Pc} {o : Outcome} (h : s.exec pc = some o) (hpc : pc.claims = true) :
    o.slot.trace = s.trace := by
  cases pc with
  | claim c t discard =>
    simp only [Slot.exec] at h
    repeat' split at h
    all_goals cases h; rfl
  | _ => cases hpc

/-- A request that nobody claims, and that gets no task, stays untouched. -/
theorem View.Untouched.step (hv : v.Untouched) (h : v.Stepped m w)
    (hclaim : ∀ t, m = .exec t → (v.pc t).claims = false) (hm : ∀ a, m ≠ .spawn a) : w.Untouched := by
  cases h with
  | exec t o h =>
    obtain ⟨hslot, heffect, hpc⟩ :=
      exec_looks h (hv.looking t) (hclaim t rfl) hv.state hv.unpaused hv.outside
    have hcall : ∃ n, t = .call n := by
      rcases hv.looks t with ht | ⟨n, hn, -⟩
      · rw [ht] at h
        cases h
      · exact ⟨n, hn⟩
    refine ⟨?_, ?_, ?_, ?_, ?_⟩
    · rw [show (v.put t o).slot = v.slot from hslot]
      exact hv.state
    · rw [show (v.put t o).slot = v.slot from hslot]
      exact hv.unpaused
    · rw [show (v.put t o).slot = v.slot from hslot]
      exact hv.outside
    · change v.ready + o.effect.pushes = 0
      rw [heffect, hv.ready]
      rfl
    · exact forall_update (Q := fun u (pc : Pc) => pc = .away ∨ ∃ n, u = .call n ∧ pc.looks = true)
        (.inr (hcall.imp fun n hn => ⟨hn, hpc⟩)) fun u _ => hv.looks u
  | env t c o h =>
    have hlook := hv.looking t
    rw [env_not_looking h] at hlook
    cases hlook
  | pop n k _ hk =>
    rw [hv.ready] at hk
    cases hk
  | enter n e =>
    refine ⟨hv.state, hv.unpaused, hv.outside, hv.ready, ?_⟩
    refine forall_update (Q := fun u (pc : Pc) => pc = .away ∨ ∃ n, u = .call n ∧ pc.looks = true)
      (.inr ⟨n, rfl, ?_⟩) fun u _ => hv.looks u
    cases e <;> rfl
  | spawn a => exact absurd rfl (hm a)
  | setAbort => exact ⟨hv.state, hv.unpaused, hv.outside, hv.ready, hv.looks⟩

/-- No callback of an untouched request starts. -/
theorem View.Untouched.trace (hv : v.Untouched) (h : v.Stepped m w) : w.slot.trace = v.slot.trace := by
  cases h with
  | exec t o h =>
    by_cases hc : (v.pc t).claims = true
    · exact claim_trace h hc
    · have hclaim := Bool.eq_false_iff.mpr hc
      exact congrArg Slot.trace (exec_looks h (hv.looking t) hclaim hv.state hv.unpaused hv.outside).1
  | env t c o h =>
    have hlook := hv.looking t
    rw [env_not_looking h] at hlook
    cases hlook
  | _ => rfl

end Untouched

def Call.claims : Call → Option ReqId
  | .request r pc | .closingOn r pc _ _ => if pc.claims then some r else none
  | _ => none

/-- A `cancel` or `close` claims only requests whose id `send` has written. -/
def Client.ClaimsWritten (s : Client) : Act → Prop
  | .call n => ∀ r ∈ (s.calls n).claims, r ∈ s.outIds
  | _ => True

instance (s : Client) : (a : Act) → Decidable (s.ClaimsWritten a)
  | .call n => inferInstanceAs (Decidable (∀ r ∈ (s.calls n).claims, r ∈ s.outIds))
  | .pop _ | .worker _ | .workerEnv _ _ | .task _ | .taskEnv _ _ | .begin _ _ => inferInstanceAs (Decidable True)

/-- A request gets its task, and anything else, after its id was written. -/
structure Client.Announced (s : Client) : Prop where
  fresh : s.Fresh
  sends : ∀ n args pc id, s.calls n = .sending args pc → pc.written = some id → id ∈ s.outIds
  untouched : ∀ r, r ∉ s.outIds → (s.view r).Untouched

theorem Client.Announced.init (cfg : Config) : (Client.init cfg).Announced where
  fresh := .init cfg
  sends _ _ _ _ h := by cases h
  untouched r _ := by
    rw [view_init]
    exact .init _ _

/-- A request without a written id has no task spawned for it, and its claims are guarded. -/
private theorem Announced.untouched_step {cfg : Config} {s t : Client} {a : Act} (hs : s.Announced)
    (hok : s.ClaimsWritten a) (h : s.step cfg a = some t) {r : ReqId} (hr : r ∉ s.outIds) : (t.view r).Untouched := by
  have hshow := step_shows hs.fresh h r
  rcases hm : s.moveOf r a with _ | m
  · rw [hm] at hshow
    rw [show t.view r = s.view r from hshow]
    exact hs.untouched r hr
  · rw [hm] at hshow
    refine (hs.untouched r hr).step (View.step_cases hshow) ?_ ?_
    · rintro u rfl
      rw [Bool.eq_false_iff]
      intro hclaim
      cases Client.moveOf_cases hm with
      | spawned hc hpc => exact hr (hs.sends _ _ _ r hc hpc)
      | works hcall =>
        rcases (hs.untouched r hr).looks u with hu | ⟨n, rfl, -⟩
        · rw [hu] at hclaim
          cases hclaim
        · obtain ⟨rfl, hat⟩ := hcall n rfl
          refine hr (hok r ?_)
          rcases hat with ⟨pc, hpc⟩ | ⟨pc, todo, free, hpc⟩
          all_goals
            have hview : (s.view r).pc (.call n) = pc := by simp [Client.view, Client.pcOn, hpc, Call.pcOn]
            rw [hview] at hclaim
            rw [hpc, Call.claims, if_pos hclaim]
            rfl
    · rintro b rfl
      cases Client.moveOf_cases hm with
      | spawned hc hpc => exact hr (hs.sends _ _ _ r hc hpc)

theorem Client.Announced.step {cfg : Config} {s t : Client} {a : Act} (hs : s.Announced) (hok : s.ClaimsWritten a)
    (h : s.step cfg a = some t) : t.Announced := by
  refine ⟨hs.fresh.step h, fun n args pc id hn hpc => ?_, fun r hr => ?_⟩
  · rcases step_sending h hn with ⟨hold, -⟩ | rfl | ⟨args', pc', -, hc, rfl⟩
    · exact step_outIds h (hs.sends n args pc id hold hpc)
    · cases hpc
    · cases send_goes hn with
      | spawn id' =>
        cases hpc
        exact List.mem_append_right _ (List.mem_singleton_self id)
      | store id' => exact step_outIds h (hs.sends n args' _ id hc hpc)
      | _ => cases hpc
  · exact Announced.untouched_step hs hok h fun hold => hr (step_outIds h hold)

/-- `*out_request_id` precedes every event: in every run in which `cancel` and `close` claim only
requests whose id is written, a step that starts a callback of a request finds its id written. -/
theorem id_written_before_callbacks {cfg : Config} {as : List Act} {s t : Client} {a : Act} {r : ReqId}
    (h : Client.Reaches cfg Client.ClaimsWritten (Client.init cfg) as s) (hstep : s.step cfg a = some t)
    (hstart : (t.slots r).trace ≠ (s.slots r).trace) : r ∈ s.outIds := by
  have hs : s.Announced := Run.invariant h (fun _ _ _ hok hs hm => hs.step hok hm) (.init cfg)
  by_contra hr
  apply hstart
  have hshow := step_shows hs.fresh hstep r
  rcases hm : s.moveOf r a with _ | m
  · rw [hm] at hshow
    exact congrArg (fun v : View => v.slot.trace) hshow
  · rw [hm] at hshow
    exact (hs.untouched r hr).trace (View.step_cases hshow)

set_option maxRecDepth 10000 in
theorem id_written_before_headers : ∃ as s t, Client.Reaches .small Client.ClaimsWritten (Client.init .small) as s ∧
    s.step .small (.worker 0) = some t ∧ (t.slots 1).trace = [.onHeaders 200 1 []] ∧ 1 ∈ s.outIds := by
  have hrun : (replay (Client.step .small) Client.ClaimsWritten (Client.init .small)
      (headQueued ++ Act.pop 0 :: List.replicate 8 (.worker 0))).any (fun s => (s.step .small (.worker 0)).any fun t =>
        decide ((s.slots 1).trace = [] ∧ (t.slots 1).trace = [.onHeaders 200 1 []])) = true := by decide
  obtain ⟨s, hs, hnext⟩ := (Option.any_eq_true _ _).mp hrun
  obtain ⟨t, ht, hend⟩ := (Option.any_eq_true _ _).mp hnext
  obtain ⟨hbefore, hafter⟩ := of_decide_eq_true hend
  have hreach := run_of_replay hs
  refine ⟨_, s, t, hreach, ht, hafter, id_written_before_callbacks hreach ht ?_⟩
  rw [hbefore, hafter]
  exact List.cons_ne_nil _ _

def closedBeforeWrite : List Act :=
  Act.begin 0 (.send ⟨none, 10, ⟨false, 0⟩⟩) :: List.replicate 6 (.call 0) ++
    Act.begin 1 .close :: List.replicate 10 (.call 1) ++ Act.pop 0 :: List.replicate 8 (.worker 0)

set_option maxRecDepth 10000 in
/-- `close` settles a request between its registration and the write of its id, so `OnDone` is
called with an id that the caller of `send` has not been told. -/
theorem done_before_id_written : ∃ as s t, Client.Reaches .small anyStep (Client.init .small) as s ∧
    s.step .small (.worker 0) = some t ∧ (s.slots 1).trace = [] ∧
    (t.slots 1).trace = [.onDone (some { kind := .cancelled, message := "client closed" })] ∧ 1 ∉ s.outIds := by
  have hrun : (replay (Client.step .small) anyStep (Client.init .small) closedBeforeWrite).any
      (fun s => (s.step .small (.worker 0)).any fun t => decide ((s.slots 1).trace = [] ∧
        (t.slots 1).trace = [.onDone (some { kind := .cancelled, message := "client closed" })] ∧
        1 ∉ s.outIds)) = true := by decide
  obtain ⟨s, hs, hnext⟩ := (Option.any_eq_true _ _).mp hrun
  obtain ⟨t, ht, hend⟩ := (Option.any_eq_true _ _).mp hnext
  exact ⟨_, s, t, run_of_replay hs, ht, of_decide_eq_true hend⟩

end Hyper4k.Bridge
