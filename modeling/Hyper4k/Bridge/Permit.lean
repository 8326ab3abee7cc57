import Hyper4k.Runs.Observed
import Hyper4k.Bridge.Delivery

/-! The resume permit: it is meant for the chunk during which the resume was made. -/
namespace Hyper4k.Bridge
open Runs

/-- The worker is in a callback, or handles the action the callback returned, and has yet
to clear the permit. -/
def Pc.answering : Pc → Bool
  | .inCallback .. | .clearInCallback .. | .clearPermit _ | .swapPermit _ | .cancelPermit => true
  | _ => false

theorem Pc.owns_of_answering {pc : Pc} (h : pc.answering = true) : pc.owns = true := by
  cases pc <;> first | rfl | cases h

/-- How a step bears on the permit: it leaves it, clears it, or is the store of a resume. -/
inductive Slot.PermitStep (s : Slot) : Pc → Outcome → Prop
  | keep {pc : Pc} {o : Outcome} (permit : o.slot.permit = s.permit)
      (trace : pc.owns = false ∨ pc.answering = true → o.slot.trace = s.trace)
      (answering : pc.answering = true → o.pc.answering = true ∨ s.permit = false) : s.PermitStep pc o
  | clear {pc : Pc} {o : Outcome} (permit : o.slot.permit = false) : s.PermitStep pc o
  | store : s.PermitStep .resumePermit ⟨{ s with permit := true }, .returned .ok, .quiet⟩

theorem exec_permit {s : Slot} {pc : Pc} {o : Outcome} (h : s.exec pc = some o) : s.PermitStep pc o := by
  cases pc with
  | resumePermit =>
    cases h
    exact .store
  | clearPermit n | cancelPermit =>
    cases h
    exact .clear rfl
  | swapPermit n =>
    simp only [Slot.exec] at h
    split at h
    · cases h
      exact .clear rfl
    · rename_i hp
      cases h
      exact .keep rfl (fun _ => rfl) fun _ => .inr (by simpa using hp)
  | clearInCallback n action =>
    rcases action with _ | _ | _ | _ <;> cases h <;> exact .keep rfl (fun _ => rfl) fun _ => .inl rfl
  | deliver n ev =>
    have hout : ¬ ((Pc.deliver n ev).owns = false ∨ (Pc.deliver n ev).answering = true) := by
      rintro (h | h) <;> cases h
    simp only [Slot.exec] at h
    split at h <;> cases h <;> exact .keep rfl (fun h => absurd h hout) fun h => by cases h
  | deliverDone t =>
    have hout : ¬ ((Pc.deliverDone t).owns = false ∨ (Pc.deliverDone t).answering = true) := by
      rintro (h | h) <;> cases h
    cases h
    exact .keep rfl (fun h => absurd h hout) fun h => by cases h
  | _ =>
    simp only [Slot.exec] at h
    repeat' split at h
    all_goals first
      | (cases h; exact .keep rfl (fun _ => rfl) fun ha => by cases ha)
      | cases h

theorem Slot.Acts.permit {s : Slot} {pc : Pc} {o : Outcome} (h : s.Acts pc o) : s.PermitStep pc o := by
  refine h.rule exec_permit (fun h => ?_) fun p e hentry => ?_
  · cases h with
    | answered n ev a => exact .keep rfl (fun _ => rfl) fun _ => .inl rfl
    | received f => rcases f with (_ | _) | _ <;> exact .keep rfl (fun _ => rfl) fun ha => by cases ha
    | failed _ _ waits | aborted _ waits =>
      cases pc <;> first
        | (cases waits; done)
        | exact .keep rfl (fun _ => rfl) fun ha => by cases ha
    | _ => exact .keep rfl (fun _ => rfl) fun ha => by cases ha
  · exact .keep rfl (fun _ => rfl) fun ha => by cases ha

/-- A permit is there only while a callback is being answered, and only if `P` holds of
that callback's number. -/
def View.Permitted (P : Nat → Prop) (v : View) : Prop :=
  v.slot.permit = true → (∃ t, (v.pc t).answering = true) ∧ P v.slot.trace.length

theorem View.Permitted.step {P : Nat → Prop} {v w : View} {m : Move}
    (hok : ∀ t, m = .exec t → v.pc t = .resumePermit →
      (∃ u, (v.pc u).answering = true) ∧ P v.slot.trace.length)
    (hv : v.Permitted P) (hl : v.Locked) (h : v.Stepped m w) : w.Permitted P := by
  rcases h.acts with hw | ⟨t, o, ha, hm, hw⟩
  · rw [hw]
    exact hv
  · rw [hw]
    have hpermit := ha.permit
    intro hp
    generalize hpc : v.pc t = pc at hpermit
    cases hpermit with
    | keep permit trace answering =>
      have hold : v.slot.permit = true := permit.symm.trans hp
      obtain ⟨⟨u, hu⟩, hP⟩ := hv hold
      by_cases hut : u = t
      · have hanswers : pc.answering = true := by rw [← hpc, ← hut]; exact hu
        have hnext := (answering hanswers).resolve_right (by rw [hold]; exact Bool.noConfusion)
        refine ⟨exists_update_self (P := fun pc : Pc => pc.answering = true) hnext, ?_⟩
        show P o.slot.trace.length
        rw [trace (.inr hanswers)]
        exact hP
      · have hout : pc.owns = false := by
          rw [← hpc]
          exact Bool.eq_false_iff.mpr fun ho => hut (hl.sole u t (Pc.owns_of_answering hu) ho)
        refine ⟨exists_update_of_ne (P := fun pc : Pc => pc.answering = true) hut hu, ?_⟩
        show P o.slot.trace.length
        rw [trace (.inl hout)]
        exact hP
    | clear permit =>
      rw [show o.slot.permit = true from hp] at permit
      cases permit
    | store =>
      obtain ⟨⟨u, hu⟩, hP⟩ := hok t (hm (by rw [hpc]; rfl)) hpc
      refine ⟨exists_update_of_ne (P := fun pc : Pc => pc.answering = true) ?_ hu, hP⟩
      rintro rfl
      rw [hpc] at hu
      cases hu

/-- Every resume of request `r`: the call that made it, and how many callbacks had been
entered by then. The latest stands first. -/
abbrev Resumes := List (Nat × Nat)

def Client.noteResume (r : ReqId) (s : Client) (a : Act) (_ : Client) (o : Resumes) : Resumes :=
  match a with
  | .begin n (.resume q) => if q = r then (n, (s.slots r).trace.length) :: o else o
  | _ => o

/-- When a resume stores its permit, the callback entered last before it was made is still
the last one, and is still being answered. -/
def Client.StoresForOwn (r : ReqId) (p : Client × Resumes) (a : Act) : Prop :=
  ∀ t, p.1.moveOf r a = some (.exec t) → (p.1.view r).pc t = .resumePermit →
    (∃ u, ((p.1.view r).pc u).answering = true) ∧
    ∃ n, t = .call n ∧ p.2.lookup n = some (p.1.slots r).trace.length

/-- A run of the client in which the resumes of request `r` are noted. -/
abbrev Client.Noted (cfg : Config) (r : ReqId) (ok : Client × Resumes → Act → Prop) (as : List Act)
    (p : Client × Resumes) : Prop :=
  Runs.Run (Runs.observe (Client.step cfg) (Client.noteResume r)) ok (Client.init cfg, []) as p

private theorem noteResume_subset (r : ReqId) (s t : Client) (a : Act) (o : Resumes) :
    o ⊆ Client.noteResume r s a t o := by
  unfold Client.noteResume
  split
  · split
    · exact List.subset_cons_self _ _
    · exact List.Subset.refl o
  · exact List.Subset.refl o

def MadeSince (o : Resumes) (k : Nat) : Prop := ∃ e ∈ o, k ≤ e.2

private theorem noted_permitted {cfg : Config} {r : ReqId} {as : List Act} {p : Client × Resumes}
    (h : Client.Noted cfg r (Client.StoresForOwn r) as p) : (p.1.view r).Permitted (MadeSince p.2) := by
  have hend := Runs.Run.invariant (I := fun p : Client × Resumes =>
      p.1.Fresh ∧ (p.1.view r).Locked ∧ (p.1.view r).Permitted (MadeSince p.2)) h
    (fun p a q hok ⟨hf, hl, hp⟩ hstep => by
      obtain ⟨hmove, hnote⟩ := observe_eq_some hstep
      have hmore : ∀ k, MadeSince p.2 k → MadeSince q.2 k := fun k ⟨e, he, hk⟩ =>
        ⟨e, hnote ▸ noteResume_subset r p.1 q.1 a p.2 he, hk⟩
      have hshow := step_shows hf hmove r
      refine ⟨hf.step hmove, ?_⟩
      rcases hm : p.1.moveOf r a with _ | m
      · rw [hm] at hshow
        rw [show q.1.view r = p.1.view r from hshow]
        exact ⟨hl, fun hpermit => (hp hpermit).imp_right (hmore _)⟩
      · rw [hm] at hshow
        have hstepped := View.step_cases hshow
        refine ⟨hl.step hstepped, fun hpermit => ?_⟩
        refine (View.Permitted.step (fun t ht hpc => ?_) hp hl hstepped hpermit).imp_right (hmore _)
        obtain ⟨hanswer, n, -, hlookup⟩ := hok t (ht ▸ hm) hpc
        obtain ⟨l₁, l₂, hsplit, -⟩ := List.lookup_eq_some_iff.mp hlookup
        refine ⟨hanswer, (n, (p.1.slots r).trace.length), ?_, Nat.le_refl _⟩
        rw [hsplit]
        exact List.mem_append_right _ List.mem_cons_self)
    ⟨Client.Fresh.init cfg, by rw [view_init]; exact View.Locked.init _ _, fun hpermit => by cases hpermit⟩
  exact hend.2.2

/-- A worker's instruction, as a step of the client. -/
private theorem worker_exec (cfg : Config) {r : ReqId} {s : Client} {w : Nat} {pc : Pc} {o : Outcome}
    (hw : s.workers w = some (r, pc)) (ho : (s.slots r).exec pc = some o) (hpc : o.pc ≠ .away) :
    ∃ t, s.step cfg (.worker w) = some t ∧ t.workers w = some (r, o.pc) ∧ t.slots r = o.slot := by
  refine ⟨(s.commit r o).setWorker w r o.pc, ?_, ?_, ?_⟩
  · simp only [Client.step, hw, ho, Option.map_some]
  · simp [Client.setWorker, hpc]
  · simp [Client.setWorker, Client.commit]

/-- A worker that finds no permit parks the request with its next two steps. -/
private theorem parks_of_no_permit {cfg : Config} {r : ReqId} {s : Client} {w k : Nat}
    (hpause : (s.view r).pc (.worker w) = .swapPermit k) (hpermit : (s.slots r).permit = false) :
    ∃ t, Client.Reaches cfg Runs.anyStep s [.worker w, .worker w] t ∧ (t.slots r).paused = true := by
  have hworker : s.workers w = some (r, .swapPermit k) := by
    simp only [Client.view, Client.pcOn, workerPcOn] at hpause
    split at hpause
    · rename_i q pc hq
      split at hpause
      · rename_i hqr
        rw [hq, hqr, hpause]
      · cases hpause
    · cases hpause
  have hswap : (s.slots r).exec (.swapPermit k) = some ⟨s.slots r, .enterPause, .quiet⟩ := by
    simp only [Slot.exec, hpermit, Bool.false_eq_true, if_false]
  obtain ⟨t, hfirst, hw, -⟩ := worker_exec cfg hworker hswap Pc.noConfusion
  obtain ⟨u, hsecond, -, hslot⟩ := worker_exec cfg (o := ⟨{ t.slots r with paused := true }, .newGuard, .quiet⟩) hw rfl
    Pc.noConfusion
  refine ⟨u, .cons trivial hfirst (.cons trivial hsecond (.nil u)), ?_⟩
  rw [hslot]

/-- A pause that a callback asks for takes effect if no resume was made since the callback
was entered, provided that every resume stores its permit while the callback during which
it was made is being answered. -/
theorem permit_for_one_chunk {cfg : Config} {r : ReqId} {as : List Act} {s : Client} {o : Resumes} {w k : Nat}
    (h : Client.Noted cfg r (Client.StoresForOwn r) as (s, o))
    (hpause : (s.view r).pc (.worker w) = .swapPermit k)
    (hnone : ∀ e ∈ o, e.2 < (s.slots r).trace.length) :
    ∃ t, Client.Reaches cfg Runs.anyStep s [.worker w, .worker w] t ∧ (t.slots r).paused = true := by
  refine parks_of_no_permit hpause (Bool.eq_false_iff.mpr fun hp => ?_)
  obtain ⟨-, e, he, hk⟩ := noted_permitted h hp
  exact absurd (hnone e he) (Nat.not_lt.mpr hk)

def resumedInFirst : List Act :=
  inFirstChunk ++ Act.taskEnv 1 (.frame (.data [8])) :: List.replicate 9 (.task 1) ++ [Act.begin 0 (.resume 1), .call 0]

def secondPauses : List Act := List.replicate 6 (Act.worker 0) ++ [Act.workerEnv 0 (.action .pause), .worker 0]

/-- Whoever stores a permit is call 0, for the callback that worker 0 is answering. -/
def View.StoresInTime (o : Resumes) (v : View) : Move → Prop
  | .exec t => v.pc t = .resumePermit →
      (v.pc (.worker 0)).answering = true ∧ t = .call 0 ∧ o.lookup 0 = some v.slot.trace.length
  | _ => True

instance (o : Resumes) (v : View) : (m : Move) → Decidable (v.StoresInTime o m)
  | .exec t => inferInstanceAs (Decidable (v.pc t = .resumePermit →
      (v.pc (.worker 0)).answering = true ∧ t = .call 0 ∧ o.lookup 0 = some v.slot.trace.length))
  | .env _ _ | .pop _ | .enter _ _ | .spawn _ | .setAbort => inferInstanceAs (Decidable True)

def secondAsksPause (p : Client × Resumes) : Prop :=
  (p.1.view 1).pc (.worker 0) = .swapPermit 5 ∧ p.2 = [(0, 2)] ∧ (p.1.slots 1).trace.length = 3

instance (p : Client × Resumes) : Decidable (secondAsksPause p) := inferInstanceAs (Decidable (_ ∧ _))

theorem secondAsksPause.before {p : Client × Resumes} (h : secondAsksPause p) :
    ∀ e ∈ p.2, e.2 < (p.1.slots 1).trace.length := by
  obtain ⟨-, hnotes, hlen⟩ := h
  intro e he
  rw [hnotes, List.mem_singleton] at he
  rw [he, hlen]
  exact Nat.lt_succ_self 2

set_option maxRecDepth 10000 in
/-- The resume of the first chunk takes back that chunk's pause and no other. -/
theorem permit_for_one_chunk_second : ∃ (s : Client) (o : Resumes),
    Client.Noted .small 1 (Client.StoresForOwn 1)
      (resumedInFirst ++ List.replicate 4 (Act.call 0) ++ Act.workerEnv 0 (.action .pause) ::
        List.replicate 2 (.worker 0) ++ secondPauses) (s, o) ∧
    (s.view 1).pc (.worker 0) = .swapPermit 5 ∧ o = [(0, 2)] ∧
    ∃ t, Client.Reaches .small Runs.anyStep s [.worker 0, .worker 0] t ∧ (t.slots 1).paused = true := by
  have hrun : (Runs.replay (Runs.observe (Client.step .small) (Client.noteResume 1))
      (fun p => Client.On 1 (View.StoresInTime p.2) p.1) (Client.init .small, [])
      (resumedInFirst ++ List.replicate 4 (Act.call 0) ++ Act.workerEnv 0 (.action .pause) ::
        List.replicate 2 (.worker 0) ++ secondPauses)).any (fun p => decide (secondAsksPause p)) = true := by decide
  obtain ⟨⟨s, o⟩, hp, hend⟩ := (Option.any_eq_true _ _).mp hrun
  have hasks := of_decide_eq_true hend
  have hnoted : Client.Noted .small 1 (Client.StoresForOwn 1) _ (s, o) :=
    (Runs.run_of_replay hp).mono fun p a hok t hm hpc => by
      obtain ⟨hanswer, hcall, hlookup⟩ := hok _ hm hpc
      exact ⟨⟨.worker 0, hanswer⟩, 0, hcall, hlookup⟩
  exact ⟨s, o, hnoted, hasks.1, hasks.2.1, permit_for_one_chunk hnoted hasks.1 hasks.before⟩

set_option maxRecDepth 10000 in
/-- The resume reads `in_callback` during the first chunk and stores its permit after that
chunk's permit was cleared. The pause of the second chunk is lost to it. -/
theorem stale_permit_cancels_pause : ¬ ∀ (cfg : Config) (r : ReqId) (as : List Act) (s : Client) (o : Resumes)
    (w k : Nat), Client.Noted cfg r Runs.anyStep as (s, o) → (s.view r).pc (.worker w) = .swapPermit k →
    (∀ e ∈ o, e.2 < (s.slots r).trace.length) →
    ∃ t, Client.Reaches cfg Runs.anyStep s [.worker w, .worker w] t ∧ (t.slots r).paused = true := by
  intro h
  have hrun : (Runs.replay (Runs.observe (Client.step .small) (Client.noteResume 1)) Runs.anyStep
      (Client.init .small, [])
      (resumedInFirst ++ List.replicate 2 (Act.call 0) ++ Act.workerEnv 0 (.action .cont) ::
        List.replicate 2 (.worker 0) ++ Act.call 0 :: secondPauses)).any
      (fun p => decide (secondAsksPause p) && Client.after .small Runs.anyStep [.worker 0, .worker 0]
        (fun t => (t.slots 1).paused = false) (fun _ => true) p.1) = true := by decide
  obtain ⟨⟨s, o⟩, hp, hend⟩ := (Option.any_eq_true _ _).mp hrun
  obtain ⟨hasks, hafter⟩ := Bool.and_eq_true_iff.mp hend
  have hasks := of_decide_eq_true hasks
  obtain ⟨u, hu, hunparked, -⟩ := Client.of_after hafter
  obtain ⟨t, ht, hparked⟩ := h .small 1 _ s o 0 5 (Runs.run_of_replay hp) hasks.1 hasks.before
  rw [hu.deterministic ht, hparked] at hunparked
  cases hunparked

end Hyper4k.Bridge
