import Hyper4k.Bridge.Parking

/-! `resume` against the delivery of a chunk: a resume that reports success is not
undone by the pause the same chunk asked for. -/
namespace Hyper4k.Bridge
open Runs

/-- The current callback may still park the request. -/
def Pc.armed : Pc → Bool
  | .inCallback .. | .clearInCallback _ (some .pause) | .swapPermit _ | .enterPause => true
  | _ => false

theorem Pc.unparked_of_armed {pc : Pc} (h : pc.armed = true) : pc.unparked = true := by
  cases pc <;> first | rfl | cases h

/-- How a step bears on the pause of the current callback: from outside it, within it,
or by parking. Only a new callback can arm a thread. -/
inductive Slot.ArmStep (s : Slot) : Pc → Outcome → Prop
  | outside {pc : Pc} {o : Outcome} (unarmed : pc.armed = false)
      (paused : o.slot.paused = true → s.paused = true) (trace : s.trace.length ≤ o.slot.trace.length)
      (armed : o.pc.armed = true → s.trace.length < o.slot.trace.length)
      (permit : s.permit = true → o.slot.permit = true ∨ pc.owns = true) : s.ArmStep pc o
  | within {pc : Pc} {o : Outcome} (armed : pc.armed = true) (paused : o.slot.paused = s.paused)
      (trace : o.slot.trace = s.trace) (permit : o.pc.armed = true → o.slot.permit = s.permit)
      (park : pc ≠ .enterPause ∧ (o.pc = .enterPause → s.permit = false)) : s.ArmStep pc o
  | park : s.ArmStep .enterPause ⟨{ s with paused := true }, .newGuard, .quiet⟩

theorem exec_arm {s : Slot} {pc : Pc} {o : Outcome} (h : s.exec pc = some o) : s.ArmStep pc o := by
  cases pc with
  | enterPause =>
    cases h
    exact .park
  | swapPermit n =>
    simp only [Slot.exec] at h
    split at h
    · cases h
      exact .within rfl rfl rfl (fun ha => by cases ha) ⟨Pc.noConfusion, fun he => by cases he⟩
    · rename_i hp
      cases h
      exact .within rfl rfl rfl (fun _ => rfl) ⟨Pc.noConfusion, fun _ => by simpa using hp⟩
  | clearInCallback n action =>
    rcases action with _ | _ | _ | _
    case some.pause =>
      cases h
      exact .within rfl rfl rfl (fun _ => rfl) ⟨Pc.noConfusion, fun he => by cases he⟩
    all_goals
      cases h
      exact .outside rfl id (Nat.le_refl _) (fun ha => by cases ha) .inl
  | deliver n ev =>
    simp only [Slot.exec] at h
    split at h <;> cases h
    · exact .outside rfl id (by simp) (fun _ => by simp) .inl
    · exact .outside rfl id (Nat.le_refl _) (fun ha => by cases ha) .inl
  | deliverDone t =>
    cases h
    exact .outside rfl id (by simp) (fun ha => by cases ha) .inl
  | clearPermit n | cancelPermit =>
    cases h
    exact .outside rfl id (Nat.le_refl _) (fun ha => by cases ha) fun _ => .inr rfl
  | resumePermit =>
    cases h
    exact .outside rfl id (Nat.le_refl _) (fun ha => by cases ha) fun _ => .inl rfl
  | leavePause k =>
    cases h
    exact .outside rfl (fun hp => by cases hp) (Nat.le_refl _) (fun ha => by cases ha) .inl
  | _ =>
    simp only [Slot.exec] at h
    repeat' split at h
    all_goals first
      | (cases h; exact .outside rfl id (Nat.le_refl _) (fun ha => by cases ha) .inl)
      | cases h

theorem Slot.Acts.arm {s : Slot} {pc : Pc} {o : Outcome} (h : s.Acts pc o) : s.ArmStep pc o := by
  refine h.rule exec_arm (fun h => ?_) fun p e hentry => ?_
  · cases h with
    | received f => rcases f with (_ | _) | _ <;> exact .outside rfl id (Nat.le_refl _) (fun ha => by cases ha) .inl
    | answered n ev a => exact .within rfl rfl rfl (fun _ => rfl) ⟨Pc.noConfusion, fun he => by cases he⟩
    | failed _ _ waits | aborted _ waits =>
      cases pc <;> first
        | (cases waits; done)
        | exact .outside rfl id (Nat.le_refl _) (fun ha => by cases ha) .inl
    | _ => exact .outside rfl id (Nat.le_refl _) (fun ha => by cases ha) .inl
  · cases hentry <;> exact .outside rfl id (Nat.le_refl _) (fun ha => by cases ha) .inl

/-- The pause of the current callback can no longer take effect. -/
structure View.Safe (v : View) : Prop where
  unparked : v.slot.paused = false
  permitted : ∀ t, (v.pc t).armed = true → v.slot.permit = true ∧ v.pc t ≠ .enterPause

/-- Since the callback numbered `k` started, another one has, or its pause is void. -/
def View.Kept (k : Nat) (v : View) : Prop := k < v.slot.trace.length ∨ k = v.slot.trace.length ∧ v.Safe

/-- Since the callback numbered `k` started, another one has, or it has parked already. -/
def View.Spent (k : Nat) (v : View) : Prop :=
  k < v.slot.trace.length ∨ k = v.slot.trace.length ∧ Nowhere (fun pc => pc.armed = true) v.pc

section Steps
variable {k : Nat} {v w : View} {m : Move} (hl : v.Locked) (h : v.Stepped m w)
include hl h

omit h in
private theorem armed_sole {t u : Tid} (ht : (v.pc t).owns = true) (hu : (v.pc u).armed = true) : u = t :=
  hl.sole u t (Pc.owns_of_unparked (Pc.unparked_of_armed hu)) ht

theorem View.Kept.step (hv : v.Kept k) : w.Kept k := by
  rcases h.acts with hw | ⟨t, o, ha, -, hw⟩
  · rw [hw]
    rcases hv with hlt | ⟨heq, hs⟩
    · exact .inl hlt
    · exact .inr ⟨heq, hs.unparked, hs.permitted⟩
  · rw [hw]
    have harm := ha.arm
    generalize hpc : v.pc t = pc at harm
    cases harm with
    | outside unarmed paused trace armed permit =>
      rcases hv with hlt | ⟨heq, hs⟩
      · exact .inl (Nat.lt_of_lt_of_le hlt trace)
      · by_cases hgrew : v.slot.trace.length < o.slot.trace.length
        · exact .inl (heq ▸ hgrew)
        · refine .inr ⟨heq.trans (Nat.le_antisymm trace (Nat.not_lt.mp hgrew)), ?_, ?_⟩
          · exact Bool.eq_false_iff.mpr fun hp => Bool.eq_false_iff.mp hs.unparked (paused hp)
          · refine forall_update (Q := fun _ (pc : Pc) => pc.armed = true → o.slot.permit = true ∧ pc ≠ .enterPause)
              (fun hp => absurd (armed hp) hgrew) fun u hut hu => ?_
            obtain ⟨hpermit, hne⟩ := hs.permitted u hu
            refine ⟨(permit hpermit).resolve_right fun ho => hut ?_, hne⟩
            exact armed_sole hl (hpc ▸ ho) hu
    | within armed paused trace permit park =>
      rw [View.Kept, trace]
      rcases hv with hlt | ⟨heq, hs⟩
      · exact .inl hlt
      · have hpermit := (hs.permitted t (hpc ▸ armed)).1
        refine .inr ⟨heq, paused.trans hs.unparked, ?_⟩
        refine forall_update (Q := fun _ (pc : Pc) => pc.armed = true → o.slot.permit = true ∧ pc ≠ .enterPause)
          (fun hp => ⟨(permit hp).trans hpermit, fun he => ?_⟩) fun u hut hu => absurd ?_ hut
        · exact Bool.false_ne_true ((park.2 he).symm.trans hpermit)
        · have howns : (v.pc t).owns = true :=
            Pc.owns_of_unparked (Pc.unparked_of_armed (hpc ▸ armed))
          exact armed_sole hl howns hu
    | park =>
      rcases hv with hlt | ⟨heq, hs⟩
      · exact .inl hlt
      · exact absurd hpc (hs.permitted t (by rw [hpc]; rfl)).2

omit hl in
theorem View.Spent.step (hv : v.Spent k) : w.Spent k := by
  rcases h.acts with hw | ⟨t, o, ha, -, hw⟩
  · rw [hw]
    exact hv
  · rw [hw]
    have harm := ha.arm
    generalize hpc : v.pc t = pc at harm
    cases harm with
    | outside unarmed paused trace armed permit =>
      rcases hv with hlt | ⟨heq, hnone⟩
      · exact .inl (Nat.lt_of_lt_of_le hlt trace)
      · by_cases hgrew : v.slot.trace.length < o.slot.trace.length
        · exact .inl (heq ▸ hgrew)
        · exact .inr ⟨heq.trans (Nat.le_antisymm trace (Nat.not_lt.mp hgrew)), hnone.update fun hp => hgrew (armed hp)⟩
    | within armed paused trace permit park =>
      rw [View.Spent, trace]
      rcases hv with hlt | ⟨heq, hnone⟩
      · exact .inl hlt
      · exact absurd (hpc ▸ armed) (hnone t)
    | park =>
      rcases hv with hlt | ⟨heq, hnone⟩
      · exact .inl hlt
      · exact absurd (by rw [hpc]; rfl) (hnone t)

omit hl in
theorem trace_grows : v.slot.trace.length ≤ w.slot.trace.length := by
  rcases h.acts with hw | ⟨t, o, ha, -, hw⟩
  · exact hw ▸ Nat.le_refl _
  · rw [hw]
    have harm := ha.arm
    generalize v.pc t = pc at harm
    cases harm with
    | outside unarmed paused trace armed permit => exact trace
    | within armed paused trace permit park => exact Nat.le_of_eq (congrArg List.length trace.symm)
    | park => exact Nat.le_refl _

end Steps

/-- When the resume stores its permit for the running callback, that callback has not
decided to park: the request is not parked and no worker is about to park it. -/
def View.PermitInTime (n : Nat) (v : View) : Move → Prop
  | .exec t => t = .call n → v.pc t = .resumePermit → v.slot.paused = false ∧ ∀ u, v.pc u ≠ .enterPause
  | _ => True

/-- What a resuming call has achieved at each of its points, if it was made after the
callback numbered `k` had started. -/
def View.Achieved (k : Nat) (v : View) : Pc → Prop
  | .resumePaused | .resumeInCallback | .resumePermit | .resumeState | .away => k ≤ v.slot.trace.length
  | .leavePause .resumed => v.Spent k
  | .dropGuard .resumed | .swapScheduled .resumed | .pushReady .resumed | .scheduled .resumed => v.Kept k
  | .returned status => k ≤ v.slot.trace.length ∧ (status = .ok → v.Kept k)
  | _ => False

theorem View.Kept.le {k : Nat} {v : View} (h : v.Kept k) : k ≤ v.slot.trace.length := by
  rcases h with h | ⟨h, -⟩
  · exact Nat.le_of_lt h
  · exact Nat.le_of_eq h

/-- Other threads do not take back what the call has achieved. -/
theorem View.Achieved.frame {k : Nat} {v w : View} {m : Move} {pc : Pc} (hl : v.Locked) (h : v.Stepped m w)
    (hv : v.Achieved k pc) : w.Achieved k pc := by
  have hle := trace_grows h
  cases pc with
  | resumePaused | resumeInCallback | resumePermit | resumeState | away => exact Nat.le_trans hv hle
  | returned status => exact ⟨Nat.le_trans hv.1 hle, fun hok => (hv.2 hok).step hl h⟩
  | leavePause k =>
    cases k with
    | resumed => exact View.Spent.step h hv
    | settled c => exact hv
    | sent => exact hv
  | dropGuard k | swapScheduled k | pushReady k | scheduled k =>
    cases k with
    | resumed => exact View.Kept.step hl h hv
    | settled c => exact hv
    | sent => exact hv
  | _ => exact hv

/-- The next instruction of the resuming call. -/
theorem View.Achieved.exec {k : Nat} {v : View} {t : Tid} {o : Outcome} (hl : v.Locked) (hu : v.Unparked)
    (hok : v.pc t = .resumePermit → v.slot.paused = false ∧ ∀ u, v.pc u ≠ .enterPause)
    (h : v.slot.exec (v.pc t) = some o) (hv : v.Achieved k (v.pc t)) :
    (v.put t o).Achieved k o.pc := by
  have hstep : v.Stepped (.exec t) (v.put t o) := .exec t o h
  have hle := trace_grows hstep
  generalize hpc : v.pc t = pc at h hv
  cases pc with
  | resumePaused =>
    simp only [Slot.exec] at h
    split at h
    · rename_i hp
      cases h
      have hnone : Nowhere (fun pc => pc.armed = true) v.pc := by
        intro u ha
        rw [hu u (Pc.unparked_of_armed ha)] at hp
        cases hp
      rcases Nat.lt_or_eq_of_le hv with hlt | heq
      · exact .inl hlt
      · exact .inr ⟨heq, hnone.update fun ha => by cases ha⟩
    · cases h
      exact hv
  | resumeInCallback =>
    simp only [Slot.exec] at h
    split at h <;> cases h <;> exact hv
  | resumePermit =>
    cases h
    refine ⟨hv, fun _ => ?_⟩
    obtain ⟨hp, hne⟩ := hok hpc
    rcases Nat.lt_or_eq_of_le hv with hlt | heq
    · exact .inl hlt
    · refine .inr ⟨heq, hp, ?_⟩
      exact forall_update (Q := fun _ (pc : Pc) => pc.armed = true → true = true ∧ pc ≠ .enterPause)
        (fun ha => by cases ha) fun u _ _ => ⟨rfl, hne u⟩
  | resumeState =>
    simp only [Slot.exec] at h
    split at h <;> cases h <;> exact ⟨hv, fun hok => by cases hok⟩
  | leavePause a =>
    cases a with
    | resumed =>
      cases h
      rcases hv with hlt | ⟨heq, hnone⟩
      · exact .inl hlt
      · have hnone' := hnone.update (t := t) (p := .dropGuard .resumed) fun ha => by cases ha
        exact .inr ⟨heq, rfl, fun u hu => absurd hu (hnone' u)⟩
    | settled c => exact hv.elim
    | sent => exact hv.elim
  | dropGuard a | pushReady a =>
    cases a with
    | resumed =>
      cases h
      exact View.Kept.step hl hstep hv
    | settled c => exact hv.elim
    | sent => exact hv.elim
  | swapScheduled a =>
    cases a with
    | resumed =>
      simp only [Slot.exec] at h
      split at h <;> cases h <;> exact View.Kept.step hl hstep hv
    | settled c => exact hv.elim
    | sent => exact hv.elim
  | scheduled a =>
    cases a with
    | resumed =>
      cases h
      exact ⟨hv.le, fun _ => View.Kept.step hl hstep hv⟩
    | settled c => exact hv.elim
    | sent => exact hv.elim
  | returned status =>
    cases h
    exact hv.1
  | away => cases h
  | _ => exact hv.elim

def Move.keepsCall (n : Nat) : Move → Prop
  | .enter m _ => m ≠ n
  | _ => True

instance (n : Nat) : (m : Move) → Decidable (m.keepsCall n)
  | .enter m _ => inferInstanceAs (Decidable (m ≠ n))
  | .exec _ | .env _ _ | .pop _ | .spawn _ | .setAbort => inferInstanceAs (Decidable True)

theorem View.Achieved.step {k n : Nat} {v w : View} {m : Move} (hl : v.Locked) (hu : v.Unparked)
    (hok : v.PermitInTime n m) (hm : m.keepsCall n) (h : v.Stepped m w) (hv : v.Achieved k (v.pc (.call n))) :
    w.Achieved k (w.pc (.call n)) := by
  have hframe := View.Achieved.frame hl h hv
  cases h with
  | exec t o h =>
    by_cases ht : t = .call n
    · subst ht
      simpa [View.put] using View.Achieved.exec hl hu (hok rfl) h hv
    · simpa [View.put, Function.update_of_ne (Ne.symm ht)] using hframe
  | env t c o h =>
    by_cases ht : t = .call n
    · subst ht
      generalize v.pc (.call n) = pc at h hv
      cases h with
      | failed _ _ waits | aborted _ waits => cases pc <;> first | (cases waits; done) | exact hv.elim
      | _ => exact hv.elim
    · simpa [View.put, Function.update_of_ne (Ne.symm ht)] using hframe
  | pop i k free hk => simpa using hframe
  | enter i e free =>
    simpa [Function.update_of_ne (show Tid.call n ≠ .call i from fun e => hm (by cases e; rfl))] using hframe
  | spawn a free => simpa using hframe
  | setAbort => exact hframe

/-- The steps of a run during one resume call that stores its permit in time. -/
def View.OneResume (n : Nat) (v : View) (m : Move) : Prop := v.PermitInTime n m ∧ m.keepsCall n

/-- If a resume reports success, and stored its permit in time where it stored one, then
the callback that had started last when it was made does not leave the request parked. -/
theorem resume_ok_unparks {cfg : Config} {r : ReqId} {n : Nat} {as bs cs : List Act} {s t u : Client}
    (h : Client.Reaches cfg Runs.anyStep (Client.init cfg) as s) (hcall : (s.view r).pc (.call n) = .resumePaused)
    (hbusy : Client.Reaches cfg (Client.On r (View.OneResume n)) s bs t)
    (hok : (t.view r).pc (.call n) = .returned .ok) (hlater : Client.Reaches cfg Runs.anyStep t cs u)
    (hsame : (u.slots r).trace = (s.slots r).trace) : (u.slots r).paused = false := by
  have hf := h.fresh (Client.Fresh.init cfg)
  have hs : (s.view r).Locked ∧ (s.view r).Unparked :=
    h.always r (I := fun v => v.Locked ∧ v.Unparked) ⟨.init _ _, .init _ _⟩
      fun v m w hv hstep => ⟨hv.1.step hstep, hv.2.step hv.1 hstep⟩
  obtain ⟨ms, hms⟩ := hbusy.view hf
  obtain ⟨⟨hl, -⟩, ht⟩ := Runs.Run.invariant (I := fun v : View => (v.Locked ∧ v.Unparked) ∧
      v.Achieved (s.slots r).trace.length (v.pc (.call n))) hms
    (fun v m w hok hv hstep => by
      have hstep := View.step_cases hstep
      exact ⟨⟨hv.1.1.step hstep, hv.1.2.step hv.1.1 hstep⟩,
        View.Achieved.step hv.1.1 hv.1.2 hok.1 hok.2 hstep hv.2⟩)
    ⟨hs, by rw [hcall]; exact Nat.le_refl _⟩
  rw [hok] at ht
  obtain ⟨ns, hns⟩ := (hlater.on_any r).view (hbusy.fresh hf)
  obtain ⟨-, hu⟩ := Runs.Run.invariant (I := fun v : View => v.Locked ∧ v.Kept (s.slots r).trace.length) hns
    (fun v m w _ hv hstep => ⟨hv.1.step (View.step_cases hstep), hv.2.step hv.1 (View.step_cases hstep)⟩)
    ⟨hl, ht.2 rfl⟩
  rcases hu with hlt | ⟨-, hsafe⟩
  · have hlen : (u.view r).slot.trace.length = (s.slots r).trace.length := congrArg List.length hsame
    omega
  · exact hsafe.unparked

def resuming : List Act := [.begin 0 (.resume 1), .call 0]

def View.StoresNone (n : Nat) (v : View) (m : Move) : Prop := v.pc (.call n) ≠ .resumePermit ∧ m.keepsCall n

instance (n : Nat) (v : View) (m : Move) : Decidable (v.StoresNone n m) :=
  inferInstanceAs (Decidable (v.pc (.call n) ≠ .resumePermit ∧ m.keepsCall n))

set_option maxRecDepth 10000 in
theorem resume_ok_unparks_parked : ∃ s t u : Client,
    Client.Reaches .small Runs.anyStep (Client.init .small) (inFirstChunk ++ pauseAnswered ++ resuming) s ∧
    (s.slots 1).paused = true ∧ Client.Reaches .small (Client.On 1 (View.OneResume 0)) s
      (List.replicate 6 (.call 0)) t ∧
    (t.view 1).pc (.call 0) = .returned .ok ∧ Client.Reaches .small Runs.anyStep t [.call 0] u ∧
    (u.slots 1).paused = false := by
  have hrun : Client.after .small Runs.anyStep (inFirstChunk ++ pauseAnswered ++ resuming)
      (fun s => (s.slots 1).paused = true ∧ (s.view 1).pc (.call 0) = .resumePaused ∧
        (s.slots 1).trace = [.onHeaders 200 1 [], .onChunk [7]])
      (Client.after .small (Client.On 1 (View.StoresNone 0)) (List.replicate 6 (.call 0))
        (fun t => (t.view 1).pc (.call 0) = .returned .ok)
        (Client.after .small Runs.anyStep [.call 0]
          (fun u => (u.slots 1).trace = [.onHeaders 200 1 [], .onChunk [7]]) fun _ => true))
      (Client.init .small) = true := by decide
  obtain ⟨s, hs, ⟨hp, hcall, htrace⟩, hrun⟩ := Client.of_after hrun
  obtain ⟨t, ht, hok, hrun⟩ := Client.of_after hrun
  obtain ⟨u, hu, hsame, -⟩ := Client.of_after hrun
  have hbusy : Client.Reaches .small (Client.On 1 (View.OneResume 0)) s (List.replicate 6 (.call 0)) t := by
    refine ht.mono fun s a hok m hm => ⟨?_, (hok m hm).2⟩
    cases m with
    | exec t => exact fun e hpc => absurd (e ▸ hpc) (hok _ hm).1
    | _ => trivial
  exact ⟨s, t, u, hs, hp, hbusy, hok, hu, resume_ok_unparks hs hcall hbusy hok hu (hsame.trans htrace.symm)⟩

set_option maxRecDepth 10000 in
/-- The resume reads `paused` and `in_callback` while the callback runs. The worker then
finds no permit and parks; the resume stores its permit, reports success and is lost. -/
theorem resume_ok_lost : ¬ ∀ (cfg : Config) (r : ReqId) (n : Nat) (as bs cs : List Act) (s t u : Client),
    Client.Reaches cfg Runs.anyStep (Client.init cfg) as s → (s.view r).pc (.call n) = .resumePaused →
    Client.Reaches cfg (Client.On r fun _ m => m.keepsCall n) s bs t →
    (t.view r).pc (.call n) = .returned .ok → Client.Reaches cfg Runs.anyStep t cs u →
    (u.slots r).trace = (s.slots r).trace → (u.view r).pc (.call n) = .away →
    (∀ w, (u.view r).pc (.worker w) = .away) → (u.slots r).paused = false := by
  intro h
  have hrun : Client.after .small Runs.anyStep (inFirstChunk ++ resuming)
      (fun s => (s.view 1).pc (.call 0) = .resumePaused ∧ (s.slots 1).trace = [.onHeaders 200 1 [], .onChunk [7]])
      (Client.after .small (Client.On 1 fun _ m => m.keepsCall 0)
        (List.replicate 2 (Act.call 0) ++ pauseAnswered ++ [Act.call 0])
        (fun t => (t.view 1).pc (.call 0) = .returned .ok)
        (Client.after .small Runs.anyStep [.call 0]
          (fun u => ((u.slots 1).trace = [.onHeaders 200 1 [], .onChunk [7]] ∧ (u.view 1).pc (.call 0) = .away) ∧
            u.allPcs 1 1 Pc.quiet = true ∧ (u.slots 1).paused = true) fun _ => true))
      (Client.init .small) = true := by decide
  obtain ⟨s, hs, ⟨hcall, htrace⟩, hrun⟩ := Client.of_after hrun
  obtain ⟨t, ht, hok, hrun⟩ := Client.of_after hrun
  obtain ⟨u, hu, ⟨⟨hsame, haway⟩, hq, hp⟩, -⟩ := Client.of_after hrun
  have hquiet := Client.Reaches.quiet ((hs.append ht.any).append hu) (by decide) hq
  rw [h .small 1 0 _ _ _ s t u hs hcall ht hok hu (hsame.trans htrace.symm) haway hquiet.1] at hp
  cases hp

end Hyper4k.Bridge
