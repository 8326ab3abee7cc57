import Hyper4k.Bridge.Delivery

/-! A parked request: who sets `paused`, who clears it, and that a settle which
discards releases what it finds parked. -/
namespace Hyper4k.Bridge
open Runs

/-- The owner has read `paused` as false and may still set it. -/
def Pc.unparked : Pc → Bool
  | .popFront _ | .addPermits .. | .loadState .. | .setInCallback .. | .deliver .. | .inCallback ..
  | .clearInCallback .. | .clearPermit _ | .swapPermit _ | .cancelPermit | .enterPause => true
  | _ => false

/-- A discarding settle that has yet to clear `paused`, or to see it cleared. -/
def Pc.releases : Pc → Bool
  | .claim _ _ discard | .storeTerminal _ _ discard | .storeDone _ discard | .wakeProducer _ discard => discard
  | .wonPaused _ | .lostPaused _ | .leavePause (.settled _) => true
  | _ => false

def Pc.settling : Pc → Bool
  | .claim .. | .lostPaused _ | .storeTerminal .. | .storeDone .. | .wakeProducer .. | .wonPaused _
  | .leavePause (.settled _) | .dropGuard (.settled _) | .swapScheduled (.settled _) | .pushReady (.settled _)
  | .scheduled (.settled _) | .settled _ => true
  | _ => false

theorem Pc.settling_of_releases {pc : Pc} (h : pc.releases = true) : pc.settling = true := by
  cases pc with
  | leavePause k =>
    cases k with
    | settled c => rfl
    | resumed => cases h
    | sent => cases h
  | _ => first | rfl | cases h

theorem Pc.owns_of_unparked {pc : Pc} (h : pc.unparked = true) : pc.owns = true := by
  cases pc <;> first | rfl | cases h

inductive Slot.PauseStep (s : Slot) : Pc → Outcome → Prop
  | same {pc : Pc} {o : Outcome} (paused : o.slot.paused = s.paused)
      (unparked : o.pc.unparked = true → pc.unparked = true ∨ s.paused = false)
      (releases : pc.releases = true → o.pc.releases = true ∨ s.paused = false)
      (discard : o.slot.state = .terminalDiscard → s.state = .terminalDiscard ∨ o.pc.releases = true) :
      s.PauseStep pc o
  | park : s.PauseStep .enterPause ⟨{ s with paused := true }, .newGuard, .quiet⟩
  | leave (k : After) : s.PauseStep (.leavePause k) ⟨{ s with paused := false }, .dropGuard k, .quiet⟩

theorem exec_pause {s : Slot} {pc : Pc} {o : Outcome} (h : s.exec pc = some o) : s.PauseStep pc o := by
  cases pc with
  | enterPause =>
    cases h
    exact .park
  | leavePause k =>
    cases h
    exact .leave k
  | iterate n =>
    simp only [Slot.exec] at h
    repeat' split at h
    all_goals cases h
    all_goals exact .same rfl (fun hu => by first | (cases hu; done) | exact .inr (by simp_all))
                      (fun hr => by cases hr) .inl
  | claim c t discard =>
    simp only [Slot.exec] at h
    split at h
    · cases h
      refine .same rfl (fun hu => by cases hu) .inl fun hd => .inr ?_
      cases discard with
      | true => rfl
      | false => cases hd
    · split at h
      · cases h
        exact .same rfl (fun hu => by cases hu) (fun _ => .inl rfl) .inl
      · rename_i hd
        cases h
        exact .same rfl (fun hu => by cases hu) (fun hr => absurd hr hd) .inl
  | lostPaused c | wonPaused c =>
    simp only [Slot.exec] at h
    split at h
    · cases h
      exact .same rfl (fun hu => by cases hu) (fun _ => .inl rfl) .inl
    · rename_i hp
      cases h
      exact .same rfl (fun hu => by cases hu) (fun _ => .inr (by simpa using hp)) .inl
  | wakeProducer c discard =>
    simp only [Slot.exec] at h
    split at h
    · cases h
      exact .same rfl (fun hu => by cases hu) (fun _ => .inl rfl) .inl
    · rename_i hd
      cases h
      exact .same rfl (fun hu => by cases hu) (fun hr => absurd hr hd) .inl
  | storeTerminal c t discard | storeDone c discard =>
    cases h
    exact .same rfl (fun hu => by cases hu) .inl .inl
  | _ =>
    simp only [Slot.exec] at h
    repeat' split at h
    all_goals first
      | (cases h; exact .same rfl .inl (fun hr => by cases hr) .inl)
      | (cases h; exact .same rfl (fun hu => by cases hu) (fun hr => by cases hr) .inl)
      | cases h

theorem Slot.Acts.pause {s : Slot} {pc : Pc} {o : Outcome} (h : s.Acts pc o) : s.PauseStep pc o := by
  refine h.rule exec_pause (fun h => ?_) fun p e hentry => ?_
  · cases h with
    | received f =>
      rcases f with (_ | _) | _ <;> exact .same rfl (fun hu => by cases hu) (fun hr => by cases hr) .inl
    | answered n ev a => exact .same rfl (fun _ => .inl rfl) (fun hr => by cases hr) .inl
    | failed _ _ waits | aborted _ waits =>
      cases pc <;> first
        | (cases waits; done)
        | exact .same rfl (fun hu => by cases hu) (fun hr => by cases hr) .inl
    | _ => exact .same rfl (fun hu => by cases hu) (fun hr => by cases hr) .inl
  · cases hentry <;> exact .same rfl (fun hu => by cases hu) (fun hr => by cases hr) .inl

def View.Unparked (v : View) : Prop := ∀ t, (v.pc t).unparked = true → v.slot.paused = false

theorem View.Unparked.init (onChunk : Bool) (queueCapacity : Nat) : (View.init onChunk queueCapacity).Unparked :=
  fun _ h => by cases h

theorem View.Unparked.step {v w : View} {m : Move} (hv : v.Unparked) (hl : v.Locked) (h : v.Stepped m w) :
    w.Unparked := by
  rcases h.acts with hw | ⟨t, o, ha, -, hw⟩
  · rw [hw]
    exact hv
  · rw [hw]
    have hpause := ha.pause
    generalize hpc : v.pc t = pc at hpause
    cases hpause with
    | same paused unparked releases discard =>
      refine forall_update (Q := fun _ (pc : Pc) => pc.unparked = true → o.slot.paused = false) ?_ ?_
      · intro hu
        rcases unparked hu with hu | hp
        · exact paused.trans (hv t (hpc ▸ hu))
        · exact paused.trans hp
      · exact fun u _ hu => paused.trans (hv u hu)
    | park =>
      refine forall_update (Q := fun _ (pc : Pc) => pc.unparked = true → true = false) (fun hu => by cases hu) ?_
      intro u hut hu
      exact absurd (hl.sole u t (Pc.owns_of_unparked hu) (by rw [hpc]; rfl)) hut
    | leave k => exact fun _ _ => rfl

def View.Released (v : View) : Prop := v.slot.paused = false ∨ ∃ t, (v.pc t).releases = true

/-- A worker parks the request only while a discarding settle has yet to look at it. -/
def View.ParksSeen (v : View) : Move → Prop
  | .exec t => v.pc t = .enterPause → ∃ u, (v.pc u).releases = true
  | _ => True

theorem View.Released.step {v w : View} {m : Move} (hok : v.ParksSeen m) (hv : v.Released) (h : v.Stepped m w) :
    w.Released := by
  rcases h.acts with hw | ⟨t, o, ha, hm, hw⟩
  · rw [hw]
    exact hv
  · rw [hw]
    have hpause := ha.pause
    generalize hpc : v.pc t = pc at hpause
    cases hpause with
    | same paused unparked releases discard =>
      by_cases hp : v.slot.paused = false
      · exact .inl (paused.trans hp)
      · obtain ⟨u, hu⟩ := hv.resolve_left hp
        refine .inr (exists_update (P := fun pc : Pc => pc.releases = true) ⟨u, hu⟩ fun ht => ?_)
        exact (releases (hpc ▸ ht)).resolve_right hp
    | park =>
      rw [hm (by rw [hpc]; rfl)] at hok
      obtain ⟨u, hu⟩ := hok hpc
      refine .inr (exists_update_of_ne (P := fun pc : Pc => pc.releases = true) ?_ hu)
      rintro rfl
      rw [hpc] at hu
      cases hu
    | leave k => exact .inl rfl

/-- No slice and no settle of the request is in progress. -/
def View.Quiet (v : View) : Prop := (∀ n, v.pc (.worker n) = .away) ∧ ∀ t, (v.pc t).settling = false

theorem View.Released.not_paused {v : View} (hv : v.Released) (hq : v.Quiet) : v.slot.paused = false := by
  rcases hv with hp | ⟨t, ht⟩
  · exact hp
  · have hs := Pc.settling_of_releases ht
    rw [hq.2 t] at hs
    cases hs

/-- After `close` has begun to settle a request, and provided that a worker parks the
request only while a discarding settle has yet to look at it, the request is not parked
whenever it is quiet. -/
theorem close_releases_parked {cfg : Config} {r : ReqId} {n : Nat} {as bs : List Act} {s t : Client}
    (h : Client.Reaches cfg Runs.anyStep (Client.init cfg) as s) (hclose : (s.view r).pc (.call n) = Entry.close.pc)
    (hlater : Client.Reaches cfg (Client.On r View.ParksSeen) s bs t) (hq : (t.view r).Quiet) :
    (t.slots r).paused = false := by
  obtain ⟨ms, hms⟩ := hlater.view (h.fresh (Client.Fresh.init cfg))
  have hstart : (s.view r).Released := .inr ⟨.call n, by rw [hclose]; rfl⟩
  have hend : (t.view r).Released :=
    Runs.Run.invariant hms (fun v m w hok hv hstep => hv.step hok (View.step_cases hstep)) hstart
  exact hend.not_paused hq

def View.NeverParks (v : View) : Move → Prop
  | .exec t => v.pc t ≠ .enterPause
  | _ => True

instance (v : View) : (m : Move) → Decidable (v.NeverParks m)
  | .exec t => inferInstanceAs (Decidable (v.pc t ≠ .enterPause))
  | .env _ _ | .pop _ | .enter _ _ | .spawn _ | .setAbort => inferInstanceAs (Decidable True)

theorem View.NeverParks.seen {v : View} {m : Move} (h : v.NeverParks m) : v.ParksSeen m := by
  cases m with
  | exec t => exact fun hpc => absurd hpc h
  | _ => trivial

def Pc.quiet : Tid → Pc → Bool
  | .worker _, pc => decide (pc = .away)
  | .task, pc | .call _, pc => !pc.settling

theorem Client.Reaches.quiet {cfg : Config} {ok : Client → Act → Prop} {as : List Act} {t : Client} {k : Nat}
    {r : ReqId} (h : Client.Reaches cfg ok (Client.init cfg) as t) (hbelow : ∀ a ∈ as, a.below k = true)
    (hp : t.allPcs k r Pc.quiet = true) : (t.view r).Quiet := by
  have hall := h.allPcs hbelow (fun u => by cases u <;> rfl) hp
  have hw : ∀ n, (t.view r).pc (.worker n) = .away := fun n => of_decide_eq_true (hall (.worker n))
  refine ⟨hw, fun u => ?_⟩
  cases u with
  | worker n => rw [hw n]; rfl
  | task => exact (Bool.not_eq_true' _).mp (hall .task)
  | call n => exact (Bool.not_eq_true' _).mp (hall (.call n))

def closing (before : List Act) : List Act := inFirstChunk ++ before ++ Act.begin 0 .close :: List.replicate 3 (.call 0)

set_option maxRecDepth 10000 in
theorem close_releases_parked_request : ∃ s t : Client,
    Client.Reaches .small Runs.anyStep (Client.init .small) (closing pauseAnswered) s ∧
    (s.slots 1).paused = true ∧ (s.view 1).pc (.call 0) = Entry.close.pc ∧
    Client.Reaches .small (Client.On 1 View.ParksSeen) s (List.replicate 13 (.call 0)) t ∧
    (t.view 1).Quiet ∧ (t.slots 1).paused = false := by
  have hrun : Client.after .small Runs.anyStep (closing pauseAnswered)
      (fun s => (s.slots 1).paused = true ∧ (s.view 1).pc (.call 0) = Entry.close.pc)
      (Client.after .small (Client.On 1 View.NeverParks) (List.replicate 13 (.call 0))
        (fun t => t.allPcs 1 1 Pc.quiet = true) fun _ => true) (Client.init .small) = true := by decide
  obtain ⟨s, hs, ⟨hp, hclose⟩, hrun⟩ := Client.of_after hrun
  obtain ⟨t, ht, hq, -⟩ := Client.of_after hrun
  have hquiet := Client.Reaches.quiet (hs.append ht.any) (by decide) hq
  have hlater := ht.mono fun _ _ hok m hm => (hok m hm).seen
  exact ⟨s, t, hs, hp, hclose, hlater, hquiet, close_releases_parked hs hclose hlater hquiet⟩

def noResume (_ : Client) : Act → Prop
  | .begin _ (.resume _) => False
  | _ => True

instance (s : Client) : (a : Act) → Decidable (noResume s a)
  | .begin _ (.resume _) => inferInstanceAs (Decidable False)
  | .begin _ (.send _) | .begin _ (.cancel _) | .begin _ .close | .begin _ .free | .pop _ | .worker _
  | .workerEnv _ _ | .task _ | .taskEnv _ _ | .call _ => inferInstanceAs (Decidable True)

set_option maxRecDepth 10000 in
/-- `close` looks at `paused` while a chunk callback is running; the callback then answers
`PAUSE`, and nothing is left that would release the request. -/
theorem pause_after_close_parks : ¬ ∀ (cfg : Config) (r : ReqId) (n : Nat) (as bs : List Act) (s t : Client),
    Client.Reaches cfg Runs.anyStep (Client.init cfg) as s → (s.view r).pc (.call n) = Entry.close.pc →
    Client.Reaches cfg noResume s bs t → (t.view r).Quiet → (t.slots r).paused = false := by
  intro h
  have hrun : Client.after .small Runs.anyStep (closing []) (fun s => (s.view 1).pc (.call 0) = Entry.close.pc)
      (Client.after .small noResume
        (List.replicate 11 (Act.call 0) ++ pauseAnswered ++ Act.pop 0 :: List.replicate 6 (.worker 0))
        (fun t => t.allPcs 1 1 Pc.quiet = true ∧ (t.slots 1).paused = true) fun _ => true)
      (Client.init .small) = true := by decide
  obtain ⟨s, hs, hclose, hrun⟩ := Client.of_after hrun
  obtain ⟨t, ht, ⟨hq, hp⟩, -⟩ := Client.of_after hrun
  have hquiet := Client.Reaches.quiet (hs.append ht.any) (by decide) hq
  rw [h .small 1 0 _ _ s t hs hclose ht hquiet] at hp
  cases hp

end Hyper4k.Bridge
