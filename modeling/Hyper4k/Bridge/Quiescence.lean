import Hyper4k.Bridge.Accounting

/-! When the bridge counter is zero and no `send` is in progress, the callbacks of the client's
requests are over. -/
namespace Hyper4k.Bridge
open Runs

section Closed
variable {cfg : Config} {s t : Client} {a : Act} {r : ReqId}

/-- No request is counted in later that no `send` is working on now, once its id was drawn or the
client is closed. -/
structure Client.Shut (s : Client) (r : ReqId) : Prop where
  idle : ∀ n, (s.calls n).unspawned ≠ some r
  late : r < s.nextId ∨ s.closed = true ∧ ∀ n args pc, s.calls n = .sending args pc → pc = .loadClosed

theorem step_stays_closed (h : s.step cfg a = some t) (hc : s.closed = true) : t.closed = true := by
  cases Client.step_cases h with
  | pop | begin => exact hc
  | worker | workerEnv => simpa [Client.setWorker, Client.commit] using hc
  | task | taskEnv => simpa [Client.setTask, Client.commit] using hc
  | call n _ h =>
    cases Client.advance_cases h with
    | send args pc => cases pc <;> exact hc
    | act q o c => simpa [Client.setCall, Client.commit] using hc
    | close => rfl
    | move => exact hc

theorem Call.sending_of_unspawned {c : Call} (h : c.unspawned = some r) : ∃ args pc, c = .sending args pc := by
  cases c with
  | sending args pc => exact ⟨args, pc, rfl⟩
  | _ => cases h

theorem Client.Shut.step (hs : s.Shut r) (h : s.step cfg a = some t) : t.Shut r := by
  refine ⟨fun n hn => ?_, ?_⟩
  · obtain ⟨args, pc, hc⟩ := Call.sending_of_unspawned hn
    rw [hc] at hn
    rcases step_sending h hc with ⟨hold, -⟩ | rfl | ⟨args', pc', -, hold, rfl⟩
    · exact hs.idle n (by rw [hold]; exact hn)
    · cases hn
    · have hnot := hs.idle n
      rw [hold] at hnot
      cases send_goes hc with
      | draw =>
        cases hn
        rcases hs.late with hlt | ⟨-, hall⟩
        · exact Nat.lt_irrefl _ hlt
        · cases hall n args' _ hold
      | reserve | enter | register | write | spawn => exact hnot hn
      | _ => cases hn
  · rcases hs.late with hlt | ⟨hclosed, hall⟩
    · exact .inl (Nat.lt_of_lt_of_le hlt (step_nextId h))
    · refine .inr ⟨step_stays_closed h hclosed, fun n args pc hc => ?_⟩
      rcases step_sending h hc with ⟨hold, -⟩ | rfl | ⟨args', pc', -, hold, rfl⟩
      · exact hall n args pc hold
      · rfl
      · obtain rfl := hall n args' pc' hold
        cases send_goes hc with
        | admitted hopen =>
          rw [hclosed] at hopen
          cases hopen

theorem Client.Shut.enters (hs : s.Shut r) : s.enters a ≠ some r := by
  intro he
  obtain ⟨n, args, -, hc⟩ := Client.enters_eq_some he
  exact hs.idle n (by rw [hc]; rfl)

structure Client.Lost (s : Client) (o : Tally) (r : ReqId) : Prop where
  shut : s.Shut r
  outside : r ∉ o.entered

theorem Client.Lost.step {o : Tally} (hs : s.Lost o r) (h : s.step cfg a = some t) : t.Lost (Tally.note s a t o) r := by
  refine ⟨hs.shut.step h, fun hmem => ?_⟩
  rcases List.mem_append.mp hmem with he | hold
  · exact hs.shut.enters (Option.mem_toList.mp he)
  · exact hs.outside hold

end Closed

section Silence
variable {v w : View} {m : Move}

def Pc.calls : Pc → Bool
  | .deliver .. | .deliverDone _ => true
  | _ => false

theorem Slot.Acts.userCode {s : Slot} {pc : Pc} {o : Outcome} (h : s.Acts pc o) (ho : o.pc.inUserCode = true) :
    pc.calls = true := by
  cases h with
  | exec h =>
    cases pc with
    | deliver | deliverDone => rfl
    | _ =>
      simp only [Slot.exec] at h
      repeat' split at h
      all_goals first
        | (cases h; cases ho)
        | cases h
  | env h =>
    cases h with
    | received f => rcases f with (_ | _) | _ <;> cases ho
    | _ => cases ho
  | arrive free slot entry =>
    generalize o.pc = p at entry ho
    cases entry <;> cases ho

theorem Slot.Acts.trace {s : Slot} {pc : Pc} {o : Outcome} (h : s.Acts pc o) (hpc : pc.calls = false) :
    o.slot.trace = s.trace := by
  cases h.flow with
  | same _ _ _ trace => exact trace
  | hand | done => cases hpc
  | _ => rfl

/-- What holds of a request while the guard on `done_ready` is kept. -/
structure View.Silent (v : View) : Prop where
  sound : v.Sound
  closing : v.Closing
  hushed : v.slot.finishedFlag = true → ∀ t, (v.pc t).inUserCode = false

theorem View.Silent.init (onChunk : Bool) (queueCapacity : Nat) : (View.init onChunk queueCapacity).Silent :=
  ⟨.init _ _, .init _ _, fun h => by cases h⟩

/-- Nobody is about to call the user's code for a finished request. -/
theorem View.Silent.calls (hv : v.Silent) (hf : v.slot.finishedFlag = true) (t : Tid) : (v.pc t).calls = false := by
  have hsilent := (hv.closing.silent (hv.sound.gated.done_of_finished hf) t).1
  have hcarry := OneShot.Inv.closed_carried hv.sound.gated hf t
  generalize v.pc t = pc at hsilent hcarry
  cases pc with
  | deliver => cases hsilent
  | deliverDone => cases hcarry
  | _ => rfl

theorem View.Stepped.finished (h : v.Stepped m w) (hw : w.slot.finishedFlag = true) :
    v.slot.finishedFlag = true ∨ ∃ t o, v.pc t = .storeFinished ∧ w.pc = Function.update v.pc t o ∧
      o.inUserCode = false := by
  cases h with
  | exec t o h =>
    have hgives := exec_gives h
    generalize hpc : v.pc t = pc at hgives
    cases hgives with
    | idle _ _ _ flag => exact .inl (flag.symm.trans hw)
    | finish => exact .inr ⟨t, _, hpc, rfl, rfl⟩
    | give _ _ _ _ _ _ same => exact .inl ((congrArg Slot.finishedFlag same).symm.trans hw)
    | take | taken | leave => exact .inl hw
  | env t c o h => exact .inl ((env_gives h).2.1.symm.trans hw)
  | _ => exact .inl hw

theorem View.Silent.step (hok : v.StillEmpty m) (hv : v.Silent) (h : v.Stepped m w) : w.Silent := by
  refine ⟨hv.sound.step h, .step hok hv.closing hv.sound.locked hv.sound.gated hv.sound.fed h, fun hw => ?_⟩
  rcases h.finished hw with hf | ⟨t, p, ht, hpc, hp⟩
  · rcases h.acts with he | ⟨t, o, ha, -, he⟩
    · rw [he]
      exact hv.hushed hf
    · rw [he]
      refine forall_update (Q := fun _ (pc : Pc) => pc.inUserCode = false) ?_ fun u _ => hv.hushed hf u
      rw [Bool.eq_false_iff]
      intro hu
      have hcalls := ha.userCode hu
      rw [hv.calls hf t] at hcalls
      cases hcalls
  · rw [hpc]
    refine forall_update (Q := fun _ (pc : Pc) => pc.inUserCode = false) hp fun u hu => ?_
    rw [Bool.eq_false_iff]
    intro huser
    exact hu (hv.sound.locked.sole u t (Pc.owns_of_inUserCode huser) (by rw [ht]; rfl))

/-- The callbacks of a finished request are over. -/
theorem View.Silent.over (hv : v.Silent) (hf : v.slot.finishedFlag = true) (h : v.Stepped m w) :
    w.slot.finishedFlag = true ∧ w.slot.trace = v.slot.trace := by
  constructor
  · cases h with
    | exec t o h =>
      have hgives := exec_gives h
      generalize v.pc t = pc at hgives
      cases hgives with
      | idle _ _ _ flag => exact flag.trans hf
      | give _ _ _ _ _ _ same => exact (congrArg Slot.finishedFlag same).trans hf
      | finish => rfl
      | take | taken | leave => exact hf
    | env t c o h => exact (env_gives h).2.1.trans hf
    | _ => exact hf
  · rcases h.acts with he | ⟨t, o, ha, -, he⟩
    · rw [he]
    · rw [he]
      exact ha.trace (hv.calls hf t)

end Silence

def Call.target : Call → Option ReqId
  | .lookup r _ | .request r _ | .closing (r :: _) _ | .closingOn r _ _ _ | .sending _ (.spawn r)
  | .sending _ (.setAbort r) => some r
  | _ => none

def Client.target (s : Client) : Act → Option ReqId
  | .pop _ => s.ready.head?
  | .worker n | .workerEnv n _ => (s.workers n).map Prod.fst
  | .task r | .taskEnv r _ => some r
  | .begin _ _ => none
  | .call n => (s.calls n).target

theorem Client.target_of_moveOf {s : Client} {a : Act} {r : ReqId} {m : Move} (h : s.moveOf r a = some m) :
    s.target a = some r := by
  cases a with
  | pop n =>
    simp only [Client.moveOf] at h
    split at h
    · assumption
    · cases h
  | worker n | workerEnv n =>
    simp only [Client.moveOf] at h
    split at h
    · rename_i hw
      split at h
      · rename_i hq
        simp [Client.target, hw, hq]
      · cases h
    · cases h
  | task q | taskEnv q =>
    simp only [Client.moveOf] at h
    split at h
    · rename_i hq
      exact congrArg some hq
    · cases h
  | begin => cases h
  | call n =>
    rcases hc : s.calls n with _ | ⟨args, pc⟩ | ⟨q, e⟩ | ⟨q, pc⟩ | free | free | ⟨_ | ⟨q, todo⟩, free⟩ |
      ⟨q, pc, todo, free⟩ | _ | status <;> simp only [Client.moveOf, hc] at h
    case sending =>
      cases pc with
      | spawn q | setAbort q =>
        simp only at h
        split at h
        · rename_i hq
          simp [Client.target, hc, Call.target, hq]
        · cases h
      | _ => cases h
    case lookup | closing.cons =>
      split at h
      · rename_i hq
        simp [Client.target, hc, Call.target, hq.1]
      · cases h
    case request | closingOn =>
      split at h
      · rename_i hq
        simp [Client.target, hc, Call.target, hq]
      · cases h
    all_goals cases h

/-- Where `run_owned` finds a drained terminal of any request, the queue it saw empty is still empty. -/
def Client.StillEmpty (s : Client) (a : Act) : Prop := ∀ r, Client.On r View.StillEmpty s a

instance (s : Client) (a : Act) : Decidable (s.StillEmpty a) :=
  decidable_of_iff (∀ r ∈ s.target a, Client.On r View.StillEmpty s a)
    ⟨fun h r m hm => h r (Client.target_of_moveOf hm) m hm, fun h r _ => h r⟩

abbrev Client.Tallied (cfg : Config) (ok : Client → Act → Prop) (as : List Act) (p : Client × Tally) : Prop :=
  Run (observe (Client.step cfg) Tally.note) (fun p => ok p.1) (Client.init cfg, {}) as p

section Runs
variable {cfg : Config} {ok : Client → Act → Prop} {as : List Act} {s : Client} {o : Tally}

theorem Client.Tallied.accounts (h : Client.Tallied cfg ok as (s, o)) : s.Accounts cfg o := by
  refine h.invariant (I := fun p => p.1.Accounts cfg p.2) ?_ (.init cfg)
  rintro ⟨s, o⟩ a ⟨t, o'⟩ - hs hstep
  obtain ⟨ht, ho⟩ := observe_eq_some hstep
  rw [show o' = Tally.note s a t o from ho]
  exact hs.step ht

theorem Client.Tallied.reaches (h : Client.Tallied cfg ok as (s, o)) :
    Client.Reaches cfg ok (Client.init cfg) as s :=
  h.unobserved fun _ _ => id

theorem Client.Reaches.silent (h : Client.Reaches cfg Client.StillEmpty (Client.init cfg) as s) (r : ReqId) :
    (s.view r).Silent :=
  Client.Reaches.holds (h.mono fun _ _ hok => hok r) (.init _ _) fun _ _ _ hok hv hs => hv.step hok hs

/-- A request that was never counted in, and is not going to be, has no callbacks. -/
theorem Client.Shut.never_called {r : ReqId} {bs : List Act} {t : Client} (h : Client.Tallied cfg ok as (s, o))
    (hr : r ∉ o.entered) (hs : s.Shut r) (ht : Client.Reaches cfg ok s bs t) :
    t.view r = View.init (cfg.onChunk r) cfg.queueCapacity := by
  obtain ⟨o', hrun⟩ : ∃ o', Run (observe (Client.step cfg) Tally.note) (fun p => ok p.1) (s, o) bs (t, o') :=
    Run.observed ht o
  have hlost : t.Lost o' r := by
    refine hrun.invariant (I := fun p => p.1.Lost p.2 r) ?_ ⟨hs, hr⟩
    rintro ⟨s, o⟩ a ⟨t, o'⟩ - hs hstep
    obtain ⟨ht, ho⟩ := observe_eq_some hstep
    rw [show o' = Tally.note s a t o from ho]
    exact hs.step ht
  exact (Client.Tallied.accounts (h.append hrun)).untouched r hlost.outside

/-- A finished request has no callbacks any more. -/
theorem Client.Reaches.over {r : ReqId} {bs : List Act} {t : Client}
    (h : Client.Reaches cfg Client.StillEmpty (Client.init cfg) as s) (hf : (s.slots r).finishedFlag = true)
    (ht : Client.Reaches cfg Client.StillEmpty s bs t) :
    (t.slots r).trace = (s.slots r).trace ∧ ∀ u, ((t.view r).pc u).inUserCode = false := by
  have hon : Client.Reaches cfg (Client.On r View.StillEmpty) s bs t := ht.mono fun _ _ hok => hok r
  obtain ⟨ms, hms⟩ := hon.view (h.fresh (Client.Fresh.init cfg))
  have hover : (t.view r).Silent ∧ (t.view r).slot.finishedFlag = true ∧
      (t.view r).slot.trace = (s.slots r).trace := by
    refine hms.invariant (I := fun v : View => v.Silent ∧ v.slot.finishedFlag = true ∧
      v.slot.trace = (s.slots r).trace) ?_ ⟨h.silent r, hf, rfl⟩
    rintro v m w hok ⟨hv, hflag, htrace⟩ hstep
    obtain ⟨hflag', htrace'⟩ := hv.over hflag (View.step_cases hstep)
    exact ⟨hv.step hok (View.step_cases hstep), hflag', htrace'.trans htrace⟩
  exact ⟨hover.2.2, hover.1.hushed hover.2.1⟩

end Runs

/-- Shutdown accounting is exact, in every run in which no event is queued between the emptiness
check of `run_owned` and its read of a drained `done_ready`: the counter is the number of requests
that have entered and not left it; a request gives back what it holds once, in order, the counter
last, after its `OnDone` has returned; and when the counter is zero and no `send` is in progress, no
callback of a request sent so far, or of any request if the client is closed, is running or will run. -/
theorem shutdown_accounting_exact {cfg : Config} {as : List Act} {s : Client} {o : Tally}
    (h : Client.Tallied cfg Client.StillEmpty as (s, o)) :
    (o.inside.Nodup ∧ s.bridges = o.inside.length) ∧
    (∀ r, o.released r <+: Release.all ∧
      (o.released r ≠ [] → (s.slots r).dones ≠ [] ∧ ∀ u, (s.view r).pc u ≠ .inDone)) ∧
    (s.bridges = 0 → (∀ n args pc, s.calls n ≠ .sending args pc) → ∀ r, r < s.nextId ∨ s.closed = true →
      ∀ bs t, Client.Reaches cfg Client.StillEmpty s bs t →
        (t.slots r).trace = (s.slots r).trace ∧ ∀ u, ((t.view r).pc u).inUserCode = false) := by
  have hs := h.accounts
  refine ⟨⟨hs.nodup.filter _, hs.bridges⟩, fun r => ⟨(hs.giving r).in_order, fun hne => ?_⟩, ?_⟩
  · obtain ⟨hdone, -, hcarry⟩ := (hs.giving r).done hne
    refine ⟨hdone, fun u hu => ?_⟩
    have := hcarry u
    rw [hu] at this
    cases this
  · intro hzero hidle r hr bs t ht
    by_cases hent : r ∈ o.entered
    · have hstays : o.stays r = false := by
        have hnil : o.inside = [] := List.length_eq_zero_iff.mp (by have := hs.bridges; omega)
        rw [Bool.eq_false_iff]
        intro hstays
        have hmem : r ∈ o.inside := List.mem_filter.mpr ⟨hent, hstays⟩
        rw [hnil] at hmem
        cases hmem
      have hne : o.released r ≠ [] := by
        rintro hnil
        rw [Tally.stays, hnil] at hstays
        cases hstays
      exact h.reaches.over ((hs.giving r).done hne).2.1 ht
    · have hshut : s.Shut r := by
        refine ⟨fun n hn => ?_, hr.imp_right fun hc => ⟨hc, fun n args pc hc => absurd hc (hidle n args pc)⟩⟩
        obtain ⟨args, pc, hc⟩ := Call.sending_of_unspawned hn
        exact hidle n args pc hc
      have hview := Client.Shut.never_called h hent hshut ht
      have hold := hs.untouched r hent
      refine ⟨?_, fun u => ?_⟩
      · exact (congrArg (fun v : View => v.slot.trace) hview).trans (congrArg (fun v : View => v.slot.trace) hold).symm
      · rw [hview]
        rfl

def Client.sendsDone (k : Nat) (s : Client) : Bool := (List.range k).all fun n => s.calls n = .idle

theorem Client.Reaches.no_send {cfg : Config} {ok : Client → Act → Prop} {as : List Act} {s : Client} {k : Nat}
    (h : Client.Reaches cfg ok (Client.init cfg) as s) (hbelow : ∀ a ∈ as, a.below k = true)
    (hdone : s.sendsDone k = true) (n : Nat) (args : SendArgs) (pc : SendPc) : s.calls n ≠ .sending args pc := by
  have hidle : s.calls n = .idle := by
    rcases Nat.lt_or_ge n k with hn | hn
    · exact of_decide_eq_true (List.all_eq_true.mp hdone n (List.mem_range.mpr hn))
    · exact (h.beyond hbelow n hn).2
  rw [hidle]
  exact Call.noConfusion

set_option maxRecDepth 10000 in
theorem shutdown_accounting_exact_successful : ∃ as s o, Client.Tallied .small Client.StillEmpty as (s, o) ∧
    s.bridges = 0 ∧ o.released 1 = Release.all ∧ (s.slots 1).dones = [none] ∧
    ∀ bs t, Client.Reaches .small Client.StillEmpty s bs t → (t.slots 1).trace = (s.slots 1).trace := by
  have hrun : (replay (observe (Client.step .small) Tally.note) (fun p => p.1.StillEmpty) (Client.init .small, {})
      (successful ++ List.replicate 7 (Act.worker 0))).any (fun p => p.1.bridges = 0 ∧ p.1.sendsDone 1 = true ∧
        p.2.released 1 = Release.all ∧ (p.1.slots 1).dones = [none] ∧ 1 < p.1.nextId) = true := by decide
  obtain ⟨⟨s, o⟩, hp, hend⟩ := (Option.any_eq_true _ _).mp hrun
  obtain ⟨hzero, hdone, hall, hdones, hid⟩ := of_decide_eq_true hend
  have htally : Client.Tallied .small Client.StillEmpty _ (s, o) := run_of_replay hp
  refine ⟨_, s, o, htally, hzero, hall, hdones, fun bs t ht => ?_⟩
  have hsend := htally.reaches.no_send (by decide) hdone
  exact ((shutdown_accounting_exact htally).2.2 hzero hsend 1 (.inl hid) bs t ht).1

set_option maxRecDepth 10000 in
/-- The last chunk and the terminal arrive between the two reads of `run_owned`: the request gives
everything back, the counter is zero, and then the chunk is delivered. -/
theorem chunk_after_counter_zero : ∃ as s o bs t, Client.Tallied .small anyStep as (s, o) ∧ s.bridges = 0 ∧
    (∀ n args pc, s.calls n ≠ .sending args pc) ∧ 1 < s.nextId ∧ Client.Reaches .small anyStep s bs t ∧
    (t.slots 1).trace = (s.slots 1).trace ++ [.onChunk [7]] := by
  have hrun : (replay (observe (Client.step .small) Tally.note) anyStep (Client.init .small, {})
      (headDelivered ++ chunkAndEnd ++ List.replicate 10 (Act.worker 0))).any (fun p =>
        p.1.bridges = 0 ∧ p.1.sendsDone 1 = true ∧ 1 < p.1.nextId ∧
        (replay (Client.step .small) anyStep p.1
          (List.replicate 2 (Act.worker 0) ++ Act.pop 0 :: List.replicate 9 (.worker 0))).any (fun t =>
            (t.slots 1).trace = (p.1.slots 1).trace ++ [.onChunk [7]]) = true) = true := by decide
  obtain ⟨⟨s, o⟩, hp, hend⟩ := (Option.any_eq_true _ _).mp hrun
  obtain ⟨hzero, hdone, hid, hlater⟩ := of_decide_eq_true hend
  obtain ⟨t, ht, htrace⟩ := (Option.any_eq_true _ _).mp hlater
  have htally : Client.Tallied .small anyStep _ (s, o) := run_of_replay hp
  exact ⟨_, s, o, _, t, htally, hzero, htally.reaches.no_send (by decide) hdone, hid, run_of_replay ht,
    of_decide_eq_true htrace⟩

end Hyper4k.Bridge
