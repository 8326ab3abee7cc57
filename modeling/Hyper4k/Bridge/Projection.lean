import Mathlib.Data.List.Count
import Hyper4k.Bridge.Client

/-! One request of a client run is a run of its slot: what the threads do to other
requests leaves the slot's view alone. -/
namespace Hyper4k.Bridge

def Call.pcOn (r : ReqId) : Call → Pc
  | .request q pc => if q = r then pc else .away
  | .closingOn q pc _ _ => if q = r then pc else .away
  | _ => .away

def workerPcOn (r : ReqId) : Option (ReqId × Pc) → Pc
  | some (q, pc) => if q = r then pc else .away
  | none => .away

def Client.pcOn (s : Client) (r : ReqId) : Tid → Pc
  | .worker n => workerPcOn r (s.workers n)
  | .task => s.tasks r
  | .call n => (s.calls n).pcOn r

def Client.view (s : Client) (r : ReqId) : View := ⟨s.slots r, s.ready.count r, s.pcOn r⟩

def Client.moveOf (s : Client) (r : ReqId) : Act → Option Move
  | .pop n => if s.ready.head? = some r then some (.pop n) else none
  | .worker n => match s.workers n with
    | some (q, _) => if q = r then some (.exec (.worker n)) else none
    | none => none
  | .workerEnv n c => match s.workers n with
    | some (q, _) => if q = r then some (.env (.worker n) c) else none
    | none => none
  | .task q => if q = r then some (.exec .task) else none
  | .taskEnv q c => if q = r then some (.env .task c) else none
  | .begin _ _ => none
  | .call n => match s.calls n with
    | .lookup q e => if q = r ∧ q ∈ s.requests then some (.enter n e) else none
    | .request q _ => if q = r then some (.exec (.call n)) else none
    | .closing (q :: _) _ => if q = r ∧ q ∈ s.requests then some (.enter n .close) else none
    | .closingOn q _ _ _ => if q = r then some (.exec (.call n)) else none
    | .sending args (.spawn q) => if q = r then some (.spawn args.attempt) else none
    | .sending _ (.setAbort q) => if q = r then some .setAbort else none
    | _ => none

/-- The id a `send` call has drawn and not yet spawned a task for. -/
def Call.unspawned : Call → Option ReqId
  | .sending _ (.addInflight id) | .sending _ (.addBytes id) | .sending _ (.enterBridges id)
  | .sending _ (.insert id) | .sending _ (.writeId id) | .sending _ (.spawn id) => some id
  | _ => none

/-- Ids are drawn once, so no task is spawned twice. -/
structure Client.Fresh (s : Client) : Prop where
  beyond : ∀ id, s.nextId ≤ id → s.tasks id = .away
  drawn : ∀ n id, (s.calls n).unspawned = some id → id < s.nextId ∧ s.tasks id = .away
  once : ∀ n m id, (s.calls n).unspawned = some id → (s.calls m).unspawned = some id → n = m

section Frame
variable (s : Client) (r q : ReqId) (n : Nat) (o : Outcome)

@[simp] theorem apply_slots (e : Effect) : (s.apply q e).slots = s.slots := by
  cases e <;> simp only [Client.apply, Client.addPaused] <;> split <;> rfl

@[simp] theorem apply_threads (e : Effect) : (s.apply q e).workers = s.workers ∧
    (s.apply q e).tasks = s.tasks ∧ (s.apply q e).calls = s.calls ∧ (s.apply q e).nextId = s.nextId := by
  cases e <;> simp only [Client.apply, Client.addPaused, and_self] <;> split <;> simp

@[simp] theorem apply_closed (e : Effect) : (s.apply q e).closed = s.closed := by
  cases e <;> simp only [Client.apply, Client.addPaused] <;> split <;> rfl

theorem apply_ready (e : Effect) :
    (s.apply q e).ready.count r = s.ready.count r + if q = r then e.pushes else 0 := by
  cases e <;> simp only [Client.apply, Client.addPaused, Effect.pushes, ite_self, Nat.add_zero]
  case push =>
    rw [List.count_append, List.count_singleton]
    simp only [beq_iff_eq]
  all_goals split <;> rfl

theorem workerPcOn_put (r q : ReqId) (pc : Pc) :
    workerPcOn r (if pc = .away then none else some (q, pc)) = if q = r then pc else .away := by
  by_cases hp : pc = .away <;> simp [workerPcOn, hp]

/-- What a step on slot `q` leaves of slot `r`'s view: the stepping thread's counter
moves only if the slots are the same. -/
theorem view_commit_worker {pc : Pc} (hw : s.workers n = some (q, pc)) :
    ((s.commit q o).setWorker n q o.pc).view r =
      if q = r then (s.view r).put (.worker n) o else s.view r := by
  have hpc : ((s.commit q o).setWorker n q o.pc).pcOn r =
      if q = r then Function.update (s.pcOn r) (.worker n) o.pc else s.pcOn r := by
    funext t
    rcases t with m | _ | m
    · by_cases hm : m = n
      · subst m
        have hold : workerPcOn r (s.workers n) = if q = r then pc else .away := by rw [hw]; rfl
        by_cases hq : q = r <;>
          simp [Client.pcOn, Client.setWorker, Client.commit, workerPcOn_put, hold, hq]
      · by_cases hq : q = r <;>
          simp [Client.pcOn, Client.setWorker, Client.commit, hm, hq]
    all_goals by_cases hq : q = r <;> simp [Client.pcOn, Client.setWorker, Client.commit, hq]
  by_cases hq : q = r
  · subst hq
    ext1 <;> simp_all [Client.view, View.put, Client.setWorker, Client.commit, apply_ready]
  · ext1 <;> simp_all [Client.view, Client.setWorker, Client.commit, apply_ready, Ne.symm hq]

theorem view_commit_task :
    ((s.commit q o).setTask q o.pc).view r =
      if q = r then (s.view r).put .task o else s.view r := by
  have hpc : ((s.commit q o).setTask q o.pc).pcOn r =
      if q = r then Function.update (s.pcOn r) .task o.pc else s.pcOn r := by
    funext t
    by_cases hq : q = r
    · subst hq
      rcases t with m | _ | m <;> simp [Client.pcOn, Client.setTask, Client.commit]
    · rcases t with m | _ | m <;> simp [Client.pcOn, Client.setTask, Client.commit, hq, Ne.symm hq]
  by_cases hq : q = r
  · subst hq
    ext1 <;> simp_all [Client.view, View.put, Client.setTask, Client.commit, apply_ready]
  · ext1 <;> simp_all [Client.view, Client.setTask, Client.commit, apply_ready, Ne.symm hq]

theorem view_commit_call {c : Call} (hq : ∀ p, p ≠ q → (s.calls n).pcOn p = .away ∧ c.pcOn p = .away)
    (hc : c.pcOn q = o.pc) :
    ((s.commit q o).setCall n c).view r =
      if q = r then (s.view r).put (.call n) o else s.view r := by
  have hpc : ((s.commit q o).setCall n c).pcOn r =
      if q = r then Function.update (s.pcOn r) (.call n) o.pc else s.pcOn r := by
    funext t
    rcases t with m | _ | m
    · by_cases hr : q = r <;> simp [Client.pcOn, Client.setCall, Client.commit, hr]
    · by_cases hr : q = r <;> simp [Client.pcOn, Client.setCall, Client.commit, hr]
    · by_cases hm : m = n
      · subst m
        by_cases hr : q = r
        · subst hr
          simp [Client.pcOn, Client.setCall, Client.commit, hc]
        · obtain ⟨h1, h2⟩ := hq r (Ne.symm hr)
          simp [Client.pcOn, Client.setCall, Client.commit, hr, h1, h2]
      · by_cases hr : q = r <;> simp [Client.pcOn, Client.setCall, Client.commit, hm, hr]
  by_cases hr : q = r
  · subst hr
    ext1 <;> simp_all [Client.view, View.put, Client.setCall, Client.commit, apply_ready]
  · ext1 <;> simp_all [Client.view, Client.setCall, Client.commit, apply_ready, Ne.symm hr]

theorem view_setCall (c : Call) :
    (s.setCall n c).view r = { s.view r with pc := Function.update (s.pcOn r) (.call n) (c.pcOn r) } := by
  ext1
  · rfl
  · rfl
  · funext t
    rcases t with m | _ | m
    · rfl
    · rfl
    · by_cases hm : m = n
      · subst m
        simp [Client.view, Client.pcOn, Client.setCall]
      · simp [Client.view, Client.pcOn, Client.setCall, hm]

theorem view_setCall_same {c : Call} (hc : c.pcOn r = (s.calls n).pcOn r) :
    (s.setCall n c).view r = s.view r := by
  rw [view_setCall, hc, show (s.calls n).pcOn r = s.pcOn r (.call n) from rfl, Function.update_eq_self]
  rfl

end Frame

/-- How an action shows on slot `r`: as the move it amounts to, or not at all. -/
def Client.Shows (r : ReqId) (s t : Client) (m : Option Move) : Prop :=
  match m with
  | some m => (s.view r).step m = some (t.view r)
  | none => t.view r = s.view r

private theorem shows_put {s t : Client} {r q : ReqId} {tid : Tid} {o : Outcome} {m : Move}
    (hv : t.view r = if q = r then (s.view r).put tid o else s.view r)
    (hm : q = r → (s.view r).step m = some ((s.view r).put tid o)) :
    Client.Shows r s t (if q = r then some m else none) := by
  by_cases hq : q = r
  · rw [if_pos hq] at hv ⊢
    rw [Client.Shows, hv]
    exact hm hq
  · rw [if_neg hq] at hv ⊢
    exact hv

private theorem shows_exec {s t : Client} {r q : ReqId} {pc : Pc} {tid : Tid} {o : Outcome}
    (hv : t.view r = if q = r then (s.view r).put tid o else s.view r)
    (hpc : q = r → s.pcOn r tid = pc) (ho : (s.slots q).exec pc = some o) :
    Client.Shows r s t (if q = r then some (.exec tid) else none) := by
  refine shows_put hv fun hq => ?_
  subst hq
  rw [View.step, show (s.view q).pc tid = pc from hpc rfl, show (s.view q).slot = s.slots q from rfl, ho]
  rfl

private theorem shows_env {s t : Client} {r q : ReqId} {pc : Pc} {tid : Tid} {o : Outcome} {c : Choice}
    (hv : t.view r = if q = r then (s.view r).put tid o else s.view r)
    (hpc : q = r → s.pcOn r tid = pc) (ho : (s.slots q).env pc c = some o) :
    Client.Shows r s t (if q = r then some (.env tid c) else none) := by
  refine shows_put hv fun hq => ?_
  subst hq
  rw [View.step, show (s.view q).pc tid = pc from hpc rfl, show (s.view q).slot = s.slots q from rfl, ho]
  rfl

private theorem shows_call {s : Client} {r q : ReqId} {n : Nat} {pc : Pc} {o : Outcome} {c : Call}
    (hold : ∀ p, (s.calls n).pcOn p = if q = p then pc else .away)
    (hnew : ∀ p, c.pcOn p = if q = p then o.pc else .away) (ho : (s.slots q).exec pc = some o) :
    Client.Shows r s ((s.commit q o).setCall n c) (if q = r then some (.exec (.call n)) else none) := by
  refine shows_exec (view_commit_call s r q n o (fun p hp => ⟨?_, ?_⟩) ?_) (fun hq => ?_) ho
  · rw [hold, if_neg (Ne.symm hp)]
  · rw [hnew, if_neg (Ne.symm hp)]
  · rw [hnew, if_pos rfl]
  · exact (hold r).trans (if_pos hq)

private theorem shows_enter {s : Client} {r q : ReqId} {n : Nat} {e : Entry} {c d : Call}
    (haway : ∀ p, (s.calls n).pcOn p = .away) (hd : ∀ p, d.pcOn p = .away)
    (hc : ∀ p, c.pcOn p = if q = p then e.pc else .away) :
    Client.Shows r s (s.setCall n (if q ∈ s.requests then c else d))
      (if q = r ∧ q ∈ s.requests then some (.enter n e) else none) := by
  by_cases hm : q ∈ s.requests
  · by_cases hq : q = r
    · subst hq
      simp only [hm, and_self, if_true, Client.Shows, View.step]
      rw [if_pos (show (s.view q).pc (.call n) = .away from haway q), view_setCall, hc q, if_pos rfl]
      rfl
    · simp only [hq, false_and, if_false, Client.Shows, hm, if_true]
      exact view_setCall_same s r n (by rw [hc r, if_neg hq, haway r])
  · simp only [hm, and_false, if_false, Client.Shows]
    exact view_setCall_same s r n (by rw [hd r, haway r])

private theorem send_shows {cfg : Config} {s : Client} (hf : s.Fresh) {n : Nat} {args : SendArgs}
    {pc : SendPc} (hc : s.calls n = .sending args pc) (r : ReqId) :
    Client.Shows r s (s.send cfg n args pc) (s.moveOf r (.call n)) := by
  have hold : (s.calls n).pcOn r = .away := by rw [hc]; rfl
  simp only [Client.moveOf, hc]
  cases pc with
  | loadClosed =>
    refine view_setCall_same s r n ?_
    rw [hold]
    split
    · rfl
    · split <;> rfl
  | spawn id =>
    by_cases hid : id = r
    · subst hid
      have haway : s.tasks id = .away := (hf.drawn n id (by rw [hc]; rfl)).2
      simp only [if_true, Client.Shows, View.step, Client.send]
      rw [if_pos (show (s.view id).pc .task = .away from haway)]
      refine congrArg some (Eq.trans ?_ (view_setCall_same (s.setTask id _) id n (by exact hold.symm)).symm)
      refine View.ext rfl rfl ?_
      funext t
      rcases t with m | _ | m <;> simp [Client.view, Client.pcOn, Client.setTask]
    · simp only [hid, if_false, Client.Shows, Client.send]
      refine (view_setCall_same (s.setTask id _) r n (by exact hold.symm)).trans (View.ext rfl rfl ?_)
      funext t
      rcases t with m | _ | m <;> simp [Client.view, Client.pcOn, Client.setTask, Ne.symm hid]
  | setAbort id =>
    by_cases hid : id = r
    · subst hid
      simp only [if_true, Client.Shows, View.step, Client.send]
      refine congrArg some (Eq.trans ?_ (view_setCall_same _ id n (by exact hold.symm)).symm)
      refine View.ext ?_ rfl rfl
      simp [Client.view]
    · simp only [hid, if_false, Client.Shows, Client.send]
      refine (view_setCall_same _ r n (by exact hold.symm)).trans (View.ext ?_ rfl rfl)
      simp [Client.view, Ne.symm hid]
  | fetchId => exact view_setCall_same _ r n hold.symm
  | addInflight id => exact view_setCall_same _ r n hold.symm
  | addBytes id => exact view_setCall_same _ r n hold.symm
  | undoBytes => exact view_setCall_same _ r n hold.symm
  | undoInflight => exact view_setCall_same _ r n hold.symm
  | enterBridges id => exact view_setCall_same _ r n hold.symm
  | insert id => exact view_setCall_same _ r n hold.symm
  | writeId id => exact view_setCall_same _ r n hold.symm

/-- What a step of call `n` does: `send` goes on, the call acts on a request, `closed` is
set, or the call only moves. -/
inductive Client.Advanced (cfg : Config) (s : Client) (n : Nat) : Client → Prop
  | send (args : SendArgs) (pc : SendPc) (on : s.calls n = .sending args pc) :
    s.Advanced cfg n (s.send cfg n args pc)
  | act (r : ReqId) (o : Outcome) (c : Call) (ho : (s.slots r).exec (s.pcOn r (.call n)) = some o)
      (plain : ∀ args pc, c ≠ .sending args pc) : s.Advanced cfg n ((s.commit r o).setCall n c)
  | close (free : Bool) : s.Advanced cfg n ({ s with closed := true }.setCall n (.snapshot free))
  | move (c : Call) (plain : ∀ args pc, c ≠ .sending args pc) : s.Advanced cfg n (s.setCall n c)

theorem Client.advance_cases {cfg : Config} {s t : Client} {n : Nat} (h : s.advance cfg n = some t) :
    s.Advanced cfg n t := by
  unfold Client.advance at h
  cases hc : s.calls n with
  | idle =>
    rw [hc] at h
    cases h
  | sending args pc =>
    rw [hc] at h
    cases h
    exact .send args pc hc
  | storeClosed free =>
    rw [hc] at h
    cases h
    exact .close free
  | request r pc | closingOn r pc todo free =>
    have hpc : s.pcOn r (.call n) = pc := by simp [Client.pcOn, hc, Call.pcOn]
    rw [hc] at h
    simp only at h
    split at h
    · rename_i o ho
      cases h
      refine .act r o _ (by rw [hpc]; exact ho) ?_
      split <;> exact fun _ _ => Call.noConfusion
    · cases h
  | closing todo free =>
    rw [hc] at h
    cases todo <;> cases h
    all_goals
      refine .move _ ?_
      split <;> exact fun _ _ => Call.noConfusion
  | lookup r e =>
    rw [hc] at h
    cases h
    refine .move _ ?_
    split <;> exact fun _ _ => Call.noConfusion
  | waitZero =>
    rw [hc] at h
    simp only at h
    split at h <;> cases h
    exact .move _ fun _ _ => Call.noConfusion
  | snapshot free | done status =>
    rw [hc] at h
    cases h
    exact .move _ fun _ _ => Call.noConfusion

inductive Client.Stepped (cfg : Config) (s : Client) : Act → Client → Prop
  | pop (n : Nat) (r : ReqId) (rest : List ReqId) (free : s.workers n = none) (ready : s.ready = r :: rest) :
    s.Stepped cfg (.pop n) ({ s with ready := rest }.setWorker n r (.swapRunning SLICE))
  | worker (n : Nat) (r : ReqId) (pc : Pc) (o : Outcome) (on : s.workers n = some (r, pc))
      (ho : (s.slots r).exec pc = some o) : s.Stepped cfg (.worker n) ((s.commit r o).setWorker n r o.pc)
  | workerEnv (n : Nat) (c : Choice) (r : ReqId) (pc : Pc) (o : Outcome) (on : s.workers n = some (r, pc))
      (ho : (s.slots r).env pc c = some o) : s.Stepped cfg (.workerEnv n c) ((s.commit r o).setWorker n r o.pc)
  | task (r : ReqId) (o : Outcome) (ho : (s.slots r).exec (s.tasks r) = some o) :
    s.Stepped cfg (.task r) ((s.commit r o).setTask r o.pc)
  | taskEnv (r : ReqId) (c : Choice) (o : Outcome) (ho : (s.slots r).env (s.tasks r) c = some o) :
    s.Stepped cfg (.taskEnv r c) ((s.commit r o).setTask r o.pc)
  | begin (n : Nat) (api : Api) (idle : s.calls n = .idle) : s.Stepped cfg (.begin n api) (s.setCall n api.start)
  | call (n : Nat) (t : Client) (h : s.advance cfg n = some t) : s.Stepped cfg (.call n) t

theorem Client.step_cases {cfg : Config} {s t : Client} {a : Act} (h : s.step cfg a = some t) : s.Stepped cfg a t := by
  unfold Client.step at h
  cases a with
  | pop n =>
    simp only at h
    split at h
    case h_2 => cases h
    case h_1 r rest hfree hready =>
      cases h
      exact .pop n r rest hfree hready
  | worker n =>
    simp only at h
    split at h
    case h_2 => cases h
    case h_1 r pc hw =>
      obtain ⟨o, ho, rfl⟩ := Option.map_eq_some_iff.mp h
      exact .worker n r pc o hw ho
  | workerEnv n c =>
    simp only at h
    split at h
    case h_2 => cases h
    case h_1 r pc hw =>
      obtain ⟨o, ho, rfl⟩ := Option.map_eq_some_iff.mp h
      exact .workerEnv n c r pc o hw ho
  | task r =>
    obtain ⟨o, ho, rfl⟩ := Option.map_eq_some_iff.mp h
    exact .task r o ho
  | taskEnv r c =>
    obtain ⟨o, ho, rfl⟩ := Option.map_eq_some_iff.mp h
    exact .taskEnv r c o ho
  | begin n api =>
    simp only at h
    split at h
    case isFalse => cases h
    case isTrue hidle =>
      cases h
      exact .begin n api hidle
  | call n => exact .call n t h

/-- An action of the client is a move of slot `r`, or slot `r` does not see it. -/
theorem step_shows {cfg : Config} {s t : Client} (hf : s.Fresh) {a : Act} (h : s.step cfg a = some t)
    (r : ReqId) : Client.Shows r s t (s.moveOf r a) := by
  cases Client.step_cases h with
  | pop n q rest hw hr =>
    have hv : (({ s with ready := rest } : Client).setWorker n q (.swapRunning SLICE)).pcOn r =
        if q = r then Function.update (s.pcOn r) (.worker n) (.swapRunning SLICE) else s.pcOn r := by
      funext t
      have hold : s.pcOn r (.worker n) = .away := by simp [Client.pcOn, hw, workerPcOn]
      rcases t with m | _ | m
      · by_cases hm : m = n
        · subst m
          by_cases hq : q = r
          · simp [Client.pcOn, Client.setWorker, workerPcOn, hq]
          · rw [if_neg hq, hold]
            simp [Client.pcOn, Client.setWorker, workerPcOn, hq]
        · by_cases hq : q = r <;> simp [Client.pcOn, Client.setWorker, hq, hm]
      all_goals by_cases hq : q = r <;> simp [Client.pcOn, Client.setWorker, hq]
    by_cases hq : q = r
    · subst hq
      have hold : (s.view q).pc (.worker n) = .away := by simp [Client.view, Client.pcOn, hw, workerPcOn]
      have hcount : (s.view q).ready = rest.count q + 1 := by simp [Client.view, hr]
      simp only [Client.moveOf, hr, List.head?_cons, if_true, Client.Shows, View.step]
      rw [if_pos ⟨hold, by omega⟩]
      refine congrArg some (View.ext rfl ?_ (hv.trans (if_pos rfl)).symm)
      rw [hcount]
      rfl
    · have hne : ¬ some q = some r := fun e => hq (Option.some.inj e)
      simp only [Client.moveOf, hr, List.head?_cons, hne, if_false, Client.Shows]
      refine View.ext rfl ?_ (hv.trans (if_neg hq))
      simp [Client.view, Client.setWorker, hr, hq]
  | worker n q pc o hw ho =>
    simp only [Client.moveOf, hw]
    exact shows_exec (view_commit_worker s r q n o hw) (fun hq => by simp [Client.pcOn, hw, workerPcOn, hq]) ho
  | workerEnv n c q pc o hw ho =>
    simp only [Client.moveOf, hw]
    exact shows_env (view_commit_worker s r q n o hw) (fun hq => by simp [Client.pcOn, hw, workerPcOn, hq]) ho
  | task q o ho => exact shows_exec (view_commit_task s r q o) (fun hq => by rw [hq]; rfl) ho
  | taskEnv q c o ho => exact shows_env (view_commit_task s r q o) (fun hq => by rw [hq]; rfl) ho
  | begin n api hidle =>
    refine view_setCall_same s r n ?_
    rw [hidle]
    cases api <;> rfl
  | call n _ h =>
    simp only [Client.advance] at h
    rcases hc : s.calls n with _ | ⟨args, pc⟩ | ⟨q, e⟩ | ⟨q, pc⟩ | free | free | ⟨todo, free⟩ |
      ⟨q, pc, todo, free⟩ | _ | status
    case idle => simp only [hc, reduceCtorEq] at h
    case sending =>
      simp only [hc, Option.some.injEq] at h
      exact h ▸ send_shows hf hc r
    case lookup =>
      simp only [hc, Option.some.injEq] at h
      simp only [Client.moveOf, hc]
      exact h ▸ shows_enter (fun p => by rw [hc]; rfl) (fun _ => rfl) (fun _ => rfl)
    case request =>
      simp only [hc] at h
      simp only [Client.moveOf, hc]
      split at h
      case h_2 => cases h
      case h_1 o ho =>
        cases h
        exact shows_call (fun p => by rw [hc]; rfl) (fun p => by split <;> simp_all [Call.pcOn]) ho
    case closing =>
      rcases todo with _ | ⟨q, todo⟩
      · simp only [hc, Option.some.injEq] at h
        simp only [Client.moveOf, hc]
        refine h ▸ view_setCall_same s r n ?_
        rw [hc]
        split <;> rfl
      · simp only [hc, Option.some.injEq] at h
        simp only [Client.moveOf, hc]
        exact h ▸ shows_enter (fun p => by rw [hc]; rfl) (fun _ => rfl) (fun _ => rfl)
    case closingOn =>
      simp only [hc] at h
      simp only [Client.moveOf, hc]
      split at h
      case h_2 => cases h
      case h_1 o ho =>
        cases h
        exact shows_call (fun p => by rw [hc]; rfl) (fun p => by split <;> simp_all [Call.pcOn]) ho
    case waitZero =>
      simp only [hc] at h
      simp only [Client.moveOf, hc]
      split at h
      · cases h
        exact view_setCall_same s r n (by rw [hc]; rfl)
      · cases h
    all_goals
      simp only [hc, Option.some.injEq] at h
      simp only [Client.moveOf, hc]
      exact h ▸ view_setCall_same _ r n (by rw [hc]; rfl)

/-- What every move of a slot keeps, every action keeps for all requests. -/
theorem step_views {cfg : Config} {s t : Client} {a : Act} {I : View → Prop} (hf : s.Fresh)
    (h : s.step cfg a = some t) (keep : ∀ v m w, I v → v.Stepped m w → I w) (hs : ∀ r, I (s.view r)) :
    ∀ r, I (t.view r) := by
  intro r
  have hshow := step_shows hf h r
  rcases hm : s.moveOf r a with _ | m
  · rw [hm] at hshow
    rw [show t.view r = s.view r from hshow]
    exact hs r
  · rw [hm] at hshow
    exact keep _ m _ (hs r) (View.step_cases hshow)

theorem Client.Fresh.init (cfg : Config) : (Client.init cfg).Fresh where
  beyond _ _ := rfl
  drawn _ _ h := by cases h
  once _ _ _ h := by cases h

private theorem Fresh.congr {s t : Client} (hf : s.Fresh) (ht : t.tasks = s.tasks) (hc : t.calls = s.calls)
    (hn : t.nextId = s.nextId) : t.Fresh where
  beyond := by rw [ht, hn]; exact hf.beyond
  drawn := by rw [ht, hn, hc]; exact hf.drawn
  once := by rw [hc]; exact hf.once

private theorem Fresh.commit {s : Client} (hf : s.Fresh) (q : ReqId) (o : Outcome) : (s.commit q o).Fresh := by
  refine Fresh.congr hf ?_ ?_ ?_ <;> simp [Client.commit]

/-- A call that goes on draws no id: what it has not spawned it had not spawned before. -/
private theorem Fresh.goOn {s t : Client} (hf : s.Fresh) {n : Nat} {c : Call} (ht : t.tasks = s.tasks)
    (hcalls : t.calls = Function.update s.calls n c) (hn : t.nextId = s.nextId)
    (hc : ∀ id, c.unspawned = some id → (s.calls n).unspawned = some id) : t.Fresh := by
  have hold : ∀ m id, (t.calls m).unspawned = some id → (s.calls m).unspawned = some id := by
    intro m id hm
    rw [hcalls] at hm
    by_cases hmn : m = n
    · subst hmn
      exact hc id (by simpa using hm)
    · simpa [hmn] using hm
  refine ⟨?_, ?_, ?_⟩
  · rw [ht, hn]
    exact hf.beyond
  · rw [ht, hn]
    exact fun m id hm => hf.drawn m id (hold m id hm)
  · exact fun m k id hm hk => hf.once m k id (hold m id hm) (hold k id hk)

private theorem Fresh.setTask {s : Client} (hf : s.Fresh) {q : ReqId} (hq : s.tasks q ≠ .away) (pc : Pc) :
    (s.setTask q pc).Fresh := by
  have hold : ∀ id, s.tasks id = .away → (s.setTask q pc).tasks id = .away := by
    intro id hid
    have hne : id ≠ q := fun e => hq (e ▸ hid)
    simpa [Client.setTask, hne] using hid
  exact ⟨fun id h => hold id (hf.beyond id h),
    fun n id h => ⟨(hf.drawn n id h).1, hold id (hf.drawn n id h).2⟩, hf.once⟩

private theorem Fresh.send {cfg : Config} {s : Client} (hf : s.Fresh) {n : Nat} {args : SendArgs} {pc : SendPc}
    (hc : s.calls n = .sending args pc) : (s.send cfg n args pc).Fresh := by
  cases pc with
  | loadClosed =>
    refine Fresh.goOn hf rfl rfl rfl fun id h => ?_
    split at h
    · cases h
    · split at h <;> cases h
  | fetchId =>
    have hother : ∀ m id, m ≠ n → ((s.send cfg n args .fetchId).calls m).unspawned = some id →
        (s.calls m).unspawned = some id := by
      intro m id hm h
      simpa [Client.send, Client.setCall, hm] using h
    have hmine : ∀ id, ((s.send cfg n args .fetchId).calls n).unspawned = some id → id = s.nextId := by
      intro id h
      simpa [Client.send, Client.setCall, Call.unspawned, eq_comm] using h
    refine ⟨fun id h => hf.beyond id (Nat.le_of_succ_le h), fun m id h => ?_, fun m k id hm hk => ?_⟩
    · by_cases hmn : m = n
      · rw [hmine id (hmn ▸ h)]
        exact ⟨Nat.lt_succ_self _, hf.beyond _ (Nat.le_refl _)⟩
      · obtain ⟨hlt, haway⟩ := hf.drawn m id (hother m id hmn h)
        exact ⟨Nat.lt_succ_of_lt hlt, haway⟩
    · by_cases hmn : m = n <;> by_cases hkn : k = n
      · rw [hmn, hkn]
      · have hlt := (hf.drawn k id (hother k id hkn hk)).1
        exact absurd (hmine id (hmn ▸ hm)) (Nat.ne_of_lt hlt)
      · have hlt := (hf.drawn m id (hother m id hmn hm)).1
        exact absurd (hmine id (hkn ▸ hk)) (Nat.ne_of_lt hlt)
      · exact hf.once m k id (hother m id hmn hm) (hother k id hkn hk)
  | spawn id =>
    have hid := hf.drawn n id (by rw [hc]; rfl)
    have hother : ∀ m id', ((s.send cfg n args (.spawn id)).calls m).unspawned = some id' →
        m ≠ n ∧ (s.calls m).unspawned = some id' := by
      intro m id' h
      by_cases hmn : m = n
      · subst hmn
        simp [Client.send, Client.setCall, Call.unspawned] at h
      · exact ⟨hmn, by simpa [Client.send, Client.setCall, Client.setTask, hmn] using h⟩
    refine ⟨fun id' h => ?_, fun m id' h => ?_, fun m k id' hm hk => ?_⟩
    · have hne : id' ≠ id := Nat.ne_of_gt (Nat.lt_of_lt_of_le hid.1 h)
      simpa [Client.send, Client.setCall, Client.setTask, hne] using hf.beyond id' h
    · obtain ⟨hmn, hold⟩ := hother m id' h
      have hne : id' ≠ id := fun e => hmn (hf.once m n id' hold (by rw [hc, e]; rfl))
      obtain ⟨hlt, haway⟩ := hf.drawn m id' hold
      exact ⟨hlt, by simpa [Client.send, Client.setCall, Client.setTask, hne] using haway⟩
    · exact hf.once m k id' (hother m id' hm).2 (hother k id' hk).2
  | addInflight id =>
    refine Fresh.goOn hf rfl rfl rfl fun id' h => ?_
    split at h
    · cases h
    · exact (by rw [hc]; exact h)
  | addBytes id =>
    refine Fresh.goOn hf rfl rfl rfl fun id' h => ?_
    split at h
    · cases h
    · exact (by rw [hc]; exact h)
  | enterBridges id => exact Fresh.goOn hf rfl rfl rfl fun id' h => by rw [hc]; exact h
  | insert id => exact Fresh.goOn hf rfl rfl rfl fun id' h => by rw [hc]; exact h
  | writeId id => exact Fresh.goOn hf rfl rfl rfl fun id' h => by rw [hc]; exact h
  | setAbort id => exact Fresh.goOn hf rfl rfl rfl fun id' h => by cases h
  | undoBytes => exact Fresh.goOn hf rfl rfl rfl fun id' h => by cases h
  | undoInflight => exact Fresh.goOn hf rfl rfl rfl fun id' h => by cases h

private theorem unspawned_of_plain {c : Call} (h : ∀ args pc, c ≠ .sending args pc) : c.unspawned = none := by
  cases c with
  | sending args pc => exact absurd rfl (h args pc)
  | _ => rfl

theorem Client.Fresh.step {cfg : Config} {s t : Client} (hf : s.Fresh) {a : Act} (h : s.step cfg a = some t) :
    t.Fresh := by
  have plain : ∀ {c : Call} (n : Nat), (∀ args pc, c ≠ .sending args pc) →
      ∀ id, c.unspawned = some id → (s.calls n).unspawned = some id := by
    intro c n hc id hid
    rw [unspawned_of_plain hc] at hid
    cases hid
  cases Client.step_cases h with
  | pop => exact Fresh.congr hf rfl rfl rfl
  | worker n q pc o | workerEnv n c q pc o => exact Fresh.congr (Fresh.commit hf q o) rfl rfl rfl
  | task q o ho =>
    refine Fresh.setTask (Fresh.commit hf q o) ?_ _
    have hne : s.tasks q ≠ .away := fun e => by rw [e] at ho; cases ho
    simpa [Client.commit] using hne
  | taskEnv q c o ho =>
    refine Fresh.setTask (Fresh.commit hf q o) ?_ _
    have hne : s.tasks q ≠ .away := fun e => by
      rw [e] at ho
      cases c <;> cases ho
    simpa [Client.commit] using hne
  | begin n api => exact Fresh.goOn hf rfl rfl rfl fun id h => by cases api <;> cases h
  | call n _ h =>
    cases Client.advance_cases h with
    | send args pc hc => exact Fresh.send hf hc
    | act q o c _ hc =>
      refine Fresh.goOn (Fresh.commit hf q o) rfl rfl rfl fun id hid => ?_
      simpa [Client.commit] using plain n hc id hid
    | close => exact Fresh.goOn hf rfl rfl rfl fun id hid => by cases hid
    | move c hc => exact Fresh.goOn hf rfl rfl rfl (plain n hc)

/-- A guard on slot `r`'s moves, read as a guard on the client's actions. -/
def Client.On (r : ReqId) (ok : View → Move → Prop) (s : Client) (a : Act) : Prop :=
  ∀ m, s.moveOf r a = some m → ok (s.view r) m

instance (r : ReqId) (ok : View → Move → Prop) [∀ v m, Decidable (ok v m)] (s : Client) (a : Act) :
    Decidable (Client.On r ok s a) :=
  match h : s.moveOf r a with
  | none => isTrue fun m hm => by rw [h] at hm; cases hm
  | some m => decidable_of_iff (ok (s.view r) m)
      ⟨fun hok m' hm => by rw [h] at hm; cases hm; exact hok, fun hall => hall m h⟩

@[simp] theorem view_init (cfg : Config) (r : ReqId) :
    (Client.init cfg).view r = View.init (cfg.onChunk r) cfg.queueCapacity := by
  refine View.ext rfl rfl ?_
  funext t
  rcases t with _ | _ | _ <;> rfl

theorem Client.Reaches.fresh {cfg : Config} {ok : Client → Act → Prop} {s t : Client} {as : List Act}
    (h : Client.Reaches cfg ok s as t) (hf : s.Fresh) : t.Fresh :=
  Runs.Run.invariant h (fun _ _ _ _ hs hm => hs.step hm) hf

/-- Slot `r`'s part of a client run is a run of the slot. -/
theorem Client.Reaches.view {cfg : Config} {r : ReqId} {ok : View → Move → Prop} {s t : Client}
    {as : List Act} (h : Client.Reaches cfg (Client.On r ok) s as t) (hf : s.Fresh) :
    ∃ ms, View.Reaches ok (s.view r) ms (t.view r) := by
  refine Runs.Run.project (J := Client.Fresh) (fun s => s.view r) (fun _ _ _ hs hm => hs.step hm) ?_ h hf
  intro s a t hs hok hm
  have hshow := step_shows hs hm r
  rcases hmove : s.moveOf r a with _ | m
  · rw [hmove] at hshow
    exact .inl hshow
  · rw [hmove] at hshow
    exact .inr ⟨m, hok m hmove, hshow⟩

theorem Client.Reaches.on_any {cfg : Config} {ok : Client → Act → Prop} {s t : Client} {as : List Act}
    (h : Client.Reaches cfg ok s as t) (r : ReqId) : Client.Reaches cfg (Client.On r Runs.anyStep) s as t :=
  h.mono fun _ _ _ _ _ => trivial

/-- What the guarded moves of a slot keep holds of every request in every guarded run. -/
theorem Client.Reaches.holds {cfg : Config} {r : ReqId} {ok : View → Move → Prop} {t : Client}
    {as : List Act} {I : View → Prop} (h : Client.Reaches cfg (Client.On r ok) (Client.init cfg) as t)
    (hinit : I (View.init (cfg.onChunk r) cfg.queueCapacity))
    (keep : ∀ v m w, ok v m → I v → v.Stepped m w → I w) : I (t.view r) := by
  obtain ⟨ms, hms⟩ := h.view (Client.Fresh.init cfg)
  rw [view_init] at hms
  exact Runs.Run.invariant hms (fun v m w hok hv hs => keep v m w hok hv (View.step_cases hs)) hinit

/-- What every move of a slot keeps holds of every request in every run. -/
theorem Client.Reaches.always {cfg : Config} {ok : Client → Act → Prop} {t : Client} {as : List Act}
    {I : View → Prop} (h : Client.Reaches cfg ok (Client.init cfg) as t) (r : ReqId)
    (hinit : I (View.init (cfg.onChunk r) cfg.queueCapacity))
    (keep : ∀ v m w, I v → v.Stepped m w → I w) : I (t.view r) :=
  (h.on_any r).holds hinit fun v m w _ => keep v m w

def Act.below (k : Nat) : Act → Bool
  | .pop n | .worker n | .workerEnv n _ | .begin n _ | .call n => n < k
  | .task _ | .taskEnv _ _ => true

theorem advance_threads {cfg : Config} {s t : Client} {n m : Nat} (hm : m ≠ n)
    (h : s.advance cfg n = some t) : t.workers = s.workers ∧ t.calls m = s.calls m := by
  cases Client.advance_cases h with
  | send args pc => cases pc <;> exact ⟨rfl, Function.update_of_ne hm _ _⟩
  | act q o c => simp [Client.setCall, Client.commit, hm]
  | close | move => exact ⟨rfl, Function.update_of_ne hm _ _⟩

def Client.Beyond (k : Nat) (s : Client) : Prop := ∀ n, k ≤ n → s.workers n = none ∧ s.calls n = .idle

private theorem Beyond.step {cfg : Config} {k : Nat} {s t : Client} {a : Act} (ha : a.below k = true)
    (hs : s.Beyond k) (h : s.step cfg a = some t) : t.Beyond k := by
  intro m hm
  have ne : ∀ {n : Nat}, decide (n < k) = true → m ≠ n := by
    intro n hn
    have hlt := of_decide_eq_true hn
    omega
  cases Client.step_cases h with
  | pop n => simpa [Client.setWorker, ne ha] using hs m hm
  | worker n | workerEnv n => simpa [Client.setWorker, Client.commit, ne ha] using hs m hm
  | task | taskEnv => simpa [Client.setTask, Client.commit] using hs m hm
  | begin n => simpa [Client.setCall, ne ha] using hs m hm
  | call n _ h =>
    obtain ⟨hw, hc⟩ := advance_threads (ne ha) h
    rw [hw, hc]
    exact hs m hm

theorem Client.Reaches.beyond {cfg : Config} {ok : Client → Act → Prop} {as : List Act} {t : Client}
    (h : Client.Reaches cfg ok (Client.init cfg) as t) {k : Nat} (hbelow : ∀ a ∈ as, a.below k = true) : t.Beyond k :=
  Runs.Run.invariant h.mem (fun _ a _ ha hs hm => Beyond.step (hbelow a ha.2) hs hm) fun _ _ => ⟨rfl, rfl⟩

/-- A test of the places on slot `r` of the threads numbered below `k`. -/
def Client.allPcs (k : Nat) (r : ReqId) (p : Tid → Pc → Bool) (t : Client) : Bool :=
  p .task ((t.view r).pc .task) &&
    (List.range k).all fun n => p (.worker n) ((t.view r).pc (.worker n)) && p (.call n) ((t.view r).pc (.call n))

/-- What holds of the threads that acted, and of a thread that is away, holds of all. -/
theorem Client.Reaches.allPcs {cfg : Config} {ok : Client → Act → Prop} {as : List Act} {t : Client}
    (h : Client.Reaches cfg ok (Client.init cfg) as t) {k : Nat} {r : ReqId} {p : Tid → Pc → Bool}
    (hbelow : ∀ a ∈ as, a.below k = true) (haway : ∀ u, p u .away = true) (hp : t.allPcs k r p = true) :
    ∀ u, p u ((t.view r).pc u) = true := by
  have hbeyond := h.beyond hbelow
  simp only [Client.allPcs, Bool.and_eq_true, List.all_eq_true, List.mem_range] at hp
  obtain ⟨htask, hthreads⟩ := hp
  intro u
  rcases u with n | _ | n
  · by_cases hn : n < k
    · exact (hthreads n hn).1
    · have := (hbeyond n (by omega)).1
      simpa [Client.view, Client.pcOn, this, workerPcOn] using haway (.worker n)
  · exact htask
  · by_cases hn : n < k
    · exact (hthreads n hn).2
    · have := (hbeyond n (by omega)).2
      simpa [Client.view, Client.pcOn, this, Call.pcOn] using haway (.call n)

/-- Executes a schedule, tests the state it leads to, and goes on from there. -/
def Client.after (cfg : Config) (ok : Client → Act → Prop) [∀ s a, Decidable (ok s a)] (as : List Act)
    (P : Client → Prop) [DecidablePred P] (next : Client → Bool) (s : Client) : Bool :=
  match Runs.replay (Client.step cfg) ok s as with
  | some t => decide (P t) && next t
  | none => false

theorem Client.of_after {cfg : Config} {ok : Client → Act → Prop} [∀ s a, Decidable (ok s a)] {as : List Act}
    {P : Client → Prop} [DecidablePred P] {next : Client → Bool} {s : Client}
    (h : Client.after cfg ok as P next s = true) : ∃ t, Client.Reaches cfg ok s as t ∧ P t ∧ next t = true := by
  unfold Client.after at h
  split at h
  · rename_i t ht
    obtain ⟨hp, hn⟩ := Bool.and_eq_true_iff.mp h
    exact ⟨t, Runs.run_of_replay ht, of_decide_eq_true hp, hn⟩
  · cases h

theorem Client.Reaches.any {cfg : Config} {ok : Client → Act → Prop} {s t : Client} {as : List Act}
    (h : Client.Reaches cfg ok s as t) : Client.Reaches cfg Runs.anyStep s as t :=
  h.mono fun _ _ _ => trivial

end Hyper4k.Bridge
