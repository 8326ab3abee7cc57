import Hyper4k.Runs.Observed
import Hyper4k.Bridge.Delivery

/-! The registry of a client's requests, between `send`, which adds to it, and `close`,
which settles what it finds there. -/
namespace Hyper4k.Bridge
open Runs

def Pc.retiring : Pc → Bool
  | .takeTerminal | .deliverDone _ | .inDone | .storeFinished | .takeFinished | .dropBytes | .dropInflight
  | .removeRequest | .leave => true
  | _ => false

theorem exec_retiring {s : Slot} {pc : Pc} {o : Outcome} (h : s.exec pc = some o) :
    (s.doneReady = true → o.slot.doneReady = true) ∧
      (o.pc.retiring = true → pc.retiring = true ∨ s.doneReady = true) := by
  cases pc with
  | loadDone =>
    simp only [Slot.exec] at h
    split at h
    · rename_i hd
      cases h
      exact ⟨id, fun _ => .inr hd⟩
    · cases h
      exact ⟨id, fun hr => by cases hr⟩
  | takeTerminal | takeFinished =>
    simp only [Slot.exec] at h
    split at h <;> cases h <;> exact ⟨id, fun _ => .inl rfl⟩
  | deliverDone t | inDone | storeFinished | dropBytes | dropInflight | removeRequest | leave =>
    cases h
    exact ⟨id, fun _ => .inl rfl⟩
  | storeDone c discard =>
    cases h
    exact ⟨fun _ => rfl, fun hr => by cases hr⟩
  | _ =>
    simp only [Slot.exec] at h
    repeat' split at h
    all_goals first
      | (cases h; exact ⟨id, fun hr => by cases hr⟩)
      | cases h

theorem Slot.Acts.retiring {s : Slot} {pc : Pc} {o : Outcome} (h : s.Acts pc o) :
    (s.doneReady = true → o.slot.doneReady = true) ∧
      (o.pc.retiring = true → pc.retiring = true ∨ s.doneReady = true) := by
  refine h.rule (P := fun pc o => (s.doneReady = true → o.slot.doneReady = true) ∧
    (o.pc.retiring = true → pc.retiring = true ∨ s.doneReady = true)) exec_retiring (fun h => ?_) fun p e hentry => ?_
  · cases h with
    | received f => rcases f with (_ | _) | _ <;> exact ⟨id, fun hr => by cases hr⟩
    | _ => exact ⟨id, fun hr => by cases hr⟩
  · refine ⟨id, fun hr => ?_⟩
    cases hentry <;> cases hr

/-- A request is retired only with a terminal that was claimed. -/
structure View.Retires (v : View) : Prop where
  gated : v.Gated
  ready : ∀ t, (v.pc t).retiring = true → v.slot.doneReady = true

theorem View.Retires.init (onChunk : Bool) (queueCapacity : Nat) : (View.init onChunk queueCapacity).Retires :=
  ⟨.init _ _, fun _ h => by cases h⟩

theorem View.Retires.step {v w : View} {m : Move} (hv : v.Retires) (h : v.Stepped m w) : w.Retires := by
  refine ⟨hv.gated.step h, ?_⟩
  rcases h.acts with hw | ⟨t, o, ha, -, hw⟩
  · rw [hw]
    exact hv.ready
  · rw [hw]
    obtain ⟨hdone, hretiring⟩ := ha.retiring
    refine forall_update (Q := fun _ (pc : Pc) => pc.retiring = true → o.slot.doneReady = true) (fun hr => hdone ?_)
      fun u _ hr => hdone (hv.ready u hr)
    rcases hretiring hr with hr | hd
    · exact hv.ready t hr
    · exact hd

theorem View.Retires.claimed {v : View} (hv : v.Retires) {t : Tid} (ht : (v.pc t).retiring = true) :
    v.slot.state ≠ .running :=
  hv.gated.claimed_of_ready (hv.ready t ht)

theorem View.Stepped.claimed {v w : View} {m : Move} (h : v.Stepped m w) (hv : v.slot.state ≠ .running) :
    w.slot.state ≠ .running := by
  rcases h.acts with hw | ⟨t, o, ha, -, hw⟩
  · rw [hw]
    exact hv
  · rw [hw]
    have hflow := ha.flow
    generalize v.pc t = pc at hflow
    cases hflow with
    | same flow held passed trace state =>
      show o.slot.state ≠ .running
      rw [state hv]
      exact hv
    | _ => exact hv

theorem step_claimed {cfg : Config} {s t : Client} {a : Act} (hf : s.Fresh) (h : s.step cfg a = some t) {id : ReqId}
    (hs : (s.slots id).state ≠ .running) : (t.slots id).state ≠ .running := by
  have hshow := step_shows hf h id
  rcases hm : s.moveOf id a with _ | m
  · rw [hm] at hshow
    rw [show t.slots id = s.slots id from congrArg View.slot hshow]
    exact hs
  · rw [hm] at hshow
    exact (View.step_cases hshow).claimed hs

private theorem exec_removes {s : Slot} {pc : Pc} {o : Outcome} (h : s.exec pc = some o)
    (he : o.effect = .removeRequest) : pc = .removeRequest := by
  cases pc with
  | removeRequest => rfl
  | _ =>
    simp only [Slot.exec] at h
    repeat' split at h
    all_goals first
      | (cases h; cases he)
      | cases h

private theorem env_removes {s : Slot} {pc : Pc} {c : Choice} {o : Outcome} (h : s.env pc c = some o) :
    o.effect ≠ .removeRequest := by
  cases Slot.env_cases h <;> exact Effect.noConfusion

private theorem commit_requests {s : Client} {q id : ReqId} {o : Outcome} (h : id ∈ s.requests) :
    id ∈ (s.commit q o).requests ∨ q = id ∧ o.effect = .removeRequest := by
  by_cases hr : o.effect = .removeRequest
  · by_cases hq : q = id
    · exact .inr ⟨hq, hr⟩
    · left
      simp only [Client.commit, hr, Client.apply, List.mem_filter]
      exact ⟨h, by simpa using Ne.symm hq⟩
  · left
    simp only [Client.commit]
    cases he : o.effect <;> simp only [Client.apply, Client.addPaused] <;> first
      | exact h
      | exact absurd he hr
      | (split <;> exact h)

/-- Only the worker that retires a request takes it out of the registry. -/
theorem step_requests {cfg : Config} {s t : Client} {a : Act} (h : s.step cfg a = some t) {id : ReqId}
    (hmem : id ∈ s.requests) : id ∈ t.requests ∨ ∃ u, (s.view id).pc u = .removeRequest := by
  cases Client.step_cases h with
  | pop | begin => exact .inl hmem
  | worker n q pc o hw ho =>
    refine (commit_requests hmem).imp_right fun ⟨hq, he⟩ => ⟨.worker n, ?_⟩
    simp [Client.view, Client.pcOn, hw, workerPcOn, hq, exec_removes ho he]
  | workerEnv n c q pc o _ ho => exact (commit_requests hmem).imp_right fun ⟨_, he⟩ => absurd he (env_removes ho)
  | task q o ho =>
    refine (commit_requests hmem).imp_right fun ⟨hq, he⟩ => ⟨.task, ?_⟩
    rw [← hq]
    exact exec_removes ho he
  | taskEnv q c o ho => exact (commit_requests hmem).imp_right fun ⟨_, he⟩ => absurd he (env_removes ho)
  | call n _ h =>
    cases Client.advance_cases h with
    | send args pc =>
      cases pc with
      | insert id' => exact .inl (List.mem_append_left _ hmem)
      | _ => exact .inl hmem
    | act q o c ho =>
      refine (commit_requests hmem).imp_right fun ⟨hq, he⟩ => ⟨.call n, ?_⟩
      rw [← hq]
      exact exec_removes ho he
    | close | move => exact .inl hmem

def Call.beforeSnapshot : Call → Bool
  | .storeClosed _ | .snapshot _ => true
  | _ => false

/-- A `close` or `free` that will still settle request `id`, if it is in the registry. -/
def Call.willSettle (id : ReqId) : Call → Prop
  | .storeClosed _ | .snapshot _ => True
  | .closing todo _ => id ∈ todo
  | .closingOn q pc todo _ => id ∈ todo ∨ q = id ∧ pc = Entry.close.pc
  | _ => False

theorem Call.willSettle_of_beforeSnapshot {c : Call} (h : c.beforeSnapshot = true) (id : ReqId) : c.willSettle id := by
  cases c <;> trivial

/-- A registered request is settled, or in the registry for a `close` to find. -/
def Client.Kept (s : Client) (id : ReqId) : Prop :=
  (s.slots id).state ≠ .running ∨ id ∈ s.requests ∧ (s.closed = true → ∃ m, (s.calls m).willSettle id)

/-- The claim of `close` settles its request. -/
private theorem close_claims {s : Slot} {o : Outcome} (h : s.exec Entry.close.pc = some o) :
    o.slot.state ≠ .running := by
  simp only [Entry.pc, Slot.exec] at h
  split at h
  · cases h
    exact State.noConfusion
  · rename_i hs
    cases h
    exact hs

/-- A `close` under way reaches every request it has yet to settle. -/
private theorem willSettle_step {cfg : Config} {s t : Client} {n : Nat} (h : s.advance cfg n = some t) {id : ReqId}
    (hmem : id ∈ s.requests) (hrun : (t.slots id).state = .running) (hw : (s.calls n).willSettle id) :
    (t.calls n).willSettle id := by
  simp only [Client.advance] at h
  rcases hc : s.calls n with _ | ⟨args, pc⟩ | ⟨q, e⟩ | ⟨q, pc⟩ | free | free | ⟨_ | ⟨q, todo⟩, free⟩ |
    ⟨q, pc, todo, free⟩ | _ | status <;> simp only [hc] at h hw
  case storeClosed =>
    cases h
    simp [Client.setCall, Call.willSettle]
  case snapshot =>
    cases h
    simpa [Client.setCall, Call.willSettle] using hmem
  case closing.nil => cases hw
  case closing.cons =>
    cases h
    have hmem' : id = q ∨ id ∈ todo := List.mem_cons.mp hw
    by_cases hq : q ∈ s.requests
    · simpa [Client.setCall, Call.willSettle, hq, eq_comm, or_comm] using hmem'
    · have hne : id ≠ q := fun e => hq (e ▸ hmem)
      simpa [Client.setCall, Call.willSettle, hq, hne] using hmem'
  case closingOn =>
    split at h
    case h_2 => cases h
    case h_1 o ho =>
      cases h
      have htodo : id ∈ todo := by
        rcases hw with htodo | ⟨rfl, rfl⟩
        · exact htodo
        · exact absurd (by simpa [Client.setCall, Client.commit] using hrun) (close_claims ho)
      simp only [Client.setCall, Function.update_self]
      split
      · exact htodo
      · exact .inl htodo
  all_goals cases hw

/-- No action other than a call's own step touches `closed` or a call that is under way. -/
theorem step_calls {cfg : Config} {s t : Client} {a : Act} (h : s.step cfg a = some t)
    (ha : ∀ n, a ≠ .call n) : t.closed = s.closed ∧
      ∀ m, t.calls m = s.calls m ∨ s.calls m = .idle ∧ ∃ api, a = .begin m api ∧ t.calls m = api.start := by
  cases Client.step_cases h with
  | pop => exact ⟨rfl, fun _ => .inl rfl⟩
  | worker | workerEnv => simp [Client.setWorker, Client.commit]
  | task | taskEnv => simp [Client.setTask, Client.commit]
  | begin n api hidle =>
    refine ⟨rfl, fun m => ?_⟩
    by_cases hm : m = n
    · subst hm
      exact .inr ⟨hidle, api, rfl, Function.update_self _ _ _⟩
    · exact .inl (Function.update_of_ne hm _ _)
  | call n => exact absurd rfl (ha n)

/-- `closed` is set by a `close` that then goes on to its snapshot. -/
private theorem closed_step {cfg : Config} {s t : Client} {n : Nat} (h : s.advance cfg n = some t)
    (hopen : s.closed = false) (hclosed : t.closed = true) : (t.calls n).beforeSnapshot = true := by
  have absurd_of_same : t.closed = s.closed → (t.calls n).beforeSnapshot = true := by
    intro he
    rw [he, hopen] at hclosed
    cases hclosed
  cases Client.advance_cases h with
  | send args pc => cases pc <;> exact absurd_of_same rfl
  | act q o c => exact absurd_of_same (by simp [Client.setCall, Client.commit])
  | close free => simp [Client.setCall, Call.beforeSnapshot]
  | move => exact absurd_of_same rfl

theorem Client.Kept.step {cfg : Config} {s t : Client} {a : Act} {id : ReqId} (hf : s.Fresh)
    (hr : (s.view id).Retires) (h : s.step cfg a = some t) (hk : s.Kept id) : t.Kept id := by
  by_cases hnew : (t.slots id).state = .running
  case neg => exact .inl hnew
  have hold : (s.slots id).state = .running := by
    by_contra hs
    exact step_claimed hf h hs hnew
  obtain ⟨hmem, hwill⟩ := hk.resolve_left fun hs => hs hold
  have hmem' : id ∈ t.requests := by
    refine (step_requests h hmem).resolve_right fun ⟨u, hu⟩ => ?_
    exact hr.claimed (by rw [hu]; rfl) hold
  refine .inr ⟨hmem', fun hclosed => ?_⟩
  by_cases hcall : ∃ n, a = .call n
  · obtain ⟨n, rfl⟩ := hcall
    cases hc : s.closed with
    | false => exact ⟨n, Call.willSettle_of_beforeSnapshot (closed_step h hc hclosed) id⟩
    | true =>
      obtain ⟨m, hm⟩ := hwill hc
      refine ⟨m, ?_⟩
      by_cases hmn : m = n
      · subst hmn
        exact willSettle_step h hmem hnew hm
      · rw [(advance_threads hmn h).2]
        exact hm
  · obtain ⟨hsame, hcalls⟩ := step_calls h fun n hn => hcall ⟨n, hn⟩
    obtain ⟨m, hm⟩ := hwill (hsame ▸ hclosed)
    refine ⟨m, ?_⟩
    rcases hcalls m with he | ⟨he, -⟩
    · rw [he]
      exact hm
    · rw [he] at hm
      cases hm

/-- What came of the `send` calls: the request each call in progress has registered, and
every return status with the request that was registered before it. -/
structure Sends where
  pending : Nat → Option ReqId
  returned : List (Status × Option ReqId)

def Sends.none : Sends := ⟨fun _ => .none, []⟩

def Client.noteSend (s : Client) (a : Act) (t : Client) (o : Sends) : Sends :=
  match a with
  | .begin n (.send _) => { o with pending := Function.update o.pending n .none }
  | .call n => match s.calls n with
    | .sending _ (.insert id) => { o with pending := Function.update o.pending n (some id) }
    | .sending _ _ => match t.calls n with
      | .done status => { o with returned := (status, o.pending n) :: o.returned }
      | _ => o
    | _ => o
  | _ => o

def Sends.Registered (o : Sends) (id : ReqId) : Prop :=
  (∃ n, o.pending n = some id) ∨ ∃ e ∈ o.returned, e.2 = some id

def SendPc.registered : SendPc → Option ReqId
  | .writeId id | .spawn id | .setAbort id => some id
  | _ => .none

/-- The notes are up to date, only `OK` is returned for a registered request, and every
registered request is kept. -/
structure Client.Ledger (s : Client) (o : Sends) : Prop where
  pending : ∀ n args pc, s.calls n = .sending args pc → o.pending n = pc.registered
  status : ∀ st id, (st, some id) ∈ o.returned → st = .ok
  kept : ∀ id, o.Registered id → s.Kept id

theorem Client.Ledger.init (cfg : Config) : (Client.init cfg).Ledger Sends.none where
  pending _ _ _ h := by cases h
  status _ _ h := by cases h
  kept id h := by
    rcases h with ⟨n, hn⟩ | ⟨e, he, -⟩
    · cases hn
    · cases he

/-- A `send` step other than the registration goes on with what it had registered, or
returns, and then with `OK` if it had registered a request. -/
private theorem send_next (cfg : Config) (s : Client) (n : Nat) (args : SendArgs) {pc : SendPc}
    (hpc : ∀ id, pc ≠ .insert id) :
    (∃ pc', (s.send cfg n args pc).calls n = .sending args pc' ∧ pc'.registered = pc.registered) ∨
    ∃ st, (s.send cfg n args pc).calls n = .done st ∧ ∀ id, pc.registered = some id → st = .ok := by
  cases pc with
  | insert id => exact absurd rfl (hpc id)
  | loadClosed =>
    simp only [Client.send, Client.setCall, Function.update_self]
    split
    · exact .inr ⟨_, rfl, fun id hid => by cases hid⟩
    · split
      · exact .inr ⟨_, rfl, fun id hid => by cases hid⟩
      · exact .inl ⟨_, rfl, rfl⟩
  | addInflight id | addBytes id =>
    refine .inl ⟨_, Function.update_self _ _ _, ?_⟩
    split <;> rfl
  | undoInflight => exact .inr ⟨_, Function.update_self _ _ _, fun id hid => by cases hid⟩
  | setAbort id => exact .inr ⟨_, Function.update_self _ _ _, fun _ _ => rfl⟩
  | _ => exact .inl ⟨_, Function.update_self _ _ _, rfl⟩

def Call.registers : Call → Bool
  | .sending _ (.insert _) => true
  | _ => false

/-- When `send` registers a request after `closed` was set, some `close` has yet to look at
the registry. -/
def Client.RegistersInTime (s : Client) : Act → Prop
  | .call n => (s.calls n).registers = true → s.closed = true → ∃ m, (s.calls m).beforeSnapshot = true
  | _ => True

private theorem Ledger.same {s t : Client} {o : Sends} (hl : s.Ledger o) (hk : ∀ id, s.Kept id → t.Kept id)
    (hcalls : ∀ m args pc, t.calls m = .sending args pc →
      ∃ pc', s.calls m = .sending args pc' ∧ pc'.registered = pc.registered) : t.Ledger o where
  pending m args pc hm := by
    obtain ⟨pc', hm', hpc⟩ := hcalls m args pc hm
    rw [hl.pending m args pc' hm', hpc]
  status := hl.status
  kept id hid := hk id (hl.kept id hid)

private theorem Ledger.insert {cfg : Config} {s t : Client} {o : Sends} {n : Nat} {args : SendArgs} {id : ReqId}
    (hl : s.Ledger o) (hk : ∀ id, s.Kept id → t.Kept id) (hc : s.calls n = .sending args (.insert id))
    (hok : s.closed = true → ∃ m, (s.calls m).beforeSnapshot = true) (ht : t = s.send cfg n args (.insert id)) :
    t.Ledger { o with pending := Function.update o.pending n (some id) } where
  pending m args' pc hm := by
    rw [ht] at hm
    by_cases hmn : m = n
    · subst hmn
      simp only [Client.send, Client.setCall, Function.update_self] at hm ⊢
      cases hm
      rfl
    · simp only [Client.send, Client.setCall, Function.update_of_ne hmn] at hm ⊢
      exact hl.pending m args' pc hm
  status := hl.status
  kept id' hid := by
    have hold : (o.Registered id') → t.Kept id' := fun h => hk id' (hl.kept id' h)
    rcases hid with ⟨m, hm⟩ | hret
    · by_cases hmn : m = n
      · subst hmn
        simp only [Function.update_self, Option.some.injEq] at hm
        subst hm
        rw [ht]
        refine .inr ⟨List.mem_append_right _ (List.mem_singleton_self id), fun hclosed => ?_⟩
        obtain ⟨i, hi⟩ := hok hclosed
        have hin : i ≠ m := by
          rintro rfl
          rw [hc] at hi
          cases hi
        refine ⟨i, ?_⟩
        simp only [Client.send, Client.setCall, Function.update_of_ne hin]
        exact Call.willSettle_of_beforeSnapshot hi id
      · simp only [Function.update_of_ne hmn] at hm
        exact hold (.inl ⟨m, hm⟩)
    · exact hold (.inr hret)

private theorem Ledger.returns {s t : Client} {o : Sends} {n : Nat} {args : SendArgs} {pc : SendPc} {st : Status}
    (hl : s.Ledger o) (hk : ∀ id, s.Kept id → t.Kept id) (hc : s.calls n = .sending args pc)
    (hst : ∀ id, pc.registered = some id → st = .ok)
    (hcalls : ∀ m args pc, t.calls m = .sending args pc → s.calls m = .sending args pc) :
    t.Ledger { o with returned := (st, o.pending n) :: o.returned } where
  pending m args' pc' hm := hl.pending m args' pc' (hcalls m args' pc' hm)
  status st' id hmem := by
    rcases List.mem_cons.mp hmem with he | hmem
    · obtain ⟨rfl, hid⟩ := Prod.mk.inj he
      exact hst id (by rw [← hl.pending n args pc hc, hid])
    · exact hl.status st' id hmem
  kept id hid := by
    refine hk id (hl.kept id ?_)
    rcases hid with hp | ⟨e, he, hid⟩
    · exact .inl hp
    · rcases List.mem_cons.mp he with rfl | he
      · exact .inl ⟨n, hid⟩
      · exact .inr ⟨e, he, hid⟩

/-- No call turns into a `send` on its way. -/
theorem advance_not_sending {cfg : Config} {s t : Client} {n : Nat} (h : s.advance cfg n = some t)
    (hc : ∀ args pc, s.calls n ≠ .sending args pc) (args : SendArgs) (pc : SendPc) : t.calls n ≠ .sending args pc := by
  have setCall : ∀ {s' : Client} {c : Call}, c ≠ .sending args pc → (s'.setCall n c).calls n ≠ .sending args pc := by
    intro s' c hne
    simpa only [Client.setCall, Function.update_self] using hne
  cases Client.advance_cases h with
  | send args' pc' on => exact absurd on (hc args' pc')
  | act q o c _ plain => exact setCall (plain args pc)
  | close free => exact setCall Call.noConfusion
  | move c plain => exact setCall (plain args pc)

theorem Client.Ledger.step {cfg : Config} {s t : Client} {a : Act} {o : Sends} (hf : s.Fresh)
    (hr : ∀ r, (s.view r).Retires) (hok : s.RegistersInTime a) (h : s.step cfg a = some t) (hl : s.Ledger o) :
    t.Ledger (s.noteSend a t o) := by
  have hk : ∀ id, s.Kept id → t.Kept id := fun id => Client.Kept.step hf (hr id) h
  cases a with
  | call n =>
    have hother : ∀ m, m ≠ n → t.calls m = s.calls m := fun m hm => (advance_threads hm h).2
    by_cases hsend : ∃ args pc, s.calls n = .sending args pc
    · obtain ⟨args, pc, hc⟩ := hsend
      have ht : t = s.send cfg n args pc := by
        simp only [Client.step, Client.advance, hc, Option.some.injEq] at h
        exact h.symm
      by_cases hins : ∃ id, pc = .insert id
      · obtain ⟨id, rfl⟩ := hins
        simp only [Client.noteSend, hc]
        exact Ledger.insert hl hk hc (hok (by rw [hc]; rfl)) ht
      · have hpc : ∀ id, pc ≠ .insert id := fun id e => hins ⟨id, e⟩
        have hnote : s.noteSend (.call n) t o = match t.calls n with
            | .done status => { o with returned := (status, o.pending n) :: o.returned }
            | _ => o := by
          simp only [Client.noteSend, hc]
        rw [hnote]
        rcases send_next cfg s n args hpc with ⟨pc', hn, hreg⟩ | ⟨st, hn, hst⟩
        · rw [← ht] at hn
          simp only [hn]
          refine Ledger.same hl hk fun m args' pc'' hm => ?_
          by_cases hmn : m = n
          · subst hmn
            rw [hn] at hm
            cases hm
            exact ⟨pc, hc, hreg.symm⟩
          · exact ⟨pc'', (hother m hmn) ▸ hm, rfl⟩
        · rw [← ht] at hn
          simp only [hn]
          refine Ledger.returns hl hk hc hst fun m args' pc'' hm => ?_
          by_cases hmn : m = n
          · subst hmn
            rw [hn] at hm
            cases hm
          · exact (hother m hmn) ▸ hm
    · have hnot : ∀ args pc, s.calls n ≠ .sending args pc := fun args pc hc => hsend ⟨args, pc, hc⟩
      have hnote : s.noteSend (.call n) t o = o := by
        simp only [Client.noteSend]
        cases hc : s.calls n <;> first | rfl | exact absurd hc (hnot _ _)
      rw [hnote]
      refine Ledger.same hl hk fun m args pc hm => ?_
      by_cases hmn : m = n
      · subst hmn
        exact absurd hm (advance_not_sending h hnot args pc)
      · exact ⟨pc, (hother m hmn) ▸ hm, rfl⟩
  | begin n api =>
    obtain ⟨-, hcalls⟩ := step_calls h fun m => Act.noConfusion
    have hother : ∀ m args pc, m ≠ n → t.calls m = .sending args pc → s.calls m = .sending args pc := by
      intro m args pc hmn hm
      rcases hcalls m with he | ⟨-, api', ha, -⟩
      · exact he ▸ hm
      · cases ha
        exact absurd rfl hmn
    have hmine : t.calls n = api.start := by
      simp only [Client.step] at h
      split at h <;> cases h
      exact Function.update_self _ _ _
    cases api with
    | send args =>
      refine ⟨fun m args' pc hm => ?_, hl.status, fun id hid => hk id (hl.kept id ?_)⟩
      · by_cases hmn : m = n
        · subst hmn
          rw [hmine] at hm
          cases hm
          exact Function.update_self _ _ _
        · exact (Function.update_of_ne hmn _ _).trans (hl.pending m args' pc (hother m args' pc hmn hm))
      · rcases hid with ⟨m, hm⟩ | hret
        · refine .inl ⟨m, ?_⟩
          by_cases hmn : m = n
          · subst hmn
            simp [Client.noteSend] at hm
          · simpa [Client.noteSend, hmn] using hm
        · exact .inr hret
    | _ =>
      refine Ledger.same hl hk fun m args pc hm => ?_
      by_cases hmn : m = n
      · subst hmn
        rw [hmine] at hm
        cases hm
      · exact ⟨pc, hother m args pc hmn hm, rfl⟩
  | _ =>
    obtain ⟨-, hcalls⟩ := step_calls h fun m => Act.noConfusion
    refine Ledger.same hl hk fun m args pc hm => ⟨pc, ?_, rfl⟩
    rcases hcalls m with he | ⟨-, api, ha, -⟩
    · exact he ▸ hm
    · cases ha

/-- A `send`, `close` or `free` call is under way; `free` waits for the bridges after its
`close` part has returned. -/
def Call.sendingOrClosing : Call → Bool
  | .sending .. | .storeClosed _ | .snapshot _ | .closing .. | .closingOn .. => true
  | _ => false

theorem Call.willSettle.underWay {c : Call} {id : ReqId} (h : c.willSettle id) : c.sendingOrClosing = true := by
  cases c <;> first | rfl | exact h.elim

abbrev Client.Ledgered (cfg : Config) (ok : Client × Sends → Act → Prop) (as : List Act) (p : Client × Sends) : Prop :=
  Runs.Run (Runs.observe (Client.step cfg) Client.noteSend) ok (Client.init cfg, Sends.none) as p

private theorem ledgered {cfg : Config} {as : List Act} {p : Client × Sends}
    (h : Client.Ledgered cfg (fun p => p.1.RegistersInTime) as p) : p.1.Ledger p.2 := by
  have hend := Runs.Run.invariant (I := fun p : Client × Sends =>
      p.1.Fresh ∧ (∀ r, (p.1.view r).Retires) ∧ p.1.Ledger p.2) h
    (fun p a q hok ⟨hf, hr, hl⟩ hstep => by
      obtain ⟨hmove, hnote⟩ := observe_eq_some hstep
      refine ⟨hf.step hmove, step_views hf hmove (fun _ _ _ hv => hv.step) hr, ?_⟩
      rw [hnote]
      exact hl.step hf hr hok hmove)
    ⟨Client.Fresh.init cfg, fun r => by rw [view_init]; exact View.Retires.init _ _, Client.Ledger.init cfg⟩
  exact hend.2.2

/-- `send` and `close` are an either/or, provided that no `send` registers its request after
the last `close` has looked at the registry: a refused `send` registered nothing, and once
`closed` is set and no `send` or `close` is under way, every accepted request is settled. -/
theorem send_close_either_or {cfg : Config} {as : List Act} {s : Client} {o : Sends}
    (h : Client.Ledgered cfg (fun p => p.1.RegistersInTime) as (s, o)) :
    (∀ reg, (.clientClosed, reg) ∈ o.returned → reg = none) ∧
    (s.closed = true → (∀ n, (s.calls n).sendingOrClosing = false) →
      ∀ id, (.ok, some id) ∈ o.returned → (s.slots id).state ≠ .running) := by
  have hl := ledgered h
  constructor
  · intro reg hmem
    cases reg with
    | none => rfl
    | some id => cases hl.status _ id hmem
  · intro hclosed hidle id hmem
    rcases hl.kept id (.inr ⟨_, hmem, rfl⟩) with hs | ⟨-, hwill⟩
    · exact hs
    · obtain ⟨m, hm⟩ := hwill hclosed
      have hbusy := hm.underWay
      rw [hidle m] at hbusy
      cases hbusy

def Client.RegistersOpen (s : Client) : Act → Prop
  | .call n => (s.calls n).registers = true → s.closed = false
  | _ => True

instance (s : Client) : (a : Act) → Decidable (s.RegistersOpen a)
  | .call n => inferInstanceAs (Decidable ((s.calls n).registers = true → s.closed = false))
  | .pop _ | .worker _ | .workerEnv _ _ | .task _ | .taskEnv _ _ | .begin _ _ => inferInstanceAs (Decidable True)

/-- The calls of the two callers below have returned, `closed` is set, and request 1 was
accepted. -/
def acceptedAndClosed (p : Client × Sends) : Prop :=
  (p.1.calls 0).sendingOrClosing = false ∧ (p.1.calls 1).sendingOrClosing = false ∧ p.1.closed = true ∧
    p.2.returned = [(.ok, some 1)]

instance (p : Client × Sends) : Decidable (acceptedAndClosed p) := inferInstanceAs (Decidable (_ ∧ _))

theorem acceptedAndClosed.idle {as : List Act} {p : Client × Sends} {ok : Client × Sends → Act → Prop}
    (hp : acceptedAndClosed p) (h : Client.Ledgered .small ok as p) (hbelow : ∀ a ∈ as, a.below 2 = true) (n : Nat) :
    (p.1.calls n).sendingOrClosing = false := by
  have hrun : Client.Reaches .small Runs.anyStep (Client.init .small) as p.1 := h.unobserved fun _ _ _ => trivial
  rcases Nat.lt_or_ge n 2 with hn | hn
  · obtain rfl | rfl : n = 0 ∨ n = 1 := by omega
    · exact hp.1
    · exact hp.2.1
  · rw [(hrun.beyond hbelow n hn).2]
    rfl

set_option maxRecDepth 10000 in
theorem send_close_either_or_accepted : ∃ (s : Client) (o : Sends),
    Client.Ledgered .small (fun p => p.1.RegistersInTime)
      (Act.begin 0 (.send ⟨none, 10, ⟨false, 0⟩⟩) :: List.replicate 10 (.call 0) ++
        Act.begin 1 .close :: List.replicate 14 (.call 1)) (s, o) ∧
    (.ok, some 1) ∈ o.returned ∧ s.closed = true ∧ (s.slots 1).state ≠ .running := by
  have hrun : (Runs.replay (Runs.observe (Client.step .small) Client.noteSend) (fun p => p.1.RegistersOpen)
      (Client.init .small, Sends.none)
      (Act.begin 0 (.send ⟨none, 10, ⟨false, 0⟩⟩) :: List.replicate 10 (.call 0) ++
        Act.begin 1 .close :: List.replicate 14 (.call 1))).any
      (fun p => decide (acceptedAndClosed p)) = true := by decide
  obtain ⟨⟨s, o⟩, hp, hend⟩ := (Option.any_eq_true _ _).mp hrun
  have hend := of_decide_eq_true hend
  have hledger : Client.Ledgered .small (fun p => p.1.RegistersInTime) _ (s, o) :=
    (Runs.run_of_replay hp).mono fun p a hok => by
      cases a with
      | call n =>
        intro hreg hclosed
        rw [hok hreg] at hclosed
        cases hclosed
      | _ => trivial
  have hmem : (.ok, some 1) ∈ o.returned := by
    rw [show o.returned = [(.ok, some 1)] from hend.2.2.2]
    exact List.mem_singleton_self _
  refine ⟨s, o, hledger, hmem, hend.2.2.1, ?_⟩
  exact (send_close_either_or hledger).2 hend.2.2.1 (hend.idle hledger (by decide)) 1 hmem

set_option maxRecDepth 10000 in
/-- `send` reads `closed` before `close` sets it, and registers its request after `close` has
looked at the registry and returned. -/
theorem accepted_request_survives_close : ¬ ∀ (cfg : Config) (as : List Act) (s : Client) (o : Sends),
    Client.Ledgered cfg Runs.anyStep as (s, o) →
    (∀ reg, (.clientClosed, reg) ∈ o.returned → reg = none) ∧
    (s.closed = true → (∀ n, (s.calls n).sendingOrClosing = false) →
      ∀ id, (.ok, some id) ∈ o.returned → (s.slots id).state ≠ .running) := by
  intro h
  have hrun : (Runs.replay (Runs.observe (Client.step .small) Client.noteSend) Runs.anyStep
      (Client.init .small, Sends.none)
      (Act.begin 0 (.send ⟨none, 10, ⟨false, 0⟩⟩) :: .call 0 :: .begin 1 .close :: List.replicate 4 (.call 1) ++
        List.replicate 9 (Act.call 0))).any
      (fun p => decide (acceptedAndClosed p ∧ (p.1.slots 1).state = .running)) = true := by decide
  obtain ⟨⟨s, o⟩, hp, hend⟩ := (Option.any_eq_true _ _).mp hrun
  obtain ⟨hend, hrunning⟩ := of_decide_eq_true hend
  have hledger := Runs.run_of_replay hp
  have hmem : (.ok, some 1) ∈ o.returned := by
    rw [show o.returned = [(.ok, some 1)] from hend.2.2.2]
    exact List.mem_singleton_self _
  exact (h .small _ s o hledger).2 hend.2.2.1 (hend.idle hledger (by decide)) 1 hmem hrunning

end Hyper4k.Bridge
