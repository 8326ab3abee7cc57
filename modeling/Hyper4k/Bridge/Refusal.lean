import Hyper4k.Bridge.Quiescence
import Hyper4k.Bridge.Submit

/-! A `hyper4k_client_send` that is refused leaves the client as it was, and one that is accepted
adds one reservation, one unit of the bridge counter and one registry entry. -/
namespace Hyper4k.Bridge
open Runs

/-- What a call has done to the client by its own steps, whatever the other threads did between them. -/
structure Net where
  inflight : Int := 0
  bytes : Int := 0
  bridges : Int := 0
  registered : List ReqId := []
  removed : List ReqId := []
  written : List ReqId := []
  spawned : ReqId → Bool := fun _ => false

def Net.access (e : Net) (s t : Client) : Net where
  inflight := e.inflight + (t.inflight - s.inflight)
  bytes := e.bytes + (t.bytes - s.bytes)
  bridges := e.bridges + (t.bridges - s.bridges)
  registered := e.registered ++ t.requests.filter (· ∉ s.requests)
  removed := e.removed ++ s.requests.filter (· ∉ t.requests)
  written := e.written ++ t.outIds.drop s.outIds.length
  spawned r := e.spawned r || s.tasks r ≠ t.tasks r

def Net.request (bytes : Nat) (id : ReqId) : Net where
  inflight := 1
  bytes := bytes
  bridges := 1
  registered := [id]
  written := [id]
  spawned r := r = id

def SendPc.net (bytes : Nat) : SendPc → Net
  | .loadClosed | .fetchId | .addInflight _ => {}
  | .addBytes _ | .undoInflight => { inflight := 1 }
  | .undoBytes | .enterBridges _ => { inflight := 1, bytes := bytes }
  | .insert _ => { inflight := 1, bytes := bytes, bridges := 1 }
  | .writeId id => { inflight := 1, bytes := bytes, bridges := 1, registered := [id] }
  | .spawn id => { inflight := 1, bytes := bytes, bridges := 1, registered := [id], written := [id] }
  | .setAbort id => .request bytes id

section Effects
variable {cfg : Config} {s t : Client} {n : Nat} {args : SendArgs} {pc pc' : SendPc} {e : Net}

private theorem filter_notMem_self (l : List ReqId) : l.filter (fun r => decide (r ∉ l)) = [] :=
  List.filter_eq_nil_iff.mpr fun r hr => by simpa using hr

theorem Net.access_listed (requests : t.requests = s.requests) : e.access s t =
    { inflight := e.inflight + (t.inflight - s.inflight), bytes := e.bytes + (t.bytes - s.bytes),
      bridges := e.bridges + (t.bridges - s.bridges), registered := e.registered, removed := e.removed,
      written := e.written ++ t.outIds.drop s.outIds.length,
      spawned := fun r => e.spawned r || s.tasks r ≠ t.tasks r } := by
  rw [Net.access, requests, filter_notMem_self, List.append_nil, List.append_nil]

theorem Net.access_counters (requests : t.requests = s.requests) (outIds : t.outIds = s.outIds)
    (tasks : t.tasks = s.tasks) : e.access s t =
      { e with inflight := e.inflight + (t.inflight - s.inflight), bytes := e.bytes + (t.bytes - s.bytes),
               bridges := e.bridges + (t.bridges - s.bridges) } := by
  rw [Net.access_listed requests, outIds, tasks]
  simp

theorem Net.access_setCall (e : Net) (s : Client) (n : Nat) (c : Call) : e.access s (s.setCall n c) = e := by
  refine (Net.access_counters ?_ ?_ ?_).trans ?_
  all_goals simp [Client.setCall]

/-- The registry gets an entry that it has not had. -/
theorem Net.access_registers {id : ReqId} (requests : t.requests = s.requests ++ [id]) (hnew : id ∉ s.requests)
    (counters : t.inflight = s.inflight ∧ t.bytes = s.bytes ∧ t.bridges = s.bridges) (outIds : t.outIds = s.outIds)
    (tasks : t.tasks = s.tasks) : e.access s t = { e with registered := e.registered ++ [id] } := by
  have hkept : s.requests.filter (fun r => decide (r ∉ s.requests ++ [id])) = [] :=
    List.filter_eq_nil_iff.mpr fun r hr => by simp [hr]
  rw [Net.access, requests, hkept, List.filter_append, filter_notMem_self]
  simp [counters, outIds, tasks, hnew]

theorem SendPc.Next.net (h : SendPc.Next s pc pc') (hnew : ∀ id, pc = .insert id → id ∉ s.requests)
    (haway : ∀ id, pc = .spawn id → s.tasks id = .away) :
    (pc.net args.bytes).access s (s.send cfg n args pc) = pc'.net args.bytes := by
  cases h with
  | admitted => exact Net.access_setCall _ _ _ _
  | write id =>
    refine (Net.access_registers ?_ (hnew id rfl) ⟨?_, ?_, ?_⟩ ?_ ?_).trans ?_
    all_goals rfl
  | spawn id =>
    refine (Net.access_listed ?_).trans ?_
    · rfl
    · simp [SendPc.net, Client.send, Client.setCall]
  | store id =>
    refine (Net.access_listed ?_).trans ?_
    · rfl
    · simp only [SendPc.net, Net.request, Client.send, Client.setCall, Client.setTask, Net.mk.injEq]
      refine ⟨by simp, by simp, by simp, trivial, trivial, by simp, ?_⟩
      funext r
      by_cases hr : r = id
      · subst hr
        simp [haway r rfl]
      · simp [hr]
  | _ =>
    refine (Net.access_counters ?_ ?_ ?_).trans ?_
    all_goals simp [SendPc.net, Client.send, Client.setCall]

end Effects

inductive SendPc.Turns (s : Client) (args : SendArgs) (pc : SendPc) : Call → Prop
  | goes (pc' : SendPc) (next : SendPc.Next s pc pc') (admitted : pc = .loadClosed → args.refused = none) :
    pc.Turns s args (.sending args pc')
  | refused (status : Status) (at_start : pc = .loadClosed)
      (why : status = .clientClosed ∨ args.refused = some status) : pc.Turns s args (.done status)
  | exhausted (undone : pc = .undoInflight) : pc.Turns s args (.done .resourceExhausted)
  | accepted (id : ReqId) (done : pc = .setAbort id) : pc.Turns s args (.done .ok)

theorem send_turns (cfg : Config) (s : Client) (n : Nat) (args : SendArgs) (pc : SendPc) :
    pc.Turns s args ((s.send cfg n args pc).calls n) := by
  cases pc with
  | loadClosed =>
    simp only [Client.send, Client.setCall, Function.update_self]
    split
    · exact .refused _ rfl (.inl rfl)
    · rename_i hopen
      split
      · rename_i status hr
        exact .refused status rfl (.inr hr)
      · rename_i hr
        exact .goes _ (.admitted (Bool.eq_false_iff.mpr hopen)) fun _ => hr
  | undoInflight =>
    simp only [Client.send, Client.setCall, Function.update_self]
    exact .exhausted rfl
  | setAbort id =>
    simp only [Client.send, Client.setCall, Function.update_self]
    exact .accepted id rfl
  | addInflight id | addBytes id =>
    simp only [Client.send, Client.setCall, Function.update_self]
    split <;> exact .goes _ (by constructor) SendPc.noConfusion
  | _ =>
    simp only [Client.send, Client.setCall, Function.update_self]
    exact .goes _ (by constructor) SendPc.noConfusion

structure SendNotes where
  call : Option SendCall := none
  /-- The next id when the call began. -/
  first : ReqId := 0
  drawn : List ReqId := []
  net : Net := {}

def SendNotes.access (e : SendNotes) (s t : Client) : SendNotes :=
  { e with drawn := e.drawn ++ List.range' s.nextId (t.nextId - s.nextId), net := e.net.access s t }

def SendNotes.note (s : Submissions) (b : SubmitAct) (t : Submissions) (o : Nat → SendNotes) : Nat → SendNotes :=
  match b with
  | .send n x =>
    Function.update o n (SendNotes.access { call := some x, first := s.client.nextId } s.client t.client)
  | .client (.begin n _) => Function.update o n {}
  | .client (.call n) => Function.update o n ((o n).access s.client t.client)
  | _ => o

def Client.Unlisted (s : Client) : Prop := ∀ n args id, s.calls n = .sending args (.insert id) → id ∉ s.requests

section Steps
variable {cfg : Config} {s t : Client} {a : Act} {o : Tally} {n : Nat} {args : SendArgs} {pc : SendPc}

theorem Client.Unlisted.step (hu : s.Unlisted) (hs : s.Accounts cfg o) (h : s.step cfg a = some t) : t.Unlisted := by
  intro n args id hn hid
  rcases step_sending h hn with ⟨hold, ha⟩ | hpc | ⟨args', pc', rfl, hold, rfl⟩
  · rcases step_registers h hid with hid | ⟨m, args', rfl, hm⟩
    · exact hu n args id hold hid
    · have hmn : n = m := hs.fresh.once n m id (by rw [hold]; rfl) (by rw [hm]; rfl)
      exact ha (hmn ▸ rfl)
  · cases hpc
  · cases send_goes hn with
    | register => exact hs.drawn n args' _ id hold rfl (hs.registered id hid)

/-- A `send` that gives up leaves its id to nobody. -/
theorem Client.Accounts.gives_up {id : ReqId} (hs : s.Accounts cfg o) (h : s.step cfg (.call n) = some t)
    (hc : s.calls n = .sending args pc) (hpc : pc = .addInflight id ∨ pc = .addBytes id)
    (hgone : (t.calls n).unspawned = none) : t.Lost (Tally.note s (.call n) t o) id := by
  have hdrawn : (s.calls n).unspawned = some id := by rcases hpc with rfl | rfl <;> rw [hc] <;> rfl
  refine ⟨⟨fun m hm => ?_, .inl (Nat.lt_of_lt_of_le (hs.fresh.drawn n id hdrawn).1 (step_nextId h))⟩, fun hmem => ?_⟩
  · by_cases hmn : m = n
    · subst hmn
      rw [hgone] at hm
      cases hm
    · rw [(advance_threads hmn h).2] at hm
      exact hmn (hs.fresh.once m n id hm hdrawn)
  · rcases List.mem_append.mp hmem with he | hold
    · obtain ⟨m, args', hm, hcm⟩ := Client.enters_eq_some (Option.mem_toList.mp he)
      cases hm
      rw [hc] at hcm
      rcases hpc with rfl | rfl <;> cases hcm
    · refine hs.drawn n args pc id hc ?_ hold
      rcases hpc with rfl | rfl <;> rfl

end Steps

def SendNotes.Drew (s : Client) (o : Tally) (e : SendNotes) : SendPc → Prop
  | .loadClosed | .fetchId => e.drawn = []
  | .undoBytes | .undoInflight => ∀ id ∈ e.drawn, s.Lost o id
  | .addInflight id | .addBytes id | .enterBridges id | .insert id | .writeId id | .spawn id | .setAbort id =>
    e.drawn = [id] ∧ e.first ≤ id

structure SendNotes.Going (env : SendEnv) (cfg : Config) (s : Client) (o : Tally) (x : SendCall) (args : SendArgs)
    (pc : SendPc) (e : SendNotes) : Prop where
  checked : ∃ r, x.validate = .ok r ∧ args = r.args env cfg x.memory
  admitted : pc = .loadClosed ∨ args.refused = none
  net : e.net = pc.net args.bytes
  since : e.first ≤ s.nextId
  drew : e.Drew s o pc

/-- A call that has changed nothing, and whose id is lost if it drew one. -/
structure SendNotes.Void (s : Client) (o : Tally) (e : SendNotes) : Prop where
  net : e.net = {}
  lost : ∀ id ∈ e.drawn, s.Lost o id

/-- A call that has added its request, under an id that was not drawn before the call. -/
def SendNotes.Added (env : SendEnv) (cfg : Config) (x : SendCall) (e : SendNotes) : Prop :=
  ∃ r t id, x.validate = .ok r ∧ r.prepare env x.memory = .ok t ∧ e.first ≤ id ∧
    e.net = .request (t.body.length + cfg.queueBudget) id

/-- The notes on a caller's last `send`, where the caller stands. -/
def SendNotes.At (env : SendEnv) (cfg : Config) (s : Client) (o : Tally) (x : SendCall) (e : SendNotes) : Call → Prop
  | .idle => True
  | .sending args pc => e.Going env cfg s o x args pc
  | .done status => (status = .ok → e.Added env cfg x) ∧ (status ≠ .ok → e.Void s o)
  | _ => False

section Calls
variable {env : SendEnv} {cfg : Config} {s t : Client} {a : Act} {o : Tally} {n : Nat} {args : SendArgs} {pc : SendPc}
  {x : SendCall} {e : SendNotes} {c : Call}

theorem SendNotes.Drew.later (he : e.Drew s o pc) (h : s.step cfg a = some t) : e.Drew t (Tally.note s a t o) pc := by
  cases pc with
  | undoBytes | undoInflight => exact fun id hid => (he id hid).step h
  | _ => exact he

/-- The steps of the others take nothing away from the notes. -/
theorem SendNotes.At.later (he : e.At env cfg s o x c) (h : s.step cfg a = some t) :
    e.At env cfg t (Tally.note s a t o) x c := by
  cases c with
  | idle => trivial
  | sending args pc =>
    exact ⟨he.checked, he.admitted, he.net, Nat.le_trans he.since (step_nextId h), he.drew.later h⟩
  | done status => exact ⟨he.1, fun hne => ⟨(he.2 hne).net, fun id hid => ((he.2 hne).lost id hid).step h⟩⟩
  | _ => exact he.elim

/-- Only the draw draws an id. -/
theorem SendNotes.access_drawn (hpc : pc ≠ .fetchId) : (e.access s (s.send cfg n args pc)).drawn = e.drawn := by
  cases pc with
  | fetchId => exact absurd rfl hpc
  | _ => simp [SendNotes.access, Client.send, Client.setCall, Client.setTask]

section Own
variable (hs : s.Accounts cfg o) (hc : s.calls n = .sending args pc) (h : s.step cfg (.call n) = some t)
  (ht : t = s.send cfg n args pc)
include hs hc h ht

theorem SendNotes.Drew.goes {pc' : SendPc} (he : e.Drew s o pc) (hsince : e.first ≤ s.nextId)
    (hnext : SendPc.Next s pc pc') (htn : t.calls n = .sending args pc') :
    (e.access s t).Drew t (Tally.note s (.call n) t o) pc' := by
  have drawn : pc ≠ .fetchId → (e.access s t).drawn = e.drawn := fun hpc => ht ▸ SendNotes.access_drawn hpc
  cases hnext with
  | admitted => exact (drawn SendPc.noConfusion).trans he
  | draw =>
    refine ⟨?_, hsince⟩
    simp [SendNotes.access, ht, Client.send, Client.setCall, show e.drawn = [] from he]
  | crowded id =>
    intro id' hid
    rw [drawn SendPc.noConfusion, he.1] at hid
    obtain rfl := List.mem_singleton.mp hid
    exact hs.gives_up h hc (.inl rfl) (by rw [htn]; rfl)
  | large id =>
    intro id' hid
    rw [drawn SendPc.noConfusion, he.1] at hid
    obtain rfl := List.mem_singleton.mp hid
    exact hs.gives_up h hc (.inr rfl) (by rw [htn]; rfl)
  | undo =>
    intro id hid
    rw [drawn SendPc.noConfusion] at hid
    exact (he id hid).step h
  | _ => exact ⟨(drawn SendPc.noConfusion).trans he.1, he.2⟩

theorem SendNotes.Going.send (he : e.Going env cfg s o x args pc) (hu : s.Unlisted) :
    (e.access s t).At env cfg t (Tally.note s (.call n) t o) x (t.calls n) := by
  have hturn := ht ▸ send_turns cfg s n args pc
  have hnet : (e.access s t).net = (pc.net args.bytes).access s (s.send cfg n args pc) := by
    rw [← he.net, ht]
    rfl
  obtain ⟨r, hx, hargs⟩ := he.checked
  generalize htn : t.calls n = c at hturn
  cases hturn with
  | goes pc' hnext hadmitted =>
    refine ⟨he.checked, .inr (he.admitted.elim hadmitted id), ?_, Nat.le_trans he.since (step_nextId h),
      SendNotes.Drew.goes hs hc h ht he.drew he.since hnext htn⟩
    rw [hnet]
    refine hnext.net (fun id hpc => hu n args id (hpc ▸ hc)) fun id hpc => ?_
    exact (hs.fresh.drawn n id (by rw [hc, hpc]; rfl)).2
  | refused status hpc why =>
    subst hpc
    have hne : status ≠ .ok := by
      rcases why with rfl | why
      · exact Status.noConfusion
      · exact ClientRequest.args_refused (hargs ▸ why)
    refine ⟨fun hok => absurd hok hne, fun _ => ⟨?_, fun id hid => ?_⟩⟩
    · rw [hnet]
      exact Net.access_setCall _ _ _ _
    · rw [ht, SendNotes.access_drawn SendPc.noConfusion, show e.drawn = [] from he.drew] at hid
      cases hid
  | exhausted hpc =>
    subst hpc
    refine ⟨fun hok => (by cases hok), fun _ => ⟨?_, fun id hid => ?_⟩⟩
    · rw [hnet]
      refine (Net.access_counters ?_ ?_ ?_).trans ?_
      all_goals simp [SendPc.net, Client.send, Client.setCall]
    · have hdrawn : (e.access s t).drawn = e.drawn := ht ▸ SendNotes.access_drawn SendPc.noConfusion
      rw [hdrawn] at hid
      exact (he.drew id hid).step h
  | accepted id hpc =>
    subst hpc
    obtain ⟨tmpl, hprep, hbytes⟩ := ClientRequest.args_admitted (hargs ▸ he.admitted.resolve_left SendPc.noConfusion)
    refine ⟨fun _ => ⟨r, tmpl, id, hx, hprep, he.drew.2, ?_⟩, fun hne => absurd rfl hne⟩
    rw [hnet, ← hbytes, ← hargs]
    refine (Net.access_counters ?_ ?_ ?_).trans ?_
    all_goals simp [SendPc.net, Net.request, Client.send, Client.setCall]

end Own

end Calls

def Act.caller : Act → Option Nat
  | .begin n _ | .call n => some n
  | _ => none

theorem step_calls_of_ne {cfg : Config} {s t : Client} {a : Act} {n : Nat} (h : s.step cfg a = some t)
    (hn : a.caller ≠ some n) : t.calls n = s.calls n := by
  by_cases hcall : ∃ m, a = .call m
  · obtain ⟨m, rfl⟩ := hcall
    exact (advance_threads (fun he => hn (congrArg some he.symm)) h).2
  · rcases (step_calls h fun m hm => hcall ⟨m, hm⟩).2 n with he | ⟨-, api, rfl, -⟩
    · exact he
    · exact absurd rfl hn

/-- The notes agree with the client and with what the callers were told. -/
structure Submissions.Explained (env : SendEnv) (cfg : Config) (s : Submissions) (o : Nat → SendNotes) (k : Tally) :
    Prop where
  accounts : s.client.Accounts cfg k
  unlisted : s.client.Unlisted
  apart : ∀ n, s.refused n ≠ none → s.client.calls n = .idle
  fits : ∀ n x, (o n).call = some x → (o n).At env cfg s.client k x (s.client.calls n)
  early : ∀ n status, s.refused n = some status → (o n).call ≠ none → status ≠ .ok ∧ (o n).Void s.client k

section Submitted
variable {env : SendEnv} {cfg : Config} {s t : Submissions} {b : SubmitAct} {o : Nat → SendNotes} {k : Tally}

theorem Submissions.Explained.init (env : SendEnv) (cfg : Config) :
    Submissions.Explained env cfg ⟨Client.init cfg, fun _ => none⟩ (fun _ => {}) {} where
  accounts := .init cfg
  unlisted _ _ _ h := by cases h
  apart _ h := absurd rfl h
  fits _ _ h := by cases h
  early _ _ h := by cases h

theorem Submissions.Explained.client (hs : s.Explained env cfg o k) {a : Act} {u : Client} {o' : Nat → SendNotes}
    (hu : s.client.step cfg a = some u) (hothers : ∀ n, a.caller ≠ some n → o' n = o n)
    (hfree : ∀ n, a.caller = some n → s.refused n = none)
    (howner : ∀ n x, a.caller = some n → (o' n).call = some x →
      (o' n).At env cfg u (Tally.note s.client a u k) x (u.calls n)) :
    Submissions.Explained env cfg { s with client := u } o' (Tally.note s.client a u k) := by
  refine ⟨hs.accounts.step hu, hs.unlisted.step hs.accounts hu, fun n hn => ?_, fun n x hx => ?_,
    fun n status hn hx => ?_⟩
  · have hother : a.caller ≠ some n := fun ha => hn (hfree n ha)
    exact (step_calls_of_ne hu hother).trans (hs.apart n hn)
  · by_cases ha : a.caller = some n
    · exact howner n x ha hx
    · rw [hothers n ha] at hx ⊢
      change (o n).At env cfg u _ x (u.calls n)
      rw [step_calls_of_ne hu ha]
      exact (hs.fits n x hx).later hu
  · have hother : a.caller ≠ some n := fun ha => by
      rw [show s.refused n = none from hfree n ha] at hn
      cases hn
    rw [hothers n hother] at hx ⊢
    obtain ⟨hne, hvoid⟩ := hs.early n status hn hx
    exact ⟨hne, hvoid.net, fun id hid => (hvoid.lost id hid).step hu⟩

theorem Submissions.Explained.call (hs : s.Explained env cfg o k) {n : Nat} {u : Client}
    (hu : s.client.step cfg (.call n) = some u) {x : SendCall} (hx : (o n).call = some x) :
    ((o n).access s.client u).At env cfg u (Tally.note s.client (.call n) u k) x (u.calls n) := by
  have hfits := hs.fits n x hx
  rcases hc : s.client.calls n with _ | ⟨args, pc⟩ | _ | _ | _ | _ | _ | _ | _ | status <;> rw [hc] at hfits
  case idle => simp [Client.step, Client.advance, hc] at hu
  case sending =>
    have hsend : u = s.client.send cfg n args pc := by simpa [Client.step, Client.advance, hc] using hu.symm
    exact SendNotes.Going.send hs.accounts hc hu hsend hfits hs.unlisted
  case done =>
    have hidle : u.calls n = .idle := by
      simp only [Client.step, Client.advance, hc, Option.some.injEq] at hu
      rw [← hu]
      exact Function.update_self _ _ _
    rw [hidle]
    trivial
  all_goals exact hfits.elim

theorem SendNotes.opened (x : SendCall) (c : Client) {u : Client} (hu : u = c ∨ ∃ n d, u = c.setCall n d) :
    SendNotes.access { call := some x, first := c.nextId } c u = { call := some x, first := c.nextId } := by
  have hnet : Net.access {} c u = {} := by
    rcases hu with rfl | ⟨n, d, rfl⟩
    · exact (Net.access_counters rfl rfl rfl).trans (by simp)
    · exact Net.access_setCall _ _ _ _
  have hnext : u.nextId = c.nextId := by rcases hu with rfl | ⟨n, d, rfl⟩ <;> rfl
  simp [SendNotes.access, hnet, hnext]

/-- A caller is told a status before its call has touched the client, or leaves with it. -/
theorem Submissions.Explained.told (hs : s.Explained env cfg o k) {n : Nat} {v : Option Status} {o' : Nat → SendNotes}
    (idle : s.client.calls n = .idle) (hothers : ∀ m, m ≠ n → o' m = o m)
    (hown : ∀ status, v = some status → (o' n).call ≠ none → status ≠ .ok ∧ (o' n).Void s.client k) :
    Submissions.Explained env cfg { s with refused := Function.update s.refused n v } o' k := by
  refine ⟨hs.accounts, hs.unlisted, ?_, fun m y hy => ?_, ?_⟩
  · refine forall_update (Q := fun m v => v ≠ none → s.client.calls m = .idle) (fun _ => idle) fun m _ => hs.apart m
  · change SendNotes.At env cfg s.client k y _ (s.client.calls m)
    by_cases hmn : m = n
    · rw [hmn, idle]
      trivial
    · rw [hothers m hmn] at hy ⊢
      exact hs.fits m y hy
  · refine forall_update (Q := fun m v => ∀ status : Status, v = some status → (o' m).call ≠ none →
      status ≠ .ok ∧ (o' m).Void s.client k) hown fun m hmn status hm hy => ?_
    rw [hothers m hmn] at hy ⊢
    exact hs.early m status hm hy

theorem Submissions.Explained.step (hs : s.Explained env cfg o k) (h : s.Stepped env cfg b t) :
    ∃ k', t.Explained env cfg (SendNotes.note s b t o) k' := by
  cases h with
  | client a u allowed hu =>
    refine ⟨_, hs.client hu (fun n hn => ?_) (fun n hn => ?_) fun n x hn hx => ?_⟩
    · cases a with
      | begin m | call m => exact Function.update_of_ne (fun he => hn (congrArg some he.symm)) _ _
      | _ => rfl
    · cases a with
      | begin m api =>
        cases hn
        cases api with
        | send args => cases allowed
        | _ => exact of_decide_eq_true allowed
      | call m =>
        cases hn
        by_contra hne
        simp [Client.step, Client.advance, hs.apart n hne] at hu
      | _ => cases hn
    · cases a with
      | begin m api =>
        cases hn
        rw [show SendNotes.note s (.client (.begin n api)) _ o n = {} from Function.update_self _ _ _] at hx
        cases hx
      | call m =>
        cases hn
        have hnote : SendNotes.note s (.client (.call n)) { s with client := u } o n = (o n).access s.client u :=
          Function.update_self _ _ _
        rw [hnote] at hx ⊢
        exact hs.call hu hx
      | _ => cases hn
  | refuse n x status idle hx =>
    have hnote : SendNotes.note s (.send n x) { s with refused := Function.update s.refused n (some status) } o =
        Function.update o n { call := some x, first := s.client.nextId } :=
      congrArg (Function.update o n) (SendNotes.opened x s.client (.inl rfl))
    rw [hnote]
    refine ⟨k, hs.told idle (fun m hmn => Function.update_of_ne hmn _ _) fun status' hs' _ => ?_⟩
    cases hs'
    rw [Function.update_self]
    exact ⟨x.validate_refuses status hx, rfl, fun id hid => (by cases hid)⟩
  | enter n x r free idle hx =>
    have hu : s.client.step cfg (.begin n (.send (r.args env cfg x.memory))) =
        some (s.client.setCall n (.sending (r.args env cfg x.memory) .loadClosed)) := if_pos idle
    have hnote : SendNotes.note s (.send n x) { s with client := s.client.setCall n _ } o =
        Function.update o n { call := some x, first := s.client.nextId } :=
      congrArg (Function.update o n) (SendNotes.opened x s.client
        (.inr ⟨n, .sending (r.args env cfg x.memory) .loadClosed, rfl⟩))
    rw [hnote]
    refine ⟨_, hs.client hu (fun m hm => ?_) (fun m hm => ?_) fun m y hm hy => ?_⟩
    · exact Function.update_of_ne (fun he => hm (congrArg some he.symm)) _ _
    · cases hm
      exact free
    · cases hm
      rw [Function.update_self] at hy ⊢
      cases hy
      change SendNotes.At env cfg _ _ x _ (Function.update s.client.calls n _ n)
      rw [Function.update_self]
      exact ⟨⟨r, hx, rfl⟩, .inl rfl, rfl, Nat.le_refl _, rfl⟩
  | leave n status hn =>
    have idle : s.client.calls n = .idle := hs.apart n (by rw [hn]; exact Option.some_ne_none _)
    exact ⟨k, hs.told idle (fun _ _ => rfl) fun _ hnone => (by cases hnone)⟩

end Submitted

abbrev Submissions.Noted (env : SendEnv) (cfg : Config) (p : Submissions × (Nat → SendNotes)) (bs : List SubmitAct)
    (q : Submissions × (Nat → SendNotes)) : Prop :=
  Run (observe (Submissions.step env cfg) SendNotes.note) anyStep p bs q

section Runs
variable {env : SendEnv} {cfg : Config} {s t : Submissions} {o o' : Nat → SendNotes} {bs cs : List SubmitAct}

theorem Submissions.Noted.explained
    (h : Submissions.Noted env cfg (⟨Client.init cfg, fun _ => none⟩, fun _ => {}) bs (s, o)) :
    ∃ k, s.Explained env cfg o k := by
  refine h.invariant (I := fun p => ∃ k, p.1.Explained env cfg p.2 k) ?_ ⟨{}, .init env cfg⟩
  rintro ⟨s, o⟩ b ⟨t, o'⟩ - ⟨k, hs⟩ hstep
  obtain ⟨ht, ho⟩ := observe_eq_some hstep
  rw [show o' = SendNotes.note s b t o from ho]
  exact hs.step (Submissions.step_cases ht)

/-- Nothing ever happens under a lost id. -/
theorem Submissions.Noted.lost {k : Tally} (h : Submissions.Noted env cfg (s, o) cs (t, o'))
    (hs : s.client.Accounts cfg k) {id : ReqId} (hid : s.client.Lost k id) :
    t.client.view id = View.init (cfg.onChunk id) cfg.queueCapacity ∧ id ∉ t.client.requests := by
  obtain ⟨k', hk, hid⟩ : ∃ k', t.client.Accounts cfg k' ∧ t.client.Lost k' id := by
    refine h.invariant (I := fun p => ∃ k', p.1.client.Accounts cfg k' ∧ p.1.client.Lost k' id) ?_ ⟨k, hs, hid⟩
    rintro ⟨s, o⟩ b ⟨t, o'⟩ - ⟨k, hs, hid⟩ hstep
    cases Submissions.step_cases (observe_eq_some hstep).1 with
    | client a u _ hu => exact ⟨_, hs.step hu, hid.step hu⟩
    | enter n x r _ idle =>
      have hu : s.client.step cfg (.begin n (.send (r.args env cfg x.memory))) = some _ := if_pos idle
      exact ⟨_, hs.step hu, hid.step hu⟩
    | refuse | leave => exact ⟨k, hs, hid⟩
  exact ⟨hk.untouched id hid.outside, fun hmem => hid.outside (hk.registered id hmem)⟩

end Runs

/-- A `send` that returns anything but OK has left the limits, the bridge counter, the registry, the
out id and the tasks as they were, and if it drew an id, nothing ever happens under it. One that
returns OK has added one reservation, one unit of the counter and one registry entry, under an id
that was not drawn before the call. -/
theorem refused_send_leaves_no_trace {env : SendEnv} {cfg : Config} {bs : List SubmitAct} {s : Submissions}
    {o : Nat → SendNotes} (h : Submissions.Noted env cfg (⟨Client.init cfg, fun _ => none⟩, fun _ => {}) bs (s, o))
    {n : Nat} {x : SendCall} (hx : (o n).call = some x) {status : Status} (hret : s.returned n = some status) :
    (status ≠ .ok → (o n).net = {} ∧ ∀ id ∈ (o n).drawn, ∀ cs t o', Submissions.Noted env cfg (s, o) cs (t, o') →
      t.client.view id = View.init (cfg.onChunk id) cfg.queueCapacity ∧ id ∉ t.client.requests) ∧
    (status = .ok → ∃ r tmpl id, x.validate = .ok r ∧ r.prepare env x.memory = .ok tmpl ∧ (o n).first ≤ id ∧
      (o n).net = { inflight := 1, bytes := (tmpl.body.length + cfg.queueBudget : Nat), bridges := 1,
                    registered := [id], written := [id], spawned := fun r => r = id }) := by
  obtain ⟨k, hs⟩ := h.explained
  have of_void : (o n).Void s.client k → (o n).net = {} ∧ ∀ id ∈ (o n).drawn, ∀ cs t o',
      Submissions.Noted env cfg (s, o) cs (t, o') →
        t.client.view id = View.init (cfg.onChunk id) cfg.queueCapacity ∧ id ∉ t.client.requests :=
    fun hvoid => ⟨hvoid.net, fun id hid cs t o' ht => ht.lost hs.accounts (hvoid.lost id hid)⟩
  have hfits := hs.fits n x hx
  by_cases hdone : s.client.calls n = .done status
  · rw [hdone] at hfits
    exact ⟨fun hne => of_void (hfits.2 hne), hfits.1⟩
  · have htold : s.refused n = some status := by
      unfold Submissions.returned at hret
      split at hret
      · rename_i hc
        cases hret
        exact absurd hc hdone
      · exact hret
    obtain ⟨hne, hvoid⟩ := hs.early n status htold (by rw [hx]; exact Option.some_ne_none _)
    exact ⟨fun _ => of_void hvoid, fun hok => absurd hok hne⟩

/-- A `GET` from a caller built against the shortest struct. -/
def shortCall : SendCall where
  client := 1
  request := 64
  onHeaders := true
  onDone := true
  outRequestId := 8
  memory p := List.getD ([1, 0, 4, 0, 40, 0, 0, 0] ++ [104, 0, 0, 0, 0, 0, 0, 0, 3, 0, 0, 0, 0, 0, 0, 0] ++
    [107, 0, 0, 0, 0, 0, 0, 0, 8, 0, 0, 0, 0, 0, 0, 0] ++ [71, 69, 84] ++ [104, 116, 116, 112, 58, 47, 47, 104])
    (p.toNat - 64) 0

/-- A client without TLS, where `http://h` is the only URL. -/
def plainEnv : SendEnv where
  method b := if b = [71, 69, 84] then some .get else none
  uri text := if text = "http://h".toList then some ⟨some "http", some "h", none⟩ else none
  http := .std
  http2Required := false
  tlsPool := false
  maxRetries := 2

def shortRun (steps : Nat) : List SubmitAct := .send 0 shortCall :: List.replicate steps (.client (.call 0))

theorem refused_send_leaves_no_trace_small :
    (∃ s o, Submissions.Noted plainEnv .small (⟨Client.init .small, fun _ => none⟩, fun _ => {}) (shortRun 6) (s, o) ∧
      s.returned 0 = some .resourceExhausted ∧ (o 0).drawn = [1] ∧ (o 0).net = {} ∧
      ∀ cs t o', Submissions.Noted plainEnv .small (s, o) cs (t, o') → (t.client.slots 1).trace = []) ∧
    ∃ s o, Submissions.Noted plainEnv { Config.small with maxBytes := 2 ^ 20 }
      (⟨Client.init { Config.small with maxBytes := 2 ^ 20 }, fun _ => none⟩, fun _ => {}) (shortRun 9) (s, o) ∧
      s.returned 0 = some .ok ∧ ∃ id, (o 0).net.registered = [id] ∧ (o 0).net.bridges = 1 := by
  have hsmall : (replay (observe (Submissions.step plainEnv .small) SendNotes.note) anyStep
      (⟨Client.init .small, fun _ => none⟩, fun _ => {}) (shortRun 6)).any (fun p =>
        (p.2 0).call.isSome ∧ p.1.returned 0 = some .resourceExhausted ∧ (p.2 0).drawn = [1]) = true := by
    decide +kernel
  have hlarge : (replay (observe (Submissions.step plainEnv { Config.small with maxBytes := 2 ^ 20 }) SendNotes.note)
      anyStep (⟨Client.init { Config.small with maxBytes := 2 ^ 20 }, fun _ => none⟩, fun _ => {})
      (shortRun 9)).any (fun p => (p.2 0).call.isSome ∧ p.1.returned 0 = some .ok) = true := by
    decide +kernel
  obtain ⟨⟨s, o⟩, hp, hend⟩ := (Option.any_eq_true _ _).mp hsmall
  obtain ⟨hcall, hret, hdrawn⟩ := of_decide_eq_true hend
  obtain ⟨x, hx⟩ := Option.isSome_iff_exists.mp hcall
  obtain ⟨⟨s', o'⟩, hp', hend'⟩ := (Option.any_eq_true _ _).mp hlarge
  obtain ⟨hcall', hret'⟩ := of_decide_eq_true hend'
  obtain ⟨x', hx'⟩ := Option.isSome_iff_exists.mp hcall'
  refine ⟨⟨s, o, run_of_replay hp, hret, hdrawn, ?_⟩, s', o', run_of_replay hp', hret', ?_⟩
  · obtain ⟨hnet, hlost⟩ := (refused_send_leaves_no_trace (run_of_replay hp) hx hret).1 Status.noConfusion
    refine ⟨hnet, fun cs t o' ht => ?_⟩
    have hview := (hlost 1 (by rw [hdrawn]; exact List.mem_singleton_self 1) cs t o' ht).1
    exact congrArg (fun v : View => v.slot.trace) hview
  · obtain ⟨_, _, id, _, _, _, hnet⟩ := (refused_send_leaves_no_trace (run_of_replay hp') hx' hret').2 rfl
    rw [hnet]
    exact ⟨id, rfl, rfl⟩

end Hyper4k.Bridge
