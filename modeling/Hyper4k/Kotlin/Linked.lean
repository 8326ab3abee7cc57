import Hyper4k.Kotlin.Sending

/-! What ties the parts of the client together in every run: each request of the engine is the
request of one stream, and the callbacks of a request run while the engine is in them. -/
namespace Hyper4k.Streams
open Bridge (Callback Config ReqId Status Tally)
open Kotlin (ClientEvent)
open Lifecycle (StreamId ThreadId Access)
open Runs

namespace Frontend

/-- What an access of the callback of `r` does: it gets the state, gives its event to the stream,
changes a counter or a flag, closes the stream, or disposes the reference. -/
inductive Ran (s : Frontend) (r : ReqId) (st : StreamId) : Frontend → Prop
  | gets (cb : Callback) (pc : s.callbacks r = .get cb) (live : s.refs st = .live) : s.Ran r st (s.goto r (.start cb))
  | publishes (e : ClientEvent) (p : CallbackPc) (was : (s.callbacks r).pending = [e]) (now : p.pending = [])
      (inside : p ≠ .outside) (ending : p.ending = (s.callbacks r).ending) : s.Ran r st (s.touch r st (.trySend e) p)
  | works (a : Access) (p : CallbackPc) (events : ∀ x, (a.on x).events = x.events)
      (closed : ∀ x, (a.on x).closed = x.closed) (pending : p.pending = (s.callbacks r).pending)
      (inside : p ≠ .outside) (ending : p.ending = (s.callbacks r).ending) (got : ∀ cb, p ≠ .get cb) :
    s.Ran r st (s.touch r st a p)
  | closes (pc : s.callbacks r = .close) : s.Ran r st (s.touch r st .closeEvents .dispose)
  | disposes (pc : s.callbacks r = .dispose) (live : s.refs st = .live) :
    s.Ran r st { s.goto r (.returning none) with refs := Function.update s.refs st .disposed }

section Callbacks
variable {s u : Frontend} {r : ReqId}

theorem callback_cases (h : s.callback r = some u) : s.callbacks r ≠ .outside ∧ ∃ st, s.userData r = some st ∧
    s.Ran r st u := by
  unfold callback at h
  split at h
  · cases h
  · rename_i st hst
    generalize hpc : s.callbacks r = pc at h
    refine ⟨fun hout => ?_, st, hst, ?_⟩
    · subst hout
      cases h
    cases pc with
    | outside | returning x => cases h
    | get cb =>
      simp only at h
      split at h <;> cases h
      exact .gets cb hpc (by assumption)
    | onHeaders status version fields =>
      cases h
      exact .publishes _ _ (by rw [hpc]; rfl) rfl CallbackPc.noConfusion (by rw [hpc]; rfl)
    | increment bytes =>
      cases h
      exact .works .increment _ (fun _ => rfl) (fun _ => rfl) (by rw [hpc]; rfl) CallbackPc.noConfusion
        (by rw [hpc]; rfl) fun _ => CallbackPc.noConfusion
    | trySend bytes queued =>
      cases h
      refine .publishes _ _ (by rw [hpc]; rfl) ?_ ?_ ?_
      · split <;> rfl
      · split <;> exact CallbackPc.noConfusion
      · rw [hpc]
        split <;> rfl
    | storePaused =>
      cases h
      exact .works .storePaused _ (fun _ => rfl) (fun _ => rfl) (by rw [hpc]; rfl) CallbackPc.noConfusion
        (by rw [hpc]; rfl) fun _ => CallbackPc.noConfusion
    | sendDone error =>
      cases h
      exact .publishes _ _ (by rw [hpc]; rfl) rfl CallbackPc.noConfusion (by rw [hpc]; rfl)
    | close =>
      cases h
      exact .closes hpc
    | dispose =>
      simp only at h
      split at h <;> cases h
      exact .disposes hpc (by assumption)

theorem throw_cases (h : s.throw r = some u) : s.callbacks r ≠ .outside ∧ ∃ p, u = s.goto r p ∧ p ≠ .outside ∧
    p.pending = [] ∧ p.ending = (s.callbacks r).ending := by
  unfold throw at h
  generalize s.callbacks r = pc at h
  cases pc with
  | onHeaders | increment | trySend | sendDone | close =>
    cases h
    exact ⟨CallbackPc.noConfusion, _, rfl, CallbackPc.noConfusion, rfl, rfl⟩
  | _ => cases h

/-- Where the callback of `r` goes, and that it stays `onDone` or not until it disposes. -/
theorem Ran.goes {st : StreamId} (h : s.Ran r st u) : ∃ p, u.callbacks = Function.update s.callbacks r p ∧
    p ≠ .outside ∧ (p.ending = true → (s.callbacks r).ending = true) := by
  cases h with
  | gets cb pc =>
    refine ⟨_, rfl, ?_, ?_⟩
    · cases cb <;> exact CallbackPc.noConfusion
    · rw [pc]
      cases cb <;> exact id
  | publishes e p was now inside ending | works a p events closed pending inside ending =>
    exact ⟨p, rfl, inside, fun h => ending ▸ h⟩
  | closes pc => exact ⟨_, rfl, CallbackPc.noConfusion, fun _ => by rw [pc]; rfl⟩
  | disposes pc => exact ⟨_, rfl, CallbackPc.noConfusion, fun h => by cases h⟩

/-- What an access of a callback leaves alone. -/
theorem Ran.frame {st : StreamId} (h : s.Ran r st u) : u.engine = s.engine ∧ u.userData = s.userData ∧ u.out = s.out ∧
    u.taken = s.taken ∧ u.kotlin.threads = s.kotlin.threads ∧ u.kotlin.nextStream = s.kotlin.nextStream ∧
    ∀ q, q ≠ st → u.kotlin.streams q = s.kotlin.streams q := by
  cases h with
  | gets | disposes => exact ⟨rfl, rfl, rfl, rfl, rfl, rfl, fun _ _ => rfl⟩
  | publishes | works | closes => exact ⟨rfl, rfl, rfl, rfl, rfl, rfl, fun q hq => Function.update_of_ne hq _ _⟩

end Callbacks

theorem noted_frame (s : Frontend) (t : ThreadId) : (s.noted t).engine = s.engine ∧ (s.noted t).userData = s.userData ∧
    (s.noted t).out = s.out ∧ (s.noted t).callbacks = s.callbacks := by
  unfold noted
  split
  · split <;> exact ⟨rfl, rfl, rfl, rfl⟩
  · exact ⟨rfl, rfl, rfl, rfl⟩
  · exact ⟨rfl, rfl, rfl, rfl⟩

structure Linked (cfg : Config) (o : Tally) (s : Frontend) : Prop where
  tied : s.Tied cfg o
  sent : s.Sent
  unused : s.Unused

section Link
variable {cfg : Config} {o : Tally} {s u : Frontend} {a : Act}

theorem Linked.init (cfg : Config) : (Frontend.init cfg).Linked cfg {} where
  tied := {
    accounts := .init cfg
    manned := fun r => by
      rw [show (Frontend.init cfg).engine.view r = _ from Bridge.view_init cfg r]
      exact .init _ _
    entered := fun r => by
      constructor
      · intro h
        cases h
      · rintro ⟨_, h⟩
        cases h
    inside := fun r h => absurd rfl h
    ending := fun r h => by cases h }
  sent := {
    made := fun _ _ h => by cases h
    own := fun _ _ _ h => by cases h
    sending := fun _ _ h => by cases h
    sole := fun _ _ _ h => by cases h
    placed := fun _ _ _ => Bridge.Call.noConfusion }
  unused := fun _ _ => ⟨rfl, rfl, rfl⟩

theorem Tied.ran (hs : s.Tied cfg o) {r : ReqId} {p : CallbackPc} (engine : u.engine = s.engine)
    (userData : u.userData = s.userData) (callbacks : u.callbacks = Function.update s.callbacks r p)
    (was : s.callbacks r ≠ .outside) (ending : p.ending = true → (s.callbacks r).ending = true) : u.Tied cfg o := by
  refine ⟨?_, ?_, ?_, ?_, ?_⟩
  · rw [engine]
    exact hs.accounts
  · rw [engine]
    exact hs.manned
  · rw [userData]
    exact hs.entered
  · rw [engine, callbacks]
    exact forall_update (Q := fun q (pc : CallbackPc) => pc ≠ .outside →
      ∃ u, ((s.engine.view q).pc u).inUserCode = true) (fun _ => hs.inside r was) fun q _ => hs.inside q
  · rw [engine, callbacks]
    exact forall_update (Q := fun q (pc : CallbackPc) => pc.ending = true → (s.engine.slots q).dones ≠ [])
      (fun h => hs.ending r (ending h)) fun q _ => hs.ending q

/-- Nobody has the stream that the next `send` makes. -/
theorem Sent.next_unowned (hs : s.Sent) : Unowned s.userData s.kotlin.nextStream :=
  fun r hr => Nat.lt_irrefl _ (hs.made r _ hr)

theorem Tied.congr (hs : s.Tied cfg o) (engine : u.engine = s.engine) (userData : u.userData = s.userData)
    (callbacks : u.callbacks = s.callbacks) : u.Tied cfg o := by
  refine ⟨?_, ?_, ?_, ?_, ?_⟩
  · rw [engine]
    exact hs.accounts
  · rw [engine]
    exact hs.manned
  · rw [userData]
    exact hs.entered
  · rw [engine, callbacks]
    exact hs.inside
  · rw [engine, callbacks]
    exact hs.ending

/-- A step of the engine changes no stream, and registers the request that it counts in. -/
theorem Told.frame {b : Bridge.Act} {c : Bridge.Client} {x : Frontend} (h : s.Told c b x) :
    x.taken = s.taken ∧ x.kotlin.streams = s.kotlin.streams ∧ x.kotlin.nextStream = s.kotlin.nextStream ∧
    (s.engine.enters b = none ∧ x.userData = s.userData ∨ ∃ id st, s.engine.enters b = some id ∧
      x.userData = Function.update s.userData id (some st) ∧ ∃ t args,
        s.engine.calls t = .sending args (.enterBridges id) ∧ s.kotlin.threads t = .inSend st) := by
  have hplain {t : ThreadId} (call : ∀ args pc, s.engine.calls t ≠ .sending args pc) :
      s.engine.enters (.call t) = none := by
    simp only [Bridge.Client.enters]
    generalize s.engine.calls t = d at call
    cases d with
    | sending args pc => exact absurd rfl (call args pc)
    | _ => rfl
  cases h with
  | registers t args id st call pc next =>
    refine ⟨rfl, rfl, rfl, .inr ⟨id, st, ?_, rfl, t, args, call, pc⟩⟩
    simp only [Bridge.Client.enters, call, Bridge.Call.enters]
  | writes t args id call next =>
    refine ⟨rfl, rfl, rfl, .inl ⟨?_, rfl⟩⟩
    simp only [Bridge.Client.enters, call, Bridge.Call.enters]
  | returns t status call next =>
    have henters : s.engine.enters (.call t) = none := by
      refine hplain fun args pc h => ?_
      rcases call with hc | ⟨r, hc⟩ <;> cases hc.symm.trans h
    rcases returned_cases s t status with ⟨st, -, heq⟩ | ⟨p, -, heq, -⟩ <;> rw [heq] <;>
      exact ⟨rfl, rfl, rfl, .inl ⟨henters, rfl⟩⟩
  | goes t args pc call enters writes turns =>
    refine ⟨rfl, rfl, rfl, .inl ⟨?_, rfl⟩⟩
    simp only [Bridge.Client.enters, call]
    cases pc with
    | enterBridges id => exact absurd rfl (enters id)
    | _ => rfl
  | works t busy call => exact ⟨rfl, rfl, rfl, .inl ⟨hplain call, rfl⟩⟩
  | quiet _ other =>
    refine ⟨rfl, rfl, rfl, .inl ⟨?_, rfl⟩⟩
    cases b with
    | call t => exact absurd rfl (other t)
    | _ => rfl

/-- An access outside the engine makes a new stream, or moves an event of a stream to what was taken. -/
theorem exec_stream {t : ThreadId} {k : Lifecycle.Client} (hk : s.kotlin.Executed t k) (st : StreamId) :
    st = s.kotlin.nextStream ∧ (k.streams st).events = [] ∧ (k.streams st).closed = false ∧
      (s.noted t).taken st = s.taken st ∨
    (s.noted t).taken st ++ (k.streams st).events = s.taken st ++ (s.kotlin.streams st).events ∧
      (k.streams st).closed = (s.kotlin.streams st).closed := by
  cases hk with
  | opens highWater pc opened =>
    have hsame : (s.noted t).taken st = s.taken st := by simp only [noted, pc, opened, if_true]
    by_cases hnew : st = s.kotlin.nextStream
    · subst hnew
      simp [Lifecycle.Client.goto, Lifecycle.Client.setStream, hsame]
    · simp [Lifecycle.Client.goto, Lifecycle.Client.setStream, hnew, hsame]
  | stores q id pc =>
    have hsame : (s.noted t).taken st = s.taken st := by simp only [noted, pc]
    by_cases hq : st = q
    · subst hq
      simp [Lifecycle.Client.goto, Lifecycle.Client.setStream, hsame]
    · simp [Lifecycle.Client.goto, Lifecycle.Client.setStream, hq, hsame]
  | takes q e rest p pc events =>
    right
    by_cases hq : st = q
    · subst hq
      simp [Lifecycle.Client.goto, Lifecycle.Client.setStream, noted, pc, events]
    · simp [Lifecycle.Client.goto, Lifecycle.Client.setStream, noted, pc, hq]
  | works _ p threads next streams taken unopened =>
    have hsame : (s.noted t).taken st = s.taken st := by
      unfold noted
      split
      · split <;> rfl
      · rename_i q hq
        rw [taken q hq, List.take_nil, List.append_nil, Function.update_eq_self]
      · rfl
    obtain ⟨hev, hcl, -⟩ := streams st
    exact .inr ⟨by rw [hsame, hev], hcl⟩

private theorem Unused.exec (hs : s.Unused) {t : ThreadId} {k : Lifecycle.Client} (hk : s.kotlin.Executed t k) :
    ({ s.noted t with kotlin := k } : Frontend).Unused := by
  intro st hst
  rw [show ({ s.noted t with kotlin := k } : Frontend).userData = s.userData from (noted_frame s t).2.1] at hst
  obtain ⟨hevents, hclosed, htaken⟩ := hs st hst
  rcases exec_stream hk st with ⟨-, hev, hcl, hsame⟩ | ⟨hall, hcl⟩
  · exact ⟨hev, hcl, hsame.trans htaken⟩
  · rw [hevents, htaken, List.append_nil, List.append_eq_nil_iff] at hall
    exact ⟨hall.2, hcl.trans hclosed, hall.1⟩

private theorem Sent.exec (hs : s.Sent) {t : ThreadId} {k : Lifecycle.Client} (free : s.engine.calls t = .idle)
    (hk : s.kotlin.Executed t k) : ({ s.noted t with kotlin := k } : Frontend).Sent := by
  obtain ⟨hengine, huserData, hout, -⟩ := noted_frame s t
  have hidle := not_sending_of_idle (hengine.symm ▸ free)
  have hmoved {p : Lifecycle.Pc} (threads : k.threads = Function.update s.kotlin.threads t p)
      (next : s.kotlin.nextStream = k.nextStream) (sends : p.sends = none) :
      ({ s.noted t with kotlin := k } : Frontend).Sent := by
    refine hs.moved threads (Nat.le_of_eq next) huserData (fun _ _ => by rw [hout]) (fun _ _ => by rw [hengine])
      (placed_of_plain sends hidle) fun st h => ?_
    rw [sends] at h
    cases h
  cases hk with
  | opens highWater pc opened =>
    refine hs.moved (t := t) rfl (Nat.le_succ _) huserData (fun _ _ => by rw [hout]) (fun _ _ => by rw [hengine])
      ⟨(congrFun (congrArg Bridge.Client.calls hengine) t).trans free, hs.next_unowned⟩ fun st h => ?_
    cases h
    exact .inr ⟨Nat.le_refl _, Nat.lt_succ_self _⟩
  | stores st id pc => exact hmoved rfl rfl rfl
  | takes st e rest p pc events sends names => exact hmoved rfl rfl sends
  | works _ p threads next streams taken unopened sends => exact hmoved threads next.symm sends

private theorem Linked.call (hs : s.Linked cfg o) {t : ThreadId} {args : Args} {x : Bridge.Api} {k : Lifecycle.Client}
    {c : Bridge.Client} (free : s.engine.calls t = .idle) (there : api args.val (s.kotlin.threads t) = some x)
    (hk : s.kotlin.exec t = some k) (hc : s.engine.step cfg (.begin t x) = some c) :
    ∃ o', ({ s with kotlin := k, engine := c } : Frontend).Linked cfg o' := by
  obtain ⟨call, p, rfl, -, hp⟩ := Lifecycle.exec_there there hk
  have hstart : c.calls t = x.start := by
    simp only [Bridge.Client.step, free, if_true, Option.some.injEq] at hc
    rw [← hc]
    simp [Bridge.Client.setCall]
  have hothers : ∀ v, v ≠ t → c.calls v = s.engine.calls v :=
    fun v hv => Bridge.step_calls_of_ne hc fun h => hv (Option.some.inj h).symm
  refine ⟨_, hs.tied.engine (a := .begin t x) hc rfl rfl rfl fun r => ?_, ?_, hs.unused⟩
  · simp [Bridge.Client.enters]
  · refine hs.sent.moved (t := t) rfl (Nat.le_refl _) rfl (fun _ _ => rfl) hothers ?_ fun st hst => ?_
    · rw [show ({ s with kotlin := (s.kotlin.issue call).goto t p, engine := c } : Frontend).engine.calls t = x.start
        from hstart]
      rcases hp with ⟨st, hpc, rfl, rfl⟩ | ⟨-, hp, hx⟩
      · have hplaced := hs.sent.placed t
        rw [hpc] at hplaced
        exact ⟨args.property, hplaced.2⟩
      · refine placed_of_plain hp fun args' pc h => ?_
        cases x <;> cases h
        exact hx _ rfl
    · rcases hp with ⟨q, hpc, rfl, -⟩ | ⟨-, hp, -⟩
      · rw [hpc]
        exact .inl hst
      · rw [hp] at hst
        cases hst

/-- A request that is about to be registered is new, and so is its stream. -/
theorem Linked.registering (hs : s.Linked cfg o) {t : ThreadId} {args : Bridge.SendArgs} {id : ReqId} {st : StreamId}
    (hcall : s.engine.calls t = .sending args (.enterBridges id)) (hpc : s.kotlin.threads t = .inSend st) :
    s.userData id = none ∧ Unowned s.userData st := by
  constructor
  · have hnot := hs.tied.accounts.drawn t args _ id hcall rfl
    rw [hs.tied.entered id, not_exists] at hnot
    exact Option.eq_none_iff_forall_ne_some.mpr hnot
  · have hplaced := hs.sent.placed t
    rw [hcall, hpc] at hplaced
    exact hplaced.2

/-- A `send` that returns has given its stream to a request, or it was refused and nobody has it. -/
theorem Linked.returning (hs : s.Linked cfg o) {t : ThreadId} {st : StreamId} {status : Status}
    (call : s.engine.calls t = .done status ∨ ∃ r, s.engine.calls t = .request r (.returned status))
    (hpc : s.kotlin.threads t = .inSend st) :
    if status = .ok then s.userData (s.out t) = some st else Unowned s.userData st := by
  have hplaced := hs.sent.placed t
  rw [hpc] at hplaced
  rcases call with hc | ⟨r, hc⟩ <;> rw [hc] at hplaced
  · exact hplaced
  · exact hplaced.elim

private theorem Linked.engine (hs : s.Linked cfg o) {b : Bridge.Act} {c : Bridge.Client}
    {callbacks : ReqId → CallbackPc} (own : ∀ n x, b ≠ .begin n x) (hh : s.heard b = some callbacks)
    (hc : s.engine.step cfg b = some c) :
    ∃ o', ({ s.told b with engine := c, callbacks } : Frontend).Linked cfg o' := by
  have htold := told_cases hs.sent.placed hc
  have hfresh : ∀ id, s.engine.enters b = some id → s.userData id = none := by
    intro id hid
    obtain ⟨n, args, -, hcall⟩ := Bridge.Client.enters_eq_some hid
    obtain ⟨st, hpc, -⟩ := Placed.in_send (hcall ▸ hs.sent.placed n)
    exact (hs.registering hcall hpc).1
  obtain ⟨htaken, hstreams, -, hreg⟩ := htold.frame
  refine ⟨_, hs.tied.engine hc hh rfl rfl fun r => ?_, hs.sent.told htold hfresh own hc callbacks, fun st hst => ?_⟩
  · rcases hreg with ⟨henters, hdata⟩ | ⟨id, q, henters, hdata, -⟩
    · rw [henters, hdata]
      simp
    · rw [henters, hdata]
      by_cases hr : r = id
      · simp [hr]
      · simp [hr]
  · have hold : Unowned s.userData st := by
      rcases hreg with ⟨-, hdata⟩ | ⟨id, q, henters, hdata, -⟩
      · exact hdata ▸ hst
      · intro r hr
        exact hst r (hdata ▸ owned_grow (hfresh id henters) hr)
    rw [show ({ s.told b with engine := c, callbacks } : Frontend).kotlin.streams = s.kotlin.streams from hstreams,
      show ({ s.told b with engine := c, callbacks } : Frontend).taken = s.taken from htaken]
    exact hs.unused st hold

theorem Linked.step (hs : s.Linked cfg o) (h : s.Stepped cfg a u) : ∃ o', u.Linked cfg o' := by
  cases h with
  | begin t op free away =>
    have hplain : op.start.sends = none := by cases op <;> rfl
    refine ⟨o, hs.tied.congr rfl rfl rfl, hs.sent.moved (t := t) rfl (Nat.le_refl _) rfl (fun _ _ => rfl)
      (fun _ _ => rfl) (placed_of_plain hplain (not_sending_of_idle free)) fun st h => ?_, hs.unused⟩
    rw [hplain] at h
    cases h
  | abandon t free pc =>
    exact ⟨o, hs.tied.congr rfl rfl rfl, hs.sent.moved (t := t) rfl (Nat.le_refl _) rfl (fun _ _ => rfl)
      (fun _ _ => rfl) (placed_of_plain rfl (not_sending_of_idle free)) fun st h => (by cases h), hs.unused⟩
  | exec t args k free here hk =>
    have hx := Lifecycle.exec_here here hk
    obtain ⟨hengine, huserData, -, hcallbacks⟩ := noted_frame s t
    exact ⟨o, hs.tied.congr hengine huserData hcallbacks, hs.sent.exec free hx, hs.unused.exec hx⟩
  | call t args x k c free there hk hc => exact hs.call free there hk hc
  | engine b c callbacks own hh hc => exact hs.engine own hh hc
  | callback r _ h =>
    obtain ⟨hin, st, hst, hran⟩ := callback_cases h
    obtain ⟨hengine, huserData, hout, htaken, hthreads, hnext, hstreams⟩ := hran.frame
    obtain ⟨p, hcallbacks, -, hending⟩ := hran.goes
    refine ⟨o, hs.tied.ran hengine huserData hcallbacks hin hending, ?_, fun q hq => ?_⟩
    · refine hs.sent.advanced (t := 0) hthreads hnext huserData (fun _ _ => by rw [hout])
        (fun _ _ => by rw [hengine]) ?_
      rw [hout, hengine]
      exact hs.sent.placed 0
    · rw [huserData] at hq
      have hqst : q ≠ st := fun e => hq r (e ▸ hst)
      rw [hstreams q hqst, htaken]
      exact hs.unused q hq
  | throw r _ h =>
    obtain ⟨hin, p, rfl, -, -, hending⟩ := throw_cases h
    exact ⟨o, hs.tied.ran rfl rfl rfl hin fun he => hending ▸ he, hs.sent.advanced (t := 0) rfl rfl rfl (fun _ _ => rfl)
      (fun _ _ => rfl) (hs.sent.placed 0), hs.unused⟩

/-- What holds at first, and is kept by each step of a client that is tied together, holds in every run. -/
theorem Reaches.linked {ok : Frontend → Act → Prop} {as : List Act} {I : Frontend → Prop} (h : Reaches cfg ok as s)
    (step : ∀ {s a u o}, s.Linked (native cfg) o → I s → ok s a → s.Stepped (native cfg) a u → I u)
    (init : I (Frontend.init (native cfg))) : (∃ o, s.Linked (native cfg) o) ∧ I s := by
  refine Run.invariant (I := fun s => (∃ o, s.Linked (native cfg) o) ∧ I s) h ?_ ⟨⟨_, .init _⟩, init⟩
  rintro s a u hok ⟨⟨o, hl⟩, hs⟩ hstep
  have hstepped := step_cases hstep
  exact ⟨hl.step hstepped, step hl hs hok hstepped⟩

end Link

end Frontend

end Hyper4k.Streams
