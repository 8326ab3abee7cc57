import Hyper4k.Kotlin.Agreement
import Hyper4k.Server.Settled

/-! Who still owes a waiting request its answer. -/
namespace Hyper4k.Dispatch
open Server (Api CallPc Code Engine HandlePc Responder StreamAct Streaming ThreadId)
open Runs

def givesAnswer : Api → Bool
  | .respond .. | .begin .. => true
  | _ => false

structure Backend.OwedAt (s : Backend) (r : Responder) : Prop where
  inserted : (s.job r).pc ≠ .away → (s.streaming.engine.handles r).inserted = true
  outside : (s.streaming.engine.handles r).outside = true → (s.job r).submitting = false ∧ s.caught r = false
  begun : (s.job r).begun = true → s.streaming.engine.Settled r
  completed : (s.job r).completed ≠ [] →
    s.streaming.engine.Settled r ∨ ∃ response ∈ (s.job r).completed, respondCall r response = none
  thrown : (s.job r).pc = .thrown → (s.job r).channel = none → s.caught r = true ∨ s.streaming.engine.Settled r
  calls : ∀ api pc, s.streaming.call r = some (api, pc) → givesAnswer api = true → pc.undecided = false →
    s.streaming.engine.Settled r

section Owed
variable {cfg : Setup} {s t : Backend} {r : Responder}

theorem undecided_target (owner : Server.StreamId → Option Responder) {pc : CallPc} (h : pc.undecided = true) :
    pc.target = pc.on owner ∧ pc.target.isSome = true := by
  cases pc <;> first | exact ⟨rfl, rfl⟩ | cases h

theorem Progress.looking {streaming active : Bool} {api : Api} {pc : CallPc} (h : Progress streaming active api pc)
    (hpc : pc.looking = true) : active = false := by
  cases api with
  | respond q status headers body => exact h.2.1
  | begin q status headers =>
    obtain ⟨-, hbegin⟩ := h
    cases pc with
    | claimStream => exact (Option.some.inj hbegin).symm
    | checkStreams => cases hbegin
    | _ => cases hpc
  | write q chunk =>
    obtain ⟨-, -, hwrite⟩ := h
    cases pc with
    | checkStreams | claimStream => cases hwrite
    | _ => cases hpc
  | finish q =>
    obtain ⟨-, hfinish⟩ := h
    cases pc with
    | checkStreams | claimStream => cases hfinish
    | _ => cases hpc

theorem Job.Calls.not_away {j : Job} {caught : Bool} {api : Api} (h : j.Calls r caught api) : j.pc ≠ .away := by
  intro hpc
  simp only [Job.Calls, hpc] at h

/-- The step of the engine in a step of the whole. A `handle` takes its steps by itself. -/
theorem Backend.step_engine {a : BackendAct} (h : s.Stepped cfg a t) :
    t.streaming.engine = s.streaming.engine ∨ ∃ b, s.streaming.engine.step cfg.native b = some t.streaming.engine ∧
      ∀ q, b = .handle q → a = .network (.engine (.handle q)) := by
  cases h with
  | network a u free move =>
    refine (Streaming.step_acts move).imp_right ?_
    rintro ⟨b, hb, hact⟩
    refine ⟨b, hb, ?_⟩
    rintro q rfl
    rcases hact with rfl | ⟨i, hi⟩
    · rfl
    · cases hi
  | call q w method api u idle native may move =>
    refine (Streaming.step_acts move).imp_right ?_
    rintro ⟨b, hb, hact⟩
    refine ⟨b, hb, ?_⟩
    rintro q rfl
    rcases hact with he | ⟨i, hi⟩
    · cases he
    · cases hi
  | back w cut api code d u caught calls pc resume move catches =>
    refine (Streaming.step_acts move).imp_right ?_
    rintro ⟨b, hb, hact⟩
    refine ⟨b, hb, ?_⟩
    rintro q rfl
    rcases hact with he | ⟨i, hi⟩
    · cases he
    · cases hi
  | _ => exact .inl rfl

/-- What a step does to the `handle` of a request: only the callback waits for the request, until `submit` is over. -/
theorem Backend.step_handle {a : BackendAct} (hs : s.Tied cfg) (h : s.Stepped cfg a t) (r : Responder) :
    ((s.streaming.engine.handles r).inserted = true → (t.streaming.engine.handles r).inserted = true ∧
      (s.streaming.engine.Settled r → t.streaming.engine.Settled r)) ∧
    ((t.streaming.engine.handles r).outside = true → (s.streaming.engine.handles r).outside = true ∨
      (s.job r).submitting = false ∧ s.caught r = false ∧ t.job r = s.job r ∧ t.caught r = s.caught r) := by
  obtain ⟨bs, hrun⟩ := hs.reached
  have ho := Streaming.Reaches.orderly hrun
  rcases Backend.step_engine h with he | ⟨b, hb, hact⟩
  · rw [he]
    exact ⟨fun hin => ⟨hin, id⟩, .inl⟩
  · cases (Engine.step_cases hb ho.target).turned ho r with
    | still handle settled =>
      rw [handle]
      exact ⟨fun hin => ⟨hin, settled⟩, .inl⟩
    | early before after =>
      rw [before, after]
      exact ⟨fun hin => (by cases hin), fun hout => (by cases hout)⟩
    | leaves w act pc after settled =>
      refine ⟨fun _ => ⟨by rw [after]; rfl, settled⟩, fun _ => .inr ?_⟩
      obtain rfl := hact r act
      cases h with
      | network _ u free move =>
        simp only [Backend.free, pc, Bool.and_eq_true, Bool.not_eq_true'] at free
        exact ⟨free.1, free.2, rfl, rfl⟩
    | onward inserted outside settled =>
      rw [outside]
      exact ⟨fun _ => ⟨inserted, settled⟩, .inl⟩

theorem Backend.OwedAt.step {a : BackendAct} (hs : s.OwedAt r) (htied : s.Tied cfg) (h : s.Stepped cfg a t) :
    t.OwedAt r := by
  obtain ⟨hinserted, houtside⟩ := Backend.step_handle htied h r
  obtain ⟨-, hown, hserial⟩ := htied.serial r
  have hr := htied.tied r
  have horder := hr.order
  have settled : (s.job r).pc ≠ .away → s.streaming.engine.Settled r → t.streaming.engine.Settled r :=
    fun hpc => (hinserted (hs.inserted hpc)).2
  have hbegun : (s.job r).begun = true → (s.job r).pc ≠ .away := by
    intro hb hpc
    rw [Job.InOrder, hpc] at horder
    rw [Job.begun, horder.1] at hb
    cases hb
  have hcompleted : (s.job r).completed ≠ [] → (s.job r).pc ≠ .away := by
    intro hc hpc
    rw [Job.InOrder, hpc] at horder
    exact hc horder.2
  have kept : t.job r = s.job r → t.caught r = s.caught r →
      (∀ api pc, t.streaming.call r = some (api, pc) → givesAnswer api = true → pc.undecided = false →
        t.streaming.engine.Settled r) → t.OwedAt r := by
    intro job caught calls
    refine ⟨?_, ?_, ?_, ?_, ?_, calls⟩ <;> rw [job]
    · exact fun hpc => (hinserted (hs.inserted hpc)).1
    · rw [caught]
      exact fun hout => (houtside hout).elim hs.outside fun h => ⟨h.1, h.2.1⟩
    · exact fun hb => settled (hbegun hb) (hs.begun hb)
    · exact fun hc => (hs.completed hc).imp_left (settled (hcompleted hc))
    · rw [caught]
      exact fun hpc hc => (hs.thrown hpc hc).imp_right (settled (by rw [hpc]; exact fun h => (by cases h)))
  cases Backend.step_seen hown hserial (fun q => (htied.tied q).order) h with
  | still job caught told call active log =>
    refine kept job caught ?_
    rw [call]
    exact fun api pc hp hapi hpc => settled (hr.calls api pc hp).not_away (hs.calls api pc hp hapi hpc)
  | goes w api job caught told calls before busy move after writes =>
    refine kept job caught fun api' pc hp hapi hpc => ?_
    rw [after] at hp
    cases hp
    cases hundecided : (s.streaming.engine.pcs w).undecided with
    | false => exact settled (hr.calls api _ before).not_away (hs.calls api _ before hapi hundecided)
    | true =>
      obtain ⟨bs, hrun⟩ := htied.reached
      have hagree := hr.agree
      rw [before] at hagree
      obtain ⟨htarget, hsome⟩ := undecided_target s.streaming.owner hundecided
      obtain ⟨q, hq⟩ := Option.isSome_iff_exists.mp hsome
      have hself : q = r := by
        refine hown.on_self ?_ (htarget.symm.trans hq)
        obtain ⟨-, -, -, -, hon⟩ := hserial.call_on before
        rw [calls, Option.map_some, hon]
      refine Engine.advance_settles (Streaming.Reaches.orderly hrun) move hundecided (hself ▸ hq) (fun hlooking => ?_) hpc
      exact Option.isNone_iff_eq_none.mp (Option.isSome_eq_false_iff.mp (Progress.looking hagree hlooking))
  | submits inside pc job caught told same =>
    rw [Job.InOrder, pc] at horder
    obtain ⟨w, hw⟩ : ∃ w, s.streaming.engine.handles r = .inCallback w := by
      unfold Backend.inCallback at inside
      split at inside
      · rename_i w hw
        exact ⟨w, hw⟩
      · cases inside
    refine ⟨fun _ => ?_, fun hout => ?_, fun hb => ?_, fun hc => ?_, fun hpc => ?_, fun api pc' hp => ?_⟩
    · rw [same, hw]
      rfl
    · rw [same, hw] at hout
      cases hout
    · rw [job, Job.begun, horder.1] at hb
      cases hb
    · rw [job] at hc
      exact absurd horder.2 hc
    · rw [job] at hpc
      cases hpc
    · rw [same] at hp
      exact absurd pc (hr.calls api pc' hp).not_away
  | runs b idle runs hopen throws caught refused told same =>
    refine ⟨fun _ => ?_, fun hout => ?_, fun hb => ?_, fun hc => ?_, fun hpc hc => ?_, fun api pc' hp => ?_⟩
    · rw [same]
      exact hs.inserted runs.not_away
    · rw [same] at hout
      obtain ⟨hsubmitting, hcaught⟩ := hs.outside hout
      refine ⟨runs.submitting horder hsubmitting, ?_⟩
      rw [caught (Bool.eq_false_iff.mpr fun h => ?_), hcaught]
      rw [Job.submitting_of_refusing h] at hsubmitting
      cases hsubmitting
    · rw [same]
      exact hs.begun (runs.begun_of hopen hb)
    · rw [same]
      rcases runs.completed_of with he | ⟨response, hresponse, hmem⟩
      · rw [he] at hc ⊢
        exact hs.completed hc
      · exact .inr ⟨response, hmem, throws response hresponse⟩
    · rcases runs.thrown_of hpc with hrefuse | hsome
      · exact .inl ((refused hrefuse).mp hpc)
      · exact absurd hc hsome
    · rw [same, idle] at hp
      cases hp
  | calls method w api idle native may job caught told call active log =>
    refine kept job caught fun api' pc hp hapi hpc => ?_
    rw [call] at hp
    cases hp
    have hborn : r ≠ 0 := by
      rintro rfl
      obtain ⟨bs, hrun⟩ := htied.reached
      obtain ⟨bs, hrun⟩ := Streaming.Reaches.engine hrun
      have hin := hs.inserted (hr.enters cfg htied.zero idle native).1.not_away
      rw [Engine.Reaches.zero_unborn hrun] at hin
      cases hin
    have hon := Backend.native_responder native
    cases api with
    | respond q status headers body | begin q status headers =>
      obtain rfl : q = r := hon
      rw [Api.start, if_neg hborn] at hpc
      cases hpc
    | write q chunk | finish q => cases hapi
  | returns w cut api code calls before after active log resume on caught told =>
    have hres := hr.returns on before resume
    have hsettled : t.streaming.engine.Settled r := by
      refine settled (hr.calls api _ before).not_away ?_
      have hagree := hr.agree
      rw [before] at hagree
      cases api with
      | respond q status headers body | begin q status headers => exact hs.calls _ _ before rfl rfl
      | write q chunk | finish q => exact hs.begun (Job.begun_of_streaming hagree.1)
    refine ⟨fun _ => ?_, fun hout => ?_, fun _ => hsettled, fun _ => .inl hsettled, fun _ _ => .inr hsettled,
      fun _ _ _ _ _ => hsettled⟩
    · exact (hinserted (hs.inserted (hr.calls api _ before).not_away)).1
    · obtain ⟨hsubmitting, hcaught⟩ : (s.job r).submitting = false ∧ s.caught r = false :=
        (houtside hout).elim hs.outside fun h => ⟨h.1, h.2.1⟩
      refine ⟨hres.submitting hsubmitting, ?_⟩
      rw [caught, hcaught]
      split <;> rfl

theorem Backend.OwedAt.init (r : Responder) : (Backend.init cfg).OwedAt r where
  inserted h := absurd rfl h
  outside h := by cases h
  begun h := by cases h
  completed h := absurd rfl h
  thrown h := by cases h
  calls api pc h := by cases h

theorem Backend.Reaches.owed {ok : Backend → BackendAct → Prop} {as : List BackendAct}
    (h : Backend.Reaches cfg ok as s) : s.Tied cfg ∧ ∀ r, s.OwedAt r :=
  Run.invariant (I := fun s : Backend => s.Tied cfg ∧ ∀ r, s.OwedAt r) h
    (fun _ _ _ _ hs hstep => ⟨hs.1.step hstep, fun r => (hs.2 r).step hs.1 (Backend.step_cases hstep)⟩)
    ⟨.init, Backend.OwedAt.init⟩

end Owed

/-- Where the response comes from that the coroutine gives to `finish`. -/
inductive Origin
  | handler (response : Hyper4kResponse)
  | fallback (response : Hyper4kResponse)
  deriving DecidableEq, Repr

def Origin.response : Origin → Hyper4kResponse
  | .handler response | .fallback response => response

abbrev Origins := Responder → Option Origin

def Pc.origin (ending : Ending) (failure : Option Hyper4kResponse) : Pc → Option Origin
  | .handler [] => match ending with
    | .returned response => some (.handler response)
    | _ => none
  | .recover _ _ => failure.map .fallback
  | _ => none

def Backend.originate (s : Backend) (a : BackendAct) (_ : Backend) (o : Origins) : Origins :=
  match a with
  | .exec r ending failure => Function.update o r (((s.job r).pc.origin ending failure).or (o r))
  | _ => o

/-- A request that was neither completed nor begun had the receipt of a stream for its response. -/
def Job.Receipted (j : Job) (x : Option Origin) : Prop :=
  match j.pc with
  | .finish response => ∃ y, x = some y ∧ y.response = response
  | .subActive | .releaseSlot | .released =>
    j.channel ≠ none → j.begun = false → j.completed = [] → ∃ y, x = some y ∧ y.response.streamed = true
  | _ => True

section Receipts
variable {cfg : Setup} {s t : Backend} {o : Origins} {r : Responder}

theorem NativeResponseChannel.finish_started (c : NativeResponseChannel) (rc : Code) :
    (c.finish rc).2.started = c.started := by
  unfold NativeResponseChannel.finish
  repeat' split
  all_goals rfl

private theorem Receipted.exec {d d' : Dispatcher} {b : Behaviour} {failure : Option Hyper4kResponse} {x : Option Origin}
    (hb : b.newChannel = true ∧ b.ops = [] ∧ ∀ status message, b.failureResponse status message = failure)
    (hj : (d.jobs r).InOrder) (hr : (d.jobs r).Receipted x) (h : d.exec (cfg.config b) r = some d') :
    ∃ j, d'.jobs = Function.update d.jobs r j ∧ j.Receipted (((d.jobs r).pc.origin b.ending failure).or x) := by
  rw [Dispatcher.exec] at h
  rw [Job.InOrder] at hj
  rw [Job.Receipted] at hr
  generalize (d.jobs r).pc = pc at h hj hr
  cases pc with
  | away | released | refused | thrown => cases h
  | loadAccepting | recheckAccepting =>
    cases h
    refine ⟨_, rfl, ?_⟩
    split <;> trivial
  | tryAcquire =>
    cases h
    split <;> exact ⟨_, rfl, trivial⟩
  | addActive =>
    cases h
    exact ⟨_, rfl, trivial⟩
  | subActive | releaseSlot =>
    cases h
    exact ⟨_, rfl, hr⟩
  | refuse slot =>
    cases h
    refine ⟨_, rfl, ?_⟩
    split <;> trivial
  | newChannel =>
    simp only [Setup.config, hb.1] at h
    cases h
    exact ⟨_, rfl, trivial⟩
  | handler ops =>
    obtain ⟨rfl, -, -⟩ := hj
    cases h
    refine ⟨_, rfl, ?_⟩
    change Job.Receipted { d.jobs r with pc := b.ending.next } _
    cases b.ending with
    | returned response => exact ⟨_, rfl, rfl⟩
    | timedOut | cancelled | threw => trivial
  | recover status message =>
    cases h
    refine ⟨_, rfl, ?_⟩
    simp only [Setup.config, hb.2.2]
    cases failure with
    | some response => exact ⟨_, rfl, rfl⟩
    | none => trivial
  | finish response =>
    cases h
    refine ⟨_, rfl, ?_⟩
    obtain ⟨y, rfl, rfl⟩ := hr
    split
    · trivial
    · split
      · rename_i hstreamed
        exact fun _ _ _ => ⟨y, rfl, hstreamed⟩
      · trivial
  | closeStream =>
    cases h
    refine ⟨_, rfl, fun _ hbegun _ => ?_⟩
    obtain ⟨c, hc, hopen⟩ := (Option.any_eq_true _ _).mp hj.1
    have hstarted : c.started = true := (Bool.and_eq_true_iff.mp hopen).1
    rw [Job.begun] at hbegun
    simp only [hc, Option.map_some, Option.any_some, NativeResponseChannel.finish_started, hstarted] at hbegun
    cases hbegun
  | complete response slot =>
    cases h
    refine ⟨_, rfl, ?_⟩
    cases slot with
    | true => exact fun _ _ hnone => absurd hnone (by simp)
    | false => trivial

private theorem Receipted.put (hs : ∀ q, (s.job q).Receipted (o q)) {j : Job} {x : Option Origin} {o' : Origins}
    (ht : t.dispatcher.jobs = Function.update s.dispatcher.jobs r j) (ho : o' = Function.update o r x)
    (hj : j.Receipted x) : ∀ q, (t.job q).Receipted (o' q) := by
  intro q
  rw [Backend.job, ht, ho]
  by_cases hq : q = r
  · subst hq
    rwa [Function.update_self, Function.update_self]
  · rw [Function.update_of_ne hq, Function.update_of_ne hq]
    exact hs q

private theorem Receipted.resume {api : Api} {code : Code} {cut : Bool} {d : Dispatcher} {x : Option Origin}
    (hj : (s.job api.responder).InOrder) (hr : (s.job api.responder).Receipted x)
    (h : s.resume cfg api code cut = some d) :
    ∃ j, d.jobs = Function.update s.dispatcher.jobs api.responder j ∧ j.Receipted x := by
  have kept : s.dispatcher.jobs = Function.update s.dispatcher.jobs api.responder (s.job api.responder) :=
    (Function.update_eq_self ..).symm
  have handling (hpc : (s.job api.responder).pc = .handler []) (op : Op) :
      ({ s.job api.responder with channel := (s.job api.responder).channel.map op.run } : Job).Receipted x := by
    rw [Job.Receipted, hpc]
    trivial
  unfold Backend.resume at h
  split at h
  case h_1 q status headers hpc | h_3 q hpc =>
    cases h
    exact ⟨_, rfl, handling hpc _⟩
  case h_2 q chunk _ hpc =>
    cases h
    cases cut with
    | true => exact ⟨_, kept, hr⟩
    | false => exact ⟨_, rfl, handling hpc _⟩
  case h_4 q hpc =>
    obtain ⟨j, hd, hrec⟩ := Receipted.exec ⟨rfl, rfl, fun _ _ => rfl⟩ hj hr h
    refine ⟨j, hd, ?_⟩
    have hpc : (s.dispatcher.jobs q).pc = .closeStream := hpc
    rw [show Api.responder (.finish q) = q from rfl, hpc] at hrec
    exact hrec
  case h_5 response slot q status headers body hpc =>
    obtain ⟨j, hd, hrec⟩ := Receipted.exec ⟨rfl, rfl, fun _ _ => rfl⟩ hj hr h
    refine ⟨j, hd, ?_⟩
    have hpc : (s.dispatcher.jobs q).pc = .complete response slot := hpc
    rw [show Api.responder (.respond q status headers body) = q from rfl, hpc] at hrec
    exact hrec
  case h_6 q status headers body _ hpc =>
    cases h
    exact ⟨_, kept, hr⟩
  case h_7 => cases h

private theorem Receipted.step {a : BackendAct} (htied : s.Tied cfg) (hs : ∀ q, (s.job q).Receipted (o q))
    (h : s.Stepped cfg a t) : ∀ q, (t.job q).Receipted (s.originate a t o q) := by
  have horder : ∀ q, (s.job q).InOrder := fun q => (htied.tied q).order
  have same (r : Responder) : o = Function.update o r (o r) := (Function.update_eq_self r o).symm
  cases h with
  | network | stops => exact hs
  | call q w method api u idle native may move =>
    have hjob : ∀ p, (Backend.job { s.tell q method with streaming := u } p) = s.job p := by
      intro p
      unfold Backend.tell Backend.job
      split <;> rfl
    intro p
    rw [hjob]
    exact hs p
  | submit q inside pc => exact Receipted.put hs rfl (same q) trivial
  | runs q ending failure d caught running move catches =>
    obtain ⟨j, hd, hj⟩ := Receipted.exec ⟨rfl, rfl, fun _ _ => rfl⟩ (horder q) (hs q) move
    exact Receipted.put hs hd rfl hj
  | throws q response slot d pc idle bad move =>
    obtain ⟨j, hd, hj⟩ := Receipted.exec ⟨rfl, rfl, fun _ _ => rfl⟩ (horder q) (hs q) move
    rw [show s.dispatcher.jobs q = s.job q from rfl, pc] at hj
    exact Receipted.put hs hd (same q) hj
  | back w cut api code d u caught calls pc resume move catches =>
    obtain ⟨j, hd, hj⟩ := Receipted.resume (horder api.responder) (hs api.responder) resume
    exact Receipted.put hs hd (same api.responder) hj

abbrev Backend.Traced (cfg : Setup) (as : List BackendAct) (s : Backend) (o : Origins) : Prop :=
  Run (observe (Backend.step cfg) Backend.originate) anyStep (Backend.init cfg, fun _ => none) as (s, o)

theorem Backend.Traced.reached {as : List BackendAct} (h : Backend.Traced cfg as s o) :
    Backend.Reaches cfg anyStep as s :=
  Run.unobserved (p := (Backend.init cfg, fun _ => none)) (q := (s, o)) (fun _ _ _ => trivial) h

theorem Backend.Traced.receipted {as : List BackendAct} (h : Backend.Traced cfg as s o) (r : Responder) :
    (s.job r).Receipted (o r) := by
  have hall : s.Tied cfg ∧ ∀ q, (s.job q).Receipted (o q) := by
    refine Run.invariant (I := fun p : Backend × Origins => p.1.Tied cfg ∧ ∀ q, (p.1.job q).Receipted (p.2 q)) h ?_
      ⟨.init, fun _ => trivial⟩
    rintro ⟨s, o⟩ a ⟨t, o'⟩ - ⟨htied, hs⟩ hmove
    obtain ⟨hstep, ho⟩ := observe_eq_some hmove
    refine ⟨htied.step hstep, ?_⟩
    rw [ho]
    exact Receipted.step htied hs (Backend.step_cases hstep)
  exact hall.2 r

end Receipts

/-- The request is in its coroutine and has not answered yet. -/
def Pc.atWork : Pc → Bool
  | .handler _ | .recover _ _ | .finish _ | .complete _ _ => true
  | _ => false

/-- Without a call in progress, a request whose `handle` is blocked is not settled. -/
theorem Backend.Tied.unsettled {cfg : Setup} {s : Backend} {r : Responder} (hs : s.Tied cfg)
    (hwaits : s.streaming.engine.handles r = .await) (hblocked : s.streaming.engine.serve r = none)
    (hidle : s.streaming.caller r = none) : ¬ s.streaming.engine.Settled r := by
  intro hsettled
  obtain ⟨bs, hrun⟩ := hs.reached
  obtain ⟨bs, hrun⟩ := Streaming.Reaches.engine hrun
  obtain ⟨-, hheld⟩ := hrun.held ⟨.init, Engine.Held.init⟩
  obtain ⟨-, hown, hserial⟩ := hs.serial r
  obtain ⟨w, hw⟩ := hsettled.carried (hheld r) hwaits hblocked
  have hon : (s.streaming.engine.pcs w).on s.streaming.owner = some r := by
    have hw : (s.streaming.engine.pcs w).carries r = true := hw
    cases hpc : s.streaming.engine.pcs w with
    | send q own payload =>
      rw [hpc] at hw
      exact congrArg some (of_decide_eq_true hw)
    | _ =>
      rw [hpc] at hw
      cases hw
  have hcaller := (hserial.caller w).mpr ((hown.threads w).calls r hon)
  rw [hidle] at hcaller
  cases hcaller

/-- A request that waits has somebody to wait for. While `handle` is blocked, a native call is in progress on its
responder or its coroutine is still at work; or else the answer was thrown away: `failureResponse` threw in the
coroutine, the response was the receipt of a stream that was never begun, which the handler or `failureResponse` had
returned, or its headers could not be encoded. -/
theorem blocked_request_is_owed {cfg : Setup} {as : List BackendAct} {s : Backend} {o : Origins} {r : Responder}
    (h : Backend.Traced cfg as s o) (hwaits : s.streaming.engine.handles r = .await)
    (hblocked : s.streaming.engine.serve r = none) :
    s.streaming.caller r ≠ none ∨ (s.job r).pc.atWork = true ∨
    (s.job r).pc = .thrown ∧ (s.job r).channel ≠ none ∨
    (∃ x, o r = some x ∧ x.response.streamed = true ∧ (s.job r).begun = false ∧ (s.job r).completed = []) ∨
    ∃ response ∈ (s.job r).completed, Server.encodeHeaders response.headers = none := by
  by_cases hidle : s.streaming.caller r = none
  · have hreceipted := h.receipted r
    obtain ⟨htied, howed⟩ := h.reached.owed
    have hopen := htied.unsettled hwaits hblocked hidle
    have horder := (htied.tied r).order
    obtain ⟨hsubmitting, hcaught⟩ := (howed r).outside (by rw [hwaits]; rfl)
    have hbegun : (s.job r).begun = false := Bool.eq_false_iff.mpr fun hb => hopen ((howed r).begun hb)
    -- a completion that has settled nothing threw before its native call
    have lost : (s.job r).completed ≠ [] →
        ∃ response ∈ (s.job r).completed, Server.encodeHeaders response.headers = none := by
      intro hc
      obtain ⟨response, hmem, hbad⟩ := ((howed r).completed hc).resolve_left hopen
      exact ⟨response, hmem, Option.map_eq_none_iff.mp hbad⟩
    refine .inr ?_
    cases hpc : (s.job r).pc with
    | away | loadAccepting | tryAcquire | addActive | recheckAccepting | newChannel | refuse slot =>
      simp only [Job.submitting, hpc] at hsubmitting
      cases hsubmitting
    | handler ops | recover status message | finish response | complete response slot => exact .inl rfl
    | closeStream =>
      rw [Job.InOrder, hpc] at horder
      rw [Job.begun_of_streaming horder.1] at hbegun
      cases hbegun
    | subActive | releaseSlot | released =>
      rw [Job.InOrder, hpc] at horder
      rw [Job.Receipted, hpc] at hreceipted
      by_cases hc : (s.job r).completed = []
      · obtain ⟨x, hx, hstreamed⟩ := hreceipted (fun hnone => horder.2 hnone hc) hbegun hc
        exact .inr (.inr (.inl ⟨x, hx, hstreamed, hbegun, hc⟩))
      · exact .inr (.inr (.inr (lost hc)))
    | refused =>
      rw [Job.InOrder, hpc] at horder
      exact .inr (.inr (.inr (lost horder.2)))
    | thrown =>
      refine .inr (.inl ⟨rfl, fun hchannel => ?_⟩)
      rcases (howed r).thrown hpc hchannel with hc | hsettled
      · rw [hcaught] at hc
        cases hc
      · exact hopen hsettled
  · exact .inl hidle

/-- The handler of request 1 throws, and `failureResponse` gives the receipt of a stream that nobody has begun. -/
def receiptOnly : List BackendAct :=
  inHandler ++ .exec 1 .threw none :: .exec 1 .threw (some { status := 200, streamed := true }) ::
    List.replicate 3 (.exec 1 .threw none) ++ List.replicate 3 (.network (.engine (.handle 1)))

theorem blocked_request_is_owed_receipt : ∃ s o, Backend.Traced .small receiptOnly s o ∧
    s.streaming.engine.handles 1 = .await ∧ s.streaming.engine.serve 1 = none ∧ (s.job 1).pc = .released ∧
    ∃ x, o 1 = some x ∧ x.response.streamed = true ∧ (s.job 1).begun = false ∧ (s.job 1).completed = [] := by
  have hrun : (replay (observe (Backend.step .small) Backend.originate) anyStep (.init .small, fun _ => none)
      receiptOnly).any (fun p => decide (p.1.streaming.engine.handles 1 = .await ∧
        (p.1.streaming.engine.serve 1).isNone = true ∧ p.1.streaming.caller 1 = none ∧ (p.1.job 1).pc = .released ∧
        (p.1.job 1).completed = [])) = true := by decide
  obtain ⟨⟨s, o⟩, hs, hd⟩ := (Option.any_eq_true _ _).mp hrun
  obtain ⟨hwaits, hblocked, hidle, hpc, hcompleted⟩ := of_decide_eq_true hd
  have hblocked := Option.isNone_iff_eq_none.mp hblocked
  refine ⟨s, o, run_of_replay hs, hwaits, hblocked, hpc, ?_⟩
  rcases blocked_request_is_owed (run_of_replay hs) hwaits hblocked with hcall | hwork | ⟨hthrown, -⟩ | hreceipt |
    ⟨response, hmem, -⟩
  · exact absurd hidle hcall
  · rw [hpc] at hwork
    cases hwork
  · rw [hpc] at hthrown
    cases hthrown
  · exact hreceipt
  · rw [hcompleted] at hmem
    cases hmem

end Hyper4k.Dispatch
