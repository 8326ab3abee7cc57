import Hyper4k.Kotlin.Slots

/-! How often the dispatcher answers a request, whatever its channel is and whoever uses it. -/
namespace Hyper4k.Dispatch
open Server (Responder)
open Runs

/-- What `finish` found when it asked the channel, and what the response said. -/
structure Look where
  begun : Bool
  finished : Bool
  streamed : Bool
  deriving DecidableEq, Repr

/-- The stream is open, or the response says `streamed` exactly if the channel was begun. -/
def Look.Accounts (l : Look) : Prop := (l.begun = true ∧ l.finished = false) ∨ l.streamed = l.begun

/-- What became of a request's channel: whether a `begin` and, after it, a `finish` took effect. -/
structure Exchange where
  begun : Bool := false
  finished : Bool := false
  look : Option Look := none
  deriving DecidableEq, Repr

namespace Exchange

def begin (e : Exchange) : Exchange := { e with begun := true }

def finish (e : Exchange) : Exchange := { e with finished := e.finished || e.begun }

end Exchange

structure Channels where
  dispatcher : Dispatcher
  exchange : Responder → Exchange := fun _ => {}

/-- `begin` and `finish` are calls that take effect, by the handler or by anybody it gave the
channel to, at any time. `close` is the call that `finish` of the dispatcher makes. -/
inductive ChannelAct
  | dispatch (a : Act)
  | isStreaming (r : Responder) (answer : Option Bool)
  | close (r : Responder) (took : Bool)
  | begin (r : Responder)
  | finish (r : Responder)
  deriving DecidableEq, Repr

/-- The handler's calls on its channel come as steps of their own. -/
def Config.bare (cfg : Config) : Config := { cfg with behaviour := fun r => { cfg.behaviour r with ops := [] } }

def Pc.asks : Pc → Bool
  | .finish _ | .closeStream => true
  | _ => false

namespace Channels

def init (cfg : Config) : Channels := { dispatcher := .init cfg }

def setExchange (s : Channels) (r : Responder) (e : Exchange) : Channels :=
  { s with exchange := Function.update s.exchange r e }

def asks (s : Channels) : Act → Bool
  | .exec r => (s.dispatcher.jobs r).pc.asks
  | .submit _ | .stopAccepting => false

def step (cfg : Config) (s : Channels) : ChannelAct → Option Channels
  | .dispatch a =>
    if s.asks a then none
    else (s.dispatcher.slotStep cfg.bare (.dispatch a)).map fun d => { s with dispatcher := d }
  | .isStreaming r answer => match (s.dispatcher.jobs r).pc with
    | .finish response =>
      (s.dispatcher.slotStep cfg.bare (.isStreaming r answer)).map fun d =>
        { s with dispatcher := d }.setExchange r { s.exchange r with
          look := some ⟨(s.exchange r).begun, (s.exchange r).finished, response.streamed⟩ }
    | _ => none
  -- `runCatching` drops what the call throws
  | .close r took => match (s.dispatcher.jobs r).pc with
    | .closeStream => some ({ s with dispatcher := s.dispatcher.goto r .subActive }.setExchange r
        (if took then (s.exchange r).finish else s.exchange r))
    | _ => none
  | .begin r => if (s.dispatcher.jobs r).channel.isSome then some (s.setExchange r (s.exchange r).begin) else none
  | .finish r => if (s.dispatcher.jobs r).channel.isSome then some (s.setExchange r (s.exchange r).finish) else none

/-- One answer: a response and no stream, or a stream that is closed and no response. -/
def AnsweredOnce (s : Channels) (r : Responder) : Prop :=
  ((s.dispatcher.jobs r).completed.length = 1 ∧ (s.exchange r).begun = false) ∨
    ((s.exchange r).begun = true ∧ (s.exchange r).finished = true ∧ (s.dispatcher.jobs r).completed = [])

/-- The channel says what it is and closes when it is told to, and nobody begins it after the
dispatcher has asked. -/
def Keeps (s : Channels) : ChannelAct → Prop
  | .isStreaming r answer => answer = some ((s.exchange r).begun && !(s.exchange r).finished)
  | .close _ took => took = true
  | .begin r => (s.exchange r).look = none ∨ (s.exchange r).begun = true
  | .dispatch _ | .finish _ => True

instance (s : Channels) : ∀ a, Decidable (s.Keeps a)
  | .isStreaming _ _ | .close _ _ => inferInstanceAs (Decidable (_ = _))
  | .begin _ => inferInstanceAs (Decidable (_ ∨ _))
  | .dispatch _ | .finish _ => inferInstanceAs (Decidable True)

abbrev Reaches (cfg : Config) (ok : Channels → ChannelAct → Prop) (as : List ChannelAct) (s : Channels) : Prop :=
  Run (step cfg) ok (init cfg) as s

end Channels

/-- How a request was answered, and whether that accounts for its channel. -/
inductive Settled (channel : Option NativeResponseChannel) (completed : List Hyper4kResponse) (e : Exchange) : Prop
  | refused (nowhere : channel = none) (unused : e = {}) (one : completed.length = 1)
  | closed {l : Look} (look : e.look = some l) (accounts : l.Accounts) (begun : e.begun = true)
      (finished : e.finished = true) (none : completed = [])
  | written {l : Look} (look : e.look = some l) (accounts : l.Accounts ↔ e.begun = false) (one : completed.length = 1)
  | silent {l : Look} (look : e.look = some l) (accounts : ¬ l.Accounts) (unbegun : e.begun = false)
      (none : completed = [])

def Sound (j : Job) (e : Exchange) : Prop :=
  match j.pc with
  | .away | .loadAccepting | .tryAcquire | .addActive | .recheckAccepting | .refuse _ | .newChannel =>
    j.channel = none ∧ e = {} ∧ j.completed = []
  | .handler _ | .recover _ _ | .finish _ => j.channel.isSome = true ∧ e.look = none ∧ j.completed = []
  | .closeStream => ∃ l, e.look = some l ∧ l.Accounts ∧ e.begun = true ∧ j.completed = []
  | .complete _ _ => j.completed = [] ∧
      ((j.channel = none ∧ e = {}) ∨ ∃ l, e.look = some l ∧ (l.Accounts ↔ e.begun = false))
  | .subActive | .releaseSlot | .released => Settled j.channel j.completed e
  | .refused | .thrown => True

section Steps
variable {cfg : Config} {s : Channels} {r : Responder} {j : Job} {e : Exchange}
  {channel : Option NativeResponseChannel} {completed : List Hyper4kResponse}

theorem Settled.begin (h : Settled channel completed e) (hchannel : channel.isSome = true)
    (hlook : e.look = none ∨ e.begun = true) : Settled channel completed e.begin := by
  have hbegun {l : Look} (hl : e.look = some l) : e.begin = e := by
    have hb : e.begun = true := hlook.resolve_left fun hnone => by rw [hl] at hnone; cases hnone
    rw [Exchange.begin, ← hb]
  cases h with
  | refused hnone _ _ =>
    rw [hnone] at hchannel
    cases hchannel
  | closed hl haccounts hb hf hnone => exact .closed hl haccounts rfl hf hnone
  | written hl haccounts hone =>
    rw [hbegun hl]
    exact .written hl haccounts hone
  | silent hl haccounts hb hnone =>
    rw [hbegun hl]
    exact .silent hl haccounts hb hnone

theorem Settled.finish (h : Settled channel completed e) : Settled channel completed e.finish := by
  cases h with
  | refused hnone hunused hone => exact .refused hnone (by rw [hunused]; rfl) hone
  | closed hl haccounts hb hf hnone =>
    exact .closed hl haccounts hb (by rw [Exchange.finish, hf]; rfl) hnone
  | written hl haccounts hone => exact .written hl haccounts hone
  | silent hl haccounts hb hnone => exact .silent hl haccounts hb hnone

theorem Settled.answered_iff (h : Settled channel (s.dispatcher.jobs r).completed (s.exchange r)) :
    s.AnsweredOnce r ↔ ∀ l, (s.exchange r).look = some l → l.Accounts := by
  rw [Channels.AnsweredOnce]
  cases h with
  | refused hnone hunused hone =>
    rw [hunused]
    exact iff_of_true (.inl ⟨hone, rfl⟩) fun l hl => (by cases hl)
  | @closed l hl haccounts hb hf hnone =>
    refine iff_of_true (.inr ⟨hb, hf, hnone⟩) fun l' hl' => ?_
    cases hl.symm.trans hl'
    exact haccounts
  | @written l hl haccounts hone =>
    rw [hone, hl]
    constructor
    · rintro (⟨-, hb⟩ | ⟨-, -, hnone⟩) l' hl'
      · cases hl'
        exact haccounts.mpr hb
      · rw [hnone] at hone
        cases hone
    · intro h
      exact .inl ⟨rfl, haccounts.mp (h l rfl)⟩
  | @silent l hl haccounts hb hnone =>
    rw [hnone, hb, hl]
    refine iff_of_false ?_ fun h => haccounts (h l rfl)
    rintro (⟨hone, -⟩ | ⟨hb, -⟩)
    · cases hone
    · cases hb

/-- Before the dispatcher has asked, the channel may be used in any way. -/
private theorem Sound.begin (h : Sound j e) (hchannel : j.channel.isSome = true)
    (hlook : e.look = none ∨ e.begun = true) : Sound j e.begin := by
  rw [Sound] at h ⊢
  generalize j.pc = pc at h ⊢
  cases pc with
  | away | loadAccepting | tryAcquire | addActive | recheckAccepting | refuse | newChannel =>
    rw [h.1] at hchannel
    cases hchannel
  | handler | recover | finish | refused | thrown => exact h
  | closeStream =>
    obtain ⟨l, hl, haccounts, -, hnone⟩ := h
    exact ⟨l, hl, haccounts, rfl, hnone⟩
  | complete response slot =>
    obtain ⟨hnone, ⟨hno, -⟩ | ⟨l, hl, haccounts⟩⟩ := h
    · rw [hno] at hchannel
      cases hchannel
    · refine ⟨hnone, .inr ⟨l, hl, ?_⟩⟩
      rcases hlook with hlook | hlook
      · rw [hl] at hlook
        cases hlook
      · rw [haccounts, hlook]
        exact Iff.rfl
  | subActive | releaseSlot | released => exact h.begin hchannel hlook

private theorem Sound.finish (h : Sound j e) (hchannel : j.channel.isSome = true) : Sound j e.finish := by
  rw [Sound] at h ⊢
  generalize j.pc = pc at h ⊢
  cases pc with
  | away | loadAccepting | tryAcquire | addActive | recheckAccepting | refuse | newChannel =>
    rw [h.1] at hchannel
    cases hchannel
  | handler | recover | finish | refused | thrown | closeStream => exact h
  | complete response slot =>
    obtain ⟨hnone, ⟨hno, -⟩ | hlook⟩ := h
    · rw [hno] at hchannel
      cases hchannel
    · exact ⟨hnone, .inr hlook⟩
  | subActive | releaseSlot | released => exact h.finish

/-- A channel that says what it is sends `finish` one of three ways. -/
private theorem Sound.look {response : Hyper4kResponse} (hlook : e.look = none) (hnone : j.completed = []) :
    Sound { j with pc := match some (e.begun && !e.finished) with
        | none => .subActive
        | some true => .closeStream
        | some false => if response.streamed then .subActive else .complete response true }
      { e with look := some ⟨e.begun, e.finished, response.streamed⟩ } := by
  obtain ⟨begun, finished, look⟩ := e
  cases begun with
  | true => cases finished with
    | false => exact ⟨_, rfl, .inl ⟨rfl, rfl⟩, rfl, hnone⟩
    | true => cases hstreamed : response.streamed with
      | true => exact Settled.closed rfl (.inr rfl) rfl rfl hnone
      | false =>
        refine ⟨hnone, .inr ⟨_, rfl, iff_of_false ?_ Bool.true_eq_false.mp⟩⟩
        rintro (⟨-, h⟩ | h) <;> cases h
  | false => cases hstreamed : response.streamed with
    | true =>
      refine Settled.silent rfl ?_ rfl hnone
      rintro (⟨h, -⟩ | h) <;> cases h
    | false => exact ⟨hnone, .inr ⟨_, rfl, iff_of_true (.inr rfl) rfl⟩⟩

private theorem Sound.exec {d d' : Dispatcher} (hr : Sound (d.jobs r) e) (hasks : (d.jobs r).pc.asks = false)
    (h : d.exec cfg.bare r = some d') : ∃ job, d'.jobs = Function.update d.jobs r job ∧ Sound job e := by
  rw [Sound] at hr
  rw [Dispatcher.exec] at h
  generalize (d.jobs r).pc = pc at h hr hasks
  cases pc with
  | away | released | refused | thrown => cases h
  | loadAccepting | recheckAccepting =>
    cases h
    refine ⟨_, rfl, ?_⟩
    split <;> exact hr
  | tryAcquire =>
    cases h
    split <;> exact ⟨_, rfl, hr⟩
  | addActive | subActive | releaseSlot =>
    cases h
    exact ⟨_, rfl, hr⟩
  | refuse slot =>
    cases h
    refine ⟨_, rfl, ?_⟩
    split
    · exact ⟨hr.2.2, .inl ⟨hr.1, hr.2.1⟩⟩
    · trivial
  | newChannel =>
    simp only at h
    split at h <;> cases h
    · exact ⟨_, rfl, rfl, by rw [hr.2.1], hr.2.2⟩
    · exact ⟨_, rfl, trivial⟩
  | handler ops => cases ops with
    | cons op ops =>
      cases h
      exact ⟨_, rfl, (Option.isSome_map ..).trans hr.1, hr.2⟩
    | nil =>
      cases h
      refine ⟨_, rfl, ?_⟩
      cases hend : (cfg.bare.behaviour r).ending <;> exact hr
  | recover status message =>
    cases h
    refine ⟨_, rfl, ?_⟩
    split
    · exact hr
    · trivial
  | finish | closeStream => cases hasks
  | complete response slot =>
    obtain ⟨hnone, hlook⟩ := hr
    cases h
    refine ⟨_, rfl, ?_⟩
    have hone : ((d.jobs r).completed ++ [response]).length = 1 := by rw [hnone]; rfl
    cases slot with
    | false => trivial
    | true =>
      rcases hlook with ⟨hchannel, hunused⟩ | ⟨l, hl, haccounts⟩
      · exact Settled.refused hchannel hunused hone
      · exact Settled.written hl haccounts hone

end Steps

def Channels.Sound (s : Channels) : Prop := ∀ r, Dispatch.Sound (s.dispatcher.jobs r) (s.exchange r)

section Runs
variable {cfg : Config} {s t : Channels} {r : Responder}

/-- One request or its channel moves, and the others stay as they are. -/
private theorem Channels.Sound.put (hs : s.Sound) {job : Job} {e : Exchange}
    (hjobs : t.dispatcher.jobs = Function.update s.dispatcher.jobs r job)
    (hexchange : t.exchange = Function.update s.exchange r e) (h : Dispatch.Sound job e) : t.Sound := by
  intro q
  rw [hjobs, hexchange]
  by_cases hq : q = r
  · subst hq
    rwa [Function.update_self, Function.update_self]
  · rw [Function.update_of_ne hq, Function.update_of_ne hq]
    exact hs q

theorem Channels.Sound.step {a : ChannelAct} (hs : s.Sound) (hok : s.Keeps a) (h : s.step cfg a = some t) :
    t.Sound := by
  cases a with
  | dispatch a =>
    simp only [Channels.step] at h
    split at h
    · cases h
    rename_i hasks
    obtain ⟨d, hd, rfl⟩ := Option.map_eq_some_iff.mp h
    cases a with
    | stopAccepting =>
      cases hd
      exact hs
    | submit r =>
      simp only [Dispatcher.slotStep, Dispatcher.step] at hd
      split at hd <;> cases hd
      rename_i hpc
      have hr := hs r
      rw [Dispatch.Sound, hpc] at hr
      exact hs.put rfl (Function.update_eq_self r s.exchange).symm hr
    | exec r =>
      obtain ⟨job, hjobs, hjob⟩ := Sound.exec (hs r) (Bool.not_eq_true _ ▸ hasks) hd
      exact hs.put hjobs (Function.update_eq_self r s.exchange).symm hjob
  | isStreaming r answer =>
    simp only [Channels.step] at h
    split at h
    · rename_i response hpc
      have hr := hs r
      rw [Dispatch.Sound, hpc] at hr
      simp only [Dispatcher.slotStep, hpc] at h
      cases hok
      cases h
      exact hs.put rfl rfl (Sound.look hr.2.1 hr.2.2)
    · cases h
  | close r took =>
    simp only [Channels.step] at h
    split at h <;> cases h
    rename_i hpc
    have hr := hs r
    rw [Dispatch.Sound, hpc] at hr
    obtain ⟨l, hl, haccounts, hbegun, hnone⟩ := hr
    cases hok
    refine hs.put rfl rfl (Settled.closed hl haccounts hbegun ?_ hnone)
    exact (congrArg _ hbegun).trans (Bool.or_true _)
  | begin r =>
    simp only [Channels.step] at h
    split at h <;> cases h
    exact hs.put (Function.update_eq_self r s.dispatcher.jobs).symm rfl ((hs r).begin ‹_› hok)
  | finish r =>
    simp only [Channels.step] at h
    split at h <;> cases h
    exact hs.put (Function.update_eq_self r s.dispatcher.jobs).symm rfl ((hs r).finish ‹_›)

theorem Channels.Reaches.sound {as : List ChannelAct} (h : Channels.Reaches cfg Channels.Keeps as s) : s.Sound :=
  Run.invariant (I := Channels.Sound) h (fun _ _ _ hok hs hstep => hs.step hok hstep) fun _ => ⟨rfl, rfl, rfl⟩

end Runs

/-- With a channel that says what it is, closes when it is told to and is not begun after the
dispatcher has asked, a request whose slot is released was answered exactly once if and only
if its handler never ran, or the dispatcher found its stream open, or its response said
`streamed` exactly if the channel was begun. -/
theorem answered_once_iff {cfg : Config} {as : List ChannelAct} {s : Channels}
    (h : Channels.Reaches cfg Channels.Keeps as s) (r : Responder)
    (hreleased : (s.dispatcher.jobs r).pc = .released) :
    s.AnsweredOnce r ↔ ∀ l, (s.exchange r).look = some l → l.Accounts := by
  have hs := Channels.Reaches.sound h r
  rw [Sound, hreleased] at hs
  exact hs.answered_iff

private def admitted : List ChannelAct := .dispatch (.submit 1) :: List.replicate 5 (.dispatch (.exec 1))

/-- The handler begins its channel and throws; another coroutine finishes the stream while
the dispatcher is at it. -/
theorem answered_once_iff_failing : ∃ as s,
    Channels.Reaches (single [] .threw) Channels.Keeps as s ∧ (s.dispatcher.jobs 1).pc = .released ∧
    s.AnsweredOnce 1 := by
  have hrun : (replay (Channels.step (single [] .threw)) Channels.Keeps (Channels.init (single [] .threw))
      (admitted ++ [.begin 1, .dispatch (.exec 1), .dispatch (.exec 1), .isStreaming 1 (some true), .finish 1,
        .close 1 true, .dispatch (.exec 1), .dispatch (.exec 1)])).map
      (fun s => ((s.dispatcher.jobs 1).pc, (s.exchange 1).look)) = some (.released, some ⟨true, false, false⟩) := by
    decide
  obtain ⟨s, hs, hjob⟩ := Option.map_eq_some_iff.mp hrun
  obtain ⟨hpc, hlook⟩ := Prod.mk.injEq .. ▸ hjob
  refine ⟨_, s, run_of_replay hs, hpc, (answered_once_iff (run_of_replay hs) 1 hpc).mpr fun l hl => ?_⟩
  cases hl.symm.trans hlook
  exact .inl ⟨rfl, rfl⟩

/-- The handler begins and finishes a stream and then returns an ordinary response: the
channel is no longer streaming, so the response is written as well. -/
theorem stream_and_response_written : ¬ ∀ (cfg : Config) (as : List ChannelAct) (s : Channels) (r : Responder),
    Channels.Reaches cfg Channels.Keeps as s → (s.dispatcher.jobs r).pc = .released → s.AnsweredOnce r := by
  intro h
  let cfg := single [] (.returned { status := 200 })
  have hrun : (replay (Channels.step cfg) Channels.Keeps (Channels.init cfg)
      (admitted ++ [.begin 1, .finish 1, .dispatch (.exec 1), .isStreaming 1 (some false), .dispatch (.exec 1),
        .dispatch (.exec 1), .dispatch (.exec 1)])).map
      (fun s => ((s.dispatcher.jobs 1).pc, (s.exchange 1).begun, (s.dispatcher.jobs 1).completed)) =
      some (.released, true, [{ status := 200 }]) := by decide
  obtain ⟨s, hs, hjob⟩ := Option.map_eq_some_iff.mp hrun
  simp only [Prod.mk.injEq] at hjob
  obtain ⟨hpc, hbegun, hone⟩ := hjob
  rcases h cfg _ s 1 (run_of_replay hs) hpc with ⟨-, hnot⟩ | ⟨-, -, hnone⟩
  · rw [hbegun] at hnot
    cases hnot
  · rw [hone] at hnone
    cases hnone

/-- A channel whose `isStreaming` throws leaves its request unanswered. -/
example : (replay (Channels.step (single [] (.returned { status := 200 }))) anyStep
    (Channels.init (single [] (.returned { status := 200 })))
    (admitted ++ [.dispatch (.exec 1), .isStreaming 1 none, .dispatch (.exec 1), .dispatch (.exec 1)])).map
    (fun s => ((s.dispatcher.jobs 1).pc, (s.exchange 1).begun, (s.dispatcher.jobs 1).completed)) =
    some (.released, false, []) := by decide

/-- A channel begun after the dispatcher has asked comes on top of the response. -/
example : (replay (Channels.step (single [] (.returned { status := 200 }))) anyStep
    (Channels.init (single [] (.returned { status := 200 })))
    (admitted ++ [.dispatch (.exec 1), .isStreaming 1 (some false), .begin 1, .dispatch (.exec 1),
      .dispatch (.exec 1), .dispatch (.exec 1)])).map
    (fun s => ((s.dispatcher.jobs 1).pc, (s.exchange 1).begun, (s.dispatcher.jobs 1).completed)) =
    some (.released, true, [{ status := 200 }]) := by decide

end Hyper4k.Dispatch
