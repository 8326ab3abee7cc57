import Hyper4k.Kotlin.Received

/-! The id that a stream has of its request: `send` stores it after the native call, when callbacks may
have run, and `next` and `cancel` name the request with it. -/
namespace Hyper4k.Streams
open Bridge (Config ReqId Tally)
open Lifecycle (StreamId ThreadId Access)
open Runs

theorem access_requestId (a : Access) (x : Kotlin.RequestState) : (a.on x).requestId = x.requestId := by
  cases a with
  | trySend event =>
    rw [Access.on, Kotlin.RequestState.trySend]
    split <;> rfl
  | _ => rfl

/-- The id is that of the stream's request, in 64 bits. -/
def Names (userData : ReqId → Option StreamId) (st : StreamId) (id : UInt64) : Prop :=
  ∃ r, userData r = some st ∧ id = UInt64.ofNat r

theorem Names.grow {userData userData' : ReqId → Option StreamId} {st : StreamId} {id : UInt64}
    (h : Names userData st id) (grows : ∀ r q, userData r = some q → userData' r = some q) : Names userData' st id := by
  obtain ⟨r, hr, rfl⟩ := h
  exact ⟨r, grows r st hr, rfl⟩

namespace Frontend

/-- An id that a stream has stored, or that a thread has in hand for it, is that of its request. -/
structure Named (s : Frontend) : Prop where
  stored : ∀ st, 0 < (s.kotlin.streams st).requestId → Names s.userData st (s.kotlin.streams st).requestId.toUInt64
  held : ∀ t st id, (s.kotlin.threads t).names = some (st, id) → Names s.userData st id

section Names
variable {cfg : Config} {o : Tally} {s u : Frontend} {a : Act}

theorem Named.init (cfg : Config) : (Frontend.init cfg).Named where
  stored _ h := by cases h
  held _ _ _ h := by cases h

private theorem Named.moved (hs : s.Named) {t : ThreadId} {p : Lifecycle.Pc}
    (userData : ∀ r st, s.userData r = some st → u.userData r = some st)
    (streams : ∀ st, (u.kotlin.streams st).requestId = (s.kotlin.streams st).requestId ∨
      (u.kotlin.streams st).requestId = 0)
    (threads : u.kotlin.threads = Function.update s.kotlin.threads t p)
    (names : ∀ st id, p.names = some (st, id) → Names u.userData st id) : u.Named := by
  refine ⟨fun st hpos => ?_, ?_⟩
  · rcases streams st with hsame | hzero
    · rw [hsame] at hpos ⊢
      exact (hs.stored st hpos).grow userData
    · rw [hzero] at hpos
      cases hpos
  · rw [threads]
    exact forall_update (Q := fun _ (p : Lifecycle.Pc) => ∀ st id, p.names = some (st, id) →
      Names u.userData st id) names fun v _ st id h => (hs.held v st id h).grow userData

private theorem Named.exec (hs : s.Named) {t : ThreadId} {k : Lifecycle.Client} (hk : s.kotlin.Executed t k) :
    ({ s.noted t with kotlin := k } : Frontend).Named := by
  obtain ⟨-, huserData, -⟩ := noted_frame s t
  have hdata : ∀ r st, s.userData r = some st → (s.noted t).userData r = some st := fun r st h => huserData ▸ h
  cases hk with
  | opens highWater pc opened =>
    refine hs.moved (t := t) hdata (fun st => ?_) rfl fun _ _ h => by cases h
    by_cases hst : st = s.kotlin.nextStream
    · exact .inr (by simp [Lifecycle.Client.goto, Lifecycle.Client.setStream, hst])
    · exact .inl (by simp [Lifecycle.Client.goto, Lifecycle.Client.setStream, hst])
  | stores st id pc =>
    have hid := (hs.held t st id (by rw [pc]; rfl)).grow hdata
    refine ⟨fun q hpos => ?_, ?_⟩
    · by_cases hq : q = st
      · subst hq
        simp only [Lifecycle.Client.goto, Lifecycle.Client.setStream, Function.update_self, UInt64.toUInt64_toInt64]
        exact hid
      · simp only [Lifecycle.Client.goto, Lifecycle.Client.setStream, Function.update_of_ne hq] at hpos ⊢
        exact (hs.stored q hpos).grow hdata
    · exact forall_update (Q := fun _ (p : Lifecycle.Pc) => ∀ q i, p.names = some (q, i) →
        Names (s.noted t).userData q i) (fun _ _ h => by cases h) fun v _ q i h => (hs.held v q i h).grow hdata
  | takes st e rest p pc events sends names =>
    refine hs.moved (t := t) hdata (fun q => .inl ?_) rfl fun q i h => ?_
    · by_cases hq : q = st
      · simp [Lifecycle.Client.goto, Lifecycle.Client.setStream, hq]
      · simp [Lifecycle.Client.goto, Lifecycle.Client.setStream, hq]
    · rw [names] at h
      cases h
  | works _ p threads next streams taken unopened sends names =>
    refine hs.moved hdata (fun st => .inl (streams st).2.2) threads fun st id h => ?_
    rcases names st id h with hold | ⟨hpos, rfl⟩
    · exact (hs.held t st id hold).grow hdata
    · exact (hs.stored st hpos).grow hdata

private theorem Named.told (hl : s.Linked cfg o) (hs : s.Named) {b : Bridge.Act} {c : Bridge.Client} {x : Frontend}
    (h : s.Told c b x) : x.Named := by
  have hsame {t : ThreadId} : s.kotlin.threads = Function.update s.kotlin.threads t (s.kotlin.threads t) :=
    (Function.update_eq_self t _).symm
  cases h with
  | writes | goes | works | quiet => exact ⟨hs.stored, hs.held⟩
  | registers t args id st call pc next =>
    have hgrow : ∀ r q, s.userData r = some q → Function.update s.userData id (some st) r = some q :=
      fun r q hr => owned_grow (hl.registering call pc).1 hr
    exact hs.moved hgrow (fun _ => .inl rfl) hsame fun q i h => (hs.held t q i h).grow hgrow
  | returns t status call next =>
    rcases returned_cases s t status with ⟨st, hpc, heq⟩ | ⟨p, hin, heq, -, hnames⟩
    · have hreturning := hl.returning call hpc
      rw [heq]
      refine hs.moved (t := t) (fun _ _ hr => hr) (fun _ => .inl rfl) rfl fun q i h => ?_
      split at h
      · rename_i hok
        rw [if_pos hok] at hreturning
        cases h
        exact ⟨_, hreturning, rfl⟩
      · cases h
    · rw [heq]
      exact hs.moved (t := t) (fun _ _ hr => hr) (fun _ => .inl rfl) rfl fun q i h => hs.held t q i (hnames q i h)

theorem Named.step (hl : s.Linked cfg o) (hs : s.Named) (h : s.Stepped cfg a u) : u.Named := by
  cases h with
  | begin t op free away =>
    refine hs.moved (t := t) (fun _ _ hr => hr) (fun _ => .inl rfl) rfl fun st id h => ?_
    cases op <;> cases h
  | abandon t free pc =>
    exact hs.moved (t := t) (fun _ _ hr => hr) (fun _ => .inl rfl) rfl fun st id h => by cases h
  | exec t args k free here hk => exact hs.exec (Lifecycle.exec_here here hk)
  | call t args x k c free there hk hc =>
    obtain ⟨call, p, rfl, hnames, -⟩ := Lifecycle.exec_there there hk
    refine hs.moved (t := t) (fun _ _ hr => hr) (fun _ => .inl rfl) rfl fun st id h => hs.held t st id ?_
    rw [← hnames]
    exact h
  | engine b c callbacks own hh hc =>
    have htold := Named.told hl hs (told_cases hl.sent.placed hc)
    exact ⟨htold.stored, htold.held⟩
  | callback r _ h =>
    obtain ⟨-, st, hst, hran⟩ := callback_cases h
    obtain ⟨-, huserData, -, -, hthreads, -, hstreams⟩ := hran.frame
    have hgrow : ∀ r q, s.userData r = some q → u.userData r = some q := fun r q h => huserData ▸ h
    refine hs.moved (t := 0) (p := s.kotlin.threads 0) hgrow (fun q => .inl ?_) ?_
      fun q i h => (hs.held 0 q i h).grow hgrow
    · by_cases hq : q = st
      · rw [hq]
        cases hran with
        | gets | disposes => rfl
        | publishes | works | closes =>
          simp only [touch, goto, Lifecycle.Client.setStream, Function.update_self, access_requestId]
      · rw [hstreams q hq]
    · rw [hthreads, Function.update_eq_self]
  | throw r _ h =>
    obtain ⟨-, p, rfl, -⟩ := throw_cases h
    exact ⟨hs.stored, hs.held⟩

theorem Reaches.named {ok : Frontend → Act → Prop} {as : List Act} (h : Reaches cfg ok as s) :
    (∃ o, s.Linked (native cfg) o) ∧ s.Named :=
  h.linked (fun hl hs _ hstep => hs.step hl hstep) (.init _)

/-- While ids fit 64 bits, an id that names the stream's request is that request. -/
theorem Linked.owner (hl : s.Linked cfg o) (hids : s.engine.nextId ≤ 2 ^ 64) {st : StreamId} {id : UInt64}
    (h : Names s.userData st id) : s.userData id.toNat = some st := by
  obtain ⟨r, hr, rfl⟩ := h
  have hlt : r < s.engine.nextId := hl.tied.accounts.issued r ((hl.tied.entered r).mpr ⟨st, hr⟩)
  rw [UInt64.toNat_ofNat_of_lt' (Nat.lt_of_lt_of_le hlt hids)]
  exact hr

end Names

end Frontend

/-- A stream names its own request: in every run in which the ids fit the 64 bits of the counter, the id
that a stream has stored, which `cancel` reads, is that of the one request whose callbacks feed it, and so
is the id with which `next` goes into `hyper4k_client_resume`. -/
theorem stream_names_its_own_request {cfg : Config} {ok : Frontend → Act → Prop} {as : List Act} {s : Frontend}
    (h : Frontend.Reaches cfg ok as s) (hids : s.engine.nextId ≤ 2 ^ 64) :
    (∀ st, 0 < (s.kotlin.streams st).requestId →
      ∀ r, r = (s.kotlin.streams st).requestId.toUInt64.toNat ↔ s.userData r = some st) ∧
    ∀ t st id, s.kotlin.threads t = .callResume st id ∨ s.kotlin.threads t = .inResume st id →
      ∀ r, r = id.toNat ↔ s.userData r = some st := by
  obtain ⟨⟨o, hl⟩, hs⟩ := h.named
  have howner {st : StreamId} {id : UInt64} (hid : Names s.userData st id) (r : ReqId) :
      r = id.toNat ↔ s.userData r = some st := by
    have hown := hl.owner hids hid
    exact ⟨fun hr => hr ▸ hown, fun hr => hl.sent.own r _ st hr hown⟩
  refine ⟨fun st hpos => howner (hs.stored st hpos), fun t st id ht => howner (hs.held t st id ?_)⟩
  rcases ht with ht | ht <;> rw [ht] <;> rfl

set_option maxRecDepth 20000 in
theorem stream_names_its_own_request_sent : ∃ s, Frontend.Reaches .small (Frontend.Kept 1) sent s ∧
    s.engine.nextId ≤ 2 ^ 64 ∧ 0 < (s.kotlin.streams 0).requestId ∧
    ∀ r, r = (s.kotlin.streams 0).requestId.toUInt64.toNat ↔ s.userData r = some 0 := by
  have hrun : (replay (Frontend.step (native .small)) (Frontend.Kept 1) (.init (native .small)) sent).any
      (fun s => s.engine.nextId ≤ 2 ^ 64 ∧ 0 < (s.kotlin.streams 0).requestId) = true := by
    decide +kernel
  obtain ⟨s, hs, hobs⟩ := (Option.any_eq_true _ _).mp hrun
  have hreach : Frontend.Reaches .small (Frontend.Kept 1) sent s := run_of_replay hs
  obtain ⟨hids, hpos⟩ := of_decide_eq_true hobs
  exact ⟨s, hreach, hids, hpos, (stream_names_its_own_request hreach hids).1 0 hpos⟩

end Hyper4k.Streams
