import Hyper4k.Kotlin.Received

/-! The `StableRef` of a request: it is live whenever a callback or `send` uses it, and none is left when
the engine has no request any more. -/
namespace Hyper4k.Streams
open Bridge (Callback Config ReqId Status Tally)
open Lifecycle (StreamId ThreadId)
open Runs

namespace Frontend

/-- For no request is an event queued between the emptiness check of `run_owned` and its read of a
drained `done_ready`. -/
def AllKept (s : Frontend) : Act → Prop
  | .engine a => s.engine.StillEmpty a
  | _ => True

/-- And no exception leaves `send` before it calls the engine. -/
def Careful (s : Frontend) (a : Act) : Prop := s.AllKept a ∧ match a with
  | .abandon t => (s.kotlin.threads t).sends = none
  | _ => True

instance (s : Frontend) : (a : Act) → Decidable (s.Careful a)
  | .engine a => inferInstanceAs (Decidable (s.engine.StillEmpty a ∧ True))
  | .abandon t => inferInstanceAs (Decidable (True ∧ (s.kotlin.threads t).sends = none))
  | .begin _ _ | .kotlin _ _ | .callback _ | .throw _ => inferInstanceAs (Decidable (True ∧ True))

/-- Who has a reference: the `send` that made it, and from `bridge::spawn` on its request, until `onDone`
has disposed it. -/
structure Referenced (s : Frontend) : Prop where
  silent : ∀ r, (s.engine.view r).Silent
  early : ∀ r cb, s.callbacks r = .get cb → (CallbackPc.get cb).ending = false → (s.engine.slots r).dones = []
  owned : ∀ r st, s.userData r = some st →
    (s.refs st = .live ↔ (s.engine.slots r).dones = [] ∨ (s.callbacks r).ending = true)
  unowned : ∀ t st, (s.kotlin.threads t).sends = some st → Unowned s.userData st → s.refs st = .live

section References
variable {cfg : Config} {o : Tally} {s u : Frontend} {a : Act}

theorem Referenced.init (cfg : Config) : (Frontend.init cfg).Referenced where
  silent r := by
    rw [show (Frontend.init cfg).engine.view r = _ from Bridge.view_init cfg r]
    exact .init _ _
  early _ _ h := by cases h
  owned _ _ h := by cases h
  unowned _ _ h := by cases h

theorem Referenced.frame (hs : s.Referenced) (engine : u.engine = s.engine) (callbacks : u.callbacks = s.callbacks)
    (userData : u.userData = s.userData) (refs : ∀ r st, s.userData r = some st → u.refs st = s.refs st)
    (unowned : ∀ t st, (u.kotlin.threads t).sends = some st → Unowned s.userData st → u.refs st = .live) :
    u.Referenced := by
  refine ⟨?_, ?_, fun r st hst => ?_, ?_⟩
  · rw [engine]
    exact hs.silent
  · rw [engine, callbacks]
    exact hs.early
  · rw [userData] at hst
    rw [refs r st hst, engine, callbacks]
    exact hs.owned r st hst
  · rw [userData]
    exact unowned

private theorem Referenced.moved (hs : s.Referenced) {t : ThreadId} {p : Lifecycle.Pc}
    (sends : ∀ q, p.sends = some q → (s.kotlin.threads t).sends = some q) : ∀ v q,
    (Function.update s.kotlin.threads t p v).sends = some q → Unowned s.userData q → s.refs q = .live :=
  forall_update (Q := fun _ (p : Lifecycle.Pc) => ∀ q, p.sends = some q → Unowned s.userData q → s.refs q = .live)
    (fun q h => hs.unowned t q (sends q h)) fun v _ => hs.unowned v

/-- An access outside the engine makes a reference for a `send`, or leaves the references alone. -/
private theorem exec_refs {t : ThreadId} {k : Lifecycle.Client} (hk : s.kotlin.Executed t k) :
    ((s.noted t).refs = Function.update s.refs s.kotlin.nextStream .live ∧
      k.threads = Function.update s.kotlin.threads t (.callSend s.kotlin.nextStream)) ∨
    (s.noted t).refs = s.refs ∧ ∃ p, k.threads = Function.update s.kotlin.threads t p ∧ p.sends = none := by
  cases hk with
  | opens highWater pc opened => exact .inl ⟨by simp only [noted, pc, opened, if_true], rfl⟩
  | stores st id pc => exact .inr ⟨by simp only [noted, pc], _, rfl, rfl⟩
  | takes st e rest p pc events sends names => exact .inr ⟨by simp only [noted, pc], p, rfl, sends⟩
  | works _ p threads next streams taken unopened sends =>
    refine .inr ⟨?_, p, threads, sends⟩
    unfold noted
    split
    · rename_i w hw
      rw [if_neg (unopened w hw)]
    · rfl
    · rfl

private theorem Referenced.exec (hl : s.Linked cfg o) (hs : s.Referenced) {t : ThreadId} {k : Lifecycle.Client}
    (hk : s.kotlin.Executed t k) : ({ s.noted t with kotlin := k } : Frontend).Referenced := by
  obtain ⟨hengine, huserData, -, hcallbacks⟩ := noted_frame s t
  rcases exec_refs hk with ⟨hrefs, hthreads⟩ | ⟨hrefs, p, hthreads, hp⟩
  · refine hs.frame hengine hcallbacks huserData (fun r st hst => ?_) ?_
    · rw [show ({ s.noted t with kotlin := k } : Frontend).refs = _ from hrefs,
        Function.update_of_ne (Nat.ne_of_lt (hl.sent.made r st hst))]
    · rw [show ({ s.noted t with kotlin := k } : Frontend).refs = _ from hrefs,
        show ({ s.noted t with kotlin := k } : Frontend).kotlin.threads = _ from hthreads]
      refine forall_update (Q := fun _ (p : Lifecycle.Pc) => ∀ st, p.sends = some st → Unowned s.userData st →
        Function.update s.refs s.kotlin.nextStream .live st = .live) (fun st h _ => ?_) fun v _ st h hst => ?_
      · cases h
        exact Function.update_self ..
      · rw [Function.update_of_ne (Nat.ne_of_lt (hl.sent.sending v st h))]
        exact hs.unowned v st h hst
  · refine hs.frame hengine hcallbacks huserData (fun _ _ _ => congrFun hrefs _) ?_
    rw [show ({ s.noted t with kotlin := k } : Frontend).refs = _ from hrefs,
      show ({ s.noted t with kotlin := k } : Frontend).kotlin.threads = _ from hthreads]
    refine hs.moved fun q h => ?_
    rw [hp] at h
    cases h

private theorem Referenced.engine (hl : s.Linked cfg o) (hs : s.Referenced) {b : Bridge.Act} {c : Bridge.Client}
    {callbacks : ReqId → CallbackPc} (hok : s.engine.StillEmpty b) (hh : s.heard b = some callbacks)
    (hc : s.engine.step cfg b = some c) (huengine : u.engine = c) (hucallbacks : u.callbacks = callbacks)
    (owners : ∀ r st, u.userData r = some st → s.userData r = some st ∧ u.refs st = s.refs st ∨
      s.userData r = none ∧ u.refs st = .live)
    (unowned : ∀ t st, (u.kotlin.threads t).sends = some st → Unowned u.userData st → u.refs st = .live) :
    u.Referenced := by
  subst huengine hucallbacks
  have hsilent : ∀ r, (u.engine.view r).Silent := fun r =>
    Bridge.step_keeps hl.tied.accounts.fresh (hok r) hc (fun _ _ _ hok hv hm => hv.step hok hm) (hs.silent r)
  have hheard := fun r => heard_cases hl.tied.accounts.fresh (hl.tied.manned r) hc hh (r := r)
  have hfirst {r : ReqId} (calls : ∃ v, ((s.engine.view r).pc v).calls = true) : (s.engine.slots r).dones = [] := by
    by_contra hdones
    obtain ⟨v, hv⟩ := calls
    have hnot := (hs.silent r).uncalled hdones v
    rw [hv] at hnot
    cases hnot
  have hevent {r : ReqId} {cb : Callback} (trace : (u.engine.slots r).trace = (s.engine.slots r).trace ++ [cb])
      (calls : ∃ v, ((s.engine.view r).pc v).calls = true) (hcb : (CallbackPc.get cb).ending = false) :
      (u.engine.slots r).dones = [] := by
    have hold := hfirst calls
    rw [Bridge.Slot.dones] at hold ⊢
    rw [trace, List.filterMap_append, hold]
    cases cb with
    | onHeaders | onChunk => rfl
    | onDone e => cases hcb
  refine ⟨hsilent, fun r cb hcb hending => ?_, fun r st hst => ?_, unowned⟩
  · have hx := hheard r
    rw [hcb] at hx
    generalize hpc : CallbackPc.get cb = pc at hx
    cases hx with
    | call cb' calls trace inside =>
      cases hpc
      exact hevent trace calls hending
    | answer => cases hpc
    | silent trace inside =>
      rw [dones_congr trace]
      exact hs.early r cb hpc.symm hending
  · have hx := hheard r
    rcases owners r st hst with ⟨hold, hrefs⟩ | ⟨hnone, hrefs⟩
    · have hlive := hs.owned r st hold
      rw [hrefs]
      generalize u.callbacks r = pc at hx
      cases hx with
      | call cb calls trace inside =>
        rw [hlive, hfirst calls]
        cases hcb : (CallbackPc.get cb).ending with
        | true => simp
        | false => simp [hevent trace calls hcb]
      | answer x was trace =>
        rw [hlive, dones_congr trace, was]
        rfl
      | silent trace inside => rw [hlive, dones_congr trace]
    · obtain ⟨hview, hout⟩ := hl.tied.untouched hnone
      have hdones : (s.engine.slots r).dones = [] := congrArg (fun v : Bridge.View => v.slot.dones) hview
      have hdones' : (u.engine.slots r).dones = [] := by
        generalize u.callbacks r = pc at hx
        cases hx with
        | call cb calls trace inside =>
          obtain ⟨v, hv⟩ := calls
          rw [hview] at hv
          cases hv
        | answer x was trace | silent trace inside => exact (dones_congr trace).trans hdones
      rw [hrefs, hdones']
      simp

/-- The callback of `r` goes on, and the reference of its stream with it. -/
private theorem Referenced.goes (hl : s.Linked cfg o) (hs : s.Referenced) {r : ReqId} {p : CallbackPc}
    (engine : u.engine = s.engine) (userData : u.userData = s.userData)
    (threads : u.kotlin.threads = s.kotlin.threads) (callbacks : u.callbacks = Function.update s.callbacks r p)
    (got : ∀ cb, p ≠ .get cb) (refs : ∀ q, s.userData r ≠ some q → u.refs q = s.refs q)
    (live : ∀ st, s.userData r = some st → (u.refs st = .live ↔ (s.engine.slots r).dones = [] ∨ p.ending = true)) :
    u.Referenced := by
  refine ⟨?_, ?_, ?_, ?_⟩
  · rw [engine]
    exact hs.silent
  · rw [engine, callbacks]
    exact forall_update (Q := fun q (pc : CallbackPc) => ∀ cb, pc = .get cb → (CallbackPc.get cb).ending = false →
      (s.engine.slots q).dones = []) (fun cb hp => absurd hp (got cb)) fun q _ => hs.early q
  · rw [engine, callbacks, userData]
    refine forall_update (Q := fun q (pc : CallbackPc) => ∀ x, s.userData q = some x →
      (u.refs x = .live ↔ (s.engine.slots q).dones = [] ∨ pc.ending = true)) live fun q hq x hx => ?_
    rw [refs x fun hr => hq (hl.sent.own q r x hx hr)]
    exact hs.owned q x hx
  · intro t x hx hun
    rw [userData] at hun
    rw [threads] at hx
    rw [refs x (hun r)]
    exact hs.unowned t x hx hun

private theorem Referenced.ran (hl : s.Linked cfg o) (hs : s.Referenced) {r : ReqId} {st : StreamId}
    (hst : s.userData r = some st) (h : s.Ran r st u) : u.Referenced := by
  obtain ⟨hengine, huserData, -, -, hthreads, -⟩ := h.frame
  have hbuild {p : CallbackPc} (callbacks : u.callbacks = Function.update s.callbacks r p) (got : ∀ cb, p ≠ .get cb)
      (refs : ∀ q, q ≠ st → u.refs q = s.refs q)
      (live : u.refs st = .live ↔ (s.engine.slots r).dones = [] ∨ p.ending = true) : u.Referenced := by
    refine Referenced.goes hl hs hengine huserData hthreads callbacks got (fun q hq => refs q ?_) fun x hx => ?_
    · rintro rfl
      exact hq hst
    · cases hst.symm.trans hx
      exact live
  have hlive := hs.owned r st hst
  cases h with
  | gets cb pc live =>
    rw [pc] at hlive
    refine hbuild rfl (fun cb' h => ?_) (fun _ _ => rfl) ?_
    · cases cb <;> cases h
    · cases cb <;> exact hlive
  | publishes e p was now inside ending =>
    refine hbuild rfl (fun cb h => ?_) (fun _ _ => rfl) ?_
    · rw [h] at now
      cases now
    · rw [ending]
      exact hlive
  | works a p events closed pending inside ending got =>
    refine hbuild rfl got (fun _ _ => rfl) ?_
    rw [ending]
    exact hlive
  | closes pc =>
    rw [pc] at hlive
    exact hbuild rfl (fun _ => CallbackPc.noConfusion) (fun _ _ => rfl) hlive
  | disposes pc live =>
    refine hbuild rfl (fun _ => CallbackPc.noConfusion) (fun q hq => Function.update_of_ne hq _ _) ?_
    have hdones := hl.tied.ending r (by rw [pc]; rfl)
    simp [hdones, CallbackPc.ending]

/-- A step of the engine as the owners of the references see it. -/
private theorem Linked.told_refs (hl : s.Linked cfg o) (hs : s.Referenced) {b : Bridge.Act} {c : Bridge.Client}
    {x : Frontend} (h : s.Told c b x) :
    (∀ r st, x.userData r = some st → s.userData r = some st ∧ x.refs st = s.refs st ∨
      s.userData r = none ∧ x.refs st = .live) ∧
    ∀ t st, (x.kotlin.threads t).sends = some st → Unowned x.userData st → x.refs st = .live := by
  cases h with
  | writes | goes | works | quiet => exact ⟨fun r st hst => .inl ⟨hst, rfl⟩, hs.unowned⟩
  | registers t args id st call pc next =>
    obtain ⟨hnone, hunowned⟩ := hl.registering call pc
    refine ⟨fun r q hq => ?_, fun v q hv hq => hs.unowned v q hv fun r hr => hq r (owned_grow hnone hr)⟩
    by_cases hr : r = id
    · have hq' : Function.update s.userData id (some st) r = some q := hq
      rw [hr, Function.update_self] at hq'
      cases hq'
      exact .inr ⟨hr ▸ hnone, hs.unowned t st (by rw [pc]; rfl) hunowned⟩
    · exact .inl ⟨(Function.update_of_ne hr _ _).symm.trans hq, rfl⟩
  | returns t status call next =>
    rcases returned_cases s t status with ⟨st, hpc, heq⟩ | ⟨p, hin, heq, hp, -⟩
    · have hrefused := hl.returning call hpc
      have hsends : (s.kotlin.threads t).sends = some st := by rw [hpc]; rfl
      have hrefs : ∀ q, (status ≠ .ok → q ≠ st) →
          (if status = .ok then s.refs else Function.update s.refs st .disposed) q = s.refs q := by
        intro q hq
        split
        · rfl
        · rename_i hok
          exact Function.update_of_ne (hq hok) _ _
      rw [heq]
      refine ⟨fun r q hq => .inl ⟨hq, hrefs q fun hok e => ?_⟩, ?_⟩
      · rw [if_neg hok] at hrefused
        exact hrefused r (e ▸ hq)
      · refine forall_update (Q := fun _ (p : Lifecycle.Pc) => ∀ q, p.sends = some q → Unowned s.userData q →
          (if status = .ok then s.refs else Function.update s.refs st .disposed) q = .live) (fun q h => ?_)
          fun v hv q h hq => ?_
        · split at h <;> cases h
        · rw [hrefs q fun _ e => hv (hl.sent.sole v t q h (e ▸ hsends))]
          exact hs.unowned v q h hq
    · rw [heq]
      exact ⟨fun r q hq => .inl ⟨hq, rfl⟩, hs.moved fun q h => hp ▸ h⟩

theorem Referenced.step (hl : s.Linked cfg o) (hs : s.Referenced) (hok : s.AllKept a) (h : s.Stepped cfg a u) :
    u.Referenced := by
  cases h with
  | begin t op free away =>
    refine hs.frame rfl rfl rfl (fun _ _ _ => rfl) (hs.moved fun q h => ?_)
    cases op <;> cases h
  | abandon t free pc => exact hs.frame rfl rfl rfl (fun _ _ _ => rfl) (hs.moved fun q h => by cases h)
  | exec t args k free here hk => exact Referenced.exec hl hs (Lifecycle.exec_here here hk)
  | call t args x k c free there hk hc =>
    obtain ⟨call, p, rfl, -, hp⟩ := Lifecycle.exec_there there hk
    refine Referenced.engine hl hs (b := .begin t x) (fun r m hm => by cases hm) rfl hc rfl rfl
      (fun r st hst => .inl ⟨hst, rfl⟩) (hs.moved fun q h => ?_)
    rcases hp with ⟨st, hpc, rfl, -⟩ | ⟨-, hp, -⟩
    · rw [hpc]
      exact h
    · rw [hp] at h
      cases h
  | engine b c callbacks own hh hc =>
    obtain ⟨howners, hunowned⟩ := hl.told_refs hs (told_cases hl.sent.placed hc)
    exact Referenced.engine hl hs hok hh hc rfl rfl howners hunowned
  | callback r _ h =>
    obtain ⟨-, st, hst, hran⟩ := callback_cases h
    exact Referenced.ran hl hs hst hran
  | throw r _ h =>
    obtain ⟨hin, p, rfl, -, hpending, hending⟩ := throw_cases h
    refine Referenced.goes hl hs rfl rfl rfl rfl (fun cb hp => ?_) (fun _ _ => rfl) fun x hx => ?_
    · rw [hp] at hpending
      cases hpending
    · rw [hending]
      exact hs.owned r x hx

/-- A live reference is that of a `send` in progress or of a request. -/
def Held (s : Frontend) : Prop := ∀ st, s.refs st = .live →
  (∃ t, (s.kotlin.threads t).sends = some st) ∨ ∃ r, s.userData r = some st

private theorem Held.frame (hs : s.Held) (refs : ∀ st, u.refs st = .live → s.refs st = .live)
    (userData : ∀ r st, s.userData r = some st → u.userData r = some st)
    (sends : ∀ t st, (s.kotlin.threads t).sends = some st → u.refs st = .live →
      (∃ v, (u.kotlin.threads v).sends = some st) ∨ ∃ r, u.userData r = some st) : u.Held := by
  intro st hst
  rcases hs st (refs st hst) with ⟨t, ht⟩ | ⟨r, hr⟩
  · exact sends t st ht hst
  · exact .inr ⟨r, userData r st hr⟩

private theorem sends_update {threads : ThreadId → Lifecycle.Pc} {t v : ThreadId} {p : Lifecycle.Pc} {st : StreamId}
    (hp : (threads t).sends = some st → p.sends = some st) (hv : (threads v).sends = some st) :
    ∃ v, (Function.update threads t p v).sends = some st := by
  refine ⟨v, ?_⟩
  by_cases hvt : v = t
  · subst hvt
    rw [Function.update_self]
    exact hp hv
  · rwa [Function.update_of_ne hvt]

private theorem Held.exec (hs : s.Held) {t : ThreadId} {k : Lifecycle.Client} (hk : s.kotlin.Executed t k)
    (free : (s.kotlin.threads t).sends = none) : ({ s.noted t with kotlin := k } : Frontend).Held := by
  obtain ⟨-, huserData, -⟩ := noted_frame s t
  have hold {p : Lifecycle.Pc} (hthreads : k.threads = Function.update s.kotlin.threads t p) (st : StreamId)
      (hst : s.refs st = .live) : (∃ v, (k.threads v).sends = some st) ∨ ∃ r, (s.noted t).userData r = some st := by
    rw [hthreads, huserData]
    refine (hs st hst).imp_left fun ⟨v, hv⟩ => sends_update (fun h => ?_) hv
    rw [free] at h
    cases h
  intro st hst
  rcases exec_refs hk with ⟨hrefs, hthreads⟩ | ⟨hrefs, p, hthreads, -⟩
  · by_cases hnew : st = s.kotlin.nextStream
    · refine .inl ⟨t, ?_⟩
      rw [show ({ s.noted t with kotlin := k } : Frontend).kotlin.threads = _ from hthreads, Function.update_self, hnew]
      rfl
    · rw [show ({ s.noted t with kotlin := k } : Frontend).refs = _ from hrefs, Function.update_of_ne hnew] at hst
      exact hold hthreads st hst
  · rw [show ({ s.noted t with kotlin := k } : Frontend).refs = _ from hrefs] at hst
    exact hold hthreads st hst

private theorem Held.told (hl : s.Linked cfg o) (hs : s.Held) {b : Bridge.Act} {c : Bridge.Client} {x : Frontend}
    (h : s.Told c b x) : x.Held := by
  cases h with
  | writes | goes | works | quiet => exact hs
  | registers t args id st call pc next =>
    exact hs.frame (fun _ h => h) (fun r q hr => owned_grow (hl.registering call pc).1 hr) fun v q hv _ => .inl ⟨v, hv⟩
  | returns t status call next =>
    rcases returned_cases s t status with ⟨st, hpc, heq⟩ | ⟨p, hin, heq, hp, -⟩
    · have hreturning := hl.returning call hpc
      have hback {q : StreamId} (h : (if status = .ok then s.refs else Function.update s.refs st .disposed) q = .live) :
          s.refs q = .live ∧ (status = .ok ∨ q ≠ st) := by
        by_cases hok : status = .ok
        · rw [if_pos hok] at h
          exact ⟨h, .inl hok⟩
        · rw [if_neg hok] at h
          have hne : q ≠ st := by
            rintro rfl
            rw [Function.update_self] at h
            cases h
          rw [Function.update_of_ne hne] at h
          exact ⟨h, .inr hne⟩
      rw [heq]
      refine hs.frame (fun q h => (hback h).1) (fun _ _ hr => hr) fun v q hv h => ?_
      by_cases hvt : v = t
      · rw [hvt, hpc] at hv
        cases hv
        rcases (hback h).2 with hok | hne
        · rw [if_pos hok] at hreturning
          exact .inr ⟨_, hreturning⟩
        · exact absurd rfl hne
      · exact .inl ⟨v, (congrArg Lifecycle.Pc.sends (Function.update_of_ne hvt _ _)).trans hv⟩
    · rw [heq]
      exact hs.frame (fun _ h => h) (fun _ _ hr => hr) fun v q hv _ => .inl (sends_update (fun h => hp.trans h) hv)

theorem Held.step (hl : s.Linked cfg o) (hs : s.Held) (hok : s.Careful a) (h : s.Stepped cfg a u) : u.Held := by
  cases h with
  | begin t op free away =>
    refine hs.frame (fun _ h => h) (fun _ _ hr => hr) fun v q hv _ => .inl (sends_update (fun h => ?_) hv)
    rw [away] at h
    cases h
  | abandon t free pc =>
    refine hs.frame (fun _ h => h) (fun _ _ hr => hr) fun v q hv _ => .inl (sends_update (fun h => ?_) hv)
    rw [hok.2] at h
    cases h
  | exec t args k free here hk => exact hs.exec (Lifecycle.exec_here here hk) (Lifecycle.exec_here_sends here hk)
  | call t args x k c free there hk hc =>
    obtain ⟨call, p, rfl, -, hp⟩ := Lifecycle.exec_there there hk
    refine hs.frame (fun _ h => h) (fun _ _ hr => hr) fun v q hv _ => .inl (sends_update (fun h => ?_) hv)
    replace h : (s.kotlin.threads t).sends = some q := h
    rcases hp with ⟨st, hpc, rfl, -⟩ | ⟨hnone, -⟩
    · rwa [hpc] at h
    · rw [hnone] at h
      cases h
  | engine b c callbacks own hh hc =>
    have htold : (s.told b).Held := Held.told hl hs (told_cases hl.sent.placed hc)
    exact htold
  | callback r _ h =>
    obtain ⟨-, st, hst, hran⟩ := callback_cases h
    obtain ⟨-, huserData, -, -, hthreads, -⟩ := hran.frame
    refine hs.frame (fun q h => ?_) (fun _ _ hr => huserData ▸ hr) fun v q hv _ => .inl ⟨v, hthreads ▸ hv⟩
    cases hran with
    | disposes pc live =>
      by_cases hq : q = st
      · exact hq ▸ live
      · exact (Function.update_of_ne hq _ _).symm.trans h
    | _ => exact h
  | throw r _ h =>
    obtain ⟨-, p, rfl, -⟩ := throw_cases h
    exact hs

theorem Reaches.referenced {as : List Act} (h : Reaches cfg AllKept as s) :
    (∃ o, s.Linked (native cfg) o) ∧ s.Referenced :=
  h.linked (fun hl hs hok hstep => hs.step hl hok hstep) (.init _)

theorem Reaches.held {as : List Act} (h : Reaches cfg Careful as s) :
    (∃ o, s.Linked (native cfg) o) ∧ s.Held :=
  h.linked (fun hl hs hok hstep => hs.step hl hok hstep) fun _ h => by cases h

/-- When the counter is zero, every request that was counted in has left. -/
private theorem released_of_bridges_zero {c : Bridge.Client} (hc : c.Accounts cfg o) (hzero : c.bridges = 0) {r : ReqId}
    (hr : r ∈ o.entered) : o.released r ≠ [] := by
  intro hnil
  have hinside : r ∈ o.inside := List.mem_filter.mpr ⟨hr, by rw [Tally.stays, hnil]; rfl⟩
  have hpos := List.length_pos_of_mem hinside
  have hbridges := hc.bridges
  omega

/-- When the engine counts no request any more, the `onDone` of every request has disposed its reference. -/
theorem Linked.disposed_of_bridges_zero (hl : s.Linked cfg o) (hs : s.Referenced) (hzero : s.engine.bridges = 0)
    {r : ReqId} {st : StreamId} (hst : s.userData r = some st) : s.refs st ≠ .live := by
  intro hlive
  have hent : r ∈ o.entered := (hl.tied.entered r).mpr ⟨st, hst⟩
  have hreleased : o.released r ≠ [] := released_of_bridges_zero hl.tied.accounts hzero hent
  obtain ⟨hdones, hfinished, -⟩ := (hl.tied.accounts.giving r).done hreleased
  rcases (hs.owned r st hst).mp hlive with hnil | hending
  · exact hdones hnil
  · have hin : s.callbacks r ≠ .outside := by
      intro hout
      rw [hout] at hending
      cases hending
    obtain ⟨v, hv⟩ := hl.tied.inside r hin
    rw [(hs.silent r).hushed hfinished v] at hv
    cases hv

end References

end Frontend

/-- The `StableRef` of a request is live whenever it is used: by the `asStableRef().get()` of a callback,
by the `dispose()` of `onDone`, and by that of a `send` that was refused. So none is used or disposed after
it was disposed, in every run in which no event is queued between the emptiness check of `run_owned` and
its read of a drained `done_ready`. -/
theorem stable_ref_live_when_used {cfg : Config} {as : List Act} {s : Frontend}
    (h : Frontend.Reaches cfg Frontend.AllKept as s) :
    (∀ r, (∃ cb, s.callbacks r = .get cb) ∨ s.callbacks r = .dispose →
      ∃ st, s.userData r = some st ∧ s.refs st = .live) ∧
    ∀ t st status, s.kotlin.threads t = .inSend st → s.engine.calls t = .done status → status ≠ .ok →
      s.refs st = .live := by
  obtain ⟨⟨o, hl⟩, hs⟩ := h.referenced
  refine ⟨fun r hr => ?_, fun t st status hpc hcall hok => ?_⟩
  · obtain ⟨st, hst⟩ : ∃ st, s.userData r = some st := by
      refine Option.ne_none_iff_exists'.mp fun hnone => ?_
      rw [(hl.tied.untouched hnone).2] at hr
      rcases hr with ⟨cb, hcb⟩ | hcb <;> cases hcb
    refine ⟨st, hst, (hs.owned r st hst).mpr ?_⟩
    rcases hr with ⟨cb, hcb⟩ | hcb
    · cases hending : (CallbackPc.get cb).ending with
      | true => exact .inr (hcb ▸ hending)
      | false => exact .inl (hs.early r cb hcb hending)
    · exact .inr (by rw [hcb]; rfl)
  · have hunowned := hl.returning (.inl hcall) hpc
    rw [if_neg hok] at hunowned
    exact hs.unowned t st (by rw [hpc]; rfl) hunowned

def disposing : List Act := delivered.dropLast.dropLast

set_option maxRecDepth 20000 in
theorem stable_ref_live_when_used_disposing : ∃ s, Frontend.Reaches .small Frontend.AllKept disposing s ∧
    s.callbacks 1 = .dispose ∧ ∃ st, s.userData 1 = some st ∧ s.refs st = .live := by
  have hrun : (replay (Frontend.step (native .small)) Frontend.Careful (.init (native .small)) disposing).any
      (fun s => s.callbacks 1 = .dispose) = true := by
    decide +kernel
  obtain ⟨s, hs, hobs⟩ := (Option.any_eq_true _ _).mp hrun
  have hkept : Frontend.Reaches .small Frontend.AllKept disposing s := (run_of_replay hs).mono fun _ _ hok => hok.1
  have hdispose : s.callbacks 1 = .dispose := of_decide_eq_true hobs
  exact ⟨s, hkept, hdispose, (stable_ref_live_when_used hkept).1 1 (.inr hdispose)⟩

/-- No `StableRef` is leaked: when the engine counts no request any more, which is what `free` waits for,
each one that is live is that of a `send` still in progress, in every run in which no event is queued
between the emptiness check of `run_owned` and its read of a drained `done_ready` and no exception leaves
`send` between the making of the reference and the native call. -/
theorem no_stable_ref_left {cfg : Config} {as : List Act} {s : Frontend}
    (h : Frontend.Reaches cfg Frontend.Careful as s) (hzero : s.engine.bridges = 0) (st : StreamId)
    (hlive : s.refs st = .live) : ∃ t, (s.kotlin.threads t).sends = some st := by
  have hkept : Frontend.Reaches cfg Frontend.AllKept as s := h.mono fun _ _ hok => hok.1
  obtain ⟨⟨o, hl⟩, hs⟩ := hkept.referenced
  rcases h.held.2 st hlive with ht | ⟨r, hr⟩
  · exact ht
  · exact absurd hlive (hl.disposed_of_bridges_zero hs hzero hr)

def released : List Act := delivered ++ List.replicate 6 (Act.engine (.worker 0))

def releasedAndSending : List Act :=
  released ++ [Act.begin 1 (.send Lifecycle.DEFAULT_CHUNK_HIGH_WATER), .kotlin 1 plainArgs]

set_option maxRecDepth 20000 in
theorem releasedAndSending_reaches : ∃ s, Frontend.Reaches .small Frontend.Careful releasedAndSending s ∧
    s.engine.bridges = 0 ∧ s.refs 0 = .disposed ∧ s.refs 1 = .live := by
  have hrun : (replay (Frontend.step (native .small)) Frontend.Careful (.init (native .small)) releasedAndSending).any
      (fun s => s.engine.bridges = 0 ∧ s.refs 0 = .disposed ∧ s.refs 1 = .live) = true := by
    decide +kernel
  obtain ⟨s, hs, hobs⟩ := (Option.any_eq_true _ _).mp hrun
  exact ⟨s, run_of_replay hs, of_decide_eq_true hobs⟩

theorem no_stable_ref_left_releasedAndSending : ∃ s, Frontend.Reaches .small Frontend.Careful releasedAndSending s ∧
    s.engine.bridges = 0 ∧ s.refs 0 = .disposed ∧ s.refs 1 = .live ∧ ∃ t, (s.kotlin.threads t).sends = some 1 := by
  obtain ⟨s, hs, hzero, hdisposed, hlive⟩ := releasedAndSending_reaches
  exact ⟨s, hs, hzero, hdisposed, hlive, no_stable_ref_left hs hzero 1 hlive⟩

end Hyper4k.Streams
