import Hyper4k.Kotlin.Executed

/-! A step of the engine as the callbacks of a request and the `send` in progress see it. -/
namespace Hyper4k.Streams
open Bridge (Callback ChunkAction Config ReqId Status Tally)
open Kotlin (ClientEvent)
open Lifecycle (StreamId ThreadId)
open Runs

def CallbackPc.pending : CallbackPc → List ClientEvent
  | .get cb => [eventOf cb]
  | .onHeaders status version fields => [.headers status version fields]
  | .increment bytes | .trySend bytes _ => [.chunk bytes]
  | .sendDone error => [.done error]
  | _ => []

/-- The callback is `onDone` and has not disposed its reference. -/
def CallbackPc.ending : CallbackPc → Bool
  | .get (.onDone _) | .sendDone _ | .close | .dispose => true
  | _ => false

def Unowned (userData : ReqId → Option StreamId) (st : StreamId) : Prop := ∀ r, userData r ≠ some st

/-- How far a `send` in the engine has come: from `bridge::spawn` on a request has its stream, and the
id of that request is in `out` when it returns. -/
def SendAt (userData : ReqId → Option StreamId) (out : ReqId) (st : StreamId) : Bridge.Call → Prop
  | .sending args pc => args.refused ≠ some .ok ∧ match pc.counted with
    | some r => userData r = some st ∧ (pc.written = some r → out = r)
    | none => Unowned userData st
  | .done status => if status = .ok then userData out = some st else Unowned userData st
  | _ => False

def Placed (userData : ReqId → Option StreamId) (out : ReqId) (c : Bridge.Call) : Lifecycle.Pc → Prop
  | .callSend st => c = .idle ∧ Unowned userData st
  | .inSend st => SendAt userData out st c
  | _ => ∀ args pc, c ≠ .sending args pc

theorem Placed.in_send {userData : ReqId → Option StreamId} {out : ReqId} {args : Bridge.SendArgs}
    {pc : Bridge.SendPc} {p : Lifecycle.Pc} (h : Placed userData out (.sending args pc) p) :
    ∃ st, p = .inSend st ∧ SendAt userData out st (.sending args pc) := by
  cases p with
  | inSend st => exact ⟨st, rfl, h⟩
  | callSend st => cases h.1
  | _ => exact absurd rfl (h args pc)

theorem not_sending_of_idle {c : Bridge.Call} (h : c = .idle) (args : Bridge.SendArgs) (pc : Bridge.SendPc) :
    c ≠ .sending args pc := by
  rw [h]
  exact Bridge.Call.noConfusion

namespace Frontend

structure Tied (cfg : Config) (o : Tally) (s : Frontend) : Prop where
  accounts : s.engine.Accounts cfg o
  manned : ∀ r, (s.engine.view r).Manned
  entered : ∀ r, r ∈ o.entered ↔ ∃ st, s.userData r = some st
  inside : ∀ r, s.callbacks r ≠ .outside → ∃ u, ((s.engine.view r).pc u).inUserCode = true
  ending : ∀ r, (s.callbacks r).ending = true → (s.engine.slots r).dones ≠ []

structure Sent (s : Frontend) : Prop where
  made : ∀ r st, s.userData r = some st → st < s.kotlin.nextStream
  own : ∀ r q st, s.userData r = some st → s.userData q = some st → r = q
  sending : ∀ t st, (s.kotlin.threads t).sends = some st → st < s.kotlin.nextStream
  sole : ∀ t v st, (s.kotlin.threads t).sends = some st → (s.kotlin.threads v).sends = some st → t = v
  placed : ∀ t, Placed s.userData (s.out t) (s.engine.calls t) (s.kotlin.threads t)

def Unused (s : Frontend) : Prop := ∀ st, Unowned s.userData st →
  (s.kotlin.streams st).events = [] ∧ (s.kotlin.streams st).closed = false ∧ s.taken st = []

inductive Heard (s : Frontend) (c : Bridge.Client) (r : ReqId) : CallbackPc → Prop
  | call (cb : Callback) (calls : ∃ u, ((s.engine.view r).pc u).calls = true)
      (trace : (c.slots r).trace = (s.engine.slots r).trace ++ [cb])
      (inside : ∃ u, ((c.view r).pc u).inUserCode = true) : s.Heard c r (.get cb)
  | answer (x : Option ChunkAction) (was : s.callbacks r = .returning x)
      (trace : (c.slots r).trace = (s.engine.slots r).trace) : s.Heard c r .outside
  | silent (trace : (c.slots r).trace = (s.engine.slots r).trace)
      (inside : ∀ u, ((s.engine.view r).pc u).inUserCode = true → ((c.view r).pc u).inUserCode = true) :
    s.Heard c r (s.callbacks r)

section Engine
variable {cfg : Config} {o : Tally} {s u : Frontend} {a : Bridge.Act} {c : Bridge.Client}
  {callbacks : ReqId → CallbackPc} {r : ReqId}

theorem heard_cases (hf : s.engine.Fresh) (hv : (s.engine.view r).Manned) (hc : s.engine.step cfg a = some c)
    (hh : s.heard a = some callbacks) : s.Heard c r (callbacks r) := by
  unfold heard at hh
  rcases Bridge.step_voiced hf hv hc with ⟨x, hx, hvoiced⟩ | ⟨hother, hvoiced⟩
  · rw [hx] at hh
    cases hvoiced with
    | call cb calls trace inside =>
      cases hh
      rw [Function.update_self]
      exact .call cb calls trace inside
    | answer x inside trace =>
      simp only at hh
      split at hh <;> cases hh
      rw [Function.update_self]
      exact .answer x (by assumption) trace
  · have hsame : callbacks r = s.callbacks r := by
      split at hh
      · rename_i q cb hup
        have hq : r ≠ q := fun e => hother _ (e ▸ hup)
        cases hh
        exact Function.update_of_ne hq _ _
      · rename_i q x hup
        have hq : r ≠ q := fun e => hother _ (e ▸ hup)
        split at hh <;> cases hh
        exact Function.update_of_ne hq _ _
      · cases hh
        rfl
    rw [hsame]
    cases hvoiced with
    | silent trace inside => exact .silent trace inside

theorem dones_congr {x y : Bridge.Slot} (h : x.trace = y.trace) : x.dones = y.dones := by
  rw [Bridge.Slot.dones, Bridge.Slot.dones, h]

/-- A step of the engine, with what its `send` has registered. -/
theorem Tied.engine (hs : s.Tied cfg o) (hc : s.engine.step cfg a = some c) (hh : s.heard a = some callbacks)
    (huengine : u.engine = c) (hucallbacks : u.callbacks = callbacks)
    (hentered : ∀ r, (∃ st, u.userData r = some st) ↔
      r ∈ (s.engine.enters a).toList ∨ ∃ st, s.userData r = some st) :
    u.Tied cfg (Tally.note s.engine a c o) := by
  subst huengine hucallbacks
  have hheard := fun r => heard_cases hs.accounts.fresh (hs.manned r) hc hh (r := r)
  have hmanned : ∀ r, (u.engine.view r).Manned :=
    Bridge.step_views hs.accounts.fresh hc (fun _ _ _ hv hm => hv.step hm) hs.manned
  refine ⟨hs.accounts.step hc, hmanned, ?_, ?_, ?_⟩
  · intro r
    rw [hentered r, ← hs.entered r]
    exact List.mem_append
  · intro r hr
    have hx := hheard r
    generalize hpc : u.callbacks r = pc at hx
    cases hx with
    | call cb calls trace inside => exact inside
    | answer => exact absurd hpc hr
    | silent trace inside =>
      obtain ⟨v, hv⟩ := hs.inside r (hpc ▸ hr)
      exact ⟨v, inside v hv⟩
  · intro r hr
    have hx := hheard r
    generalize u.callbacks r = pc at hx hr
    cases hx with
    | call cb calls trace =>
      cases cb with
      | onDone e =>
        rw [Bridge.Slot.dones, trace, List.filterMap_append]
        exact List.append_ne_nil_of_right_ne_nil _ (List.cons_ne_nil _ _)
      | onHeaders | onChunk => cases hr
    | answer => cases hr
    | silent trace =>
      rw [dones_congr trace]
      exact hs.ending r hr

inductive Told (s : Frontend) (c : Bridge.Client) : Bridge.Act → Frontend → Prop
  | registers (t : ThreadId) (args : Bridge.SendArgs) (id : ReqId) (st : StreamId)
      (call : s.engine.calls t = .sending args (.enterBridges id)) (pc : s.kotlin.threads t = .inSend st)
      (next : c.calls t = .sending args (.insert id)) :
    s.Told c (.call t) { s with userData := Function.update s.userData id (some st) }
  | writes (t : ThreadId) (args : Bridge.SendArgs) (id : ReqId) (call : s.engine.calls t = .sending args (.writeId id))
      (next : c.calls t = .sending args (.spawn id)) : s.Told c (.call t) { s with out := Function.update s.out t id }
  | returns (t : ThreadId) (status : Status)
      (call : s.engine.calls t = .done status ∨ ∃ r, s.engine.calls t = .request r (.returned status))
      (next : c.calls t = .idle) : s.Told c (.call t) (s.returned t status)
  | goes (t : ThreadId) (args : Bridge.SendArgs) (pc : Bridge.SendPc) (call : s.engine.calls t = .sending args pc)
      (enters : ∀ id, pc ≠ .enterBridges id) (writes : ∀ id, pc ≠ .writeId id)
      (turns : pc.Turns s.engine args (c.calls t)) : s.Told c (.call t) s
  | works (t : ThreadId) (busy : s.engine.calls t ≠ .idle) (call : ∀ args pc, s.engine.calls t ≠ .sending args pc)
      (done : ∀ status, s.engine.calls t ≠ .done status) (next : ∀ args pc, c.calls t ≠ .sending args pc) :
    s.Told c (.call t) s
  | quiet (a : Bridge.Act) (other : ∀ t, a ≠ .call t) : s.Told c a s

private theorem advance_turns {t : ThreadId} {args : Bridge.SendArgs} {pc : Bridge.SendPc}
    (hcall : s.engine.calls t = .sending args pc) (hc : s.engine.step cfg (.call t) = some c) :
    pc.Turns s.engine args (c.calls t) := by
  simp only [Bridge.Client.step, Bridge.Client.advance, hcall, Option.some.injEq] at hc
  rw [← hc]
  exact Bridge.send_turns cfg s.engine t args pc

private theorem told_sending (hplaced : ∀ t, Placed s.userData (s.out t) (s.engine.calls t) (s.kotlin.threads t))
    {t : ThreadId} {args : Bridge.SendArgs} {pc : Bridge.SendPc} (hcall : s.engine.calls t = .sending args pc)
    (hc : s.engine.step cfg (.call t) = some c) : s.Told c (.call t) (s.told (.call t)) := by
  have hturns := advance_turns hcall hc
  cases pc with
  | enterBridges id =>
    obtain ⟨st, hst, -⟩ := Placed.in_send (hcall ▸ hplaced t)
    have hnext : c.calls t = .sending args (.insert id) := by
      generalize c.calls t = call at hturns
      cases hturns with
      | goes pc' next => cases next; rfl
      | refused _ h | exhausted h | accepted _ h => cases h
    simp only [told, hcall, hst]
    exact .registers t args id st hcall hst hnext
  | writeId id =>
    have hnext : c.calls t = .sending args (.spawn id) := by
      generalize c.calls t = call at hturns
      cases hturns with
      | goes pc' next => cases next; rfl
      | refused _ h | exhausted h | accepted _ h => cases h
    simp only [told, hcall]
    exact .writes t args id hcall hnext
  | _ =>
    simp only [told, hcall]
    exact .goes t args _ hcall (fun _ => Bridge.SendPc.noConfusion) (fun _ => Bridge.SendPc.noConfusion) hturns

theorem told_cases (hplaced : ∀ t, Placed s.userData (s.out t) (s.engine.calls t) (s.kotlin.threads t))
    (hc : s.engine.step cfg a = some c) : s.Told c a (s.told a) := by
  cases a with
  | call t =>
    by_cases hsend : ∃ args pc, s.engine.calls t = .sending args pc
    · obtain ⟨args, pc, hcall⟩ := hsend
      exact told_sending hplaced hcall hc
    · have hnot : ∀ args pc, s.engine.calls t ≠ .sending args pc := fun args pc h => hsend ⟨args, pc, h⟩
      have hnext := Bridge.advance_not_sending hc hnot
      by_cases hdone : ∃ status, s.engine.calls t = .done status ∨ ∃ r, s.engine.calls t = .request r (.returned status)
      · obtain ⟨status, hcall⟩ := hdone
        have hidle : c.calls t = .idle := by
          rcases hcall with hcall | ⟨r, hcall⟩ <;>
            (simp only [Bridge.Client.step, Bridge.Client.advance, hcall, Bridge.Slot.exec, Option.some.injEq] at hc
             rw [← hc]
             simp [Bridge.Client.setCall])
        have htold : s.told (.call t) = s.returned t status := by
          rcases hcall with hcall | ⟨r, hcall⟩ <;> simp only [told, hcall]
        rw [htold]
        exact .returns t status hcall hidle
      · have hbusy : s.engine.calls t ≠ .idle := fun h => by
          simp [Bridge.Client.step, Bridge.Client.advance, h] at hc
        have htold : s.told (.call t) = s := by
          simp only [told]
          split
          · rename_i h
            exact absurd h (hnot _ _)
          · rename_i h
            exact absurd h (hnot _ _)
          · rename_i status h
            exact absurd ⟨status, .inl h⟩ hdone
          · rename_i r status h
            exact absurd ⟨status, .inr ⟨r, h⟩⟩ hdone
          · rfl
        rw [htold]
        exact .works t hbusy hnot (fun status h => hdone ⟨status, .inl h⟩) hnext
  | _ => exact .quiet _ fun _ => Bridge.Act.noConfusion

/-- The thread of a call that returns: a `send` stores its id or gives up. -/
theorem returned_cases (s : Frontend) (t : ThreadId) (status : Status) :
    (∃ st, s.kotlin.threads t = .inSend st ∧ s.returned t status =
      { s with
        kotlin := s.kotlin.goto t (if status = .ok then .storeId st (UInt64.ofNat (s.out t)) else .away)
        refs := if status = .ok then s.refs else Function.update s.refs st .disposed }) ∨
    ∃ p, (∀ st, s.kotlin.threads t ≠ .inSend st) ∧ s.returned t status = { s with kotlin := s.kotlin.goto t p } ∧
      p.sends = (s.kotlin.threads t).sends ∧
      ∀ st id, p.names = some (st, id) → (s.kotlin.threads t).names = some (st, id) := by
  have hsame : s.kotlin.goto t (s.kotlin.threads t) = s.kotlin := by
    simp only [Lifecycle.Client.goto, Function.update_eq_self]
  cases hpc : s.kotlin.threads t with
  | inSend st => exact .inl ⟨st, rfl, by simp only [returned, Lifecycle.Client.step, hpc, Option.getD_some]⟩
  | inResume st id =>
    refine .inr ⟨if status = .notPaused then .delay st id else .storePaused st, fun _ => Lifecycle.Pc.noConfusion,
      by simp only [returned, Lifecycle.Client.step, hpc, Option.getD_some], by split <;> rfl, ?_⟩
    intro st' id' h
    split at h
    · exact h
    · cases h
  | inFree =>
    exact .inr ⟨.storeFreed, fun _ => Lifecycle.Pc.noConfusion,
      by simp only [returned, Lifecycle.Client.step, hpc, Option.getD_some], rfl, fun _ _ h => by cases h⟩
  | _ =>
    refine .inr ⟨s.kotlin.threads t, ?_, ?_, by rw [hpc], fun _ _ h => hpc ▸ h⟩
    · exact fun _ => Lifecycle.Pc.noConfusion
    · rw [hsame]
      simp only [returned, Lifecycle.Client.step, hpc, Option.getD_none]

end Engine

end Frontend

end Hyper4k.Streams
