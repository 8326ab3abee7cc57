import Hyper4k.Kotlin.Heard

/-! Each request of the engine is the request of one stream: what a native `send` does to the one-to-one tie. -/
namespace Hyper4k.Streams
open Bridge (Config ReqId Status Tally)
open Lifecycle (StreamId ThreadId)
open Runs

section Register
variable {userData : ReqId → Option StreamId} {id r out : ReqId} {st q : StreamId} {c : Bridge.Call} {p : Lifecycle.Pc}

theorem Unowned.grow (h : Unowned userData q) (hne : st ≠ q) : Unowned (Function.update userData id (some st)) q := by
  intro r hr
  by_cases hrid : r = id
  · rw [hrid, Function.update_self] at hr
    exact hne (Option.some.inj hr)
  · rw [Function.update_of_ne hrid] at hr
    exact h r hr

theorem owned_grow (hfresh : userData id = none) (h : userData r = some q) :
    Function.update userData id (some st) r = some q := by
  have hrid : r ≠ id := by
    rintro rfl
    rw [hfresh] at h
    cases h
  rwa [Function.update_of_ne hrid]

theorem SendAt.grow (hfresh : userData id = none) (hne : st ≠ q) (h : SendAt userData out q c) :
    SendAt (Function.update userData id (some st)) out q c := by
  cases c with
  | sending args pc =>
    refine ⟨h.1, ?_⟩
    have hpc := h.2
    cases hcounted : pc.counted with
    | none =>
      rw [hcounted] at hpc
      exact Unowned.grow hpc hne
    | some r =>
      rw [hcounted] at hpc
      exact ⟨owned_grow hfresh hpc.1, hpc.2⟩
  | done status =>
    simp only [SendAt] at h ⊢
    split at h
    · rename_i hok
      rw [if_pos hok]
      exact owned_grow hfresh h
    · rename_i hok
      rw [if_neg hok]
      exact Unowned.grow h hne
  | _ => exact h

theorem Placed.grow (hfresh : userData id = none) (hne : p.sends ≠ some st) (h : Placed userData out c p) :
    Placed (Function.update userData id (some st)) out c p := by
  have hother {q : StreamId} (hq : p.sends = some q) : st ≠ q := fun e => hne (e ▸ hq)
  cases p with
  | callSend q => exact ⟨h.1, Unowned.grow h.2 (hother rfl)⟩
  | inSend q => exact SendAt.grow hfresh (hother rfl) h
  | _ => exact h

end Register

namespace Frontend
section Sending
variable {cfg : Config} {o : Tally} {s u : Frontend}

theorem Sent.moved (hs : s.Sent) {t : ThreadId} {p : Lifecycle.Pc}
    (threads : u.kotlin.threads = Function.update s.kotlin.threads t p)
    (next : s.kotlin.nextStream ≤ u.kotlin.nextStream) (userData : u.userData = s.userData)
    (out : ∀ v, v ≠ t → u.out v = s.out v) (calls : ∀ v, v ≠ t → u.engine.calls v = s.engine.calls v)
    (hp : Placed s.userData (u.out t) (u.engine.calls t) p)
    (sends : ∀ st, p.sends = some st → (s.kotlin.threads t).sends = some st ∨
      s.kotlin.nextStream ≤ st ∧ st < u.kotlin.nextStream) : u.Sent := by
  have hother {v : ThreadId} (hv : v ≠ t) : u.kotlin.threads v = s.kotlin.threads v := by
    rw [threads, Function.update_of_ne hv]
  have hself : u.kotlin.threads t = p := by rw [threads, Function.update_self]
  have hapart {v : ThreadId} {st : StreamId} (hv : v ≠ t) (hp : p.sends = some st)
      (hst : (s.kotlin.threads v).sends = some st) : False := by
    rcases sends st hp with hold | ⟨hnew, -⟩
    · exact hv (hs.sole v t st hst hold)
    · exact absurd (hs.sending v st hst) (Nat.not_lt.mpr hnew)
  refine ⟨fun r st hr => ?_, fun r q st hr hq => ?_, fun v st hv => ?_, fun v w st hv hw => ?_, fun v => ?_⟩
  · rw [userData] at hr
    exact Nat.lt_of_lt_of_le (hs.made r st hr) next
  · rw [userData] at hr hq
    exact hs.own r q st hr hq
  · by_cases hvt : v = t
    · rw [hvt, hself] at hv
      rcases sends st hv with hold | ⟨-, hlt⟩
      · exact Nat.lt_of_lt_of_le (hs.sending t st hold) next
      · exact hlt
    · rw [hother hvt] at hv
      exact Nat.lt_of_lt_of_le (hs.sending v st hv) next
  · by_cases hvt : v = t <;> by_cases hwt : w = t
    · rw [hvt, hwt]
    · rw [hvt, hself] at hv
      rw [hother hwt] at hw
      exact (hapart hwt hv hw).elim
    · rw [hother hvt] at hv
      rw [hwt, hself] at hw
      exact (hapart hvt hw hv).elim
    · rw [hother hvt] at hv
      rw [hother hwt] at hw
      exact hs.sole v w st hv hw
  · rw [userData]
    by_cases hvt : v = t
    · rw [hvt, hself]
      exact hp
    · rw [hother hvt, out v hvt, calls v hvt]
      exact hs.placed v

theorem Sent.advanced (hs : s.Sent) {t : ThreadId} (threads : u.kotlin.threads = s.kotlin.threads)
    (next : u.kotlin.nextStream = s.kotlin.nextStream) (userData : u.userData = s.userData)
    (out : ∀ v, v ≠ t → u.out v = s.out v) (calls : ∀ v, v ≠ t → u.engine.calls v = s.engine.calls v)
    (hp : Placed s.userData (u.out t) (u.engine.calls t) (s.kotlin.threads t)) : u.Sent := by
  refine hs.moved (t := t) (threads.trans (Function.update_eq_self t _).symm) (Nat.le_of_eq next.symm) userData out
    calls hp fun st hst => ?_
  exact .inl hst

/-- A thread that leaves `send`, or has nothing to do with it. -/
theorem placed_of_plain {userData : ReqId → Option StreamId} {out : ReqId} {c : Bridge.Call} {p : Lifecycle.Pc}
    (hp : p.sends = none) (hc : ∀ args pc, c ≠ .sending args pc) : Placed userData out c p := by
  cases p with
  | callSend | inSend => cases hp
  | _ => exact hc

/-- What the next step of a `send` leaves, `bridge::spawn` and the write of the id apart. -/
private theorem SendAt.turns {userData : ReqId → Option StreamId} {out : ReqId} {st : StreamId} {c : Bridge.Client}
    {args : Bridge.SendArgs} {pc : Bridge.SendPc} {call : Bridge.Call} (h : SendAt userData out st (.sending args pc))
    (enters : ∀ id, pc ≠ .enterBridges id) (writes : ∀ id, pc ≠ .writeId id) (turns : pc.Turns c args call) :
    SendAt userData out st call := by
  obtain ⟨hargs, hpc⟩ := h
  cases turns with
  | goes pc' next admitted =>
    refine ⟨hargs, ?_⟩
    cases next with
    | enter id => exact hpc
    | register id => exact absurd rfl (enters id)
    | spawn id => exact absurd rfl (writes id)
    | write id => exact ⟨hpc.1, fun h => by cases h⟩
    | store id => exact ⟨hpc.1, fun _ => hpc.2 rfl⟩
    | _ => exact hpc
  | refused status at_start why =>
    subst at_start
    have hne : status ≠ .ok := by
      rcases why with rfl | hr
      · exact Status.noConfusion
      · rintro rfl
        exact hargs hr
    simp only [SendAt, if_neg hne]
    exact hpc
  | exhausted undone =>
    subst undone
    exact hpc
  | accepted id done =>
    subst done
    obtain ⟨hid, hout⟩ := hpc
    rw [← hout rfl] at hid
    exact hid

private theorem Sent.plain (hs : s.Sent) {t : ThreadId} (busy : s.engine.calls t ≠ .idle)
    (hin : ∀ st, s.kotlin.threads t ≠ .inSend st) : (s.kotlin.threads t).sends = none := by
  have hp := hs.placed t
  generalize s.kotlin.threads t = p at hp hin
  cases p with
  | callSend st => exact absurd hp.1 busy
  | inSend st => exact absurd rfl (hin st)
  | _ => rfl

private theorem Sent.registers (hs : s.Sent) {t : ThreadId} {args : Bridge.SendArgs} {id : ReqId} {st : StreamId}
    (hfresh : s.userData id = none) (hcall : s.engine.calls t = .sending args (.enterBridges id))
    (hpc : s.kotlin.threads t = .inSend st) (kotlin : u.kotlin = s.kotlin) (out : u.out = s.out)
    (userData : u.userData = Function.update s.userData id (some st))
    (calls : ∀ v, v ≠ t → u.engine.calls v = s.engine.calls v) (next : u.engine.calls t = .sending args (.insert id)) :
    u.Sent := by
  have hplaced := hs.placed t
  rw [hcall, hpc] at hplaced
  have hunowned : Unowned s.userData st := hplaced.2
  have hsends : (s.kotlin.threads t).sends = some st := by rw [hpc]; rfl
  refine ⟨fun r q hr => ?_, fun r q x hr hq => ?_, ?_, ?_, fun v => ?_⟩
  · rw [userData] at hr
    rw [kotlin]
    by_cases hrid : r = id
    · rw [hrid, Function.update_self] at hr
      cases hr
      exact hs.sending t st hsends
    · rw [Function.update_of_ne hrid] at hr
      exact hs.made r q hr
  · rw [userData] at hr hq
    by_cases hrid : r = id <;> by_cases hqid : q = id
    · rw [hrid, hqid]
    · rw [hrid, Function.update_self] at hr
      rw [Function.update_of_ne hqid] at hq
      exact absurd (hq.trans hr.symm) (hunowned q)
    · rw [Function.update_of_ne hrid] at hr
      rw [hqid, Function.update_self] at hq
      exact absurd (hr.trans hq.symm) (hunowned r)
    · rw [Function.update_of_ne hrid] at hr
      rw [Function.update_of_ne hqid] at hq
      exact hs.own r q x hr hq
  · rw [kotlin]
    exact hs.sending
  · rw [kotlin]
    exact hs.sole
  · rw [userData, kotlin, out]
    by_cases hvt : v = t
    · rw [hvt, hpc, next]
      exact ⟨hplaced.1, Function.update_self .., fun h => by cases h⟩
    · rw [calls v hvt]
      exact Placed.grow hfresh (fun hv => hvt (hs.sole v t st hv hsends)) (hs.placed v)

theorem Sent.told {a : Bridge.Act} {c : Bridge.Client} {x : Frontend} (hs : s.Sent) (ht : s.Told c a x)
    (hfresh : ∀ id, s.engine.enters a = some id → s.userData id = none) (own : ∀ n x, a ≠ .begin n x)
    (hc : s.engine.step cfg a = some c) (callbacks : ReqId → CallbackPc) :
    ({ x with engine := c, callbacks } : Frontend).Sent := by
  have hcalls {t v : ThreadId} (ha : a = .call t) (hv : v ≠ t) : c.calls v = s.engine.calls v := by
    refine Bridge.step_calls_of_ne hc fun h => hv ?_
    rw [ha] at h
    exact (Option.some.inj h).symm
  cases ht with
  | registers t args id st call pc next =>
    refine hs.registers (hfresh id ?_) call pc rfl rfl rfl (fun v hv => hcalls rfl hv) next
    simp only [Bridge.Client.enters, call, Bridge.Call.enters]
  | writes t args id call next =>
    obtain ⟨st, hpc, hargs, hid⟩ := Placed.in_send (call ▸ hs.placed t)
    refine hs.advanced (t := t) rfl rfl rfl (fun v hv => Function.update_of_ne hv _ _) (fun v hv => hcalls rfl hv) ?_
    rw [hpc, show ({ s with out := Function.update s.out t id, engine := c, callbacks } : Frontend).engine.calls t =
      .sending args (.spawn id) from next]
    exact ⟨hargs, hid.1, fun _ => Function.update_self ..⟩
  | returns t status call next =>
    have hidle := not_sending_of_idle next
    have hbusy : s.engine.calls t ≠ .idle := by
      rcases call with h | ⟨r, h⟩ <;> rw [h] <;> exact Bridge.Call.noConfusion
    rcases returned_cases s t status with ⟨st, hpc, heq⟩ | ⟨p, hin, heq, hp, -⟩
    · rw [heq]
      refine hs.moved (t := t) rfl (Nat.le_refl _) rfl (fun _ _ => rfl) (fun v hv => hcalls rfl hv)
        (placed_of_plain ?_ hidle) fun st' h => ?_
      · split <;> rfl
      · split at h <;> cases h
    · have hplain : p.sends = none := hp.trans (hs.plain hbusy hin)
      rw [heq]
      refine hs.moved (t := t) rfl (Nat.le_refl _) rfl (fun _ _ => rfl) (fun v hv => hcalls rfl hv)
        (placed_of_plain hplain hidle) fun st' h => ?_
      rw [hplain] at h
      cases h
  | goes t args pc call enters writes turns =>
    obtain ⟨st, hpc, hsend⟩ := Placed.in_send (call ▸ hs.placed t)
    refine hs.advanced (t := t) rfl rfl rfl (fun _ _ => rfl) (fun v hv => hcalls rfl hv) ?_
    rw [hpc]
    exact SendAt.turns hsend enters writes turns
  | works t busy call done next =>
    refine hs.advanced (t := t) rfl rfl rfl (fun _ _ => rfl) (fun v hv => hcalls rfl hv) ?_
    refine placed_of_plain (hs.plain busy fun st hin => ?_) next
    have hp := hs.placed t
    rw [hin] at hp
    generalize s.engine.calls t = call' at hp call done
    cases call' with
    | sending args pc => exact call args pc rfl
    | done status => exact done status rfl
    | _ => exact hp
  | quiet _ other =>
    have hsame : ∀ v, c.calls v = s.engine.calls v := by
      intro v
      refine Bridge.step_calls_of_ne hc fun h => ?_
      cases a with
      | call t => exact other t rfl
      | begin n y => exact own n y rfl
      | _ => cases h
    refine hs.advanced (t := 0) rfl rfl rfl (fun _ _ => rfl) (fun v _ => hsame v) ?_
    rw [show ({ s with engine := c, callbacks } : Frontend).engine.calls 0 = s.engine.calls 0 from hsame 0]
    exact hs.placed 0

end Sending

end Frontend

end Hyper4k.Streams
