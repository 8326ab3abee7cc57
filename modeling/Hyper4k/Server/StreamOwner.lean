import Hyper4k.Runs.Threads
import Hyper4k.Server.Streaming

/-! What a step does to the streams of the engine, and that every stream belongs to the responder it
was opened for. -/
namespace Hyper4k.Server
open Runs Text

structure CallPc.Starts (r : Responder) (pc : CallPc) : Prop where
  busy : pc ≠ .idle
  begins : pc.begins = none
  sending : pc.sending = none
  carried : pc.carried = none
  responds : pc.responds
  held : ∀ q, pc ≠ .releaseStream q
  on : ∀ owner, pc.on owner = none ∨ pc.on owner = some r

theorem Api.starts (http : HttpTypes) (api : Api) : (api.start http).Starts api.responder := by
  cases api <;> simp only [Api.start] <;> split
  all_goals constructor <;>
    simp [CallPc.begins, CallPc.sending, CallPc.carried, CallPc.responds, CallPc.on, Delivery.rx, Api.responder]

inductive Streaming.Stepped (s : Streaming) : StreamAct → Streaming → Prop
  | enter (w : ThreadId) (api : Api) (pc : CallPc) (idle : s.engine.pcs w = .idle) (start : pc.Starts api.responder) :
    s.Stepped (.engine (.enter w api)) { s with
      engine := s.engine.setCall w pc
      calls := Function.update s.calls w (some api)
      caller := Function.update s.caller api.responder (some w) }
  | call (a : StreamAct) (w : ThreadId) (ev : StreamEvent) (t : Engine) (access : s.engine.Accessed w ev t) :
    s.Stepped a { s.note w ev with engine := t }
  | aside (a : StreamAct) (t : Engine) (pcs : t.pcs = s.engine.pcs) (active : t.active = s.engine.active)
      (begun : t.begun = s.engine.begun) (nextStream : t.nextStream = s.engine.nextStream)
      (buffers : ∀ i, (t.streams i).buffer = (s.engine.streams i).buffer) :
    s.Stepped a { s with engine := t }
  | yields (a : StreamAct) (r : Responder) (i : StreamId) (chunk : Octets) (rest : List Octets)
      (body : s.engine.body r = some i) (buffer : (s.engine.streams i).buffer = chunk :: rest) :
    s.Stepped a { s.setTap i ((s.taps i).yield chunk) with
      engine := s.engine.setStream i { s.engine.streams i with buffer := rest } }
  | ends (a : StreamAct) (r : Responder) (i : StreamId) (body : s.engine.body r = some i)
      (buffer : (s.engine.streams i).buffer = []) (senders : (s.taps i).senders = 0) :
    s.Stepped a (s.setTap i (s.taps i).finish)
  | pending (a : StreamAct) : s.Stepped a s

def Act.aside : Act → Bool
  | .call _ | .enter _ _ | .poll _ => false
  | _ => true

/-- `handle` and the network leave the streams alone. -/
theorem Engine.step_aside {cfg : Config} {s t : Engine} {a : Act} (h : s.step cfg a = some t) (ha : a.aside = true) :
    t.pcs = s.pcs ∧ t.active = s.active ∧ t.begun = s.begun ∧ t.nextStream = s.nextStream ∧
      ∀ i, (t.streams i).buffer = (s.streams i).buffer := by
  have hthread : ∀ (u : Engine) (w : ThreadId) (X : Thread), X.call = (u.threads w).call →
      (u.setThread w X).pcs = u.pcs := by
    intro u w X hX
    rw [pcs_setThread, hX]
    exact Function.update_eq_self w u.pcs
  cases a with
  | call | enter | poll => cases ha
  | request w =>
    simp only [Engine.step] at h
    split at h <;> cases h
    exact ⟨hthread _ w _ rfl, rfl, rfl, rfl, fun _ => rfl⟩
  | disconnect r =>
    simp only [Engine.step] at h
    split at h <;> cases h
    exact ⟨rfl, rfl, rfl, rfl, fun _ => rfl⟩
  | dropBody i =>
    cases h
    refine ⟨rfl, rfl, rfl, rfl, fun j => ?_⟩
    exact update_part (f := Stream.buffer) (by rfl) j
  | handle r =>
    have h : s.serve r = some t := h
    unfold Engine.serve at h
    split at h
    · cases h
      exact ⟨rfl, rfl, rfl, rfl, fun _ => rfl⟩
    · cases h
      exact ⟨hthread _ _ _ rfl, rfl, rfl, rfl, fun _ => rfl⟩
    · split at h <;> cases h
      exact ⟨rfl, rfl, rfl, rfl, fun _ => rfl⟩
    · cases h
      exact ⟨hthread _ _ _ rfl, rfl, rfl, rfl, fun _ => rfl⟩
    · split at h
      · cases h
        exact ⟨hthread _ _ _ rfl, rfl, rfl, rfl, fun _ => rfl⟩
      · cases h
        exact ⟨hthread _ _ _ rfl, rfl, rfl, rfl, fun _ => rfl⟩
    · split at h
      · cases h
        exact ⟨rfl, rfl, rfl, rfl, fun _ => rfl⟩
      · split at h <;> cases h
        exact ⟨rfl, rfl, rfl, rfl, fun _ => rfl⟩
    · cases h
      exact ⟨rfl, rfl, rfl, rfl, fun _ => rfl⟩
    · cases h
      exact ⟨rfl, rfl, rfl, rfl, fun _ => rfl⟩
    · cases h
    · cases h

theorem Streaming.step_cases {cfg : Config} {s t : Streaming} {a : StreamAct} (h : s.step cfg a = some t)
    (hown : ∀ w, (s.engine.pcs w).responds) : s.Stepped a t := by
  cases a with
  | poll r =>
    have h : s.pollFrame r = some t := h
    unfold Streaming.pollFrame at h
    split at h
    · cases h
    · rename_i i hbody
      split at h
      · cases h
      · split at h
        · rename_i chunk rest hbuffer
          cases h
          exact .yields _ r i chunk rest hbody hbuffer
        · rename_i hbuffer
          cases h
          split
          · rename_i hsenders
            exact .ends _ r i hbody hbuffer hsenders
          · exact .pending _
  | engine a =>
    have aside : (s.engine.step cfg a).map (fun u => { s with engine := u }) = some t → a.aside = true →
        s.Stepped (.engine a) t := by
      intro h ha
      obtain ⟨u, hu, rfl⟩ := Option.map_eq_some_iff.mp h
      obtain ⟨pcs, active, begun, nextStream, buffers⟩ := Engine.step_aside hu ha
      exact .aside _ u pcs active begun nextStream buffers
    cases a with
    | enter w api =>
      obtain ⟨u, hu, rfl⟩ := Option.map_eq_some_iff.mp h
      simp only [Engine.step] at hu
      split at hu <;> cases hu
      rename_i hidle
      exact .enter w api _ hidle.1 (api.starts cfg.http)
    | call w =>
      obtain ⟨u, hu, rfl⟩ := Option.map_eq_some_iff.mp h
      exact .call _ w _ u (Engine.advance_accessed (hown w) hu)
    | poll i => cases h
    | request | handle | disconnect | dropBody => exact aside h rfl

/-- What is known of the call of a thread: whose streams it deals with, and that they are those of
the responder it was made on. -/
structure Threaded (owner : StreamId → Option Responder) (pc : CallPc) (call : Option Api) : Prop where
  begins : ∀ q i, pc.begins = some (q, i) → owner i = some q
  sending : ∀ i chunk, pc.sending = some (i, chunk) → chunk ≠ [] ∧ ∃ q, owner i = some q
  calls : ∀ q, pc.on owner = some q → call.map Api.responder = some q
  idle : pc = .idle → call = none
  responds : pc.responds
  own : ∀ own payload, pc.carried = some (own, payload) → payload = own ∨ payload = slotBusy

structure Streaming.Owned (s : Streaming) : Prop where
  threads : ∀ w, Threaded s.owner (s.engine.pcs w) (s.calls w)
  active : ∀ q i, s.engine.active q = some i → s.owner i = some q
  begun : ∀ q i, i ∈ s.engine.begun q → s.owner i = some q
  fresh : ∀ i q, s.owner i = some q → i < s.engine.nextStream
  untouched : ∀ i, s.engine.nextStream ≤ i → (s.engine.streams i).buffer = []

section Threaded
variable {owner owner' : StreamId → Option Responder} {pc : CallPc} {call : Option Api}

theorem Threaded.returned (owner : StreamId → Option Responder) (code : Code) (call : Option Api) :
    Threaded owner (.returned code) call where
  begins _ _ h := nomatch h
  sending _ _ h := nomatch h
  calls _ h := nomatch h
  idle h := nomatch h
  responds := trivial
  own _ _ h := nomatch h

theorem CallPc.on_sending {i : StreamId} {chunk : Octets} (h : pc.sending = some (i, chunk)) :
    pc.on owner = owner i := by
  cases pc with
  | trySend | blockingSend =>
    cases h
    rfl
  | _ => cases h

theorem CallPc.on_const (h : pc.sending = none) : pc.on owner' = pc.on owner := by
  cases pc with
  | trySend | blockingSend => cases h
  | _ => rfl

theorem Threaded.grow (h : Threaded owner pc call) (hgrow : ∀ i q, owner i = some q → owner' i = some q) :
    Threaded owner' pc call := by
  refine ⟨fun q i hb => hgrow i q (h.begins q i hb), fun i chunk hs => ?_, fun q hq => h.calls q ?_, h.idle,
    h.responds, h.own⟩
  · obtain ⟨hne, q, hq⟩ := h.sending i chunk hs
    exact ⟨hne, q, hgrow i q hq⟩
  · cases hs : pc.sending with
    | none => rw [← hq, CallPc.on_const hs]
    | some p =>
      obtain ⟨-, q', hq'⟩ := h.sending p.1 p.2 hs
      rw [CallPc.on_sending hs, hgrow _ _ hq'] at hq
      rw [CallPc.on_sending hs, hq', hq]

theorem Threaded.turns {next : CallPc} (h : Threaded owner pc call) (ht : pc.Turns next) :
    Threaded owner next call := by
  refine ⟨fun q i hb => h.begins q i (ht.same _ hb), fun i chunk hs => ?_, fun q hq => ?_, fun hidle => ?_,
    ht.responds, fun own payload hc => ?_⟩
  · rw [ht.unsent] at hs
    cases hs
  · rcases ht.on owner with hnone | hsame
    · rw [hnone] at hq
      cases hq
    · exact h.calls q (hsame ▸ hq)
  · exact absurd hidle ht.moves
  · rcases ht.carried own payload hc with hown | hbusy | hold
    · exact .inl hown
    · exact .inr hbusy
    · exact h.own own payload hold

theorem Threaded.starts {api : Api} (h : pc.Starts api.responder) : Threaded owner pc (some api) := by
  refine ⟨fun q i hb => ?_, fun i chunk hs => ?_, fun q hq => ?_, fun hidle => absurd hidle h.busy, h.responds,
    fun own payload hc => ?_⟩
  · rw [h.begins] at hb
    cases hb
  · rw [h.sending] at hs
    cases hs
  · rcases h.on owner with hnone | hsame
    · rw [hnone] at hq
      cases hq
    · rw [← hq, hsame]
      rfl
  · rw [h.carried] at hc
    cases hc

end Threaded

namespace Streaming
variable {s : Streaming} {w : ThreadId}

theorem Owned.init : ({} : Streaming).Owned where
  threads _ := ⟨nofun, nofun, nofun, fun _ => rfl, trivial, nofun⟩
  active _ _ h := nomatch h
  begun _ _ h := nomatch h
  fresh _ _ h := nomatch h
  untouched _ _ := rfl

theorem Owned.goes (hs : s.Owned) {next : CallPc} (hnext : Threaded s.owner next (s.calls w)) :
    ∀ u, Threaded s.owner (Function.update s.engine.pcs w next u) (s.calls u) :=
  forall_update (Q := fun u pc => Threaded s.owner pc (s.calls u)) hnext fun u _ => hs.threads u

theorem Owned.sends (hs : s.Owned) {i : StreamId} {chunk : Octets}
    (h : (s.engine.pcs w).sending = some (i, chunk)) : i < s.engine.nextStream ∧
      ∃ q, s.owner i = some q ∧ (s.calls w).map Api.responder = some q := by
  obtain ⟨-, q, hq⟩ := (hs.threads w).sending i chunk h
  exact ⟨hs.fresh i q hq, q, hq, (hs.threads w).calls q ((CallPc.on_sending h).trans hq)⟩

theorem Owned.without (hs : s.Owned) (r q : Responder) (i : StreamId)
    (h : Function.update s.engine.active r none q = some i) : s.owner i = some q := by
  by_cases hq : q = r
  · subst hq
    rw [Function.update_self] at h
    cases h
  · rw [Function.update_of_ne hq] at h
    exact hs.active q i h

theorem Owned.call (hs : s.Owned) {ev : StreamEvent} {t : Engine} (h : s.engine.Accessed w ev t) :
    ({ s.note w ev with engine := t } : Streaming).Owned := by
  cases h with
  | opens r status headers pc free =>
    have hgrow : ∀ i q, s.owner i = some q → Function.update s.owner s.engine.nextStream (some r) i = some q := by
      intro i q hi
      rwa [Function.update_of_ne (Nat.ne_of_lt (hs.fresh i q hi))]
    refine ⟨?_, fun q i hi => ?_, fun q i hi => hgrow i q (hs.begun q i hi), fun i q hi => ?_, fun i hi => ?_⟩
    · rw [pcs_setCall]
      refine forall_update (Q := fun u pc => Threaded _ pc (s.calls u)) ?_ fun u _ => (hs.threads u).grow hgrow
      refine ⟨fun q i hb => ?_, nofun, fun q hq => ?_, nofun, trivial, nofun⟩
      · cases hb
        exact Function.update_self ..
      · cases hq
        exact (hs.threads w).calls r (by rw [pc]; rfl)
    · have hi : Function.update s.engine.active r (some s.engine.nextStream) q = some i := hi
      by_cases hq : q = r
      · subst hq
        rw [Function.update_self] at hi
        cases hi
        exact Function.update_self ..
      · rw [Function.update_of_ne hq] at hi
        exact hgrow i q (hs.active q i hi)
    · have hi : Function.update s.owner s.engine.nextStream (some r) i = some q := hi
      by_cases hin : i = s.engine.nextStream
      · rw [hin]
        exact Nat.lt_succ_self _
      · rw [Function.update_of_ne hin] at hi
        exact Nat.lt_succ_of_lt (hs.fresh i q hi)
    · exact hs.untouched i (Nat.le_of_succ_le hi)
  | clones r i chunk pc full found =>
    have howner := hs.active r i found
    refine ⟨?_, hs.active, hs.begun, hs.fresh, hs.untouched⟩
    rw [pcs_setCall]
    refine hs.goes ⟨nofun, fun j c hj => ?_, fun q hq => ?_, nofun, trivial, nofun⟩
    · cases hj
      exact ⟨full, r, howner⟩
    · have hq : s.owner i = some q := hq
      rw [howner] at hq
      cases hq
      exact (hs.threads w).calls r (by rw [pc]; rfl)
  | accepts i chunk pc room =>
    refine ⟨?_, hs.active, hs.begun, hs.fresh, fun j hj => ?_⟩
    · rw [pcs_setCall]
      exact hs.goes (.returned ..)
    · have hij : j ≠ i := fun hij => Nat.not_lt.mpr hj (hij ▸ (hs.sends pc).1)
      exact (congrArg Stream.buffer (Function.update_of_ne hij _ _)).trans (hs.untouched j hj)
  | fails i chunk code pc =>
    refine ⟨?_, hs.active, hs.begun, hs.fresh, hs.untouched⟩
    rw [pcs_setCall]
    exact hs.goes (.returned ..)
  | waits i chunk pc =>
    obtain ⟨-, q, hq, hcalls⟩ := hs.sends pc
    refine ⟨?_, hs.active, hs.begun, hs.fresh, hs.untouched⟩
    rw [pcs_setCall]
    refine hs.goes ⟨nofun, fun j c hj => ?_, fun q' hq' => ?_, nofun, trivial, nofun⟩
    · cases hj
      exact (hs.threads w).sending i chunk pc
    · have hq' : s.owner i = some q' := hq'
      rw [hcalls, ← hq, hq']
  | removes r i finish code pc found =>
    refine ⟨?_, hs.without r, hs.begun, hs.fresh, hs.untouched⟩
    rw [pcs_setCall]
    exact hs.goes (.returned ..)
  | releasesNone r code pc found =>
    refine ⟨?_, hs.without r, hs.begun, hs.fresh, hs.untouched⟩
    rw [pcs_setCall]
    exact hs.goes (.returned ..)
  | returns code pc =>
    refine ⟨fun u => ?_, hs.active, hs.begun, hs.fresh, hs.untouched⟩
    rw [pcs_setCall]
    change Threaded s.owner (Function.update s.engine.pcs w .idle u) (Function.update s.calls w none u)
    by_cases hu : u = w
    · subst hu
      rw [Function.update_self, Function.update_self]
      exact ⟨nofun, nofun, nofun, fun _ => rfl, trivial, nofun⟩
    · rw [Function.update_of_ne hu, Function.update_of_ne hu]
      exact hs.threads u
  | delivers r own t pc pcs accepted active streams nextStream =>
    refine ⟨?_, ?_, fun q i hi => ?_, ?_, ?_⟩
    · rw [pcs]
      exact hs.goes (.returned ..)
    · rw [active]
      exact hs.active
    · have hi : i ∈ t.begun q := hi
      rw [begun_accepted accepted] at hi
      by_cases hq : q = r
      · subst hq
        rw [Function.update_self] at hi
        rcases List.mem_append.mp hi with hi | hi
        · exact hs.begun q i hi
        · have hrx : own.rx = some i := Option.mem_toList.mp hi
          refine (hs.threads w).begins q i ?_
          rcases pc with pc | ⟨payload, pc⟩ <;> rw [pc, CallPc.begins, hrx] <;> rfl
      · rw [Function.update_of_ne hq] at hi
        exact hs.begun q i hi
    · rw [nextStream]
      exact hs.fresh
    · rw [nextStream, streams]
      exact hs.untouched
  | turns next t turns pcs accepted active streams nextStream =>
    refine ⟨?_, ?_, ?_, ?_, ?_⟩
    · rw [pcs]
      exact hs.goes ((hs.threads w).turns turns)
    · rw [active]
      exact hs.active
    · rw [begun_congr accepted]
      exact hs.begun
    · rw [nextStream]
      exact hs.fresh
    · rw [nextStream, streams]
      exact hs.untouched

theorem Owned.step (hs : s.Owned) (hbody : s.engine.Streamed) {a : StreamAct} {t : Streaming} (h : s.Stepped a t) :
    t.Owned := by
  cases h with
  | call a w ev t access => exact hs.call access
  | enter w api pc idle start =>
    refine ⟨fun u => ?_, hs.active, hs.begun, hs.fresh, hs.untouched⟩
    rw [pcs_setCall]
    change Threaded s.owner (Function.update s.engine.pcs w pc u) (Function.update s.calls w (some api) u)
    by_cases hu : u = w
    · subst hu
      rw [Function.update_self, Function.update_self]
      exact .starts start
    · rw [Function.update_of_ne hu, Function.update_of_ne hu]
      exact hs.threads u
  | aside a t pcs active begun nextStream buffers =>
    refine ⟨?_, ?_, ?_, ?_, fun i hi => ?_⟩
    · rw [pcs]
      exact hs.threads
    · rw [active]
      exact hs.active
    · rw [begun]
      exact hs.begun
    · rw [nextStream]
      exact hs.fresh
    · rw [buffers]
      exact hs.untouched i (nextStream ▸ hi)
  | yields a r i chunk rest body buffer =>
    refine ⟨hs.threads, hs.active, hs.begun, hs.fresh, fun j hj => ?_⟩
    have hij : j ≠ i := fun hij => Nat.not_lt.mpr hj (hij ▸ hs.fresh i r (hs.begun r i (hbody.body body)))
    exact (congrArg Stream.buffer (Function.update_of_ne hij _ _)).trans (hs.untouched j hj)
  | ends a r i body buffer senders => exact ⟨hs.threads, hs.active, hs.begun, hs.fresh, hs.untouched⟩
  | pending a => exact hs

end Streaming

end Hyper4k.Server
