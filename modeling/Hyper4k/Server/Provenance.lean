import Hyper4k.Runs.Observed
import Hyper4k.Server.SingleUse

/-! Where deliveries come from: every one that reaches a request was made for it. -/
namespace Hyper4k.Server
open Runs

def Api.answers (r : Responder) : Api → Bool
  | .respond q .. | .begin q .. => decide (q = r)
  | .write .. | .finish .. => false

/-- The call each thread made last, and for every place a delivery passes through the call
that made the delivery. -/
structure Origins where
  call : ThreadId → Option Api := fun _ => none
  slot : ThreadId → Option (Api × Delivery) := fun _ => none
  channel : Responder → Option (Api × Delivery) := fun _ => none
  answer : Responder → Option (Api × Delivery) := fun _ => none

/-- Follows the deliveries: into a sync slot or a channel by the call in progress on a
thread, and on from there when `handle` takes them. -/
def Engine.trace (s : Engine) (a : Act) (t : Engine) (o : Origins) : Origins :=
  match a with
  | .enter w api => { o with call := Function.update o.call w (some api) }
  | .call w => match (s.threads w).call with
    | .deliver _ own =>
      if (s.threads w).syncResponse = none ∧ (t.threads w).syncResponse = some own then
        { o with slot := Function.update o.slot w ((o.call w).map (·, own)) }
      else o
    | .send r _ payload =>
      if (s.channels r).receiver then
        { o with channel := Function.update o.channel r ((o.call w).map (·, payload)) }
      else o
    | _ => o
  | .handle r => match s.handles r with
    | .takeSync w => { o with answer := Function.update o.answer r (o.slot w) }
    | .await => { o with answer := Function.update o.answer r (o.channel r) }
    | _ => o
  | _ => o

def MadeFor (r : Responder) (d : Delivery) (place : Option (Api × Delivery)) : Prop :=
  ∃ api, place = some (api, d) ∧ api.answers r = true

structure Engine.Sourced (s : Engine) (o : Origins) : Prop where
  call : ∀ w r, (s.threads w).call.target = some r → ∃ api, o.call w = some api ∧ api.answers r = true
  slot : ∀ w d q, (s.threads w).syncResponse = some d → (s.handles q).thread = some w → MadeFor q d (o.slot w)
  channel : ∀ r d, (s.channels r).sent = some d → MadeFor r d (o.channel r)
  answer : ∀ r d, (s.handles r).ending = some (.answered d) → MadeFor r d (o.answer r)

theorem Engine.Sourced.init : ({} : Engine).Sourced {} where
  call _ _ h := by cases h
  slot _ _ _ h := by cases h
  channel _ _ h := by cases h
  answer _ _ h := by cases h

section Steps
variable {s t : Engine} {o o' : Origins} {w : ThreadId} {r : Responder}

theorem Engine.Sourced.called (hs : s.Sourced o) {X : Thread} (threads : t.threads = Function.update s.threads w X)
    (handles : t.handles = s.handles) (answer : o'.answer = o.answer)
    (others : ∀ u, u ≠ w → o'.call u = o.call u ∧ o'.slot u = o.slot u)
    (call : ∀ r, X.call.target = some r → ∃ api, o'.call w = some api ∧ api.answers r = true)
    (slot : ∀ d q, X.syncResponse = some d → (s.handles q).thread = some w → MadeFor q d (o'.slot w))
    (channel : ∀ r d, (t.channels r).sent = some d → MadeFor r d (o'.channel r)) : t.Sourced o' := by
  refine ⟨fun u r hu => ?_, fun u d q hu hq => ?_, channel, fun q d hq => ?_⟩
  · rw [threads] at hu
    by_cases huw : u = w
    · subst huw
      rw [Function.update_self] at hu
      exact call r hu
    · rw [Function.update_of_ne huw] at hu
      rw [(others u huw).1]
      exact hs.call u r hu
  · rw [threads] at hu
    rw [handles] at hq
    by_cases huw : u = w
    · subst huw
      rw [Function.update_self] at hu
      exact slot d q hu hq
    · rw [Function.update_of_ne huw] at hu
      rw [(others u huw).2]
      exact hs.slot u d q hu hq
  · rw [handles] at hq
    rw [answer]
    exact hs.answer q d hq

theorem Engine.Sourced.handled (hs : s.Sourced o) {pc : HandlePc} (handles : t.handles = Function.update s.handles r pc)
    (threads : ∀ u, (t.threads u).call = (s.threads u).call ∧
      ∀ d, (t.threads u).syncResponse = some d → (s.threads u).syncResponse = some d)
    (thread : ∀ u, pc.thread = some u → (s.handles r).thread = some u)
    (channels : ∀ q d, (t.channels q).sent = some d → (s.channels q).sent = some d)
    (same : o'.call = o.call ∧ o'.slot = o.slot ∧ o'.channel = o.channel)
    (others : ∀ q, q ≠ r → o'.answer q = o.answer q)
    (answer : ∀ d, pc.ending = some (.answered d) → MadeFor r d (o'.answer r)) : t.Sourced o' := by
  obtain ⟨hcall, hslot, hchannel⟩ := same
  refine ⟨fun u q hu => ?_, fun u d q hu hq => ?_, fun q d hq => ?_, fun q d hq => ?_⟩
  · rw [(threads u).1] at hu
    rw [hcall]
    exact hs.call u q hu
  · rw [hslot]
    refine hs.slot u d q ((threads u).2 d hu) ?_
    rw [handles] at hq
    by_cases hqr : q = r
    · subst hqr
      rw [Function.update_self] at hq
      exact thread u hq
    · rwa [Function.update_of_ne hqr] at hq
  · rw [hchannel]
    exact hs.channel q d (channels q d hq)
  · rw [handles] at hq
    by_cases hqr : q = r
    · subst hqr
      rw [Function.update_self] at hq
      exact answer d hq
    · rw [Function.update_of_ne hqr] at hq
      rw [others q hqr]
      exact hs.answer q d hq

theorem sent_update {c : Channel} (hc : c.sent = none ∨ c.sent = (s.channels r).sent) (q : Responder)
    (d : Delivery) (hq : (Function.update s.channels r c q).sent = some d) : (s.channels q).sent = some d := by
  by_cases hqr : q = r
  · subst hqr
    rw [Function.update_self] at hq
    rcases hc with hc | hc
    · rw [hc] at hq
      cases hq
    · rwa [hc] at hq
  · rwa [Function.update_of_ne hqr] at hq

theorem thread_update {X : Thread} (hcall : X.call = (s.threads w).call)
    (hslot : X.syncResponse = none ∨ X.syncResponse = (s.threads w).syncResponse) (u : ThreadId) :
    (Function.update s.threads w X u).call = (s.threads u).call ∧
      ∀ d, (Function.update s.threads w X u).syncResponse = some d → (s.threads u).syncResponse = some d := by
  by_cases huw : u = w
  · subst huw
    rw [Function.update_self]
    refine ⟨hcall, fun d hd => ?_⟩
    rcases hslot with hslot | hslot
    · rw [hslot] at hd
      cases hd
    · rwa [hslot] at hd
  · rw [Function.update_of_ne huw]
    exact ⟨rfl, fun _ hd => hd⟩

/-- The end of the `await`: what it answers with came through the channel. -/
private theorem sourced_endAwait (hs : s.Sourced o) (e : Ending)
    (hsent : ∀ d, e = .answered d → (s.channels r).sent = some d) :
    (s.endAwait r e).Sourced { o with answer := Function.update o.answer r (o.channel r) } := by
  refine hs.handled rfl (fun u => ⟨rfl, fun _ hd => hd⟩) (fun u hu => (by cases hu))
    (sent_update (.inr rfl)) ⟨rfl, rfl, rfl⟩ (fun q hq => Function.update_of_ne hq _ _) fun d hd => ?_
  show MadeFor r d (Function.update o.answer r (o.channel r) r)
  rw [Function.update_self]
  exact hs.channel r d (hsent d (Option.some.inj hd))

private theorem sourced_serve (hs : s.Sourced o) (h : s.serve r = some t) :
    t.Sourced (s.trace (.handle r) t o) := by
  have same : ∀ u, (s.threads u).call = (s.threads u).call ∧
      ∀ d, (s.threads u).syncResponse = some d → (s.threads u).syncResponse = some d := fun _ => ⟨rfl, fun _ hd => hd⟩
  have ending : ∀ {e : Ending} {d : Delivery}, (s.handles r).ending = some e → some e = some (.answered d) →
      MadeFor r d (o.answer r) := fun he hd => hs.answer r _ (he.trans hd)
  cases hpc : s.handles r with
  | insertPending w =>
    simp only [Engine.serve, hpc] at h
    simp only [Engine.trace, hpc]
    cases h
    exact hs.handled rfl same (fun u hu => by rw [hpc]; exact hu) (sent_update (.inl rfl)) ⟨rfl, rfl, rfl⟩
      (fun _ _ => rfl) fun d hd => (by cases hd)
  | setCallback w | clearCallback w =>
    simp only [Engine.serve, hpc] at h
    simp only [Engine.trace, hpc]
    cases h
    exact hs.handled rfl (thread_update rfl (.inr rfl)) (fun u hu => by rw [hpc]; exact hu) (fun _ _ hd => hd)
      ⟨rfl, rfl, rfl⟩ (fun _ _ => rfl) fun d hd => (by cases hd)
  | inCallback w =>
    simp only [Engine.serve, hpc] at h
    simp only [Engine.trace, hpc]
    split at h <;> cases h
    exact hs.handled rfl same (fun u hu => by rw [hpc]; exact hu) (fun _ _ hd => hd) ⟨rfl, rfl, rfl⟩
      (fun _ _ => rfl) fun d hd => (by cases hd)
  | takeSync w =>
    simp only [Engine.serve, hpc] at h
    simp only [Engine.trace, hpc]
    have others : ∀ q, q ≠ r → Function.update o.answer r (o.slot w) q = o.answer q :=
      fun q hq => Function.update_of_ne hq _ _
    split at h <;> cases h
    · rename_i d hd
      refine hs.handled rfl (thread_update rfl (.inl rfl)) (fun u hu => (by cases hu)) (fun _ _ hd => hd)
        ⟨rfl, rfl, rfl⟩ others fun d' hd' => ?_
      cases hd'
      show MadeFor r d (Function.update o.answer r (o.slot w) r)
      rw [Function.update_self]
      exact hs.slot w d r hd (by rw [hpc]; rfl)
    · exact hs.handled rfl (thread_update rfl (.inr rfl)) (fun u hu => (by cases hu)) (fun _ _ hd => hd)
        ⟨rfl, rfl, rfl⟩ others fun d hd => (by cases hd)
  | await =>
    simp only [Engine.serve, hpc] at h
    simp only [Engine.trace, hpc]
    split at h
    · rename_i d hd
      cases h
      refine sourced_endAwait hs _ fun d' he => ?_
      cases he
      exact hd
    · split at h <;> cases h
      exact sourced_endAwait hs _ fun d he => (by cases he)
  | removePending e | dropReceiver e =>
    simp only [Engine.serve, hpc] at h
    simp only [Engine.trace, hpc]
    cases h
    exact hs.handled rfl same (fun u hu => (by cases hu)) (sent_update (.inr rfl)) ⟨rfl, rfl, rfl⟩ (fun _ _ => rfl)
      fun d hd => ending (by rw [hpc]; rfl) hd
  | unborn | done e =>
    simp only [Engine.serve, hpc] at h
    cases h

/-- What a step of a call does: it moves on, fills the sync slot of its thread, or sends. -/
inductive Engine.Called (s : Engine) (w : ThreadId) (o : Origins) (t : Engine) : Prop
  | onward (pc : CallPc) (threads : t.threads = Function.update s.threads w { s.threads w with call := pc })
      (handles : t.handles = s.handles) (channels : ∀ q d, (t.channels q).sent = some d → (s.channels q).sent = some d)
      (target : pc.target = none ∨ pc.target = (s.threads w).call.target) (trace : s.trace (.call w) t o = o)
  | sync (r : Responder) (own : Delivery) (pc : (s.threads w).call = .deliver r own)
      (inside : (s.threads w).inCallback = r)
      (threads : t.threads =
        Function.update s.threads w { s.threads w with syncResponse := some own, call := .returned .ok })
      (handles : t.handles = s.handles) (channels : t.channels = s.channels)
      (trace : s.trace (.call w) t o = { o with slot := Function.update o.slot w ((o.call w).map (·, own)) })
  | sent (r : Responder) (own payload : Delivery) (pc : (s.threads w).call = .send r own payload)
      (threads : t.threads = Function.update s.threads w { s.threads w with call := .returned .ok })
      (handles : t.handles = s.handles)
      (channels : t.channels = Function.update s.channels r { s.channels r with sent := some payload, sender := false })
      (trace : s.trace (.call w) t o = { o with channel := Function.update o.channel r ((o.call w).map (·, payload)) })

private theorem refused_target (r : Responder) (own : Delivery) : (own.refused r).target = none := by
  cases own <;> rfl

theorem Engine.advance_called {cfg : Config} (h : s.advance cfg w = some t) (o : Origins) : s.Called w o t := by
  have keep : ∀ q d, (s.channels q).sent = some d → (s.channels q).sent = some d := fun _ _ hd => hd
  cases hpc : (s.threads w).call with
  | deliver r own =>
    simp only [Engine.advance, hpc] at h
    split at h
    case isTrue inside =>
      split at h <;> cases h
      case h_1 slot =>
        refine .sync r own hpc inside rfl rfl rfl ?_
        simp [Engine.trace, hpc, slot, Engine.setThread, Engine.accept]
      case h_2 d slot => exact .onward _ rfl rfl keep (by rw [hpc]; exact .inr rfl) (by simp [Engine.trace, hpc, slot])
    case isFalse inside =>
      cases h
      refine .onward _ rfl rfl keep (by rw [hpc]; exact .inr rfl) ?_
      simp only [Engine.trace, hpc]
      refine if_neg fun hslot => ?_
      have hboth : (s.threads w).syncResponse = some own := by simpa [Engine.setCall, Engine.setThread] using hslot.2
      rw [hslot.1] at hboth
      cases hboth
  | send r own payload =>
    simp only [Engine.advance, hpc] at h
    split at h
    case isTrue receiver =>
      cases h
      exact .sent r own payload hpc rfl rfl rfl (by simp [Engine.trace, hpc, receiver])
    case isFalse receiver =>
      cases h
      exact .onward _ rfl rfl (sent_update (.inr rfl)) (.inl (refused_target r own))
        (by simp [Engine.trace, hpc, receiver])
  | takePending r own payload =>
    simp only [Engine.advance, hpc] at h
    split at h <;> cases h
    · exact .onward _ rfl rfl keep (by rw [hpc]; exact .inr rfl) (by simp only [Engine.trace, hpc])
    · exact .onward _ rfl rfl keep (.inl (refused_target r own)) (by simp only [Engine.trace, hpc])
  | checkStreams r own =>
    simp only [Engine.advance, hpc] at h
    cases h
    refine .onward _ rfl rfl keep ?_ (by simp only [Engine.trace, hpc])
    rw [hpc]
    split
    · exact .inl rfl
    · exact .inr rfl
  | claimStream r status headers =>
    simp only [Engine.advance, hpc] at h
    split at h <;> cases h
    · exact .onward _ rfl rfl keep (.inl rfl) (by simp only [Engine.trace, hpc])
    · exact .onward _ rfl rfl keep (by rw [hpc]; exact .inr rfl) (by simp only [Engine.trace, hpc])
  | idle =>
    simp only [Engine.advance, hpc] at h
    cases h
  | releaseStream r | getSender r chunk | trySend i chunk | blockingSend i chunk | removeStream r | returned code =>
    simp only [Engine.advance, hpc] at h
    repeat' split at h
    all_goals cases h
    all_goals exact .onward _ rfl rfl keep (.inl rfl) (by simp only [Engine.trace, hpc])

private theorem sourced_advance {cfg : Config} (ho : s.Orderly) (hs : s.Sourced o) (h : s.advance cfg w = some t) :
    t.Sourced (s.trace (.call w) t o) := by
  have same : ∀ u, u ≠ w → o.call u = o.call u ∧ o.slot u = o.slot u := fun _ _ => ⟨rfl, rfl⟩
  cases Engine.advance_called h o with
  | onward pc threads handles channels target trace =>
    rw [trace]
    refine hs.called threads handles rfl same (fun r hr => ?_) (fun d q => hs.slot w d q)
      fun r d hd => hs.channel r d (channels r d hd)
    rcases target with htarget | htarget
    · have hnone : pc.target = some r := hr
      rw [htarget] at hnone
      cases hnone
    · exact hs.call w r (htarget ▸ hr)
  | sync r own pc inside threads handles channels trace =>
    rw [trace]
    have hin : s.handles r = .inCallback w := ho.inside (by rw [pc]; rfl) inside
    obtain ⟨api, hapi, hfor⟩ := hs.call w r (by rw [pc]; rfl)
    refine hs.called threads handles rfl (fun u hu => ⟨rfl, Function.update_of_ne hu _ _⟩) (fun q hq => (by cases hq))
      (fun d q hd hq => ?_) fun q d hd => hs.channel q d (by rwa [channels] at hd)
    obtain rfl : q = r := Orderly.sole ho (by rw [hin]; rfl) hq
    cases hd
    refine ⟨api, ?_, hfor⟩
    show Function.update o.slot w ((o.call w).map (·, own)) w = some (api, own)
    rw [Function.update_self, hapi, Option.map_some]
  | sent r own payload pc threads handles channels trace =>
    rw [trace]
    obtain ⟨api, hapi, hfor⟩ := hs.call w r (by rw [pc]; rfl)
    refine hs.called threads handles rfl same (fun q hq => (by cases hq)) (fun d q => hs.slot w d q) fun q d hd => ?_
    rw [channels] at hd
    show MadeFor q d (Function.update o.channel r ((o.call w).map (·, payload)) q)
    by_cases hqr : q = r
    · subst hqr
      rw [Function.update_self] at hd ⊢
      cases hd
      exact ⟨api, by rw [hapi, Option.map_some], hfor⟩
    · rw [Function.update_of_ne hqr] at hd ⊢
      exact hs.channel q d hd

/-- The calls that may deliver to `r` are the ones made for `r`. -/
private theorem start_answers {http : HttpTypes} {api : Api} (h : (api.start http).target = some r) :
    api.answers r = true := by
  cases api with
  | respond q status headers body | begin q status headers =>
    simp only [Api.start] at h
    split at h <;> cases h
    exact decide_eq_true rfl
  | write q chunk | finish q =>
    simp only [Api.start] at h
    split at h <;> cases h

theorem Engine.Sourced.step {cfg : Config} {a : Act} (ho : s.Orderly) (hs : s.Sourced o)
    (h : s.step cfg a = some t) : t.Sourced (s.trace a t o) := by
  cases a with
  | handle r => exact sourced_serve hs h
  | call w => exact sourced_advance ho hs h
  | enter w api =>
    simp only [Engine.step] at h
    split at h <;> cases h
    refine hs.called rfl rfl rfl (fun u hu => ⟨Function.update_of_ne hu _ _, rfl⟩) (fun r hr => ?_)
      (fun d q => hs.slot w d q) hs.channel
    exact ⟨api, Function.update_self .., start_answers hr⟩
  | request w =>
    simp only [Engine.step] at h
    split at h <;> cases h
    rename_i hw
    have hempty : (s.threads w).syncResponse = none := Orderly.vacant ho hw.2.1
    refine ⟨fun u r hu => ?_, fun u d q hu hq => ?_, hs.channel, fun q d hq => ?_⟩
    · have hcall : (Function.update s.threads w { s.threads w with serving := some s.nextId } u).call =
          (s.threads u).call := update_part (f := Thread.call) (by rfl) u
      exact hs.call u r (hcall ▸ hu)
    · have hslot : (Function.update s.threads w { s.threads w with serving := some s.nextId } u).syncResponse =
          (s.threads u).syncResponse := update_part (f := Thread.syncResponse) (by rfl) u
      have hu : (s.threads u).syncResponse = some d := hslot.symm.trans hu
      have hq : (Function.update s.handles s.nextId (.insertPending w) q).thread = some u := hq
      by_cases hqn : q = s.nextId
      · subst hqn
        rw [Function.update_self] at hq
        cases hq
        rw [hempty] at hu
        cases hu
      · rw [Function.update_of_ne hqn] at hq
        exact hs.slot u d q hu hq
    · have hq : (Function.update s.handles s.nextId (.insertPending w) q).ending = some (.answered d) := hq
      by_cases hqn : q = s.nextId
      · subst hqn
        rw [Function.update_self] at hq
        cases hq
      · rw [Function.update_of_ne hqn] at hq
        exact hs.answer q d hq
  | disconnect r =>
    simp only [Engine.step] at h
    split at h <;> cases h
    exact hs.handled rfl (fun u => ⟨rfl, fun _ hd => hd⟩) (fun u hu => (by cases hu)) (sent_update (.inr rfl))
      ⟨rfl, rfl, rfl⟩ (fun _ _ => rfl) fun d hd => (by cases hd)
  | poll i =>
    simp only [Engine.step] at h
    split at h <;> cases h
    exact ⟨hs.call, hs.slot, hs.channel, hs.answer⟩
  | dropBody i =>
    cases h
    exact ⟨hs.call, hs.slot, hs.channel, hs.answer⟩

end Steps

abbrev Engine.Traced (cfg : Config) (as : List Act) (p : Engine × Origins) : Prop :=
  Run (observe (Engine.step cfg) Engine.trace) anyStep ({}, {}) as p

theorem Engine.Traced.sourced {cfg : Config} {as : List Act} {p : Engine × Origins} (h : Engine.Traced cfg as p) :
    p.1.Orderly ∧ p.1.Sourced p.2 := by
  refine Run.invariant (I := fun p => p.1.Orderly ∧ p.1.Sourced p.2) h (fun p a q _ hs hstep => ?_) ⟨.init, .init⟩
  obtain ⟨hmove, hnote⟩ := observe_eq_some hstep
  rw [hnote]
  exact ⟨Engine.Orderly.step hs.1 (Engine.step_cases hmove hs.1.target), hs.2.step hs.1 hmove⟩

/-- `handle` has set `IN_CALLBACK` on thread `w` and has not taken the sync slot yet. -/
def HandlePc.callsBack (w : ThreadId) : HandlePc → Bool
  | .inCallback u | .clearCallback u | .takeSync u => decide (u = w)
  | _ => false

/-- In every run, a delivery that `handle` for `r` answers with was made by a `respond` or
`begin` with argument `r`, and the sync slot of a thread is empty between callbacks. -/
theorem delivery_made_for_request {cfg : Config} {as : List Act} {p : Engine × Origins} (h : Engine.Traced cfg as p) :
    (∀ r d, (p.1.handles r).delivery = some d → ∃ api, p.2.answer r = some (api, d) ∧ api.answers r = true) ∧
      ∀ w, (∀ q, (p.1.handles q).callsBack w = false) → (p.1.threads w).syncResponse = none := by
  obtain ⟨ho, hs⟩ := h.sourced
  constructor
  · intro r d hd
    refine hs.answer r d ?_
    unfold HandlePc.delivery at hd
    split at hd <;> cases hd
    assumption
  · intro w hw
    by_contra hd
    obtain ⟨q, hq⟩ := ho.slot w hd
    have hnot := hw q
    rcases hq with hq | hq | hq <;> rw [hq] at hnot <;> exact of_decide_eq_false hnot rfl

def secondRequest : List Act := inRequest ++ List.replicate 3 (Act.handle 1) ++ [Act.request 0, .handle 2, .handle 2]

/-- The callback of request 2 answers request 1 first, and then its own. -/
theorem delivery_made_for_request_crossed : ∃ p, Engine.Traced engineConfig (secondRequest ++
      Act.enter 0 (.respond 1 201 (.null 0) (.null 0)) :: List.replicate 5 (.call 0) ++
      Act.enter 0 (.respond 2 202 (.null 0) (.null 0)) :: List.replicate 3 (.call 0) ++
      List.replicate 3 (Act.handle 2) ++ [Act.handle 1]) p ∧
    ((p.1.handles 1).delivery = some (.buffered ⟨201, [], []⟩) ∧
      ∃ api, p.2.answer 1 = some (api, .buffered ⟨201, [], []⟩) ∧ api.answers 1 = true) ∧
    ((p.1.handles 2).delivery = some (.buffered ⟨202, [], []⟩) ∧
      ∃ api, p.2.answer 2 = some (api, .buffered ⟨202, [], []⟩) ∧ api.answers 2 = true) := by
  have hrun : (replay (observe (Engine.step engineConfig) Engine.trace) anyStep ({}, {}) (secondRequest ++
      Act.enter 0 (.respond 1 201 (.null 0) (.null 0)) :: List.replicate 5 (.call 0) ++
      Act.enter 0 (.respond 2 202 (.null 0) (.null 0)) :: List.replicate 3 (.call 0) ++
      List.replicate 3 (Act.handle 2) ++ [Act.handle 1])).any (fun p =>
        decide ((p.1.handles 1).delivery = some (.buffered ⟨201, [], []⟩) ∧
          (p.1.handles 2).delivery = some (.buffered ⟨202, [], []⟩))) = true := by decide
  obtain ⟨p, hp, hd⟩ := (Option.any_eq_true _ _).mp hrun
  obtain ⟨hone, htwo⟩ := of_decide_eq_true hd
  have h := (delivery_made_for_request (run_of_replay hp)).1
  exact ⟨p, run_of_replay hp, ⟨hone, h 1 _ hone⟩, htwo, h 2 _ htwo⟩

end Hyper4k.Server
