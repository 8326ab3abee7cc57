import Hyper4k.Server.StreamOwner

/-! What a request is answered with: the status, headers and body that some call on its responder
was made with, and never the notice that the sync slot was busy. -/
namespace Hyper4k.Server
open Runs

/-- The delivery that a call describes; a `begin` before it has opened its stream describes any. -/
def Api.Describes (http : HttpTypes) (d : Delivery) : Api → Prop
  | .respond _ status headers body => d = .buffered ⟨status, parseHeaders http headers.read, body.read⟩
  | .begin _ status headers => ∃ i, d = .stream ⟨status, parseHeaders http headers.read, i⟩
  | .write .. | .finish _ => False

def CallPc.Brings (r : Responder) (d : Delivery) : CallPc → Prop
  | .checkStreams q own | .deliver q own | .takePending q own _ | .send q own _ => q = r ∧ d = own
  | .claimStream q status headers => q = r ∧ ∃ i, d = .stream ⟨status, headers, i⟩
  | _ => False

theorem start_brings {http : HttpTypes} {api : Api} {r : Responder} {d : Delivery}
    (h : (api.start http).Brings r d) : api.responder = r ∧ api.Describes http d := by
  cases api with
  | respond q status headers body | begin q status headers =>
    simp only [Api.start] at h
    split at h
    · exact h.elim
    · exact h
  | write q chunk | finish q =>
    simp only [Api.start] at h
    split at h <;> exact h.elim

theorem refused_brings (q : Responder) (own : Delivery) {r : Responder} {d : Delivery} :
    ¬ (own.refused q).Brings r d := by
  cases own <;> exact id

/-- The sync slot of its thread has decided what the request is answered with, or it has ended. -/
def Engine.spent (s : Engine) (r : Responder) : Bool :=
  match s.handles r with
  | .inCallback w | .clearCallback w | .takeSync w => (s.threads w).syncResponse.isSome
  | pc => pc.ending.isSome

def Engine.Taken (Made : Responder → Delivery → Prop) (s : Engine) (r : Responder) (d : Delivery) : Prop :=
  Made r d ∧ d ∈ s.accepted r

/-- Every delivery on its way to a request is one that was made for it, except that a call which
finds the sync slot taken sends a notice nobody is going to read. -/
structure Engine.Given (Made : Responder → Delivery → Prop) (s : Engine) : Prop where
  calls : ∀ w r d, (s.threads w).call.Brings r d → Made r d
  sends : ∀ w r own payload, (s.threads w).call = .send r own payload →
    payload = own ∨ (s.threads w).inCallback = r ∧ (s.threads w).syncResponse ≠ none
  slot : ∀ w r d, (s.threads w).syncResponse = some d → (s.handles r).thread = some w → s.Taken Made r d
  sent : ∀ r d, (s.channels r).sent = some d → s.Taken Made r d ∨ s.spent r = true
  answer : ∀ r d, (s.handles r).ending = some (.answered d) → s.Taken Made r d

section Steps
variable {Made Made' : Responder → Delivery → Prop} {s t : Engine} {w : ThreadId} {r : Responder}

theorem Engine.Given.init (Made : Responder → Delivery → Prop) : ({} : Engine).Given Made where
  calls _ _ _ h := h.elim
  sends _ _ _ _ h := nomatch h
  slot _ _ _ h := nomatch h
  sent _ _ h := nomatch h
  answer _ _ h := nomatch h

theorem Engine.Given.mono (hs : s.Given Made) (h : ∀ r d, Made r d → Made' r d) : s.Given Made' where
  calls w r d hd := h r d (hs.calls w r d hd)
  sends := hs.sends
  slot w r d hd hr := (hs.slot w r d hd hr).imp_left (h r d)
  sent r d hd := (hs.sent r d hd).imp_left (And.imp_left (h r d))
  answer r d hd := (hs.answer r d hd).imp_left (h r d)

/-- A call brings nothing that it was not made with. -/
theorem Engine.advance_brings {cfg : Config} (h : s.advance cfg w = some t) :
    ∃ X, t.threads = Function.update s.threads w X ∧ ∀ q d, X.call.Brings q d → (s.threads w).call.Brings q d := by
  unfold Engine.advance at h
  split at h
  case h_1 => cases h
  case h_2 q own pc =>
    cases h
    refine ⟨_, rfl, fun q d hd => ?_⟩
    rw [pc]
    dsimp only at hd
    split at hd
    · exact hd.elim
    · exact hd
  case h_3 q status headers pc =>
    split at h <;> cases h
    · exact ⟨_, rfl, fun q d hd => hd.elim⟩
    · refine ⟨_, rfl, fun q d hd => ?_⟩
      rw [pc]
      exact ⟨hd.1, _, hd.2⟩
  case h_4 q own pc =>
    have hsame : ∀ r d payload, (CallPc.takePending q own payload).Brings r d → (s.threads w).call.Brings r d := by
      intro r d payload hd
      rw [pc]
      exact hd
    split at h
    · split at h <;> cases h
      · exact ⟨_, rfl, fun q d hd => hd.elim⟩
      · exact ⟨_, rfl, fun q d hd => hsame q d _ hd⟩
    · cases h
      exact ⟨_, rfl, fun q d hd => hsame q d _ hd⟩
  case h_5 q own payload pc =>
    split at h <;> cases h
    · refine ⟨_, rfl, fun q d hd => ?_⟩
      rw [pc]
      exact hd
    · exact ⟨_, rfl, fun q d hd => absurd hd (refused_brings _ own)⟩
  case h_6 q own payload pc =>
    split at h <;> cases h
    · exact ⟨_, rfl, fun q d hd => hd.elim⟩
    · exact ⟨_, rfl, fun q d hd => absurd hd (refused_brings _ own)⟩
  all_goals
    repeat' split at h
    all_goals cases h
    all_goals exact ⟨_, rfl, fun q d hd => hd.elim⟩

theorem Engine.spent_mono {q : Responder} (handle : t.handles q = s.handles q)
    (slot : ∀ u, (s.handles q).thread = some u → (s.threads u).syncResponse.isSome = true →
      (t.threads u).syncResponse.isSome = true) (h : s.spent q = true) : t.spent q = true := by
  unfold Engine.spent at h ⊢
  rw [handle]
  split at h
  case h_1 u pc | h_2 u pc | h_3 u pc => exact slot u (by rw [pc]; rfl) h
  case h_4 => exact h

/-- A step of `handle` for `r`. Where it changes a thread, no call is in progress there. -/
theorem Engine.Given.handled (hs : s.Given Made) {pc : HandlePc} (handles : t.handles = Function.update s.handles r pc)
    (call : ∀ u, (t.threads u).call = (s.threads u).call)
    (busy : ∀ u, (s.threads u).call ≠ .idle → t.threads u = s.threads u)
    (slot : ∀ u d, (t.threads u).syncResponse = some d → (s.threads u).syncResponse = some d)
    (others : ∀ q u, q ≠ r → (s.handles q).thread = some u → (t.threads u).syncResponse = (s.threads u).syncResponse)
    (thread : ∀ u, pc.thread = some u → (s.handles r).thread = some u ∨ (t.threads u).syncResponse = none)
    (sent : ∀ q d, (t.channels q).sent = some d → (s.channels q).sent = some d)
    (spent : s.spent r = true → t.spent r = true) (accepted : t.accepted = s.accepted)
    (answer : ∀ d, pc.ending = some (.answered d) → s.Taken Made r d) : t.Given Made := by
  have hsame : t.Taken Made = s.Taken Made := by
    unfold Engine.Taken
    rw [accepted]
  refine ⟨fun u q d hd => hs.calls u q d (call u ▸ hd), fun u q own payload hu => ?_, fun u q d hd hq => ?_,
    fun q d hd => ?_, fun q d hd => ?_⟩
  · rw [call u] at hu
    rw [busy u (by rw [hu]; exact fun h => (by cases h))]
    exact hs.sends u q own payload hu
  · rw [hsame]
    refine hs.slot u q d (slot u d hd) ?_
    rw [handles] at hq
    by_cases hqr : q = r
    · subst hqr
      rw [Function.update_self] at hq
      refine (thread u hq).resolve_right fun hnone => ?_
      rw [hnone] at hd
      cases hd
    · rwa [Function.update_of_ne hqr] at hq
  · rw [hsame]
    refine (hs.sent q d (sent q d hd)).imp_right fun hspent => ?_
    by_cases hqr : q = r
    · subst hqr
      exact spent hspent
    · refine Engine.spent_mono (by rw [handles, Function.update_of_ne hqr]) (fun u hu hsome => ?_) hspent
      rw [others q u hqr hu]
      exact hsome
  · rw [hsame]
    rw [handles] at hd
    by_cases hqr : q = r
    · subst hqr
      rw [Function.update_self] at hd
      exact answer d hd
    · rw [Function.update_of_ne hqr] at hd
      exact hs.answer q d hd

/-- A step of the call on thread `w`, which may fill the slot of the thread or the channel of `r`. -/
theorem Engine.Given.called (hs : s.Given Made) {X : Thread} (threads : t.threads = Function.update s.threads w X)
    (handles : t.handles = s.handles) (calls : ∀ u q d, (t.threads u).call.Brings q d → Made q d)
    (sends : ∀ q own payload, X.call = .send q own payload → payload = own ∨ X.inCallback = q ∧ X.syncResponse ≠ none)
    (accepted : ∀ q d, d ∈ s.accepted q → d ∈ t.accepted q)
    (slot : X.syncResponse = (s.threads w).syncResponse ∨
      ∃ own, X.syncResponse = some own ∧ ∀ q, (s.handles q).thread = some w → t.Taken Made q own)
    (sent : ∀ q d, (t.channels q).sent = some d →
      (s.channels q).sent = some d ∨ t.Taken Made q d ∨ s.spent q = true) : t.Given Made := by
  have hgrow : ∀ {q d}, s.Taken Made q d → t.Taken Made q d := And.imp_right (accepted _ _)
  have hkept : ∀ u, (s.threads u).syncResponse.isSome = true → (t.threads u).syncResponse.isSome = true := by
    intro u hu
    rw [threads]
    by_cases huw : u = w
    · subst huw
      rw [Function.update_self]
      rcases slot with h | ⟨own, h, -⟩ <;> rw [h]
      · exact hu
      · rfl
    · rwa [Function.update_of_ne huw]
  refine ⟨calls, ?_, fun u q d hd hq => ?_, fun q d hd => ?_, ?_⟩
  · rw [threads]
    exact forall_update (Q := fun _ (X : Thread) => ∀ q own payload, X.call = .send q own payload →
      payload = own ∨ X.inCallback = q ∧ X.syncResponse ≠ none) sends fun u _ => hs.sends u
  · rw [handles] at hq
    rw [threads] at hd
    by_cases huw : u = w
    · subst huw
      rw [Function.update_self] at hd
      rcases slot with h | ⟨own, h, hmade⟩
      · exact hgrow (hs.slot u q d (h ▸ hd) hq)
      · rw [h] at hd
        cases hd
        exact hmade q hq
    · rw [Function.update_of_ne huw] at hd
      exact hgrow (hs.slot u q d hd hq)
  · have hspent := Engine.spent_mono (s := s) (congrFun handles q) fun u _ => hkept u
    rcases sent q d hd with hold | hmade | hold
    · exact (hs.sent q d hold).imp hgrow hspent
    · exact .inl hmade
    · exact .inr (hspent hold)
  · rw [handles]
    exact fun q d hd => hgrow (hs.answer q d hd)

theorem mem_accept (s : Engine) (r : Responder) (own : Delivery) (q : Responder) (d : Delivery)
    (h : d ∈ s.accepted q) : d ∈ (s.accept r own).accepted q := by
  change d ∈ Function.update s.accepted r (s.accepted r ++ [own]) q
  by_cases hq : q = r
  · subst hq
    rw [Function.update_self]
    exact List.mem_append_left _ h
  · rwa [Function.update_of_ne hq]

theorem mem_accept_self (s : Engine) (r : Responder) (own : Delivery) : own ∈ (s.accept r own).accepted r := by
  change own ∈ Function.update s.accepted r (s.accepted r ++ [own]) r
  rw [Function.update_self]
  exact List.mem_append_right _ (List.mem_singleton_self own)

theorem Engine.Given.step {a : Act} (ho : s.Orderly) (hs : s.Given Made) (h : s.Stepped a t)
    (calls : ∀ u q d, (t.threads u).call.Brings q d → Made q d) : t.Given Made := by
  have thread : ∀ {r : Responder} {t : Engine} {pc pc' : HandlePc}, s.handles r = pc → pc'.thread = pc.thread → ∀ u,
      pc'.thread = some u → (s.handles r).thread = some u ∨ (t.threads u).syncResponse = none :=
    fun hr hpc u hu => .inl (by rw [hr, ← hpc, hu])
  have off : ∀ {t : Engine} {pc : HandlePc} {r : Responder}, pc.thread = none → ∀ u, pc.thread = some u →
      (s.handles r).thread = some u ∨ (t.threads u).syncResponse = none := fun hpc u hu => by
    rw [hpc] at hu
    cases hu
  have early : ∀ {r : Responder} {t : Engine}, s.spent r = false → s.spent r = true → t.spent r = true :=
    fun hfalse htrue => by
      rw [hfalse] at htrue
      cases htrue
  have own : ∀ {r : Responder} {w : ThreadId} {X : Thread}, (s.handles r).thread = some w →
      s.handles r ≠ .inCallback w → X.call = (s.threads w).call →
      (∀ u, (Function.update s.threads w X u).call = (s.threads u).call) ∧
      (∀ u, (s.threads u).call ≠ .idle → Function.update s.threads w X u = s.threads u) ∧
      ∀ q u, q ≠ r → (s.handles q).thread = some u →
        (Function.update s.threads w X u).syncResponse = (s.threads u).syncResponse := by
    intro r w X hr hout hX
    refine ⟨update_part (f := Thread.call) hX, fun u hu => Function.update_of_ne ?_ _ _, fun q u hq hu => ?_⟩
    · rintro rfl
      exact hu (Orderly.idle ho hr hout)
    · refine congrArg Thread.syncResponse (Function.update_of_ne ?_ _ _)
      rintro rfl
      exact hq (Orderly.sole ho hr hu)
  have slot : ∀ {w : ThreadId} {X : Thread}, X.call = (s.threads w).call →
      X.syncResponse = none ∨ X.syncResponse = (s.threads w).syncResponse →
      ∀ u d, (Function.update s.threads w X u).syncResponse = some d → (s.threads u).syncResponse = some d :=
    fun hcall hslot u => (thread_update hcall hslot u).2
  cases h with
  | request w free idle =>
    have hempty : (s.threads w).syncResponse = none := Orderly.vacant ho free
    have hborn : s.handles s.nextId = .unborn := ho.fresh _ (Nat.le_refl _)
    have hslot : ∀ u, (Function.update s.threads w { s.threads w with serving := some s.nextId } u).syncResponse =
        (s.threads u).syncResponse := update_part (f := Thread.syncResponse) rfl
    refine hs.handled rfl (update_part (f := Thread.call) rfl) (fun u hu => Function.update_of_ne ?_ _ _)
      (slot rfl (.inr rfl)) (fun q u _ _ => hslot u) (fun u hu => .inr ?_)
      (fun _ _ => id) (early (by rw [Engine.spent, hborn]; rfl)) rfl fun d hd => (by cases hd)
    · rintro rfl
      exact hu idle
    · cases hu
      exact (hslot w).trans hempty
  | insertPending r w pc =>
    exact hs.handled rfl (fun _ => rfl) (fun _ _ => rfl) (fun _ _ => id) (fun _ _ _ _ => rfl) (thread pc rfl)
      (sent_update (.inl rfl)) (early (by rw [Engine.spent, pc]; rfl)) rfl fun d hd => (by cases hd)
  | setCallback r w pc =>
    obtain ⟨hcall, hbusy, hothers⟩ := own (X := { s.threads w with inCallback := r })
      (show (s.handles r).thread = some w by rw [pc]; rfl) (by simp [pc]) rfl
    exact hs.handled rfl hcall hbusy (slot rfl (.inr rfl)) hothers (thread pc rfl)
      (fun _ _ => id) (early (by rw [Engine.spent, pc]; rfl)) rfl fun d hd => (by cases hd)
  | endCallback r w pc idle =>
    refine hs.handled rfl (fun _ => rfl) (fun _ _ => rfl) (fun _ _ => id) (fun _ _ _ _ => rfl) (thread pc rfl)
      (fun _ _ => id) (fun h => ?_) rfl fun d hd => (by cases hd)
    simpa [Engine.spent, Engine.setHandle, pc] using h
  | clearCallback r w pc =>
    obtain ⟨hcall, hbusy, hothers⟩ := own (X := { s.threads w with inCallback := 0 })
      (show (s.handles r).thread = some w by rw [pc]; rfl) (by simp [pc]) rfl
    refine hs.handled rfl hcall hbusy (slot rfl (.inr rfl)) hothers (thread pc rfl) (fun _ _ => id) (fun h => ?_)
      rfl fun d hd => (by cases hd)
    simpa [Engine.spent, Engine.setHandle, Engine.setThread, pc] using h
  | takeSync r w d pc hslot =>
    have hr : (s.handles r).thread = some w := by rw [pc]; rfl
    obtain ⟨hcall, hbusy, hothers⟩ := own (X := { s.threads w with syncResponse := none, serving := none }) hr
      (by simp [pc]) rfl
    refine hs.handled rfl hcall hbusy (slot rfl (.inl rfl)) hothers (off rfl) (fun _ _ => id)
      (fun _ => by simp [Engine.spent, Engine.setHandle, HandlePc.ending]) rfl fun d' hd => ?_
    cases hd
    exact hs.slot w r d hslot hr
  | noSync r w pc hslot =>
    have hr : (s.handles r).thread = some w := by rw [pc]; rfl
    obtain ⟨hcall, hbusy, hothers⟩ := own (X := { s.threads w with serving := none }) hr (by simp [pc]) rfl
    exact hs.handled rfl hcall hbusy (slot rfl (.inr rfl)) hothers (off rfl) (fun _ _ => id)
      (early (by rw [Engine.spent, pc]; simp [hslot])) rfl fun d hd => (by cases hd)
  | ending a r e pc hsent =>
    refine hs.handled rfl (fun _ => rfl) (fun _ _ => rfl) (fun _ _ => id) (fun _ _ _ _ => rfl) (off rfl)
      (sent_update (.inr rfl)) (early (by rw [Engine.spent, pc]; rfl)) rfl fun d hd => ?_
    refine (hs.sent r d (hsent d (Option.some.inj hd))).resolve_right fun h => ?_
    rw [Engine.spent, pc] at h
    cases h
  | removePending r e pc | dropReceiver r e pc =>
    refine hs.handled rfl (fun _ => rfl) (fun _ _ => rfl) (fun _ _ => id) (fun _ _ _ _ => rfl) (off rfl)
      (sent_update (.inr rfl)) (fun _ => by simp [Engine.spent, Engine.setHandle, HandlePc.ending]) rfl fun d hd => ?_
    exact hs.answer r d (by rw [pc]; exact hd)
  | enter w api pc idle may target fresh =>
    exact hs.called rfl rfl calls (fun q own payload he => absurd he (fresh q own payload).2) (fun _ _ => id) (.inl rfl)
      fun _ _ hd => .inl hd
  | onward w pc active streams nextStream busy target payload quiet =>
    exact hs.called rfl rfl calls (fun q own payload he => absurd he (quiet q own payload)) (fun _ _ => id) (.inl rfl)
      fun _ _ hd => .inl hd
  | sync w r own pc inside hslot =>
    have hin : s.handles r = .inCallback w := Orderly.inside ho (by rw [pc]; rfl) inside
    refine hs.called rfl rfl calls (fun _ _ _ he => (by cases he)) (mem_accept s r own) (.inr ⟨own, rfl, fun q hq => ?_⟩)
      fun _ _ hd => .inl hd
    obtain rfl : q = r := Orderly.sole ho (by rw [hin]; rfl) hq
    exact ⟨hs.calls w q own (by rw [pc]; exact ⟨rfl, rfl⟩), mem_accept_self s q own⟩
  | take w r own payload pc found =>
    refine hs.called rfl rfl calls (fun q own' payload' he => ?_) (fun _ _ => id) (.inl rfl) fun _ _ hd => .inl hd
    cases he
    exact ho.payload w r own payload pc
  | sent w r own payload pc =>
    refine hs.called rfl rfl calls (fun _ _ _ he => (by cases he)) (mem_accept s r own) (.inl rfl) fun q d hd => ?_
    have hd : (Function.update s.channels r { s.channels r with sent := some payload, sender := false } q).sent =
      some d := hd
    by_cases hqr : q = r
    · subst hqr
      rw [Function.update_self] at hd
      cases hd
      refine .inr ?_
      rcases hs.sends w q own payload pc with rfl | ⟨hin, hfull⟩
      · exact .inl ⟨hs.calls w q payload (by rw [pc]; exact ⟨rfl, rfl⟩), mem_accept_self s q payload⟩
      · have hq : s.handles q = .inCallback w := Orderly.inside ho (by rw [pc]; rfl) hin
        refine .inr ?_
        rw [Engine.spent, hq]
        exact Option.isSome_iff_ne_none.mpr hfull
    · rw [Function.update_of_ne hqr] at hd
      exact .inl hd
  | unsent w r own payload pc =>
    have hsent : ∀ q d, (Function.update s.channels r { s.channels r with sender := false } q).sent = some d →
        (s.channels q).sent = some d := sent_update (.inr rfl)
    refine hs.called rfl rfl calls (fun q own' payload' he => absurd he ?_) (fun _ _ => id) (.inl rfl) fun q d hd =>
      .inl (hsent q d hd)
    cases own <;> exact fun he => (by cases he)
  | body a streams => exact ⟨calls, hs.sends, hs.slot, hs.sent, hs.answer⟩

theorem Engine.Given.next {cfg : Config} {a : Act} (ho : s.Orderly) (hs : s.Given Made) (h : s.step cfg a = some t)
    (grow : ∀ r d, Made r d → Made' r d)
    (enter : ∀ w api, a = .enter w api → ∀ d, api.Describes cfg.http d → Made' api.responder d) : t.Given Made' := by
  have hs := hs.mono grow
  refine hs.step ho (Engine.step_cases h ho.target) fun u q d hd => ?_
  by_cases haside : a.aside = true
  · have hcall : (t.threads u).call = (s.threads u).call := congrFun (Engine.step_aside h haside).1 u
    exact hs.calls u q d (hcall ▸ hd)
  · cases a with
    | poll i =>
      simp only [Engine.step] at h
      split at h <;> cases h
      exact hs.calls u q d hd
    | enter w api =>
      simp only [Engine.step] at h
      split at h <;> cases h
      change (Function.update s.threads w _ u).call.Brings q d at hd
      by_cases hu : u = w
      · subst hu
        rw [Function.update_self] at hd
        obtain ⟨rfl, hdescribes⟩ := start_brings hd
        exact enter u api rfl d hdescribes
      · rw [Function.update_of_ne hu] at hd
        exact hs.calls u q d hd
    | call w =>
      obtain ⟨X, hthreads, hbrings⟩ := Engine.advance_brings h
      rw [hthreads] at hd
      by_cases hu : u = w
      · subst hu
        rw [Function.update_self] at hd
        exact hs.calls u q d (hbrings q d hd)
      · rw [Function.update_of_ne hu] at hd
        exact hs.calls u q d hd
    | _ => exact absurd rfl haside

end Steps

def Engine.record (_ : Engine) (a : Act) (_ : Engine) (made : Responder → List Api) : Responder → List Api :=
  match a with
  | .enter _ api => Function.update made api.responder (made api.responder ++ [api])
  | _ => made

abbrev Engine.Recorded (cfg : Config) (as : List Act) (s : Engine) (made : Responder → List Api) : Prop :=
  Run (observe (Engine.step cfg) Engine.record) anyStep ({}, fun _ => []) as (s, made)

def MadeBy (http : HttpTypes) (made : Responder → List Api) (r : Responder) (d : Delivery) : Prop :=
  ∃ api ∈ made r, api.Describes http d

theorem Engine.Recorded.given {cfg : Config} {as : List Act} {s : Engine} {made : Responder → List Api}
    (h : Engine.Recorded cfg as s made) : s.Orderly ∧ s.Given (MadeBy cfg.http made) := by
  refine Run.invariant (I := fun p : Engine × (Responder → List Api) => p.1.Orderly ∧ p.1.Given (MadeBy cfg.http p.2))
    h ?_ ⟨.init, .init _⟩
  rintro p a q - ⟨ho, hs⟩ hstep
  obtain ⟨hmove, hnote⟩ := observe_eq_some hstep
  refine ⟨Engine.Orderly.step ho (Engine.step_cases hmove ho.target), hs.next ho hmove ?_ ?_⟩
  · rintro r d ⟨api, hapi, hd⟩
    refine ⟨api, ?_, hd⟩
    rw [hnote]
    unfold Engine.record
    split
    · rename_i w new
      by_cases hr : r = new.responder
      · subst hr
        rw [Function.update_self]
        exact List.mem_append_left _ hapi
      · rwa [Function.update_of_ne hr]
    · exact hapi
  · rintro w api rfl d hd
    refine ⟨api, ?_, hd⟩
    rw [hnote]
    change api ∈ Function.update p.2 api.responder (p.2 api.responder ++ [api]) api.responder
    rw [Function.update_self]
    exact List.mem_append_right _ (List.mem_singleton_self api)

/-- Whoever calls, and from whatever threads: the response to a request has the status, the headers and
the body of a `respond` or `begin` on its responder that returned `HYPER4K_OK`, or reports that the
status of that call is none, or that the responder was dropped. In particular the notice that a sync
slot was busy reaches no client, unless somebody sends just that. -/
theorem answered_as_called {cfg : Config} {as : List Act} {s : Engine} {made : Responder → List Api}
    (h : Engine.Recorded cfg as s made) (r : Responder) (x : Response) (hx : (s.handles r).response = some x) :
    (∃ d ∈ s.accepted r, (∃ api ∈ made r, api.Describes cfg.http d) ∧
      x = if validStatus d.response.status then d.response else errorResponse 500 (text "hyper4k: bad response")) ∨
    (s.handles r).ending = some .orphaned ∧ x = errorResponse 500 (text "hyper4k: handler dropped responder") := by
  obtain ⟨e, he, hresponse⟩ := Option.bind_eq_some_iff.mp hx
  cases e with
  | answered d =>
    obtain ⟨hmade, haccepted⟩ := h.given.2.answer r d he
    cases hresponse
    exact .inl ⟨d, haccepted, hmade, rfl⟩
  | orphaned =>
    cases hresponse
    exact .inr ⟨he, rfl⟩
  | cancelled => cases hresponse

/-- The callback answers twice. The second call finds the slot taken and still returns `HYPER4K_OK`;
the request is answered by the first. -/
theorem answered_as_called_twice : ∃ s made, Engine.Recorded engineConfig (inRequest ++ answered 200 ++
      Act.enter 0 (.respond 1 404 (.null 0) (.bytes [7])) :: List.replicate 5 (.call 0) ++
      List.replicate 5 (Act.handle 1)) s made ∧
    (s.accepted 1).length = 2 ∧ (s.handles 1).response = some ⟨200, [], .full []⟩ ∧
    ∃ d ∈ s.accepted 1, (∃ api ∈ made 1, api.Describes engineConfig.http d) ∧
      (⟨200, [], .full []⟩ : Response) = if validStatus d.response.status then d.response
        else errorResponse 500 (text "hyper4k: bad response") := by
  have hrun : (replay (observe (Engine.step engineConfig) Engine.record) anyStep ({}, fun _ => [])
      (inRequest ++ answered 200 ++ Act.enter 0 (.respond 1 404 (.null 0) (.bytes [7])) :: List.replicate 5 (.call 0) ++
        List.replicate 5 (Act.handle 1))).any (fun p => decide ((p.1.accepted 1).length = 2 ∧
          (p.1.handles 1).response = some ⟨200, [], .full []⟩)) = true := by decide
  obtain ⟨⟨s, made⟩, hs, hd⟩ := (Option.any_eq_true _ _).mp hrun
  obtain ⟨htwo, hresponse⟩ := of_decide_eq_true hd
  refine ⟨s, made, run_of_replay hs, htwo, hresponse, ?_⟩
  obtain hcall | ⟨-, hdropped⟩ := answered_as_called (run_of_replay hs) 1 _ hresponse
  · exact hcall
  · cases hdropped

end Hyper4k.Server
