import Hyper4k.Server.BodyFrames

/-! A step of the engine as one responder sees it: the call on it, and its entry in the map of streams. -/
namespace Hyper4k.Server
open Runs

/-- The call in progress on `r`, with the place it has come to. -/
def Streaming.call (s : Streaming) (r : Responder) : Option (Api × CallPc) :=
  (s.caller r).bind fun w => (s.calls w).map fun api => (api, s.engine.pcs w)

section Calls
variable {cfg : Config} {s t : Streaming} {r : Responder} {w : ThreadId}

theorem Engine.Accessed.pcs_update {ev : StreamEvent} {e e' : Engine} (h : e.Accessed w ev e') :
    ∃ next, e'.pcs = Function.update e.pcs w next := by
  cases h with
  | delivers r own t pc pcs accepted active streams nextStream => exact ⟨_, pcs⟩
  | turns next t turns pcs accepted active streams nextStream => exact ⟨_, pcs⟩
  | _ => exact ⟨_, pcs_setCall ..⟩

theorem Engine.Accessed.active_of_ne {ev : StreamEvent} {e : Engine} (hown : s.Owned)
    (hw : (s.calls w).map Api.responder ≠ some r) (h : s.engine.Accessed w ev e) : e.active r = s.engine.active r := by
  have hne : ∀ q, (s.engine.pcs w).on s.owner = some q → r ≠ q := fun q hq hqr =>
    hw (hqr ▸ (hown.threads w).calls q hq)
  cases h with
  | opens q status headers pc free => exact Function.update_of_ne (hne q (by rw [pc]; rfl)) _ _
  | removes q i finish code pc found =>
    exact Function.update_of_ne (hne q (by rw [pc]; cases finish <;> rfl)) _ _
  | releasesNone q code pc found => exact Function.update_of_ne (hne q (by rw [pc]; rfl)) _ _
  | delivers q own t pc pcs accepted active streams nextStream => rw [active]
  | turns next t turns pcs accepted active streams nextStream => rw [active]
  | _ => rfl

theorem Streaming.call_eq {api : Api} (caller : s.caller r = some w) (calls : s.calls w = some api) :
    s.call r = some (api, s.engine.pcs w) := by
  rw [Streaming.call, caller, Option.bind_some, calls, Option.map_some]

theorem Streaming.Serial.call_some (hs : s.Serial r) (hw : s.caller r = some w) :
    ∃ api, s.calls w = some api ∧ api.responder = r ∧ s.call r = some (api, s.engine.pcs w) := by
  obtain ⟨api, hapi, hr⟩ := Option.map_eq_some_iff.mp ((hs.caller w).mp hw)
  exact ⟨api, hapi, hr, Streaming.call_eq hw hapi⟩

/-- The call on `r` is one thread's, and made on `r`. -/
theorem Streaming.Serial.call_on (hs : s.Serial r) {api : Api} {pc : CallPc} (h : s.call r = some (api, pc)) :
    ∃ w, s.caller r = some w ∧ s.calls w = some api ∧ s.engine.pcs w = pc ∧ api.responder = r := by
  obtain ⟨w, hw, hcall⟩ := Option.bind_eq_some_iff.mp h
  obtain ⟨api', hcalls, he⟩ := Option.map_eq_some_iff.mp hcall
  cases he
  obtain ⟨api'', hcalls', hr, -⟩ := hs.call_some hw
  rw [hcalls] at hcalls'
  cases hcalls'
  exact ⟨w, hw, hcalls, rfl, hr⟩

theorem Streaming.call_none (hr : s.caller r = none) : s.call r = none := by
  rw [Streaming.call, hr, Option.bind_none]

def Streaming.log (s : Streaming) (r : Responder) : List StreamId × List Text.Octets := (s.engine.begun r, s.writes r)

def StreamEvent.chunks : StreamEvent → List Text.Octets
  | .accepts _ chunk => [chunk]
  | _ => []

def Streaming.responder (s : Streaming) : StreamAct → Option Responder
  | .engine (.enter _ api) => some api.responder
  | .engine (.call w) => (s.calls w).map Api.responder
  | _ => none

/-- A step as far as responder `r` is concerned: the call on it and its entry in the map of streams. -/
inductive Streaming.Seen (cfg : Config) (s : Streaming) (r : Responder) : StreamAct → Streaming → Prop
  | same (a : StreamAct) (t : Streaming) (elsewhere : s.responder a ≠ some r) (call : t.call r = s.call r)
      (active : t.engine.active r = s.engine.active r) (log : t.log r = s.log r) : s.Seen cfg r a t
  | enters (w : ThreadId) (api : Api) (t : Streaming) (idle : s.call r = none) (on : api.responder = r)
      (call : t.call r = some (api, api.start cfg.http)) (active : t.engine.active r = s.engine.active r)
      (log : t.log r = s.log r) : s.Seen cfg r (.engine (.enter w api)) t
  | goes (w : ThreadId) (api : Api) (t : Streaming) (calls : s.calls w = some api)
      (before : s.call r = some (api, s.engine.pcs w)) (busy : ∀ code, s.engine.pcs w ≠ .returned code)
      (move : s.engine.advance cfg w = some t.engine) (after : t.call r = some (api, t.engine.pcs w))
      (writes : t.writes r = s.writes r ++ (s.engine.event w t.engine).chunks) : s.Seen cfg r (.engine (.call w)) t
  | returns (w : ThreadId) (api : Api) (code : Code) (t : Streaming) (calls : s.calls w = some api)
      (before : s.call r = some (api, .returned code)) (pc : s.engine.pcs w = .returned code) (after : t.call r = none)
      (active : t.engine.active r = s.engine.active r) (log : t.log r = s.log r) : s.Seen cfg r (.engine (.call w)) t

theorem Streaming.note_calls (s : Streaming) (w : ThreadId) {ev : StreamEvent} (h : ev ≠ .returns) :
    (s.note w ev).caller = s.caller ∧ (s.note w ev).calls = s.calls := by
  cases ev with
  | returns => exact absurd rfl h
  | _ => exact ⟨rfl, rfl⟩

theorem Streaming.note_writes (s : Streaming) (w : ThreadId) (ev : StreamEvent) (r : Responder) :
    (s.note w ev).writes r =
      s.writes r ++ if (s.calls w).map Api.responder = some r then ev.chunks else [] := by
  cases ev with
  | accepts i chunk =>
    simp only [Streaming.note, Streaming.setTap, StreamEvent.chunks]
    cases hcalls : s.calls w with
    | none => simp
    | some api =>
      simp only [Option.map_some, Option.some.injEq]
      by_cases hr : api.responder = r
      · rw [if_pos hr, ← hr, Function.update_self]
      · rw [if_neg hr, Function.update_of_ne (Ne.symm hr), List.append_nil]
  | _ => simp [Streaming.note, Streaming.setTap, StreamEvent.chunks]

theorem Engine.Accessed.begun_of_ne {ev : StreamEvent} {e : Engine} (hown : s.Owned)
    (hw : (s.calls w).map Api.responder ≠ some r) (h : s.engine.Accessed w ev e) : e.begun r = s.engine.begun r := by
  cases h with
  | delivers q own t pc pcs accepted active streams nextStream =>
    have hq : r ≠ q := by
      rintro rfl
      refine hw ((hown.threads w).calls r ?_)
      rcases pc with pc | ⟨payload, pc⟩ <;> rw [pc] <;> rfl
    rw [Engine.begun, accepted, Function.update_of_ne hq]
    rfl
  | turns next t turns pcs accepted active streams nextStream => rw [Engine.begun, accepted]; rfl
  | _ => rfl

theorem Engine.event_ne_returns {e e' : Engine} (h : ∀ code, e.pcs w ≠ .returned code) : e.event w e' ≠ .returns := by
  unfold Engine.event
  split
  case h_7 code hpc => exact absurd hpc (h code)
  all_goals first
    | (split <;> exact fun he => (by cases he))
    | exact fun he => (by cases he)
    | (unfold CallPc.outcome; split <;> exact fun he => (by cases he))

theorem Streaming.call_congr (caller : t.caller r = s.caller r)
    (calls : ∀ u, s.caller r = some u → t.calls u = s.calls u ∧ t.engine.pcs u = s.engine.pcs u) :
    t.call r = s.call r := by
  unfold Streaming.call
  rw [caller]
  cases hu : s.caller r with
  | none => rfl
  | some u => rw [Option.bind_some, Option.bind_some, (calls u hu).1, (calls u hu).2]

theorem Streaming.enter_seen (hown : s.Owned) (hs : s.Serial r) {api : Api} (hok : api.responder = r → s.caller r = none)
    (h : s.step cfg (.engine (.enter w api)) = some t) : s.Seen cfg r (.engine (.enter w api)) t := by
  obtain ⟨e, he, rfl⟩ := Option.map_eq_some_iff.mp h
  simp only [Engine.step] at he
  split at he <;> cases he
  rename_i hidle
  have hnone : s.calls w = none := (hown.threads w).idle hidle.1
  by_cases hr : api.responder = r
  · refine .enters w api _ (Streaming.call_none (hok hr)) hr ?_ rfl rfl
    subst hr
    refine (Streaming.call_eq (Function.update_self ..) (Function.update_self ..)).trans ?_
    rw [pcs_setCall, Function.update_self]
  · refine .same _ _ (fun he => hr (Option.some.inj he))
      (Streaming.call_congr (Function.update_of_ne (Ne.symm hr) _ _) fun u hu => ?_) rfl rfl
    have huw : u ≠ w := by
      rintro rfl
      have hcalls := (hs.caller u).mp hu
      rw [hnone] at hcalls
      cases hcalls
    refine ⟨Function.update_of_ne huw _ _, ?_⟩
    rw [pcs_setCall, Function.update_of_ne huw]

theorem Streaming.call_seen (hown : s.Owned) (hs : s.Serial r) (h : s.step cfg (.engine (.call w)) = some t) :
    s.Seen cfg r (.engine (.call w)) t := by
  obtain ⟨e, he, rfl⟩ := Option.map_eq_some_iff.mp h
  have hadvance : s.engine.advance cfg w = some e := he
  have haccess := Engine.advance_accessed (hown.threads w).responds hadvance
  obtain ⟨next, hnext⟩ := haccess.pcs_update
  by_cases hpc : ∃ code, s.engine.pcs w = .returned code
  · obtain ⟨code, hpc⟩ := hpc
    have hev : s.engine.event w e = .returns := by rw [Engine.event, hpc]
    have hidle : e = s.engine.setCall w .idle := by
      rw [Engine.advance, show (s.engine.threads w).call = .returned code from hpc] at hadvance
      exact (Option.some.inj hadvance).symm
    rw [hev]
    by_cases hw : (s.calls w).map Api.responder = some r
    · obtain ⟨api, hapi, hr⟩ := Option.map_eq_some_iff.mp hw
      obtain ⟨api', hapi', -, hcall⟩ := hs.call_some ((hs.caller w).mpr hw)
      rw [hapi] at hapi'
      cases hapi'
      refine .returns w api code _ hapi (by rw [hcall, hpc]) hpc (Streaming.call_none ?_) (by rw [hidle]; rfl)
        (by rw [hidle]; rfl)
      simp only [Streaming.note, hapi]
      rw [hr]
      exact Function.update_self ..
    · refine .same _ _ hw (Streaming.call_congr ?_ fun u hu => ?_) (by rw [hidle]; rfl) (by rw [hidle]; rfl)
      · simp only [Streaming.note]
        cases hapi : s.calls w with
        | none => rfl
        | some api =>
          rw [hapi] at hw
          exact Function.update_of_ne (fun he => hw (congrArg some he.symm)) _ _
      · have huw : u ≠ w := by
          rintro rfl
          exact hw ((hs.caller u).mp hu)
        refine ⟨Function.update_of_ne huw _ _, ?_⟩
        rw [show (({ s.note w .returns with engine := e } : Streaming).engine.pcs u) = e.pcs u from rfl, hnext,
          Function.update_of_ne huw]
  · have hbusy : ∀ code, s.engine.pcs w ≠ .returned code := fun code hcode => hpc ⟨code, hcode⟩
    have hevent : s.engine.event w e ≠ .returns := Engine.event_ne_returns hbusy
    obtain ⟨hcaller, hcalls⟩ := s.note_calls w hevent
    by_cases hw : (s.calls w).map Api.responder = some r
    · obtain ⟨api, hapi, hr, hcall⟩ := hs.call_some ((hs.caller w).mpr hw)
      refine .goes w api _ hapi hcall hbusy hadvance (Streaming.call_eq (w := w) ?_ ?_) ?_
      · exact (congrFun hcaller r).trans ((hs.caller w).mpr hw)
      · exact (congrFun hcalls w).trans hapi
      · exact (s.note_writes w _ r).trans (by rw [if_pos hw])
    · refine .same _ _ hw (Streaming.call_congr (congrFun hcaller r) fun u hu => ⟨congrFun hcalls u, ?_⟩)
        (haccess.active_of_ne hown hw) (Prod.ext (haccess.begun_of_ne hown hw)
          ((s.note_writes w _ r).trans (by rw [if_neg hw, List.append_nil]; rfl)))
      rw [show (({ s.note w (s.engine.event w e) with engine := e } : Streaming).engine.pcs u) = e.pcs u from rfl, hnext,
        Function.update_of_ne]
      rintro rfl
      exact hw ((hs.caller u).mp hu)

theorem Streaming.step_seen (hown : s.Owned) (hs : s.Serial r) {a : StreamAct} (hok : s.OneByOne r a)
    (h : s.step cfg a = some t) : s.Seen cfg r a t := by
  have hquiet : ∀ {t : Streaming}, s.responder a = none → t.caller = s.caller → t.calls = s.calls →
      t.engine.pcs = s.engine.pcs → t.engine.active = s.engine.active → t.engine.begun = s.engine.begun →
      t.writes = s.writes → s.Seen cfg r a t := by
    intro t hnone hcaller hcalls hpcs hactive hbegun hwrites
    refine .same a t ?_ (Streaming.call_congr (congrFun hcaller r) fun u _ => ⟨congrFun hcalls u, congrFun hpcs u⟩)
      (congrFun hactive r) (Prod.ext (congrFun hbegun r) (congrFun hwrites r))
    rw [hnone]
    exact fun he => (by cases he)
  have haside : ∀ b, a = .engine b → b.aside = true → s.Seen cfg r a t := by
    rintro b rfl hb
    obtain ⟨e, he, hte⟩ : ∃ e, s.engine.step cfg b = some e ∧ t = { s with engine := e } := by
      cases b with
      | enter | call | poll => cases hb
      | dropBody i =>
        cases h
        exact ⟨_, rfl, rfl⟩
      | _ =>
        obtain ⟨e, he, rfl⟩ := Option.map_eq_some_iff.mp h
        exact ⟨e, he, rfl⟩
    subst hte
    obtain ⟨hpcs, hactive, hbegun, -⟩ := Engine.step_aside he hb
    refine hquiet ?_ rfl rfl hpcs hactive hbegun rfl
    cases b with
    | enter | call | poll => cases hb
    | _ => rfl
  cases a with
  | poll q =>
    have h : s.pollFrame q = some t := h
    unfold Streaming.pollFrame at h
    split at h
    · cases h
    · split at h
      · cases h
      · split at h
        · cases h
          exact hquiet rfl rfl rfl rfl rfl rfl rfl
        · cases h
          split
          · exact hquiet rfl rfl rfl rfl rfl rfl rfl
          · exact hquiet rfl rfl rfl rfl rfl rfl rfl
  | engine b =>
    cases b with
    | enter w api => exact Streaming.enter_seen hown hs hok h
    | call w => exact Streaming.call_seen hown hs h
    | poll i => cases h
    | request | handle | disconnect | dropBody => exact haside _ rfl rfl

/-- The calls in progress after a step are those before it, but for one that was entered. -/
theorem Streaming.step_calls {a : StreamAct} (h : s.step cfg a = some t) {api : Api} (hw : t.calls w = some api) :
    s.calls w = some api ∨ a = .engine (.enter w api) := by
  cases a with
  | poll q =>
    have h : s.pollFrame q = some t := h
    unfold Streaming.pollFrame at h
    split at h
    · cases h
    · split at h
      · cases h
      · split at h
        · cases h
          exact .inl hw
        · cases h
          split at hw <;> exact .inl hw
  | engine b =>
    cases b with
    | poll i => cases h
    | dropBody i =>
      cases h
      exact .inl hw
    | enter u new =>
      obtain ⟨e, he, rfl⟩ := Option.map_eq_some_iff.mp h
      by_cases hu : w = u
      · subst hu
        have hw : Function.update s.calls w (some new) w = some api := hw
        rw [Function.update_self] at hw
        cases hw
        exact .inr rfl
      · exact .inl ((Function.update_of_ne hu _ _).symm.trans hw)
    | call u =>
      obtain ⟨e, he, rfl⟩ := Option.map_eq_some_iff.mp h
      refine .inl ?_
      by_cases hev : s.engine.event u e = .returns
      · have hw : (s.note u (s.engine.event u e)).calls w = some api := hw
        rw [hev] at hw
        have hw : Function.update s.calls u none w = some api := hw
        by_cases hu : w = u
        · subst hu
          rw [Function.update_self] at hw
          cases hw
        · rwa [Function.update_of_ne hu] at hw
      · exact (congrFun (s.note_calls u hev).2 w).symm.trans hw
    | _ =>
      obtain ⟨e, he, rfl⟩ := Option.map_eq_some_iff.mp h
      exact .inl hw

/-- The step of the engine in a step, if it has one: the body of a response reads its channel by itself. -/
theorem Streaming.step_acts {a : StreamAct} (h : s.step cfg a = some t) : t.engine = s.engine ∨
    ∃ b, s.engine.step cfg b = some t.engine ∧ (a = .engine b ∨ ∃ i, b = .poll i) := by
  cases a with
  | engine b =>
    cases b with
    | poll i => cases h
    | dropBody i =>
      cases h
      exact .inr ⟨.dropBody i, rfl, .inl rfl⟩
    | _ =>
      obtain ⟨u, hu, rfl⟩ := Option.map_eq_some_iff.mp h
      exact .inr ⟨_, hu, .inl rfl⟩
  | poll q =>
    have h : s.pollFrame q = some t := h
    unfold Streaming.pollFrame at h
    split at h
    · cases h
    · rename_i i hbody
      split at h
      · cases h
      · split at h
        · rename_i chunk rest hbuffer
          cases h
          refine .inr ⟨.poll i, ?_, .inr ⟨i, rfl⟩⟩
          simp only [Engine.step, hbuffer]
        · cases h
          split <;> exact .inl rfl

/-- A run of the engine with its body channels is a run of the engine. -/
theorem Streaming.Reaches.engine {ok : Streaming → StreamAct → Prop} {as : List StreamAct}
    (h : Streaming.Reaches cfg ok {} as s) : ∃ bs, Engine.Reaches cfg anyStep {} bs s.engine :=
  Run.project (J := fun _ => True) Streaming.engine (fun _ _ _ _ _ => trivial)
    (fun _ _ _ _ _ move => (Streaming.step_acts move).imp_right fun ⟨b, hb, _⟩ => ⟨b, trivial, hb⟩) h trivial

theorem Streaming.Reaches.orderly {ok : Streaming → StreamAct → Prop} {as : List StreamAct}
    (h : Streaming.Reaches cfg ok {} as s) : s.engine.Orderly := by
  refine Run.invariant (I := fun s : Streaming => s.engine.Orderly) h (fun s a t _ hs hstep => ?_) .init
  rcases Streaming.step_engine hstep with he | ⟨b, hb⟩
  · rw [he]
    exact hs
  · exact Engine.Orderly.step hs (Engine.step_cases hb hs.target)

/-- Responder 0 has no stream. -/
theorem Streaming.zero_inactive {a : StreamAct} (hown : s.Owned) (ho : s.engine.Orderly) (h : s.step cfg a = some t)
    (hs : s.engine.active 0 = none) : t.engine.active 0 = none := by
  cases Streaming.step_cases h fun w => (hown.threads w).responds with
  | enter w api pc idle start => exact hs
  | call a w ev e access =>
    cases access with
    | opens q status headers pc free =>
      have hq : (0 : Responder) ≠ q := by
        rintro rfl
        exact ho.target w (by rw [show (s.engine.threads w).call = _ from pc]; rfl)
      exact (Function.update_of_ne hq _ _).trans hs
    | removes q i finish code pc found | releasesNone q code pc found =>
      change Function.update s.engine.active q none 0 = none
      by_cases hq : (0 : Responder) = q
      · rw [← hq, Function.update_self]
      · rw [Function.update_of_ne hq, hs]
    | delivers q own t pc pcs accepted active streams nextStream => exact (congrFun active 0).trans hs
    | turns next t turns pcs accepted active streams nextStream => exact (congrFun active 0).trans hs
    | _ => exact hs
  | aside a e pcs active begun nextStream buffers => exact (congrFun active 0).trans hs
  | yields | ends | pending => exact hs

end Calls

end Hyper4k.Server
