import Hyper4k.Server.Responder

/-! What one step of the server engine does to its responders. -/
namespace Hyper4k.Server

def CallPc.target : CallPc → Option Responder
  | .checkStreams r _ | .claimStream r _ _ | .deliver r _ | .takePending r _ _ | .send r _ _ => some r
  | _ => none

inductive Engine.Stepped (s : Engine) : Act → Engine → Prop
  | request (w : ThreadId) (free : (s.threads w).serving = none) (idle : (s.threads w).call = .idle) :
    s.Stepped (.request w) (({ s with nextId := s.nextId + 1 }.setThread w
      { s.threads w with serving := some s.nextId }).setHandle s.nextId (.insertPending w))
  | insertPending (r : Responder) (w : ThreadId) (pc : s.handles r = .insertPending w) :
    s.Stepped (.handle r) (((s.setPending r true).setChannel r ⟨none, true, true⟩).setHandle r (.setCallback w))
  | setCallback (r : Responder) (w : ThreadId) (pc : s.handles r = .setCallback w) :
    s.Stepped (.handle r) ((s.setThread w { s.threads w with inCallback := r }).setHandle r (.inCallback w))
  | endCallback (r : Responder) (w : ThreadId) (pc : s.handles r = .inCallback w) (idle : (s.threads w).call = .idle) :
    s.Stepped (.handle r) (s.setHandle r (.clearCallback w))
  | clearCallback (r : Responder) (w : ThreadId) (pc : s.handles r = .clearCallback w) :
    s.Stepped (.handle r) ((s.setThread w { s.threads w with inCallback := 0 }).setHandle r (.takeSync w))
  | takeSync (r : Responder) (w : ThreadId) (d : Delivery) (pc : s.handles r = .takeSync w)
      (slot : (s.threads w).syncResponse = some d) :
    s.Stepped (.handle r) ((s.setThread w { s.threads w with syncResponse := none, serving := none }).setHandle r
      (.removePending (.answered d)))
  | noSync (r : Responder) (w : ThreadId) (pc : s.handles r = .takeSync w)
      (slot : (s.threads w).syncResponse = none) :
    s.Stepped (.handle r) ((s.setThread w { s.threads w with serving := none }).setHandle r .await)
  | ending (a : Act) (r : Responder) (e : Ending) (pc : s.handles r = .await)
      (sent : ∀ d, e = .answered d → (s.channels r).sent = some d) :
    s.Stepped a (s.endAwait r e)
  | removePending (r : Responder) (e : Ending) (pc : s.handles r = .removePending e) :
    s.Stepped (.handle r) (((s.setPending r false).setChannel r
      { s.channels r with sender := (s.channels r).sender && !s.pending r }).setHandle r (.dropReceiver e))
  | dropReceiver (r : Responder) (e : Ending) (pc : s.handles r = .dropReceiver e) :
    s.Stepped (.handle r) ((s.setChannel r { s.channels r with receiver := false }).setHandle r (.done e))
  | enter (w : ThreadId) (api : Api) (pc : CallPc) (idle : (s.threads w).call = .idle) (may : s.mayCall w = true)
      (target : pc.target ≠ some 0)
      (fresh : ∀ r own payload, pc ≠ .takePending r own payload ∧ pc ≠ .send r own payload) :
    s.Stepped (.enter w api) (s.setCall w pc)
  | onward (w : ThreadId) (pc : CallPc) (active : Responder → Option StreamId) (streams : StreamId → Stream)
      (nextStream : StreamId) (busy : (s.threads w).call ≠ .idle) (target : pc.target ≠ some 0)
      (payload : ∀ r own payload, pc = .takePending r own payload →
        payload = own ∨ ((s.threads w).inCallback = r ∧ (s.threads w).syncResponse ≠ none))
      (quiet : ∀ r own payload, pc ≠ .send r own payload) :
    s.Stepped (.call w) ({ s with active, streams, nextStream }.setCall w pc)
  | sync (w : ThreadId) (r : Responder) (own : Delivery) (pc : (s.threads w).call = .deliver r own)
      (inside : (s.threads w).inCallback = r) (slot : (s.threads w).syncResponse = none) :
    s.Stepped (.call w)
      ((s.setThread w { s.threads w with syncResponse := some own, call := .returned .ok }).accept r own)
  | take (w : ThreadId) (r : Responder) (own payload : Delivery) (pc : (s.threads w).call = .takePending r own payload)
      (found : s.pending r = true) :
    s.Stepped (.call w) ((s.setPending r false).setCall w (.send r own payload))
  | sent (w : ThreadId) (r : Responder) (own payload : Delivery) (pc : (s.threads w).call = .send r own payload) :
    s.Stepped (.call w)
      (((s.setChannel r { s.channels r with sent := some payload, sender := false }).accept r own).setCall w
        (.returned .ok))
  | unsent (w : ThreadId) (r : Responder) (own payload : Delivery) (pc : (s.threads w).call = .send r own payload) :
    s.Stepped (.call w) ((s.setChannel r { s.channels r with sender := false }).setCall w (own.refused r))
  | body (a : Act) (streams : StreamId → Stream) : s.Stepped a { s with streams }

private theorem start_target {http : HttpTypes} {api : Api} :
    (api.start http).target ≠ some 0 ∧
      ∀ r own payload, api.start http ≠ .takePending r own payload ∧ api.start http ≠ .send r own payload := by
  cases api <;> simp only [Api.start] <;> split <;> simp_all [CallPc.target]

theorem Engine.serve_cases {s t : Engine} {r : Responder} (h : s.serve r = some t) : s.Stepped (.handle r) t := by
  unfold Engine.serve at h
  split at h
  case h_1 w pc => cases h; exact .insertPending r w pc
  case h_2 w pc => cases h; exact .setCallback r w pc
  case h_3 w pc =>
    split at h <;> cases h
    exact .endCallback r w pc (by assumption)
  case h_4 w pc => cases h; exact .clearCallback r w pc
  case h_5 w pc =>
    split at h <;> cases h
    case h_1 d slot => exact .takeSync r w d pc slot
    case h_2 slot => exact .noSync r w pc slot
  case h_6 pc =>
    split at h
    case h_1 d sent =>
      cases h
      exact .ending _ r _ pc fun d' e => by cases e; exact sent
    case h_2 =>
      split at h <;> cases h
      exact .ending _ r _ pc fun d' e => by cases e
  case h_7 e pc => cases h; exact .removePending r e pc
  case h_8 e pc => cases h; exact .dropReceiver r e pc
  case h_9 => cases h
  case h_10 => cases h

theorem refused_pc (r : Responder) (own : Delivery) : (own.refused r).target = none ∧
    (∀ q d payload, own.refused r ≠ .takePending q d payload) ∧ ∀ q d payload, own.refused r ≠ .send q d payload := by
  cases own <;> simp [Delivery.refused, CallPc.target]

theorem Engine.advance_cases {cfg : Config} {s t : Engine} {w : ThreadId} (h : s.advance cfg w = some t)
    (ht : (s.threads w).call.target ≠ some 0) : s.Stepped (.call w) t := by
  have busy : ∀ {pc : CallPc}, (s.threads w).call = pc → pc ≠ .idle → (s.threads w).call ≠ .idle := fun e h => e ▸ h
  unfold Engine.advance at h
  split at h
  case h_1 => cases h
  case h_2 r own pc =>
    cases h
    rw [pc] at ht
    refine .onward w _ s.active s.streams s.nextStream (busy pc nofun) ?_ ?_ ?_ <;> split <;> simp_all [CallPc.target]
  case h_3 r status headers pc =>
    rw [pc] at ht
    split at h <;> cases h
    · exact .onward w _ s.active s.streams s.nextStream (busy pc nofun) nofun nofun nofun
    · exact .onward w _ _ s.streams _ (busy pc nofun) ht nofun nofun
  case h_4 r own pc =>
    rw [pc] at ht
    split at h
    · rename_i inside
      split at h <;> cases h
      case h_1 slot => exact .sync w r own pc inside slot
      case h_2 d slot =>
        refine .onward w _ s.active s.streams s.nextStream (busy pc nofun) ht ?_ nofun
        intro q own' payload e
        cases e
        exact .inr ⟨inside, by rw [slot]; exact Option.some_ne_none d⟩
    · cases h
      refine .onward w _ s.active s.streams s.nextStream (busy pc nofun) ht ?_ nofun
      intro q own' payload e
      cases e
      exact .inl rfl
  case h_5 r own payload pc =>
    split at h <;> cases h
    · exact .take w r own payload pc (by assumption)
    · obtain ⟨htarget, htake, hsend⟩ := refused_pc r own
      refine .onward w _ s.active s.streams s.nextStream (busy pc nofun) ?_ ?_ hsend
      · rw [htarget]
        nofun
      · exact fun q d p e => absurd e (htake q d p)
  case h_6 r own payload pc =>
    split at h <;> cases h
    · exact .sent w r own payload pc
    · exact .unsent w r own payload pc
  case h_7 r pc =>
    cases h
    exact .onward w _ _ s.streams s.nextStream (busy pc nofun) nofun nofun nofun
  case h_8 r chunk pc =>
    repeat' split at h
    all_goals cases h; exact .onward w _ s.active s.streams s.nextStream (busy pc nofun) nofun nofun nofun
  case h_9 i chunk pc =>
    repeat' split at h
    all_goals cases h; exact .onward w _ s.active _ s.nextStream (busy pc nofun) nofun nofun nofun
  case h_10 i chunk pc =>
    repeat' split at h
    all_goals cases h
    all_goals exact .onward w _ s.active _ s.nextStream (busy pc nofun) nofun nofun nofun
  case h_11 r pc =>
    split at h <;> cases h <;> exact .onward w _ _ s.streams s.nextStream (busy pc nofun) nofun nofun nofun
  case h_12 code pc =>
    cases h
    exact .onward w _ s.active s.streams s.nextStream (busy pc nofun) nofun nofun nofun

theorem Engine.step_cases {cfg : Config} {s t : Engine} {a : Act} (h : s.step cfg a = some t)
    (ht : ∀ w, (s.threads w).call.target ≠ some 0) : s.Stepped a t := by
  cases a with
  | request w =>
    simp only [Engine.step] at h
    split at h <;> cases h
    rename_i hw
    exact .request w hw.2.1 hw.2.2
  | handle r => exact Engine.serve_cases h
  | disconnect r =>
    simp only [Engine.step] at h
    split at h <;> cases h
    exact .ending _ r _ (by assumption) fun d e => by cases e
  | enter w api =>
    simp only [Engine.step] at h
    split at h <;> cases h
    rename_i hw
    exact .enter w api _ hw.1 hw.2 start_target.1 start_target.2
  | call w => exact Engine.advance_cases h (ht w)
  | poll i =>
    simp only [Engine.step] at h
    split at h <;> cases h
    exact .body _ _
  | dropBody i =>
    cases h
    exact .body _ _

end Hyper4k.Server
