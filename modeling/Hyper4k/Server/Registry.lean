import Hyper4k.Server.Integrity

/-! The sender of a request's channel: it is in the registry of pending requests or in the hands of
one call, so that a request which waits is never forgotten, and one that has ended is never answered. -/
namespace Hyper4k.Server
open Runs

inductive Engine.Passed (s : Engine) (w : ThreadId) : Engine → Prop
  | takes (r : Responder) (own payload : Delivery) (pc : (s.threads w).call = .takePending r own payload)
      (found : s.pending r = true) : s.Passed w ((s.setPending r false).setCall w (.send r own payload))
  | sends (r : Responder) (own payload : Delivery) (c : Channel) (next : CallPc) (t : Engine)
      (pc : (s.threads w).call = .send r own payload)
      (threads : t.threads = Function.update s.threads w { s.threads w with call := next })
      (next : ∀ q, next.carries q = false)
      (channels : t.channels = Function.update s.channels r c) (sender : c.sender = false)
      (receiver : c.receiver = (s.channels r).receiver) (handles : t.handles = s.handles) (pending : t.pending = s.pending)
      (accepted : (s.channels r).receiver = false → t.accepted = s.accepted)
      (others : ∀ q, q ≠ r → t.accepted q = s.accepted q) : s.Passed w t
  | keeps (X : Thread) (t : Engine) (threads : t.threads = Function.update s.threads w X)
      (before : ∀ q, (s.threads w).call.carries q = false) (after : ∀ q, X.call.carries q = false)
      (channels : t.channels = s.channels) (handles : t.handles = s.handles) (pending : t.pending = s.pending)
      (accepted : ∀ q, t.accepted q = s.accepted q ∨
        (s.threads w).call.target = some q ∧ (s.threads w).inCallback = q) : s.Passed w t

private theorem refused_empty (r q : Responder) (own : Delivery) : (own.refused r).carries q = false := by
  cases own <;> rfl

theorem Engine.advance_passed {cfg : Config} {s t : Engine} {w : ThreadId} (h : s.advance cfg w = some t) :
    s.Passed w t := by
  unfold Engine.advance at h
  split at h
  case h_1 => cases h
  case h_2 r own pc =>
    cases h
    refine .keeps _ _ rfl (fun _ => by rw [pc]; rfl) (fun q => ?_) rfl rfl rfl fun _ => .inl rfl
    dsimp only
    split <;> rfl
  case h_4 r own pc =>
    split at h
    · rename_i inside
      split at h <;> cases h
      · refine .keeps _ _ rfl (fun _ => by rw [pc]; rfl) (fun _ => rfl) rfl rfl rfl fun q => ?_
        by_cases hq : q = r
        · subst hq
          exact .inr ⟨by rw [pc]; rfl, inside⟩
        · exact .inl (Function.update_of_ne hq _ _)
      · exact .keeps _ _ rfl (fun _ => by rw [pc]; rfl) (fun _ => rfl) rfl rfl rfl fun _ => .inl rfl
    · cases h
      exact .keeps _ _ rfl (fun _ => by rw [pc]; rfl) (fun _ => rfl) rfl rfl rfl fun _ => .inl rfl
  case h_5 r own payload pc =>
    split at h <;> cases h
    · rename_i found
      exact .takes r own payload pc found
    · exact .keeps _ _ rfl (fun _ => by rw [pc]; rfl) (fun q => refused_empty r q own) rfl rfl rfl fun _ => .inl rfl
  case h_6 r own payload pc =>
    split at h <;> cases h
    · rename_i receiver
      refine .sends r own payload _ (.returned .ok) _ pc rfl (fun _ => rfl) rfl rfl rfl rfl rfl (fun hgone => ?_)
        fun q hq => Function.update_of_ne hq _ _
      rw [receiver] at hgone
      cases hgone
    · exact .sends r own payload _ _ _ pc rfl (fun q => refused_empty r q own) rfl rfl rfl rfl rfl (fun _ => rfl)
        fun _ _ => rfl
  all_goals
    rename_i pc
    repeat' split at h
    all_goals cases h
    all_goals exact .keeps _ _ rfl (fun _ => by rw [pc]; rfl) (fun _ => rfl) rfl rfl rfl fun _ => .inl rfl

/-- The sender of the channel of `r` has one holder: the registry, or a call that took it from there. -/
structure Engine.Held (r : Responder) (s : Engine) : Prop where
  sole : Sole (fun X : Thread => X.call.carries r = true) s.threads
  apart : s.pending r = true → Nowhere (fun X : Thread => X.call.carries r = true) s.threads
  sender : (s.channels r).sender = true ↔ s.pending r = true ∨ ∃ w, (s.threads w).call.carries r = true
  early : s.handles r = .unborn ∨ (∃ w, s.handles r = .insertPending w) →
    s.pending r = false ∧ Nowhere (fun X : Thread => X.call.carries r = true) s.threads
  ended : ∀ e, s.handles r = .dropReceiver e ∨ s.handles r = .done e → s.pending r = false
  closed : ∀ e, s.handles r = .done e → (s.channels r).receiver = false

section Held
variable {s t : Engine} {r : Responder} {w : ThreadId}

theorem Engine.Held.init (r : Responder) : ({} : Engine).Held r where
  sole := Nowhere.sole fun _ h => (by cases h)
  apart h := nomatch h
  sender := ⟨fun h => (by cases h), fun h => by rcases h with h | ⟨_, h⟩ <;> cases h⟩
  early _ := ⟨rfl, fun _ h => (by cases h)⟩
  ended _ h := by rcases h with h | h <;> cases h
  closed _ h := nomatch h

theorem Engine.Held.moved (hs : s.Held r) {pc : HandlePc} {c : Channel}
    (carries : ∀ u, (t.threads u).call.carries r = (s.threads u).call.carries r) (handle : t.handles r = pc)
    (channel : t.channels r = c) (pending : t.pending r = s.pending r) (sender : c.sender = (s.channels r).sender)
    (early : pc = .unborn ∨ (∃ w, pc = .insertPending w) → s.handles r = .unborn ∨ ∃ w, s.handles r = .insertPending w)
    (ended : ∀ e, pc = .dropReceiver e ∨ pc = .done e → s.pending r = false)
    (closed : ∀ e, pc = .done e → c.receiver = false) : t.Held r := by
  subst handle channel
  refine ⟨fun u v hu hv => hs.sole u v ((carries u).symm.trans hu) ((carries v).symm.trans hv), fun hp u hu => ?_, ?_,
    fun h => ⟨?_, fun u hu => ?_⟩, ?_, closed⟩
  · exact hs.apart (pending ▸ hp) u ((carries u).symm.trans hu)
  · rw [sender, pending]
    simp only [carries]
    exact hs.sender
  · rw [pending]
    exact (hs.early (early h)).1
  · exact (hs.early (early h)).2 u ((carries u).symm.trans hu)
  · rw [pending]
    exact ended

theorem Engine.Held.frame (hs : s.Held r) (carries : ∀ u, (t.threads u).call.carries r = (s.threads u).call.carries r)
    (pending : t.pending r = s.pending r) (channel : t.channels r = s.channels r) (handle : t.handles r = s.handles r) :
    t.Held r :=
  hs.moved carries handle channel pending rfl id hs.ended hs.closed

theorem carries_update {X : Thread} (threads : t.threads = Function.update s.threads w X)
    (before : (s.threads w).call.carries r = false) (after : X.call.carries r = false) (u : ThreadId) :
    (t.threads u).call.carries r = (s.threads u).call.carries r := by
  rw [threads]
  exact update_part (f := fun X : Thread => X.call.carries r) (after.trans before.symm) u

theorem Engine.Held.takes (hs : s.Held r) {own payload : Delivery} (found : s.pending r = true) :
    ((s.setPending r false).setCall w (.send r own payload)).Held r := by
  have hself : ((s.setPending r false).setCall w (.send r own payload)).pending r = false := Function.update_self ..
  have hcarries : (CallPc.send r own payload).carries r = true := decide_eq_true rfl
  refine ⟨(hs.apart found).enter, fun h => ?_, ?_, fun h => ?_, fun _ _ => hself, hs.closed⟩
  · rw [hself] at h
    cases h
  · refine iff_of_true (hs.sender.mpr (.inl found)) (.inr ?_)
    exact exists_update_self (P := fun X : Thread => X.call.carries r = true) hcarries
  · have hfalse := (hs.early h).1
    rw [found] at hfalse
    cases hfalse

theorem Engine.Held.sends (hs : s.Held r) {own payload : Delivery} {c : Channel} {next : CallPc}
    (pc : (s.threads w).call = .send r own payload)
    (threads : t.threads = Function.update s.threads w { s.threads w with call := next })
    (after : next.carries r = false) (channel : t.channels r = c) (sender : c.sender = false)
    (receiver : c.receiver = (s.channels r).receiver) (handle : t.handles r = s.handles r)
    (pending : t.pending r = s.pending r) : t.Held r := by
  have hcarries : (s.threads w).call.carries r = true := by
    rw [pc]
    exact decide_eq_true rfl
  have hfalse : s.pending r = false := Bool.eq_false_iff.mpr fun hp => hs.apart hp w hcarries
  have hnone : Nowhere (fun X : Thread => X.call.carries r = true) t.threads := by
    rw [threads]
    exact hs.sole.leave hcarries (by rw [after]; exact Bool.false_ne_true)
  refine ⟨hnone.sole, fun _ => hnone, ?_, fun _ => ⟨pending.trans hfalse, hnone⟩, ?_, ?_⟩
  · rw [channel, sender, pending, hfalse]
    refine iff_of_false Bool.false_ne_true fun h => ?_
    rcases h with h | ⟨u, hu⟩
    · cases h
    · exact hnone u hu
  · rw [handle, pending]
    exact hs.ended
  · rw [handle, channel, receiver]
    exact hs.closed

theorem Engine.Held.call (hs : s.Held r) (h : s.Passed w t) : t.Held r := by
  cases h with
  | takes q own payload pc found =>
    by_cases hq : q = r
    · subst hq
      exact hs.takes found
    · refine hs.frame (carries_update rfl ?_ ?_) (Function.update_of_ne (Ne.symm hq) _ _) rfl rfl
      · rw [pc]
        rfl
      · exact decide_eq_false hq
  | sends q own payload c next t pc threads after channels sender receiver handles pending accepted others =>
    by_cases hq : q = r
    · subst hq
      refine hs.sends pc threads (after q) ?_ sender receiver (congrFun handles q) (congrFun pending q)
      rw [channels, Function.update_self]
    · refine hs.frame (carries_update threads ?_ (after r)) (congrFun pending r) ?_ (congrFun handles r)
      · rw [pc]
        exact decide_eq_false hq
      · rw [channels, Function.update_of_ne (Ne.symm hq)]
  | keeps X t threads before after channels handles pending accepted =>
    exact hs.frame (carries_update threads (before r) (after r)) (congrFun pending r) (congrFun channels r)
      (congrFun handles r)

/-- A step of `handle` for `q`: it leaves other requests alone. -/
theorem Engine.Held.other (hs : s.Held r) {q : Responder} {pc : HandlePc} (hq : q ≠ r)
    (carries : ∀ u, (t.threads u).call.carries r = (s.threads u).call.carries r)
    (handles : t.handles = Function.update s.handles q pc) (pending : t.pending r = s.pending r)
    (channel : t.channels r = s.channels r) : t.Held r :=
  hs.frame carries pending channel (by rw [handles, Function.update_of_ne (Ne.symm hq)])

/-- The registry and `handle` drop what they hold of the sender. -/
theorem Engine.Held.removes (hs : s.Held r) {e : Ending} {c : Channel} (threads : t.threads = s.threads)
    (handle : t.handles r = .dropReceiver e) (channel : t.channels r = c) (pending : t.pending r = false)
    (sender : c.sender = ((s.channels r).sender && !s.pending r)) : t.Held r := by
  subst channel
  refine ⟨by rw [threads]; exact hs.sole, fun h => ?_, ?_, fun h => ?_, fun _ _ => pending, fun _ h => ?_⟩
  · rw [pending] at h
    cases h
  · rw [sender, pending, threads, Bool.and_eq_true, hs.sender]
    cases hp : s.pending r with
    | false => simp
    | true => simpa [Nowhere] using hs.apart hp
  · rw [handle] at h
    rcases h with h | ⟨_, h⟩ <;> cases h
  · rw [handle] at h
    cases h

theorem Engine.Held.aside {a : Act} (ho : s.Orderly) (hs : s.Held r) (h : s.Stepped a t) (ha : ∀ w, a ≠ .call w) :
    t.Held r := by
  have still : ∀ {X : Thread} {v : ThreadId}, X.call = (s.threads v).call → ∀ u,
      (Function.update s.threads v X u).call.carries r = (s.threads u).call.carries r := fun hX u =>
    congrArg (CallPc.carries r) (update_part (f := Thread.call) hX u)
  have live : ∀ {pc : HandlePc}, (∀ e, pc ≠ .dropReceiver e) → (∀ e, pc ≠ .done e) → ∀ e,
      pc = .dropReceiver e ∨ pc = .done e → s.pending r = false := fun hdrop hdone e h =>
    h.elim (fun h => absurd h (hdrop e)) fun h => absurd h (hdone e)
  have born : ∀ {pc : HandlePc}, pc ≠ .unborn → (∀ w, pc ≠ .insertPending w) →
      pc = .unborn ∨ (∃ w, pc = .insertPending w) → s.handles r = .unborn ∨ ∃ w, s.handles r = .insertPending w :=
    fun hborn hpending h => h.elim (fun h => absurd h hborn) fun ⟨w, h⟩ => absurd h (hpending w)
  cases h with
  | request w free idle =>
    by_cases hr : s.nextId = r
    · subst hr
      exact hs.moved (still rfl) (Function.update_self ..) rfl rfl rfl (fun _ => .inl (ho.fresh s.nextId (Nat.le_refl _)))
        (live nofun nofun) nofun
    · exact hs.other hr (still rfl) rfl rfl rfl
  | insertPending q w pc =>
    by_cases hq : q = r
    · subst hq
      have hchannel : (((s.setPending q true).setChannel q ⟨none, true, true⟩).setHandle q (.setCallback w)).channels q =
        ⟨none, true, true⟩ := Function.update_self ..
      have hhandle : (((s.setPending q true).setChannel q ⟨none, true, true⟩).setHandle q (.setCallback w)).handles q =
        .setCallback w := Function.update_self ..
      have hpending : (((s.setPending q true).setChannel q ⟨none, true, true⟩).setHandle q (.setCallback w)).pending q =
        true := Function.update_self ..
      obtain ⟨-, hnone⟩ := hs.early (.inr ⟨w, pc⟩)
      refine ⟨hnone.sole, fun _ => hnone, ?_, ?_, ?_, ?_⟩
      · rw [hchannel]
        exact iff_of_true rfl (.inl hpending)
      · rw [hhandle]
        exact fun h => by rcases h with h | ⟨_, h⟩ <;> cases h
      · rw [hhandle]
        exact fun _ h => by rcases h with h | h <;> cases h
      · rw [hhandle]
        exact fun _ h => (by cases h)
    · exact hs.other hq (fun _ => rfl) rfl (Function.update_of_ne (Ne.symm hq) _ _)
        (Function.update_of_ne (Ne.symm hq) _ _)
  | setCallback q w pc | clearCallback q w pc | takeSync q w d pc slot | noSync q w pc slot =>
    by_cases hq : q = r
    · subst hq
      exact hs.moved (still rfl) (Function.update_self ..) rfl rfl rfl (born nofun nofun) (live nofun nofun) nofun
    · exact hs.other hq (still rfl) rfl rfl rfl
  | endCallback q w pc idle =>
    by_cases hq : q = r
    · subst hq
      exact hs.moved (fun _ => rfl) (Function.update_self ..) rfl rfl rfl (born nofun nofun) (live nofun nofun) nofun
    · exact hs.other hq (fun _ => rfl) rfl rfl rfl
  | ending a q e pc sent =>
    by_cases hq : q = r
    · subst hq
      exact hs.moved (fun _ => rfl) (Function.update_self ..) (Function.update_self ..) rfl rfl (born nofun nofun)
        (live nofun nofun) nofun
    · exact hs.other hq (fun _ => rfl) rfl rfl (Function.update_of_ne (Ne.symm hq) _ _)
  | removePending q e pc =>
    by_cases hq : q = r
    · subst hq
      exact hs.removes rfl (Function.update_self ..) (Function.update_self ..) (Function.update_self ..) rfl
    · exact hs.other hq (fun _ => rfl) rfl (Function.update_of_ne (Ne.symm hq) _ _)
        (Function.update_of_ne (Ne.symm hq) _ _)
  | dropReceiver q e pc =>
    by_cases hq : q = r
    · subst hq
      exact hs.moved (fun _ => rfl) (Function.update_self ..) (Function.update_self ..) rfl rfl (born nofun nofun)
        (fun _ _ => hs.ended e (.inl pc)) fun _ _ => rfl
    · exact hs.other hq (fun _ => rfl) rfl rfl (Function.update_of_ne (Ne.symm hq) _ _)
  | enter w api pc idle may target fresh =>
    refine hs.frame (carries_update rfl (by rw [idle]; rfl) ?_) rfl rfl rfl
    cases pc with
    | send q own payload => exact absurd rfl (fresh q own payload).2
    | _ => rfl
  | body a streams => exact hs.frame (fun _ => rfl) rfl rfl rfl
  | onward w | sync w | take w | sent w | unsent w => exact absurd rfl (ha w)

theorem Engine.Held.step {cfg : Config} {a : Act} (ho : s.Orderly) (hs : s.Held r) (h : s.step cfg a = some t) :
    t.Held r := by
  by_cases ha : ∃ w, a = .call w
  · obtain ⟨w, rfl⟩ := ha
    exact hs.call (Engine.advance_passed h)
  · exact hs.aside ho (Engine.step_cases h ho.target) fun w he => ha ⟨w, he⟩

/-- A request that has ended stays as it is, and nothing more is accepted for it. -/
theorem Engine.Held.final {cfg : Config} {a : Act} {e : Ending} (ho : s.Orderly) (hs : s.Held r)
    (h : s.step cfg a = some t) (hdone : s.handles r = .done e) :
    t.handles r = .done e ∧ t.accepted r = s.accepted r := by
  by_cases ha : ∃ w, a = .call w
  · obtain ⟨w, rfl⟩ := ha
    cases Engine.advance_passed h with
    | takes q own payload pc found => exact ⟨hdone, rfl⟩
    | sends q own payload c next t pc threads after channels sender receiver handles pending accepted others =>
      refine ⟨(congrFun handles r).trans hdone, ?_⟩
      by_cases hq : r = q
      · subst hq
        exact congrFun (accepted (hs.closed e hdone)) r
      · exact others r hq
    | keeps X t threads before after channels handles pending accepted =>
      refine ⟨(congrFun handles r).trans hdone, (accepted r).resolve_right fun hin => ?_⟩
      rw [Orderly.inside ho hin.1 hin.2] at hdone
      cases hdone
  · have other : ∀ {q : Responder} {pc : HandlePc} (next : HandlePc), s.handles q = pc → pc ≠ .done e →
        Function.update s.handles q next r = .done e := by
      intro q pc next hq hpc
      rw [Function.update_of_ne, hdone]
      rintro rfl
      exact hpc (hq.symm.trans hdone)
    cases Engine.step_cases h ho.target with
    | request w free idle => exact ⟨other _ (ho.fresh s.nextId (Nat.le_refl _)) nofun, rfl⟩
    | insertPending q w pc | setCallback q w pc | endCallback q w pc idle | clearCallback q w pc
    | takeSync q w d pc slot | noSync q w pc slot | ending a q e' pc sent | removePending q e' pc
    | dropReceiver q e' pc => exact ⟨other _ pc nofun, rfl⟩
    | enter | body => exact ⟨hdone, rfl⟩
    | onward w | sync w | take w | sent w | unsent w => exact absurd ⟨w, rfl⟩ ha

end Held

theorem Engine.Reaches.held {cfg : Config} {as : List Act} {s t : Engine} (h : Engine.Reaches cfg anyStep s as t)
    (hs : s.Orderly ∧ ∀ r, s.Held r) : t.Orderly ∧ ∀ r, t.Held r :=
  Run.invariant (I := fun s : Engine => s.Orderly ∧ ∀ r, s.Held r) h
    (fun _ _ _ _ hs hstep => ⟨Engine.Orderly.step hs.1 (Engine.step_cases hstep hs.1.target),
      fun r => (hs.2 r).step hs.1 hstep⟩) hs

/-- `handle` waits for a sender that still exists. -/
theorem Engine.sender_of_blocked {s : Engine} {r : Responder} (hwaits : s.handles r = .await)
    (hblocked : s.serve r = none) : (s.channels r).sender = true := by
  simp only [Engine.serve, hwaits] at hblocked
  split at hblocked
  · cases hblocked
  · split at hblocked
    · assumption
    · cases hblocked

/-- No request is forgotten, whoever calls: while `handle` waits and cannot go on, its sender is in
the registry and no call has it, or it is not and exactly one call in progress does. -/
theorem waiting_never_forgotten {cfg : Config} {as : List Act} {s : Engine} (h : Engine.Reaches cfg anyStep {} as s)
    (r : Responder) (hwaits : s.handles r = .await) (hblocked : s.serve r = none) :
    (s.pending r = true ∧ ∀ w, (s.threads w).call.carries r = false) ∨
      s.pending r = false ∧ ∃ w, ∀ u, (s.threads u).call.carries r = true ↔ u = w := by
  have hs := (h.held ⟨.init, Engine.Held.init⟩).2 r
  rcases hs.sender.mp (Engine.sender_of_blocked hwaits hblocked) with hp | ⟨w, hw⟩
  · exact .inl ⟨hp, fun w => Bool.eq_false_iff.mpr (hs.apart hp w)⟩
  · refine .inr ⟨Bool.eq_false_iff.mpr fun hp => hs.apart hp w hw, w, fun u => ⟨fun hu => hs.sole u w hu hw, ?_⟩⟩
    rintro rfl
    exact hw

/-- Another thread has taken the sender of request 1, which waits. -/
theorem waiting_never_forgotten_carried : ∃ s, Engine.Reaches engineConfig anyStep {} (inRequest ++
      List.replicate 3 (Act.handle 1) ++ Act.enter 5 (.respond 1 200 (.null 0) (.null 0)) ::
      List.replicate 3 (Act.call 5)) s ∧
    s.pending 1 = false ∧ ∃ w, ∀ u, (s.threads u).call.carries 1 = true ↔ u = w := by
  have hrun : (replay (Engine.step engineConfig) anyStep {} (inRequest ++ List.replicate 3 (Act.handle 1) ++
      Act.enter 5 (.respond 1 200 (.null 0) (.null 0)) :: List.replicate 3 (Act.call 5))).any (fun s =>
        decide (s.handles 1 = .await ∧ (s.serve 1).isNone = true ∧ s.pending 1 = false)) = true := by decide
  obtain ⟨s, hs, hd⟩ := (Option.any_eq_true _ _).mp hrun
  obtain ⟨hwaits, hblocked, hp⟩ := of_decide_eq_true hd
  refine ⟨s, run_of_replay hs, ?_⟩
  refine (waiting_never_forgotten (run_of_replay hs) 1 hwaits (Option.isNone_iff_eq_none.mp hblocked)).resolve_left ?_
  rw [hp]
  exact fun h => (by cases h.1)

/-- A responder outlives its request harmlessly, whoever still has it: once `handle` has ended, no
`respond` and no `begin` on it succeeds any more, and its ending stays as it is. -/
theorem ended_request_takes_nothing {cfg : Config} {as bs : List Act} {s t : Engine}
    (h : Engine.Reaches cfg anyStep {} as s) (k : Engine.Reaches cfg anyStep s bs t) {r : Responder} {e : Ending}
    (hdone : s.handles r = .done e) : t.handles r = .done e ∧ t.accepted r = s.accepted r := by
  obtain ⟨ho, hs⟩ := h.held ⟨.init, Engine.Held.init⟩
  have hrun := Run.invariant (I := fun t : Engine => t.Orderly ∧ (∀ r, t.Held r) ∧
    t.handles r = .done e ∧ t.accepted r = s.accepted r) k ?_ ⟨ho, hs, hdone, rfl⟩
  · exact hrun.2.2
  · rintro u a v - ⟨ho, hs, hend, haccepted⟩ hstep
    obtain ⟨hend', haccepted'⟩ := (hs r).final ho hstep hend
    exact ⟨Engine.Orderly.step ho (Engine.step_cases hstep ho.target), fun q => (hs q).step ho hstep, hend',
      haccepted'.trans haccepted⟩

/-- The client goes away while request 1 waits, and the handler answers all the same. -/
theorem ended_request_takes_nothing_late : ∃ s t,
    Engine.Reaches engineConfig anyStep {} (inRequest ++ List.replicate 3 (Act.handle 1) ++ [.disconnect 1] ++
      List.replicate 2 (Act.handle 1)) s ∧
    Engine.Reaches engineConfig anyStep s
      (Act.enter 5 (.respond 1 200 (.null 0) (.null 0)) :: List.replicate 3 (Act.call 5)) t ∧
    (t.threads 5).call = .returned .failed ∧ t.handles 1 = .done .cancelled ∧ t.accepted 1 = s.accepted 1 := by
  have hrun : (replay (Engine.step engineConfig) anyStep {} (inRequest ++ List.replicate 3 (Act.handle 1) ++
      [.disconnect 1] ++ List.replicate 2 (Act.handle 1))).any (fun s => decide (s.handles 1 = .done .cancelled) &&
        (replay (Engine.step engineConfig) anyStep s (Act.enter 5 (.respond 1 200 (.null 0) (.null 0)) ::
          List.replicate 3 (Act.call 5))).any fun t => decide ((t.threads 5).call = .returned .failed)) = true := by
    decide
  obtain ⟨s, hs, hd⟩ := (Option.any_eq_true _ _).mp hrun
  obtain ⟨hdone, hlate⟩ := Bool.and_eq_true_iff.mp hd
  obtain ⟨t, ht, hcode⟩ := (Option.any_eq_true _ _).mp hlate
  obtain ⟨hend, haccepted⟩ :=
    ended_request_takes_nothing (run_of_replay hs) (run_of_replay ht) (of_decide_eq_true hdone)
  exact ⟨s, t, run_of_replay hs, run_of_replay ht, of_decide_eq_true hcode, hend, haccepted⟩

end Hyper4k.Server
