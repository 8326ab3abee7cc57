import Hyper4k.Runs.Threads
import Hyper4k.Server.Stepped

/-! Threads and the requests they serve, in every run of the engine. -/
namespace Hyper4k.Server

/-- Threads and the requests they serve: which request a thread is serving, that it makes
calls for it only from its callback, and that its fast path is open only there. -/
structure Orderly (nextId : Responder) (handles : Responder → HandlePc) (threads : ThreadId → Thread) : Prop where
  fresh : ∀ q, nextId ≤ q → handles q = .unborn
  serving : ∀ q w, (handles q).thread = some w → (threads w).serving = some q
  resting : ∀ q w, (handles q).thread = some w → handles q = .inCallback w ∨ (threads w).call = .idle
  callback : ∀ w, (threads w).inCallback ≠ 0 →
    handles (threads w).inCallback = .inCallback w ∨ handles (threads w).inCallback = .clearCallback w
  slot : ∀ w, (threads w).syncResponse ≠ none →
    ∃ q, handles q = .inCallback w ∨ handles q = .clearCallback w ∨ handles q = .takeSync w
  target : ∀ w, (threads w).call.target ≠ some 0
  payload : ∀ w r own payload, (threads w).call = .takePending r own payload →
    payload = own ∨ ((threads w).inCallback = r ∧ (threads w).syncResponse ≠ none)

section Orderly
variable {n : Responder} {H : Responder → HandlePc} {T : ThreadId → Thread} {r : Responder} {w : ThreadId}

/-- Two requests are never served by one thread. -/
theorem Orderly.sole (hs : Orderly n H T) {q : Responder} (hr : (H r).thread = some w) (hq : (H q).thread = some w) :
    q = r :=
  Option.some.inj ((hs.serving q w hq).symm.trans (hs.serving r w hr))

/-- A thread with a call in progress serves nobody, or is in the callback of its request. -/
theorem Orderly.calling (hs : Orderly n H T) (hbusy : (T w).call ≠ .idle) :
    ∀ q, (H q).thread = some w → H q = .inCallback w :=
  fun q hq => (hs.resting q w hq).resolve_right hbusy

theorem Orderly.idle (hs : Orderly n H T) (hr : (H r).thread = some w) (h : H r ≠ .inCallback w) :
    (T w).call = .idle :=
  (hs.resting r w hr).resolve_left h

theorem thread_of_slot {pc : HandlePc} {u : ThreadId}
    (h : pc = .inCallback u ∨ pc = .clearCallback u ∨ pc = .takeSync u) : pc.thread = some u := by
  rcases h with h | h | h <;> rw [h] <;> rfl

/-- `IN_CALLBACK` names the request that the thread is serving. -/
theorem Orderly.current (hs : Orderly n H T) (hr : (H r).thread = some w) (hc : (T w).inCallback ≠ 0) :
    (T w).inCallback = r :=
  hs.sole hr (thread_of_slot ((hs.callback w hc).imp_right .inl))

/-- A call that finds its own responder in `IN_CALLBACK` runs inside that request's callback. -/
theorem Orderly.inside (hs : Orderly n H T) (htarget : (T w).call.target = some r) (hin : (T w).inCallback = r) :
    H r = .inCallback w := by
  have hr : (T w).inCallback ≠ 0 := by
    rw [hin]
    exact fun e => hs.target w (htarget.trans (congrArg some e))
  have hthread := thread_of_slot ((hs.callback w hr).imp_right .inl)
  rw [hin] at hthread
  exact hs.calling (fun e => by rw [e] at htarget; cases htarget) r hthread

theorem Orderly.closed (hs : Orderly n H T) (hr : (H r).thread = some w)
    (h : ¬ (H r = .inCallback w ∨ H r = .clearCallback w)) : (T w).inCallback = 0 := by
  by_contra hc
  have hin := hs.callback w hc
  rw [hs.current hr hc] at hin
  exact h hin

theorem Orderly.empty (hs : Orderly n H T) (hr : (H r).thread = some w)
    (h : ¬ (H r = .inCallback w ∨ H r = .clearCallback w ∨ H r = .takeSync w)) : (T w).syncResponse = none := by
  by_contra hd
  obtain ⟨q, hq⟩ := hs.slot w hd
  rw [hs.sole hr (thread_of_slot hq)] at hq
  exact h hq

theorem Orderly.vacant (hs : Orderly n H T) (hfree : (T w).serving = none) : (T w).syncResponse = none := by
  by_contra hd
  obtain ⟨q, hq⟩ := hs.slot w hd
  have hserving := hs.serving q w (thread_of_slot hq)
  rw [hfree] at hserving
  cases hserving

/-- The call on a thread goes on, and may use the fast path. -/
theorem Orderly.setCall (hs : Orderly n H T) {pc : CallPc} {slot : Option Delivery}
    (hrest : ∀ q, (H q).thread = some w → H q = .inCallback w) (htarget : pc.target ≠ some 0)
    (hslot : slot ≠ none → ∃ q, H q = .inCallback w ∨ H q = .clearCallback w ∨ H q = .takeSync w)
    (hpayload : ∀ r own payload, pc = .takePending r own payload →
      payload = own ∨ ((T w).inCallback = r ∧ slot ≠ none)) :
    Orderly n H (Function.update T w { T w with syncResponse := slot, call := pc }) := by
  have callback : ∀ u, (Function.update T w { T w with syncResponse := slot, call := pc } u).inCallback =
      (T u).inCallback := Runs.update_part (f := Thread.inCallback) rfl
  refine ⟨hs.fresh, fun q u hq => ?_, fun q u hq => ?_, fun u hu => ?_, ?_, ?_, ?_⟩
  · exact (Runs.update_part (f := Thread.serving) (by rfl) u).trans (hs.serving q u hq)
  · refine Runs.forall_update (Q := fun u (X : Thread) => (H q).thread = some u → H q = .inCallback u ∨ X.call = .idle)
      (fun hq => ?_) (fun u _ => hs.resting q u) u hq
    exact .inl (hrest q hq)
  · rw [callback u] at hu ⊢
    exact hs.callback u hu
  · exact Runs.forall_update (Q := fun u (X : Thread) => X.syncResponse ≠ none → _) hslot fun u _ => hs.slot u
  · exact Runs.forall_update (Q := fun _ (X : Thread) => X.call.target ≠ some 0) htarget fun u _ => hs.target u
  · exact Runs.forall_update (Q := fun _ (X : Thread) => ∀ r own payload, X.call = .takePending r own payload →
      payload = own ∨ (X.inCallback = r ∧ X.syncResponse ≠ none)) hpayload fun u _ => hs.payload u

theorem Orderly.move (hs : Orderly n H T) (hr : (H r).thread = some w) (pc : HandlePc) (X : Thread)
    (hcall : X.call = (T w).call) (hserving : pc.thread = some w → X.serving = some r)
    (hthread : ∀ u, pc.thread = some u → u = w)
    (hcallback : X.inCallback ≠ 0 → X.inCallback = r ∧ (pc = .inCallback w ∨ pc = .clearCallback w))
    (hslot : X.syncResponse ≠ none → pc = .inCallback w ∨ pc = .clearCallback w ∨ pc = .takeSync w)
    (hidle : (T w).call = .idle) : Orderly n (Function.update H r pc) (Function.update T w X) := by
  have keep : ∀ {q u}, (H q).thread = some u → u ≠ w → Function.update H r pc q = H q := by
    intro q u hq hu
    refine Function.update_of_ne ?_ _ _
    rintro rfl
    exact hu (Option.some.inj (hq.symm.trans hr))
  refine ⟨fun q hq => ?_, fun q u hq => ?_, fun q u hq => ?_, fun u hu => ?_, fun u hu => ?_, ?_, ?_⟩
  · have hqr : q ≠ r := by
      rintro rfl
      rw [hs.fresh q hq] at hr
      cases hr
    rw [Function.update_of_ne hqr]
    exact hs.fresh q hq
  · by_cases hqr : q = r
    · subst hqr
      rw [Function.update_self] at hq
      obtain rfl := hthread u hq
      rw [Function.update_self]
      exact hserving hq
    · rw [Function.update_of_ne hqr] at hq
      have huw : u ≠ w := by
        rintro rfl
        exact hqr (hs.sole hr hq)
      rw [Function.update_of_ne huw]
      exact hs.serving q u hq
  · by_cases hqr : q = r
    · subst hqr
      rw [Function.update_self] at hq ⊢
      obtain rfl := hthread u hq
      exact .inr (by rw [Function.update_self, hcall, hidle])
    · rw [Function.update_of_ne hqr] at hq ⊢
      have huw : u ≠ w := by
        rintro rfl
        exact hqr (hs.sole hr hq)
      rw [Function.update_of_ne huw]
      exact hs.resting q u hq
  · by_cases huw : u = w
    · subst huw
      rw [Function.update_self] at hu ⊢
      obtain ⟨he, hpc⟩ := hcallback hu
      rw [he, Function.update_self]
      exact hpc
    · rw [Function.update_of_ne huw] at hu ⊢
      have hc := hs.callback u hu
      rwa [keep (thread_of_slot (hc.imp_right .inl)) huw]
  · by_cases huw : u = w
    · subst huw
      rw [Function.update_self] at hu
      exact ⟨r, by rw [Function.update_self]; exact hslot hu⟩
    · rw [Function.update_of_ne huw] at hu
      obtain ⟨q, hq⟩ := hs.slot u hu
      exact ⟨q, by rwa [keep (thread_of_slot hq) huw]⟩
  · exact Runs.forall_update (Q := fun _ (X : Thread) => X.call.target ≠ some 0) (hcall ▸ hs.target w)
      fun u _ => hs.target u
  · refine Runs.forall_update (Q := fun _ (X : Thread) => ∀ r own payload, X.call = .takePending r own payload →
      payload = own ∨ (X.inCallback = r ∧ X.syncResponse ≠ none)) (fun q d p hu => ?_) fun u _ => hs.payload u
    rw [hcall, hidle] at hu
    cases hu

theorem Orderly.moveOff (hs : Orderly n H T) (hr : (H r).thread = none) (hborn : H r ≠ .unborn) {pc : HandlePc}
    (hpc : pc.thread = none) : Orderly n (Function.update H r pc) T := by
  have keep : ∀ {q u}, (H q).thread = some u → Function.update H r pc q = H q := by
    intro q u hq
    refine Function.update_of_ne ?_ _ _
    rintro rfl
    rw [hr] at hq
    cases hq
  have back : ∀ {q u}, (Function.update H r pc q).thread = some u → (H q).thread = some u := by
    intro q u hq
    by_cases hqr : q = r
    · subst hqr
      rw [Function.update_self, hpc] at hq
      cases hq
    · rwa [Function.update_of_ne hqr] at hq
  refine ⟨fun q hq => ?_, fun q u hq => hs.serving q u (back hq), fun q u hq => ?_, fun u hu => ?_, fun u hu => ?_,
    hs.target, hs.payload⟩
  · have hqr : q ≠ r := by
      rintro rfl
      exact hborn (hs.fresh q hq)
    rw [Function.update_of_ne hqr]
    exact hs.fresh q hq
  · rw [keep (back hq)]
    exact hs.resting q u (back hq)
  · have hc := hs.callback u hu
    rwa [keep (thread_of_slot (hc.imp_right .inl))]
  · obtain ⟨q, hq⟩ := hs.slot u hu
    exact ⟨q, by rwa [keep (thread_of_slot hq)]⟩

/-- A thread that serves nobody begins to serve a new request. -/
theorem Orderly.request (hs : Orderly n H T) (hfree : (T w).serving = none) (hidle : (T w).call = .idle) :
    Orderly (n + 1) (Function.update H n (.insertPending w)) (Function.update T w { T w with serving := some n }) := by
  have hborn : H n = .unborn := hs.fresh n (Nat.le_refl n)
  have away : ∀ {q u}, (H q).thread = some u → u ≠ w := by
    rintro q u hq rfl
    rw [hs.serving q u hq] at hfree
    cases hfree
  have keep : ∀ {q u}, (H q).thread = some u → Function.update H n (.insertPending w) q = H q := by
    intro q u hq
    refine Function.update_of_ne ?_ _ _
    rintro rfl
    rw [hborn] at hq
    cases hq
  have old : ∀ {q u}, q ≠ n → (Function.update H n (.insertPending w) q).thread = some u → (H q).thread = some u := by
    intro q u hqn hq
    rwa [Function.update_of_ne hqn] at hq
  have callback : ∀ u, (Function.update T w { T w with serving := some n } u).inCallback = (T u).inCallback :=
    Runs.update_part (f := Thread.inCallback) rfl
  refine ⟨fun q hq => ?_, fun q u hq => ?_, fun q u hq => ?_, fun u hu => ?_, fun u hu => ?_, ?_, ?_⟩
  · rw [Function.update_of_ne (Nat.ne_of_gt hq)]
    exact hs.fresh q (Nat.le_of_succ_le hq)
  · by_cases hqn : q = n
    · subst hqn
      rw [Function.update_self] at hq
      cases hq
      rw [Function.update_self]
    · rw [Function.update_of_ne (away (old hqn hq))]
      exact hs.serving q u (old hqn hq)
  · by_cases hqn : q = n
    · subst hqn
      rw [Function.update_self] at hq
      cases hq
      exact .inr (by rw [Function.update_self]; exact hidle)
    · rw [keep (old hqn hq), Function.update_of_ne (away (old hqn hq))]
      exact hs.resting q u (old hqn hq)
  · rw [callback u] at hu ⊢
    have hc := hs.callback u hu
    rwa [keep (thread_of_slot (hc.imp_right .inl))]
  · have hu : (T u).syncResponse ≠ none := fun e =>
      hu ((Runs.update_part (f := Thread.syncResponse) (by rfl) u).trans e)
    obtain ⟨q, hq⟩ := hs.slot u hu
    exact ⟨q, by rwa [keep (thread_of_slot hq)]⟩
  · exact Runs.forall_update (Q := fun _ (X : Thread) => X.call.target ≠ some 0) (hs.target w) fun u _ => hs.target u
  · exact Runs.forall_update (Q := fun _ (X : Thread) => ∀ r own payload, X.call = .takePending r own payload →
      payload = own ∨ (X.inCallback = r ∧ X.syncResponse ≠ none)) (hs.payload w) fun u _ => hs.payload u

end Orderly

abbrev Engine.Orderly (s : Engine) : Prop := Server.Orderly s.nextId s.handles s.threads

theorem Engine.Orderly.init : ({} : Engine).Orderly where
  fresh _ _ := rfl
  serving _ _ h := by cases h
  resting _ _ h := by cases h
  callback _ h := absurd rfl h
  slot _ h := absurd rfl h
  target _ := nofun
  payload _ _ _ _ h := by cases h

theorem Engine.Orderly.step {s t : Engine} {a : Act} (hs : s.Orderly) (h : s.Stepped a t) : t.Orderly := by
  cases h with
  | request w free idle => exact hs.request free idle
  | insertPending r w pc =>
    have hr : (s.handles r).thread = some w := by rw [pc]; rfl
    have hmove := hs.move hr (.setCallback w) (s.threads w) rfl (fun _ => hs.serving r w hr)
      (fun u hu => (Option.some.inj hu).symm) (fun hc => absurd (hs.closed hr (by simp [pc])) hc)
      (fun hd => absurd (hs.empty hr (by simp [pc])) hd) (hs.idle hr (by simp [pc]))
    rwa [Function.update_eq_self] at hmove
  | setCallback r w pc =>
    have hr : (s.handles r).thread = some w := by rw [pc]; rfl
    exact hs.move hr _ _ rfl (fun _ => hs.serving r w hr) (fun u hu => (Option.some.inj hu).symm)
      (fun _ => ⟨rfl, .inl rfl⟩) (fun _ => .inl rfl) (hs.idle hr (by simp [pc]))
  | endCallback r w pc idle =>
    have hr : (s.handles r).thread = some w := by rw [pc]; rfl
    have hmove := hs.move hr (.clearCallback w) (s.threads w) rfl (fun _ => hs.serving r w hr)
      (fun u hu => (Option.some.inj hu).symm) (fun hc => ⟨hs.current hr hc, .inr rfl⟩) (fun _ => .inr (.inl rfl)) idle
    rwa [Function.update_eq_self] at hmove
  | clearCallback r w pc =>
    have hr : (s.handles r).thread = some w := by rw [pc]; rfl
    exact hs.move hr _ _ rfl (fun _ => hs.serving r w hr) (fun u hu => (Option.some.inj hu).symm)
      (fun hc => absurd rfl hc) (fun _ => .inr (.inr rfl)) (hs.idle hr (by simp [pc]))
  | takeSync r w d pc slot =>
    have hr : (s.handles r).thread = some w := by rw [pc]; rfl
    exact hs.move hr _ _ rfl nofun nofun (fun hc => absurd (hs.closed hr (by simp [pc])) hc)
      (fun hd => absurd rfl hd) (hs.idle hr (by simp [pc]))
  | noSync r w pc slot =>
    have hr : (s.handles r).thread = some w := by rw [pc]; rfl
    exact hs.move hr _ _ rfl nofun nofun (fun hc => absurd (hs.closed hr (by simp [pc])) hc)
      (fun hd => absurd slot hd) (hs.idle hr (by simp [pc]))
  | ending a r e pc sent => exact hs.moveOff (by rw [pc]; rfl) (by rw [pc]; nofun) rfl
  | removePending r e pc => exact hs.moveOff (by rw [pc]; rfl) (by rw [pc]; nofun) rfl
  | dropReceiver r e pc => exact hs.moveOff (by rw [pc]; rfl) (by rw [pc]; nofun) rfl
  | enter w api pc idle may target fresh =>
    refine hs.setCall (fun q hq => ?_) target (hs.slot w) fun r own payload e => absurd e (fresh r own payload).1
    rw [Engine.mayCall, hs.serving q w hq] at may
    exact of_decide_eq_true may
  | onward w pc active streams nextStream busy target payload quiet =>
    exact hs.setCall (hs.calling busy) target (hs.slot w) payload
  | sync w r own pc inside slot =>
    refine hs.setCall (hs.calling (by rw [pc]; nofun)) nofun (fun _ => ?_) nofun
    exact ⟨r, .inl (hs.inside (by rw [pc]; rfl) inside)⟩
  | take w r own payload pc found =>
    have htarget := hs.target w
    rw [pc] at htarget
    exact hs.setCall (hs.calling (by rw [pc]; nofun)) htarget (hs.slot w) nofun
  | sent w r own payload pc => exact hs.setCall (hs.calling (by rw [pc]; nofun)) nofun (hs.slot w) nofun
  | unsent w r own payload pc =>
    obtain ⟨htarget, htake, -⟩ := refused_pc r own
    refine hs.setCall (hs.calling (by rw [pc]; nofun)) ?_ (hs.slot w) fun q d p e => absurd e (htake q d p)
    rw [htarget]
    nofun
  | body a streams => exact hs

end Hyper4k.Server
