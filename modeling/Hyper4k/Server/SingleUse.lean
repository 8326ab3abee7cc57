import Hyper4k.Server.Orderly

/-! A responder is good for one delivery. -/
namespace Hyper4k.Server

/-- The call has taken the sender of `r` and not used it yet. -/
def CallPc.carries (r : Responder) : CallPc → Bool
  | .send q _ _ => decide (q = r)
  | _ => false

private theorem carries_eq_false {r : Responder} {pc : CallPc} (h : ∀ q own payload, pc = .send q own payload → q ≠ r) :
    pc.carries r = false := by
  cases pc with
  | send q own payload => exact decide_eq_false (h q own payload rfl)
  | _ => rfl

private theorem ne_send {r : Responder} {pc : CallPc} (h : pc.carries r = false) (own payload : Delivery) :
    pc ≠ .send r own payload := by
  rintro rfl
  exact of_decide_eq_false h rfl

/-- The request has its delivery from the fast path, or any delivery once it ends. -/
def Engine.synced (s : Engine) (r : Responder) : Bool :=
  match s.handles r with
  | .inCallback w | .clearCallback w | .takeSync w => (s.threads w).syncResponse.isSome
  | .removePending (.answered _) => true
  | _ => false

/-- The right to answer `r` is in one place: in the registry, in the hands of a call, or
spent on the one delivery that was accepted. -/
structure Engine.Single (r : Responder) (s : Engine) : Prop where
  once : s.accepted r = [] ∨ ∃ d, s.accepted r = [d]
  registered : s.pending r = true → s.synced r = false →
    s.accepted r = [] ∧ ∀ w, (s.threads w).call.carries r = false
  carried : ∀ w, (s.threads w).call.carries r = true → s.accepted r = [] ∧ s.pending r = false ∧
    ∀ u, (s.threads u).call.carries r = true → u = w
  own : ∀ w own payload, (s.threads w).call = .send r own payload → payload = own
  slot : ∀ w d, s.handles r = .inCallback w ∨ s.handles r = .clearCallback w ∨ s.handles r = .takeSync w →
    (s.threads w).syncResponse = some d → s.accepted r = [d]
  sent : ∀ d, (s.channels r).sent = some d → s.accepted r = [d]
  answered : ∀ d, (s.handles r).ending = some (.answered d) → s.accepted r = [d]
  unborn : s.handles r = .unborn ∨ (∃ w, s.handles r = .insertPending w) →
    s.pending r = false ∧ s.accepted r = [] ∧ (s.channels r).sent = none ∧ ∀ w, (s.threads w).call.carries r = false

theorem Engine.Single.init (r : Responder) : ({} : Engine).Single r where
  once := .inl rfl
  registered h := by cases h
  carried _ h := by cases h
  own _ _ _ h := by cases h
  slot _ _ _ h := by cases h
  sent _ h := by cases h
  answered _ h := by cases h
  unborn _ := ⟨rfl, rfl, rfl, fun _ => rfl⟩

structure Engine.Frame (r : Responder) (s t : Engine) : Prop where
  pending : t.pending r = s.pending r
  accepted : t.accepted r = s.accepted r
  sent : (t.channels r).sent = (s.channels r).sent
  handle : t.handles r = s.handles r
  calls : ∀ w, (t.threads w).call.carries r = true → (t.threads w).call = (s.threads w).call
  slot : ∀ w, s.handles r = .inCallback w ∨ s.handles r = .clearCallback w ∨ s.handles r = .takeSync w →
    (t.threads w).syncResponse = (s.threads w).syncResponse

theorem Engine.Frame.synced {r : Responder} {s t : Engine} (h : Engine.Frame r s t) : t.synced r = s.synced r := by
  unfold Engine.synced
  rw [h.handle]
  split
  case h_1 w pc => rw [h.slot w (.inl pc)]
  case h_2 w pc => rw [h.slot w (.inr (.inl pc))]
  case h_3 w pc => rw [h.slot w (.inr (.inr pc))]
  all_goals rfl

theorem Engine.Single.frame {r : Responder} {s t : Engine} (hs : s.Single r) (h : Engine.Frame r s t) : t.Single r where
  once := h.accepted ▸ hs.once
  registered hp hsync := by
    obtain ⟨hnil, hnone⟩ := hs.registered (h.pending ▸ hp) (h.synced ▸ hsync)
    refine ⟨h.accepted.trans hnil, fun w => ?_⟩
    by_contra hc
    have hc := Bool.not_eq_false _ ▸ hc
    rw [h.calls w hc, hnone w] at hc
    cases hc
  carried w hw := by
    obtain ⟨hnil, hp, hsole⟩ := hs.carried w (h.calls w hw ▸ hw)
    exact ⟨h.accepted.trans hnil, h.pending.trans hp, fun u hu => hsole u (h.calls u hu ▸ hu)⟩
  own w own payload hw := hs.own w own payload (h.calls w (by rw [hw]; simp [CallPc.carries]) ▸ hw)
  slot w d hpc hd := by
    rw [h.handle] at hpc
    exact h.accepted.trans (hs.slot w d hpc (h.slot w hpc ▸ hd))
  sent d hd := h.accepted.trans (hs.sent d (h.sent ▸ hd))
  answered d hd := h.accepted.trans (hs.answered d (h.handle ▸ hd))
  unborn hpc := by
    obtain ⟨hp, hnil, hsent, hnone⟩ := hs.unborn (h.handle ▸ hpc)
    refine ⟨h.pending.trans hp, h.accepted.trans hnil, h.sent.trans hsent, fun w => ?_⟩
    by_contra hc
    have hc := Bool.not_eq_false _ ▸ hc
    rw [h.calls w hc, hnone w] at hc
    cases hc

theorem Engine.Frame.of_thread {r : Responder} {s t : Engine} {w : ThreadId} {X : Thread}
    (hthreads : t.threads = Function.update s.threads w X) (pending : t.pending r = s.pending r)
    (accepted : t.accepted r = s.accepted r) (sent : (t.channels r).sent = (s.channels r).sent)
    (handle : t.handles r = s.handles r) (hcall : X.call.carries r = true → X.call = (s.threads w).call)
    (hslot : (s.handles r).thread = some w → X.syncResponse = (s.threads w).syncResponse) : Engine.Frame r s t := by
  refine ⟨pending, accepted, sent, handle, fun u hu => ?_, fun u hu => ?_⟩ <;> rw [hthreads] at * <;>
    by_cases huw : u = w
  · subst huw
    rw [Function.update_self] at hu ⊢
    exact hcall hu
  · rw [Function.update_of_ne huw]
  · subst huw
    rw [Function.update_self]
    exact hslot (thread_of_slot hu)
  · rw [Function.update_of_ne huw]

theorem Engine.Frame.of_request {r : Responder} {s t : Engine} (threads : t.threads = s.threads)
    (accepted : t.accepted = s.accepted) (pending : t.pending r = s.pending r) (channel : t.channels r = s.channels r)
    (handle : t.handles r = s.handles r) : Engine.Frame r s t :=
  ⟨pending, congrFun accepted r, congrArg Channel.sent channel, handle, fun w _ => by rw [threads],
    fun w _ => by rw [threads]⟩

/-- A step of the request itself, in which no call moves and nothing is accepted. -/
theorem Engine.Single.moved {r : Responder} {s t : Engine} (hs : s.Single r) {pc : HandlePc} (hpc : t.handles r = pc)
    (hborn : pc ≠ .unborn ∧ ∀ w, pc ≠ .insertPending w) (haccepted : t.accepted r = s.accepted r)
    (hcalls : ∀ w, (t.threads w).call = (s.threads w).call) (hpending : t.pending r = true → s.pending r = true)
    (hsynced : t.pending r = true → t.synced r = false → s.synced r = false)
    (hsent : (t.channels r).sent = (s.channels r).sent)
    (hslot : ∀ w d, pc = .inCallback w ∨ pc = .clearCallback w ∨ pc = .takeSync w →
      (t.threads w).syncResponse = some d → s.accepted r = [d])
    (hanswered : ∀ d, pc.ending = some (.answered d) → s.accepted r = [d]) : t.Single r where
  once := haccepted ▸ hs.once
  registered hp hsync := by
    obtain ⟨hnil, hnone⟩ := hs.registered (hpending hp) (hsynced hp hsync)
    exact ⟨haccepted.trans hnil, fun w => by rw [hcalls w]; exact hnone w⟩
  carried w hw := by
    rw [hcalls w] at hw
    obtain ⟨hnil, hp, hsole⟩ := hs.carried w hw
    refine ⟨haccepted.trans hnil, ?_, fun u hu => hsole u (hcalls u ▸ hu)⟩
    by_contra ht
    exact nomatch hp.symm.trans (hpending (Bool.not_eq_false _ ▸ ht))
  own w own payload hw := hs.own w own payload (hcalls w ▸ hw)
  slot w d hat hd := haccepted.trans (hslot w d (hpc ▸ hat) hd)
  sent d hd := haccepted.trans (hs.sent d (hsent ▸ hd))
  answered d hd := haccepted.trans (hanswered d (hpc ▸ hd))
  unborn hat := by
    rw [hpc] at hat
    rcases hat with hat | ⟨w, hat⟩
    · exact absurd hat hborn.1
    · exact absurd hat (hborn.2 w)

theorem Engine.Single.newborn {r : Responder} {t : Engine} {w : ThreadId} (hnil : t.accepted r = [])
    (hsent : (t.channels r).sent = none) (hnone : ∀ u, (t.threads u).call.carries r = false)
    (hpc : (t.handles r = .insertPending w ∧ t.pending r = false) ∨ t.handles r = .setCallback w) : t.Single r where
  once := .inl hnil
  registered _ _ := ⟨hnil, hnone⟩
  carried u hu := nomatch (hnone u).symm.trans hu
  own u own payload hu := absurd hu (ne_send (hnone u) own payload)
  slot u d hat _ := by rcases hpc with ⟨h, -⟩ | h <;> rw [h] at hat <;> rcases hat with h | h | h <;> cases h
  sent d hd := nomatch hsent.symm.trans hd
  answered d hd := by rcases hpc with ⟨h, -⟩ | h <;> rw [h] at hd <;> cases hd
  unborn hat := by
    rcases hpc with ⟨-, hp⟩ | h
    · exact ⟨hp, hnil, hsent, hnone⟩
    · rw [h] at hat
      rcases hat with h | ⟨u, h⟩ <;> cases h

def CallPc.delivers (r : Responder) : CallPc → Bool
  | .deliver q _ => decide (q = r)
  | _ => false

def CallPc.takes (r : Responder) : CallPc → Bool
  | .takePending q _ _ => decide (q = r)
  | _ => false

/-- The fast path and the registry agree: a delivery goes to the sync slot only while `r`
is registered, and nobody finds `r` registered once its slot has been used. -/
def Engine.SingleUse (r : Responder) (s : Engine) : Act → Prop
  | .call w =>
    ((s.threads w).call.delivers r = true → (s.threads w).inCallback = r → (s.threads w).syncResponse = none →
      s.pending r = true) ∧
    ((s.threads w).call.takes r = true → s.pending r = true → s.synced r = false)
  | _ => True

instance (r : Responder) (s : Engine) : (a : Act) → Decidable (s.SingleUse r a)
  | .call w => inferInstanceAs (Decidable
      (((s.threads w).call.delivers r = true → (s.threads w).inCallback = r → (s.threads w).syncResponse = none →
        s.pending r = true) ∧
      ((s.threads w).call.takes r = true → s.pending r = true → s.synced r = false)))
  | .request _ | .handle _ | .disconnect _ | .enter _ _ | .poll _ | .dropBody _ => inferInstanceAs (Decidable True)

section Steps
variable {r : Responder} {s : Engine} (ho : s.Orderly) (hs : s.Single r)
include ho hs

private theorem single_sync {w : ThreadId} {own : Delivery} (pc : (s.threads w).call = .deliver r own)
    (inside : (s.threads w).inCallback = r) (slot : (s.threads w).syncResponse = none) (hp : s.pending r = true) :
    ((s.setThread w { s.threads w with syncResponse := some own, call := .returned .ok }).accept r own).Single r := by
  have hin : s.handles r = .inCallback w := ho.inside (by rw [pc]; rfl) inside
  have hsync : s.synced r = false := by simp [Engine.synced, hin, slot]
  obtain ⟨hnil, hnone⟩ := hs.registered hp hsync
  have hacc : ((s.setThread w { s.threads w with syncResponse := some own, call := .returned .ok }).accept r
      own).accepted r = [own] := by
    simp [Engine.accept, Engine.setThread, hnil]
  have hcalls : ∀ u, (Function.update s.threads w { s.threads w with syncResponse := some own, call := .returned .ok }
      u).call.carries r = false := by
    intro u
    by_cases huw : u = w
    · subst huw
      rw [Function.update_self]
      rfl
    · rw [Function.update_of_ne huw]
      exact hnone u
  refine ⟨.inr ⟨own, hacc⟩, fun _ hf => ?_, fun u hu => ?_, fun u own' payload hu => ?_, fun u d hpc hd => ?_,
    fun d hd => ?_, fun d hd => ?_, fun hpc => ?_⟩
  · simp [Engine.synced, Engine.accept, Engine.setThread, hin] at hf
  · exact nomatch (hcalls u).symm.trans hu
  · exact absurd hu (ne_send (hcalls u) own' payload)
  · have hpc : s.handles r = .inCallback u ∨ s.handles r = .clearCallback u ∨ s.handles r = .takeSync u := hpc
    rw [hin] at hpc
    obtain rfl : w = u := by rcases hpc with h | h | h <;> cases h; rfl
    have hd : (Function.update s.threads w { s.threads w with syncResponse := some own, call := .returned .ok }
      w).syncResponse = some d := hd
    rw [Function.update_self] at hd
    cases hd
    exact hacc
  · exact nomatch hnil.symm.trans (hs.sent d hd)
  · have hd : (s.handles r).ending = some (.answered d) := hd
    rw [hin] at hd
    cases hd
  · have hpc : s.handles r = .unborn ∨ ∃ w, s.handles r = .insertPending w := hpc
    rw [hin] at hpc
    rcases hpc with h | ⟨u, h⟩ <;> cases h

private theorem single_take {w : ThreadId} {own payload : Delivery}
    (pc : (s.threads w).call = .takePending r own payload) (found : s.pending r = true) (hsync : s.synced r = false) :
    ((s.setPending r false).setCall w (.send r own payload)).Single r := by
  obtain ⟨hnil, hnone⟩ := hs.registered found hsync
  have hpayload : payload = own := by
    rcases ho.payload w r own payload pc with h | ⟨inside, slot⟩
    · exact h
    · simp [Engine.synced, ho.inside (by rw [pc]; rfl) inside, slot] at hsync
  have hcall : ∀ u, u ≠ w →
      (((s.setPending r false).setCall w (.send r own payload)).threads u).call.carries r = false := by
    intro u huw
    rw [show ((s.setPending r false).setCall w (.send r own payload)).threads u = s.threads u from
      Function.update_of_ne huw _ _]
    exact hnone u
  have hself : ((s.setPending r false).setCall w (.send r own payload)).pending r = false := Function.update_self ..
  refine ⟨hs.once, fun hp => ?_, fun u hu => ?_, fun u own' payload' hu => ?_, fun u d hpc hd => ?_, hs.sent,
    hs.answered, fun hpc => ?_⟩
  · exact nomatch hself.symm.trans hp
  · refine ⟨hnil, hself, fun v hv => ?_⟩
    by_cases huw : u = w
    · by_cases hvw : v = w
      · rw [huw, hvw]
      · exact nomatch (hcall v hvw).symm.trans hv
    · exact nomatch (hcall u huw).symm.trans hu
  · by_cases huw : u = w
    · subst huw
      have hu : (Function.update s.threads u { s.threads u with call := .send r own payload } u).call =
        .send r own' payload' := hu
      rw [Function.update_self] at hu
      cases hu
      exact hpayload
    · exact absurd hu (ne_send (hcall u huw) own' payload')
  · have hslot := Runs.update_part (f := Thread.syncResponse) (t := w)
      (p := { s.threads w with call := .send r own payload }) rfl u
    exact hs.slot u d hpc (hslot.symm.trans hd)
  · exact nomatch (hs.unborn hpc).1.symm.trans found

omit ho in
/-- A call uses the sender, and the receiver takes the delivery or is gone. -/
private theorem single_spend {t : Engine} {w : ThreadId} {own payload : Delivery}
    (pc : (s.threads w).call = .send r own payload) (next : CallPc) (hnext : next.carries r = false)
    (hthreads : t.threads = Function.update s.threads w { s.threads w with call := next })
    (hhandle : t.handles = s.handles) (hpending : t.pending = s.pending)
    (hspent : (t.accepted r = s.accepted r ∧ (t.channels r).sent = (s.channels r).sent) ∨
      (t.accepted r = s.accepted r ++ [own] ∧ (t.channels r).sent = some payload)) : t.Single r := by
  have hcarry : (s.threads w).call.carries r = true := by
    rw [pc]
    exact decide_eq_true rfl
  obtain ⟨hnil, hfree, hsole⟩ := hs.carried w hcarry
  have hnone : ∀ u, (t.threads u).call.carries r = false := by
    intro u
    rw [hthreads]
    by_cases huw : u = w
    · subst huw
      rwa [Function.update_self]
    · rw [Function.update_of_ne huw]
      by_contra hc
      exact huw (hsole u (Bool.not_eq_false _ ▸ hc))
  have hslots : ∀ u, (t.threads u).syncResponse = (s.threads u).syncResponse := by
    rw [hthreads]
    exact Runs.update_part rfl
  have hvoid : ∀ {d}, s.accepted r ≠ [d] := fun e => nomatch hnil.symm.trans e
  rw [hnil, hs.own w own payload pc] at hspent
  refine ⟨?_, fun hp => ?_, fun u hu => ?_, fun u own' payload' hu => ?_, fun u d hpc hd => ?_, fun d hd => ?_,
    fun d hd => ?_, fun hpc => ?_⟩
  · exact hspent.imp (fun h => h.1) fun h => ⟨own, h.1⟩
  · rw [hpending, hfree] at hp
    cases hp
  · exact nomatch (hnone u).symm.trans hu
  · exact absurd hu (ne_send (hnone u) own' payload')
  · rw [hhandle] at hpc
    exact absurd (hs.slot u d hpc (hslots u ▸ hd)) hvoid
  · rcases hspent with ⟨-, hsent⟩ | ⟨hacc, hsent⟩
    · exact absurd (hs.sent d (hsent ▸ hd)) hvoid
    · cases hsent.symm.trans hd
      exact hacc
  · rw [hhandle] at hd
    exact absurd (hs.answered d hd) hvoid
  · rw [hhandle] at hpc
    exact nomatch ((hs.unborn hpc).2.2.2 w).symm.trans hcarry

end Steps

private theorem refused_carries (r q : Responder) (own : Delivery) : (own.refused q).carries r = false :=
  carries_eq_false fun _ _ _ e => absurd e ((refused_pc q own).2.2 _ _ _)

theorem Engine.Single.step {r : Responder} {s t : Engine} {a : Act} (ho : s.Orderly) (hok : s.SingleUse r a)
    (hs : s.Single r) (h : s.Stepped a t) : t.Single r := by
  cases h with
  | request w free idle =>
    rcases eq_or_ne s.nextId r with hnr | hnr
    · subst hnr
      obtain ⟨hp, hnil, hsent, hnone⟩ := hs.unborn (.inl (ho.fresh _ (Nat.le_refl _)))
      refine .newborn hnil hsent (fun u => ?_) (.inl ⟨Function.update_self .., hp⟩)
      exact (Runs.update_part (f := fun T : Thread => T.call.carries s.nextId) (t := w)
        (p := { s.threads w with serving := some s.nextId }) rfl u).trans (hnone u)
    · exact hs.frame (.of_thread rfl rfl rfl rfl (Function.update_of_ne (Ne.symm hnr) _ _) (fun _ => rfl) fun _ => rfl)
  | insertPending q w pc =>
    rcases eq_or_ne q r with rfl | hqr
    · obtain ⟨hp, hnil, hsent, hnone⟩ := hs.unborn (.inr ⟨w, pc⟩)
      exact .newborn hnil (by simp [Engine.setHandle, Engine.setChannel]) hnone (.inr (Function.update_self ..))
    · have hrq := Ne.symm hqr
      exact hs.frame (.of_request rfl rfl (Function.update_of_ne hrq _ _) (Function.update_of_ne hrq _ _)
        (Function.update_of_ne hrq _ _))
  | setCallback q w pc =>
    rcases eq_or_ne q r with rfl | hqr
    · have hempty := ho.empty (by rw [pc]; rfl) (by simp [pc])
      refine hs.moved (Function.update_self ..) ⟨nofun, nofun⟩ rfl (Runs.update_part rfl) id
        (fun _ _ => by simp [Engine.synced, pc]) rfl (fun u d hat hd => ?_) nofun
      obtain rfl : w = u := by rcases hat with h | h | h <;> cases h; rfl
      have hd : (Function.update s.threads w { s.threads w with inCallback := q } w).syncResponse = some d := hd
      rw [Function.update_self] at hd
      exact nomatch hempty.symm.trans hd
    · exact hs.frame (.of_thread rfl rfl rfl rfl (Function.update_of_ne (Ne.symm hqr) _ _) (fun _ => rfl) fun _ => rfl)
  | endCallback q w pc idle =>
    rcases eq_or_ne q r with rfl | hqr
    · refine hs.moved (Function.update_self ..) ⟨nofun, nofun⟩ rfl (fun _ => rfl) id
        (fun _ hf => ?_) rfl (fun u d hat hd => ?_) nofun
      · simpa [Engine.synced, Engine.setHandle, pc] using hf
      · obtain rfl : w = u := by rcases hat with h | h | h <;> cases h; rfl
        exact hs.slot w d (.inl pc) hd
    · exact hs.frame (.of_request rfl rfl rfl rfl (Function.update_of_ne (Ne.symm hqr) _ _))
  | clearCallback q w pc =>
    rcases eq_or_ne q r with rfl | hqr
    · refine hs.moved (Function.update_self ..) ⟨nofun, nofun⟩ rfl (Runs.update_part rfl) id
        (fun _ hf => ?_) rfl (fun u d hat hd => ?_) nofun
      · simpa [Engine.synced, Engine.setHandle, Engine.setThread, pc] using hf
      · obtain rfl : w = u := by rcases hat with h | h | h <;> cases h; rfl
        have hd : (Function.update s.threads w { s.threads w with inCallback := 0 } w).syncResponse = some d := hd
        rw [Function.update_self] at hd
        exact hs.slot w d (.inr (.inl pc)) hd
    · exact hs.frame (.of_thread rfl rfl rfl rfl (Function.update_of_ne (Ne.symm hqr) _ _) (fun _ => rfl) fun _ => rfl)
  | takeSync q w d pc slot =>
    rcases eq_or_ne q r with rfl | hqr
    · refine hs.moved (Function.update_self ..) ⟨nofun, nofun⟩ rfl (Runs.update_part rfl) id
        (fun _ hf => ?_) rfl nofun (fun d' he => ?_)
      · simp [Engine.synced, Engine.setHandle] at hf
      · cases he
        exact hs.slot w d (.inr (.inr pc)) slot
    · refine hs.frame (.of_thread rfl rfl rfl rfl (Function.update_of_ne (Ne.symm hqr) _ _) (fun _ => rfl) fun hr => ?_)
      exact absurd (ho.sole hr (by rw [pc]; rfl)) hqr
  | noSync q w pc slot =>
    rcases eq_or_ne q r with rfl | hqr
    · exact hs.moved (Function.update_self ..) ⟨nofun, nofun⟩ rfl (Runs.update_part rfl) id
        (fun _ _ => by simp [Engine.synced, pc, slot]) rfl nofun nofun
    · exact hs.frame (.of_thread rfl rfl rfl rfl (Function.update_of_ne (Ne.symm hqr) _ _) (fun _ => rfl) fun _ => rfl)
  | ending a q e pc sent =>
    rcases eq_or_ne q r with rfl | hqr
    · refine hs.moved (Function.update_self ..) ⟨nofun, nofun⟩ rfl (fun _ => rfl) id
        (fun _ _ => by simp [Engine.synced, pc]) (by simp [Engine.endAwait, Engine.setHandle, Engine.setChannel])
        nofun (fun d he => ?_)
      exact hs.sent d (sent d (Option.some.inj he))
    · have hrq := Ne.symm hqr
      exact hs.frame (.of_request rfl rfl rfl (Function.update_of_ne hrq _ _) (Function.update_of_ne hrq _ _))
  | removePending q e pc =>
    rcases eq_or_ne q r with rfl | hqr
    · refine hs.moved (Function.update_self ..) ⟨nofun, nofun⟩ rfl (fun _ => rfl) (fun hp => ?_) (fun hp => ?_)
        (by simp [Engine.setHandle, Engine.setChannel]) nofun (fun d he => ?_)
      · simp [Engine.setHandle, Engine.setChannel, Engine.setPending] at hp
      · simp [Engine.setHandle, Engine.setChannel, Engine.setPending] at hp
      · exact hs.answered d (by rw [pc]; exact he)
    · have hrq := Ne.symm hqr
      exact hs.frame (.of_request rfl rfl (Function.update_of_ne hrq _ _) (Function.update_of_ne hrq _ _)
        (Function.update_of_ne hrq _ _))
  | dropReceiver q e pc =>
    rcases eq_or_ne q r with rfl | hqr
    · refine hs.moved (Function.update_self ..) ⟨nofun, nofun⟩ rfl (fun _ => rfl) id
        (fun _ _ => by simp [Engine.synced, pc]) (by simp [Engine.setHandle, Engine.setChannel]) nofun (fun d he => ?_)
      exact hs.answered d (by rw [pc]; exact he)
    · have hrq := Ne.symm hqr
      exact hs.frame (.of_request rfl rfl rfl (Function.update_of_ne hrq _ _) (Function.update_of_ne hrq _ _))
  | enter w api pc idle may target fresh =>
    refine hs.frame (.of_thread rfl rfl rfl rfl rfl (fun hc => ?_) fun _ => rfl)
    exact nomatch (carries_eq_false fun q own payload e => absurd e (fresh q own payload).2).symm.trans hc
  | onward w pc active streams nextStream busy target payload quiet =>
    refine hs.frame (.of_thread rfl rfl rfl rfl rfl (fun hc => ?_) fun _ => rfl)
    exact nomatch (carries_eq_false fun q own payload e => absurd e (quiet q own payload)).symm.trans hc
  | sync w q own pc inside slot =>
    rcases eq_or_ne q r with rfl | hqr
    · exact single_sync ho hs pc inside slot (hok.1 (by rw [pc]; exact decide_eq_true rfl) inside slot)
    · refine hs.frame (.of_thread rfl rfl (Function.update_of_ne (Ne.symm hqr) _ _) rfl rfl nofun fun hr => ?_)
      have hin := ho.inside (by rw [pc]; rfl) inside
      exact absurd (ho.sole hr (by rw [hin]; rfl)) hqr
  | take w q own payload pc found =>
    rcases eq_or_ne q r with rfl | hqr
    · exact single_take ho hs pc found (hok.2 (by rw [pc]; exact decide_eq_true rfl) found)
    · refine hs.frame (.of_thread rfl (Function.update_of_ne (Ne.symm hqr) _ _) rfl rfl rfl (fun hc => ?_) fun _ => rfl)
      exact absurd (of_decide_eq_true hc) hqr
  | sent w q own payload pc =>
    rcases eq_or_ne q r with rfl | hqr
    · exact single_spend hs pc _ rfl rfl rfl rfl (.inr ⟨Function.update_self .., by
        simp [Engine.setCall, Engine.setThread, Engine.accept, Engine.setChannel]⟩)
    · have hrq := Ne.symm hqr
      exact hs.frame (.of_thread rfl rfl (Function.update_of_ne hrq _ _)
        (congrArg Channel.sent (Function.update_of_ne hrq _ _)) rfl nofun fun _ => rfl)
  | unsent w q own payload pc =>
    rcases eq_or_ne q r with rfl | hqr
    · exact single_spend hs pc _ (refused_carries q q own) rfl rfl rfl (.inl ⟨rfl, by
        simp [Engine.setCall, Engine.setThread, Engine.setChannel]⟩)
    · refine hs.frame (.of_thread rfl rfl rfl (congrArg Channel.sent (Function.update_of_ne (Ne.symm hqr) _ _)) rfl
        (fun hc => ?_) fun _ => rfl)
      exact nomatch (refused_carries r q own).symm.trans hc
  | body a streams => exact hs.frame (.of_request rfl rfl rfl rfl rfl)

theorem Engine.Reaches.single {cfg : Config} {r : Responder} {as : List Act} {s : Engine}
    (h : Engine.Reaches cfg (Engine.SingleUse r) {} as s) : s.Orderly ∧ s.Single r :=
  Runs.Run.invariant (I := fun s : Engine => s.Orderly ∧ s.Single r) h
    (fun _ _ _ hok hs hstep => by
      have hstep := Engine.step_cases hstep hs.1.target
      exact ⟨Engine.Orderly.step hs.1 hstep, hs.2.step hs.1 hok hstep⟩)
    ⟨.init, .init r⟩

def HandlePc.delivery (pc : HandlePc) : Option Delivery :=
  match pc.ending with
  | some (.answered d) => some d
  | _ => none

def HandlePc.response (pc : HandlePc) : Option Response := pc.ending.bind Ending.response

/-- If the fast path and the registry agree on `r`, at most one `respond` or `begin` on it
succeeds, and a delivery that `handle` answers with is the one of that call; the response
is that call's, for a status that `http` accepts. -/
theorem responder_single_use {cfg : Config} {r : Responder} {as : List Act} {s : Engine}
    (h : Engine.Reaches cfg (Engine.SingleUse r) {} as s) :
    (s.accepted r).length ≤ 1 ∧ ∀ d, (s.handles r).delivery = some d → s.accepted r = [d] ∧
      (validStatus d.response.status = true → (s.handles r).response = some d.response) := by
  obtain ⟨-, hs⟩ := h.single
  constructor
  · rcases hs.once with hnil | ⟨d, hd⟩
    · simp [hnil]
    · simp [hd]
  · intro d hd
    have hend : (s.handles r).ending = some (.answered d) := by
      unfold HandlePc.delivery at hd
      split at hd <;> cases hd
      assumption
    refine ⟨hs.answered d hend, fun hvalid => ?_⟩
    simp [HandlePc.response, hend, Ending.response, buildResponse, hvalid]

def inRequest : List Act := [.request 0, .handle 1, .handle 1]

def engineConfig : Config := ⟨.std, fun w => decide (w = 0)⟩

def answered (status : UInt16) : List Act :=
  .enter 0 (.respond 1 status (.null 0) (.null 0)) :: List.replicate 3 (.call 0)

theorem responder_single_use_sync : ∃ s,
    Engine.Reaches engineConfig (Engine.SingleUse 1) {}
      (inRequest ++ answered 200 ++ List.replicate 5 (Act.handle 1)) s ∧
    (s.handles 1).delivery = some (.buffered ⟨200, [], []⟩) ∧ s.accepted 1 = [.buffered ⟨200, [], []⟩] ∧
    (s.handles 1).response = some ⟨200, [], .full []⟩ := by
  have hrun : (Runs.replay (Engine.step engineConfig) (Engine.SingleUse 1) {}
      (inRequest ++ answered 200 ++ List.replicate 5 (Act.handle 1))).map (fun s => (s.handles 1).delivery) =
      some (some (.buffered ⟨200, [], []⟩)) := by decide
  obtain ⟨s, hs, hd⟩ := Option.map_eq_some_iff.mp hrun
  obtain ⟨hacc, hresp⟩ := (responder_single_use (Runs.run_of_replay hs)).2 _ hd
  exact ⟨s, Runs.run_of_replay hs, hd, hacc, hresp rfl⟩

/-- The callback answers twice: the first answer takes the sync slot, and the second finds
the responder still registered and sends a 500 that nobody reads. Both succeed. -/
theorem respond_succeeds_twice : ¬ ∀ (cfg : Config) (r : Responder) (as : List Act) (s : Engine),
    Engine.Reaches cfg Runs.anyStep {} as s →
    (s.accepted r).length ≤ 1 ∧ ∀ d, (s.handles r).delivery = some d → s.accepted r = [d] ∧
      (s.handles r).response = some d.response := by
  intro h
  have hrun : (Runs.replay (Engine.step engineConfig) Runs.anyStep {}
      (inRequest ++ answered 200 ++ Act.enter 0 (.respond 1 404 (.null 0) (.null 0)) :: List.replicate 4 (.call 0))).map
      (fun s => (s.accepted 1).length) = some 2 := by decide
  obtain ⟨s, hs, hlen⟩ := Option.map_eq_some_iff.mp hrun
  have hle := (h engineConfig 1 _ s (Runs.run_of_replay hs)).1
  omega

end Hyper4k.Server
