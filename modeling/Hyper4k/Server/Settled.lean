import Hyper4k.Server.Registry

/-! Requests whose answer is settled. Once the sync slot has it, or the sender has left the registry,
a request does not wait for anybody but a call that is already in progress. -/
namespace Hyper4k.Server
open Runs

def HandlePc.inserted : HandlePc → Bool
  | .unborn | .insertPending _ => false
  | _ => true

def HandlePc.outside : HandlePc → Bool
  | .unborn | .insertPending _ | .setCallback _ | .inCallback _ => false
  | _ => true

/-- The answer is decided, or somebody has taken the sender. -/
def Engine.Settled (s : Engine) (r : Responder) : Prop := s.spent r = true ∨ s.pending r = false

/-- The places of a `respond` or `begin` that does not know yet whether its delivery is taken. -/
def CallPc.undecided : CallPc → Bool
  | .checkStreams .. | .claimStream .. | .deliver .. | .takePending .. => true
  | _ => false

def CallPc.looking : CallPc → Bool
  | .checkStreams .. | .claimStream .. => true
  | _ => false

inductive Engine.Turned (s : Engine) (r : Responder) (a : Act) (t : Engine) : Prop
  | still (handle : t.handles r = s.handles r) (settled : s.Settled r → t.Settled r)
  | early (before : (s.handles r).inserted = false) (after : (t.handles r).outside = false)
  | leaves (w : ThreadId) (act : a = .handle r) (pc : s.handles r = .inCallback w)
      (after : t.handles r = .clearCallback w) (settled : s.Settled r → t.Settled r)
  | onward (inserted : (t.handles r).inserted = true) (outside : (t.handles r).outside = (s.handles r).outside)
      (settled : s.Settled r → t.Settled r)

section Settled
variable {cfg : Config} {s t : Engine} {r : Responder} {w : ThreadId} {a : Act}

theorem Engine.Settled.frame (handle : t.handles r = s.handles r)
    (slot : ∀ u, (s.handles r).thread = some u → (s.threads u).syncResponse.isSome = true →
      (t.threads u).syncResponse.isSome = true)
    (pending : s.pending r = false → t.pending r = false) : s.Settled r → t.Settled r :=
  Or.imp (Engine.spent_mono handle slot) pending

theorem Engine.Turned.handled {q : Responder} {pc : HandlePc} (ho : s.Orderly)
    (handles : t.handles = Function.update s.handles q pc)
    (threads : ∀ u, (s.handles q).thread ≠ some u → (s.threads u).serving ≠ none → t.threads u = s.threads u)
    (pending : r ≠ q → t.pending r = s.pending r) (own : r = q → s.Turned r a t) : s.Turned r a t := by
  by_cases hr : r = q
  · exact own hr
  · have hsame : t.handles r = s.handles r := by rw [handles, Function.update_of_ne hr]
    refine .still hsame (.frame hsame (fun u hu hsome => ?_) fun h => (pending hr).trans h)
    have hserving : (s.threads u).serving ≠ none := by
      rw [ho.serving r u hu]
      exact Option.some_ne_none r
    rw [threads u (fun hq => hr (Orderly.sole ho hq hu)) hserving]
    exact hsome

theorem Engine.Turned.called (handles : t.handles = s.handles)
    (slot : ∀ u, (s.threads u).syncResponse.isSome = true → (t.threads u).syncResponse.isSome = true)
    (pending : s.pending r = false → t.pending r = false) : s.Turned r a t :=
  .still (congrFun handles r) (.frame (congrFun handles r) (fun u _ => slot u) pending)

theorem Engine.Stepped.turned (ho : s.Orderly) (h : s.Stepped a t) (r : Responder) : s.Turned r a t := by
  have early : ∀ {t : Engine}, s.spent r = false → t.pending r = s.pending r → s.Settled r → t.Settled r :=
    fun hspent hpending h => .inr (hpending.trans (h.resolve_left (Bool.eq_false_iff.mp hspent)))
  have ended : ∀ {t : Engine} {e : Ending}, (t.handles r).ending = some e → s.Settled r → t.Settled r := by
    intro t e he _
    refine .inl ?_
    unfold Engine.spent
    cases hpc : t.handles r <;> rw [hpc] at he <;> first | rfl | cases he
  have filled : ∀ {t : Engine} {X : Thread} {w : ThreadId}, t.threads = Function.update s.threads w X →
      X.syncResponse = (s.threads w).syncResponse →
      ∀ u, (s.threads u).syncResponse.isSome = true → (t.threads u).syncResponse.isSome = true := by
    intro t X w threads slot u hsome
    rw [threads, update_part (f := Thread.syncResponse) slot]
    exact hsome
  have apart : ∀ {q : Responder} {w : ThreadId} {X : Thread}, (s.handles q).thread = some w → ∀ u,
      (s.handles q).thread ≠ some u → (s.threads u).serving ≠ none → Function.update s.threads w X u = s.threads u := by
    intro q w X hw u hu _
    refine Function.update_of_ne ?_ _ _
    rintro rfl
    exact hu hw
  cases h with
  | request w free idle =>
    refine .handled ho rfl (fun u _ hu => Function.update_of_ne ?_ _ _) (fun _ => rfl) fun hr => ?_
    · rintro rfl
      exact hu free
    subst hr
    have hborn : s.handles s.nextId = .unborn := ho.fresh _ (Nat.le_refl _)
    refine .early (by rw [hborn]; rfl) ?_
    exact congrArg HandlePc.outside (Function.update_self s.nextId (.insertPending w) s.handles)
  | insertPending q w pc =>
    refine .handled ho rfl (fun _ _ _ => rfl) (fun hr => Function.update_of_ne hr _ _) fun hr => ?_
    subst hr
    refine .early (by rw [pc]; rfl) ?_
    exact congrArg HandlePc.outside (Function.update_self r (.setCallback w) s.handles)
  | setCallback q w pc =>
    refine .handled ho rfl (apart (by rw [pc]; rfl)) (fun _ => rfl) fun hr => ?_
    subst hr
    have hpc := Function.update_self r (.inCallback w) s.handles
    exact .onward (congrArg HandlePc.inserted hpc) ((congrArg HandlePc.outside hpc).trans (by rw [pc]; rfl))
      (early (by rw [Engine.spent, pc]; rfl) rfl)
  | endCallback q w pc idle =>
    refine .handled ho rfl (fun _ _ _ => rfl) (fun _ => rfl) fun hr => ?_
    subst hr
    refine .leaves w rfl pc (Function.update_self ..) (Or.imp_left fun h => ?_)
    simpa [Engine.spent, Engine.setHandle, pc] using h
  | clearCallback q w pc =>
    refine .handled ho rfl (apart (by rw [pc]; rfl)) (fun _ => rfl) fun hr => ?_
    subst hr
    have hpc := Function.update_self r (.takeSync w) s.handles
    refine .onward (congrArg HandlePc.inserted hpc) ((congrArg HandlePc.outside hpc).trans (by rw [pc]; rfl))
      (Or.imp_left fun h => ?_)
    simpa [Engine.spent, Engine.setHandle, Engine.setThread, pc] using h
  | takeSync q w d pc slot =>
    refine .handled ho rfl (apart (by rw [pc]; rfl)) (fun _ => rfl) fun hr => ?_
    subst hr
    have hpc := Function.update_self r (.removePending (.answered d)) s.handles
    exact .onward (congrArg HandlePc.inserted hpc) ((congrArg HandlePc.outside hpc).trans (by rw [pc]; rfl))
      (ended (congrArg HandlePc.ending hpc))
  | noSync q w pc slot =>
    refine .handled ho rfl (apart (by rw [pc]; rfl)) (fun _ => rfl) fun hr => ?_
    subst hr
    have hpc := Function.update_self r .await s.handles
    exact .onward (congrArg HandlePc.inserted hpc) ((congrArg HandlePc.outside hpc).trans (by rw [pc]; rfl))
      (early (by simp [Engine.spent, pc, slot]) rfl)
  | ending b q e pc sent =>
    refine .handled ho rfl (fun _ _ _ => rfl) (fun _ => rfl) fun hr => ?_
    subst hr
    have hpc := Function.update_self r (.removePending e) s.handles
    exact .onward (congrArg HandlePc.inserted hpc) ((congrArg HandlePc.outside hpc).trans (by rw [pc]; rfl))
      (ended (congrArg HandlePc.ending hpc))
  | removePending q e pc =>
    refine .handled ho rfl (fun _ _ _ => rfl) (fun hr => Function.update_of_ne hr _ _) fun hr => ?_
    subst hr
    have hpc := Function.update_self r (.dropReceiver e) s.handles
    exact .onward (congrArg HandlePc.inserted hpc) ((congrArg HandlePc.outside hpc).trans (by rw [pc]; rfl))
      (ended (congrArg HandlePc.ending hpc))
  | dropReceiver q e pc =>
    refine .handled ho rfl (fun _ _ _ => rfl) (fun _ => rfl) fun hr => ?_
    subst hr
    have hpc := Function.update_self r (.done e) s.handles
    exact .onward (congrArg HandlePc.inserted hpc) ((congrArg HandlePc.outside hpc).trans (by rw [pc]; rfl))
      (ended (congrArg HandlePc.ending hpc))
  | enter w api pc idle may target fresh => exact .called rfl (filled (w := w) rfl rfl) id
  | onward w pc active streams nextStream busy target payload quiet => exact .called rfl (filled (w := w) rfl rfl) id
  | sync w q own pc inside slot =>
    refine .called rfl (fun u hsome => ?_) id
    by_cases hu : u = w
    · subst hu
      rw [slot] at hsome
      cases hsome
    · exact (congrArg (fun X : Thread => X.syncResponse.isSome) (Function.update_of_ne hu _ _)).trans hsome
  | take w q own payload pc found =>
    refine .called rfl (filled (w := w) rfl rfl) fun h => ?_
    change Function.update s.pending q false r = false
    by_cases hr : r = q
    · rw [hr, Function.update_self]
    · rw [Function.update_of_ne hr, h]
  | sent w q own payload pc | unsent w q own payload pc => exact .called rfl (filled (w := w) rfl rfl) id
  | body a streams => exact .called rfl (fun _ => id) id

/-- Where a `respond` or `begin` finds out, its request is settled. -/
theorem Engine.advance_settles (ho : s.Orderly) (h : s.advance cfg w = some t) (before : (s.pcs w).undecided = true)
    (on : (s.pcs w).target = some r) (free : (s.pcs w).looking = true → s.active r = none)
    (after : (t.pcs w).undecided = false) : t.Settled r := by
  have inside : (s.threads w).inCallback = r → s.handles r = .inCallback w := Orderly.inside ho on
  have going : ∀ {u : Engine} {pc : CallPc}, pc.undecided = true → some (u.setCall w pc) = some t → t.Settled r := by
    intro u pc hpc he
    cases he
    rw [pcs_setCall, Function.update_self, hpc] at after
    cases after
  rw [Engine.advance, show (s.threads w).call = s.pcs w from rfl] at h
  generalize s.pcs w = pc at h before on free
  cases pc with
  | checkStreams q own =>
    cases on
    simp only [free rfl] at h
    exact going rfl h
  | claimStream q status headers =>
    cases on
    simp only [free rfl] at h
    exact going rfl h
  | deliver q own =>
    cases on
    simp only at h
    split at h
    · rename_i hin
      split at h
      · cases h
        refine .inl ?_
        have hpc : (s.handles r) = .inCallback w := inside hin
        simp [Engine.spent, Engine.accept, Engine.setThread, hpc]
      · exact going rfl h
    · exact going rfl h
  | takePending q own payload =>
    cases on
    simp only at h
    split at h
    · cases h
      exact .inr (Function.update_self ..)
    · rename_i hpending
      cases h
      exact .inr (Bool.eq_false_iff.mpr hpending)
  | _ => cases before

/-- A settled request waits only for a call that is about to answer it. -/
theorem Engine.Settled.carried (hs : s.Settled r) (hheld : s.Held r) (hwaits : s.handles r = .await)
    (hblocked : s.serve r = none) : ∃ w, (s.threads w).call.carries r = true := by
  have hpending : s.pending r = false := hs.resolve_left (by rw [Engine.spent, hwaits]; exact Bool.false_ne_true)
  have hsender := Engine.sender_of_blocked hwaits hblocked
  exact (hheld.sender.mp hsender).resolve_left (Bool.eq_false_iff.mp hpending)

/-- Responder 0 belongs to no request. -/
theorem Engine.Stepped.zero (h : s.Stepped a t) (hs : 0 < s.nextId ∧ s.handles 0 = .unborn) :
    0 < t.nextId ∧ t.handles 0 = .unborn := by
  have other : ∀ {q : Responder} {pc pc' : HandlePc}, s.handles q = pc → pc ≠ .unborn →
      Function.update s.handles q pc' 0 = .unborn := by
    intro q pc pc' hq hpc
    rw [Function.update_of_ne, hs.2]
    rintro rfl
    exact hpc (hq.symm.trans hs.2)
  cases h with
  | request w free idle =>
    refine ⟨Nat.succ_pos _, ?_⟩
    change Function.update s.handles s.nextId (.insertPending w) 0 = .unborn
    rw [Function.update_of_ne hs.1.ne, hs.2]
  | insertPending q w pc | setCallback q w pc | endCallback q w pc idle | clearCallback q w pc | takeSync q w d pc slot
  | noSync q w pc slot | removePending q e pc | dropReceiver q e pc | ending b q e pc sent =>
    exact ⟨hs.1, other pc fun h => (by cases h)⟩
  | _ => exact hs

theorem Engine.Reaches.zero_unborn {ok : Engine → Act → Prop} {as : List Act} (h : Engine.Reaches cfg ok {} as s) :
    s.handles 0 = .unborn := by
  have hall := Run.invariant (I := fun s : Engine => s.Orderly ∧ 0 < s.nextId ∧ s.handles 0 = .unborn) h ?_
    ⟨.init, Nat.one_pos, rfl⟩
  · exact hall.2.2
  · rintro s a t - ⟨ho, hs⟩ hstep
    have hstep := Engine.step_cases hstep ho.target
    exact ⟨Engine.Orderly.step ho hstep, hstep.zero hs⟩

end Settled

end Hyper4k.Server
