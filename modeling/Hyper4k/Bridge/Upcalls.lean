import Hyper4k.Bridge.ReadyQueue
import Hyper4k.Bridge.Quiescence

/-! The calls of a client into the user's code and the returns from it, among the steps of its
workers. -/
namespace Hyper4k.Bridge
open Runs

/-- What the user's code sees of a step: a callback is called, or its answer is taken. `OnDone`
answers nothing. -/
inductive Upcall
  | call (cb : Callback)
  | answer (action : Option ChunkAction)
  deriving DecidableEq, Repr

def Pc.upcall (onChunk : Bool) : Pc → Option Upcall
  | .deliver _ ev => (ev.callback onChunk).map .call
  | .deliverDone t => some (.call (.onDone t.error))
  | .inDone => some (.answer none)
  | _ => none

/-- What the user's code sees of a decision of the environment. -/
def Pc.answered : Pc → Choice → Option Upcall
  | .inCallback .., .action a => some (.answer (some a))
  | _, _ => none

def Client.upcall (s : Client) : Act → Option (ReqId × Upcall)
  | .worker n => match s.workers n with
    | some (r, pc) => (pc.upcall (s.slots r).onChunk).map (r, ·)
    | none => none
  | .workerEnv n c => match s.workers n with
    | some (r, pc) => (pc.answered c).map (r, ·)
    | none => none
  | _ => none

/-- What a step on a slot means to its callbacks: one is called by a worker that was about to,
one returns, or nothing happens to them. -/
inductive View.Voiced (v w : View) : Option Upcall → Prop
  | call (cb : Callback) (calls : ∃ u, (v.pc u).calls = true) (trace : w.slot.trace = v.slot.trace ++ [cb])
      (inside : ∃ u, (w.pc u).inUserCode = true) : v.Voiced w (some (.call cb))
  | answer (x : Option ChunkAction) (inside : ∃ u, (v.pc u).inUserCode = true) (trace : w.slot.trace = v.slot.trace) :
    v.Voiced w (some (.answer x))
  | silent (trace : w.slot.trace = v.slot.trace)
      (inside : ∀ u, (v.pc u).inUserCode = true → (w.pc u).inUserCode = true) : v.Voiced w none

section Voices
variable {v w : View} {m : Move} {t : Tid} {o : Outcome} {k : Nat}

/-- A thread that is not in the user's code makes a step that calls nothing. -/
private theorem Voiced.keeps {s : Slot} {pc : Pc} (trace : s.trace = v.slot.trace) (hin : (v.pc t).inUserCode = false) :
    v.Voiced ⟨s, k, Function.update v.pc t pc⟩ none := by
  refine .silent trace fun u hu => ?_
  have hut : u ≠ t := by
    rintro rfl
    rw [hin] at hu
    cases hu
  exact (congrArg Pc.inUserCode (Function.update_of_ne hut pc v.pc)).trans hu

theorem Pc.slicing_of_calls {pc : Pc} (h : pc.calls = true) : pc.slicing = true := by
  cases pc <;> first | rfl | cases h

/-- Threads that are no workers neither call the user's code nor are in it. -/
private theorem Voiced.outsider (hv : v.Manned) (hacts : v.slot.Acts (v.pc t) o) (ht : ∀ n, t ≠ .worker n) :
    v.Voiced ⟨o.slot, k, Function.update v.pc t o.pc⟩ none := by
  have hout : (v.pc t).slicing ≠ true := by
    intro hs
    obtain ⟨n, hn⟩ := hv.worker t hs
    exact ht n hn
  refine Voiced.keeps (hacts.trace (Bool.eq_false_iff.mpr fun h => hout (Pc.slicing_of_calls h))) ?_
  exact Bool.eq_false_iff.mpr fun h => hout (Pc.slicing_of_owns (Pc.owns_of_inUserCode h))

private theorem Voiced.exec (h : v.slot.exec (v.pc t) = some o) :
    v.Voiced (v.put t o) ((v.pc t).upcall v.slot.onChunk) := by
  have hinside : o.pc.inUserCode = true → ∃ u, ((v.put t o).pc u).inUserCode = true :=
    fun ho => ⟨t, by rwa [show (v.put t o).pc t = o.pc from Function.update_self ..]⟩
  have hacts : v.slot.Acts (v.pc t) o := .exec h
  generalize hpc : v.pc t = pc at h
  cases pc with
  | deliver n ev =>
    have hcalls : ∃ u, (v.pc u).calls = true := ⟨t, by rw [hpc]; rfl⟩
    simp only [Slot.exec] at h
    split at h
    · rename_i cb hcb
      cases h
      simp only [Pc.upcall, hcb, Option.map_some]
      exact .call cb hcalls rfl (hinside rfl)
    · rename_i hcb
      cases h
      simp only [Pc.upcall, hcb, Option.map_none]
      exact Voiced.keeps rfl (by rw [hpc]; rfl)
  | deliverDone tm =>
    cases h
    exact .call _ ⟨t, by rw [hpc]; rfl⟩ rfl (hinside rfl)
  | inDone =>
    cases h
    exact .answer none ⟨t, by rw [hpc]; rfl⟩ rfl
  | inCallback n ev => cases h
  | _ => exact Voiced.keeps (hacts.trace (by rw [hpc]; rfl)) (by rw [hpc]; rfl)

private theorem Voiced.env {c : Choice} (h : v.slot.env (v.pc t) c = some o) :
    v.Voiced (v.put t o) ((v.pc t).answered c) := by
  have hacts : v.slot.Acts (v.pc t) o := .env (Slot.env_cases h)
  by_cases hin : (v.pc t).inUserCode = true
  · generalize hpc : v.pc t = pc at h hin
    cases pc with
    | inCallback n ev =>
      cases c with
      | action a =>
        cases h
        exact .answer (some a) ⟨t, by rw [hpc]; rfl⟩ rfl
      | _ => cases h
    | inDone => cases c <;> cases h
    | _ => cases hin
  · have hcalls : (v.pc t).calls = false := by
      have henv := Slot.env_cases h
      generalize v.pc t = pc at henv
      cases henv with
      | failed _ _ waits | aborted _ waits => cases pc <;> first | rfl | cases waits
      | _ => rfl
    have hquiet : (v.pc t).answered c = none := by
      generalize v.pc t = pc at hin
      cases pc with
      | inCallback n ev => exact absurd rfl hin
      | _ => rfl
    rw [hquiet]
    exact Voiced.keeps (hacts.trace hcalls) (Bool.eq_false_iff.mpr hin)

def View.upcall (v : View) : Move → Option Upcall
  | .exec (.worker n) => (v.pc (.worker n)).upcall v.slot.onChunk
  | .env (.worker n) c => (v.pc (.worker n)).answered c
  | _ => none

theorem View.Manned.voiced (hv : v.Manned) (h : v.step m = some w) : v.Voiced w (v.upcall m) := by
  cases m with
  | exec t =>
    obtain ⟨o, ho, rfl⟩ := Option.map_eq_some_iff.mp h
    cases t with
    | worker n => exact Voiced.exec ho
    | task | call n => exact Voiced.outsider hv (.exec ho) fun _ => Tid.noConfusion
  | env t c =>
    obtain ⟨o, ho, rfl⟩ := Option.map_eq_some_iff.mp h
    cases t with
    | worker n => exact Voiced.env ho
    | task | call n => exact Voiced.outsider hv (.env (Slot.env_cases ho)) fun _ => Tid.noConfusion
  | pop n =>
    cases View.step_cases h with
    | pop _ _ free => exact Voiced.keeps rfl (by rw [free]; rfl)
  | enter n e =>
    cases View.step_cases h with
    | enter _ _ free => exact Voiced.keeps rfl (by rw [free]; rfl)
  | spawn a =>
    cases View.step_cases h with
    | spawn _ free => exact Voiced.keeps rfl (by rw [free]; rfl)
  | setAbort =>
    cases h
    exact .silent rfl fun _ hu => hu

/-- Nobody is about to call the user's code once `OnDone` has been called. -/
theorem View.Silent.uncalled (hv : v.Silent) (hd : v.slot.dones ≠ []) (t : Tid) : (v.pc t).calls = false := by
  have hsilent := (hv.closing.silent hd t).1
  cases hpc : v.pc t with
  | deliver n ev =>
    rw [hpc] at hsilent
    cases hsilent
  | deliverDone tm =>
    exact absurd (OneShot.Inv.taken_unreported hv.sound.gated (show (v.pc t).hand = .taken tm by rw [hpc]; rfl)) hd
  | _ => rfl

end Voices

section Client
variable {cfg : Config} {s t : Client} {a : Act} {r q : ReqId} {x : Upcall}

/-- What a step means to the callbacks of a request is what it means to those of its slot. -/
theorem Client.upcall_iff : s.upcall a = some (r, x) ↔ (s.moveOf r a).bind (s.view r).upcall = some x := by
  cases a with
  | worker n =>
    rcases hw : s.workers n with _ | ⟨q, pc⟩ <;> simp only [Client.upcall, Client.moveOf, hw]
    · simp
    · by_cases hq : q = r
      · subst hq
        simp [View.upcall, Client.view, Client.pcOn, workerPcOn, hw]
      · simp [hq]
  | workerEnv n c =>
    rcases hw : s.workers n with _ | ⟨q, pc⟩ <;> simp only [Client.upcall, Client.moveOf, hw]
    · simp
    · by_cases hq : q = r
      · subst hq
        simp [View.upcall, Client.view, Client.pcOn, workerPcOn, hw]
      · simp [hq]
  | pop n =>
    simp only [Client.upcall, Client.moveOf]
    split <;> simp [View.upcall]
  | task q =>
    simp only [Client.upcall, Client.moveOf]
    split <;> simp [View.upcall]
  | taskEnv q c =>
    simp only [Client.upcall, Client.moveOf]
    split <;> simp [View.upcall]
  | begin n api => simp [Client.upcall, Client.moveOf]
  | call n =>
    simp only [Client.upcall, Client.moveOf]
    split <;> first | (split <;> simp [View.upcall]) | simp

/-- What a step means to the callbacks of request `r`. -/
theorem step_voiced (hf : s.Fresh) (hv : (s.view r).Manned) (h : s.step cfg a = some t) :
    (∃ x, s.upcall a = some (r, x) ∧ (s.view r).Voiced (t.view r) (some x)) ∨
      (∀ x, s.upcall a ≠ some (r, x)) ∧ (s.view r).Voiced (t.view r) none := by
  have hshow := step_shows hf h r
  have hiff := fun x => Client.upcall_iff (s := s) (a := a) (r := r) (x := x)
  rcases hm : s.moveOf r a with _ | m
  · rw [hm] at hshow hiff
    refine .inr ⟨fun x hx => ?_, ?_⟩
    · cases (hiff x).mp hx
    · rw [show t.view r = s.view r from hshow]
      exact .silent rfl fun _ hu => hu
  · rw [hm] at hshow hiff
    have hvoiced := hv.voiced (show (s.view r).step m = some (t.view r) from hshow)
    rcases hu : (s.view r).upcall m with _ | x
    · refine .inr ⟨fun x hx => ?_, hu ▸ hvoiced⟩
      cases hu.symm.trans ((hiff x).mp hx)
    · exact .inl ⟨x, (hiff x).mpr hu, hu ▸ hvoiced⟩

/-- Whether a request has an `OnChunk` stays as it was sent. -/
theorem View.Stepped.onChunk {v w : View} {m : Move} (h : v.Stepped m w) : w.slot.onChunk = v.slot.onChunk := by
  rcases h.acts with hw | ⟨t, o, ha, -, hw⟩
  · rw [hw]
  · rw [hw]
    have hflow := ha.flow
    generalize v.pc t = pc at hflow
    cases hflow with
    | same flow => exact flow.onChunk
    | _ => rfl

/-- What the guarded moves of slot `r` keep, a guarded step of the client keeps. -/
theorem step_keeps {ok : View → Move → Prop} {I : View → Prop} (hf : s.Fresh) (hok : Client.On r ok s a)
    (h : s.step cfg a = some t) (keep : ∀ v m w, ok v m → I v → v.Stepped m w → I w) (hs : I (s.view r)) :
    I (t.view r) := by
  have hshow := step_shows hf h r
  rcases hm : s.moveOf r a with _ | m
  · rw [hm] at hshow
    rw [show t.view r = s.view r from hshow]
    exact hs
  · rw [hm] at hshow
    exact keep _ m _ (hok m hm) hs (View.step_cases hshow)

end Client

end Hyper4k.Bridge
