import Hyper4k.Runs.Threads
import Hyper4k.Bridge.Projection

/-! `running` is a lock: whoever holds it runs the slot alone, callbacks included. -/
namespace Hyper4k.Bridge
open Runs

def Caller.inSlice : Caller → Bool
  | .callback => true
  | _ => false

def After.inSlice : After → Bool
  | .settled c => c.inSlice
  | _ => false

/-- The thread is between winning `running` and giving it back. -/
def Pc.owns : Pc → Bool
  | .clearScheduled _ | .loadPaused _ | .iterate _ | .popFront _ | .addPermits .. | .loadState ..
  | .setInCallback .. | .deliver .. | .inCallback .. | .clearInCallback .. | .clearPermit _
  | .swapPermit _ | .cancelPermit | .checkEmpty | .loadDone | .takeTerminal | .deliverDone _ | .inDone
  | .storeFinished | .takeFinished | .dropBytes | .dropInflight | .removeRequest | .leave
  | .enterPause | .newGuard | .storeGuard _ | .releaseRunning _ => true
  | .claim c _ _ | .lostPaused c | .storeTerminal c _ _ | .storeDone c _ | .wakeProducer c _
  | .wonPaused c | .settled c => c.inSlice
  | .leavePause k | .dropGuard k | .swapScheduled k | .pushReady k | .scheduled k => k.inSlice
  | _ => false

def Slot.LockMove (s : Slot) (pc : Pc) (o : Outcome) : Prop :=
  (o.slot.running = s.running ∧ o.pc.owns = pc.owns) ∨
  (s.running = false ∧ o.slot.running = true ∧ pc.owns = false) ∨
  (pc.owns = true ∧ o.slot.running = false ∧ o.pc.owns = false)

theorem exec_lock {s : Slot} {pc : Pc} {o : Outcome} (h : s.exec pc = some o) : s.LockMove pc o := by
  unfold Slot.LockMove
  revert h
  fun_cases Slot.exec s pc <;> intro h <;> cases h <;> simp [Pc.owns, Caller.inSlice, After.inSlice, *]

theorem env_lock {s : Slot} {pc : Pc} {o : Outcome} (h : s.EnvStep pc o) :
    o.slot.running = s.running ∧ o.pc.owns = pc.owns := by
  cases h with
  | received f => rcases f with (_ | _) | _ <;> exact ⟨rfl, rfl⟩
  | failed _ _ waits => cases pc <;> first | exact ⟨rfl, rfl⟩ | cases waits
  | aborted _ waits => cases pc <;> first | exact ⟨rfl, rfl⟩ | cases waits
  | _ => exact ⟨rfl, rfl⟩

theorem Slot.Acts.lock {s : Slot} {pc : Pc} {o : Outcome} (h : s.Acts pc o) : s.LockMove pc o := by
  refine h.rule exec_lock (fun h => .inl (env_lock h)) fun p e hentry => .inl ⟨rfl, ?_⟩
  cases hentry <;> rfl

/-- `running` is set while a thread owns the slot, and no two threads own it. -/
structure View.Locked (v : View) : Prop where
  held : ∀ t, (v.pc t).owns = true → v.slot.running = true
  sole : Sole (fun pc => pc.owns = true) v.pc

theorem View.Locked.init (onChunk : Bool) (queueCapacity : Nat) : (View.init onChunk queueCapacity).Locked where
  held _ h := by cases h
  sole _ _ h := by cases h

/-- Whoever wins the lock finds nobody on the slot. -/
theorem View.Locked.nowhere {v : View} (hv : v.Locked) (hfree : v.slot.running = false) :
    Nowhere (fun pc => pc.owns = true) v.pc := by
  intro u hu
  have hheld := hv.held u hu
  rw [hfree] at hheld
  cases hheld

theorem View.Locked.step {v w : View} {m : Move} (hv : v.Locked) (h : v.Stepped m w) : w.Locked := by
  rcases h.acts with hw | ⟨t, o, ha, -, hw⟩
  · rw [hw]
    exact ⟨hv.held, hv.sole⟩
  · rw [hw]
    rcases ha.lock with ⟨hr, hpc⟩ | ⟨hfree, htaken, -⟩ | ⟨howner, -, hpc⟩
    · have hsame : o.pc.owns = true → (v.pc t).owns = true := fun h => hpc ▸ h
      refine ⟨forall_update (Q := fun _ (pc : Pc) => pc.owns = true → o.slot.running = true) ?_ ?_,
        hv.sole.keep hsame⟩
      · exact fun h => hr.trans (hv.held t (hsame h))
      · exact fun u _ h => hr.trans (hv.held u h)
    · exact ⟨fun _ _ => htaken, (hv.nowhere hfree).enter⟩
    · have hnone := hv.sole.leave howner (p := o.pc) (by rw [hpc]; exact Bool.false_ne_true)
      exact ⟨fun u hu => absurd hu (hnone u), hnone.sole⟩

def Pc.inUserCode : Pc → Bool
  | .inCallback .. | .inDone => true
  | _ => false

theorem Pc.owns_of_inUserCode {pc : Pc} (h : pc.inUserCode = true) : pc.owns = true := by
  cases pc <;> first | rfl | cases h

end Hyper4k.Bridge
