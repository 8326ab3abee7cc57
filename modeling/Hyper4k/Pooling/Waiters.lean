import Hyper4k.Pooling.Shutdown
import Hyper4k.Runs.SingleFlight

/-! Concurrent calls of `Pool::shutdown` are a single flight: the winner of `shutting_down` drains the
pool, the others wait for `shutdown_complete` and are not left waiting. -/
namespace Hyper4k.Pooling
open Bridge (ConnId)
open Runs

def ShutPc.phase : ShutPc → Phase
  | .idle => .away
  | .swap => .claim
  | .loadComplete => .check
  | .notified => .register
  | .reloadComplete seen => .recheck seen
  | .wait seen => .asleep seen
  | .storeComplete => .publish
  | .notify => .wake
  | _ => .lead

/-- What an observer notes: how many calls have swapped `shutting_down`, how many of them went on to drain the pool,
and for each call that has returned whether `shutdown_complete` was set. -/
structure Flights where
  swaps : Nat := 0
  drains : Nat := 0
  returns : List Bool := []

def Flights.note (s : ClosingPool) (b : ShutAct) (t : ClosingPool) (o : Flights) : Flights :=
  match b with
  | .exec u => match s.calls u with
    | .swap => { o with swaps := o.swaps + 1, drains := o.drains + if s.shuttingDown then 0 else 1 }
    | _ => if t.calls u = .idle then { o with returns := o.returns ++ [s.complete] } else o
  | _ => o

abbrev ClosingPool.Flies (limits : Limits) (as : List ShutAct) (s : ClosingPool) (o : Flights) : Prop :=
  Run (observe (ClosingPool.step limits) Flights.note) anyStep ({}, {}) as (s, o)

def flight (p : ClosingPool × Flights) : Flight Nat where
  claimed := p.1.shuttingDown
  done := p.1.complete
  notices := p.1.notices
  phase := ShutPc.phase ∘ p.1.calls
  claims := p.2.swaps
  leaders := p.2.drains
  returns := p.2.returns

section Flying
variable {limits : Limits} {s t : ClosingPool} {o : Flights} {u : Nat} {q : ShutPc}

theorem flight_goto (s : ClosingPool) (o : Flights) (u : Nat) (q : ShutPc) :
    flight (s.goto u q, o) = (flight (s, o)).goto u q.phase := by
  simp only [flight, ClosingPool.goto, Flight.goto, Function.comp_update]

theorem flight_inside (hcalls : t.calls = Function.update s.calls u q) (hq : q.phase = (s.calls u).phase)
    (hflag : t.shuttingDown = s.shuttingDown) (hcomplete : t.complete = s.complete)
    (hnotices : t.notices = s.notices) : flight (t, o) = flight (s, o) := by
  have hphase : ShutPc.phase ∘ t.calls = ShutPc.phase ∘ s.calls := by
    rw [hcalls, Function.comp_update, hq]
    exact Function.update_eq_self u _
  simp only [flight, hphase, hflag, hcomplete, hnotices]

theorem note_stays (hswap : s.calls u ≠ .swap) (hidle : t.calls u ≠ .idle) : Flights.note s (.exec u) t o = o := by
  simp only [Flights.note, if_neg hidle]

theorem note_returns (hswap : s.calls u ≠ .swap) (hidle : t.calls u = .idle) :
    Flights.note s (.exec u) t o = { o with returns := o.returns ++ [s.complete] } := by
  simp only [Flights.note, if_pos hidle]

theorem goto_calls (s : ClosingPool) (u : Nat) (q : ShutPc) : (s.goto u q).calls u = q := Function.update_self ..

theorem advance_stays (hpc : s.calls u ≠ .swap) (hq : q ≠ .idle)
    (h : (flight (s, o)).advance u = some ((flight (t, o)).goto u q.phase)) :
    (flight (s, o)).advance u = some (flight (t.goto u q, Flights.note s (.exec u) (t.goto u q) o)) := by
  rw [note_stays hpc (by rwa [goto_calls]), flight_goto]
  exact h

theorem advance_returns (hpc : s.calls u ≠ .swap) (hcomplete : t.complete = s.complete)
    (h : (flight (s, o)).advance u = some ((flight (t, o)).leave u)) :
    (flight (s, o)).advance u = some (flight (t.goto u .idle, Flights.note s (.exec u) (t.goto u .idle) o)) := by
  rw [note_returns hpc (goto_calls ..), flight_goto, ← hcomplete]
  exact h

theorem advance_looks (hpc : s.calls u ≠ .swap) (hq : q ≠ .idle)
    (h : (flight (s, o)).advance u =
      some (if s.complete then (flight (s, o)).leave u else (flight (s, o)).goto u q.phase)) :
    (flight (s, o)).advance u = some (flight (s.goto u (if s.complete then .idle else q),
      Flights.note s (.exec u) (s.goto u (if s.complete then .idle else q)) o)) := by
  cases hdone : s.complete with
  | true =>
    rw [hdone, if_pos rfl] at h
    exact advance_returns hpc rfl h
  | false =>
    rw [hdone, if_neg Bool.false_ne_true] at h
    exact advance_stays hpc hq h

theorem flight_drain (hpc : (s.calls u).phase = .lead) (hcalls : t.calls = Function.update s.calls u q)
    (hq : q.phase = .lead) (hflag : t.shuttingDown = s.shuttingDown) (hcomplete : t.complete = s.complete)
    (hnotices : t.notices = s.notices) : flight (t, Flights.note s (.exec u) t o) = flight (s, o) := by
  have hswap : s.calls u ≠ .swap := fun h => by
    rw [h] at hpc
    cases hpc
  have hidle : t.calls u ≠ .idle := fun h => by
    rw [hcalls, Function.update_self] at h
    rw [h] at hq
    cases hq
  rw [note_stays hswap hidle]
  exact flight_inside hcalls (hq.trans hpc.symm) hflag hcomplete hnotices

theorem flight_exec (h : s.exec u = some t) : flight (t, Flights.note s (.exec u) t o) = flight (s, o) ∨
    (flight (s, o)).advance u = some (flight (t, Flights.note s (.exec u) t o)) := by
  have hphase (pc : ShutPc) (hpc : s.calls u = pc) : (flight (s, o)).phase u = pc.phase := congrArg ShutPc.phase hpc
  unfold ClosingPool.exec at h
  cases hpc : s.calls u with
  | idle => simp [hpc] at h
  | swap =>
    simp only [hpc, Option.some.injEq] at h
    subst h
    right
    rw [Flight.advance, hphase _ hpc]
    simp only [Flights.note, hpc, flight_goto]
    cases hs : s.shuttingDown <;> simp only [flight, Flight.goto, hs] <;> rfl
  | loadComplete =>
    simp only [hpc, Option.some.injEq] at h
    subst h
    right
    refine advance_looks (by simp [hpc]) (fun h => by cases h) ?_
    rw [Flight.advance, hphase _ hpc]
    rfl
  | notified =>
    simp only [hpc, Option.some.injEq] at h
    subst h
    right
    refine advance_stays (by simp [hpc]) (fun h => by cases h) ?_
    rw [Flight.advance, hphase _ hpc]
    rfl
  | reloadComplete seen =>
    simp only [hpc, Option.some.injEq] at h
    subst h
    right
    refine advance_looks (by simp [hpc]) (fun h => by cases h) ?_
    rw [Flight.advance, hphase _ hpc]
    rfl
  | wait seen =>
    simp only [hpc] at h
    split at h <;> cases h
    rename_i hlt
    right
    refine advance_stays (by simp [hpc]) (fun h => by cases h) ?_
    rw [Flight.advance, hphase _ hpc]
    exact if_pos hlt
  | storeComplete =>
    simp only [hpc, Option.some.injEq] at h
    subst h
    right
    refine advance_stays (by simp [hpc]) (fun h => by cases h) ?_
    rw [Flight.advance, hphase _ hpc]
    rfl
  | notify =>
    simp only [hpc, Option.some.injEq] at h
    subst h
    right
    refine advance_returns (by simp [hpc]) rfl ?_
    rw [Flight.advance, hphase _ hpc]
    rfl
  | abort handles =>
    cases handles with
    | nil =>
      simp only [hpc, Option.some.injEq] at h
      subst h
      right
      refine advance_stays (by simp [hpc]) (fun h => by cases h) ?_
      rw [Flight.advance, hphase _ hpc]
      rfl
    | cons c rest =>
      simp only [hpc, Option.some.injEq] at h
      subst h
      exact .inl (flight_drain (by rw [hpc]; rfl) rfl rfl rfl rfl rfl)
  | storeDead k entries due passed handles =>
    cases entries <;> simp only [hpc, Option.some.injEq] at h <;> subst h <;>
      exact .inl (flight_drain (by rw [hpc]; rfl) rfl rfl rfl rfl rfl)
  | storeClosed | iterMut | takeDriver | clear =>
    simp only [hpc, Option.some.injEq] at h
    subst h
    exact .inl (flight_drain (by rw [hpc]; rfl) rfl rfl rfl rfl rfl)
  | nextList | nextClear | join =>
    simp only [hpc] at h
    split at h <;> cases h
    exact .inl (flight_drain (by rw [hpc]; rfl) rfl rfl rfl rfl rfl)

theorem flight_step {p r : ClosingPool × Flights} {b : ShutAct}
    (h : observe (ClosingPool.step limits) Flights.note p b = some r) :
    flight r = flight p ∨ ∃ a, (flight p).step a = some (flight r) := by
  obtain ⟨s, o⟩ := p
  obtain ⟨t, o'⟩ := r
  obtain ⟨hstep, rfl⟩ : s.step limits b = some t ∧ o' = Flights.note s b t o := observe_eq_some h
  cases b with
  | exec u => exact (flight_exec hstep).imp_right fun h => ⟨(u, false), h⟩
  | shutdown u =>
    simp only [ClosingPool.step] at hstep
    split at hstep <;> cases hstep
    rename_i hidle
    refine .inr ⟨(u, true), ?_⟩
    rw [flight_goto]
    exact if_pos (congrArg ShutPc.phase hidle)
  | pool a =>
    simp only [ClosingPool.step] at hstep
    split at hstep
    · cases hstep
    · obtain ⟨p, -, rfl⟩ := Option.map_eq_some_iff.mp hstep
      exact .inl rfl
  | visit u k =>
    simp only [ClosingPool.step] at hstep
    split at hstep
    · rename_i hpc
      split at hstep <;> cases hstep
      exact .inl (flight_inside rfl (by rw [hpc]; rfl) rfl rfl rfl)
    · cases hstep
  | remove u k =>
    simp only [ClosingPool.step] at hstep
    split at hstep
    · rename_i hpc
      split at hstep <;> cases hstep
      exact .inl (flight_inside rfl (by rw [hpc]; rfl) rfl rfl rfl)
    · cases hstep
  | driverEnd c =>
    cases hstep
    exact .inl rfl

/-- The calls of `shutdown` keep to the rules of the flight. -/
theorem ClosingPool.Flies.sound {as : List ShutAct} (h : ClosingPool.Flies limits as s o) : (flight (s, o)).Sound := by
  obtain ⟨bs, hrun⟩ : ∃ bs, Run Flight.step anyStep (flight ({}, {})) bs (flight (s, o)) :=
    Run.project (J := fun _ => True) flight (fun _ _ _ _ _ => trivial)
      (fun _ _ _ _ _ hstep => (flight_step hstep).imp_right fun ⟨a, ha⟩ => ⟨a, trivial, ha⟩) h trivial
  exact .of_run hrun

end Flying

end Hyper4k.Pooling
