import Hyper4k.Runs.OneShot
import Hyper4k.Bridge.Ownership

/-! The terminal of a request is a one-shot cell: `claim` is its lock, `terminal` and
`done_ready` its value, `OnDone` its report. -/
namespace Hyper4k.Bridge
open Runs

def Callback.done? : Callback → Option (Option Terminal)
  | .onDone e => some e
  | _ => none

def Slot.dones (s : Slot) : List (Option Terminal) := s.trace.filterMap Callback.done?

/-- The claim that won, by whether it discards. -/
def State.claimed : State → Option Bool
  | .running => none
  | .terminalDrain => some false
  | .terminalDiscard => some true

def Slot.cell (s : Slot) : OneShot.Cell Terminal Bool (Option Terminal) :=
  ⟨s.state.claimed, s.terminal, s.doneReady, s.dones, s.finishedFlag⟩

def Pc.hand : Pc → OneShot.Hand Terminal Bool
  | .claim _ t discard => .claiming t discard
  | .storeTerminal _ t discard => .won t discard
  | .storeDone _ _ => .stored
  | .takeTerminal => .taking
  | .deliverDone t => .taken t
  | .inDone | .storeFinished => .called
  | _ => .out

def Fits (e : Option Terminal) (discard : Bool) : Prop := e = none ↔ discard = false

theorem Terminal.error_eq_none (t : Terminal) : t.error = none ↔ t.kind = .none := by
  unfold Terminal.error
  split <;> simp_all

theorem fits_of_kind {t : Terminal} (h : t.kind ≠ .none) : Fits t.error true := by
  simp [Fits, Terminal.error_eq_none, h]

theorem Event.callback_done {ev : Event} {onChunk : Bool} {cb : Callback} (h : ev.callback onChunk = some cb) :
    cb.done? = none := by
  cases ev with
  | headers status version fields =>
    cases h
    rfl
  | chunk data =>
    simp only [Event.callback] at h
    split at h <;> cases h
    rfl

abbrev Slot.CellStep (s : Slot) (pc : Pc) (o : Outcome) : Prop :=
  OneShot.Step Terminal.error Fits s.cell pc.hand o.slot.cell o.pc.hand

theorem exec_cell {s : Slot} {pc : Pc} {o : Outcome} (h : s.exec pc = some o) : s.CellStep pc o := by
  cases pc with
  | deliver n ev =>
    simp only [Slot.exec] at h
    split at h
    case h_1 cb hcb =>
      cases h
      have hsame : ({ s with handed := s.handed ++ [ev], trace := s.trace ++ [cb] } : Slot).cell = s.cell := by
        simp [Slot.cell, Slot.dones, Event.callback_done hcb]
      simp only [Slot.CellStep, hsame]
      exact .idle _
    case h_2 =>
      cases h
      exact .idle _
  | claim c t discard =>
    simp only [Slot.exec] at h
    split at h
    · rename_i hs
      cases h
      have hcell : ({ s with state := if discard then .terminalDiscard else .terminalDrain } : Slot).cell =
          { s.cell with claimed := some discard } := by
        cases discard <;> rfl
      simp only [Slot.CellStep, hcell]
      exact .win _ t discard (by simp [Slot.cell, hs, State.claimed])
    · split at h <;> cases h <;> exact .lose _ _ _
  | loadDone =>
    simp only [Slot.exec] at h
    split at h
    · rename_i hd
      cases h
      exact .look _ hd
    · cases h
      exact .idle _
  | takeTerminal =>
    simp only [Slot.exec] at h
    split at h
    case h_1 t ht =>
      cases h
      exact .take _ t ht
    case h_2 ht =>
      cases h
      exact .miss _ ht
  | deliverDone t =>
    cases h
    have hcell : ({ s with trace := s.trace ++ [.onDone t.error] } : Slot).cell =
        { s.cell with reported := s.cell.reported ++ [t.error] } := by
      simp [Slot.cell, Slot.dones, Callback.done?]
    simp only [Slot.CellStep, hcell]
    exact .report _ t
  | cancelPermit =>
    cases h
    exact .ask _ _ _ (fits_of_kind ErrorKind.noConfusion)
  | cancelState =>
    simp only [Slot.exec] at h
    split at h <;> cases h
    · exact .ask _ _ _ (fits_of_kind ErrorKind.noConfusion)
    · exact .idle _
  | loadCommitted a unsent =>
    simp only [Slot.exec] at h
    split at h <;> cases h
    case h_2 t ht => exact .ask _ _ _ (fits_of_kind (Retry.iteration_settles ht fun k hk => by cases hk))
    all_goals exact .idle _
  | storeTerminal c t discard =>
    cases h
    exact .store _ _ _
  | storeDone c discard =>
    cases h
    exact .publish _
  | inDone =>
    cases h
    exact .stay _
  | storeFinished =>
    cases h
    exact .close _
  | _ =>
    simp only [Slot.exec] at h
    repeat' split at h
    all_goals first
      | (cases h; exact .idle _)
      | cases h

theorem env_cell {s : Slot} {pc : Pc} {o : Outcome} (h : s.EnvStep pc o) : s.CellStep pc o := by
  cases h with
  | received f => rcases f with (_ | _) | _ <;> exact .idle _
  | bodyEnd => exact .ask _ _ _ (by simp [Fits, Terminal.error])
  | failed _ _ waits kind => cases pc <;> first | exact .ask _ _ _ (fits_of_kind kind) | cases waits
  | aborted _ waits => cases pc <;> first | exact .idle _ | cases waits
  | _ => exact .idle _

/-- The slot's terminal and the threads handling it are in a legal stage of the cell. -/
def View.Gated (v : View) : Prop :=
  OneShot.Inv Terminal.error Fits v.slot.cell fun t => (v.pc t).hand

theorem View.Gated.init (onChunk : Bool) (queueCapacity : Nat) : (View.init onChunk queueCapacity).Gated :=
  OneShot.Inv.init

private theorem hand_update (pc : Tid → Pc) (t : Tid) (p : Pc) :
    (fun u => (Function.update pc t p u).hand) = Function.update (fun u => (pc u).hand) t p.hand :=
  Function.comp_update Pc.hand pc t p

theorem Slot.Acts.cell {s : Slot} {pc : Pc} {o : Outcome} (h : s.Acts pc o) : s.CellStep pc o := by
  refine h.rule exec_cell env_cell fun p e hentry => ?_
  cases hentry with
  | close => exact .ask _ _ _ (fits_of_kind ErrorKind.noConfusion)
  | _ => exact .idle _

theorem View.Gated.step {v w : View} {m : Move} (hv : v.Gated) (h : v.Stepped m w) : w.Gated := by
  rcases h.acts with hw | ⟨t, o, ha, -, hw⟩
  · rw [hw]
    exact hv
  · rw [hw]
    have hnext := OneShot.Inv.step (i := t) hv rfl ha.cell
    rwa [View.Gated, hand_update]

theorem State.claimed_eq_some {s : State} {d : Bool} (h : s.claimed = some d) :
    s ≠ .running ∧ (d = false ↔ s = .terminalDrain) := by
  cases s <;> cases h <;> simp

theorem State.claimed_eq_none {s : State} : s.claimed = none ↔ s = .running := by
  cases s <;> simp [State.claimed]

section Stages
variable {v : View} (hv : v.Gated)
include hv

/-- `OnDone` has been called at most once, and with an error unless the request drained. -/
theorem View.Gated.dones_cases : v.slot.dones = [] ∨
    ∃ e, v.slot.dones = [e] ∧ v.slot.doneReady = true ∧ (e = none ↔ v.slot.state = .terminalDrain) := by
  rcases OneShot.Inv.reported_cases hv with h | ⟨e, d, he, hd, hf, -, hp⟩
  · exact .inl h
  · exact .inr ⟨e, he, hp, hf.trans (State.claimed_eq_some hd).2⟩

theorem View.Gated.claimed_of_ready (h : v.slot.doneReady = true) : v.slot.state ≠ .running := by
  obtain ⟨⟨d, hd⟩, -⟩ := OneShot.Inv.published_cases hv h
  exact (State.claimed_eq_some hd).1

/-- A request that was settled has its terminal ready, or its settle is on the way to it. -/
theorem View.Gated.ready_of_claimed (h : v.slot.state ≠ .running) :
    v.slot.doneReady = true ∨ ∃ t, (v.pc t).hand.publishes = true :=
  OneShot.Inv.claimed_cases hv fun hc => h (State.claimed_eq_none.mp hc)

/-- A ready terminal waits in the slot, is being delivered, or has been delivered. -/
theorem View.Gated.ready_cases (h : v.slot.doneReady = true) :
    v.slot.terminal ≠ none ∨ v.slot.finishedFlag = true ∨
      ∃ t, (∃ tm, v.pc t = .deliverDone tm) ∨ v.pc t = .inDone ∨ v.pc t = .storeFinished := by
  obtain ⟨-, hr | hr | ⟨t, ht⟩⟩ := OneShot.Inv.published_cases hv h
  · exact .inl hr
  · exact .inr (.inl hr)
  · refine .inr (.inr ⟨t, ?_⟩)
    generalize v.pc t = pc at ht
    cases pc with
    | deliverDone tm => exact .inl ⟨tm, rfl⟩
    | inDone => exact .inr (.inl rfl)
    | storeFinished => exact .inr (.inr rfl)
    | _ => cases ht

theorem View.Gated.done_of_finished (h : v.slot.finishedFlag = true) : v.slot.dones ≠ [] :=
  OneShot.Inv.closed_reported hv h

end Stages

end Hyper4k.Bridge
