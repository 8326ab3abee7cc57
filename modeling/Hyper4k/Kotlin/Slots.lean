import Hyper4k.Kotlin.Drain
import Hyper4k.Runs.Observed

/-! What each request takes from the two counters of admission, and what it gives back. -/
namespace Hyper4k.Dispatch
open Server (Responder)
open Runs

/-- An injected channel answers `isStreaming` as it likes; `none` is an exception. -/
inductive SlotAct
  | dispatch (a : Act)
  | isStreaming (r : Responder) (answer : Option Bool)
  deriving DecidableEq, Repr

/-- The dispatcher with any channel. The `finally` of `finish` runs whether or not `isStreaming` returns. -/
def Dispatcher.slotStep (cfg : Config) (s : Dispatcher) : SlotAct → Option Dispatcher
  | .dispatch a => s.step cfg a
  | .isStreaming r answer => match (s.jobs r).pc with
    | .finish response => some (s.goto r (match answer with
      | none => .subActive
      | some true => .closeStream
      | some false => if response.streamed then .subActive else .complete response true))
    | _ => none

/-- How often a request acquired and released its slot, and was added to and subtracted from
`activeRequests`. -/
structure Entry where
  acquired : Nat := 0
  added : Nat := 0
  subtracted : Nat := 0
  released : Nat := 0
  deriving DecidableEq, Repr

abbrev Ledger := Responder → Entry

def Pc.charge (free : Bool) (e : Entry) : Pc → Entry
  | .tryAcquire => if free then { e with acquired := e.acquired + 1 } else e
  | .addActive => { e with added := e.added + 1 }
  | .subActive => { e with subtracted := e.subtracted + 1 }
  | .releaseSlot => { e with released := e.released + 1 }
  | _ => e

def Dispatcher.charge (s : Dispatcher) (r : Responder) (e : Entry) : Entry :=
  (s.jobs r).pc.charge (decide (0 < s.slots)) e

def Dispatcher.enter (s : Dispatcher) (a : SlotAct) (_ : Dispatcher) (o : Ledger) : Ledger :=
  match a with
  | .dispatch (.exec r) => Function.update o r (s.charge r (o r))
  | _ => o

abbrev Dispatcher.Books (cfg : Config) (ok : Dispatcher → SlotAct → Prop) (as : List SlotAct) (s : Dispatcher)
    (o : Ledger) : Prop :=
  Run (observe (Dispatcher.slotStep cfg) Dispatcher.enter) (fun p => ok p.1) (Dispatcher.init cfg, fun _ => {}) as
    (s, o)

/-- The injected function that a request calls next, while it holds a slot and outside `finish`, returns. -/
def Pc.returns (b : Behaviour) : Pc → Bool
  | .newChannel => b.newChannel
  | .refuse true => (b.failureResponse 503 "Service Unavailable").isSome
  | .recover status message => (b.failureResponse status message).isSome
  | _ => true

def Dispatcher.Returns (cfg : Config) (s : Dispatcher) : SlotAct → Prop
  | .dispatch (.exec r) => (s.jobs r).pc.returns (cfg.behaviour r) = true
  | _ => True

instance (cfg : Config) (s : Dispatcher) : ∀ a, Decidable (s.Returns cfg a)
  | .dispatch (.exec _) => inferInstanceAs (Decidable (_ = true))
  | .dispatch (.submit _) | .dispatch .stopAccepting | .isStreaming _ _ => inferInstanceAs (Decidable True)

/-- The request was never submitted, or its `submit` and its coroutine are over. -/
def Pc.ended : Pc → Bool
  | .away | .released | .refused | .thrown => true
  | _ => false

def Pc.holds (pc : Pc) : Bool := pc.between || pc.counted

def Pc.entry (pc : Pc) : Entry :=
  match pc with
  | .addActive => { acquired := 1 }
  | .releaseSlot => { acquired := 1, added := 1, subtracted := 1 }
  | .released => { acquired := 1, added := 1, subtracted := 1, released := 1 }
  | pc => if pc.counted then { acquired := 1, added := 1 } else {}

/-- One request moves, and the counters change by what it takes and gives back. -/
structure Dispatcher.Accounted (s : Dispatcher) (r : Responder) (job : Job) (t : Dispatcher) : Prop where
  jobs : t.jobs = Function.update s.jobs r job
  slots : t.slots + job.pc.holds.toNat = s.slots + (s.jobs r).pc.holds.toNat
  active : t.activeRequests + ((s.jobs r).pc.counted.toNat : Int) = s.activeRequests + job.pc.counted.toNat
  entry : job.pc.entry = s.charge r (s.jobs r).pc.entry

section Steps
variable {cfg : Config} {s t : Dispatcher} {r : Responder} {a : SlotAct}

theorem Dispatcher.Accounted.inside {pc : Pc} (hpc : (s.jobs r).pc = pc) {job : Job} {dropped : Nat}
    (hholds : job.pc.holds = pc.holds) (hcounted : job.pc.counted = pc.counted)
    (hentry : job.pc.entry = pc.charge (decide (0 < s.slots)) pc.entry) :
    s.Accounted r job ({ s with droppedResponses := dropped }.setJob r job) := by
  refine ⟨rfl, ?_, ?_, ?_⟩
  · rw [hpc, hholds]
    rfl
  · rw [hpc, hcounted]
    rfl
  · rw [Dispatcher.charge, hpc]
    exact hentry

theorem Dispatcher.exec_accounted (hok : s.Returns cfg (.dispatch (.exec r))) (h : s.exec cfg r = some t) :
    ∃ job, s.Accounted r job t := by
  rw [Dispatcher.exec] at h
  rw [Dispatcher.Returns] at hok
  generalize hpc : (s.jobs r).pc = pc at h hok
  have inside {job : Job} {dropped : Nat} (hholds : job.pc.holds = pc.holds) (hcounted : job.pc.counted = pc.counted)
      (hentry : job.pc.entry = pc.charge (decide (0 < s.slots)) pc.entry) :
      ∃ job', s.Accounted r job' ({ s with droppedResponses := dropped }.setJob r job) :=
    ⟨job, .inside hpc hholds hcounted hentry⟩
  cases pc with
  | away | released | refused | thrown => cases h
  | tryAcquire =>
    simp only [Option.some.injEq] at h
    split at h
    case isTrue hslots =>
      subst h
      refine ⟨_, rfl, ?_, ?_, ?_⟩
      · rw [hpc]
        change s.slots - 1 + 1 = s.slots + 0
        omega
      · rw [hpc]
        rfl
      · rw [Dispatcher.charge, hpc, decide_eq_true hslots]
        rfl
    case isFalse hslots =>
      subst h
      refine inside rfl rfl ?_
      rw [decide_eq_false hslots]
      rfl
  | addActive =>
    cases h
    refine ⟨_, rfl, by rw [hpc]; rfl, ?_, by rw [Dispatcher.charge, hpc]; rfl⟩
    rw [hpc]
    change s.activeRequests + 1 + ((0 : Nat) : Int) = s.activeRequests + ((1 : Nat) : Int)
    omega
  | subActive =>
    cases h
    refine ⟨_, rfl, by rw [hpc]; rfl, ?_, by rw [Dispatcher.charge, hpc]; rfl⟩
    rw [hpc]
    change s.activeRequests - 1 + ((1 : Nat) : Int) = s.activeRequests + ((0 : Nat) : Int)
    omega
  | releaseSlot =>
    cases h
    exact ⟨_, rfl, by rw [hpc]; rfl, by rw [hpc]; rfl, by rw [Dispatcher.charge, hpc]; rfl⟩
  | loadAccepting | recheckAccepting =>
    cases h
    cases s.accepting <;> exact inside rfl rfl rfl
  | refuse slot =>
    cases h
    cases hresponse : (cfg.behaviour r).failureResponse 503 "Service Unavailable" with
    | some response => cases slot <;> exact inside rfl rfl rfl
    | none =>
      cases slot with
      | true =>
        rw [Pc.returns, hresponse] at hok
        cases hok
      | false => exact inside rfl rfl rfl
  | newChannel =>
    have hreturns : (cfg.behaviour r).newChannel = true := hok
    simp only [if_pos hreturns] at h
    cases h
    exact inside rfl rfl rfl
  | handler ops =>
    cases ops with
    | cons op ops =>
      cases h
      exact inside rfl rfl rfl
    | nil =>
      cases h
      cases (cfg.behaviour r).ending <;> exact inside rfl rfl rfl
  | recover status message =>
    cases h
    cases hresponse : (cfg.behaviour r).failureResponse status message with
    | some response => exact inside rfl rfl rfl
    | none =>
      rw [Pc.returns, hresponse] at hok
      cases hok
  | finish response =>
    cases h
    cases (s.jobs r).channel.any (·.isStreaming) <;> cases response.streamed <;> exact inside rfl rfl rfl
  | closeStream =>
    cases h
    exact inside rfl rfl rfl
  | complete response slot =>
    cases h
    cases slot <;> exact inside rfl rfl rfl

/-- A step moves one request and enters its access, or closes admission. -/
theorem Dispatcher.slotStep_accounted (hok : s.Returns cfg a) (h : s.slotStep cfg a = some t) (o : Ledger) :
    (∃ r job, s.Accounted r job t ∧ s.enter a t o = Function.update o r (s.charge r (o r))) ∨
      t = { s with accepting := false } ∧ s.enter a t o = o := by
  have hnothing {r : Responder} (hr : ∀ e, s.charge r e = e) : o = Function.update o r (s.charge r (o r)) := by
    rw [hr, Function.update_eq_self]
  cases a with
  | dispatch a =>
    cases a with
    | submit r =>
      simp only [Dispatcher.slotStep, Dispatcher.step] at h
      split at h <;> cases h
      rename_i hpc
      refine .inl ⟨r, _, .inside hpc rfl rfl rfl, hnothing fun e => ?_⟩
      rw [Dispatcher.charge, hpc]
      rfl
    | exec r =>
      obtain ⟨job, hjob⟩ := Dispatcher.exec_accounted hok h
      exact .inl ⟨r, job, hjob, rfl⟩
    | stopAccepting => exact .inr ⟨(Option.some.inj h).symm, rfl⟩
  | isStreaming r answer =>
    simp only [Dispatcher.slotStep] at h
    split at h <;> cases h
    rename_i response hpc
    have hcharge : ∀ e, s.charge r e = e := fun e => by rw [Dispatcher.charge, hpc]; rfl
    rcases answer with _ | _ | _
    · exact .inl ⟨r, _, .inside hpc rfl rfl rfl, hnothing hcharge⟩
    · cases response.streamed <;> exact .inl ⟨r, _, .inside hpc rfl rfl rfl, hnothing hcharge⟩
    · exact .inl ⟨r, _, .inside hpc rfl rfl rfl, hnothing hcharge⟩

/-- Every request has entered what its place says, and the counters are what the requests hold. -/
structure Dispatcher.Conserved (cfg : Config) (s : Dispatcher) (o : Ledger) : Prop where
  entries : ∀ r, o r = (s.jobs r).pc.entry
  slots : ∃ n, Exactly (fun j : Job => j.pc.holds) n s.jobs ∧ s.slots + n = cfg.maxConcurrentRequests
  active : ∃ n, Exactly (fun j : Job => j.pc.counted) n s.jobs ∧ s.activeRequests = n

theorem Dispatcher.Conserved.init (cfg : Config) : (Dispatcher.init cfg).Conserved cfg fun _ => {} where
  entries _ := rfl
  slots := ⟨0, exactly_zero fun _ => rfl, rfl⟩
  active := ⟨0, exactly_zero fun _ => rfl, rfl⟩

theorem Dispatcher.Conserved.step {o : Ledger} (hs : s.Conserved cfg o) (hok : s.Returns cfg a)
    (h : s.slotStep cfg a = some t) : t.Conserved cfg (s.enter a t o) := by
  obtain ⟨r, job, hmoved, hnote⟩ | ⟨rfl, hnote⟩ := Dispatcher.slotStep_accounted hok h o
  · obtain ⟨n, hholds, hslots⟩ := hs.slots
    obtain ⟨m, hcounted, hactive⟩ := hs.active
    obtain ⟨n', hholds', hn⟩ := hholds.update r job
    obtain ⟨m', hcounted', hm⟩ := hcounted.update r job
    have hslots' := hmoved.slots
    have hactive' := hmoved.active
    refine ⟨?_, ⟨n', ?_, by omega⟩, m', ?_, by omega⟩
    · rw [hnote, hmoved.jobs]
      intro q
      by_cases hq : q = r
      · rw [hq, Function.update_self, Function.update_self, hmoved.entry, hs.entries r]
      · rw [Function.update_of_ne hq, Function.update_of_ne hq, hs.entries q]
    · rwa [hmoved.jobs]
    · rwa [hmoved.jobs]
  · rw [hnote]
    exact ⟨hs.entries, hs.slots, hs.active⟩

theorem Dispatcher.Books.conserved {as : List SlotAct} {o : Ledger}
    (h : Dispatcher.Books cfg (Dispatcher.Returns cfg) as s o) : s.Conserved cfg o := by
  refine Run.invariant (I := fun p : Dispatcher × Ledger => p.1.Conserved cfg p.2) h ?_ (.init cfg)
  intro p a q hok hp hstep
  obtain ⟨hmove, hnote⟩ := observe_eq_some hstep
  rw [hnote]
  exact hp.step hok hmove

end Steps

theorem Pc.entry_of_ended {pc : Pc} (h : pc.ended = true) :
    pc.holds = false ∧ pc.counted = false ∧ pc.entry.released = pc.entry.acquired ∧
      pc.entry.added = pc.entry.acquired ∧ pc.entry.subtracted = pc.entry.added ∧ pc.entry.acquired ≤ 1 := by
  cases pc <;> first | (cases h; done) | decide

/-- A request that has ended has released what it acquired and subtracted what it added, once each; and
when everything has ended, nothing is active and all slots are free. -/
theorem slots_conserved {cfg : Config} {as : List SlotAct} {s : Dispatcher} {o : Ledger}
    (h : Dispatcher.Books cfg (Dispatcher.Returns cfg) as s o) :
    (∀ r, (s.jobs r).pc.ended = true → (o r).released = (o r).acquired ∧ (o r).added = (o r).acquired ∧
      (o r).subtracted = (o r).added ∧ (o r).acquired ≤ 1) ∧
    ((∀ r, (s.jobs r).pc.ended = true) → s.activeRequests = 0 ∧ s.slots = cfg.maxConcurrentRequests) := by
  have hs := Dispatcher.Books.conserved h
  constructor
  · intro r hended
    rw [hs.entries r]
    exact (Pc.entry_of_ended hended).2.2
  · intro hended
    obtain ⟨n, hholds, hslots⟩ := hs.slots
    obtain ⟨m, hcounted, hactive⟩ := hs.active
    have hn : n = 0 := hholds.eq_zero fun r => (Pc.entry_of_ended (hended r)).1
    have hm : m = 0 := hcounted.eq_zero fun r => (Pc.entry_of_ended (hended r)).2.1
    omega

/-- The handler throws, `finish` is given the fallback, and the channel throws in `isStreaming`: the slot is
given back all the same. -/
theorem slots_conserved_throwing : ∃ as s o,
    Dispatcher.Books (single [] .threw) (Dispatcher.Returns (single [] .threw)) as s o ∧
    (s.jobs 1).pc = .released ∧ (o 1).acquired = 1 ∧ (o 1).released = (o 1).acquired := by
  let cfg := single [] .threw
  let acts := SlotAct.dispatch (.submit 1) :: List.replicate 7 (.dispatch (.exec 1)) ++
    [.isStreaming 1 none, .dispatch (.exec 1), .dispatch (.exec 1)]
  have hrun : (replay (observe (Dispatcher.slotStep cfg) Dispatcher.enter) (fun p => p.1.Returns cfg)
      (Dispatcher.init cfg, fun _ => {}) acts).map (fun p => ((p.1.jobs 1).pc, (p.2 1).acquired)) =
      some (.released, 1) := by decide
  obtain ⟨⟨s, o⟩, hs, hend⟩ := Option.map_eq_some_iff.mp hrun
  obtain ⟨hpc, hone⟩ := Prod.mk.inj hend
  have hbooks : Dispatcher.Books cfg (Dispatcher.Returns cfg) acts s o := run_of_replay hs
  refine ⟨acts, s, o, hbooks, hpc, hone, ?_⟩
  exact ((slots_conserved hbooks).1 1 (by rw [show (s.jobs 1).pc = .released from hpc]; rfl)).1

/-- A `failureResponse` that throws in the `catch` of the coroutine: `finish` is never entered, and the slot
is lost. -/
theorem throwing_fallback_leaks : ¬ ∀ (cfg : Config) (as : List SlotAct) (s : Dispatcher) (o : Ledger)
    (r : Responder), Dispatcher.Books cfg anyStep as s o → (s.jobs r).pc.ended = true →
    (o r).released = (o r).acquired := by
  intro h
  let cfg : Config := ⟨1, fun _ => { ending := .threw, failureResponse := fun _ _ => none }⟩
  have hrun : (replay (observe (Dispatcher.slotStep cfg) Dispatcher.enter) (fun p => anyStep p.1)
      (Dispatcher.init cfg, fun _ => {})
      (.dispatch (.submit 1) :: List.replicate 7 (.dispatch (.exec 1)))).map
      (fun p => ((p.1.jobs 1).pc, p.2 1)) = some (.thrown, { acquired := 1, added := 1 }) := by decide
  obtain ⟨⟨s, o⟩, hs, hend⟩ := Option.map_eq_some_iff.mp hrun
  obtain ⟨hpc, hentry⟩ := Prod.mk.inj hend
  have hequal := h cfg _ s o 1 (run_of_replay hs) (by rw [show (s.jobs 1).pc = .thrown from hpc]; rfl)
  rw [show o 1 = { acquired := 1, added := 1 } from hentry] at hequal
  cases hequal

end Hyper4k.Dispatch
