import Hyper4k.Runs.Observed
import Hyper4k.Runs.Credits
import Hyper4k.Bridge.Parking

/-! The executor and a parked slot: how often the slot can come back to the ready queue
while nothing releases it. -/
namespace Hyper4k.Bridge
open Runs

/-- A `run_slice` that has parked the slot, or that meets a parked slot before it delivers
anything. -/
def Pc.meetsParked : Pc → Bool
  | .swapRunning _ | .clearScheduled _ | .loadPaused _ | .newGuard | .storeGuard _ | .releaseRunning false => true
  | _ => false

/-- How often a thread at this point can still put the slot into the ready queue while
the slot stays parked. -/
def Pc.pushesLeft : Pc → Nat
  | .releaseRunning true | .loadFinished true | .requeue | .iterate _ | .popFront _ | .addPermits .. | .loadState ..
  | .setInCallback .. | .deliver .. | .inCallback .. | .clearInCallback .. | .clearPermit _ | .swapPermit _
  | .cancelPermit | .checkEmpty | .storeTerminal .. | .storeDone .. | .wakeProducer .. | .dropGuard _
  | .swapScheduled _ | .pushReady _ => 1
  | _ => 0

theorem Pc.pushesLeft_of_meetsParked {pc : Pc} (h : pc.meetsParked = true) : pc.pushesLeft = 0 := by
  cases pc with
  | releaseRunning more => cases more <;> first | rfl | cases h
  | _ => first | rfl | cases h

def Pc.releasesSlot : Pc → Bool
  | .claim .. | .leavePause _ => true
  | _ => false

def View.LeftAlone (v : View) : Move → Prop
  | .exec t => (v.pc t).releasesSlot = false
  | _ => True

/-- When `run_slice` looks at the queue once more and the slot is parked, no event is queued. -/
def View.NoBacklog (v : View) : Move → Prop
  | .exec t => v.pc t = .recheckQueue → v.slot.paused = true → v.slot.queue = []
  | _ => True

instance (v : View) : (m : Move) → Decidable (v.LeftAlone m)
  | .exec t => inferInstanceAs (Decidable ((v.pc t).releasesSlot = false))
  | .env _ _ | .pop _ | .enter _ _ | .spawn _ | .setAbort => inferInstanceAs (Decidable True)

instance (v : View) : (m : Move) → Decidable (v.NoBacklog m)
  | .exec t => inferInstanceAs (Decidable (v.pc t = .recheckQueue → v.slot.paused = true → v.slot.queue = []))
  | .env _ _ | .pop _ | .enter _ _ | .spawn _ | .setAbort => inferInstanceAs (Decidable True)

/-- A thread pays for putting the slot into the ready queue, and the slot stays parked. -/
theorem exec_pushesLeft {s : Slot} {pc : Pc} {o : Outcome} (h : s.exec pc = some o) (hp : s.paused = true)
    (halone : pc.releasesSlot = false) (hqueue : pc = .recheckQueue → s.queue = []) :
    o.slot.paused = true ∧ o.effect.pushes + o.pc.pushesLeft ≤ pc.pushesLeft := by
  cases pc with
  | claim c t discard => cases halone
  | leavePause k => cases halone
  | recheckQueue =>
    simp only [Slot.exec, hqueue rfl, List.isEmpty_nil, if_true] at h
    cases h
    exact ⟨hp, Nat.le_refl _⟩
  | loadPaused n | lostPaused c | wonPaused c | sendPaused =>
    simp only [Slot.exec, hp, if_true] at h
    cases h
    exact ⟨hp, Nat.le_refl _⟩
  | releaseRunning more | loadFinished more =>
    cases more <;> simp only [Slot.exec, Bool.false_eq_true, if_false, if_true] at h <;> (repeat' split at h) <;>
      cases h <;> exact ⟨hp, by simp [Effect.pushes, Pc.pushesLeft]⟩
  | enterPause =>
    cases h
    exact ⟨rfl, Nat.le_refl _⟩
  | _ =>
    simp only [Slot.exec] at h
    repeat' split at h
    all_goals first
      | (cases h; exact ⟨hp, by simp [Effect.pushes, Pc.pushesLeft]⟩)
      | cases h

theorem env_pushesLeft {s : Slot} {pc : Pc} {o : Outcome} (h : s.EnvStep pc o) :
    o.slot.paused = s.paused ∧ o.effect.pushes + o.pc.pushesLeft ≤ pc.pushesLeft := by
  cases h with
  | received f => rcases f with (_ | _) | _ <;> exact ⟨rfl, Nat.le_refl _⟩
  | failed _ _ waits | aborted _ waits => exact ⟨rfl, Nat.zero_le _⟩
  | _ => exact ⟨rfl, Nat.le_refl _⟩

/-- The slot is parked, `k` slices of it have been started, and the slices still to come are
paid for: by the ready queue, and by what the threads in `T` can still put there. -/
structure View.Paid (T : Finset Tid) (N k : Nat) (v : View) : Prop where
  parked : v.slot.paused = true
  others : ∀ t, t ∉ T → (v.pc t).pushesLeft = 0
  bound : k + v.ready + credits Pc.pushesLeft T v.pc ≤ N

def Move.slices : Move → Nat
  | .pop _ => 1
  | _ => 0

theorem View.Paid.step {T : Finset Tid} {N k : Nat} {v w : View} {m : Move} (halone : v.LeftAlone m)
    (hqueue : v.NoBacklog m) (hv : v.Paid T N k) (h : v.Stepped m w) : w.Paid T N (k + m.slices) := by
  have hbound := hv.bound
  have arrive : ∀ {t : Tid} {p : Pc}, v.pc t = .away → p.pushesLeft = 0 →
      credits Pc.pushesLeft T (Function.update v.pc t p) ≤ credits Pc.pushesLeft T v.pc ∧
        ∀ u, u ∉ T → (Function.update v.pc t p u).pushesLeft = 0 := by
    intro t p free hp
    have hspend := credits_spend (d := 0) (t := t) (p := p) hv.others (by rw [free, hp]; exact Nat.le_refl _)
    rwa [Nat.zero_add] at hspend
  cases h with
  | exec t o h =>
    obtain ⟨hp, hpay⟩ := exec_pushesLeft h hv.parked halone fun hpc => hqueue hpc hv.parked
    obtain ⟨hsum, hothers⟩ := credits_spend hv.others hpay
    refine ⟨hp, hothers, ?_⟩
    simp only [View.put, Move.slices]
    omega
  | env t c o h =>
    obtain ⟨hp, hpay⟩ := env_pushesLeft h
    obtain ⟨hsum, hothers⟩ := credits_spend hv.others hpay
    refine ⟨hp.trans hv.parked, hothers, ?_⟩
    simp only [View.put, Move.slices]
    omega
  | pop n i free hi =>
    obtain ⟨hsum, hothers⟩ := arrive (p := .swapRunning SLICE) free rfl
    refine ⟨hv.parked, hothers, ?_⟩
    simp only [Move.slices]
    omega
  | enter n e free =>
    obtain ⟨hsum, hothers⟩ := arrive (p := e.pc) free (by cases e <;> rfl)
    refine ⟨hv.parked, hothers, ?_⟩
    simp only [Move.slices]
    omega
  | spawn a free =>
    obtain ⟨hsum, hothers⟩ := arrive (p := .acquire a) free rfl
    refine ⟨hv.parked, hothers, ?_⟩
    simp only [Move.slices]
    omega
  | setAbort => exact ⟨hv.parked, hv.others, hbound⟩

/-- Only finitely many threads have ever worked on a request. -/
theorem Client.Reaches.finite {cfg : Config} {ok : Client → Act → Prop} {as : List Act} {s : Client}
    (h : Client.Reaches cfg ok (Client.init cfg) as s) (r : ReqId) :
    ∃ T : Finset Tid, ∀ t, t ∉ T → (s.view r).pc t = .away := by
  obtain ⟨k, hk⟩ : ∃ k, ∀ a ∈ as, a.below k = true := by
    clear h
    induction as with
    | nil => exact ⟨0, fun _ ha => by cases ha⟩
    | cons a as ih =>
      obtain ⟨k, hk⟩ := ih
      obtain ⟨j, hj⟩ : ∃ j, ∀ i, j ≤ i → a.below i = true := by
        cases a with
        | pop n | worker n | workerEnv n c | begin n api | call n =>
          exact ⟨n + 1, fun i hi => decide_eq_true (Nat.lt_of_succ_le hi)⟩
        | task q | taskEnv q c => exact ⟨0, fun _ _ => rfl⟩
      refine ⟨max k j, fun b hb => ?_⟩
      rcases List.mem_cons.mp hb with rfl | hb
      · exact hj _ (Nat.le_max_right k j)
      · have hbelow := hk b hb
        cases b with
        | pop n | worker n | workerEnv n c | begin n api | call n =>
          exact decide_eq_true (Nat.lt_of_lt_of_le (of_decide_eq_true hbelow) (Nat.le_max_left k j))
        | task q | taskEnv q c => rfl
  have hbeyond := h.beyond hk
  refine ⟨insert .task ((Finset.range k).image .worker ∪ (Finset.range k).image .call), fun t ht => ?_⟩
  simp only [Finset.mem_insert, Finset.mem_union, Finset.mem_image, Finset.mem_range, not_or, not_exists, not_and] at ht
  obtain ⟨htask, hworker, hcall⟩ := ht
  rcases t with n | _ | n
  · have hn : k ≤ n := Nat.not_lt.mp fun hlt => hworker n hlt rfl
    simp [Client.view, Client.pcOn, (hbeyond n hn).1, workerPcOn]
  · exact absurd rfl htask
  · have hn : k ≤ n := Nat.not_lt.mp fun hlt => hcall n hlt rfl
    simp [Client.view, Client.pcOn, (hbeyond n hn).2, Call.pcOn]

def Client.countSlices (r : ReqId) (s : Client) (a : Act) (_ : Client) (k : Nat) : Nat :=
  match s.moveOf r a with
  | some m => k + m.slices
  | none => k

def View.ParkedAlone (v : View) (m : Move) : Prop := v.LeftAlone m ∧ v.NoBacklog m

instance (v : View) (m : Move) : Decidable (v.ParkedAlone m) := inferInstanceAs (Decidable (_ ∧ _))

private theorem paid_run {cfg : Config} {r : ReqId} {T : Finset Tid} {N k : Nat} {bs : List Act} {s t : Client}
    (hf : s.Fresh) (hs : (s.view r).Paid T N 0)
    (h : Runs.Run (Runs.observe (Client.step cfg) (Client.countSlices r))
      (fun p => Client.On r View.ParkedAlone p.1) (s, 0) bs (t, k)) : (t.view r).Paid T N k := by
  have hend := Runs.Run.invariant (I := fun p : Client × Nat => p.1.Fresh ∧ (p.1.view r).Paid T N p.2) h
    (fun p a q hok hp hstep => by
      obtain ⟨hmove, hcount⟩ := observe_eq_some hstep
      refine ⟨hp.1.step hmove, ?_⟩
      have hshow := step_shows hp.1 hmove r
      rw [hcount, Client.countSlices]
      rcases hm : p.1.moveOf r a with _ | m
      · rw [hm] at hshow
        rw [show q.1.view r = p.1.view r from hshow]
        exact hp.2
      · rw [hm] at hshow
        obtain ⟨halone, hqueue⟩ := hok m hm
        exact hp.2.step halone hqueue (View.step_cases hshow)) ⟨hf, hs⟩
  exact hend.2

/-- A parked slot leaves the executor, as long as nothing resumes or settles the request and
no event is queued behind the pause when a slice re-checks the queue: a slice that parks the
slot or meets it parked never puts it back, and the number of slices is bounded. -/
theorem parked_slot_leaves_executor {cfg : Config} {r : ReqId} {as : List Act} {s : Client}
    (h : Client.Reaches cfg Runs.anyStep (Client.init cfg) as s) (hp : (s.slots r).paused = true) :
    (∀ n bs t, ((s.view r).pc (.worker n)).meetsParked = true →
      Client.Reaches cfg (Client.On r View.ParkedAlone) s bs t → (t.view r).pc (.worker n) ≠ .requeue) ∧
    ∃ N, ∀ bs t k, Runs.Run (Runs.observe (Client.step cfg) (Client.countSlices r))
      (fun p => Client.On r View.ParkedAlone p.1) (s, 0) bs (t, k) → k ≤ N := by
  have hf := h.fresh (Client.Fresh.init cfg)
  obtain ⟨T, hT⟩ := h.finite r
  have paid : ∀ T' : Finset Tid, (∀ u, u ∉ T' → ((s.view r).pc u).pushesLeft = 0) →
      (s.view r).Paid T' ((s.view r).ready + credits Pc.pushesLeft T' (s.view r).pc) 0 :=
    fun T' hothers => ⟨hp, hothers, by omega⟩
  refine ⟨fun n bs t hmeets hlater hpc => ?_,
    (s.view r).ready + credits Pc.pushesLeft T (s.view r).pc, fun bs t k hrun => ?_⟩
  · obtain ⟨k, hrun⟩ : ∃ k, Runs.Run (Runs.observe (Client.step cfg) (Client.countSlices r))
        (fun p => Client.On r View.ParkedAlone p.1) (s, 0) bs (t, k) := hlater.observed 0
    have hend := paid_run hf (paid (T.erase (.worker n)) fun u hu => ?_) hrun
    · have hzero := hend.others (.worker n) (Finset.notMem_erase _ _)
      rw [hpc] at hzero
      cases hzero
    · by_cases hun : u = .worker n
      · rw [hun]
        exact Pc.pushesLeft_of_meetsParked hmeets
      · rw [hT u fun hmem => hu (Finset.mem_erase.mpr ⟨hun, hmem⟩)]
        rfl
  · have hend := paid_run hf (paid T fun u hu => by rw [hT u hu]; rfl) hrun
    have hbound := hend.bound
    omega

def backlogBehindFirst : List Act :=
  inFirstChunk ++ Act.taskEnv 1 (.frame (.data [8])) :: List.replicate 9 (.task 1)

def justParked : List Act := .workerEnv 0 (.action .pause) :: List.replicate 3 (.worker 0)

set_option maxRecDepth 10000 in
theorem parked_slot_leaves_executor_first_chunk : ∃ s t : Client,
    Client.Reaches .small Runs.anyStep (Client.init .small) (inFirstChunk ++ justParked) s ∧
    (s.slots 1).paused = true ∧ ((s.view 1).pc (.worker 0)).meetsParked = true ∧
    Client.Reaches .small (Client.On 1 View.ParkedAlone) s (List.replicate 5 (.worker 0)) t ∧
    (t.view 1).pc (.worker 0) ≠ .requeue ∧
    ∃ N, ∀ bs t k, Runs.Run (Runs.observe (Client.step .small) (Client.countSlices 1))
      (fun p => Client.On 1 View.ParkedAlone p.1) (s, 0) bs (t, k) → k ≤ N := by
  have hrun : Client.after .small Runs.anyStep (inFirstChunk ++ justParked)
      (fun s => (s.slots 1).paused = true ∧ ((s.view 1).pc (.worker 0)).meetsParked = true)
      (Client.after .small (Client.On 1 View.ParkedAlone) (List.replicate 5 (.worker 0)) (fun _ => True)
        fun _ => true) (Client.init .small) = true := by decide
  obtain ⟨s, hs, ⟨hp, hmeets⟩, hrun⟩ := Client.of_after hrun
  obtain ⟨t, ht, -⟩ := Client.of_after hrun
  obtain ⟨hnever, hbound⟩ := parked_slot_leaves_executor hs hp
  exact ⟨s, t, hs, hp, hmeets, ht, hnever 0 _ t hmeets ht, hbound⟩

set_option maxRecDepth 10000 in
/-- The slice parks the slot with a chunk queued behind the pause, re-checks the queue, and
puts the slot back. -/
theorem parked_slot_put_back : ¬ ∀ (cfg : Config) (r : ReqId) (as : List Act) (s : Client),
    Client.Reaches cfg Runs.anyStep (Client.init cfg) as s → (s.slots r).paused = true →
    (∀ n bs t, ((s.view r).pc (.worker n)).meetsParked = true →
      Client.Reaches cfg (Client.On r View.LeftAlone) s bs t → (t.view r).pc (.worker n) ≠ .requeue) ∧
    ∃ N, ∀ bs t k, Runs.Run (Runs.observe (Client.step cfg) (Client.countSlices r))
      (fun p => Client.On r View.LeftAlone p.1) (s, 0) bs (t, k) → k ≤ N := by
  intro h
  have hrun : Client.after .small Runs.anyStep (backlogBehindFirst ++ justParked)
      (fun s => (s.slots 1).paused = true ∧ ((s.view 1).pc (.worker 0)).meetsParked = true)
      (Client.after .small (Client.On 1 View.LeftAlone) (List.replicate 5 (.worker 0))
        (fun t => (t.view 1).pc (.worker 0) = .requeue) fun _ => true) (Client.init .small) = true := by decide
  obtain ⟨s, hs, ⟨hp, hmeets⟩, hrun⟩ := Client.of_after hrun
  obtain ⟨t, ht, hpc, -⟩ := Client.of_after hrun
  exact (h .small 1 _ s hs hp).1 0 _ t hmeets ht hpc

end Hyper4k.Bridge
