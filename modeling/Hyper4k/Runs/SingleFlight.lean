import Hyper4k.Runs.Guarded
import Hyper4k.Runs.Threads

/-! Single flight: of any number of calls the first does the work and the others wait for it. The
notification has no memory, so a waiter looks at the flag again once it is registered. -/
namespace Hyper4k.Runs

/-- Where a call is. A registered waiter knows how many notices had been given before. -/
inductive Phase
  | away
  | claim
  | lead
  | publish
  | wake
  | check
  | register
  | recheck (seen : Nat)
  | asleep (seen : Nat)
  deriving DecidableEq, Repr

def Phase.leads : Phase → Bool
  | .lead | .publish | .wake => true
  | _ => false

/-- The flags and the calls. `claims`, `leaders` and `returns` are a history: how many calls have claimed the work
and how many of them lead it, and for each call that has returned whether the work was done. -/
structure Flight (ι : Type*) where
  claimed : Bool := false
  done : Bool := false
  notices : Nat := 0
  phase : ι → Phase := fun _ => .away
  claims : Nat := 0
  leaders : Nat := 0
  returns : List Bool := []

namespace Flight
variable {ι : Type*} [DecidableEq ι]

def goto (s : Flight ι) (t : ι) (p : Phase) : Flight ι := { s with phase := Function.update s.phase t p }

def leave (s : Flight ι) (t : ι) : Flight ι := { s with returns := s.returns ++ [s.done] }.goto t .away

def advance (s : Flight ι) (t : ι) : Option (Flight ι) :=
  match s.phase t with
  | .away => none
  | .claim =>
    some ({ s with
      claimed := true, claims := s.claims + 1, leaders := s.leaders + if s.claimed then 0 else 1 }.goto t
        (if s.claimed then .check else .lead))
  | .lead => some (s.goto t .publish)
  | .publish => some ({ s with done := true }.goto t .wake)
  | .wake => some ({ s with notices := s.notices + 1 }.leave t)
  | .check => some (if s.done then s.leave t else s.goto t .register)
  | .register => some (s.goto t (.recheck s.notices))
  | .recheck seen => some (if s.done then s.leave t else s.goto t (.asleep seen))
  | .asleep seen => if seen < s.notices then some (s.goto t .check) else none

def step (s : Flight ι) : ι × Bool → Option (Flight ι)
  | (t, true) => if s.phase t = .away then some (s.goto t .claim) else none
  | (t, false) => s.advance t

end Flight

/-- What a call knows of the flag and the notices. A waiter sleeps only if it was registered before any notice. -/
def Phase.Holds (done : Bool) (notices : Nat) : Phase → Prop
  | .wake => done = true
  | .recheck seen => seen ≤ notices
  | .asleep seen => seen = 0
  | _ => True

theorem Phase.Holds.later {done done' : Bool} {notices notices' : Nat} {p : Phase} (h : p.Holds done notices)
    (hdone : done = true → done' = true) (hnotices : notices ≤ notices') : p.Holds done' notices' := by
  cases p with
  | wake => exact hdone h
  | recheck seen => exact Nat.le_trans h hnotices
  | asleep seen => exact h
  | _ => trivial

structure Flight.Sound {ι : Type*} (s : Flight ι) : Prop where
  sole : Sole (fun p => p.leads = true) s.phase
  unclaimed : s.claimed = false → Nowhere (fun p => p.leads = true) s.phase ∧ s.claims = 0 ∧ s.leaders = 0
  led : s.claimed = true → 0 < s.claims ∧ s.leaders = 1
  silent : s.done = false → s.notices = 0
  finished : 0 < s.notices → s.claimed = true ∧ Nowhere (fun p => p.leads = true) s.phase
  holds : ∀ t, (s.phase t).Holds s.done s.notices
  returned : ∀ d ∈ s.returns, d = true

namespace Flight.Sound
variable {ι : Type*} {s : Flight ι}

theorem init : Flight.Sound ({} : Flight ι) where
  sole := Nowhere.sole fun _ h => by cases h
  unclaimed _ := ⟨fun _ h => (by cases h), rfl, rfl⟩
  led h := by cases h
  silent _ := rfl
  finished h := absurd h (Nat.lt_irrefl 0)
  holds _ := trivial
  returned _ h := by cases h

variable [DecidableEq ι] {t : ι} {p : Phase}

theorem goto (hs : s.Sound) (hlead : p.leads = true → (s.phase t).leads = true) (hp : p.Holds s.done s.notices) :
    (s.goto t p).Sound where
  sole := hs.sole.keep hlead
  unclaimed h := ⟨(hs.unclaimed h).1.update fun hp => (hs.unclaimed h).1 t (hlead hp), (hs.unclaimed h).2⟩
  led := hs.led
  silent := hs.silent
  finished h := ⟨(hs.finished h).1, (hs.finished h).2.update fun hp => (hs.finished h).2 t (hlead hp)⟩
  holds := forall_update (Q := fun _ (p : Phase) => p.Holds s.done s.notices) hp fun u _ => hs.holds u
  returned := hs.returned

theorem leave (hs : s.Sound) (hdone : s.done = true) : (s.leave t).Sound := by
  have hnoted : Flight.Sound { s with returns := s.returns ++ [s.done] } := by
    refine ⟨hs.sole, hs.unclaimed, hs.led, hs.silent, hs.finished, hs.holds, fun d hd => ?_⟩
    rcases List.mem_append.mp hd with hd | hd
    · exact hs.returned d hd
    · exact (List.mem_singleton.mp hd).trans hdone
  exact hnoted.goto (fun h => by cases h) trivial

/-- The first call takes the lead, the later ones join the waiters. -/
theorem claim (hs : s.Sound) : Flight.Sound ({ s with
    claimed := true, claims := s.claims + 1, leaders := s.leaders + if s.claimed then 0 else 1 }.goto t
      (if s.claimed then .check else .lead)) := by
  have hholds (p : Phase) (hp : p.Holds s.done s.notices) (u : ι) :
      (Function.update s.phase t p u).Holds s.done s.notices :=
    forall_update (Q := fun _ (p : Phase) => p.Holds s.done s.notices) hp (fun u _ => hs.holds u) u
  cases hc : s.claimed with
  | true =>
    have hover (h : 0 < s.notices) : Nowhere (fun p => p.leads = true) (Function.update s.phase t .check) :=
      (hs.finished h).2.update fun h => by cases h
    exact ⟨hs.sole.keep fun h => (by cases h), fun h => (by cases h), fun _ => ⟨Nat.succ_pos _, (hs.led hc).2⟩,
      hs.silent, fun h => ⟨rfl, hover h⟩, hholds .check trivial, hs.returned⟩
  | false =>
    obtain ⟨hnowhere, -, hnone⟩ := hs.unclaimed hc
    refine ⟨hnowhere.enter, fun h => (by cases h), fun _ => ⟨Nat.succ_pos _, congrArg (· + 1) hnone⟩, hs.silent,
      fun h => ?_, hholds .lead trivial, hs.returned⟩
    rw [(hs.finished h).1] at hc
    cases hc

theorem publish (hs : s.Sound) (hp : s.phase t = .publish) : Flight.Sound ({ s with done := true }.goto t .wake) := by
  have hdone : Flight.Sound { s with done := true } :=
    ⟨hs.sole, hs.unclaimed, hs.led, fun h => (by cases h), hs.finished,
      fun u => (hs.holds u).later (fun _ => rfl) (Nat.le_refl _), hs.returned⟩
  refine hdone.goto (fun _ => ?_) rfl
  change (s.phase t).leads = true
  rw [hp]
  rfl

/-- The leader leaves with its notice, and nobody leads after it. -/
theorem wake (hs : s.Sound) (hp : s.phase t = .wake) :
    Flight.Sound ({ s with notices := s.notices + 1 }.leave t) := by
  have hleads : (s.phase t).leads = true := by
    rw [hp]
    rfl
  have hdone : s.done = true := by
    have hholds := hs.holds t
    rwa [hp] at hholds
  have hclaimed : s.claimed = true := by
    by_contra hc
    exact (hs.unclaimed (Bool.eq_false_iff.mpr hc)).1 t hleads
  have hleft := hs.leave (t := t) hdone
  refine ⟨hleft.sole, hleft.unclaimed, hleft.led, fun h => ?_, fun _ => ⟨hclaimed, ?_⟩,
    fun u => (hleft.holds u).later id (Nat.le_succ _), hleft.returned⟩
  · cases hdone.symm.trans h
  · exact hs.sole.leave hleads fun h => by cases h

theorem advance {s' : Flight ι} (hs : s.Sound) (h : s.advance t = some s') : s'.Sound := by
  have hholds := hs.holds t
  unfold Flight.advance at h
  cases hp : s.phase t with
  | away => simp only [hp] at h; cases h
  | claim =>
    simp only [hp, Option.some.injEq] at h
    exact h ▸ hs.claim
  | lead =>
    simp only [hp, Option.some.injEq] at h
    exact h ▸ hs.goto (fun _ => by rw [hp]; rfl) trivial
  | publish =>
    simp only [hp, Option.some.injEq] at h
    exact h ▸ hs.publish hp
  | wake =>
    simp only [hp, Option.some.injEq] at h
    exact h ▸ hs.wake hp
  | check =>
    simp only [hp, Option.some.injEq] at h
    subst h
    split
    · rename_i hdone
      exact hs.leave hdone
    · exact hs.goto (fun h => by cases h) trivial
  | register =>
    simp only [hp, Option.some.injEq] at h
    exact h ▸ hs.goto (fun h => by cases h) (Nat.le_refl _)
  | recheck seen =>
    simp only [hp, Option.some.injEq] at h
    subst h
    split
    · rename_i hdone
      exact hs.leave hdone
    · rename_i hdone
      rw [hp] at hholds
      have hseen : seen ≤ s.notices := hholds
      rw [hs.silent (Bool.eq_false_iff.mpr hdone)] at hseen
      exact hs.goto (fun h => by cases h) (Nat.le_zero.mp hseen)
  | asleep seen =>
    simp only [hp] at h
    split at h <;> cases h
    exact hs.goto (fun h => by cases h) trivial

theorem step {s' : Flight ι} {a : ι × Bool} (hs : s.Sound) (h : s.step a = some s') : s'.Sound := by
  obtain ⟨t, _ | _⟩ := a
  · exact hs.advance h
  · simp only [Flight.step] at h
    split at h <;> cases h
    exact hs.goto (fun h => by cases h) trivial

theorem of_run {ok : Flight ι → ι × Bool → Prop} {as : List (ι × Bool)} (h : Run Flight.step ok {} as s) : s.Sound :=
  h.invariant (I := Flight.Sound) (fun _ _ _ _ hs hstep => hs.step hstep) init

end Flight.Sound

end Hyper4k.Runs
