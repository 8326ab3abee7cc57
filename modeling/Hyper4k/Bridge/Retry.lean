import Hyper4k.Bridge.Abi

/-! The attempt loop of one request against an environment that decides the outcome
of every attempt. Budget arithmetic is checked, so an underflow is visible. -/
namespace Hyper4k.Bridge.Retry

inductive Method
  | get | head | put | delete | options | trace | post | patch | connect
  | extension (name : String)
  deriving DecidableEq, Repr

def isIdempotent : Method → Bool
  | .get | .head | .put | .delete | .options | .trace => true
  | _ => false

def mayRetry (committed provablyUnsent methodIdempotent : Bool) (budgetLeft : UInt32) : Bool :=
  if committed then false
  else if budgetLeft = 0 then false
  else provablyUnsent || methodIdempotent

/-- What one iteration meets. `unsent` is `take_message().is_some()`, `committed`
is the flag read after the failure. -/
inductive Outcome (ρ : Type*)
  | acquireFailed (kind : ErrorKind)
  | closed
  | unbuildable
  | sendFailed (unsent committed : Bool)
  | response (r : ρ)

inductive Effect (ρ : Type*)
  | settle (terminal : Terminal)
  | deliver (response : ρ)

inductive Fault
  | underflow | outOfFuel
  deriving DecidableEq, Repr

/-- `budget -= 1` on a `u32`. -/
def spend (budget : UInt32) : Except Fault UInt32 :=
  if budget = 0 then .error .underflow else .ok (budget - 1)

variable {ρ : Type*}

/-- One iteration: `inl` continues with the remaining budget, `inr` returns. -/
def iteration (idempotent : Bool) (budget : UInt32) : Outcome ρ → Except Fault (UInt32 ⊕ Effect ρ)
  | .acquireFailed kind => .ok (.inr (.settle { kind, message := "connect failed" }))
  | .closed =>
    if budget > 0 then (spend budget).map .inl
    else .ok (.inr (.settle { kind := .connect, message := "no live connection" }))
  | .unbuildable => .ok (.inr (.settle { kind := .protocol, message := "request could not be built" }))
  | .sendFailed unsent committed =>
    if mayRetry committed unsent idempotent budget then (spend budget).map .inl
    else
      let kind := if committed then .truncated else .outcomeUnknown
      .ok (.inr (.settle { kind, message := "send failed" }))
  | .response r => .ok (.inr (.deliver r))

/-- The loop. `env i` is the outcome of iteration `i`; the result lists the outcomes
met and the effects performed. -/
def attemptLoop (idempotent : Bool) (env : Nat → Outcome ρ) :
    Nat → Nat → UInt32 → Except Fault (List (Outcome ρ) × List (Effect ρ))
  | 0, _, _ => .error .outOfFuel
  | fuel + 1, i, budget =>
    match iteration idempotent budget (env i) with
    | .error e => .error e
    | .ok (.inr effect) => .ok ([env i], [effect])
    | .ok (.inl budget) =>
      match attemptLoop idempotent env fuel (i + 1) budget with
      | .error e => .error e
      | .ok (met, effects) => .ok (env i :: met, effects)

/-- The peer may have received the request: it was issued and not handed back. -/
def Outcome.Exposed : Outcome ρ → Prop
  | .sendFailed unsent _ => unsent = false
  | .response _ => True
  | _ => False

def Outcome.effect : Outcome ρ → Effect ρ
  | .acquireFailed kind => .settle { kind, message := "connect failed" }
  | .closed => .settle { kind := .connect, message := "no live connection" }
  | .unbuildable => .settle { kind := .protocol, message := "request could not be built" }
  | .sendFailed _ committed =>
    .settle { kind := if committed then .truncated else .outcomeUnknown, message := "send failed" }
  | .response r => .deliver r

private theorem spend_continues (budget : UInt32) (effect : Effect ρ) :
    (spend budget).map Sum.inl ≠ .ok (.inr effect) := by
  unfold spend
  split <;> simp [Except.map]

theorem iteration_effect {idempotent : Bool} {budget : UInt32} {o : Outcome ρ} {effect : Effect ρ}
    (h : iteration idempotent budget o = .ok (.inr effect)) : effect = o.effect := by
  cases o with
  | closed | sendFailed unsent committed =>
    simp only [iteration] at h
    split at h
    · exact absurd h (spend_continues _ _)
    · cases h
      rfl
  | acquireFailed kind | unbuildable | response r =>
    cases h
    rfl

/-- Only a connector can name a kind, so a settled attempt is an error. -/
theorem iteration_settles {idempotent : Bool} {budget : UInt32} {o : Outcome ρ} {t : Terminal}
    (h : iteration idempotent budget o = .ok (.inr (.settle t)))
    (hk : ∀ kind, o = .acquireFailed kind → kind ≠ .none) : t.kind ≠ .none := by
  have heffect := iteration_effect h
  cases o with
  | acquireFailed kind =>
    cases heffect
    exact hk kind rfl
  | closed | unbuildable =>
    cases heffect
    exact ErrorKind.noConfusion
  | sendFailed unsent committed =>
    cases heffect
    cases committed <;> exact ErrorKind.noConfusion
  | response r => cases heffect

theorem iteration_delivers {idempotent : Bool} {budget : UInt32} {o : Outcome ρ} {r : ρ}
    (h : iteration idempotent budget o = .ok (.inr (.deliver r))) : o = .response r := by
  have heffect := iteration_effect h
  cases o <;> cases heffect
  rfl

private theorem spend_ok {budget : UInt32} (h : budget ≠ 0) :
    spend budget = .ok (budget - 1) ∧ (budget - 1).toNat + 1 = budget.toNat := by
  have hp : budget.toNat ≠ 0 := fun hz => h (UInt32.toNat_inj.mp hz)
  have hle : (1 : UInt32) ≤ budget := by
    rw [UInt32.le_iff_toNat_le]
    simpa using Nat.one_le_iff_ne_zero.mpr hp
  refine ⟨by simp [spend, h], ?_⟩
  rw [UInt32.toNat_sub_of_le _ _ hle]
  simp only [UInt32.toNat_one]
  omega

private theorem mayRetry_cases {committed unsent idempotent : Bool} {budget : UInt32}
    (h : mayRetry committed unsent idempotent budget = true) :
    committed = false ∧ budget ≠ 0 ∧ (unsent = true ∨ idempotent = true) := by
  unfold mayRetry at h
  split at h
  · cases h
  · split at h
    · cases h
    · exact ⟨by simp_all, by assumption, by simpa using h⟩

/-- An iteration either performs one effect and returns, or continues on a budget
one smaller after an attempt that the retry rules allow to be repeated. -/
theorem iteration_cases (idempotent : Bool) (budget : UInt32) (o : Outcome ρ) :
    (∃ effect, iteration idempotent budget o = .ok (.inr effect)) ∨
    (∃ rest : UInt32, iteration idempotent budget o = .ok (.inl rest) ∧
      rest.toNat + 1 = budget.toNat ∧ (idempotent = false → ¬ o.Exposed)) := by
  cases o with
  | acquireFailed kind => exact .inl ⟨_, rfl⟩
  | closed =>
    by_cases hb : budget > 0
    · have hne : budget ≠ 0 := by rintro rfl; exact absurd hb (by decide)
      obtain ⟨hs, hn⟩ := spend_ok hne
      exact .inr ⟨budget - 1, by simp [iteration, hb, hs, Except.map], hn, fun _ h => h⟩
    · exact .inl ⟨_, by simp only [iteration, hb, if_false]; rfl⟩
  | unbuildable => exact .inl ⟨_, rfl⟩
  | sendFailed unsent committed =>
    by_cases hm : mayRetry committed unsent idempotent budget = true
    · obtain ⟨_, hb, hor⟩ := mayRetry_cases hm
      obtain ⟨hs, hn⟩ := spend_ok hb
      refine .inr ⟨budget - 1, by simp [iteration, hm, hs, Except.map], hn, ?_⟩
      intro hi he
      simp only [Outcome.Exposed] at he
      simp [hi, he] at hor
    · exact .inl ⟨_, by simp only [iteration, hm]; rfl⟩
  | response r => exact .inl ⟨_, rfl⟩

/-- The loop ends within `budget + 1` iterations without underflow, in one effect, that of
the last outcome it met, and for a non-idempotent request only the last attempt may have
reached the peer. -/
theorem attemptLoop_ends (idempotent : Bool) (env : Nat → Outcome ρ) (fuel i : Nat) (budget : UInt32)
    (hf : budget.toNat < fuel) :
    ∃ met effect, attemptLoop idempotent env fuel i budget = .ok (met, [effect]) ∧
      met.length ≤ budget.toNat + 1 ∧ met ≠ [] ∧ met.getLast?.map Outcome.effect = some effect ∧
      (∀ k (hk : k < met.length), met.get ⟨k, hk⟩ = env (i + k)) ∧
      (idempotent = false → ∀ o ∈ met.dropLast, ¬ o.Exposed) := by
  induction fuel generalizing i budget with
  | zero => omega
  | succ fuel ih =>
    rcases iteration_cases idempotent budget (env i) with ⟨effect, he⟩ | ⟨rest, he, hr, hx⟩
    · refine ⟨[env i], effect, by simp [attemptLoop, he], by simp, by simp,
        congrArg some (iteration_effect he).symm, ?_, by simp⟩
      intro k hk
      have hz : k = 0 := by simpa using hk
      subst hz
      rfl
    · obtain ⟨met, effect, hl, hlen, hne, hlast, hget, hdrop⟩ := ih (i + 1) rest (by omega)
      refine ⟨env i :: met, effect, by simp [attemptLoop, he, hl], ?_, by simp, ?_, ?_, ?_⟩
      · simp only [List.length_cons]
        omega
      · rw [List.getLast?_cons_of_ne_nil hne]
        exact hlast
      · intro k hk
        cases k with
        | zero => rfl
        | succ k => simpa [Nat.add_assoc, Nat.add_comm 1 k] using hget k (by simpa using hk)
      · intro hi o ho
        rw [List.dropLast_cons_of_ne_nil hne, List.mem_cons] at ho
        rcases ho with rfl | ho
        · exact hx hi
        · exact hdrop hi o ho

private theorem exposed_at_most_once {met : List (Outcome ρ)} (h : ∀ o ∈ met.dropLast, ¬ o.Exposed) :
    ∀ j k (hj : j < met.length) (hk : k < met.length),
      (met.get ⟨j, hj⟩).Exposed → (met.get ⟨k, hk⟩).Exposed → j = k := by
  have last : ∀ j (hj : j < met.length), (met.get ⟨j, hj⟩).Exposed → j + 1 = met.length := by
    intro j hj he
    by_contra hne
    have hd : j < met.dropLast.length := by rw [List.length_dropLast]; omega
    refine h _ (List.get_mem met.dropLast ⟨j, hd⟩) ?_
    simpa [List.getElem_dropLast] using he
  intro j k hj hk hej hek
  have := last j hj hej
  have := last k hk hek
  omega

/-- Bounded retries and at-most-once sending, for every environment. However much
fuel is spare, the loop stops by itself after at most `maxRetries + 1` iterations, and
does one thing: it hands the response over, or settles with the error of its last attempt. -/
theorem attempts_bounded_and_sent_once (maxRetries : UInt32) (method : Method) (env : Nat → Outcome ρ)
    (spare : Nat) :
    ∃ met effect, attemptLoop (isIdempotent method) env (maxRetries.toNat + 1 + spare) 0 maxRetries =
        .ok (met, [effect]) ∧
      met.length ≤ maxRetries.toNat + 1 ∧ met ≠ [] ∧ met.getLast?.map Outcome.effect = some effect ∧
      (∀ k (hk : k < met.length), met.get ⟨k, hk⟩ = env k) ∧
      (isIdempotent method = false → (∀ o ∈ met.dropLast, ¬ o.Exposed) ∧
        ∀ j k (hj : j < met.length) (hk : k < met.length),
          (met.get ⟨j, hj⟩).Exposed → (met.get ⟨k, hk⟩).Exposed → j = k) := by
  obtain ⟨met, effect, hl, hlen, hne, hlast, hget, hdrop⟩ :=
    attemptLoop_ends (isIdempotent method) env (maxRetries.toNat + 1 + spare) 0 maxRetries (by omega)
  refine ⟨met, effect, hl, hlen, hne, hlast, fun k hk => by simpa using hget k hk, ?_⟩
  intro hi
  exact ⟨hdrop hi, exposed_at_most_once (hdrop hi)⟩

end Hyper4k.Bridge.Retry
