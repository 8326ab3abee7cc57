import Mathlib.Data.List.Basic

/-! Runs of a partial step function in which every step satisfies a guard.
The guard sees the state before the step, never the state it leads to. -/
namespace Hyper4k.Runs
variable {σ τ α β : Type*}

/-- A run from one state to another through the listed actions. -/
inductive Run (step : σ → α → Option σ) (ok : σ → α → Prop) : σ → List α → σ → Prop
  | nil (s : σ) : Run step ok s [] s
  | cons {s t u : σ} {a : α} {as : List α} (allowed : ok s a) (move : step s a = some t)
      (rest : Run step ok t as u) : Run step ok s (a :: as) u

def anyStep : σ → α → Prop := fun _ _ => True

instance (s : σ) (a : α) : Decidable (anyStep s a) := inferInstanceAs (Decidable True)

/-- Executes a schedule; `none` when one of its actions is not enabled or not allowed. -/
def replay (step : σ → α → Option σ) (ok : σ → α → Prop) [∀ s a, Decidable (ok s a)] :
    σ → List α → Option σ
  | s, [] => some s
  | s, a :: as => if ok s a then
      match step s a with
      | some t => replay step ok t as
      | none => none
    else none

variable {step : σ → α → Option σ} {ok : σ → α → Prop}

theorem run_of_replay [∀ s a, Decidable (ok s a)] {s u : σ} {as : List α}
    (h : replay step ok s as = some u) : Run step ok s as u := by
  induction as generalizing s with
  | nil =>
    cases h
    exact .nil _
  | cons a as ih =>
    simp only [replay] at h
    split at h
    case isFalse => cases h
    case isTrue hok =>
      split at h
      · rename_i t ht
        exact .cons hok ht (ih h)
      · cases h

theorem Run.append {s t u : σ} {as bs : List α} (h : Run step ok s as t) (k : Run step ok t bs u) :
    Run step ok s (as ++ bs) u := by
  induction h with
  | nil => exact k
  | cons allowed move _ ih => exact .cons allowed move (ih k)

theorem Run.mono {ok' : σ → α → Prop} {s t : σ} {as : List α} (h : Run step ok s as t)
    (weaker : ∀ s a, ok s a → ok' s a) : Run step ok' s as t := by
  induction h with
  | nil s => exact .nil s
  | cons allowed move _ ih => exact .cons (weaker _ _ allowed) move ih

/-- The actions of a run determine where it ends. -/
theorem Run.deterministic {ok' : σ → α → Prop} {s t u : σ} {as : List α} (h : Run step ok s as t)
    (k : Run step ok' s as u) : t = u := by
  induction h with
  | nil s =>
    cases k
    rfl
  | cons _ move _ ih =>
    cases k with
    | cons _ move' rest' =>
      rw [move] at move'
      cases move'
      exact ih rest'

/-- Every step of a run is one of the listed actions. -/
theorem Run.mem {s t : σ} {as : List α} (h : Run step ok s as t) :
    Run step (fun s a => ok s a ∧ a ∈ as) s as t := by
  induction h with
  | nil s => exact .nil s
  | cons allowed move _ ih =>
    refine .cons ⟨allowed, List.mem_cons_self⟩ move (ih.mono fun _ _ h => ?_)
    exact ⟨h.1, List.mem_cons_of_mem _ h.2⟩

/-- What every allowed step keeps, every run keeps. -/
theorem Run.invariant {I : σ → Prop} {s t : σ} {as : List α} (h : Run step ok s as t)
    (keep : ∀ s a t, ok s a → I s → step s a = some t → I t) (hs : I s) : I t := by
  induction h with
  | nil => exact hs
  | cons allowed move _ ih => exact ih (keep _ _ _ allowed hs move)

/-- What an action brings about and every step keeps holds at the end of a run with that action. -/
theorem Run.lasting {I : σ → Prop} {s t : σ} {a : α} {as : List α} (h : Run step ok s as t) (ha : a ∈ as)
    (sets : ∀ s t, step s a = some t → I t) (keep : ∀ s b t, I s → step s b = some t → I t) : I t := by
  induction h with
  | nil => exact absurd ha List.not_mem_nil
  | cons _ move rest ih =>
    rcases List.mem_cons.mp ha with rfl | ha
    · exact rest.invariant (fun s b t _ hs => keep s b t hs) (sets _ _ move)
    · exact ih ha

/-- A measure that every allowed step lowers bounds the run. -/
theorem Run.length_le {I : σ → Prop} (μ : σ → Nat)
    (down : ∀ s a t, ok s a → I s → step s a = some t → I t ∧ μ t < μ s)
    {s t : σ} {as : List α} (h : Run step ok s as t) (hs : I s) : as.length + μ t ≤ μ s ∧ I t := by
  induction h with
  | nil s => exact ⟨by simp, hs⟩
  | cons allowed move _ ih =>
    obtain ⟨ht, hlt⟩ := down _ _ _ allowed hs move
    obtain ⟨hlen, hu⟩ := ih ht
    refine ⟨?_, hu⟩
    rw [List.length_cons]
    omega

/-- A run seen through a projection: the steps that leave the image alone
disappear, the others become steps of the image. -/
theorem Run.project {step' : τ → β → Option τ} {ok' : τ → β → Prop} {J : σ → Prop} (f : σ → τ)
    (keep : ∀ s a t, J s → step s a = some t → J t)
    (sim : ∀ s a t, J s → ok s a → step s a = some t →
      f t = f s ∨ ∃ b, ok' (f s) b ∧ step' (f s) b = some (f t))
    {s t : σ} {as : List α} (h : Run step ok s as t) (hs : J s) :
    ∃ bs, Run step' ok' (f s) bs (f t) := by
  induction h with
  | nil s => exact ⟨[], .nil _⟩
  | cons allowed move _ ih =>
    obtain ⟨bs, hb⟩ := ih (keep _ _ _ hs move)
    rcases sim _ _ _ hs allowed move with he | ⟨b, hok, hm⟩
    · exact ⟨bs, he ▸ hb⟩
    · exact ⟨b :: bs, .cons hok hm hb⟩

end Hyper4k.Runs
