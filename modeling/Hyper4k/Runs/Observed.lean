import Hyper4k.Runs.Guarded

/-! Runs watched by an observer that keeps its own notes and never interferes. -/
namespace Hyper4k.Runs
variable {σ α ω : Type*}

/-- Steps as before, and writes down what was seen of the step. -/
def observe (step : σ → α → Option σ) (note : σ → α → σ → ω → ω) (p : σ × ω) (a : α) : Option (σ × ω) :=
  (step p.1 a).map fun t => (t, note p.1 a t p.2)

variable {step : σ → α → Option σ} {note : σ → α → σ → ω → ω}

theorem observe_eq_some {p q : σ × ω} {a : α} (h : observe step note p a = some q) :
    step p.1 a = some q.1 ∧ q.2 = note p.1 a q.1 p.2 := by
  obtain ⟨t, ht, rfl⟩ := Option.map_eq_some_iff.mp h
  exact ⟨ht, rfl⟩

/-- What the observer saw was a run. -/
theorem Run.unobserved {ok : σ × ω → α → Prop} {ok' : σ → α → Prop} (weaker : ∀ p a, ok p a → ok' p.1 a)
    {p q : σ × ω} {as : List α} (h : Run (observe step note) ok p as q) : Run step ok' p.1 as q.1 := by
  induction h with
  | nil p => exact .nil p.1
  | cons allowed move _ ih => exact .cons (weaker _ _ allowed) (observe_eq_some move).1 ih

/-- Every run can be observed. -/
theorem Run.observed {ok : σ → α → Prop} {s t : σ} {as : List α} (h : Run step ok s as t) (o : ω) :
    ∃ o', Run (observe step note) (fun p => ok p.1) (s, o) as (t, o') := by
  induction h generalizing o with
  | nil s => exact ⟨o, .nil _⟩
  | @cons s t u a as allowed move _ ih =>
    obtain ⟨o', hrest⟩ := ih (note s a t o)
    have hmove : observe step note (s, o) a = some (t, note s a t o) := by rw [observe, move, Option.map_some]
    exact ⟨o', .cons allowed hmove hrest⟩

end Hyper4k.Runs
