import Mathlib.Logic.Function.Basic

/-! Program counters of a family of threads, of which one moves at a time. -/
namespace Hyper4k.Runs
variable {ι π : Type*} {pc : ι → π} {t : ι} {p : π} {P : π → Prop}

/-- At most one thread is at a place satisfying `P`. -/
def Sole (P : π → Prop) (pc : ι → π) : Prop := ∀ t u, P (pc t) → P (pc u) → t = u

def Nowhere (P : π → Prop) (pc : ι → π) : Prop := ∀ t, ¬ P (pc t)

theorem Nowhere.sole (h : Nowhere P pc) : Sole P pc := fun t _ ht => absurd ht (h t)

variable [DecidableEq ι]

theorem nowhere_update (hp : ¬ P p) (h : ∀ u, u ≠ t → ¬ P (pc u)) : Nowhere P (Function.update pc t p) :=
  Function.forall_update_iff pc (fun _ q => ¬ P q) |>.mpr ⟨hp, h⟩

theorem Nowhere.update (h : Nowhere P pc) (hp : ¬ P p) : Nowhere P (Function.update pc t p) :=
  nowhere_update hp fun u _ => h u

theorem Sole.leave (h : Sole P pc) (ht : P (pc t)) (hp : ¬ P p) : Nowhere P (Function.update pc t p) :=
  nowhere_update hp fun u hu hP => hu (h u t hP ht)

theorem Nowhere.enter (h : Nowhere P pc) : Sole P (Function.update pc t p) := by
  intro u v hu hv
  by_cases hut : u = t
  · by_cases hvt : v = t
    · rw [hut, hvt]
    · rw [Function.update_of_ne hvt] at hv
      exact absurd hv (h v)
  · rw [Function.update_of_ne hut] at hu
    exact absurd hu (h u)

/-- A thread that is not at the place does not take it by moving inside or outside it. -/
theorem Sole.keep (h : Sole P pc) (hp : P p → P (pc t)) : Sole P (Function.update pc t p) := by
  have hold : ∀ u, P (Function.update pc t p u) → P (pc u) := by
    intro u hu
    by_cases hut : u = t
    · subst hut
      rw [Function.update_self] at hu
      exact hp hu
    · rwa [Function.update_of_ne hut] at hu
  exact fun u v hu hv => h u v (hold u hu) (hold v hv)

/-- A property of every counter, re-established at the one that moved. -/
theorem forall_update {Q : ι → π → Prop} (hp : Q t p) (h : ∀ u, u ≠ t → Q u (pc u)) :
    ∀ u, Q u (Function.update pc t p u) :=
  Function.forall_update_iff pc Q |>.mpr ⟨hp, h⟩

/-- An update that keeps a part of the one state keeps that part of all. -/
theorem update_part {β : Type*} {f : π → β} (hf : f p = f (pc t)) (u : ι) :
    f (Function.update pc t p u) = f (pc u) := by
  by_cases hu : u = t
  · subst hu
    rw [Function.update_self, hf]
  · rw [Function.update_of_ne hu]

/-- A thread found elsewhere is still there after `t` moved. -/
theorem exists_update_of_ne {u : ι} (hu : u ≠ t) (h : P (pc u)) : ∃ u, P (Function.update pc t p u) :=
  ⟨u, by rwa [Function.update_of_ne hu]⟩

theorem exists_update_self (h : P p) : ∃ u, P (Function.update pc t p u) :=
  ⟨t, by rwa [Function.update_self]⟩

/-- The place stays occupied when whoever moves out of it was not alone to hold it. -/
theorem exists_update (h : ∃ u, P (pc u)) (hp : P (pc t) → P p) : ∃ u, P (Function.update pc t p u) := by
  obtain ⟨u, hu⟩ := h
  by_cases hut : u = t
  · subst hut
    exact exists_update_self (hp hu)
  · exact exists_update_of_ne hut hu

/-- A lock is held by whoever is at a place satisfying `P`, and by nobody else. -/
def Guards (P : π → Prop) (lock : Option ι) (pc : ι → π) : Prop := ∀ u, lock = some u ↔ P (pc u)

theorem Guards.keep {lock : Option ι} (h : Guards P lock pc) (hp : P p ↔ P (pc t)) :
    Guards P lock (Function.update pc t p) :=
  forall_update (Q := fun u q => lock = some u ↔ P q) ((h t).trans hp.symm) fun u _ => h u

theorem Guards.acquire (h : Guards P none pc) (hp : P p) : Guards P (some t) (Function.update pc t p) := by
  refine forall_update (Q := fun u q => some t = some u ↔ P q) ⟨fun _ => hp, fun _ => rfl⟩ fun u hu => ?_
  refine ⟨fun he => absurd (Option.some.inj he).symm hu, fun hP => ?_⟩
  cases (h u).mpr hP

theorem Guards.release {lock : Option ι} (h : Guards P lock pc) (ht : P (pc t)) (hp : ¬ P p) :
    Guards P none (Function.update pc t p) := by
  refine forall_update (Q := fun u q => none = some u ↔ P q) ⟨fun he => (by cases he), fun hP => absurd hP hp⟩
    fun u hu => ⟨fun he => (by cases he), fun hP => ?_⟩
  have hheld := (h t).mpr ht
  rw [(h u).mpr hP] at hheld
  exact absurd (Option.some.inj hheld) hu

end Hyper4k.Runs
