import Mathlib.Data.List.Basic

/-! Assignments to the parts of a store. A part covers some addresses and has a value for each of them. -/
namespace Hyper4k.Cells
variable {A B ι : Type*} {part : ι → A → Option B} {l : List ι} {a : A} {b : B} {p : ι}

/-- The store after the parts in the list have been assigned to, one after the other. -/
def assign (mem : A → B) (part : ι → A → Option B) (l : List ι) : A → B :=
  l.foldl (fun m p a => (part p a).getD (m a)) mem

theorem assign_of_none (mem : A → B) (h : ∀ p ∈ l, part p a = none) : assign mem part l a = mem a := by
  induction l generalizing mem with
  | nil => rfl
  | cons q l ih =>
    have hrest := ih (fun a => (part q a).getD (mem a)) fun p hp => h p (List.mem_cons_of_mem q hp)
    rw [h q List.mem_cons_self] at hrest
    exact hrest

/-- An address that one part alone covers has its value, however often the part is assigned to. -/
theorem assign_of_some (mem : A → B) (hp : p ∈ l) (ha : part p a = some b)
    (hother : ∀ q ∈ l, q ≠ p → part q a = none) : assign mem part l a = b := by
  induction l generalizing mem with
  | nil => cases hp
  | cons q l ih =>
    have hrest : ∀ r ∈ l, r ≠ p → part r a = none := fun r hr => hother r (List.mem_cons_of_mem q hr)
    by_cases hl : p ∈ l
    · exact ih _ hl hrest
    · obtain rfl : p = q := (List.mem_cons.mp hp).resolve_right hl
      have hlater : ∀ r ∈ l, part r a = none := fun r hr => hrest r hr fun hrp => hl (hrp ▸ hr)
      have hlast := assign_of_none (fun a => (part p a).getD (mem a)) hlater
      rw [ha] at hlast
      exact hlast

end Hyper4k.Cells
