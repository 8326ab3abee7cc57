import Mathlib.Algebra.BigOperators.Group.Finset.Piecewise
import Mathlib.Algebra.Order.BigOperators.Group.Finset
import Hyper4k.Runs.Threads

/-! Counting in a family of threads, of which one moves at a time: the credits they hold, and how
many of them are at a place. -/
namespace Hyper4k.Runs
variable {ι π : Type*} [DecidableEq ι] {w : π → Nat} {T : Finset ι} {pc : ι → π} {t : ι} {p : π}

def credits (w : π → Nat) (T : Finset ι) (pc : ι → π) : Nat := ∑ u ∈ T, w (pc u)

theorem credits_update_of_notMem (ht : t ∉ T) : credits w T (Function.update pc t p) = credits w T pc := by
  apply Finset.sum_congr rfl
  intro u hu
  have hut : u ≠ t := by
    rintro rfl
    exact ht hu
  rw [Function.update_of_ne hut]

theorem credits_update_of_mem (ht : t ∈ T) :
    credits w T (Function.update pc t p) + w (pc t) = credits w T pc + w p := by
  have hcomp : (fun u => w (Function.update pc t p u)) = Function.update (fun u => w (pc u)) t (w p) :=
    Function.comp_update w pc t p
  have hsplit := Finset.add_sum_erase T (fun u => w (pc u)) ht
  rw [credits, hcomp, Finset.sum_update_of_mem ht, Finset.sdiff_singleton_eq_erase]
  simp only [credits] at hsplit ⊢
  omega

theorem credits_insert (ht : t ∉ T → w (pc t) = 0) : credits w (insert t T) pc = credits w T pc :=
  Finset.sum_insert_of_eq_zero_if_notMem ht

theorem credits_insert_update (ht : t ∉ T → w (pc t) = 0) :
    credits w (insert t T) (Function.update pc t p) + w (pc t) = credits w T pc + w p := by
  rw [credits_update_of_mem (Finset.mem_insert_self t T), credits_insert ht]

omit [DecidableEq ι] in
theorem credits_le_credits {w' : π → Nat} (h : ∀ q, w q ≤ w' q) : credits w T pc ≤ credits w' T pc :=
  Finset.sum_le_sum fun u _ => h (pc u)

/-- A thread that moves pays what it spends out of its own credits. -/
theorem credits_spend {d : Nat} (hout : ∀ u, u ∉ T → w (pc u) = 0) (h : d + w p ≤ w (pc t)) :
    d + credits w T (Function.update pc t p) ≤ credits w T pc ∧
      ∀ u, u ∉ T → w (Function.update pc t p u) = 0 := by
  constructor
  · by_cases ht : t ∈ T
    · have hsum : credits w T (Function.update pc t p) + w (pc t) = credits w T pc + w p := credits_update_of_mem ht
      omega
    · have hzero := hout t ht
      rw [credits_update_of_notMem ht]
      omega
  · intro u hu
    by_cases hut : u = t
    · have hzero := hout t (hut ▸ hu)
      rw [hut, Function.update_self]
      omega
    · rw [Function.update_of_ne hut]
      exact hout u hu

section AtMost
variable {P : π → Prop} {n m : Int}

def AtMost (P : π → Prop) (n : Int) (pc : ι → π) : Prop :=
  ∀ F : Finset ι, (∀ u ∈ F, P (pc u)) → (F.card : Int) ≤ n

omit [DecidableEq ι] in
theorem Nowhere.atMost (h : Nowhere P pc) : AtMost P 0 pc := by
  intro F hF
  have hempty : F = ∅ := Finset.eq_empty_of_forall_notMem fun u hu => h u (hF u hu)
  rw [hempty]
  exact le_rfl

omit [DecidableEq ι] in
theorem AtMost.nowhere (h : AtMost P 0 pc) : Nowhere P pc := by
  intro u hu
  have hone := h {u} fun v hv => by rwa [Finset.mem_singleton.mp hv]
  rw [Finset.card_singleton] at hone
  omega

omit [DecidableEq ι] in
theorem AtMost.nonneg (h : AtMost P n pc) : 0 ≤ n := h ∅ fun _ hu => absurd hu (Finset.notMem_empty _)

theorem AtMost.keep (h : AtMost P n pc) (hp : P p → P (pc t)) : AtMost P n (Function.update pc t p) := by
  intro F hF
  refine h F fun u hu => ?_
  have hu' := hF u hu
  by_cases hut : u = t
  · subst hut
    rw [Function.update_self] at hu'
    exact hp hu'
  · rwa [Function.update_of_ne hut] at hu'

theorem AtMost.enter (h : AtMost P n pc) (hm : n + 1 ≤ m) : AtMost P m (Function.update pc t p) := by
  intro F hF
  have hrest := h (F.erase t) fun u hu => by
    have hu' := hF u (Finset.mem_of_mem_erase hu)
    rwa [Function.update_of_ne (Finset.ne_of_mem_erase hu)] at hu'
  have hcard : F.card - 1 ≤ (F.erase t).card := Finset.pred_card_le_card_erase
  omega

theorem AtMost.leave (h : AtMost P n pc) (ht : P (pc t)) (hp : ¬ P p) (hm : n - 1 ≤ m) :
    AtMost P m (Function.update pc t p) := by
  intro F hF
  have hnot : t ∉ F := by
    intro hmem
    have hself := hF t hmem
    rw [Function.update_self] at hself
    exact hp hself
  have hall := h (insert t F) (Finset.forall_mem_insert t F _ |>.mpr ⟨ht, fun u hu => by
    have hut : u ≠ t := fun hut => hnot (hut ▸ hu)
    have hu' := hF u hu
    rwa [Function.update_of_ne hut] at hu'⟩)
  rw [Finset.card_insert_of_notMem hnot] at hall
  omega

end AtMost

section Exactly
variable {place inner : π → Bool} {n k : Nat}

def Exactly (place : π → Bool) (n : Nat) (pc : ι → π) : Prop :=
  ∃ T : Finset ι, (∀ u, u ∈ T ↔ place (pc u) = true) ∧ T.card = n

omit [DecidableEq ι] in
theorem exactly_zero (h : ∀ u, place (pc u) = false) : Exactly place 0 pc := by
  refine ⟨∅, fun u => ?_, Finset.card_empty⟩
  rw [h u]
  exact ⟨fun hu => absurd hu (Finset.notMem_empty u), fun hu => absurd hu Bool.false_ne_true⟩

omit [DecidableEq ι] in
theorem Exactly.nowhere (h : Exactly place 0 pc) (u : ι) : place (pc u) = false := by
  obtain ⟨T, hT, hcard⟩ := h
  rw [Finset.card_eq_zero] at hcard
  rw [Bool.eq_false_iff, ne_eq, ← hT u, hcard]
  exact Finset.notMem_empty u

omit [DecidableEq ι] in
theorem Exactly.eq_zero (h : Exactly place n pc) (hnone : ∀ u, place (pc u) = false) : n = 0 := by
  obtain ⟨T, hT, rfl⟩ := h
  rw [Finset.card_eq_zero]
  apply Finset.eq_empty_of_forall_notMem
  intro u hu
  rw [hT u, hnone u] at hu
  cases hu

omit [DecidableEq ι] in
theorem Exactly.pos (h : Exactly place n pc) {u : ι} (hu : place (pc u) = true) : 0 < n := by
  obtain ⟨T, hT, rfl⟩ := h
  exact Finset.card_pos.mpr ⟨u, (hT u).mpr hu⟩

omit [DecidableEq ι] in
theorem Exactly.le (h : Exactly inner k pc) (h' : Exactly place n pc)
    (hsub : ∀ q, inner q = true → place q = true) : k ≤ n := by
  obtain ⟨T, hT, rfl⟩ := h
  obtain ⟨T', hT', rfl⟩ := h'
  apply Finset.card_le_card
  intro u hu
  exact (hT' u).mpr (hsub _ ((hT u).mp hu))

/-- The number changes by what the thread that moves was and is. -/
theorem Exactly.update (h : Exactly place n pc) (t : ι) (p : π) :
    ∃ m, Exactly place m (Function.update pc t p) ∧ m + (place (pc t)).toNat = n + (place p).toNat := by
  obtain ⟨T, hT, rfl⟩ := h
  have hrest : ∀ u, u ≠ t → (u ∈ T.erase t ↔ place (Function.update pc t p u) = true) := by
    intro u hu
    rw [Function.update_of_ne hu, Finset.mem_erase, hT u]
    exact ⟨And.right, fun h => ⟨hu, h⟩⟩
  have herase : (T.erase t).card + (place (pc t)).toNat = T.card := by
    cases ht : place (pc t) with
    | true => exact Finset.card_erase_add_one ((hT t).mpr ht)
    | false =>
      have hnot : t ∉ T := fun hmem => absurd ((hT t).mp hmem) (by rw [ht]; exact Bool.false_ne_true)
      rw [Finset.erase_eq_of_notMem hnot, Bool.toNat_false, Nat.add_zero]
  cases hp : place p with
  | true =>
    refine ⟨_, ⟨insert t (T.erase t), fun u => ?_, rfl⟩, ?_⟩
    · by_cases hu : u = t
      · subst hu
        rw [Function.update_self, hp]
        exact ⟨fun _ => rfl, fun _ => Finset.mem_insert_self u _⟩
      · rw [Finset.mem_insert, or_iff_right hu]
        exact hrest u hu
    · rw [Finset.card_insert_of_notMem (Finset.notMem_erase t T), Bool.toNat_true]
      omega
  | false =>
    refine ⟨_, ⟨T.erase t, fun u => ?_, rfl⟩, ?_⟩
    · by_cases hu : u = t
      · subst hu
        rw [Function.update_self, hp]
        exact ⟨fun hmem => absurd hmem (Finset.notMem_erase u T), fun hmem => absurd hmem Bool.false_ne_true⟩
      · exact hrest u hu
    · rw [Bool.toNat_false]
      omega

end Exactly

end Hyper4k.Runs
