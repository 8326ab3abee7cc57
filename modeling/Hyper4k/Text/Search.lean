import Mathlib.Data.List.Infix

/-! The first occurrence of a pattern in a list, given by where it ends. -/
namespace Hyper4k.Text

variable {α : Type*} [DecidableEq α]

/-- How many elements are read until the first occurrence of `pat` is complete. -/
def endOf (pat : List α) : List α → Option Nat
  | [] => if pat = [] then some 0 else none
  | a :: l => if pat.isPrefixOf (a :: l) then some pat.length else (endOf pat l).map (· + 1)

theorem endOf_bounds {pat l : List α} {n : Nat} (h : endOf pat l = some n) :
    pat.length ≤ n ∧ n ≤ l.length := by
  induction l generalizing n with
  | nil =>
    rw [endOf] at h
    split at h
    case isTrue hpat =>
      obtain rfl := Option.some.inj h
      simp [hpat]
    case isFalse => cases h
  | cons a l ih =>
    rw [endOf] at h
    split at h
    case isTrue hpre =>
      obtain rfl := Option.some.inj h
      exact ⟨le_rfl, (List.isPrefixOf_iff_prefix.mp hpre).length_le⟩
    case isFalse =>
      obtain ⟨m, hm, rfl⟩ := Option.map_eq_some_iff.mp h
      obtain ⟨hlow, hhigh⟩ := ih hm
      exact ⟨by omega, by simp only [List.length_cons]; omega⟩

theorem subset_of_endOf {pat l : List α} {n : Nat} (h : endOf pat l = some n) : pat ⊆ l := by
  induction l generalizing n with
  | nil =>
    rw [endOf] at h
    split at h
    case isTrue hpat => exact hpat ▸ List.nil_subset []
    case isFalse => cases h
  | cons a l ih =>
    rw [endOf] at h
    split at h
    case isTrue hpre => exact (List.isPrefixOf_iff_prefix.mp hpre).subset
    case isFalse =>
      obtain ⟨m, hm, rfl⟩ := Option.map_eq_some_iff.mp h
      exact List.Subset.trans (ih hm) (List.subset_cons_self a l)

/-- Looking at the first `k` elements only finds the same occurrence, or none if it ends later. -/
theorem endOf_take (pat l : List α) (k : Nat) :
    endOf pat (l.take k) = (endOf pat l).filter (· ≤ k) := by
  induction l generalizing k with
  | nil =>
    simp only [List.take_nil, endOf]
    split <;> simp [Option.filter]
  | cons a l ih =>
    cases k with
    | zero =>
      rw [List.take_zero, endOf, endOf]
      by_cases hpat : pat = []
      · simp [hpat, Option.filter]
      have hlen : 0 < pat.length := List.length_pos_iff.mpr hpat
      rw [if_neg hpat]
      split
      case isTrue => simp [Option.filter, hlen.ne']
      case isFalse => cases endOf pat l <;> simp [Option.filter]
    | succ k =>
      rw [List.take_succ_cons, endOf, endOf, ih k]
      by_cases hpre : pat <+: a :: l
      · rw [if_pos (List.isPrefixOf_iff_prefix.mpr hpre)]
        by_cases hk : pat.length ≤ k + 1
        · have htake : pat <+: a :: l.take k := by
            rw [← List.take_succ_cons, List.prefix_take_iff]
            exact ⟨hpre, hk⟩
          rw [if_pos (List.isPrefixOf_iff_prefix.mpr htake)]
          simp [Option.filter, hk]
        · have hshort : ¬ pat <+: a :: l.take k := fun h => hk (by
            have := h.length_le
            simp only [List.length_cons, List.length_take] at this
            omega)
          rw [if_neg (mt List.isPrefixOf_iff_prefix.mp hshort)]
          have hnone : (endOf pat l).filter (· ≤ k) = none := by
            rw [Option.filter_eq_none_iff]
            intro n hn
            have := (endOf_bounds hn).1
            simp only [decide_eq_true_eq]
            omega
          rw [hnone]
          simp [Option.filter, hk]
      · have htake : ¬ pat <+: a :: l.take k := fun h => hpre (h.trans (by
          rw [← List.take_succ_cons]
          exact List.take_prefix _ _))
        rw [if_neg (mt List.isPrefixOf_iff_prefix.mp hpre), if_neg (mt List.isPrefixOf_iff_prefix.mp htake)]
        cases endOf pat l with
        | none => rfl
        | some n => by_cases hn : n ≤ k <;> simp [Option.filter, hn]

/-- The test that slides a window over the list. -/
theorem endOf_isSome (pat l : List α) : (endOf pat l).isSome = l.tails.any pat.isPrefixOf := by
  induction l with
  | nil =>
    rw [endOf]
    cases pat <;> simp
  | cons a l ih =>
    rw [endOf, List.tails_cons, List.any_cons]
    split
    case isTrue hpre => simp [hpre]
    case isFalse hpre => simp [hpre, ih]

omit [DecidableEq α] in
/-- A search that first cuts each element is a search among the cuts. -/
theorem findSome?_cut {β γ : Type*} (cut : α → Option β) (p : β → Bool) (f : β → γ) (l : List α) :
    l.findSome? (fun a => (cut a).bind fun b => if p b then some (f b) else none) =
      ((l.filterMap cut).find? p).map f := by
  induction l with
  | nil => rfl
  | cons a l ih =>
    rw [List.findSome?_cons, List.filterMap_cons]
    cases cut a with
    | none => exact ih
    | some b =>
      simp only [Option.bind_some, List.find?_cons]
      cases p b with
      | true => rfl
      | false => exact ih

end Hyper4k.Text
