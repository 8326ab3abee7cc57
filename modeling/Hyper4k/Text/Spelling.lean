import Hyper4k.Text.Grouping

/-! A map whose keys count as the same when a canonical form of them agrees, the first spelling being kept. -/
namespace Hyper4k.Text
variable {κ ν φ : Type*} [DecidableEq φ] (canon : κ → φ)

/-- The spelling under which the map has a key, or the key itself. -/
def spelling (m : List (κ × List ν)) (key : κ) : κ :=
  ((m.map Prod.fst).find? fun k => canon k = canon key).getD key

def firstValue (m : List (κ × List ν)) (key : κ) : Option ν :=
  (m.find? fun e => canon e.1 = canon key).bind fun e => e.2.head?

variable {canon} {m : List (κ × List ν)}

theorem canon_spelling (m : List (κ × List ν)) (key : κ) : canon (spelling canon m key) = canon key := by
  unfold spelling
  cases hfind : (m.map Prod.fst).find? fun k => decide (canon k = canon key) with
  | none => rfl
  | some k => exact of_decide_eq_true (List.find?_some (p := fun k => decide (canon k = canon key)) hfind)

/-- A spelling that the map does not have is the key itself. -/
theorem spelling_of_not_mem {key : κ} (h : spelling canon m key ∉ m.map Prod.fst) : spelling canon m key = key := by
  unfold spelling at h ⊢
  cases hfind : (m.map Prod.fst).find? fun k => decide (canon k = canon key) with
  | none => rfl
  | some k =>
    rw [hfind] at h
    exact absurd (List.mem_of_find?_eq_some hfind) h

theorem firstValue_isSome (hne : ∀ e ∈ m, e.2 ≠ []) {key k : κ} (hk : k ∈ m.map Prod.fst) (hc : canon k = canon key) :
    (firstValue canon m key).isSome := by
  obtain ⟨e, he, rfl⟩ := List.mem_map.mp hk
  have hfound : (m.find? fun e => canon e.1 = canon key).isSome :=
    List.find?_isSome.mpr ⟨e, he, decide_eq_true hc⟩
  obtain ⟨e', he'⟩ := Option.isSome_iff_exists.mp hfound
  rw [firstValue, he', Option.bind_some, List.isSome_head?]
  simpa using hne e' (List.mem_of_find?_eq_some he')

variable [DecidableEq κ]

theorem addValue_ne_nil (hne : ∀ e ∈ m, e.2 ≠ []) (key : κ) (value : ν) : ∀ e ∈ addValue m key value, e.2 ≠ [] := by
  unfold addValue
  intro e he
  split at he
  case isTrue =>
    obtain ⟨e', he', rfl⟩ := List.mem_map.mp he
    split
    · exact List.append_ne_nil_of_right_ne_nil _ (List.cons_ne_nil _ _)
    · exact hne e' he'
  case isFalse =>
    rcases List.mem_append.mp he with he | he
    · exact hne e he
    · rw [List.mem_singleton.mp he]
      exact List.cons_ne_nil _ _

/-- A value put under the spelling of its key is the first one exactly if the key was not there. -/
theorem firstValue_addValue (canon : κ → φ) (hne : ∀ e ∈ m, e.2 ≠ []) (key name : κ) (value : ν) :
    firstValue canon (addValue m (spelling canon m key) value) name =
      (firstValue canon m name).or (if canon key = canon name then some value else none) := by
  by_cases hmem : spelling canon m key ∈ m.map Prod.fst
  · have hsame : firstValue canon (addValue m (spelling canon m key) value) name = firstValue canon m name := by
      rw [addValue, if_pos hmem, firstValue, firstValue, List.find?_map]
      have hkeys : ((fun e : κ × List ν => decide (canon e.1 = canon name)) ∘
          fun e => if e.1 = spelling canon m key then (e.1, e.2 ++ [value]) else e) =
          fun e => decide (canon e.1 = canon name) := by
        funext e
        rw [Function.comp_apply]
        split <;> rfl
      rw [hkeys]
      cases hfind : m.find? fun e => decide (canon e.1 = canon name) with
      | none => rfl
      | some e =>
        simp only [Option.map_some, Option.bind_some]
        split
        · exact List.head?_append_of_ne_nil _ (hne e (List.mem_of_find?_eq_some hfind))
        · rfl
    rw [hsame]
    split
    case isTrue hc =>
      have hsome := firstValue_isSome hne hmem ((canon_spelling m key).trans hc)
      obtain ⟨v, hv⟩ := Option.isSome_iff_exists.mp hsome
      rw [hv, Option.some_or]
    case isFalse => rw [Option.or_none]
  · rw [addValue, if_neg hmem, spelling_of_not_mem hmem, firstValue, List.find?_append]
    cases hfind : m.find? fun e => decide (canon e.1 = canon name) with
    | none =>
      have hold : firstValue canon m name = none := by rw [firstValue, hfind, Option.bind_none]
      rw [hold, Option.none_or, Option.none_or, List.find?_singleton]
      split
      case isTrue hc => rw [if_pos (of_decide_eq_true hc), Option.bind_some, List.head?_cons]
      case isFalse hc => rw [if_neg (mt decide_eq_true hc), Option.bind_none]
    | some e =>
      have hmem := List.mem_of_find?_eq_some hfind
      have hold : firstValue canon m name = e.2.head? := by rw [firstValue, hfind, Option.bind_some]
      have hsome : (e.2.head?).isSome := by
        rw [List.isSome_head?]
        simpa using hne e hmem
      obtain ⟨v, hv⟩ := Option.isSome_iff_exists.mp hsome
      rw [hold, hv, Option.some_or, Option.some_or, Option.bind_some, hv]

end Hyper4k.Text
