import Mathlib.Data.Finset.Card

/-! Pairs grouped under their keys, in a map that keeps the order of insertion. -/
namespace Hyper4k.Text
variable {κ ν : Type*} [DecidableEq κ]

def addValue (m : List (κ × List ν)) (key : κ) (value : ν) : List (κ × List ν) :=
  if key ∈ m.map Prod.fst then m.map fun e => if e.1 = key then (e.1, e.2 ++ [value]) else e
  else m ++ [(key, [value])]

def valuesOf (pairs : List (κ × ν)) (key : κ) : List ν := (pairs.filter fun p => p.1 = key).map Prod.snd

/-- The map holds each key of the list once, with its values, and no other. -/
structure Grouped (pairs : List (κ × ν)) (m : List (κ × List ν)) : Prop where
  once : (m.map Prod.fst).Nodup
  keys : ∀ key, key ∈ m.map Prod.fst ↔ key ∈ pairs.map Prod.fst
  values : ∀ e ∈ m, e.2 = valuesOf pairs e.1

theorem Grouped.nil : Grouped ([] : List (κ × ν)) [] := ⟨List.nodup_nil, fun _ => Iff.rfl, fun _ he => nomatch he⟩

theorem valuesOf_concat (pairs : List (κ × ν)) (key k : κ) (value : ν) :
    valuesOf (pairs ++ [(key, value)]) k = valuesOf pairs k ++ if key = k then [value] else [] := by
  rw [valuesOf, List.filter_append, List.map_append, ← valuesOf, List.filter_singleton]
  by_cases hk : key = k <;> simp [hk]

theorem valuesOf_eq_nil {pairs : List (κ × ν)} {key : κ} (h : key ∉ pairs.map Prod.fst) : valuesOf pairs key = [] := by
  rw [valuesOf, List.map_eq_nil_iff, List.filter_eq_nil_iff]
  intro p hp hkey
  exact h (List.mem_map.mpr ⟨p, hp, of_decide_eq_true hkey⟩)

theorem valuesOf_map {μ : Type*} (f : ν → μ) (pairs : List (κ × ν)) (key : κ) :
    valuesOf (pairs.map fun p => (p.1, f p.2)) key = (valuesOf pairs key).map f := by
  rw [valuesOf, valuesOf, List.filter_map, List.map_map, List.map_map]
  rfl

theorem mem_valuesOf {pairs : List (κ × ν)} {p : κ × ν} (h : p ∈ pairs) : p.2 ∈ valuesOf pairs p.1 :=
  List.mem_map.mpr ⟨p, List.mem_filter.mpr ⟨h, decide_eq_true rfl⟩, rfl⟩

variable {pairs : List (κ × ν)} {m : List (κ × List ν)}

theorem Grouped.add (h : Grouped pairs m) (key : κ) (value : ν) :
    Grouped (pairs ++ [(key, value)]) (addValue m key value) := by
  unfold addValue
  split
  · rename_i hkey
    have hkeys : (m.map fun e => if e.1 = key then (e.1, e.2 ++ [value]) else e).map Prod.fst = m.map Prod.fst := by
      rw [List.map_map]
      refine List.map_congr_left fun e _ => ?_
      change (if e.1 = key then (e.1, e.2 ++ [value]) else e).1 = e.1
      split <;> rfl
    refine ⟨by rw [hkeys]; exact h.once, fun k => ?_, fun e' he' => ?_⟩
    · rw [hkeys, h.keys, List.map_append, List.mem_append, List.map_singleton, List.mem_singleton]
      constructor
      · exact .inl
      · rintro (hk | rfl)
        · exact hk
        · exact (h.keys _).mp hkey
    · obtain ⟨e, he, rfl⟩ := List.mem_map.mp he'
      rw [valuesOf_concat]
      by_cases hek : e.1 = key
      · rw [if_pos hek, if_pos hek.symm, h.values e he]
      · rw [if_neg hek, if_neg (Ne.symm hek), List.append_nil]
        exact h.values e he
  · rename_i hkey
    refine ⟨?_, fun k => ?_, fun e he => ?_⟩
    · rw [List.map_append, List.nodup_append]
      refine ⟨h.once, List.nodup_singleton _, fun k hk k' hk' hkk => hkey ?_⟩
      rw [hkk, List.mem_singleton.mp hk'] at hk
      exact hk
    · rw [List.map_append, List.map_append, List.mem_append, List.mem_append, h.keys]
      rfl
    · rw [valuesOf_concat]
      rcases List.mem_append.mp he with he | he
      · have hek : key ≠ e.1 := fun hek => hkey (hek ▸ List.mem_map_of_mem he)
        rw [if_neg hek, List.append_nil]
        exact h.values e he
      · obtain rfl := List.mem_singleton.mp he
        rw [if_pos rfl, valuesOf_eq_nil fun hk => hkey ((h.keys key).mpr hk)]
        rfl

/-- Renaming keys, one to one on those in use, and values keeps the grouping. -/
theorem Grouped.map {κ' ν' : Type*} [DecidableEq κ'] (h : Grouped pairs m) (f : κ → κ') (g : ν → ν')
    (hf : ∀ k ∈ pairs.map Prod.fst, ∀ l ∈ pairs.map Prod.fst, f k = f l → k = l) :
    Grouped (pairs.map fun p => (f p.1, g p.2)) (m.map fun e => (f e.1, e.2.map g)) := by
  have hkeys : (m.map fun e => (f e.1, e.2.map g)).map Prod.fst = (m.map Prod.fst).map f := by
    rw [List.map_map, List.map_map]
    rfl
  have hpairs : (pairs.map fun p => (f p.1, g p.2)).map Prod.fst = (pairs.map Prod.fst).map f := by
    rw [List.map_map, List.map_map]
    rfl
  refine ⟨?_, fun key => ?_, fun e' he' => ?_⟩
  · rw [hkeys]
    apply h.once.map_on
    intro k hk l hl
    exact hf k ((h.keys k).mp hk) l ((h.keys l).mp hl)
  · rw [hkeys, hpairs, List.mem_map, List.mem_map]
    simp only [h.keys]
  · obtain ⟨e, he, rfl⟩ := List.mem_map.mp he'
    have hkey : e.1 ∈ pairs.map Prod.fst := (h.keys e.1).mp (List.mem_map_of_mem he)
    have hfilter : pairs.filter (fun p => decide (f p.1 = f e.1)) = pairs.filter fun p => decide (p.1 = e.1) := by
      refine List.filter_congr fun p hp => decide_eq_decide.mpr ⟨?_, congrArg f⟩
      exact hf p.1 (List.mem_map_of_mem hp) e.1 hkey
    change e.2.map g = valuesOf (pairs.map fun p => (f p.1, g p.2)) (f e.1)
    rw [h.values e he, valuesOf, valuesOf, List.filter_map, List.map_map, List.map_map, ← hfilter]
    rfl

/-- A list of pairs and its image under a change of values are grouped alike only if no value changes. -/
theorem Grouped.fixed {f : ν → ν} (h : Grouped pairs m) (h' : Grouped (pairs.map fun p => (p.1, f p.2)) m) :
    ∀ p ∈ pairs, f p.2 = p.2 := by
  intro p hp
  obtain ⟨e, he, hkey⟩ := List.mem_map.mp ((h.keys p.1).mpr (List.mem_map_of_mem hp))
  have hvalues : (valuesOf pairs e.1).map f = (valuesOf pairs e.1).map id := by
    rw [← valuesOf_map, ← h'.values e he, ← h.values e he, List.map_id]
  have hmem : p.2 ∈ valuesOf pairs e.1 := by
    rw [hkey]
    exact mem_valuesOf hp
  exact List.map_inj_left.mp hvalues p.2 hmem

theorem Grouped.length (h : Grouped pairs m) : m.length = (pairs.map Prod.fst).toFinset.card := by
  have hkeys : (m.map Prod.fst).toFinset = (pairs.map Prod.fst).toFinset := by
    ext key
    rw [List.mem_toFinset, List.mem_toFinset, h.keys]
  rw [← hkeys, List.toFinset_card_of_nodup h.once, List.length_map]

/-- A map with room for so many keys. Once it is full it takes no value, also not under a key that it has. -/
def addBounded (capacity : Nat) (m : List (κ × List ν)) (p : κ × ν) : Option (List (κ × List ν)) :=
  if m.length < capacity then some (addValue m p.1 p.2) else none

def collect (capacity : Nat) (pairs : List (κ × ν)) : Option (List (κ × List ν)) :=
  pairs.foldlM (addBounded capacity) []

variable {capacity : Nat}

theorem collect_concat (pairs : List (κ × ν)) (p : κ × ν) :
    collect capacity (pairs ++ [p]) = (collect capacity pairs).bind fun m => addBounded capacity m p := by
  simp only [collect, List.foldlM_append, List.foldlM_cons, List.foldlM_nil, bind_pure]
  rfl

theorem Grouped.of_collect (h : collect capacity pairs = some m) : Grouped pairs m ∧ m.length ≤ capacity := by
  induction pairs using List.reverseRecOn generalizing m with
  | nil =>
    cases h
    exact ⟨.nil, Nat.zero_le _⟩
  | append_singleton pairs p ih =>
    rw [collect_concat] at h
    obtain ⟨m', hm', h⟩ := Option.bind_eq_some_iff.mp h
    obtain ⟨hgrouped, -⟩ := ih hm'
    unfold addBounded at h
    split at h
    · rename_i hroom
      cases h
      refine ⟨hgrouped.add p.1 p.2, ?_⟩
      unfold addValue
      split
      · rw [List.length_map]
        exact hroom.le
      · rw [List.length_append]
        exact hroom
    · cases h

/-- With fewer keys than there is room for, everything is taken. -/
theorem collect_of_room (h : (pairs.map Prod.fst).toFinset.card < capacity) : ∃ m, collect capacity pairs = some m := by
  induction pairs using List.reverseRecOn with
  | nil => exact ⟨[], rfl⟩
  | append_singleton pairs p ih =>
    have hless : (pairs.map Prod.fst).toFinset.card ≤ ((pairs ++ [p]).map Prod.fst).toFinset.card := by
      refine Finset.card_le_card fun key hkey => ?_
      rw [List.mem_toFinset] at hkey ⊢
      rw [List.map_append]
      exact List.mem_append_left _ hkey
    have hroom := Nat.lt_of_le_of_lt hless h
    obtain ⟨m, hm⟩ := ih hroom
    rw [← (Grouped.of_collect hm).1.length] at hroom
    refine ⟨addValue m p.1 p.2, ?_⟩
    rw [collect_concat, hm, Option.bind_some, addBounded, if_pos hroom]

theorem collect_of_overfull (h : capacity < (pairs.map Prod.fst).toFinset.card) : collect capacity pairs = none := by
  by_contra hsome
  obtain ⟨m, hm⟩ := Option.ne_none_iff_exists'.mp hsome
  obtain ⟨hgrouped, hlength⟩ := Grouped.of_collect hm
  rw [hgrouped.length] at hlength
  omega

end Hyper4k.Text
