import Mathlib.Data.List.DropRight
import Mathlib.Data.UInt

/-! Text as UTF-16 code units, and its UTF-8 encoding with replacement of lone surrogates. -/
namespace Hyper4k.Text

abbrev Units := List UInt16

abbrev Octets := List UInt8

def isHigh (u : UInt16) : Bool := decide (0xD800 ≤ u.toNat) && decide (u.toNat < 0xDC00)

def isLow (u : UInt16) : Bool := decide (0xDC00 ≤ u.toNat) && decide (u.toNat < 0xE000)

def scalar (high low : UInt16) : Nat := 0x10000 + (high.toNat - 0xD800) * 0x400 + (low.toNat - 0xDC00)

def scalarBytes (c : Nat) : Octets :=
  if c < 0x80 then [.ofNat c]
  else if c < 0x800 then [.ofNat (0xC0 + c / 64), .ofNat (0x80 + c % 64)]
  else if c < 0x10000 then [.ofNat (0xE0 + c / 4096), .ofNat (0x80 + c / 64 % 64), .ofNat (0x80 + c % 64)]
  else [.ofNat (0xF0 + c / 262144), .ofNat (0x80 + c / 4096 % 64), .ofNat (0x80 + c / 64 % 64),
    .ofNat (0x80 + c % 64)]

def replacement : Octets := [0xEF, 0xBF, 0xBD]

/-- A code unit that is not half of a pair. -/
def unitBytes (u : UInt16) : Octets := if isHigh u || isLow u then replacement else scalarBytes u.toNat

def utf8 : Units → Octets
  | [] => []
  | [u] => unitBytes u
  | u :: v :: rest =>
    if isHigh u && isLow v then scalarBytes (scalar u v) ++ utf8 rest else unitBytes u ++ utf8 (v :: rest)

theorem utf8_cons_of_not_low {u v : UInt16} (hv : isLow v = false) (rest : Units) :
    utf8 (u :: v :: rest) = unitBytes u ++ utf8 (v :: rest) := by
  simp [utf8, hv]

/-- Text can be cut before any unit that does not complete a pair. -/
theorem utf8_append_cons {u : UInt16} (hu : isLow u = false) (s t : Units) :
    utf8 (s ++ u :: t) = utf8 s ++ utf8 (u :: t) := by
  induction s using utf8.induct with
  | case1 => rfl
  | case2 v => exact utf8_cons_of_not_low hu t
  | case3 v w rest hpair ih => simp [utf8, hpair, ih]
  | case4 v w rest hpair ih => simpa [utf8, hpair] using ih

theorem utf8_cons_ascii {u : UInt16} (hu : u.toNat < 0x80) (s : Units) :
    utf8 (u :: s) = .ofNat u.toNat :: utf8 s := by
  have hhigh : isHigh u = false := by simp [isHigh]; omega
  have hlow : isLow u = false := by simp [isLow]; omega
  cases s <;> simp [utf8, unitBytes, scalarBytes, hhigh, hlow, hu]

theorem utf8_append_ascii {u : UInt16} (hu : u.toNat < 0x80) (s t : Units) :
    utf8 (s ++ u :: t) = utf8 s ++ .ofNat u.toNat :: utf8 t := by
  rw [utf8_append_cons (by simp [isLow]; omega), utf8_cons_ascii hu]

theorem utf8_of_ascii {s : Units} (h : ∀ u ∈ s, u.toNat < 0x80) : utf8 s = s.map fun u => .ofNat u.toNat := by
  induction s with
  | nil => rfl
  | cons u s ih =>
    rw [utf8_cons_ascii (h u List.mem_cons_self), ih fun v hv => h v (List.mem_cons_of_mem u hv), List.map_cons]

private theorem wide_of_ge {n : Nat} (h : 0x80 ≤ n) (h' : n < 0x100) : 0x80 ≤ (UInt8.ofNat n).toNat := by
  rw [UInt8.toNat_ofNat_of_lt' (by simpa using h')]
  exact h

/-- A scalar value above ASCII is encoded without ASCII bytes. -/
theorem scalarBytes_wide {c : Nat} (hc : 0x80 ≤ c) (hmax : c < 0x110000) : ∀ b ∈ scalarBytes c, 0x80 ≤ b.toNat := by
  unfold scalarBytes
  rw [if_neg (by omega)]
  split
  · simp only [List.forall_mem_cons]
    exact ⟨wide_of_ge (by omega) (by omega), wide_of_ge (by omega) (by omega), by simp⟩
  · split
    · simp only [List.forall_mem_cons]
      exact ⟨wide_of_ge (by omega) (by omega), wide_of_ge (by omega) (by omega), wide_of_ge (by omega) (by omega),
        by simp⟩
    · simp only [List.forall_mem_cons]
      exact ⟨wide_of_ge (by omega) (by omega), wide_of_ge (by omega) (by omega), wide_of_ge (by omega) (by omega),
        wide_of_ge (by omega) (by omega), by simp⟩

theorem scalar_bounds {u v : UInt16} (hu : isHigh u = true) (hv : isLow v = true) :
    0x80 ≤ scalar u v ∧ scalar u v < 0x110000 := by
  simp only [isHigh, isLow, Bool.and_eq_true, decide_eq_true_eq] at hu hv
  unfold scalar
  omega

/-- An ASCII byte of a unit's encoding is that unit. -/
theorem ascii_mem_unitBytes {u : UInt16} {b : UInt8} (hb : b.toNat < 0x80) (h : b ∈ unitBytes u) :
    u.toNat = b.toNat := by
  unfold unitBytes at h
  split at h
  · have hwide : replacement.all (fun b => decide (0x80 ≤ b.toNat)) = true := by decide
    exact absurd (of_decide_eq_true (List.all_eq_true.mp hwide b h)) (by omega)
  · by_cases hu : u.toNat < 0x80
    · rw [scalarBytes, if_pos hu, List.mem_singleton] at h
      rw [h, UInt8.toNat_ofNat_of_lt' (Nat.lt_trans hu (by decide))]
    · exact absurd (scalarBytes_wide (by omega) (Nat.lt_trans u.toNat_lt (by decide)) b h) (by omega)

/-- ASCII bytes stand for ASCII units, and for nothing else. -/
theorem ascii_mem_utf8 {s : Units} {b : UInt8} (hb : b.toNat < 0x80) (h : b ∈ utf8 s) : ∃ u ∈ s, u.toNat = b.toNat := by
  induction s using utf8.induct with
  | case1 => cases h
  | case2 u => exact ⟨u, List.mem_cons_self, ascii_mem_unitBytes hb h⟩
  | case3 u v rest hpair ih =>
    rw [utf8, if_pos hpair, List.mem_append] at h
    rw [Bool.and_eq_true] at hpair
    rcases h with h | h
    · obtain ⟨hlow, hmax⟩ := scalar_bounds hpair.1 hpair.2
      exact absurd (scalarBytes_wide hlow hmax b h) (by omega)
    · obtain ⟨w, hw, he⟩ := ih h
      exact ⟨w, List.mem_cons_of_mem u (List.mem_cons_of_mem v hw), he⟩
  | case4 u v rest hpair ih =>
    rw [utf8, if_neg hpair, List.mem_append] at h
    rcases h with h | h
    · exact ⟨u, List.mem_cons_self, ascii_mem_unitBytes hb h⟩
    · obtain ⟨w, hw, he⟩ := ih h
      exact ⟨w, List.mem_cons_of_mem u hw, he⟩

theorem scalarBytes_ne_nil (c : Nat) : scalarBytes c ≠ [] := by
  unfold scalarBytes
  repeat' split
  all_goals exact List.cons_ne_nil _ _

theorem unitBytes_ne_nil (u : UInt16) : unitBytes u ≠ [] := by
  unfold unitBytes
  split
  · exact List.cons_ne_nil _ _
  · exact scalarBytes_ne_nil _

theorem utf8_ne_nil (u : UInt16) (s : Units) : utf8 (u :: s) ≠ [] := by
  cases s with
  | nil => exact unitBytes_ne_nil u
  | cons v s =>
    rw [utf8]
    split
    · exact List.append_ne_nil_of_left_ne_nil (scalarBytes_ne_nil _) _
    · exact List.append_ne_nil_of_left_ne_nil (unitBytes_ne_nil u) _

/-- Text that begins with an ASCII byte begins with that unit. -/
theorem head_of_utf8 {s : Units} {b : UInt8} (hb : b.toNat < 0x80) (h : (utf8 s).head? = some b) :
    ∃ u, s.head? = some u ∧ u.toNat = b.toNat := by
  cases s with
  | nil => cases h
  | cons u s =>
    refine ⟨u, rfl, ?_⟩
    cases s with
    | nil => exact ascii_mem_unitBytes hb (List.mem_of_head? h)
    | cons v s =>
      rw [utf8] at h
      split at h
      · rename_i hpair
        rw [Bool.and_eq_true] at hpair
        obtain ⟨hlow, hmax⟩ := scalar_bounds hpair.1 hpair.2
        rw [List.head?_append_of_ne_nil _ (scalarBytes_ne_nil _)] at h
        exact absurd (scalarBytes_wide hlow hmax b (List.mem_of_head? h)) (by omega)
      · rw [List.head?_append_of_ne_nil _ (unitBytes_ne_nil u)] at h
        exact ascii_mem_unitBytes hb (List.mem_of_head? h)

/-- Text that ends with an ASCII byte ends with that unit. -/
theorem getLast_of_utf8 {s : Units} {b : UInt8} (hb : b.toNat < 0x80) (h : (utf8 s).getLast? = some b) :
    ∃ u, s.getLast? = some u ∧ u.toNat = b.toNat := by
  induction s using utf8.induct with
  | case1 => cases h
  | case2 u => exact ⟨u, rfl, ascii_mem_unitBytes hb (List.mem_of_getLast? h)⟩
  | case3 u v rest hpair ih =>
    rw [utf8, if_pos hpair] at h
    cases rest with
    | nil =>
      rw [Bool.and_eq_true] at hpair
      obtain ⟨hlow, hmax⟩ := scalar_bounds hpair.1 hpair.2
      rw [utf8, List.append_nil] at h
      exact absurd (scalarBytes_wide hlow hmax b (List.mem_of_getLast? h)) (by omega)
    | cons w rest =>
      rw [List.getLast?_append_of_ne_nil _ (utf8_ne_nil w rest)] at h
      obtain ⟨x, hx, he⟩ := ih h
      exact ⟨x, by rw [List.getLast?_cons_cons, List.getLast?_cons_cons, hx], he⟩
  | case4 u v rest hpair ih =>
    rw [utf8, if_neg hpair, List.getLast?_append_of_ne_nil _ (utf8_ne_nil v rest)] at h
    obtain ⟨x, hx, he⟩ := ih h
    exact ⟨x, by rw [List.getLast?_cons_cons, hx], he⟩

def widen (b : Octets) : Units := b.map UInt8.toUInt16

theorem utf8_widen {b : Octets} (h : ∀ x ∈ b, x.toNat < 0x80) : utf8 (widen b) = b := by
  have hascii : ∀ u ∈ widen b, u.toNat < 0x80 := by
    intro u hu
    obtain ⟨x, hx, rfl⟩ := List.mem_map.mp hu
    rw [UInt8.toNat_toUInt16]
    exact h x hx
  rw [utf8_of_ascii hascii, widen, List.map_map]
  refine (List.map_congr_left fun x _ => ?_).trans (List.map_id b)
  change UInt8.ofNat x.toUInt16.toNat = x
  rw [UInt8.toNat_toUInt16, UInt8.ofNat_toNat]

section Lines
variable {α : Type*}

/-- Joining puts the separator before every line but the first. -/
theorem intercalate_cons (a : α) (l : List α) (ls : List (List α)) :
    [a].intercalate (l :: ls) = l ++ ls.flatMap (a :: ·) := by
  induction ls generalizing l with
  | nil => simp
  | cons m ls ih => rw [List.intercalate_cons_cons, ih, List.flatMap_cons, List.append_assoc, List.singleton_append,
      List.cons_append]

theorem splitOn_append_cons [BEq α] [LawfulBEq α] (a : α) (l m : List α) :
    (l ++ a :: m).splitOn a = l.splitOn a ++ m.splitOn a :=
  List.splitOnP_append_cons (p := (· == a)) l m (beq_self_eq_true a)

/-- Lines that were joined without escaping are split wherever they hold the separator. -/
theorem splitOn_intercalate_flatMap [BEq α] [LawfulBEq α] (a : α) (ls : List (List α)) (h : ls ≠ []) :
    ([a].intercalate ls).splitOn a = ls.flatMap (List.splitOn a) := by
  induction ls with
  | nil => exact absurd rfl h
  | cons l ls ih =>
    cases ls with
    | nil => simp
    | cons m ls =>
      rw [List.intercalate_cons_cons, List.append_assoc, List.singleton_append, splitOn_append_cons,
        List.flatMap_cons, ih (List.cons_ne_nil m ls)]

/-- A separator after every line leaves an empty last piece. -/
theorem splitOn_terminated [DecidableEq α] (a : α) (ls : List (List α)) (h : ∀ l ∈ ls, a ∉ l) :
    (ls.flatMap (· ++ [a])).splitOn a = ls ++ [[]] := by
  have hjoin : [a].intercalate (ls ++ [[]]) = ls.flatMap (· ++ [a]) := by
    induction ls with
    | nil => rfl
    | cons l ls ih =>
      have hrest := ih fun m hm => h m (List.mem_cons_of_mem _ hm)
      rw [List.flatMap_cons, ← hrest]
      cases ls <;> simp [List.intercalate_cons_cons]
  rw [← hjoin]
  refine List.splitOn_intercalate a (fun l hl => ?_) (List.concat_ne_nil _ _)
  rcases List.mem_append.mp hl with hl | hl
  · exact h l hl
  · rw [List.mem_singleton.mp hl]
    exact List.not_mem_nil

theorem splitOn_of_not_mem [BEq α] [LawfulBEq α] {a : α} {l : List α} (h : a ∉ l) : l.splitOn a = [l] := by
  rw [List.splitOn, List.splitOnP_eq_singleton]
  intro b hb
  exact beq_false_of_ne fun e => h (e ▸ hb)

theorem not_mem_splitOn [BEq α] [LawfulBEq α] (a : α) (l : List α) : ∀ piece ∈ l.splitOn a, a ∉ piece := by
  induction l with
  | nil =>
    intro piece hp
    rw [List.mem_singleton.mp hp]
    exact List.not_mem_nil
  | cons b l ih =>
    intro piece hp
    rw [List.splitOn, List.splitOnP_cons_eq_if_modifyHead] at hp
    split at hp
    · rcases List.mem_cons.mp hp with rfl | hp
      · exact List.not_mem_nil
      · exact ih piece hp
    · rename_i hb
      cases hs : l.splitOnP (· == a) with
      | nil => exact absurd hs (List.splitOnP_ne_nil _ _)
      | cons z zs =>
        rw [hs, List.modifyHead_cons] at hp
        rcases List.mem_cons.mp hp with rfl | hp
        · rw [List.mem_cons]
          rintro (rfl | hz)
          · exact hb (beq_self_eq_true a)
          · exact ih z (by rw [List.splitOn, hs]; exact List.mem_cons_self) hz
        · exact ih piece (by rw [List.splitOn, hs]; exact List.mem_cons_of_mem z hp)

/-- Where two texts meet, the last piece of the one and the first of the other become one. -/
theorem splitOn_append [BEq α] [LawfulBEq α] {a : α} {l m x y : List α} {v w : List (List α)}
    (hl : l.splitOn a = v ++ [x]) (hm : m.splitOn a = y :: w) : (l ++ m).splitOn a = v ++ (x ++ y) :: w := by
  induction l generalizing v x with
  | nil =>
    cases v with
    | nil =>
      cases hl
      exact hm
    | cons z zs =>
      have hlen := congrArg List.length hl
      rw [List.length_append, List.length_cons] at hlen
      change 1 = zs.length + 1 + 1 at hlen
      omega
  | cons b l ih =>
    have hne : l.splitOn a ≠ [] := List.splitOnP_ne_nil _ _
    rw [List.splitOn, List.splitOnP_cons_eq_if_modifyHead, ← List.splitOn] at hl
    rw [List.cons_append, List.splitOn, List.splitOnP_cons_eq_if_modifyHead, ← List.splitOn]
    by_cases hb : (b == a) = true
    · rw [if_pos hb] at hl ⊢
      cases v with
      | nil =>
        rw [List.nil_append, List.cons_eq_cons] at hl
        exact absurd hl.2 hne
      | cons z zs =>
        rw [List.cons_append, List.cons_eq_cons] at hl
        rw [ih hl.2, ← hl.1]
        rfl
    · rw [if_neg hb] at hl ⊢
      cases hs : l.splitOn a with
      | nil => exact absurd hs hne
      | cons z zs =>
        rw [hs, List.modifyHead_cons] at hl
        cases v with
        | nil =>
          rw [List.nil_append, List.cons_eq_cons] at hl
          obtain ⟨rfl, rfl⟩ := hl
          rw [ih (v := []) hs]
          rfl
        | cons u us =>
          rw [List.cons_append, List.cons_eq_cons] at hl
          obtain ⟨rfl, rfl⟩ := hl
          rw [ih (v := z :: us) hs]
          rfl

/-- The separator is found right after a text without it. -/
theorem findIdx_separator [BEq α] [LawfulBEq α] {a : α} {l : List α} (h : a ∉ l) (rest : List α) :
    (l ++ a :: rest).findIdx? (· == a) = some l.length := by
  have hnone : l.findIdx? (· == a) = none := by
    rw [List.findIdx?_eq_none_iff]
    intro b hb
    exact beq_false_of_ne fun e => h (e ▸ hb)
  rw [List.findIdx?_append, hnone, List.findIdx?_cons, if_pos (beq_self_eq_true _)]
  simp

theorem trim_eq_self {p : α → Bool} {l : List α} (hhead : ∀ x ∈ l.head?, p x = false)
    (hlast : ∀ x ∈ l.getLast?, p x = false) : (l.dropWhile p).rdropWhile p = l := by
  have hdrop : l.dropWhile p = l := by
    cases l with
    | nil => rfl
    | cons x l => rw [List.dropWhile_cons_of_neg (by rw [hhead x rfl]; exact Bool.false_ne_true)]
  rw [hdrop, List.rdropWhile_eq_self_iff]
  intro hl hx
  rw [hlast _ (List.getLast?_eq_some_getLast hl)] at hx
  cases hx

theorem trim_ends (p : α → Bool) (l : List α) : (∀ x ∈ ((l.dropWhile p).rdropWhile p).head?, p x = false) ∧
    ∀ x ∈ ((l.dropWhile p).rdropWhile p).getLast?, p x = false := by
  constructor
  · intro x hx
    obtain ⟨rest, hrest⟩ := List.rdropWhile_prefix p (l.dropWhile p)
    have hhead : (l.dropWhile p).head? = some x := by rw [← hrest, List.head?_append, Option.mem_def.mp hx]; rfl
    have hnot := List.head?_dropWhile_not p l
    rw [hhead] at hnot
    exact hnot
  · intro x hx
    have hne : (l.dropWhile p).rdropWhile p ≠ [] := List.ne_nil_of_mem (List.mem_of_getLast? hx)
    rw [Option.mem_def, List.getLast?_eq_some_getLast hne] at hx
    rw [Bool.eq_false_iff, ← Option.some.inj hx]
    exact List.rdropWhile_last_not p _ hne

/-- Exactly the surroundings are trimmed from a text that has nothing to trim at its ends. -/
theorem trim_around {p : α → Bool} {lead l trail : List α} (hlead : ∀ x ∈ lead, p x = true)
    (htrail : ∀ x ∈ trail, p x = true) (hhead : ∀ x ∈ l.head?, p x = false) (hlast : ∀ x ∈ l.getLast?, p x = false) :
    ((lead ++ (l ++ trail)).dropWhile p).rdropWhile p = l := by
  rw [List.dropWhile_append_of_pos hlead]
  cases l with
  | nil =>
    rw [List.nil_append, List.rdropWhile_eq_nil_iff]
    exact fun x hx => htrail x (List.dropWhile_suffix p |>.subset hx)
  | cons x l =>
    have hx : ¬ p x = true := by
      rw [hhead x rfl]
      exact Bool.false_ne_true
    have hreverse : ∀ y ∈ trail.reverse, p y = true := fun y hy => htrail y (List.mem_reverse.mp hy)
    have hself := trim_eq_self hhead hlast
    rw [List.dropWhile_cons_of_neg hx, List.rdropWhile] at hself
    rw [List.cons_append, List.dropWhile_cons_of_neg hx, ← List.cons_append, List.rdropWhile, List.reverse_append,
      List.dropWhile_append_of_pos hreverse, hself]

theorem utf8_intercalate {u : UInt16} (hu : u.toNat < 0x80) (ls : List Units) :
    utf8 ([u].intercalate ls) = [UInt8.ofNat u.toNat].intercalate (ls.map utf8) := by
  induction ls with
  | nil => rfl
  | cons l ls ih =>
    cases ls with
    | nil => simp
    | cons m ls =>
      rw [List.intercalate_cons_cons, List.append_assoc, List.singleton_append, utf8_append_ascii hu, ih]
      simp [List.intercalate_cons_cons]

end Lines

theorem ascii_not_mem {s : Units} {u : UInt16} (hu : u.toNat < 0x80) (h : u ∉ s) :
    UInt8.ofNat u.toNat ∉ utf8 s := by
  intro hb
  have hval : (UInt8.ofNat u.toNat).toNat = u.toNat := UInt8.toNat_ofNat_of_lt' (Nat.lt_trans hu (by decide))
  obtain ⟨v, hv, he⟩ := ascii_mem_utf8 (by rwa [hval]) hb
  rw [hval] at he
  exact h (UInt16.toNat_inj.mp he ▸ hv)

/-- An ASCII character cuts a text where its byte cuts the encoded text. -/
theorem utf8_splitOn {u : UInt16} (hu : u.toNat < 0x80) (s : Units) :
    (utf8 s).splitOn (UInt8.ofNat u.toNat) = (s.splitOn u).map utf8 := by
  have hjoin : s = [u].intercalate (s.splitOn u) := (List.intercalate_splitOn u).symm
  conv_lhs => rw [hjoin, utf8_intercalate hu]
  refine List.splitOn_intercalate _ (fun l hl => ?_) (mt List.map_eq_nil_iff.mp (List.splitOnP_ne_nil _ _))
  obtain ⟨piece, hp, rfl⟩ := List.mem_map.mp hl
  exact ascii_not_mem hu (not_mem_splitOn u s piece hp)

end Hyper4k.Text
