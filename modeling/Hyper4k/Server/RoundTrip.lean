import Hyper4k.Server.Headers

/-! Response headers round-trip: `parse_headers` gives back the pairs that `encodeHeaders` was given,
as long as the block fits an `Int`. -/
namespace Hyper4k.Server
open Text

def blockSize (headers : Entries) : Nat := ((pairs headers).map fun p => (line p).length + 1).sum

theorem line_length (p : Units × Units) : (line p).length + 1 = p.1.length + 2 + p.2.length + 1 := by
  simp only [line, List.length_append, List.length_cons]
  omega

private theorem measure_size_values (name : Units) (values : List Units) (acc : Int32 × Bool) :
    (values.foldl (fun acc value =>
      (acc.1 + (Int32.ofNat name.length + 2 + Int32.ofNat value.length + 1), acc.2 && isAscii value)) acc).1 =
      acc.1 + Int32.ofNat (values.map fun value => (line (name, value)).length + 1).sum := by
  induction values generalizing acc with
  | nil => simp
  | cons value values ih =>
    rw [List.foldl_cons, ih, List.map_cons, List.sum_cons, line_length]
    simp only [Int32.ofNat_add, Int32.add_assoc]
    rfl

theorem measure_size (headers : Entries) : (measure headers).1 = Int32.ofNat (blockSize headers) := by
  have general : ∀ acc : Int32 × Bool, (headers.foldl (fun acc entry =>
      entry.2.foldl (fun acc value =>
        (acc.1 + (Int32.ofNat entry.1.length + 2 + Int32.ofNat value.length + 1), acc.2 && isAscii value))
        (acc.1, acc.2 && isAscii entry.1)) acc).1 = acc.1 + Int32.ofNat (blockSize headers) := by
    induction headers with
    | nil =>
      intro acc
      simp [blockSize, pairs]
    | cons entry headers ih =>
      intro acc
      rw [List.foldl_cons, ih, measure_size_values]
      simp only [blockSize, pairs, List.flatMap_cons, List.map_append, List.sum_append, List.map_map, Int32.ofNat_add,
        Int32.add_assoc]
      rfl
  rw [measure, general, Int32.zero_add]

theorem text_length {headers : Entries} (h : pairs headers ≠ []) :
    ([LF].intercalate ((pairs headers).map line)).length + 1 = blockSize headers := by
  unfold blockSize
  cases hp : pairs headers with
  | nil => exact absurd hp h
  | cons p ps =>
    rw [List.map_cons, intercalate_cons, List.length_append, List.length_flatMap, List.map_cons, List.sum_cons,
      List.map_map]
    simp only [Function.comp_def, List.length_cons]
    omega

section Writing
variable {w w' : Writer}

theorem Writer.put_length {b : UInt8} (h : w.put b = some w') : w'.out.length = w.out.length := by
  unfold Writer.put at h
  split at h <;> cases h
  exact List.length_set

theorem Writer.put_some (b : UInt8) (h : w.pos < w.out.length) : ∃ w', w.put b = some w' ∧ w'.pos = w.pos + 1 := by
  refine ⟨⟨w.out.set w.pos b, w.pos + 1⟩, ?_, rfl⟩
  rw [Writer.put, if_pos h]

theorem Writer.putText_length {s : Units} (h : w.putText s = some w') : w'.out.length = w.out.length := by
  induction s generalizing w with
  | nil =>
    cases h
    rfl
  | cons u s ih =>
    obtain ⟨w₁, h₁, h⟩ := Option.bind_eq_some_iff.mp h
    exact (ih h).trans (Writer.put_length h₁)

theorem Writer.putText_some (s : Units) (h : w.pos + s.length ≤ w.out.length) :
    ∃ w', w.putText s = some w' ∧ w'.pos = w.pos + s.length := by
  induction s generalizing w with
  | nil => exact ⟨w, rfl, rfl⟩
  | cons u s ih =>
    rw [List.length_cons] at h
    obtain ⟨w₁, h₁, hpos⟩ := Writer.put_some (.ofNat u.toNat) (show w.pos < w.out.length by omega)
    have hlen := Writer.put_length h₁
    obtain ⟨w₂, h₂, hpos₂⟩ := ih (w := w₁) (by omega)
    refine ⟨w₂, Option.bind_eq_some_iff.mpr ⟨w₁, h₁, h₂⟩, ?_⟩
    rw [hpos₂, hpos, List.length_cons]
    omega

/-- The line end is counted for every line, also the first. -/
theorem Writer.putLine_some (first : Bool) (p : Units × Units) (h : w.pos + ((line p).length + 1) ≤ w.out.length) :
    ∃ w', Writer.putLine (w, first) p.1 p.2 = some (w', false) ∧ w'.pos ≤ w.pos + ((line p).length + 1) ∧
      w'.out.length = w.out.length := by
  rw [line_length] at h ⊢
  obtain ⟨w₁, h₁, hpos₁, hlen₁⟩ : ∃ w₁, w.newline first = some w₁ ∧ w₁.pos ≤ w.pos + 1 ∧
      w₁.out.length = w.out.length := by
    cases first with
    | true => exact ⟨w, rfl, Nat.le_succ _, rfl⟩
    | false =>
      obtain ⟨w₁, h₁, hpos⟩ := Writer.put_some NEWLINE_BYTE (show w.pos < w.out.length by omega)
      exact ⟨w₁, h₁, Nat.le_of_eq hpos, Writer.put_length h₁⟩
  obtain ⟨w₂, h₂, hpos₂⟩ := Writer.putText_some (w := w₁) p.1 (by omega)
  have hlen₂ := Writer.putText_length h₂
  obtain ⟨w₃, h₃, hpos₃⟩ := Writer.put_some (w := w₂) COLON_BYTE (by omega)
  have hlen₃ := Writer.put_length h₃
  obtain ⟨w₄, h₄, hpos₄⟩ := Writer.put_some (w := w₃) SPACE_BYTE (by omega)
  have hlen₄ := Writer.put_length h₄
  obtain ⟨w₅, h₅, hpos₅⟩ := Writer.putText_some (w := w₄) p.2 (by omega)
  have hlen₅ := Writer.putText_length h₅
  refine ⟨w₅, ?_, by omega, by omega⟩
  simp [Writer.putLine, h₁, h₂, h₃, h₄, h₅]

theorem Writer.putLine_length {acc acc' : Writer × Bool} {name value : Units}
    (h : Writer.putLine acc name value = some acc') : acc'.1.out.length = acc.1.out.length := by
  obtain ⟨w₁, w₂, w₃, w₄, w₅, h₁, h₂, h₃, h₄, h₅, rfl⟩ := Writer.putLine_cases h
  have hnew : w₁.out.length = acc.1.out.length := by
    unfold Writer.newline at h₁
    split at h₁
    · cases h₁
      rfl
    · exact Writer.put_length h₁
  rw [Writer.putText_length h₅, Writer.put_length h₄, Writer.put_length h₃, Writer.putText_length h₂, hnew]

private theorem lines_some (ps : List (Units × Units)) (first : Bool)
    (h : w.pos + (ps.map fun p => (line p).length + 1).sum ≤ w.out.length) :
    ∃ acc, ps.foldlM (fun acc p => Writer.putLine acc p.1 p.2) (w, first) = some acc := by
  induction ps generalizing w first with
  | nil => exact ⟨(w, first), rfl⟩
  | cons p ps ih =>
    rw [List.map_cons, List.sum_cons] at h
    obtain ⟨w₁, h₁, hpos, hlen⟩ := Writer.putLine_some first p (w := w) (by omega)
    obtain ⟨acc, hacc⟩ := ih (w := w₁) false (by omega)
    exact ⟨acc, Option.bind_eq_some_iff.mpr ⟨_, h₁, hacc⟩⟩

private theorem lines_length {ps : List (Units × Units)} {acc acc' : Writer × Bool}
    (h : ps.foldlM (fun acc p => Writer.putLine acc p.1 p.2) acc = some acc') :
    acc'.1.out.length = acc.1.out.length := by
  induction ps generalizing acc with
  | nil =>
    cases h
    rfl
  | cons p ps ih =>
    obtain ⟨acc₁, h₁, h⟩ := Option.bind_eq_some_iff.mp h
    exact (ih h).trans (Writer.putLine_length h₁)

end Writing

/-- The array of the counted size is large enough. -/
theorem encodeAscii_some {size : Nat} {headers : Entries} (h : blockSize headers ≤ size) :
    ∃ b, encodeAscii size headers = some b := by
  obtain ⟨acc, hacc⟩ := lines_some (w := ⟨List.replicate size 0, 0⟩) (pairs headers) true
    (by rw [List.length_replicate, Nat.zero_add]; exact h)
  refine ⟨acc.1.out.take acc.1.pos, ?_⟩
  unfold encodeAscii
  rw [foldlM_pairs Writer.putLine, hacc]
  rfl

theorem encodeAscii_length {size : Nat} {headers : Entries} {b : Octets} (h : encodeAscii size headers = some b) :
    b.length ≤ size := by
  unfold encodeAscii at h
  rw [foldlM_pairs Writer.putLine] at h
  obtain ⟨acc, hacc, h⟩ := Option.bind_eq_some_iff.mp h
  cases h
  have hlen := lines_length hacc
  rw [List.length_replicate] at hlen
  rw [List.length_take, hlen]
  exact Nat.min_le_right _ _

/-- The block fits what a Kotlin `Int` can count, before and after the encoding. -/
def Fits (headers : Entries) : Prop := blockSize headers < 2 ^ 31 ∧ (block headers).length < 2 ^ 31

instance (headers : Entries) : Decidable (Fits headers) :=
  inferInstanceAs (Decidable (blockSize headers < 2 ^ 31 ∧ (block headers).length < 2 ^ 31))

theorem blockSize_eq_zero {headers : Entries} (h : pairs headers = []) :
    blockSize headers = 0 ∧ block headers = [] := by
  rw [blockSize, block, h]
  exact ⟨rfl, rfl⟩

/-- In ASCII text every unit is a byte. -/
theorem block_length_of_ascii {headers : Entries} (h : (measure headers).2 = true) :
    (block headers).length + (if pairs headers = [] then 0 else 1) = blockSize headers := by
  split
  · rename_i hp
    rw [(blockSize_eq_zero hp).1, (blockSize_eq_zero hp).2]
    rfl
  · rename_i hp
    have hascii : ∀ u ∈ [LF].intercalate ((pairs headers).map line), u.toNat < 0x80 := by
      intro u hu
      have hline : ∀ p ∈ pairs headers, ∀ u ∈ line p, u.toNat < 0x80 := by
        intro p hp u hu
        have hpair := measure_ascii h p hp
        simp only [isAscii, List.all_eq_true, decide_eq_true_eq] at hpair
        rw [line, List.mem_append, List.mem_cons, List.mem_cons] at hu
        rcases hu with hu | rfl | rfl | hu
        · exact hpair.1 u hu
        · decide
        · decide
        · exact hpair.2 u hu
      cases hps : pairs headers with
      | nil => exact absurd hps hp
      | cons p ps =>
        rw [hps] at hline
        rw [hps, List.map_cons, intercalate_cons, List.mem_append] at hu
        rcases hu with hu | hu
        · exact hline p List.mem_cons_self u hu
        · obtain ⟨l, hl, hu⟩ := List.mem_flatMap.mp hu
          obtain ⟨q, hq, rfl⟩ := List.mem_map.mp hl
          rcases List.mem_cons.mp hu with rfl | hu
          · decide
          · exact hline q (List.mem_cons_of_mem p hq) u hu
    rw [block, utf8_of_ascii hascii, List.length_map, text_length hp]

/-- The counted size as an `Int`: right below `2 ^ 31`, negative at `2 ^ 31`, too small above. -/
theorem size_cases (n : Nat) : n < 2 ^ 31 ∧ ¬ Int32.ofNat n < 0 ∧ (Int32.ofNat n).toInt.toNat = n ∨
    2 ^ 31 ≤ n ∧ (Int32.ofNat n < 0 ∨ 2 ^ 31 < n ∧ (Int32.ofNat n).toInt.toNat + 1 < n) := by
  have hneg : Int32.ofNat n < 0 ↔ (n : Int).bmod (2 ^ 32) < 0 := by
    rw [Int32.lt_iff_toInt_lt, Int32.toInt_ofNat']
    rfl
  have hval : (Int32.ofNat n).toInt = (n : Int).bmod (2 ^ 32) := Int32.toInt_ofNat'
  rw [hneg, hval]
  simp only [Int.bmod_def]
  split <;> omega

private theorem encodeHeaders_cases {headers : Entries} (h : headers ≠ []) :
    encodeHeaders headers = if Int32.ofNat (blockSize headers) < 0 then none
      else if (measure headers).2 then encodeAscii (Int32.ofNat (blockSize headers)).toInt.toNat headers
      else if fits ([LF].intercalate ((pairs headers).map line)).length && fits (block headers).length
        then some (block headers) else none := by
  unfold encodeHeaders
  rw [if_neg (by simpa using h), ← measure_size, block, ← buildText_eq]

theorem text_le (headers : Entries) : ([LF].intercalate ((pairs headers).map line)).length ≤ blockSize headers := by
  by_cases hp : pairs headers = []
  · rw [hp]
    exact Nat.zero_le _
  · have := text_length hp
    omega

private theorem encodeHeaders_fitting {headers : Entries} (h : headers ≠ []) (hfits : Fits headers) :
    encodeHeaders headers = some (block headers) := by
  have hsome : ∀ b, encodeHeaders headers = some b → encodeHeaders headers = some (block headers) := fun b hb =>
    hb.trans (congrArg some (encodeHeaders_block hb))
  rcases size_cases (blockSize headers) with ⟨-, hpos, hval⟩ | ⟨hge, -⟩
  · have hcases := encodeHeaders_cases h
    rw [if_neg hpos, hval] at hcases
    by_cases hascii : (measure headers).2 = true
    · rw [if_pos hascii] at hcases
      obtain ⟨b, hb⟩ := encodeAscii_some (Nat.le_refl (blockSize headers))
      exact hsome b (hcases.trans hb)
    · have htext : fits ([LF].intercalate ((pairs headers).map line)).length = true :=
        decide_eq_true (Nat.lt_of_le_of_lt (text_le headers) hfits.1)
      rw [if_neg hascii, htext, show fits (block headers).length = true from decide_eq_true hfits.2] at hcases
      exact hcases
  · exact absurd hfits.1 (Nat.not_lt.mpr hge)

private theorem encodeHeaders_too_long {headers : Entries} (h : headers ≠ []) (hfits : ¬ Fits headers) :
    encodeHeaders headers = none := by
  have hcases := encodeHeaders_cases h
  rcases size_cases (blockSize headers) with ⟨hlt, hpos, hval⟩ | ⟨hge, hneg | ⟨hgt, hsmall⟩⟩
  · have hlong : fits (block headers).length = false := decide_eq_false fun hlen => hfits ⟨hlt, hlen⟩
    have hascii : ¬ (measure headers).2 = true := by
      intro hascii
      have hlen := block_length_of_ascii hascii
      exact hfits ⟨hlt, by omega⟩
    rw [if_neg hpos, if_neg hascii, hlong, Bool.and_false] at hcases
    exact hcases
  · rw [if_pos hneg] at hcases
    exact hcases
  · have hpairs : pairs headers ≠ [] := by
      intro hp
      have := (blockSize_eq_zero hp).1
      omega
    split at hcases
    · exact hcases
    · split at hcases
      · rename_i hascii
        by_contra hnone
        obtain ⟨b, hb⟩ := Option.ne_none_iff_exists'.mp hnone
        have hlen := encodeAscii_length (hcases.symm.trans hb)
        have hblock := block_length_of_ascii hascii
        rw [encodeHeaders_block hb] at hlen
        rw [if_neg hpairs] at hblock
        omega
      · have hlong : fits ([LF].intercalate ((pairs headers).map line)).length = false := by
          refine decide_eq_false ?_
          have := text_length hpairs
          omega
        rw [hlong, Bool.false_and] at hcases
        exact hcases

/-- `encodeHeaders` returns the block if it fits, and throws otherwise. -/
theorem encodeHeaders_eq (headers : Entries) :
    encodeHeaders headers = if Fits headers then some (block headers) else none := by
  by_cases h : headers = []
  · rw [h]
    rfl
  · split
    · rename_i hfits
      exact encodeHeaders_fitting h hfits
    · rename_i hfits
      exact encodeHeaders_too_long h hfits

/-- The fast path stays inside the array of the counted size and fills it with the block. -/
theorem encodeAscii_fitting {headers : Entries} (hfits : Fits headers) (hascii : (measure headers).2 = true) :
    encodeAscii (measure headers).1.toInt.toNat headers = some (block headers) := by
  by_cases h : headers = []
  · rw [h]
    rfl
  · have hcases := encodeHeaders_cases h
    rcases size_cases (blockSize headers) with ⟨-, hpos, -⟩ | ⟨hge, -⟩
    · rw [if_neg hpos, if_pos hascii, encodeHeaders_eq, if_pos hfits] at hcases
      rw [measure_size]
      exact hcases.symm
    · exact absurd hfits.1 (Nat.not_lt.mpr hge)

/-- A name is a token; a value is free of control characters but tabs, and of blanks at its ends. -/
def isName (name : Units) : Bool :=
  !name.isEmpty && name.all fun u => decide (u.toNat < 0x80) && isToken (.ofNat u.toNat)

def isBlank (u : UInt16) : Bool := u == 0x20 || u == 0x09

def isValue (value : Units) : Bool :=
  (value.all fun u => (decide (0x20 ≤ u) && u != 0x7F) || u == 0x09) &&
    !value.head?.any isBlank && !value.getLast?.any isBlank

def WellFormed (headers : Entries) : Prop :=
  ∀ entry ∈ headers, isName entry.1 = true ∧ ∀ value ∈ entry.2, isValue value = true

instance (headers : Entries) : Decidable (WellFormed headers) :=
  inferInstanceAs (Decidable (∀ entry ∈ headers, isName entry.1 = true ∧ ∀ value ∈ entry.2, isValue value = true))

theorem WellFormed.pair {headers : Entries} (h : WellFormed headers) {p : Units × Units} (hp : p ∈ pairs headers) :
    isName p.1 = true ∧ isValue p.2 = true := by
  obtain ⟨entry, hentry, hp⟩ := List.mem_flatMap.mp hp
  obtain ⟨value, hvalue, rfl⟩ := List.mem_map.mp hp
  exact ⟨(h entry hentry).1, (h entry hentry).2 value hvalue⟩

section Bytes
variable {s : Units}

theorem isToken_visible {b : UInt8} (h : isToken b = true) :
    isAsciiWhitespace b = false ∧ b ≠ COLON_BYTE ∧ b ≠ NEWLINE_BYTE := by
  refine ⟨?_, ?_, ?_⟩
  · rw [Bool.eq_false_iff]
    intro hb
    simp only [isAsciiWhitespace, Bool.or_eq_true, decide_eq_true_eq] at hb
    rcases hb with (((rfl | rfl) | rfl) | rfl) | rfl <;> exact absurd h (by decide)
  · rintro rfl
    exact absurd h (by decide)
  · rintro rfl
    exact absurd h (by decide)

theorem isName_units (h : isName s = true) : s ≠ [] ∧ ∀ u ∈ s, u.toNat < 0x80 ∧ isToken (.ofNat u.toNat) = true := by
  simp only [isName, Bool.and_eq_true, List.all_eq_true, decide_eq_true_eq, Bool.not_eq_true'] at h
  exact ⟨List.isEmpty_eq_false_iff.mp h.1, h.2⟩

theorem isName_bytes (h : isName s = true) : utf8 s ≠ [] ∧ ∀ b ∈ utf8 s, isToken b = true := by
  obtain ⟨hne, hall⟩ := isName_units h
  rw [utf8_of_ascii fun u hu => (hall u hu).1]
  refine ⟨fun hnil => hne (List.map_eq_nil_iff.mp hnil), fun b hb => ?_⟩
  obtain ⟨u, hu, rfl⟩ := List.mem_map.mp hb
  exact (hall u hu).2

theorem isName_trim (h : isName s = true) : trimAscii (utf8 s) = utf8 s := by
  have htoken := (isName_bytes h).2
  refine trim_eq_self (fun x hx => ?_) fun x hx => ?_
  · exact (isToken_visible (htoken x (List.mem_of_head? hx))).1
  · exact (isToken_visible (htoken x (List.mem_of_getLast? hx))).1

theorem isValue_units (h : isValue s = true) : (∀ u ∈ s, (0x20 ≤ u.toNat ∧ u.toNat ≠ 0x7F) ∨ u.toNat = 0x09) ∧
    (∀ u ∈ s.head?, isBlank u = false) ∧ ∀ u ∈ s.getLast?, isBlank u = false := by
  simp only [isValue, Bool.and_eq_true, List.all_eq_true, Bool.or_eq_true, decide_eq_true_eq, Bool.not_eq_true',
    bne_iff_ne, beq_iff_eq] at h
  obtain ⟨⟨hall, hhead⟩, hlast⟩ := h
  refine ⟨fun u hu => ?_, fun u hu => ?_, fun u hu => ?_⟩
  · rcases hall u hu with ⟨hlow, hne⟩ | rfl
    · exact .inl ⟨hlow, fun he => hne (UInt16.toNat_inj.mp he)⟩
    · exact .inr rfl
  · rw [hu] at hhead
    exact hhead
  · rw [hu] at hlast
    exact hlast

/-- An ASCII byte of a value is a visible character or a tab, a wide one is allowed as it is. -/
theorem isValue_bytes (h : isValue s = true) : ∀ b ∈ utf8 s, isFieldByte b = true := by
  intro b hb
  simp only [isFieldByte, Bool.or_eq_true, Bool.and_eq_true, decide_eq_true_eq, bne_iff_ne, beq_iff_eq]
  by_cases hwide : b.toNat < 0x80
  · obtain ⟨u, hu, he⟩ := ascii_mem_utf8 hwide hb
    rcases (isValue_units h).1 u hu with ⟨hlow, hne⟩ | htab
    · refine .inl ⟨UInt8.le_iff_toNat_le.mpr (by rw [← he]; exact hlow), fun hb => hne ?_⟩
      rw [he, hb]
      rfl
    · exact .inr (UInt8.toNat_inj.mp (by rw [← he, htab]; rfl))
  · refine .inl ⟨UInt8.le_iff_toNat_le.mpr (Nat.le_trans (by decide) (Nat.not_lt.mp hwide)), ?_⟩
    rintro rfl
    exact hwide (by decide)

theorem isBlank_of_whitespace {b : UInt8} {u : UInt16} (hb : isAsciiWhitespace b = true) (he : u.toNat = b.toNat)
    (hu : (0x20 ≤ u.toNat ∧ u.toNat ≠ 0x7F) ∨ u.toNat = 0x09) : isBlank u = true := by
  simp only [isAsciiWhitespace, Bool.or_eq_true, decide_eq_true_eq] at hb
  simp only [isBlank, Bool.or_eq_true, beq_iff_eq]
  rcases hb with (((rfl | rfl) | rfl) | rfl) | rfl
  · exact .inl (UInt16.toNat_inj.mp he)
  · exact .inr (UInt16.toNat_inj.mp he)
  all_goals
    rw [he] at hu
    exact absurd hu (by decide)

theorem isAsciiWhitespace_lt {b : UInt8} (h : isAsciiWhitespace b = true) : b.toNat < 0x80 := by
  simp only [isAsciiWhitespace, Bool.or_eq_true, decide_eq_true_eq] at h
  rcases h with (((rfl | rfl) | rfl) | rfl) | rfl <;> decide

theorem isValue_trim (h : isValue s = true) : trimAscii (utf8 s) = utf8 s := by
  obtain ⟨hall, hhead, hlast⟩ := isValue_units h
  refine trim_eq_self (fun b hb => ?_) fun b hb => ?_
  · rw [Bool.eq_false_iff]
    intro hws
    obtain ⟨u, hu, he⟩ := head_of_utf8 (isAsciiWhitespace_lt hws) hb
    have hblank := isBlank_of_whitespace hws he (hall u (List.mem_of_head? hu))
    rw [hhead u hu] at hblank
    cases hblank
  · rw [Bool.eq_false_iff]
    intro hws
    obtain ⟨u, hu, he⟩ := getLast_of_utf8 (isAsciiWhitespace_lt hws) hb
    have hblank := isBlank_of_whitespace hws he (hall u (List.mem_of_getLast? hu))
    rw [hlast u hu] at hblank
    cases hblank

theorem intact_of_wellFormed {p : Units × Units} (hname : isName p.1 = true) (hvalue : isValue p.2 = true) :
    Intact p := by
  refine ⟨fun hmem => ?_, fun hmem => ?_, fun hmem => ?_⟩
  · exact absurd ((isName_units hname).2 LF hmem).2 (by decide)
  · exact absurd ((isName_units hname).2 COLON hmem).2 (by decide)
  · rcases (isValue_units hvalue).1 LF hmem with ⟨hlow, -⟩ | htab
    · exact absurd hlow (by decide)
    · exact absurd htab (by decide)

end Bytes

/-- A pair as `parse_headers` is meant to give it back: the name lowercased, the value's bytes. -/
def received (p : Units × Units) : Octets × Octets := ((utf8 p.1).map asciiLower, utf8 p.2)

theorem parseLine_of_wellFormed {p : Units × Units} (hname : isName p.1 = true) (hvalue : isValue p.2 = true) :
    parseLine .std (utf8 (line p)) = some (received p) := by
  obtain ⟨hne, htoken⟩ := isName_bytes hname
  have hempty : (utf8 p.1).isEmpty = false := List.isEmpty_eq_false_iff.mpr hne
  have hheader : HttpTypes.std.headerName (utf8 p.1) = some ((utf8 p.1).map asciiLower) := by
    refine if_pos ?_
    rw [hempty, List.all_eq_true.mpr htoken]
    rfl
  have hfield : HttpTypes.std.headerValue (utf8 p.2) = some (utf8 p.2) :=
    if_pos (List.all_eq_true.mpr (isValue_bytes hvalue))
  rw [parseLine_line .std (intact_of_wellFormed hname hvalue).2.1, isName_trim hname, isValue_trim hvalue, hempty,
    hheader, hfield]
  rfl

/-- Every line of the block is read as the pair it was written for. -/
theorem parseHeaders_block {headers : Entries} (h : WellFormed headers) :
    parseHeaders .std (block headers) = (pairs headers).map received := by
  rw [parseHeaders_eq, block, utf8_intercalate (by decide)]
  by_cases hp : pairs headers = []
  · rw [hp]
    rfl
  · have hsplit := splitOn_intercalate_flatMap NEWLINE_BYTE (((pairs headers).map line).map utf8) (by simpa using hp)
    change (([NEWLINE_BYTE].intercalate (((pairs headers).map line).map utf8)).splitOn NEWLINE_BYTE).filterMap _ = _
    have hlines : (((pairs headers).map line).map utf8).flatMap (List.splitOn NEWLINE_BYTE) =
        (pairs headers).map fun p => utf8 (line p) := by
      rw [List.map_map, List.flatMap_map, List.map_eq_flatMap]
      refine List.flatMap_congr fun p hp => ?_
      exact fragments_of_intact (intact_of_wellFormed (h.pair hp).1 (h.pair hp).2)
    rw [hsplit, hlines, List.filterMap_map]
    refine (List.filterMap_congr fun p hp => ?_).trans (congrFun List.filterMap_eq_map' _)
    exact parseLine_of_wellFormed (h.pair hp).1 (h.pair hp).2

/-- The map that `parse_headers` returns has the headers of the response: each name once, with its values in order,
and no other name. -/
def RoundTrips (headers : Entries) (raw : Octets) : Prop :=
  ∃ m, HeaderMap.ofList (parseHeaders .std raw) = some m ∧ Grouped ((pairs headers).map received) m

def sentNames (headers : Entries) : Finset Octets := (((pairs headers).map received).map Prod.fst).toFinset

/-- Response headers round-trip: a block that fits an `Int` is returned, and with fewer names than a `HeaderMap` has
room for it is read back as the values of each name, in order. With more names `parse_headers` panics, and for
a longer block `encodeHeaders` throws. -/
theorem response_headers_round_trip {headers : Entries} (h : WellFormed headers) :
    (Fits headers → ∃ b, encodeHeaders headers = some b ∧
      ((sentNames headers).card < HeaderMap.capacity → RoundTrips headers b) ∧
      (HeaderMap.capacity < (sentNames headers).card → HeaderMap.ofList (parseHeaders .std b) = none)) ∧
    (¬ Fits headers → encodeHeaders headers = none) := by
  rw [encodeHeaders_eq]
  refine ⟨fun hfits => ⟨block headers, if_pos hfits, fun hroom => ?_, fun hfull => ?_⟩, fun hlong => if_neg hlong⟩
  · obtain ⟨m, hm⟩ := collect_of_room hroom
    refine ⟨m, ?_, (Grouped.of_collect hm).1⟩
    rw [parseHeaders_block h]
    exact hm
  · rw [parseHeaders_block h]
    exact collect_of_overfull hfull

theorem response_headers_round_trip_cookies : ∃ b, encodeHeaders cookies = some b ∧ RoundTrips cookies b := by
  have hcookies : WellFormed cookies := by decide
  obtain ⟨b, hb, hread, -⟩ := (response_headers_round_trip hcookies).1 (by decide)
  exact ⟨b, hb, hread (by decide)⟩

/-- The values of one name come together, whatever was spelled between them. -/
example : HeaderMap.ofList (parseHeaders .std (utf8 (units ['a', ':', '1', '\n', 'b', ':', '2', '\n', 'A', ':', '3']))) =
    some [([0x61], [[0x31], [0x33]]), ([0x62], [[0x32]])] := by
  decide

def longValue (n : Nat) : Entries := [([0x61], [List.replicate n 0x62])]

theorem longValue_wellFormed (n : Nat) : WellFormed (longValue n) := by
  intro entry hentry
  obtain rfl := List.mem_singleton.mp hentry
  refine ⟨show isName [0x61] = true by decide, fun value hvalue => ?_⟩
  obtain rfl := List.mem_singleton.mp hvalue
  cases n with
  | zero => rfl
  | succ n =>
    have hall : (List.replicate (n + 1) (0x62 : UInt16)).all (fun u => (decide (0x20 ≤ u) && u != 0x7F) || u == 0x09) =
        true := by
      rw [List.all_eq_true]
      intro u hu
      rw [List.eq_of_mem_replicate hu]
      decide
    rw [isValue, hall, List.getLast?_replicate, List.replicate_succ]
    rfl

theorem longValue_size (n : Nat) : blockSize (longValue n) = n + 4 := by
  simp [blockSize, pairs, longValue, line]
  omega

/-- The size of a header whose value is as long as a Kotlin string can be overflows. -/
theorem long_value_not_encoded : ¬ ∀ headers : Entries, WellFormed headers →
    ∃ b, encodeHeaders headers = some b ∧ RoundTrips headers b := by
  intro h
  obtain ⟨b, hb, -⟩ := h (longValue (2 ^ 31 - 1)) (longValue_wellFormed _)
  rw [encodeHeaders_eq, if_neg fun hfits => absurd hfits.1 (by rw [longValue_size]; decide)] at hb
  cases hb

/-- `encodeHeaders` gives the UTF-8 text of the lines of all pairs, joined by line ends, if it fits, and throws
otherwise. On a map in ASCII the two branches agree, and the fast path writes inside its array only. -/
theorem encodeHeaders_meets_spec (headers : Entries) :
    encodeHeaders headers =
      (if Fits headers then some (utf8 ([LF].intercalate ((pairs headers).map line))) else none) ∧
    (Fits headers → (∀ entry ∈ headers, isAscii entry.1 = true ∧ ∀ value ∈ entry.2, isAscii value = true) →
      ∃ b, encodeAscii (measure headers).1.toInt.toNat headers = some b ∧
        b.length ≤ (measure headers).1.toInt.toNat ∧ b = utf8 (buildText headers)) := by
  refine ⟨encodeHeaders_eq headers, fun hfits hascii => ?_⟩
  have hfast := encodeAscii_fitting hfits (measure_ascii_iff.mpr hascii)
  refine ⟨block headers, hfast, encodeAscii_length hfast, ?_⟩
  rw [block, buildText_eq]

/-- Two values under one name and none under another, in ASCII. -/
theorem encodeHeaders_meets_spec_cookies : Fits [([0x61], [[0x31], [0x32]]), ([0x62], [])] ∧
    encodeHeaders [([0x61], [[0x31], [0x32]]), ([0x62], [])] =
      some [0x61, 0x3A, 0x20, 0x31, 0x0A, 0x61, 0x3A, 0x20, 0x32] ∧
    ∃ b, encodeAscii 10 [([0x61], [[0x31], [0x32]]), ([0x62], [])] = some b ∧ b.length ≤ 10 ∧
      b = utf8 (buildText [([0x61], [[0x31], [0x32]]), ([0x62], [])]) := by
  have hfits : Fits [([0x61], [[0x31], [0x32]]), ([0x62], [])] := by decide
  have hspec := encodeHeaders_meets_spec [([0x61], [[0x31], [0x32]]), ([0x62], [])]
  rw [if_pos hfits] at hspec
  exact ⟨hfits, hspec.1, hspec.2 hfits (by decide)⟩

/-- No array can hold the line of a value as long as a Kotlin string can be. -/
theorem long_value_not_in_spec : ¬ ∀ headers : Entries,
    encodeHeaders headers = some (utf8 ([LF].intercalate ((pairs headers).map line))) := by
  intro h
  have hb := h (longValue (2 ^ 31 - 1))
  rw [encodeHeaders_eq, if_neg fun hfits => absurd hfits.1 (by rw [longValue_size]; decide)] at hb
  cases hb

end Hyper4k.Server
