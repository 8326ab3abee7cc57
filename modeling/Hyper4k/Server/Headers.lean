import Hyper4k.Text.Grouping
import Hyper4k.Text.Utf8

/-! The response header block: `encodeHeaders` writes it in Kotlin, `parse_headers` reads
it in Rust. Lines are not escaped. -/
namespace Hyper4k.Server
open Text

def LF : UInt16 := 0x0A
def COLON : UInt16 := 0x3A
def SPACE : UInt16 := 0x20

def NEWLINE_BYTE : UInt8 := 0x0A
def COLON_BYTE : UInt8 := 0x3A
def SPACE_BYTE : UInt8 := 0x20
def CR_BYTE : UInt8 := 0x0D

/-- The entries of a `Map<String, List<String>>`, in its iteration order. -/
abbrev Entries := List (Units × List Units)

def isAscii (s : Units) : Bool := s.all fun u => decide (u.toNat < 0x80)

/-- The first pass: the size of the block and whether all of it is ASCII. -/
def measure (headers : Entries) : Int32 × Bool :=
  headers.foldl (fun acc entry =>
    entry.2.foldl (fun acc value =>
      (acc.1 + (Int32.ofNat entry.1.length + 2 + Int32.ofNat value.length + 1), acc.2 && isAscii value))
      (acc.1, acc.2 && isAscii entry.1)) (0, true)

/-- The `StringBuilder` of the fallback. -/
def buildText (headers : Entries) : Units :=
  headers.foldl (fun out entry =>
    entry.2.foldl (fun out value =>
      (if out.isEmpty then out else out ++ [LF]) ++ entry.1 ++ [COLON, SPACE] ++ value) out) []

structure Writer where
  out : Octets
  pos : Nat

/-- `out[at++] = b`, which throws outside the array. -/
def Writer.put (w : Writer) (b : UInt8) : Option Writer :=
  if w.pos < w.out.length then some ⟨w.out.set w.pos b, w.pos + 1⟩ else none

/-- `s[i].code.toByte()` for each index. -/
def Writer.putText (w : Writer) (s : Units) : Option Writer := s.foldlM (fun w u => w.put (.ofNat u.toNat)) w

/-- `if (!first) out[at++] = NEWLINE_BYTE`. -/
def Writer.newline (w : Writer) (first : Bool) : Option Writer := if first then some w else w.put NEWLINE_BYTE

def Writer.putLine (acc : Writer × Bool) (name value : Units) : Option (Writer × Bool) := do
  let w ← acc.1.newline acc.2
  let w ← w.putText name
  let w ← w.put COLON_BYTE
  let w ← w.put SPACE_BYTE
  let w ← w.putText value
  return (w, false)

def encodeAscii (size : Nat) (headers : Entries) : Option Octets := do
  let acc ← headers.foldlM (fun acc entry => entry.2.foldlM (fun acc value => Writer.putLine acc entry.1 value) acc)
    (⟨List.replicate size 0, 0⟩, true)
  return acc.1.out.take acc.1.pos

/-- What a Kotlin `String` or `ByteArray` can hold. -/
def fits (n : Nat) : Bool := decide (n < 2 ^ 31)

/-- `encodeHeaders`. `none` where the code throws: the size overflows an `Int`. -/
def encodeHeaders (headers : Entries) : Option Octets :=
  if headers.isEmpty then some []
  else
    let (size, asciiOnly) := measure headers
    if size < 0 then none
    else if asciiOnly then encodeAscii size.toInt.toNat headers
    else
      let text := buildText headers
      if fits text.length && fits (utf8 text).length then some (utf8 text) else none

def asciiLower (b : UInt8) : UInt8 := if 0x41 ≤ b ∧ b ≤ 0x5A then b + 0x20 else b

/-- `http::HeaderName::from_bytes` and `HeaderValue::from_bytes`: a name is lowercased, a
value taken as it is. -/
structure HttpTypes where
  headerName : Octets → Option Octets
  headerValue : Octets → Option Octets
  name_lower : ∀ {b n}, headerName b = some n → n = b.map asciiLower
  value_same : ∀ {b v}, headerValue b = some v → v = b

/-- Headers in the order in which they are appended to an `http::HeaderMap`. -/
abbrev HeaderList := List (Octets × Octets)

/-- `http::HeaderMap`: the names in the order in which they first came, each with its values. -/
abbrev HeaderMap := List (Octets × List Octets)

/-- Three quarters of `MAX_SIZE`, `1 << 15`: how many names a `HeaderMap` has room for. -/
def HeaderMap.capacity : Nat := 24576

/-- The map after the appends. `append` makes room before it looks for the name, and panics if there is none. -/
def HeaderMap.ofList (l : HeaderList) : Option HeaderMap := collect HeaderMap.capacity l

def isAsciiWhitespace (b : UInt8) : Bool := b = 0x20 || b = 0x09 || b = 0x0A || b = 0x0C || b = 0x0D

def trimAscii (b : Octets) : Octets := (b.dropWhile isAsciiWhitespace).rdropWhile isAsciiWhitespace

def stripCr (line : Octets) : Octets := if line.getLast? = some CR_BYTE then line.dropLast else line

/-- One round of the loop of `parse_headers`. -/
def parseLine (http : HttpTypes) (line : Octets) : Option (Octets × Octets) :=
  let line := stripCr line
  if line.isEmpty then none
  else match line.findIdx? (· == COLON_BYTE) with
    | none => none
    | some idx =>
      let name := trimAscii (line.take idx)
      let value := trimAscii (line.drop (idx + 1))
      if name.isEmpty then none
      else match http.headerName name, http.headerValue value with
        | some name, some value => some (name, value)
        | _, _ => none

/-- What `parse_headers` appends to its map. -/
def parseHeaders (http : HttpTypes) (raw : Octets) : HeaderList :=
  if raw.isEmpty then [] else (raw.splitOn NEWLINE_BYTE).filterMap (parseLine http)

def pairs (headers : Entries) : List (Units × Units) :=
  headers.flatMap fun entry => entry.2.map fun value => (entry.1, value)

def line (p : Units × Units) : Units := p.1 ++ COLON :: SPACE :: p.2

/-- The block `encodeHeaders` is meant to produce. -/
def block (headers : Entries) : Octets := utf8 ([LF].intercalate ((pairs headers).map line))

private theorem foldl_pairs {β : Type*} (f : β → Units → Units → β) (headers : Entries) (b : β) :
    headers.foldl (fun acc entry => entry.2.foldl (fun acc value => f acc entry.1 value) acc) b =
      (pairs headers).foldl (fun acc p => f acc p.1 p.2) b := by
  simp [pairs, List.foldl_flatMap, List.foldl_map]

theorem foldlM_pairs {β : Type*} (f : β → Units → Units → Option β) (headers : Entries) (b : β) :
    headers.foldlM (fun acc entry => entry.2.foldlM (fun acc value => f acc entry.1 value) acc) b =
      (pairs headers).foldlM (fun acc p => f acc p.1 p.2) b := by
  induction headers generalizing b with
  | nil => rfl
  | cons entry headers ih =>
    simp only [pairs, List.foldlM_cons, List.flatMap_cons, List.foldlM_append, List.foldlM_map, ih]

private theorem build_lines (ps : List (Units × Units)) {out : Units} (h : out ≠ []) :
    ps.foldl (fun out p => (if out.isEmpty then out else out ++ [LF]) ++ p.1 ++ [COLON, SPACE] ++ p.2) out =
      out ++ (ps.map line).flatMap (LF :: ·) := by
  induction ps generalizing out with
  | nil => simp
  | cons p ps ih =>
    rw [List.foldl_cons, ih (by simp)]
    simp [line, h]

theorem buildText_eq (headers : Entries) : buildText headers = [LF].intercalate ((pairs headers).map line) := by
  unfold buildText
  rw [foldl_pairs fun out name value => (if out.isEmpty then out else out ++ [LF]) ++ name ++ [COLON, SPACE] ++ value]
  cases pairs headers with
  | nil => rfl
  | cons p ps =>
    rw [List.foldl_cons, build_lines ps (by simp), List.map_cons, intercalate_cons]
    simp [line]

structure Writer.Wrote (w : Writer) (bs : Octets) : Prop where
  written : w.out.take w.pos = bs
  inside : w.pos ≤ w.out.length

theorem Writer.Wrote.put {w w' : Writer} {bs : Octets} {b : UInt8} (hw : w.Wrote bs) (h : w.put b = some w') :
    w'.Wrote (bs ++ [b]) := by
  unfold Writer.put at h
  split at h
  · rename_i hpos
    cases h
    constructor
    · have hlen : (w.out.take w.pos).length = w.pos := List.length_take_of_le hw.inside
      have htake : (w.out.take w.pos ++ b :: w.out.drop (w.pos + 1)).take ((w.out.take w.pos).length + 1) =
          w.out.take w.pos ++ [b] := List.take_length_add_append 1
      rw [List.set_eq_take_append_cons_drop, if_pos hpos, ← hw.written]
      rwa [hlen] at htake
    · rwa [List.length_set]
  · cases h

theorem Writer.Wrote.putText {w w' : Writer} {bs : Octets} {s : Units} (hw : w.Wrote bs)
    (h : w.putText s = some w') : w'.Wrote (bs ++ s.map fun u => .ofNat u.toNat) := by
  induction s generalizing w bs with
  | nil =>
    cases h
    simpa using hw
  | cons u s ih =>
    obtain ⟨w₁, h₁, h⟩ := Option.bind_eq_some_iff.mp h
    simpa using ih (hw.put h₁) h

def asciiBytes (s : Units) : Octets := s.map fun u => .ofNat u.toNat

def asciiLine (first : Bool) (p : Units × Units) : Octets :=
  (if first then [] else [NEWLINE_BYTE]) ++ asciiBytes p.1 ++ COLON_BYTE :: SPACE_BYTE :: asciiBytes p.2

theorem Writer.putLine_cases {acc acc' : Writer × Bool} {name value : Units}
    (h : Writer.putLine acc name value = some acc') : ∃ w₁ w₂ w₃ w₄ w₅ : Writer, acc.1.newline acc.2 = some w₁ ∧
      w₁.putText name = some w₂ ∧ w₂.put COLON_BYTE = some w₃ ∧ w₃.put SPACE_BYTE = some w₄ ∧
      w₄.putText value = some w₅ ∧ acc' = (w₅, false) := by
  unfold Writer.putLine at h
  obtain ⟨w₁, h₁, h⟩ := Option.bind_eq_some_iff.mp h
  obtain ⟨w₂, h₂, h⟩ := Option.bind_eq_some_iff.mp h
  obtain ⟨w₃, h₃, h⟩ := Option.bind_eq_some_iff.mp h
  obtain ⟨w₄, h₄, h⟩ := Option.bind_eq_some_iff.mp h
  obtain ⟨w₅, h₅, h⟩ := Option.bind_eq_some_iff.mp h
  cases h
  exact ⟨w₁, w₂, w₃, w₄, w₅, h₁, h₂, h₃, h₄, h₅, rfl⟩

theorem Writer.Wrote.putLine {w : Writer} {first : Bool} {bs : Octets} {p : Units × Units} {acc : Writer × Bool}
    (hw : w.Wrote bs) (h : Writer.putLine (w, first) p.1 p.2 = some acc) :
    acc.1.Wrote (bs ++ asciiLine first p) ∧ acc.2 = false := by
  obtain ⟨w₁, w₂, w₃, w₄, w₅, h₁, h₂, h₃, h₄, h₅, rfl⟩ := Writer.putLine_cases h
  have hnew : w₁.Wrote (bs ++ if first then [] else [NEWLINE_BYTE]) := by
    cases first with
    | true =>
      cases h₁
      simpa using hw
    | false => exact hw.put h₁
  refine ⟨?_, rfl⟩
  simpa [asciiLine, asciiBytes] using (((hnew.putText h₂).put h₃).put h₄).putText h₅

private theorem wrote_lines {ps : List (Units × Units)} {w : Writer} {bs : Octets} {acc : Writer × Bool}
    (hw : w.Wrote bs) (h : ps.foldlM (fun acc p => Writer.putLine acc p.1 p.2) (w, false) = some acc) :
    acc.1.Wrote (bs ++ ps.flatMap (asciiLine false)) := by
  induction ps generalizing w bs with
  | nil =>
    cases h
    simpa using hw
  | cons p ps ih =>
    obtain ⟨⟨w₁, first⟩, h₁, h⟩ := Option.bind_eq_some_iff.mp h
    obtain ⟨hw₁, rfl⟩ := hw.putLine h₁
    simpa using ih hw₁ h

private theorem encodeAscii_lines {size : Nat} {headers : Entries} {b : Octets}
    (h : encodeAscii size headers = some b) :
    b = match pairs headers with
      | [] => []
      | p :: ps => asciiLine true p ++ ps.flatMap (asciiLine false) := by
  unfold encodeAscii at h
  rw [foldlM_pairs Writer.putLine] at h
  obtain ⟨acc, hacc, h⟩ := Option.bind_eq_some_iff.mp h
  cases h
  have hstart : (⟨List.replicate size 0, 0⟩ : Writer).Wrote [] := ⟨rfl, Nat.zero_le _⟩
  cases hp : pairs headers with
  | nil =>
    rw [hp] at hacc
    cases hacc
    rfl
  | cons p ps =>
    rw [hp] at hacc
    obtain ⟨⟨w, first⟩, h₁, hacc⟩ := Option.bind_eq_some_iff.mp hacc
    obtain ⟨hw, rfl⟩ := hstart.putLine h₁
    exact (wrote_lines hw hacc).written

private theorem asciiLine_eq {p : Units × Units} (h : isAscii p.1 = true ∧ isAscii p.2 = true) (first : Bool) :
    asciiLine first p = (if first then [] else [NEWLINE_BYTE]) ++ utf8 (line p) := by
  simp only [isAscii, List.all_eq_true, decide_eq_true_eq] at h
  rw [line, utf8_append_ascii (by decide), utf8_cons_ascii (by decide), utf8_of_ascii h.1, utf8_of_ascii h.2]
  simp [asciiLine, asciiBytes, COLON, SPACE, COLON_BYTE, SPACE_BYTE]

private theorem measure_values (name : Units) (values : List Units) (acc : Int32 × Bool) :
    (values.foldl (fun acc value =>
      (acc.1 + (Int32.ofNat name.length + 2 + Int32.ofNat value.length + 1), acc.2 && isAscii value)) acc).2 =
      (acc.2 && values.all isAscii) := by
  induction values generalizing acc with
  | nil => simp
  | cons value values ih => rw [List.foldl_cons, ih, List.all_cons, Bool.and_assoc]

private theorem measure_entries (headers : Entries) : (measure headers).2 =
    headers.all fun entry => isAscii entry.1 && entry.2.all isAscii := by
  have general : ∀ acc : Int32 × Bool, (headers.foldl (fun acc entry =>
      entry.2.foldl (fun acc value =>
        (acc.1 + (Int32.ofNat entry.1.length + 2 + Int32.ofNat value.length + 1), acc.2 && isAscii value))
        (acc.1, acc.2 && isAscii entry.1)) acc).2 =
      (acc.2 && headers.all fun entry => isAscii entry.1 && entry.2.all isAscii) := by
    induction headers with
    | nil => simp
    | cons entry headers ih =>
      intro acc
      rw [List.foldl_cons, ih, measure_values, List.all_cons, Bool.and_assoc, Bool.and_assoc, Bool.and_assoc]
  rw [measure, general, Bool.true_and]

theorem measure_ascii_iff {headers : Entries} : (measure headers).2 = true ↔
    ∀ entry ∈ headers, isAscii entry.1 = true ∧ ∀ value ∈ entry.2, isAscii value = true := by
  simp only [measure_entries, List.all_eq_true, Bool.and_eq_true]

theorem measure_ascii {headers : Entries} (h : (measure headers).2 = true) :
    ∀ p ∈ pairs headers, isAscii p.1 = true ∧ isAscii p.2 = true := by
  rw [measure_ascii_iff] at h
  intro p hp
  obtain ⟨entry, hentry, hp⟩ := List.mem_flatMap.mp hp
  obtain ⟨value, hvalue, rfl⟩ := List.mem_map.mp hp
  exact ⟨(h entry hentry).1, (h entry hentry).2 value hvalue⟩

/-- Both branches of `encodeHeaders` produce the block, where they produce anything. -/
theorem encodeHeaders_block {headers : Entries} {b : Octets} (h : encodeHeaders headers = some b) :
    b = block headers := by
  unfold encodeHeaders at h
  split at h
  · rename_i he
    cases h
    rw [List.isEmpty_iff.mp he]
    rfl
  · simp only at h
    split at h
    · cases h
    · split at h
      · rename_i hascii
        have hpairs := measure_ascii hascii
        rw [encodeAscii_lines h, block, utf8_intercalate (by decide)]
        cases hp : pairs headers with
        | nil => rfl
        | cons p ps =>
          rw [hp] at hpairs
          have hrest : ps.flatMap (asciiLine false) = ((ps.map line).map utf8).flatMap (NEWLINE_BYTE :: ·) := by
            rw [List.map_map, List.flatMap_map]
            exact List.flatMap_congr fun q hq => asciiLine_eq (hpairs q (List.mem_cons_of_mem p hq)) false
          change asciiLine true p ++ ps.flatMap (asciiLine false) = _
          rw [List.map_cons, List.map_cons, intercalate_cons, asciiLine_eq (hpairs p List.mem_cons_self) true, hrest]
          rfl
      · split at h
        · cases h
          rw [buildText_eq]
          rfl
        · cases h

/-- An empty line is skipped, so the early return on an empty block changes nothing. -/
theorem parseHeaders_eq (http : HttpTypes) (raw : Octets) :
    parseHeaders http raw = (raw.splitOn NEWLINE_BYTE).filterMap (parseLine http) := by
  unfold parseHeaders
  split
  · rename_i hraw
    rw [List.isEmpty_iff.mp hraw]
    rfl
  · rfl

def fragments (p : Units × Units) : List Octets := (utf8 (line p)).splitOn NEWLINE_BYTE

theorem mem_parseHeaders_block {http : HttpTypes} {headers : Entries} {e : Octets × Octets} :
    e ∈ parseHeaders http (block headers) ↔ ∃ p ∈ pairs headers, ∃ f ∈ fragments p, parseLine http f = some e := by
  rw [parseHeaders_eq, block, utf8_intercalate (by decide), List.mem_filterMap]
  by_cases hp : pairs headers = []
  · rw [hp]
    constructor
    · rintro ⟨f, hf, he⟩
      cases List.mem_singleton.mp hf
      cases he
    · rintro ⟨p, hp, -⟩
      cases hp
  · have hsplit := splitOn_intercalate_flatMap NEWLINE_BYTE (((pairs headers).map line).map utf8) (by simpa using hp)
    change (∃ f ∈ ([NEWLINE_BYTE].intercalate (((pairs headers).map line).map utf8)).splitOn NEWLINE_BYTE, _) ↔ _
    rw [hsplit, List.map_map, List.flatMap_map]
    constructor
    · rintro ⟨f, hf, he⟩
      obtain ⟨p, hp, hf⟩ := List.mem_flatMap.mp hf
      exact ⟨p, hp, f, hf, he⟩
    · rintro ⟨p, hp, f, hf, he⟩
      exact ⟨f, List.mem_flatMap.mpr ⟨p, hp, hf⟩, he⟩

def header (p : Units × Units) : Octets × Octets := ((trimAscii (utf8 p.1)).map asciiLower, trimAscii (utf8 p.2))

/-- Neither text breaks the line format. -/
def Intact (p : Units × Units) : Prop := LF ∉ p.1 ∧ COLON ∉ p.1 ∧ LF ∉ p.2

instance (p : Units × Units) : Decidable (Intact p) := inferInstanceAs (Decidable (LF ∉ p.1 ∧ COLON ∉ p.1 ∧ LF ∉ p.2))

private theorem utf8_line (p : Units × Units) : utf8 (line p) = utf8 p.1 ++ COLON_BYTE :: SPACE_BYTE :: utf8 p.2 := by
  rw [line, utf8_append_ascii (by decide), utf8_cons_ascii (by decide)]
  rfl

theorem fragments_of_intact {p : Units × Units} (h : Intact p) : fragments p = [utf8 (line p)] := by
  refine List.splitOn_eq_singleton ?_
  have hname : NEWLINE_BYTE ∉ utf8 p.1 := ascii_not_mem (u := LF) (by decide) h.1
  have hvalue : NEWLINE_BYTE ∉ utf8 p.2 := ascii_not_mem (u := LF) (by decide) h.2.2
  rw [utf8_line, List.mem_append, List.mem_cons, List.mem_cons]
  rintro (hmem | hmem | hmem | hmem)
  · exact hname hmem
  · exact absurd hmem (by decide)
  · exact absurd hmem (by decide)
  · exact hvalue hmem

theorem trimAscii_concat (l : Octets) {b : UInt8} (hb : isAsciiWhitespace b = true) :
    trimAscii (l ++ [b]) = trimAscii l := by
  unfold trimAscii
  rw [List.dropWhile_append]
  split
  · rename_i he
    rw [List.isEmpty_iff.mp he]
    simp [hb]
  · exact List.rdropWhile_concat_pos _ _ _ hb

private theorem trimAscii_stripCr (l : Octets) : trimAscii (stripCr l) = trimAscii l := by
  unfold stripCr
  split
  · rename_i hl
    obtain ⟨ys, rfl⟩ := List.getLast?_eq_some_iff.mp hl
    rw [List.dropLast_concat, trimAscii_concat _ (by decide)]
  · rfl

theorem stripCr_colon (name rest : Octets) :
    stripCr (name ++ COLON_BYTE :: rest) = name ++ COLON_BYTE :: stripCr rest := by
  cases rest with
  | nil =>
    rw [stripCr, List.getLast?_append_cons, if_neg (by decide)]
    rfl
  | cons c l =>
    unfold stripCr
    rw [List.getLast?_append_cons, List.getLast?_cons_cons]
    split
    · rw [List.dropLast_append_cons, List.dropLast_cons_cons]
    · rfl

theorem mem_of_mem_stripCr {line : Octets} {b : UInt8} (h : b ∈ stripCr line) : b ∈ line := by
  unfold stripCr at h
  split at h
  · exact List.mem_of_mem_dropLast h
  · exact h

theorem parseLine_no_colon (http : HttpTypes) {line : Octets} (h : COLON_BYTE ∉ line) : parseLine http line = none := by
  have hnone : (stripCr line).findIdx? (· == COLON_BYTE) = none := by
    rw [List.findIdx?_eq_none_iff]
    intro b hb
    exact beq_false_of_ne fun he => h (he ▸ mem_of_mem_stripCr hb)
  simp only [parseLine, hnone, ite_self]

/-- What `parse_headers` makes of a line with a colon: the first one ends the name. -/
theorem parseLine_colon (http : HttpTypes) {name : Octets} (h : COLON_BYTE ∉ name) (rest : Octets) :
    parseLine http (name ++ COLON_BYTE :: rest) =
      if (trimAscii name).isEmpty then none
      else match http.headerName (trimAscii name), http.headerValue (trimAscii rest) with
        | some name, some value => some (name, value)
        | _, _ => none := by
  have htake : (name ++ COLON_BYTE :: stripCr rest).take name.length = name := List.take_left
  have hdrop : (name ++ COLON_BYTE :: stripCr rest).drop (name.length + 1) = stripCr rest := by
    rw [List.drop_length_add_append, List.drop_one, List.tail_cons]
  have hne : (name ++ COLON_BYTE :: stripCr rest).isEmpty = false := by
    rw [List.isEmpty_eq_false_iff]
    exact List.append_ne_nil_of_right_ne_nil _ (List.cons_ne_nil _ _)
  rw [parseLine, stripCr_colon]
  simp only [hne, Bool.false_eq_true, if_false, findIdx_separator h, htake, hdrop, trimAscii_stripCr]

theorem parseLine_line (http : HttpTypes) {p : Units × Units} (h : COLON ∉ p.1) : parseLine http (utf8 (line p)) =
    if (trimAscii (utf8 p.1)).isEmpty then none
    else match http.headerName (trimAscii (utf8 p.1)), http.headerValue (trimAscii (utf8 p.2)) with
      | some name, some value => some (name, value)
      | _, _ => none := by
  rw [utf8_line, parseLine_colon http (ascii_not_mem (u := COLON) (by decide) h)]
  rfl

def FromMap (headers : Entries) (e : Octets × Octets) : Prop :=
  ∃ entry ∈ headers, ∃ value ∈ entry.2,
    e.1 = (trimAscii (utf8 entry.1)).map asciiLower ∧ e.2 = trimAscii (utf8 value)

theorem fromMap_of_pair {headers : Entries} {p : Units × Units} (h : p ∈ pairs headers) :
    FromMap headers (header p) := by
  obtain ⟨entry, hentry, hp⟩ := List.mem_flatMap.mp h
  obtain ⟨value, hvalue, rfl⟩ := List.mem_map.mp hp
  exact ⟨entry, hentry, value, hvalue, rfl, rfl⟩

theorem fromMap_iff {headers : Entries} {e : Octets × Octets} :
    FromMap headers e ↔ ∃ p ∈ pairs headers, header p = e := by
  constructor
  · rintro ⟨entry, hentry, value, hvalue, hname, htext⟩
    refine ⟨(entry.1, value), List.mem_flatMap.mpr ⟨entry, hentry, List.mem_map_of_mem hvalue⟩, ?_⟩
    exact Prod.ext hname.symm htext.symm
  · rintro ⟨p, hp, rfl⟩
    exact fromMap_of_pair hp

/-- The lines of a text before its last, and the last; its first, and those after it. -/
def earlyLines (s : Units) : List Units := (s.splitOn LF).dropLast
def lastLine (s : Units) : Units := (s.splitOn LF).getLast?.getD []
def firstLine (s : Units) : Units := (s.splitOn LF).head?.getD []
def lateLines (s : Units) : List Units := (s.splitOn LF).tail

/-- A header that the text of a pair spells beside the pair's own: on a line of the name before its last or of the
value after its first, with a colon of the name as the separator, or with the name or the value cut short. -/
inductive Escapes (p : Units × Units) : Units × Units → Prop
  | stray {name value : Units} (hline : name ++ COLON :: value ∈ earlyLines p.1 ++ lateLines p.2) (hname : COLON ∉ name) :
      Escapes p (name, value)
  | colon {name rest : Units} (hline : lastLine p.1 = name ++ COLON :: rest) (hname : COLON ∉ name) :
      Escapes p (name, rest ++ COLON :: SPACE :: firstLine p.2)
  | cut (hname : COLON ∉ lastLine p.1) (hcut : header (lastLine p.1, firstLine p.2) ≠ header p) :
      Escapes p (lastLine p.1, firstLine p.2)

/-- The name is not blank, and `http` takes it and the value, both trimmed. -/
structure Accepted (http : HttpTypes) (q : Units × Units) : Prop where
  nonempty : trimAscii (utf8 q.1) ≠ []
  name : (http.headerName (trimAscii (utf8 q.1))).isSome = true
  value : (http.headerValue (trimAscii (utf8 q.2))).isSome = true

theorem parseLine_eq_some_iff {http : HttpTypes} {name value : Units} (h : COLON ∉ name) {e : Octets × Octets} :
    parseLine http (utf8 (name ++ COLON :: value)) = some e ↔ Accepted http (name, value) ∧ e = header (name, value) := by
  rw [utf8_append_ascii (by decide), show UInt8.ofNat COLON.toNat = COLON_BYTE from rfl,
    parseLine_colon http (ascii_not_mem (u := COLON) (by decide) h)]
  constructor
  · intro he
    split at he
    · cases he
    · rename_i hne
      split at he
      · rename_i n v hn hv
        cases he
        refine ⟨⟨fun hnil => hne (List.isEmpty_iff.mpr hnil), by rw [hn]; rfl, by rw [hv]; rfl⟩, ?_⟩
        rw [http.name_lower hn, http.value_same hv]
        rfl
      · cases he
  · rintro ⟨⟨hne, hname, hvalue⟩, rfl⟩
    obtain ⟨n, hn⟩ := Option.isSome_iff_exists.mp hname
    obtain ⟨v, hv⟩ := Option.isSome_iff_exists.mp hvalue
    rw [if_neg fun hnil => hne (List.isEmpty_iff.mp hnil), hn, hv, http.name_lower hn, http.value_same hv]
    rfl

/-- The lines that the text of a pair breaks into. -/
theorem line_splitOn (p : Units × Units) : (line p).splitOn LF =
    earlyLines p.1 ++ (lastLine p.1 ++ COLON :: SPACE :: firstLine p.2) :: lateLines p.2 := by
  have hname : p.1.splitOn LF = earlyLines p.1 ++ [lastLine p.1] := by
    rcases List.eq_nil_or_concat (p.1.splitOn LF) with hs | ⟨early, last, hs⟩
    · exact absurd hs (List.splitOnP_ne_nil _ _)
    · rw [List.concat_eq_append] at hs
      rw [earlyLines, lastLine, hs, List.dropLast_concat, List.getLast?_concat]
      rfl
  have hvalue : p.2.splitOn LF = firstLine p.2 :: lateLines p.2 := by
    cases hs : p.2.splitOn LF with
    | nil => exact absurd hs (List.splitOnP_ne_nil _ _)
    | cons first late => rw [firstLine, lateLines, hs]; rfl
  have hmiddle : (COLON :: SPACE :: p.2).splitOn LF = (COLON :: SPACE :: firstLine p.2) :: lateLines p.2 :=
    splitOn_append (l := [COLON, SPACE]) (v := []) (x := [COLON, SPACE]) (by decide) hvalue
  exact splitOn_append hname hmiddle

/-- The blank after the separator is not seen. -/
theorem trimAscii_space (value : Units) : trimAscii (utf8 (SPACE :: value)) = trimAscii (utf8 value) := by
  rw [utf8_cons_ascii (by decide)]
  rfl

theorem header_space (name value : Units) : header (name, SPACE :: value) = header (name, value) := by
  rw [header, header, trimAscii_space]

theorem accepted_space {http : HttpTypes} {name value : Units} :
    Accepted http (name, SPACE :: value) ↔ Accepted http (name, value) := by
  constructor
  · intro h
    exact ⟨h.nonempty, h.name, trimAscii_space value ▸ h.value⟩
  · intro h
    exact ⟨h.nonempty, h.name, (trimAscii_space value).symm ▸ h.value⟩

theorem parse_text {http : HttpTypes} {l : Units} {e : Octets × Octets} (he : parseLine http (utf8 l) = some e) :
    ∃ name value, l = name ++ COLON :: value ∧ COLON ∉ name ∧ Accepted http (name, value) ∧ e = header (name, value) := by
  by_cases hcolon : COLON ∈ l
  · obtain ⟨name, value, rfl, hname⟩ := List.eq_append_cons_of_mem hcolon
    exact ⟨name, value, rfl, hname, (parseLine_eq_some_iff hname).mp he⟩
  · rw [parseLine_no_colon http (ascii_not_mem (u := COLON) (by decide) hcolon)] at he
    cases he

theorem mem_fragments {p : Units × Units} {l : Units} : l ∈ (line p).splitOn LF ↔
    l ∈ earlyLines p.1 ++ lateLines p.2 ∨ l = lastLine p.1 ++ COLON :: SPACE :: firstLine p.2 := by
  rw [line_splitOn, List.mem_append, List.mem_cons, List.mem_append]
  tauto

/-- A line of a pair's text is the pair's own, or spells a header that escapes. -/
theorem arrives_from {http : HttpTypes} {p : Units × Units} {f : Octets} {e : Octets × Octets} (hf : f ∈ fragments p)
    (he : parseLine http f = some e) : e = header p ∨ ∃ q, Escapes p q ∧ Accepted http q ∧ e = header q := by
  rw [fragments, show NEWLINE_BYTE = UInt8.ofNat LF.toNat from rfl, utf8_splitOn (by decide)] at hf
  obtain ⟨l, hl, rfl⟩ := List.mem_map.mp hf
  rcases mem_fragments.mp hl with hstray | rfl
  · obtain ⟨name, value, rfl, hname, haccepted, rfl⟩ := parse_text he
    exact .inr ⟨_, .stray hstray hname, haccepted, rfl⟩
  · by_cases hcolon : COLON ∈ lastLine p.1
    · obtain ⟨name, rest, hcut, hname⟩ := List.eq_append_cons_of_mem hcolon
      rw [hcut, List.append_assoc, List.cons_append] at he
      obtain ⟨haccepted, rfl⟩ := (parseLine_eq_some_iff hname).mp he
      exact .inr ⟨_, .colon hcut hname, haccepted, rfl⟩
    · obtain ⟨haccepted, rfl⟩ := (parseLine_eq_some_iff hcolon).mp he
      rw [header_space]
      by_cases hcut : header (lastLine p.1, firstLine p.2) = header p
      · exact .inl hcut
      · exact .inr ⟨_, .cut hcolon hcut, accepted_space.mp haccepted, rfl⟩

theorem Escapes.arrives {http : HttpTypes} {p q : Units × Units} (h : Escapes p q) (haccepted : Accepted http q) :
    ∃ f ∈ fragments p, parseLine http f = some (header q) := by
  have hfragments : ∀ l ∈ (line p).splitOn LF, utf8 l ∈ fragments p := by
    intro l hl
    rw [fragments, show NEWLINE_BYTE = UInt8.ofNat LF.toNat from rfl, utf8_splitOn (by decide)]
    exact List.mem_map_of_mem hl
  cases h with
  | stray hline hname =>
    exact ⟨_, hfragments _ (mem_fragments.mpr (.inl hline)), (parseLine_eq_some_iff hname).mpr ⟨haccepted, rfl⟩⟩
  | colon hline hname =>
    refine ⟨_, hfragments _ (mem_fragments.mpr (.inr rfl)), ?_⟩
    rw [hline, List.append_assoc, List.cons_append]
    exact (parseLine_eq_some_iff hname).mpr ⟨haccepted, rfl⟩
  | cut hname =>
    refine ⟨_, hfragments _ (mem_fragments.mpr (.inr rfl)), ?_⟩
    exact (parseLine_eq_some_iff hname).mpr ⟨accepted_space.mpr haccepted, (header_space ..).symm⟩

/-- Nothing escapes from a pair that has no line break, and no colon in its name. -/
theorem Intact.not_escapes {p q : Units × Units} (h : Intact p) : ¬ Escapes p q := by
  have hname : p.1.splitOn LF = [p.1] := splitOn_of_not_mem h.1
  have hvalue : p.2.splitOn LF = [p.2] := splitOn_of_not_mem h.2.2
  have hlast : lastLine p.1 = p.1 := by rw [lastLine, hname]; rfl
  intro he
  cases he with
  | stray hline =>
    rw [earlyLines, lateLines, hname, hvalue] at hline
    exact absurd hline List.not_mem_nil
  | colon hline =>
    rw [hlast] at hline
    exact h.2.1 (hline ▸ List.mem_append_right _ List.mem_cons_self)
  | cut _ hcut =>
    refine hcut ?_
    rw [hlast, show firstLine p.2 = p.2 by rw [firstLine, hvalue]; rfl]

/-- Every header that arrives comes from the map exactly if each header that escapes from a pair of the map is
refused, by its name or its value, or is at the same time the header of a pair of the map. -/
theorem headers_from_map_iff {http : HttpTypes} {headers : Entries} {b : Octets} (h : encodeHeaders headers = some b) :
    (∀ e ∈ parseHeaders http b, FromMap headers e) ↔
      ∀ p ∈ pairs headers, ∀ q, Escapes p q → Accepted http q → ∃ r ∈ pairs headers, header r = header q := by
  rw [encodeHeaders_block h]
  constructor
  · intro hall p hp q hq haccepted
    obtain ⟨f, hf, he⟩ := hq.arrives haccepted
    exact fromMap_iff.mp (hall _ (mem_parseHeaders_block.mpr ⟨p, hp, f, hf, he⟩))
  · intro hall e he
    obtain ⟨p, hp, f, hf, he⟩ := mem_parseHeaders_block.mp he
    rcases arrives_from hf he with rfl | ⟨q, hq, haccepted, rfl⟩
    · exact fromMap_of_pair hp
    · exact fromMap_iff.mpr (hall p hp q hq haccepted)

/-- The characters of a header name: letters, digits and `!#$%&'*+-.^_|~` with the backtick. -/
def isToken (b : UInt8) : Bool :=
  (decide (0x30 ≤ b) && decide (b ≤ 0x39)) || (decide (0x41 ≤ b) && decide (b ≤ 0x5A)) ||
    (decide (0x5E ≤ b) && decide (b ≤ 0x7A)) ||
    [0x21, 0x23, 0x24, 0x25, 0x26, 0x27, 0x2A, 0x2B, 0x2D, 0x2E, 0x7C, 0x7E].contains b

def isFieldByte (b : UInt8) : Bool := (decide (0x20 ≤ b) && b != 0x7F) || b == 0x09

def HttpTypes.std : HttpTypes where
  headerName b := if !b.isEmpty && b.all isToken then some (b.map asciiLower) else none
  headerValue b := if b.all isFieldByte then some b else none
  name_lower h := by
    split at h <;> cases h
    rfl
  value_same h := by
    split at h <;> cases h
    rfl

def units (cs : List Char) : Units := cs.map fun c => .ofNat c.toNat

def cookies : Entries :=
  [(units ['S', 'e', 't', '-', 'C', 'o', 'o', 'k', 'i', 'e'], [units ['a', '=', '1'], units ['b', '=', '2']])]

theorem headers_from_map_iff_cookies : ∃ b, encodeHeaders cookies = some b ∧
    ∀ e ∈ parseHeaders .std b, FromMap cookies e := by
  obtain ⟨b, hb⟩ : ∃ b, encodeHeaders cookies = some b := ⟨_, rfl⟩
  have hintact : ∀ p ∈ pairs cookies, Intact p := by decide
  exact ⟨b, hb, (headers_from_map_iff hb).mpr fun p hp q hq => absurd hq (hintact p hp).not_escapes⟩

/-- A line break in a value adds a header. -/
theorem value_injects_header : ¬ ∀ (http : HttpTypes) (headers : Entries) (b : Octets), encodeHeaders headers = some b →
    ∀ e ∈ parseHeaders http b, FromMap headers e := by
  intro h
  have hb : encodeHeaders [(units ['x'], [units ['a', '\n', 'y', ':', 'b']])] =
      some [0x78, 0x3A, 0x20, 0x61, 0x0A, 0x79, 0x3A, 0x62] := by decide
  have he : (([0x79], [0x62]) : Octets × Octets) ∈
      parseHeaders .std [0x78, 0x3A, 0x20, 0x61, 0x0A, 0x79, 0x3A, 0x62] := by
    decide
  obtain ⟨entry, hentry, -, -, hname, -⟩ := h .std _ _ hb _ he
  cases List.mem_singleton.mp hentry
  exact absurd hname (by decide)

end Hyper4k.Server
