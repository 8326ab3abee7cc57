import Hyper4k.Text.Search
import Hyper4k.Text.Spelling
import Hyper4k.Server.RequestHeaders

/-! `Hyper4kRequest.header`: a scan of the raw block as long as nobody has asked for `headers`, a look
into the parsed map afterwards. -/
namespace Hyper4k.Server
open Text

def TAB_BYTE : UInt8 := 0x09

/-- `lower` on the signed bytes of Kotlin: the bytes from 0x80 on are negative and stay. -/
def lower (b : UInt8) : UInt8 := if 0x41 ≤ b ∧ b ≤ 0x5A then b + 0x20 else b

def matchesIgnoreCase (raw target : Octets) : Bool := raw.length == target.length && raw.map lower == target.map lower

def isBlankByte (b : UInt8) : Bool := b == SPACE_BYTE || b == TAB_BYTE

/-- The two loops that move `vs` and `ve`. -/
def valueBytes (value : Octets) : Octets :=
  (value.dropWhile isBlankByte).rdropWhile fun b => isBlankByte b || b == CR_BYTE

/-- One round of the loop of `header`: the bytes of the value, if the line is the one. -/
def scanLine (target line : Octets) : Option Octets :=
  match line.findIdx? (· == COLON_BYTE) with
  | none | some 0 => none
  | some i => if matchesIgnoreCase (line.take i) target then some (valueBytes (line.drop (i + 1))) else none

/-- The part of a `Hyper4kRequest` that its header accessors use. -/
structure HeaderView where
  rawHeaderBytes : Octets
  headersOrNull : Option Entries := none

namespace HeaderView
variable (kt : KotlinText) (req : HeaderView)

/-- `headers`: the map is parsed once. -/
def headers : Entries := req.headersOrNull.getD (kt.parseHeaders req.rawHeaderBytes)

def accessed : HeaderView := { req with headersOrNull := some (req.headers kt) }

def header (name : Units) : Option Units :=
  match req.headersOrNull with
  | some parsed => (parsed.find? fun e => kt.equalsIgnoreCase e.1 name).bind fun e => e.2.head?
  | none => ((req.rawHeaderBytes.splitOn NEWLINE_BYTE).findSome? (scanLine (utf8 name))).map kt.decodeToString

end HeaderView

inductive HeaderCall
  | headers
  | header (name : Units)

def HeaderView.after (kt : KotlinText) (req : HeaderView) : HeaderCall → HeaderView
  | .headers => req.accessed kt
  | .header _ => req

/-- The request as the engine hands it over, after the calls made on it so far. -/
def HeaderView.served (kt : KotlinText) (raw : Octets) (calls : List HeaderCall) : HeaderView :=
  calls.foldl (·.after kt) { rawHeaderBytes := raw }

/-- The decoder as a UTF-8 decoder: an ASCII byte stands for itself and cuts the text, and a run of
other bytes becomes characters outside ASCII, malformed or not. -/
structure KotlinUtf8 extends KotlinText where
  decode_cut : ∀ (a c : Octets) (x : UInt8), x.toNat < 0x80 →
    decodeToString (a ++ x :: c) = decodeToString a ++ x.toUInt16 :: decodeToString c
  decode_run : ∀ b : Octets, (∀ x ∈ b, 0x80 ≤ x.toNat) →
    ∀ u ∈ decodeToString b, 0x80 ≤ u.toNat
  decode_ne_nil : ∀ b : Octets, b ≠ [] → decodeToString b ≠ []

section Fold
variable (kt : KotlinText)

/-- The form under which `equals` with `ignoreCase` compares. -/
def KotlinText.fold (s : Units) : Units := s.map fun c => kt.lowercaseChar (kt.uppercaseChar c)

theorem charEquals_eq (c d : UInt16) : kt.charEquals c d =
    decide (kt.lowercaseChar (kt.uppercaseChar c) = kt.lowercaseChar (kt.uppercaseChar d)) := by
  rw [KotlinText.charEquals, Bool.eq_iff_iff, Bool.or_eq_true, Bool.or_eq_true, beq_iff_eq, beq_iff_eq, beq_iff_eq,
    decide_eq_true_iff]
  constructor
  · rintro ((h | h) | h)
    · rw [h]
    · rw [h]
    · exact h
  · exact .inr

theorem equalsIgnoreCase_eq (s t : Units) : kt.equalsIgnoreCase s t = decide (kt.fold s = kt.fold t) := by
  induction s generalizing t with
  | nil => cases t <;> simp [KotlinText.equalsIgnoreCase, KotlinText.fold]
  | cons c s ih =>
    cases t with
    | nil => simp [KotlinText.equalsIgnoreCase, KotlinText.fold]
    | cons d t =>
      have hfold (u : UInt16) (r : Units) : kt.fold (u :: r) = kt.lowercaseChar (kt.uppercaseChar u) :: kt.fold r := rfl
      rw [equalsIgnoreCase_cons, ih, charEquals_eq, ← Bool.decide_and, hfold, hfold, decide_eq_decide, List.cons.injEq]

/-- On ASCII the form is that of `lower`. -/
theorem lower_upper_ascii {b : UInt8} (hb : b.toNat < 0x80) :
    kt.lowercaseChar (kt.uppercaseChar b.toUInt16) = (lower b).toUInt16 := by
  have hwide : b.toUInt16.toNat = b.toNat := UInt8.toNat_toUInt16 b
  have hupper := kt.upper_ascii b.toUInt16 (by omega)
  have hascii : (kt.uppercaseChar b.toUInt16).toNat < 0x80 := by
    rw [hupper]
    split <;> omega
  apply UInt16.toNat_inj.mp
  rw [kt.lower_ascii _ hascii, hupper, hwide, UInt8.toNat_toUInt16, lower]
  simp only [UInt8.le_iff_toNat_le]
  change _ = (if 0x41 ≤ b.toNat ∧ b.toNat ≤ 0x5A then b + 0x20 else b).toNat
  have hadd : (b + 0x20).toNat = (b.toNat + 0x20) % 256 := UInt8.toNat_add b 0x20
  split_ifs <;> omega

theorem fold_widen {b : Octets} (hb : ∀ x ∈ b, x.toNat < 0x80) : kt.fold (widen b) = widen (b.map lower) := by
  rw [KotlinText.fold, widen, widen, List.map_map, List.map_map]
  exact List.map_congr_left fun x hx => lower_upper_ascii kt (hb x hx)

end Fold

section Map
variable (kt : KotlinText) (name : Units)

def matchLine (line : Units) : Option Units :=
  match line.findIdx? (· == COLON) with
  | none | some 0 => none
  | some i => if kt.fold (kt.trim (line.take i)) = kt.fold name then some (kt.trim (line.drop (i + 1))) else none

theorem addLine_ne_nil {m : Entries} (hm : ∀ e ∈ m, e.2 ≠ []) (line : Units) : ∀ e ∈ kt.addLine m line, e.2 ≠ [] := by
  unfold KotlinText.addLine
  split
  · exact hm
  · split
    · exact hm
    · exact hm
    · exact addValue_ne_nil hm _ _

/-- A line changes the first value under a name only if there was none. -/
theorem firstValue_addLine {m : Entries} (hm : ∀ e ∈ m, e.2 ≠ []) (line : Units) :
    firstValue kt.fold (kt.addLine m line) name = (firstValue kt.fold m name).or (matchLine kt name line) := by
  unfold KotlinText.addLine matchLine
  cases line with
  | nil => simp
  | cons u line =>
    rw [List.isEmpty_cons, if_neg Bool.false_ne_true]
    rcases (u :: line).findIdx? (· == COLON) with _ | _ | i
    · exact (Option.or_none).symm
    · exact (Option.or_none).symm
    · simp only [equalsIgnoreCase_eq]
      exact firstValue_addValue kt.fold hm _ name _

theorem firstValue_lines (lines : List Units) {m : Entries} (hm : ∀ e ∈ m, e.2 ≠ []) :
    firstValue kt.fold (lines.foldl kt.addLine m) name =
      (firstValue kt.fold m name).or (lines.findSome? (matchLine kt name)) := by
  induction lines generalizing m with
  | nil => rw [List.foldl_nil, List.findSome?_nil, Option.or_none]
  | cons line lines ih =>
    rw [List.foldl_cons, ih (addLine_ne_nil kt hm line), firstValue_addLine kt name hm, List.findSome?_cons,
      Option.or_assoc]
    cases matchLine kt name line <;> rfl

/-- The parsed map answers with the first line that it files under the name. -/
theorem header_parsed (raw : Octets) :
    ((kt.parseHeaders raw).find? fun e => kt.equalsIgnoreCase e.1 name).bind (fun e => e.2.head?) =
      ((kt.decodeToString raw).splitOn LF).findSome? (matchLine kt name) := by
  have hfirst := firstValue_lines kt name ((kt.decodeToString raw).splitOn LF) (m := []) (fun e he => by cases he)
  simp only [equalsIgnoreCase_eq]
  change firstValue kt.fold (kt.parseHeaders raw) name = _
  unfold KotlinText.parseHeaders
  split
  case isTrue hempty =>
    obtain rfl := List.isEmpty_iff.mp hempty
    rw [kt.decode_ascii [] (fun x hx => by cases hx)]
    rfl
  case isFalse => exact hfirst

end Map

section Decoding
variable (kt : KotlinUtf8)

/-- A decoded text has only those ASCII characters that its bytes have. -/
theorem mem_decode {b : Octets} {u : UInt16} (hu : u ∈ kt.decodeToString b) (hascii : u.toNat < 0x80) :
    ∃ x ∈ b, x.toUInt16 = u := by
  induction hn : b.length using Nat.strong_induction_on generalizing b with
  | _ n ih =>
    by_cases hrun : ∀ x ∈ b, 0x80 ≤ x.toNat
    · have := kt.decode_run b hrun u hu
      omega
    · push Not at hrun
      obtain ⟨x, hx, hlt⟩ := hrun
      obtain ⟨a, c, rfl⟩ := List.append_of_mem hx
      rw [List.length_append, List.length_cons] at hn
      rw [kt.decode_cut a c x hlt] at hu
      rcases List.mem_append.mp hu with hu | hu
      · obtain ⟨y, hy, rfl⟩ := ih a.length (by omega) hu rfl
        exact ⟨y, List.mem_append_left _ hy, rfl⟩
      · rcases List.mem_cons.mp hu with rfl | hu
        · exact ⟨x, hx, rfl⟩
        · obtain ⟨y, hy, rfl⟩ := ih c.length (by omega) hu rfl
          exact ⟨y, List.mem_append_right _ (List.mem_cons_of_mem _ hy), rfl⟩

theorem not_mem_decode {b : Octets} {x : UInt8} (hx : x.toNat < 0x80) (hb : x ∉ b) :
    x.toUInt16 ∉ kt.decodeToString b := by
  intro hu
  obtain ⟨y, hy, he⟩ := mem_decode kt hu (by rw [UInt8.toNat_toUInt16]; exact hx)
  have hxy : y = x := by
    apply UInt8.toNat_inj.mp
    rw [← UInt8.toNat_toUInt16, he, UInt8.toNat_toUInt16]
  exact hb (hxy ▸ hy)

/-- The lines of the decoded block are the decoded lines of the block. -/
theorem splitOn_decode (raw : Octets) :
    (kt.decodeToString raw).splitOn LF = (raw.splitOn NEWLINE_BYTE).map kt.decodeToString := by
  induction hn : raw.length using Nat.strong_induction_on generalizing raw with
  | _ n ih =>
    by_cases hmem : NEWLINE_BYTE ∈ raw
    · obtain ⟨a, c, rfl⟩ := List.append_of_mem hmem
      rw [List.length_append, List.length_cons] at hn
      have hunits := List.splitOnP_append_cons (p := (· == LF)) (kt.decodeToString a) (kt.decodeToString c)
        (beq_self_eq_true LF)
      have hbytes := List.splitOnP_append_cons (p := (· == NEWLINE_BYTE)) a c (beq_self_eq_true NEWLINE_BYTE)
      rw [kt.decode_cut a c NEWLINE_BYTE (by decide)]
      change List.splitOnP (· == LF) (kt.decodeToString a ++ LF :: kt.decodeToString c) = _
      rw [hunits, List.splitOn, hbytes, List.map_append]
      have ha := ih a.length (by omega) a rfl
      have hc := ih c.length (by omega) c rfl
      rw [List.splitOn, List.splitOn] at ha hc
      rw [ha, hc]
    · have hnone : LF ∉ kt.decodeToString raw := not_mem_decode kt (x := NEWLINE_BYTE) (by decide) hmem
      rw [splitOn_of_not_mem hmem, splitOn_of_not_mem hnone, List.map_singleton]

theorem decode_append_ascii (a : Octets) {c : Octets} (hc : ∀ x ∈ c, x.toNat < 0x80) :
    kt.decodeToString (a ++ c) = kt.decodeToString a ++ widen c := by
  cases c with
  | nil => rw [List.append_nil, widen, List.map_nil, List.append_nil]
  | cons x c =>
    rw [kt.decode_cut a c x (hc x List.mem_cons_self), kt.decode_ascii c fun y hy => hc y (List.mem_cons_of_mem _ hy)]
    rfl

theorem decode_ascii_append {a : Octets} (ha : ∀ x ∈ a, x.toNat < 0x80) (c : Octets) :
    kt.decodeToString (a ++ c) = widen a ++ kt.decodeToString c := by
  induction a with
  | nil => rfl
  | cons x a ih =>
    have hrest := ih fun y hy => ha y (List.mem_cons_of_mem _ hy)
    have hcut := kt.decode_cut [] (a ++ c) x (ha x List.mem_cons_self)
    rw [kt.decode_ascii [] (fun y hy => by cases hy), hrest] at hcut
    exact hcut

end Decoding

def KotlinText.Bare (kt : KotlinText) (s : Units) : Prop :=
  (∀ u ∈ s.head?, kt.isWhitespace u = false) ∧ ∀ u ∈ s.getLast?, kt.isWhitespace u = false

section Values
variable (kt : KotlinUtf8)

theorem trim_decode {value : Octets} (hbare : kt.Bare (kt.decodeToString (valueBytes value))) :
    kt.trim (kt.decodeToString value) = kt.decodeToString (valueBytes value) := by
  let tail := value.dropWhile isBlankByte
  let isEnd : UInt8 → Bool := fun b => isBlankByte b || b == CR_BYTE
  have hblank : ∀ b, isEnd b = true → b.toNat < 0x80 ∧ kt.isWhitespace b.toUInt16 = true := by
    intro b hb
    have hcases : b = SPACE_BYTE ∨ b = TAB_BYTE ∨ b = CR_BYTE := by
      simpa [isEnd, isBlankByte, or_assoc] using hb
    rcases hcases with rfl | rfl | rfl
    · exact ⟨by decide, (kt.whitespace_ascii _ (by decide)).mpr (by decide)⟩
    · exact ⟨by decide, (kt.whitespace_ascii _ (by decide)).mpr (by decide)⟩
    · exact ⟨by decide, (kt.whitespace_ascii _ (by decide)).mpr (by decide)⟩
  have hlead : ∀ b ∈ value.takeWhile isBlankByte, isEnd b = true := by
    intro b hb
    have hblank : isBlankByte b = true := List.mem_takeWhile_imp hb
    simp only [isEnd, hblank, Bool.true_or]
  have htrail : ∀ b ∈ tail.rtakeWhile isEnd, isEnd b = true := fun b hb => List.mem_rtakeWhile_imp hb
  have hsplit : value = value.takeWhile isBlankByte ++ (valueBytes value ++ tail.rtakeWhile isEnd) := by
    rw [valueBytes, List.rdropWhile_append_rtakeWhile, List.takeWhile_append_dropWhile]
  have hwide {l : Octets} (hl : ∀ b ∈ l, isEnd b = true) : ∀ u ∈ widen l, kt.isWhitespace u = true := by
    intro u hu
    obtain ⟨b, hb, rfl⟩ := List.mem_map.mp hu
    exact (hblank b (hl b hb)).2
  have hdecode : kt.decodeToString value = widen (value.takeWhile isBlankByte) ++
      (kt.decodeToString (valueBytes value) ++ widen (tail.rtakeWhile isEnd)) := by
    conv_lhs => rw [hsplit]
    rw [decode_ascii_append kt (fun b hb => (hblank b (hlead b hb)).1),
      decode_append_ascii kt _ fun b hb => (hblank b (htrail b hb)).1]
  rw [hdecode]
  exact trim_around (hwide hlead) (hwide htrail) hbare.1 hbare.2

/-- A value is trimmed alike by both ways exactly if its scanned part has no whitespace at its ends. -/
theorem trim_decode_iff {value : Octets} : kt.trim (kt.decodeToString value) = kt.decodeToString (valueBytes value) ↔
    kt.Bare (kt.decodeToString (valueBytes value)) := by
  refine ⟨fun h => ?_, trim_decode kt⟩
  rw [← h]
  exact trim_ends ..

end Values

section Names
variable (kt : KotlinText)

theorem lower_toNat (b : UInt8) :
    (lower b).toNat = if 0x41 ≤ b.toNat ∧ b.toNat ≤ 0x5A then b.toNat + 0x20 else b.toNat := by
  rw [lower]
  simp only [UInt8.le_iff_toNat_le]
  change (if 0x41 ≤ b.toNat ∧ b.toNat ≤ 0x5A then b + 0x20 else b).toNat = _
  have hadd : (b + 0x20).toNat = (b.toNat + 0x20) % 256 := UInt8.toNat_add b 0x20
  split_ifs <;> omega

theorem matchesIgnoreCase_iff {p q : Octets} : matchesIgnoreCase p q = true ↔ p.map lower = q.map lower := by
  rw [matchesIgnoreCase, Bool.and_eq_true, beq_iff_eq, beq_iff_eq]
  refine ⟨And.right, fun h => ⟨?_, h⟩⟩
  simpa using congrArg List.length h

/-- Bytes that match ASCII bytes are ASCII. -/
theorem ascii_of_map_lower {p q : Octets} (h : p.map lower = q.map lower) (hq : ∀ y ∈ q, y.toNat < 0x80) :
    ∀ x ∈ p, x.toNat < 0x80 := by
  intro x hx
  have hmem : lower x ∈ q.map lower := h ▸ List.mem_map_of_mem hx
  obtain ⟨y, hy, hxy⟩ := List.mem_map.mp hmem
  have hlt := hq y hy
  have hnat := congrArg UInt8.toNat hxy
  rw [lower_toNat, lower_toNat] at hnat
  split_ifs at hnat <;> omega

/-- Letter case does not decide what is whitespace. -/
theorem isWhitespace_of_lower {x y : UInt8} (hx : x.toNat < 0x80) (hy : y.toNat < 0x80) (h : lower x = lower y)
    (hws : kt.isWhitespace y.toUInt16 = false) : kt.isWhitespace x.toUInt16 = false := by
  have hnat := congrArg UInt8.toNat h
  rw [lower_toNat, lower_toNat] at hnat
  have hx' : x.toUInt16.toNat = x.toNat := UInt8.toNat_toUInt16 x
  have hy' : y.toUInt16.toNat = y.toNat := UInt8.toNat_toUInt16 y
  rw [Bool.eq_false_iff, ne_eq, kt.whitespace_ascii _ (by omega)] at hws ⊢
  intro hin
  apply hws
  split_ifs at hnat <;> omega

/-- Nor whether a name has whitespace at its ends. -/
theorem bare_of_map_lower {p q : Octets} (h : p.map lower = q.map lower) (hq : ∀ y ∈ q, y.toNat < 0x80)
    (hbare : kt.Bare (widen q)) : kt.Bare (widen p) := by
  have hp := ascii_of_map_lower h hq
  have hend {x y : UInt8} (hx : x ∈ p) (hy : y ∈ q) (hxy : lower x = lower y)
      (hws : kt.isWhitespace y.toUInt16 = false) : kt.isWhitespace x.toUInt16 = false :=
    isWhitespace_of_lower kt (hp x hx) (hq y hy) hxy hws
  constructor
  · intro u hu
    rw [widen, List.head?_map] at hu
    obtain ⟨x, hx, rfl⟩ := Option.map_eq_some_iff.mp hu
    have hhead : (q.map lower).head? = some (lower x) := by rw [← h, List.head?_map, hx, Option.map_some]
    rw [List.head?_map] at hhead
    obtain ⟨y, hy, hxy⟩ := Option.map_eq_some_iff.mp hhead
    refine hend (List.mem_of_head? hx) (List.mem_of_head? hy) hxy.symm (hbare.1 _ ?_)
    rw [widen, List.head?_map, hy]
    rfl
  · intro u hu
    rw [widen, List.getLast?_map] at hu
    obtain ⟨x, hx, rfl⟩ := Option.map_eq_some_iff.mp hu
    have hlast : (q.map lower).getLast? = some (lower x) := by rw [← h, List.getLast?_map, hx, Option.map_some]
    rw [List.getLast?_map] at hlast
    obtain ⟨y, hy, hxy⟩ := Option.map_eq_some_iff.mp hlast
    refine hend (List.mem_of_getLast? hx) (List.mem_of_getLast? hy) hxy.symm (hbare.2 _ ?_)
    rw [widen, List.getLast?_map, hy]
    rfl

theorem fold_eq_iff {p q : Octets} (hp : ∀ x ∈ p, x.toNat < 0x80) (hq : ∀ y ∈ q, y.toNat < 0x80) :
    kt.fold (widen p) = kt.fold (widen q) ↔ p.map lower = q.map lower := by
  rw [fold_widen kt hp, fold_widen kt hq]
  constructor
  · apply List.map_injective_iff.mpr
    intro x y hxy
    apply UInt8.toNat_inj.mp
    rw [← UInt8.toNat_toUInt16, hxy, UInt8.toNat_toUInt16]
  · exact congrArg widen

/-- An ASCII text is the wide form of its own encoding. -/
theorem widen_utf8 {s : Units} (hs : ∀ u ∈ s, u.toNat < 0x80) :
    widen (utf8 s) = s ∧ ∀ b ∈ utf8 s, b.toNat < 0x80 := by
  have hnat {u : UInt16} (hu : u ∈ s) : (UInt8.ofNat u.toNat).toNat = u.toNat := by
    rw [UInt8.toNat_ofNat']
    exact Nat.mod_eq_of_lt (Nat.lt_trans (hs u hu) (by decide))
  rw [utf8_of_ascii hs]
  constructor
  · rw [widen, List.map_map]
    refine (List.map_congr_left fun u hu => ?_).trans (List.map_id s)
    apply UInt16.toNat_inj.mp
    exact (UInt8.toNat_toUInt16 _).trans (hnat hu)
  · intro b hb
    obtain ⟨u, hu, rfl⟩ := List.mem_map.mp hb
    rw [hnat hu]
    exact hs u hu

end Names

/-- A line with a colon after its first byte: what stands before the first colon, and after. -/
def fieldOf (line : Octets) : Option (Octets × Octets) :=
  match line.findIdx? (· == COLON_BYTE) with
  | none | some 0 => none
  | some i => some (line.take i, line.drop (i + 1))

def fields (raw : Octets) : List (Octets × Octets) := (raw.splitOn NEWLINE_BYTE).filterMap fieldOf

/-- The bytes of the field's name are those of the name, up to the case of ASCII letters. -/
def spelled (name : Units) (f : Octets × Octets) : Bool := matchesIgnoreCase f.1 (utf8 name)

/-- The field's name is, decoded and trimmed, the name up to letter case. -/
def filed (kt : KotlinText) (name : Units) (f : Octets × Octets) : Bool :=
  kt.equalsIgnoreCase (kt.trim (kt.decodeToString f.1)) name

/-- What a block has to be for both ways to agree on a name. No field is spelled like it or filed under it; or
the first that is the one is the first that is the other, and what the scan leaves of its value has no
whitespace at its ends; or the two are different fields with one text. -/
inductive Regular (kt : KotlinText) (raw : Octets) (name : Units) : Prop
  | absent (hspelled : (fields raw).find? (spelled name) = none) (hfiled : (fields raw).find? (filed kt name) = none)
  | same (f : Octets × Octets) (hspelled : (fields raw).find? (spelled name) = some f)
      (hfiled : (fields raw).find? (filed kt name) = some f) (value : kt.Bare (kt.decodeToString (valueBytes f.2)))
  | repeated (f g : Octets × Octets) (hspelled : (fields raw).find? (spelled name) = some f)
      (hfiled : (fields raw).find? (filed kt name) = some g) (hne : f ≠ g)
      (text : kt.trim (kt.decodeToString g.2) = kt.decodeToString (valueBytes f.2))

/-- A name in ASCII without whitespace around it, and a block in which every field that is filed under it has such
a name as well and a value that is trimmed alike. -/
structure Plain (kt : KotlinText) (raw : Octets) (name : Units) : Prop where
  ascii : ∀ u ∈ name, u.toNat < 0x80
  bare : kt.Bare name
  field : ∀ f ∈ fields raw, filed kt name f = true →
    (∀ b ∈ f.1, b.toNat < 0x80) ∧ kt.Bare (kt.decodeToString f.1)
  value : ∀ f ∈ fields raw, filed kt name f = true → kt.Bare (kt.decodeToString (valueBytes f.2))

section Agreement
variable {kt : KotlinUtf8} {raw : Octets} {name : Units}

/-- In a plain block both ways take the same fields for those of the name. -/
theorem Plain.spelled_iff (h : Plain kt.toKotlinText raw name) {f : Octets × Octets} (hf : f ∈ fields raw) :
    spelled name f = true ↔ filed kt.toKotlinText name f = true := by
  obtain ⟨hwide, htarget⟩ := widen_utf8 h.ascii
  have hfiled : filed kt.toKotlinText name f = true ↔ kt.fold (kt.trim (kt.decodeToString f.1)) = kt.fold name := by
    rw [filed, equalsIgnoreCase_eq, decide_eq_true_iff]
  rw [spelled, matchesIgnoreCase_iff]
  constructor
  · intro hsame
    have hbare : kt.Bare (widen f.1) := bare_of_map_lower _ hsame htarget (by rw [hwide]; exact h.bare)
    have hascii := ascii_of_map_lower hsame htarget
    rw [hfiled, kt.decode_ascii _ hascii, KotlinText.trim, trim_eq_self hbare.1 hbare.2, ← hwide]
    exact (fold_eq_iff _ hascii htarget).mpr hsame
  · intro hmap
    obtain ⟨hascii, hbare⟩ := h.field f hf hmap
    rw [hfiled, KotlinText.trim, trim_eq_self hbare.1 hbare.2, kt.decode_ascii _ hascii, ← hwide] at hmap
    exact (fold_eq_iff _ hascii htarget).mp hmap

theorem Plain.regular (h : Plain kt.toKotlinText raw name) : Regular kt.toKotlinText raw name := by
  have hsame : (fields raw).find? (spelled name) = (fields raw).find? (filed kt.toKotlinText name) := by
    rw [← List.head?_filter, ← List.head?_filter,
      List.filter_congr fun f hf => Bool.eq_iff_iff.mpr (h.spelled_iff hf)]
  cases hfound : (fields raw).find? (filed kt.toKotlinText name) with
  | none => exact .absent (hsame.trans hfound) hfound
  | some f =>
    exact .same f (hsame.trans hfound) hfound (h.value f (List.mem_of_find?_eq_some hfound) (List.find?_some hfound))

/-- A line with a colon, cut there. -/
theorem line_cut {line : Octets} {i : Nat} (hi : line.findIdx? (· == COLON_BYTE) = some i) :
    line = line.take i ++ COLON_BYTE :: line.drop (i + 1) ∧ COLON_BYTE ∉ line.take i := by
  obtain ⟨hlt, hcolon, hbefore⟩ := List.findIdx?_eq_some_iff_getElem.mp hi
  constructor
  · rw [← beq_iff_eq.mp hcolon, List.getElem_cons_drop, List.take_append_drop]
  · intro hmem
    obtain ⟨j, hj, hget⟩ := List.mem_iff_getElem.mp hmem
    rw [List.length_take] at hj
    rw [List.getElem_take] at hget
    exact hbefore j (by omega) (beq_iff_eq.mpr hget)

theorem scanLine_eq (target line : Octets) : scanLine target line =
    (fieldOf line).bind fun f => if matchesIgnoreCase f.1 target then some (valueBytes f.2) else none := by
  unfold scanLine fieldOf
  rcases line.findIdx? (· == COLON_BYTE) with _ | _ | i <;> rfl

/-- The map's way to look at a decoded line, on the bytes of the line. -/
theorem matchLine_decode (line : Octets) : matchLine kt.toKotlinText name (kt.decodeToString line) =
    (fieldOf line).bind fun f => if filed kt.toKotlinText name f then some (kt.trim (kt.decodeToString f.2)) else none := by
  cases hi : line.findIdx? (· == COLON_BYTE) with
  | none =>
    have hbytes : COLON_BYTE ∉ line := by
      intro hmem
      exact absurd (List.findIdx?_eq_none_iff.mp hi _ hmem) (by decide)
    have hunits : (kt.decodeToString line).findIdx? (· == COLON) = none := by
      rw [List.findIdx?_eq_none_iff]
      intro u hu
      apply beq_false_of_ne
      rintro rfl
      exact not_mem_decode kt (x := COLON_BYTE) (by decide) hbytes hu
    rw [fieldOf, hi, matchLine, hunits]
    rfl
  | some i =>
    obtain ⟨hcut, hbefore⟩ := line_cut hi
    have hcolon : COLON ∉ kt.decodeToString (line.take i) := not_mem_decode kt (x := COLON_BYTE) (by decide) hbefore
    have hdecode : kt.decodeToString line =
        kt.decodeToString (line.take i) ++ COLON :: kt.decodeToString (line.drop (i + 1)) := by
      conv_lhs => rw [hcut]
      exact kt.decode_cut _ _ COLON_BYTE (by decide)
    have hfind := findIdx_separator hcolon (kt.decodeToString (line.drop (i + 1)))
    rw [fieldOf, hi, matchLine, hdecode, hfind]
    cases i with
    | zero =>
      rw [List.take_zero, kt.decode_ascii [] fun x hx => by cases hx]
      rfl
    | succ i =>
      have hne : line.take (i + 1) ≠ [] := by
        intro hnil
        have hlt := (List.findIdx?_eq_some_iff_getElem.mp hi).1
        rw [List.take_eq_nil_iff] at hnil
        rcases hnil with hnil | hnil
        · cases hnil
        · rw [hnil] at hlt
          exact absurd hlt (Nat.not_lt_zero _)
      obtain ⟨n, hn⟩ := Nat.exists_eq_succ_of_ne_zero
        (List.length_pos_iff.mpr (kt.decode_ne_nil _ hne)).ne'
      simp only [hn]
      rw [← hn, List.take_left, List.drop_length_add_append, List.drop_one, List.tail_cons, Option.bind_some, filed,
        equalsIgnoreCase_eq]
      simp only [decide_eq_true_eq]

/-- Whatever was asked before, the cache is empty or holds the parsed map. -/
theorem served_cache (kt : KotlinText) (raw : Octets) (calls : List HeaderCall) :
    HeaderView.served kt raw calls = { rawHeaderBytes := raw } ∨
      HeaderView.served kt raw calls = { rawHeaderBytes := raw, headersOrNull := some (kt.parseHeaders raw) } := by
  induction calls using List.reverseRecOn with
  | nil => exact .inl rfl
  | append_singleton calls call ih =>
    have hlast : HeaderView.served kt raw (calls ++ [call]) = (HeaderView.served kt raw calls).after kt call := by
      rw [HeaderView.served, List.foldl_append]
      rfl
    rw [hlast]
    cases call with
    | headers =>
      right
      rcases ih with ih | ih
      · rw [ih]
        rfl
      · rw [ih]
        rfl
    | header name => exact ih

theorem header_scanned : (HeaderView.mk raw none).header kt.toKotlinText name =
    ((fields raw).find? (spelled name)).map fun f => kt.decodeToString (valueBytes f.2) := by
  change ((raw.splitOn NEWLINE_BYTE).findSome? (scanLine (utf8 name))).map kt.decodeToString = _
  rw [funext (scanLine_eq (utf8 name))]
  have hfind := findSome?_cut fieldOf (spelled name) (fun f => valueBytes f.2) (raw.splitOn NEWLINE_BYTE)
  exact (congrArg (Option.map kt.decodeToString) hfind).trans (Option.map_map ..)

theorem header_mapped : (HeaderView.mk raw (some (kt.parseHeaders raw))).header kt.toKotlinText name =
    ((fields raw).find? (filed kt.toKotlinText name)).map fun f => kt.trim (kt.decodeToString f.2) := by
  change ((kt.parseHeaders raw).find? fun e => kt.equalsIgnoreCase e.1 name).bind (fun e => e.2.head?) = _
  rw [header_parsed, splitOn_decode, List.findSome?_map]
  change (raw.splitOn NEWLINE_BYTE).findSome? (fun line => matchLine _ name (kt.decodeToString line)) = _
  rw [funext matchLine_decode]
  exact findSome?_cut ..

theorem mapped_eq_scanned_iff : (HeaderView.mk raw (some (kt.parseHeaders raw))).header kt.toKotlinText name =
    (HeaderView.mk raw none).header kt.toKotlinText name ↔ Regular kt.toKotlinText raw name := by
  rw [header_mapped, header_scanned]
  constructor
  · intro h
    cases hs : (fields raw).find? (spelled name) with
    | none =>
      rw [hs, Option.map_none, Option.map_eq_none_iff] at h
      exact .absent hs h
    | some f =>
      rw [hs, Option.map_some] at h
      obtain ⟨g, hg, htext⟩ := Option.map_eq_some_iff.mp h
      by_cases hne : f = g
      · subst hne
        exact .same f hs hg ((trim_decode_iff kt).mp htext)
      · exact .repeated f g hs hg hne htext
  · rintro (⟨hs, hf⟩ | ⟨f, hs, hf, hvalue⟩ | ⟨f, g, hs, hf, -, htext⟩)
    · rw [hs, hf]
      rfl
    · rw [hs, hf, Option.map_some, Option.map_some, (trim_decode_iff kt).mpr hvalue]
    · rw [hs, hf, Option.map_some, Option.map_some, htext]

end Agreement

/-- After any calls on the request, `header` answers as the scan of the untouched request does, exactly if the
block is regular for the name. -/
theorem header_scan_eq_map_iff (kt : KotlinUtf8) (raw : Octets) (name : Units) :
    (∀ calls : List HeaderCall, (HeaderView.served kt.toKotlinText raw calls).header kt.toKotlinText name =
      (HeaderView.mk raw none).header kt.toKotlinText name) ↔ Regular kt.toKotlinText raw name := by
  rw [← mapped_eq_scanned_iff]
  constructor
  · exact fun h => h [.headers]
  · intro h calls
    rcases served_cache kt.toKotlinText raw calls with hcache | hcache
    · rw [hcache]
    · rw [hcache]
      exact h

def KotlinUtf8.ascii : KotlinUtf8 where
  toKotlinText := KotlinText.ascii
  decode_cut a c x hx := by
    change List.map _ _ = List.map _ _ ++ _ :: List.map _ _
    rw [List.map_append, List.map_cons, if_pos hx]
  decode_run b hb u hu := by
    obtain ⟨x, hx, rfl⟩ := List.mem_map.mp hu
    rw [if_neg (Nat.not_lt.mpr (hb x hx))]
    decide
  decode_ne_nil b hb hnil := hb (List.map_eq_nil_iff.mp hnil)

def hostBlock : Octets := [0x48, 0x6F, 0x73, 0x74, 0x3A, 0x20, 0x61, 0x0D, 0x0A]

def hostName : Units := [0x68, 0x6F, 0x73, 0x74]

private theorem bare_of_all {kt : KotlinText} {s : Units} (hfirst : s.head?.all (fun u => !kt.isWhitespace u) = true)
    (hlast : s.getLast?.all (fun u => !kt.isWhitespace u) = true) : kt.Bare s := by
  refine ⟨fun u hu => ?_, fun u hu => ?_⟩
  · rw [Option.mem_def.mp hu] at hfirst
    simpa using hfirst
  · rw [Option.mem_def.mp hu] at hlast
    simpa using hlast

theorem header_scan_eq_map_host : ∀ calls : List HeaderCall,
    (HeaderView.served KotlinText.ascii hostBlock calls).header KotlinText.ascii hostName =
      (HeaderView.mk hostBlock none).header KotlinText.ascii hostName := by
  have hfields : fields hostBlock = [(hostBlock.take 4, (hostBlock.take 8).drop 5)] := by decide
  have hplain : Plain KotlinText.ascii hostBlock hostName := by
    refine ⟨by simp [hostName], bare_of_all (by decide) (by decide), fun f hf _ => ?_, fun f hf _ => ?_⟩
    all_goals
      rw [hfields] at hf
      obtain rfl := List.mem_singleton.mp hf
    · exact ⟨by simp [hostBlock], bare_of_all (by decide) (by decide)⟩
    · exact bare_of_all (by decide) (by decide)
  exact (header_scan_eq_map_iff KotlinUtf8.ascii hostBlock hostName).mpr (Plain.regular hplain)

/-- A blank before the colon: the scan does not find the header, the map does. -/
theorem header_depends_on_cache :
    let raw : Octets := [0x48, 0x6F, 0x73, 0x74, 0x20, 0x3A, 0x20, 0x61]
    (HeaderView.served KotlinText.ascii raw []).header KotlinText.ascii hostName = none ∧
      (HeaderView.served KotlinText.ascii raw [.headers]).header KotlinText.ascii hostName = some [0x61] := by
  decide

end Hyper4k.Server
