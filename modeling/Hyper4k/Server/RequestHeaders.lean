import Hyper4k.Text.Grouping
import Hyper4k.Server.RoundTrip

/-! Request headers: `handle` writes them into a text block in Rust, `Hyper4kRequest` reads the block
in Kotlin. -/
namespace Hyper4k.Server
open Text

/-- A header as hyper hands it over: the name is a lowercase token, the value has no control characters
but tabs and no whitespace at its ends. -/
structure RequestHeader where
  name : Octets
  value : Octets
  name_ne_nil : name ≠ []
  name_token : ∀ b ∈ name, isToken b = true ∧ asciiLower b = b
  value_field : ∀ b ∈ value, isFieldByte b = true
  value_head : ∀ b ∈ value.head?, isAsciiWhitespace b = false
  value_last : ∀ b ∈ value.getLast?, isAsciiWhitespace b = false

def RequestHeader.pair (h : RequestHeader) : Octets × Octets := (h.name, h.value)

/-- What `HeaderValue::to_str` takes for text. -/
def isVisibleAscii (b : UInt8) : Bool := (decide (0x20 ≤ b) && decide (b < 0x7F)) || b == 0x09

def toStr (value : Octets) : Option Octets := if value.all isVisibleAscii then some value else none

/-- `value.to_str().unwrap_or("")`. -/
def sentValue (value : Octets) : Octets := (toStr value).getD []

/-- The loop of `handle` over the headers of a request. -/
def headerBuf (headers : List RequestHeader) : Octets :=
  headers.foldl (fun buf h => buf ++ h.name ++ [COLON_BYTE, SPACE_BYTE] ++ sentValue h.value ++ [NEWLINE_BYTE]) []

/-- The text functions of Kotlin that `parseHeaders` calls, known on ASCII only. -/
structure KotlinText where
  decodeToString : Octets → Units
  isWhitespace : UInt16 → Bool
  uppercaseChar : UInt16 → UInt16
  lowercaseChar : UInt16 → UInt16
  decode_ascii : ∀ b : Octets, (∀ x ∈ b, x.toNat < 0x80) → decodeToString b = widen b
  whitespace_ascii : ∀ u : UInt16, u.toNat < 0x80 →
    (isWhitespace u = true ↔ 0x09 ≤ u.toNat ∧ u.toNat ≤ 0x0D ∨ 0x1C ≤ u.toNat ∧ u.toNat ≤ 0x20)
  upper_ascii : ∀ u : UInt16, u.toNat < 0x80 →
    (uppercaseChar u).toNat = if 0x61 ≤ u.toNat ∧ u.toNat ≤ 0x7A then u.toNat - 0x20 else u.toNat
  lower_ascii : ∀ u : UInt16, u.toNat < 0x80 →
    (lowercaseChar u).toNat = if 0x41 ≤ u.toNat ∧ u.toNat ≤ 0x5A then u.toNat + 0x20 else u.toNat

namespace KotlinText
variable (kt : KotlinText)

def trim (s : Units) : Units := (s.dropWhile kt.isWhitespace).rdropWhile kt.isWhitespace

/-- `Char.equals` with `ignoreCase`. -/
def charEquals (c d : UInt16) : Bool :=
  c == d || kt.uppercaseChar c == kt.uppercaseChar d ||
    kt.lowercaseChar (kt.uppercaseChar c) == kt.lowercaseChar (kt.uppercaseChar d)

def equalsIgnoreCase (s t : Units) : Bool := s.length == t.length && (s.zip t).all fun p => kt.charEquals p.1 p.2

/-- One round of the loop of `parseHeaders`: a name goes under the spelling that was met first. -/
def addLine (m : Entries) (line : Units) : Entries :=
  if line.isEmpty then m
  else match line.findIdx? (· == COLON) with
    | none | some 0 => m
    | some i =>
      let name := kt.trim (line.take i)
      let key := ((m.map Prod.fst).find? fun k => kt.equalsIgnoreCase k name).getD name
      addValue m key (kt.trim (line.drop (i + 1)))

def parseHeaders (rawHeaderBytes : Octets) : Entries :=
  if rawHeaderBytes.isEmpty then [] else ((kt.decodeToString rawHeaderBytes).splitOn LF).foldl kt.addLine []

end KotlinText

/-- The map has each name once, with exactly its values in order, and no other name. -/
def Unchanged (headers : List RequestHeader) (m : Entries) : Prop :=
  Grouped (headers.map RequestHeader.pair) (m.map fun e => (utf8 e.1, e.2.map utf8))

section Bytes

theorem isToken_bounds {b : UInt8} (h : isToken b = true) : 0x21 ≤ b.toNat ∧ b.toNat < 0x7F := by
  simp only [isToken, Bool.or_eq_true, Bool.and_eq_true, decide_eq_true_eq, UInt8.le_iff_toNat_le,
    List.contains_iff_mem, List.mem_cons, List.not_mem_nil, or_false] at h
  rcases h with ((⟨hl, hu⟩ | ⟨hl, hu⟩) | ⟨hl, hu⟩) | hb
  · exact ⟨Nat.le_trans (by decide) hl, Nat.lt_of_le_of_lt hu (by decide)⟩
  · exact ⟨Nat.le_trans (by decide) hl, Nat.lt_of_le_of_lt hu (by decide)⟩
  · exact ⟨Nat.le_trans (by decide) hl, Nat.lt_of_le_of_lt hu (by decide)⟩
  · rcases hb with rfl | rfl | rfl | rfl | rfl | rfl | rfl | rfl | rfl | rfl | rfl | rfl <;> decide

theorem isVisibleAscii_iff {b : UInt8} :
    isVisibleAscii b = true ↔ (0x20 ≤ b.toNat ∧ b.toNat < 0x7F) ∨ b.toNat = 0x09 := by
  simp only [isVisibleAscii, Bool.or_eq_true, Bool.and_eq_true, decide_eq_true_eq, beq_iff_eq, UInt8.le_iff_toNat_le,
    UInt8.lt_iff_toNat_lt, ← UInt8.toNat_inj]
  rfl

/-- Only blanks and tabs are whitespace among the characters of a sent value. -/
theorem not_whitespace (kt : KotlinText) {b : UInt8} (hb : isVisibleAscii b = true)
    (hws : isAsciiWhitespace b = false) : kt.isWhitespace b.toUInt16 = false := by
  have hrange := isVisibleAscii_iff.mp hb
  have hascii : b.toUInt16.toNat < 0x80 := by
    rw [UInt8.toNat_toUInt16]
    omega
  rw [Bool.eq_false_iff, ne_eq, kt.whitespace_ascii _ hascii, UInt8.toNat_toUInt16]
  intro hkt
  have hblank : b.toNat = 0x20 ∨ b.toNat = 0x09 := by omega
  rcases hblank with hb | hb
  · rw [UInt8.toNat_inj.mp (hb.trans (rfl : (0x20 : UInt8).toNat = 0x20).symm)] at hws
    cases hws
  · rw [UInt8.toNat_inj.mp (hb.trans (rfl : (0x09 : UInt8).toNat = 0x09).symm)] at hws
    cases hws

theorem sentValue_visible {value : Octets} : ∀ b ∈ sentValue value, isVisibleAscii b = true := by
  unfold sentValue toStr
  split
  · rename_i h
    exact List.all_eq_true.mp h
  · intro b hb
    cases hb

theorem sentValue_cases (value : Octets) : sentValue value = value ∨ sentValue value = [] := by
  unfold sentValue toStr
  split
  · exact .inl rfl
  · exact .inr rfl

/-- A value that is not visible ASCII is sent as the empty text. -/
theorem sentValue_eq_self_iff {value : Octets} : sentValue value = value ↔ value.all isVisibleAscii = true := by
  unfold sentValue toStr
  split
  · rename_i h
    exact ⟨fun _ => h, fun _ => rfl⟩
  · rename_i h
    refine ⟨fun hnil => ?_, fun hall => absurd hall h⟩
    rw [← show [] = value from hnil]
    rfl

end Bytes

section IgnoreCase
variable {kt : KotlinText}

def LowerAscii (u : UInt16) : Prop := u.toNat < 0x80 ∧ ¬ (0x41 ≤ u.toNat ∧ u.toNat ≤ 0x5A)

theorem upper_inj {c d : UInt16} (hc : LowerAscii c) (hd : LowerAscii d)
    (h : kt.uppercaseChar c = kt.uppercaseChar d) : c = d := by
  have hnat := congrArg UInt16.toNat h
  rw [kt.upper_ascii c hc.1, kt.upper_ascii d hd.1] at hnat
  obtain ⟨-, hc⟩ := hc
  obtain ⟨-, hd⟩ := hd
  apply UInt16.toNat_inj.mp
  split at hnat <;> split at hnat <;> omega

theorem lower_upper {c : UInt16} (hc : LowerAscii c) : kt.lowercaseChar (kt.uppercaseChar c) = c := by
  have hupper := kt.upper_ascii c hc.1
  obtain ⟨hlt, hc⟩ := hc
  have hascii : (kt.uppercaseChar c).toNat < 0x80 := by
    rw [hupper]
    split <;> omega
  apply UInt16.toNat_inj.mp
  rw [kt.lower_ascii _ hascii, hupper]
  split
  · rw [if_pos (by omega)]
    omega
  · rfl

theorem charEquals_iff {c d : UInt16} (hc : LowerAscii c) (hd : LowerAscii d) : kt.charEquals c d = true ↔ c = d := by
  rw [KotlinText.charEquals, Bool.or_eq_true, Bool.or_eq_true, beq_iff_eq, beq_iff_eq, beq_iff_eq, lower_upper hc,
    lower_upper hd]
  constructor
  · rintro ((h | h) | h)
    · exact h
    · exact upper_inj hc hd h
    · exact h
  · exact fun h => .inl (.inl h)

theorem equalsIgnoreCase_cons (c d : UInt16) (s t : Units) :
    kt.equalsIgnoreCase (c :: s) (d :: t) = (kt.charEquals c d && kt.equalsIgnoreCase s t) := by
  have hlength : ((c :: s).length == (d :: t).length) = (s.length == t.length) := by simp
  rw [KotlinText.equalsIgnoreCase, KotlinText.equalsIgnoreCase, Bool.and_left_comm, hlength]
  rfl

theorem equalsIgnoreCase_iff {s t : Units} (hs : ∀ u ∈ s, LowerAscii u) (ht : ∀ u ∈ t, LowerAscii u) :
    kt.equalsIgnoreCase s t = true ↔ s = t := by
  induction s generalizing t with
  | nil => cases t <;> simp [KotlinText.equalsIgnoreCase]
  | cons c s ih =>
    cases t with
    | nil => simp [KotlinText.equalsIgnoreCase]
    | cons d t =>
      have htail := ih (fun u hu => hs u (List.mem_cons_of_mem _ hu)) fun u hu => ht u (List.mem_cons_of_mem _ hu)
      rw [equalsIgnoreCase_cons, Bool.and_eq_true, htail, List.cons.injEq,
        charEquals_iff (hs c List.mem_cons_self) (ht d List.mem_cons_self)]

/-- Among lowercase keys a name finds only itself. -/
theorem find_key (kt : KotlinText) {keys : List Units} {name : Units} (hkeys : ∀ k ∈ keys, ∀ u ∈ k, LowerAscii u)
    (hname : ∀ u ∈ name, LowerAscii u) : (keys.find? fun k => kt.equalsIgnoreCase k name).getD name = name := by
  cases hfind : keys.find? fun k => kt.equalsIgnoreCase k name with
  | none => rfl
  | some k =>
    have hsame : kt.equalsIgnoreCase k name = true := List.find?_some (p := fun k => kt.equalsIgnoreCase k name) hfind
    exact (equalsIgnoreCase_iff (hkeys k (List.mem_of_find?_eq_some hfind)) hname).mp hsame

end IgnoreCase

namespace RequestHeader
variable (h : RequestHeader)

def sentLine : Octets := h.name ++ COLON_BYTE :: SPACE_BYTE :: sentValue h.value

def sent : Units × Units := (widen h.name, widen (sentValue h.value))

theorem name_lowerAscii : ∀ u ∈ widen h.name, LowerAscii u := by
  intro u hu
  obtain ⟨b, hb, rfl⟩ := List.mem_map.mp hu
  obtain ⟨htoken, hlower⟩ := h.name_token b hb
  rw [LowerAscii, UInt8.toNat_toUInt16]
  refine ⟨Nat.lt_trans (isToken_bounds htoken).2 (by decide), fun hcapital => ?_⟩
  have hb : 0x41 ≤ b ∧ b ≤ 0x5A := ⟨UInt8.le_iff_toNat_le.mpr hcapital.1, UInt8.le_iff_toNat_le.mpr hcapital.2⟩
  rw [asciiLower, if_pos hb] at hlower
  have hnat := congrArg UInt8.toNat hlower
  rw [UInt8.toNat_add] at hnat
  change (b.toNat + 32) % 256 = b.toNat at hnat
  omega

theorem sentLine_ascii : ∀ b ∈ h.sentLine, b.toNat < 0x80 ∧ b ≠ NEWLINE_BYTE := by
  intro b hb
  rcases List.mem_append.mp hb with hb | hb
  · obtain ⟨htoken, -⟩ := h.name_token b hb
    exact ⟨Nat.lt_trans (isToken_bounds htoken).2 (by decide), (isToken_visible htoken).2.2⟩
  · rcases List.mem_cons.mp hb with rfl | hb
    · decide
    · rcases List.mem_cons.mp hb with rfl | hb
      · decide
      · have hrange := isVisibleAscii_iff.mp (sentValue_visible b hb)
        refine ⟨by omega, ?_⟩
        rintro rfl
        exact absurd hrange (by decide)

theorem widen_sentLine : widen h.sentLine = h.sent.1 ++ COLON :: SPACE :: h.sent.2 := by
  rw [sentLine, widen, List.map_append]
  rfl

theorem trim_name (kt : KotlinText) : kt.trim (widen h.name) = widen h.name := by
  have hnot : ∀ u ∈ widen h.name, kt.isWhitespace u = false := by
    intro u hu
    obtain ⟨b, hb, rfl⟩ := List.mem_map.mp hu
    have hbounds := isToken_bounds (h.name_token b hb).1
    refine not_whitespace kt (isVisibleAscii_iff.mpr (.inl ⟨by omega, hbounds.2⟩)) ?_
    exact (isToken_visible (h.name_token b hb).1).1
  refine trim_eq_self (fun u hu => ?_) fun u hu => ?_
  · exact hnot u (List.mem_of_head? hu)
  · exact hnot u (List.mem_of_getLast? hu)

theorem trim_value (kt : KotlinText) : kt.trim (SPACE :: widen (sentValue h.value)) = widen (sentValue h.value) := by
  have hspace : kt.isWhitespace SPACE = true := (kt.whitespace_ascii SPACE (by decide)).mpr (by decide)
  have hnot : ∀ b ∈ sentValue h.value, b ∈ (sentValue h.value).head? ∨ b ∈ (sentValue h.value).getLast? →
      kt.isWhitespace b.toUInt16 = false := by
    intro b hb hend
    refine not_whitespace kt (sentValue_visible b hb) ?_
    rcases sentValue_cases h.value with hv | hv
    · rw [hv] at hend
      exact hend.elim (h.value_head b) (h.value_last b)
    · rw [hv] at hb
      cases hb
  rw [KotlinText.trim, List.dropWhile_cons_of_pos hspace]
  refine trim_eq_self (fun u hu => ?_) fun u hu => ?_
  · rw [widen, List.head?_map] at hu
    obtain ⟨b, hb, rfl⟩ := Option.map_eq_some_iff.mp hu
    exact hnot b (List.mem_of_head? hb) (.inl hb)
  · rw [widen, List.getLast?_map] at hu
    obtain ⟨b, hb, rfl⟩ := Option.map_eq_some_iff.mp hu
    exact hnot b (List.mem_of_getLast? hb) (.inr hb)

end RequestHeader

section Parsing
variable (kt : KotlinText)

theorem headerBuf_eq (hs : List RequestHeader) :
    headerBuf hs = (hs.map RequestHeader.sentLine).flatMap (· ++ [NEWLINE_BYTE]) := by
  have hfold : ∀ buf : Octets, hs.foldl (fun buf h => buf ++ h.name ++ [COLON_BYTE, SPACE_BYTE] ++ sentValue h.value ++
      [NEWLINE_BYTE]) buf = buf ++ (hs.map RequestHeader.sentLine).flatMap (· ++ [NEWLINE_BYTE]) := by
    induction hs with
    | nil => simp
    | cons h hs ih =>
      intro buf
      rw [List.foldl_cons, ih]
      simp [RequestHeader.sentLine]
  exact hfold []

theorem addLine_of_colon {m : Entries} {line : Units} {i : Nat} (h : line.findIdx? (· == COLON) = some i) (hi : i ≠ 0) :
    kt.addLine m line = addValue m
      (((m.map Prod.fst).find? fun k => kt.equalsIgnoreCase k (kt.trim (line.take i))).getD (kt.trim (line.take i)))
      (kt.trim (line.drop (i + 1))) := by
  cases line with
  | nil => cases h
  | cons u line =>
    rw [KotlinText.addLine, h]
    cases i with
    | zero => exact absurd rfl hi
    | succ i => rfl

theorem addLine_sent {m : Entries} (hkeys : ∀ k ∈ m.map Prod.fst, ∀ u ∈ k, LowerAscii u) (h : RequestHeader) :
    kt.addLine m (widen h.sentLine) = addValue m h.sent.1 h.sent.2 := by
  have hcolon : COLON ∉ h.sent.1 := by
    intro hmem
    obtain ⟨b, hb, he⟩ := List.mem_map.mp hmem
    refine (isToken_visible (h.name_token b hb).1).2.1 (UInt8.toNat_inj.mp ?_)
    rw [← UInt8.toNat_toUInt16, he]
    rfl
  have hlength : h.sent.1.length ≠ 0 := by
    rw [RequestHeader.sent, widen, List.length_map]
    exact fun hzero => h.name_ne_nil (List.eq_nil_of_length_eq_zero hzero)
  have htrim : kt.trim h.sent.1 = h.sent.1 := h.trim_name kt
  have hvalue : kt.trim (SPACE :: h.sent.2) = h.sent.2 := h.trim_value kt
  have hkey := find_key kt hkeys h.name_lowerAscii
  rw [h.widen_sentLine, addLine_of_colon kt (findIdx_separator hcolon _) hlength, List.take_left,
    List.drop_length_add_append, List.drop_one, List.tail_cons, htrim, hvalue]
  exact congrArg (addValue m · h.sent.2) hkey

/-- The lines are grouped one after another; the keys met so far stay lowercase. -/
theorem addLine_grouped (done hs : List RequestHeader) {m : Entries} (hm : Grouped (done.map RequestHeader.sent) m) :
    Grouped ((done ++ hs).map RequestHeader.sent) ((hs.map fun h => widen h.sentLine).foldl kt.addLine m) := by
  induction hs generalizing done m with
  | nil => rwa [List.append_nil]
  | cons h hs ih =>
    have hkeys : ∀ k ∈ m.map Prod.fst, ∀ u ∈ k, LowerAscii u := by
      intro k hk
      obtain ⟨p, hp, rfl⟩ := List.mem_map.mp ((hm.keys k).mp hk)
      obtain ⟨h', -, rfl⟩ := List.mem_map.mp hp
      exact h'.name_lowerAscii
    have hnext : Grouped ((done ++ [h]).map RequestHeader.sent) (kt.addLine m (widen h.sentLine)) := by
      rw [addLine_sent kt hkeys, List.map_append]
      exact hm.add h.sent.1 h.sent.2
    have hrest := ih (done ++ [h]) hnext
    rwa [List.append_assoc, List.singleton_append] at hrest

theorem parseHeaders_grouped (hs : List RequestHeader) :
    Grouped (hs.map RequestHeader.sent) (kt.parseHeaders (headerBuf hs)) := by
  have hgrouped := addLine_grouped kt [] hs Grouped.nil
  have hascii : ∀ b ∈ headerBuf hs, b.toNat < 0x80 := by
    rw [headerBuf_eq]
    intro b hb
    obtain ⟨l, hl, hb⟩ := List.mem_flatMap.mp hb
    obtain ⟨h, -, rfl⟩ := List.mem_map.mp hl
    rcases List.mem_append.mp hb with hb | hb
    · exact (h.sentLine_ascii b hb).1
    · rw [List.mem_singleton.mp hb]
      decide
  have hsplit : (widen (headerBuf hs)).splitOn LF = (hs.map fun h => widen h.sentLine) ++ [[]] := by
    have hwiden : widen (headerBuf hs) = (hs.map fun h => widen h.sentLine).flatMap (· ++ [LF]) := by
      rw [headerBuf_eq, widen, List.map_flatMap, List.flatMap_map, List.flatMap_map]
      refine List.flatMap_congr fun h _ => ?_
      rw [List.map_append]
      rfl
    rw [hwiden]
    refine splitOn_terminated LF _ fun l hl hmem => ?_
    obtain ⟨h, -, rfl⟩ := List.mem_map.mp hl
    obtain ⟨b, hb, he⟩ := List.mem_map.mp hmem
    refine (h.sentLine_ascii b hb).2 (UInt8.toNat_inj.mp ?_)
    rw [← UInt8.toNat_toUInt16, he]
    rfl
  unfold KotlinText.parseHeaders
  split
  · rename_i hempty
    cases hs with
    | nil => exact Grouped.nil
    | cons h hs =>
      rw [headerBuf_eq] at hempty
      simp at hempty
  · rw [kt.decode_ascii _ hascii, hsplit, List.foldl_append]
    exact hgrouped

theorem parseHeaders_sent (hs : List RequestHeader) : Grouped (hs.map fun h => (h.name, sentValue h.value))
    ((kt.parseHeaders (headerBuf hs)).map fun e => (utf8 e.1, e.2.map utf8)) := by
  have hname : ∀ h : RequestHeader, utf8 (widen h.name) = h.name := by
    intro h
    apply utf8_widen
    intro b hb
    exact Nat.lt_trans (isToken_bounds (h.name_token b hb).1).2 (by decide)
  have hvalue : ∀ h : RequestHeader, utf8 (widen (sentValue h.value)) = sentValue h.value := by
    intro h
    apply utf8_widen
    intro b hb
    have hrange := isVisibleAscii_iff.mp (sentValue_visible b hb)
    omega
  have hinj : ∀ k ∈ (hs.map RequestHeader.sent).map Prod.fst, ∀ l ∈ (hs.map RequestHeader.sent).map Prod.fst,
      utf8 k = utf8 l → k = l := by
    rw [List.map_map]
    intro k hk l hl he
    obtain ⟨h, -, rfl⟩ := List.mem_map.mp hk
    obtain ⟨h', -, rfl⟩ := List.mem_map.mp hl
    change utf8 (widen h.name) = utf8 (widen h'.name) at he
    rw [hname, hname] at he
    exact congrArg widen he
  have hbytes : (hs.map RequestHeader.sent).map (fun p => (utf8 p.1, utf8 p.2)) =
      hs.map fun h => (h.name, sentValue h.value) := by
    rw [List.map_map]
    exact List.map_congr_left fun h _ => Prod.ext (hname h) (hvalue h)
  rw [← hbytes]
  exact (parseHeaders_grouped kt hs).map utf8 utf8 hinj

theorem Unchanged.sent {hs : List RequestHeader} (hu : Unchanged hs (kt.parseHeaders (headerBuf hs))) :
    ∀ h ∈ hs, h.value.all isVisibleAscii = true := by
  intro h hh
  have hsent := parseHeaders_sent kt hs
  have hpairs : (hs.map fun h => (h.name, sentValue h.value)) =
      (hs.map RequestHeader.pair).map fun p => (p.1, sentValue p.2) := by
    rw [List.map_map]
    rfl
  rw [hpairs] at hsent
  exact sentValue_eq_self_iff.mp (Grouped.fixed hu hsent h.pair (List.mem_map_of_mem hh))

end Parsing

/-- The headers of a request reach the handler unchanged exactly if every value is visible ASCII and
tabs: any other value is blanked by `handle`. -/
theorem request_headers_unchanged_iff (kt : KotlinText) (hs : List RequestHeader) :
    Unchanged hs (kt.parseHeaders (headerBuf hs)) ↔ ∀ h ∈ hs, h.value.all isVisibleAscii = true := by
  refine ⟨Unchanged.sent kt, fun hvisible => ?_⟩
  have hsame : (hs.map fun h => (h.name, sentValue h.value)) = hs.map RequestHeader.pair :=
    List.map_congr_left fun h hh => Prod.ext rfl (sentValue_eq_self_iff.mpr (hvisible h hh))
  rw [Unchanged, ← hsame]
  exact parseHeaders_sent kt hs

def KotlinText.ascii : KotlinText where
  decodeToString b := b.map fun x => if x.toNat < 0x80 then x.toUInt16 else 0xFFFD
  isWhitespace u := decide (0x09 ≤ u.toNat ∧ u.toNat ≤ 0x0D ∨ 0x1C ≤ u.toNat ∧ u.toNat ≤ 0x20)
  uppercaseChar u := if 0x61 ≤ u.toNat ∧ u.toNat ≤ 0x7A then u - 0x20 else u
  lowercaseChar u := if 0x41 ≤ u.toNat ∧ u.toNat ≤ 0x5A then u + 0x20 else u
  decode_ascii b h := List.map_congr_left fun x hx => if_pos (h x hx)
  whitespace_ascii u _ := decide_eq_true_iff
  upper_ascii u _ := by
    split
    · rename_i hu
      exact UInt16.toNat_sub_of_le u 0x20 (UInt16.le_iff_toNat_le.mpr (Nat.le_trans (by decide) hu.1))
    · rfl
  lower_ascii u h := by
    split
    · rw [UInt16.toNat_add]
      exact Nat.mod_eq_of_lt (Nat.lt_trans (Nat.add_lt_add_right h 0x20) (by decide))
    · rfl

/-- A header `x` whose value is the two bytes of `é`. -/
def accented : RequestHeader where
  name := [0x78]
  value := [0xC3, 0xA9]
  name_ne_nil := List.cons_ne_nil _ _
  name_token := List.forall_mem_singleton.mpr (by decide)
  value_field := List.forall_mem_cons.mpr ⟨by decide, List.forall_mem_singleton.mpr (by decide)⟩
  value_head b h := by
    cases h
    decide
  value_last b h := by
    cases h
    decide

theorem accented_value_blanked : KotlinText.ascii.parseHeaders (headerBuf [accented]) = [([0x78], [[]])] ∧
    ¬ ∀ (kt : KotlinText) (hs : List RequestHeader), Unchanged hs (kt.parseHeaders (headerBuf hs)) := by
  refine ⟨by decide, fun h => ?_⟩
  exact absurd ((h .ascii [accented]).sent .ascii accented List.mem_cons_self) (by decide)

end Hyper4k.Server
