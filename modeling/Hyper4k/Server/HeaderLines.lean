import Hyper4k.Server.Headers

/-! `parse_headers` reads its block line by line: blocks compose at their line ends, a bad line
drops only itself, and a carriage return before the line end is not seen. -/
namespace Hyper4k.Server
open Text

section Parsing
variable (http : HttpTypes)

/-- A line without a colon, with an empty name, or with a name or a value that `http` refuses. -/
inductive BadLine : Octets → Prop
  | noColon {line : Octets} (h : COLON_BYTE ∉ line) : BadLine line
  | emptyName {name : Octets} (h : COLON_BYTE ∉ name) (hname : trimAscii name = []) (rest : Octets) :
      BadLine (name ++ COLON_BYTE :: rest)
  | invalidName {name : Octets} (h : COLON_BYTE ∉ name) (hname : http.headerName (trimAscii name) = none)
      (rest : Octets) : BadLine (name ++ COLON_BYTE :: rest)
  | invalidValue {name rest : Octets} (h : COLON_BYTE ∉ name) (hvalue : http.headerValue (trimAscii rest) = none) :
      BadLine (name ++ COLON_BYTE :: rest)

def ended (p : Octets × Bool) : Octets := if p.2 then p.1 ++ [CR_BYTE] else p.1

variable {http} in
theorem BadLine.parseLine {line : Octets} (h : BadLine http line) : parseLine http line = none := by
  cases h with
  | noColon h => exact parseLine_no_colon http h
  | emptyName h hname rest => rw [parseLine_colon http h, hname, if_pos List.isEmpty_nil]
  | invalidName h hname rest => simp only [parseLine_colon http h, hname, ite_self]
  | invalidValue h hvalue =>
    rw [parseLine_colon http h, hvalue]
    split
    · rfl
    · split
      · rename_i hv
        cases hv
      · rfl

theorem parseLine_concat_cr (line : Octets) : parseLine http (line ++ [CR_BYTE]) = parseLine http line := by
  by_cases hcolon : COLON_BYTE ∈ line
  · obtain ⟨name, rest, rfl, hname⟩ := List.eq_append_cons_of_mem hcolon
    rw [List.append_assoc, List.cons_append, parseLine_colon http hname, parseLine_colon http hname,
      trimAscii_concat _ (by decide)]
  · rw [parseLine_no_colon http hcolon, parseLine_no_colon http]
    simpa using ⟨hcolon, by decide⟩

theorem parseHeaders_append (a b : Octets) :
    parseHeaders http (a ++ NEWLINE_BYTE :: b) = parseHeaders http a ++ parseHeaders http b := by
  rw [parseHeaders_eq, parseHeaders_eq, parseHeaders_eq, splitOn_append_cons, List.filterMap_append]

theorem parseHeaders_line {line : Octets} (h : NEWLINE_BYTE ∉ line) :
    parseHeaders http line = (parseLine http line).toList := by
  rw [parseHeaders_eq, splitOn_of_not_mem h]
  cases hp : parseLine http line with
  | none => rw [List.filterMap_cons_none hp]; rfl
  | some e => rw [List.filterMap_cons_some hp]; rfl

/-- A carriage return at the end of a block belongs to its last line. -/
theorem parseHeaders_concat_cr (raw : Octets) : parseHeaders http (raw ++ [CR_BYTE]) = parseHeaders http raw := by
  induction hn : raw.length using Nat.strong_induction_on generalizing raw with
  | _ n ih =>
    by_cases hmem : NEWLINE_BYTE ∈ raw
    · obtain ⟨a, b, rfl⟩ := List.append_of_mem hmem
      have hlt : b.length < n := by
        rw [← hn, List.length_append, List.length_cons]
        omega
      rw [List.append_assoc, List.cons_append, parseHeaders_append, parseHeaders_append, ih _ hlt b rfl]
    · have hcr : NEWLINE_BYTE ∉ raw ++ [CR_BYTE] := by simpa using ⟨hmem, by decide⟩
      rw [parseHeaders_line http hcr, parseHeaders_line http hmem, parseLine_concat_cr]

theorem parseHeaders_lines (lines : List Octets) :
    parseHeaders http ([NEWLINE_BYTE].intercalate lines) = lines.flatMap (parseHeaders http) := by
  induction lines with
  | nil => rfl
  | cons l lines ih =>
    cases lines with
    | nil => simp
    | cons m lines =>
      rw [List.intercalate_cons_cons, List.append_assoc, List.singleton_append, parseHeaders_append, ih]
      rfl

theorem parseHeaders_ended (p : Octets × Bool) : parseHeaders http (ended p) = parseHeaders http p.1 := by
  unfold ended
  split
  · exact parseHeaders_concat_cr http p.1
  · rfl

variable {http} in
theorem BadLine.parseHeaders {line : Octets} (hline : NEWLINE_BYTE ∉ line) (h : BadLine http line) :
    parseHeaders http line = [] := by
  rw [parseHeaders_line http hline, h.parseLine]
  rfl

/-- Two blocks joined at a line end give the headers of the one and then those of the other. So a bad line
can be put in anywhere between the lines, and any line may end with a carriage return. -/
theorem bad_line_drops_only_itself :
    (∀ a b, parseHeaders http (a ++ NEWLINE_BYTE :: b) = parseHeaders http a ++ parseHeaders http b) ∧
    (∀ line, NEWLINE_BYTE ∉ line → BadLine http line →
      (∀ a b, parseHeaders http (a ++ NEWLINE_BYTE :: (line ++ NEWLINE_BYTE :: b)) =
        parseHeaders http (a ++ NEWLINE_BYTE :: b)) ∧
      (∀ b, parseHeaders http (line ++ NEWLINE_BYTE :: b) = parseHeaders http b) ∧
      ∀ a, parseHeaders http (a ++ NEWLINE_BYTE :: line) = parseHeaders http a) ∧
    ∀ lines : List (Octets × Bool), parseHeaders http ([NEWLINE_BYTE].intercalate (lines.map ended)) =
      parseHeaders http ([NEWLINE_BYTE].intercalate (lines.map Prod.fst)) := by
  refine ⟨parseHeaders_append http, fun line hline hbad => ?_, fun lines => ?_⟩
  · have hnone := hbad.parseHeaders hline
    refine ⟨fun a b => ?_, fun b => ?_, fun a => ?_⟩
    · rw [parseHeaders_append, parseHeaders_append, hnone, List.nil_append, parseHeaders_append]
    · rw [parseHeaders_append, hnone, List.nil_append]
    · rw [parseHeaders_append, hnone, List.append_nil]
  · rw [parseHeaders_lines, parseHeaders_lines, List.flatMap_map, List.flatMap_map]
    exact List.flatMap_congr fun p _ => parseHeaders_ended http p

end Parsing

/-- A line with a blank inside its name, between two good ones. -/
theorem bad_line_drops_only_itself_blank_name : BadLine .std [0x42, 0x20, 0x4E, 0x3A, 0x74] ∧
    parseHeaders .std [0x61, 0x3A, 0x31, 0x0A, 0x42, 0x20, 0x4E, 0x3A, 0x74, 0x0A, 0x62, 0x3A, 0x32] =
      parseHeaders .std [0x61, 0x3A, 0x31, 0x0A, 0x62, 0x3A, 0x32] ∧
    parseHeaders .std [0x61, 0x3A, 0x31, 0x0A, 0x62, 0x3A, 0x32] = [([0x61], [0x31]), ([0x62], [0x32])] := by
  have hbad : BadLine .std [0x42, 0x20, 0x4E, 0x3A, 0x74] :=
    @BadLine.invalidName .std [0x42, 0x20, 0x4E] (by decide) (by decide) [0x74]
  exact ⟨hbad, ((bad_line_drops_only_itself .std).2.1 _ (by decide) hbad).1 [0x61, 0x3A, 0x31] [0x62, 0x3A, 0x32],
    by decide⟩

end Hyper4k.Server
