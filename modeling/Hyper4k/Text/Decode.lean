import Hyper4k.Text.Utf8

/-! Strict decoding of UTF-8, the words of a text, and numbers written in decimal. -/
namespace Hyper4k.Text

def isContinuation (b : UInt8) : Bool := 0x80 ≤ b && b ≤ 0xBF

/-- A lead byte of two with its continuation; `C0` and `C1` would be overlong. -/
def isPair (a b : UInt8) : Bool := 0xC2 ≤ a && a ≤ 0xDF && isContinuation b

/-- A lead byte of three and its first continuation: no overlong form, no surrogate. -/
def isTripleLead (a b : UInt8) : Bool :=
  if a = 0xE0 then 0xA0 ≤ b && b ≤ 0xBF
  else if a = 0xED then 0x80 ≤ b && b ≤ 0x9F
  else 0xE1 ≤ a && a ≤ 0xEF && isContinuation b

/-- A lead byte of four and its first continuation: no overlong form, nothing after U+10FFFF. -/
def isQuadLead (a b : UInt8) : Bool :=
  if a = 0xF0 then 0x90 ≤ b && b ≤ 0xBF
  else if a = 0xF4 then 0x80 ≤ b && b ≤ 0x8F
  else 0xF1 ≤ a && a ≤ 0xF3 && isContinuation b

def payload (b : UInt8) : Nat := b.toNat % 64

/-- The text of well-formed UTF-8, `none` for any other bytes. -/
def fromUtf8 : Octets → Option (List Char)
  | [] => some []
  | a :: rest =>
    if a < 0x80 then (fromUtf8 rest).map (Char.ofNat a.toNat :: ·)
    else match rest with
      | [] => none
      | b :: rest =>
        if isPair a b then (fromUtf8 rest).map (Char.ofNat (a.toNat % 32 * 64 + payload b) :: ·)
        else match rest with
          | [] => none
          | c :: rest =>
            if isTripleLead a b && isContinuation c then
              (fromUtf8 rest).map (Char.ofNat (a.toNat % 16 * 4096 + payload b * 64 + payload c) :: ·)
            else match rest with
              | [] => none
              | d :: rest =>
                if isQuadLead a b && isContinuation c && isContinuation d then
                  (fromUtf8 rest).map (Char.ofNat
                    (a.toNat % 8 * 262144 + payload b * 4096 + payload c * 64 + payload d) :: ·)
                else none

def isWhiteSpace (c : Char) : Bool :=
  let n := c.toNat
  (0x09 ≤ n && n ≤ 0x0D) || n == 0x20 || n == 0x85 || n == 0xA0 || n == 0x1680 || (0x2000 ≤ n && n ≤ 0x200A)
    || n == 0x2028 || n == 0x2029 || n == 0x202F || n == 0x205F || n == 0x3000

def words (text : List Char) : List (List Char) := (text.splitOnP isWhiteSpace).filter (!·.isEmpty)

/-- A decimal number below `bound`; one `+` may precede it. -/
def parseDecimal (bound : Nat) (text : List Char) : Option Nat :=
  let digits := match text with
    | '+' :: rest => rest
    | _ => text
  if digits ≠ [] ∧ digits.all Char.isDigit then
    let n := digits.foldl (fun n c => 10 * n + (c.toNat - '0'.toNat)) 0
    if n < bound then some n else none
  else none

example : fromUtf8 [0x68, 0xC3, 0xA9, 0xE2, 0x82, 0xAC] = some ['h', 'é', '€'] := by decide

example : fromUtf8 [0xC0, 0xAF] = none ∧ fromUtf8 [0xED, 0xA0, 0x80] = none ∧ fromUtf8 [0xE2, 0x82] = none := by
  decide

end Hyper4k.Text
