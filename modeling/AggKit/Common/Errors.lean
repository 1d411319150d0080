import Mathlib.Algebra.Group.Nat.Defs

/-!
# The range limit in an error text, as in `common/errors.go`

Providers refuse a query over too many blocks with an error that names their limit. The four regular
expressions of the source have one shape: a text, white space, a number and possibly a text after
it. Digits and white space are disjoint, so a match takes all of either, and the leftmost match
counts.
-/

namespace AggKit.Common

/-- The shape of the regular expressions: `before`, `\s*` or `\s+`, `(\d+)` or `([\d,]+)`, and
possibly `\s+` with the text `after`. -/
structure RangePattern where
  before : List Char
  needsSpace : Bool
  commas : Bool
  after : Option (List Char)

/-- `\s` -/
def isSpace (c : Char) : Bool := c ∈ ['\t', '\n', '\x0c', '\r', ' ']

namespace RangePattern

/-- `[\d,]`, or `\d` for a pattern without commas. -/
def isNumeral (p : RangePattern) (c : Char) : Bool := c.isDigit || (p.commas && c == ',')

/-- The group of a match that starts with the first character. -/
def matchHere (p : RangePattern) (text : List Char) : Option (List Char) :=
  if p.before.isPrefixOf text then
    let rest := text.drop p.before.length
    let number := rest.dropWhile isSpace
    let tail := number.dropWhile p.isNumeral
    let spaced := !p.needsSpace || rest.head?.any isSpace
    let ended := p.after.all fun after =>
      tail.head?.any isSpace && after.isPrefixOf (tail.dropWhile isSpace)
    if spaced && number.head?.any p.isNumeral && ended then some (number.takeWhile p.isNumeral)
    else none
  else none

/-- The group of the first match, as `FindStringSubmatch` returns it. -/
def findSubmatch (p : RangePattern) : List Char → Option (List Char)
  | [] => none
  | c :: text => p.matchHere (c :: text) <|> p.findSubmatch text

end RangePattern

/-- `reMaxRange`, `reExceededBlockRange`, `reEthGetLogsLimited` and
`reQueryExceedsMaxBlockRange`. -/
def rangePatterns : List RangePattern :=
  [⟨"block range too large, max range:".toList, false, false, none⟩,
   ⟨"exceeded maximum block range:".toList, false, false, none⟩,
   ⟨"eth_getLogs is limited to a".toList, true, true, some "range".toList⟩,
   ⟨"query exceeds max block range".toList, true, false, none⟩]

/-- `ParseUint64HexOrDecimal` on what the patterns match, in which there is no `0x`. -/
def parseUint64 (digits : List Char) : Option ℕ :=
  let n := digits.foldl (fun n c => 10 * n + (c.toNat - '0'.toNat)) 0
  if digits ≠ [] ∧ n < 2 ^ 64 then some n else none

/-- `ParseMaxRangeFromError`. -/
def parseMaxRangeFromError (errMsg : String) : Option ℕ :=
  match rangePatterns.findSome? (·.findSubmatch errMsg.toList) with
  | none => none
  | some digits => parseUint64 (digits.filter (· ≠ ','))

example : parseMaxRangeFromError "eth_getLogs is limited to a 10,000 range" = some 10000 := by
  decide +kernel

end AggKit.Common
