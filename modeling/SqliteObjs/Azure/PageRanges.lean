import SqliteObjs.Data.Search
import SqliteObjs.Data.Text
import SqliteObjs.Vfs.World

/-!
# The text of a page range diff

The service answers a page range diff with an XML text. `parsePageRangesXml` looks for its
tags with `strstr`. The buffer the text is in does not end in a zero byte, so a search can run
into what follows the text in memory; most of what it finds there is past `end` and ends the
loop.
-/

set_option autoImplicit false

namespace SqliteObjs

open Search

/-- `azure_diff_range_t`. -/
structure AzureDiffRange where
  start : Int
  stop : Int
  isClear : Bool
  deriving DecidableEq, Repr

/-! ## C library -/

/-- What a string function sees of the memory from a pointer on. -/
def cstr (memory : List Char) : List Char := memory.takeWhile (· != '\x00')

/-- `isspace` in the C locale. -/
def isSpace (c : Char) : Bool := c == ' ' || (9 ≤ c.toNat && c.toNat ≤ 13)

/-- The decimal digits at the beginning of a text. -/
def leadingNat (s : List Char) : Nat := Nat.ofDigitChars 10 (s.takeWhile Char.isDigit) 0

/-- `INT64_MAX`. -/
def int64Max : Nat := 2 ^ 63 - 1

/-- `strtoll` in base 10: a number out of range becomes the nearest one in range. -/
def strtoll (s : List Char) : Int :=
  match s.dropWhile isSpace with
  | '-' :: s => -(min (leadingNat s) (int64Max + 1) : Nat)
  | '+' :: s => (min (leadingNat s) int64Max : Nat)
  | s => (min (leadingNat s) int64Max : Nat)

/-- Conversion to `size_t`. -/
def sizeT (x : Int) : Nat := (x % 2 ^ 64).toNat

/-! ## The parser -/

def pageRangeTag : List Char := "<PageRange>".toList
def clearRangeTag : List Char := "<ClearRange>".toList
def startTag : List Char := "<Start>".toList
def endTag : List Char := "<End>".toList

def closeTag (isClear : Bool) : List Char :=
  if isClear then "</ClearRange>".toList else "</PageRange>".toList

/-- The nearer of the two opening tags: where its content starts, and `is_clear`. -/
def openTag (p : List Char) : Option (Nat × Bool) :=
  match find pageRangeTag p, find clearRangeTag p with
  | none, none => none
  | some page, none => some (page + 11, false)
  | some page, some clear =>
    if page < clear then some (page + 11, false) else some (clear + 12, true)
  | none, some clear => some (clear + 12, true)

/-- One round of the loop, with `n` characters from `p` to `end`: the range that is stored, and
where the next round starts, if there is one. -/
def scanRange (p : List Char) (n : Nat) : Option (AzureDiffRange × Option (List Char × Nat)) :=
  match openTag p with
  | none => none
  | some (k, isClear) =>
    let pr := p.drop k
    match find startTag pr with
    | none => none
    | some s =>
      if n ≤ k + s then none
      else match find endTag pr with
      | none => none
      | some e =>
        if n ≤ k + e then none
        else
          let range : AzureDiffRange :=
            { start := strtoll (pr.drop (s + 7)), stop := strtoll (pr.drop (e + 5)),
              isClear := isClear }
          match find (closeTag isClear) pr with
          | none => some (range, none)
          | some c =>
            if n ≤ k + c then some (range, none)
            else
              let next := k + c + if isClear then 13 else 12
              some (range, some (p.drop next, n - next))

/-- Room for one more range in an array of `capacity`. The doubled `int` wraps, and no object
is larger than `PTRDIFF_MAX`. -/
def growRanges (count : Nat) (capacity : Int) : Prog (Option Int) :=
  if (count : Int) < capacity then return some capacity
  else
    let capacity := cInt (capacity * 2)
    let size := sizeT (sizeT capacity * 24)
    if 2 ^ 63 ≤ size then return none
    else do
      let tmp ← sys (.malloc size)
      if !tmp.ok then return none else return some capacity

/-- The loop of `parsePageRangesXml`; the first argument bounds its rounds. -/
def parseRanges : Nat → List Char → Nat → Int → List AzureDiffRange →
    Prog (Option (List AzureDiffRange))
  | 0, _, _, _, ranges => return some ranges
  | fuel + 1, p, n, capacity, ranges =>
    if n = 0 then return some ranges
    else match scanRange p n with
    | none => return some ranges
    | some (range, next) => do
      match ← growRanges ranges.length capacity with
      | none => return none
      | some capacity =>
        match next with
        | none => return some (ranges ++ [range])
        | some (p, n) => parseRanges fuel p n capacity (ranges ++ [range])

/-- Parse a response of `xmlLen` characters; `memory` is it with what follows it. `none` when
there is no memory for the ranges. -/
def parsePageRangesXml (memory : List Char) (xmlLen : Nat) :
    Prog (Option (List AzureDiffRange)) := do
  let ranges ← sys (.malloc (64 * 24))
  if !ranges.ok then return none
  else parseRanges (xmlLen + 1) (cstr memory) xmlLen 64 []

/-- What `az_blob_get_page_ranges_diff` makes of the body of a successful response. -/
def pageRangesOfBody (memory : List Char) (size : Nat) : Prog (AzErr × List AzureDiffRange) :=
  if size = 0 then return (.ok, [])
  else do
    match ← parsePageRangesXml memory size with
    | none => return (.unknown, [])
    | some ranges => return (.ok, ranges)

/-! ## The documented form -/

/-- A range of offsets, with both ends in it. -/
structure PageListRange where
  start : Nat
  stop : Nat
  isClear : Bool
  le : start ≤ stop
  fits : stop ≤ int64Max

/-- What stands between the parts of the text: in the declaration, and before each element. -/
structure PageListLayout where
  decl : List Char
  gap : List Char
  decl_mem : '<' ∉ decl ∧ '\x00' ∉ decl
  gap_mem : '<' ∉ gap ∧ '\x00' ∉ gap

namespace PageListRange

def value (r : PageListRange) : AzureDiffRange :=
  { start := r.start, stop := r.stop, isClear := r.isClear }

def tag (r : PageListRange) : List Char := if r.isClear then clearRangeTag else pageRangeTag

/-- What is between the opening tag of an element and its last offset. -/
def inner (r : PageListRange) : List Char :=
  startTag ++ (Nat.toDigits 10 r.start ++ ("</Start>".toList ++ endTag))

/-- The element up to its last offset. -/
def head (r : PageListRange) : List Char := r.tag ++ r.inner

/-- The element behind its last offset. -/
def foot (r : PageListRange) : List Char := "</End>".toList ++ closeTag r.isClear

def element (r : PageListRange) : List Char := r.head ++ (Nat.toDigits 10 r.stop ++ r.foot)

end PageListRange

namespace PageListLayout

variable (lay : PageListLayout)

def header : List Char := "<?xml".toList ++ (lay.decl ++ "?><PageList>".toList)

def body (L : List PageListRange) : List Char :=
  (L.flatMap fun r => lay.gap ++ r.element) ++ (lay.gap ++ "</PageList>".toList)

/-- The text for a list of ranges. -/
def render (L : List PageListRange) : List Char := lay.header ++ lay.body L

/-- Up to and with the tag before the last offset of the last range. -/
def lastTag : List PageListRange → Nat
  | [] => 0
  | [r] => lay.gap.length + r.head.length
  | r :: L => lay.gap.length + r.element.length + lastTag L

/-- Up to the last offset of the last range and what ends it. The largest offset ends itself:
further digits do not change it. -/
def lastOffset : List PageListRange → Nat
  | [] => 0
  | [r] => lay.gap.length + r.head.length + (Nat.toDigits 10 r.stop).length +
      if r.stop = int64Max then 0 else 1
  | r :: L => lay.gap.length + r.element.length + lastOffset L

end PageListLayout

end SqliteObjs
