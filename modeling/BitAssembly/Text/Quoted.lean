import BitAssembly.Text.Blank

/-!
# Quoted texts and lists of them

A text is quoted with apostrophes, or with double quotation marks if it holds
an apostrophe and no double mark.  Backslashes, the enclosing mark and
characters that do not print are escaped.
-/

namespace BitAssembly.Text

/-- Format and private-use characters: assigned, but without a shape of their own. -/
def formatRanges : List (Nat × Nat) :=
  [(0xad, 0xad), (0x600, 0x605), (0x61c, 0x61c), (0x6dd, 0x6dd), (0x70f, 0x70f), (0x890, 0x891),
   (0x8e2, 0x8e2), (0x180e, 0x180e), (0x200b, 0x200f), (0x202a, 0x202e), (0x2060, 0x2064),
   (0x2066, 0x206f), (0xe000, 0xf8ff), (0xfeff, 0xfeff), (0xfff9, 0xfffb), (0x110bd, 0x110bd),
   (0x110cd, 0x110cd), (0x13430, 0x13438), (0x1bca0, 0x1bca3), (0x1d173, 0x1d17a),
   (0xe0001, 0xe0001), (0xe0020, 0xe007f), (0xf0000, 0xffffd), (0x100000, 0x10fffd)]

def isPrintable (c : Char) : Bool :=
  let code := c.toNat
  !(code < 0x20 || (0x7f ≤ code && code ≤ 0x9f) || (isBlank c && c != ' ')
    || inRanges formatRanges code)

def hexWidth (width value : Nat) : List Char :=
  let digits := Nat.toDigits 16 value
  List.replicate (width - digits.length) '0' ++ digits

def escapeChar (mark c : Char) : List Char :=
  let code := c.toNat
  if c = mark ∨ c = '\\' then ['\\', c]
  else if c = '\n' then ['\\', 'n']
  else if c = '\t' then ['\\', 't']
  else if c = '\r' then ['\\', 'r']
  else if isPrintable c then [c]
  else if code < 0x100 then '\\' :: 'x' :: hexWidth 2 code
  else if code < 0x10000 then '\\' :: 'u' :: hexWidth 4 code
  else '\\' :: 'U' :: hexWidth 8 code

def quote (text : List Char) : List Char :=
  let mark := if text.contains '\x27' && !text.contains '\x22' then '\x22' else '\x27'
  mark :: text.flatMap (escapeChar mark) ++ [mark]

def quoteList (texts : List String) : String :=
  "[" ++ ", ".intercalate (texts.map fun text => String.ofList (quote text.toList)) ++ "]"

end BitAssembly.Text
