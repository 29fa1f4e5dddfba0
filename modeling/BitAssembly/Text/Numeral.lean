import BitAssembly.Fault
import BitAssembly.Text.Blank
import BitAssembly.Text.Digit

/-!
# Numerals

A numeral is an optional sign and digits, with blanks around it.  Radix 16
admits a leading `0x` and radix 2 a leading `0b`, either followed by at most
one underscore; single underscores may stand between digits.  Digits may be of
any script, and so may the zero of a radix mark.  A radix that is
no power of two converts at most 4300 digits.
-/

namespace BitAssembly.Text

structure Numeral where
  negative : Bool
  digits : List Nat
deriving DecidableEq, Repr

def digitsValue (radix : Nat) (digits : List Nat) : Nat :=
  digits.foldl (fun value digit => value * radix + digit) 0

def Numeral.value (radix : Nat) (numeral : Numeral) : Int :=
  if numeral.negative then - (digitsValue radix numeral.digits : Int)
  else digitsValue radix numeral.digits

/-- Blanks that may surround a numeral: every blank but the ASCII separators. -/
def isNumeralBlank (c : Char) : Bool :=
  isBlank c && !(0x1c ≤ c.toNat && c.toNat ≤ 0x1f)

def radixDigit? (radix : Nat) (c : Char) : Option Nat :=
  (digitValue? c).filter (· < radix)

/-- The longest run of digits with single underscores between them, and what
follows it; `none` if an underscore is doubled or stands last.  `gap` says that
the last character was an underscore, and `digits` holds the newest digit first. -/
def takeDigits (radix : Nat) : List Char → Bool → List Nat → Option (List Nat × List Char)
  | [], gap, digits => if gap then none else some (digits.reverse, [])
  | c :: rest, gap, digits =>
      if c = '_' then
        if gap then none else takeDigits radix rest true digits
      else
        match radixDigit? radix c with
        | some digit => takeDigits radix rest false (digit :: digits)
        | none => if gap then none else some (digits.reverse, c :: rest)

def takeSign : List Char → Bool × List Char
  | '+' :: rest => (false, rest)
  | '-' :: rest => (true, rest)
  | text => (false, text)

def isRadixMark (radix : Nat) (c : Char) : Bool :=
  (radix == 16 && (c == 'x' || c == 'X')) || (radix == 2 && (c == 'b' || c == 'B'))

def isZero (c : Char) : Bool :=
  decimalValue? c.toNat == some 0

def dropRadixMark (radix : Nat) : List Char → List Char
  | first :: mark :: rest =>
      if isZero first && isRadixMark radix mark then
        match rest with
        | '_' :: digits => digits
        | digits => digits
      else first :: mark :: rest
  | text => text

def digitLimit : Nat := 4300

/-- Reads a numeral; too many digits are found before anything that follows them. -/
def Numeral.ofText (radix : Nat) (text : List Char) : Except Fault Numeral :=
  let (negative, unsigned) := takeSign (text.dropWhile isNumeralBlank)
  let body := dropRadixMark radix unsigned
  if body.head? = some '_' then .error (.badNumeral radix)
  else
    match takeDigits radix body false [] with
    | none => .error (.badNumeral radix)
    | some (digits, rest) =>
        if radix = 10 ∧ digitLimit < digits.length then .error (.longNumeral digits.length)
        else if digits.isEmpty || !rest.all isNumeralBlank then .error (.badNumeral radix)
        else .ok ⟨negative, digits⟩

def parseInt (radix : Nat) (text : List Char) : Except Fault Int :=
  (Numeral.ofText radix text).map (·.value radix)

theorem bitValue_lt_two (c : Char) : bitValue c < 2 := by
  unfold bitValue
  split <;> decide

theorem radixDigit?_of_isBit {c : Char} (h : isBit c) : radixDigit? 2 c = some (bitValue c) := by
  rw [radixDigit?, digitValue?_of_isBit h, Option.filter_some,
    if_pos (decide_eq_true (bitValue_lt_two c))]

end BitAssembly.Text
