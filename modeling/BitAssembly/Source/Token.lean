import BitAssembly.Fault
import BitAssembly.Source.Code
import BitAssembly.Text.Blank
import BitAssembly.Text.Quoted

/-!
# Tokens of a source text

A source is cut in one pass.  A digit, a closing bracket or a comparison sign
is a token of its own, `IF` has two letters, and every other token is the next
three characters.  Comments stand between semicolons.  A quotation mark after
an immediate display opens a text, which becomes tokens of its own when the
same mark closes it.
-/

namespace BitAssembly.Source

open BitAssembly.Text

inductive Mode where
  | code
  | comment
  /-- Inside a text opened by `mark`; `chars` holds the newest character first. -/
  | text (mark : Char) (chars : List Char)
deriving DecidableEq, Repr

structure Scan where
  mode : Mode
  /-- Characters of the current token that are still to be passed over. -/
  pending : Nat
  escaped : Bool
  tokens : List Token
deriving DecidableEq, Repr

def Scan.start : Scan :=
  ⟨.code, 0, false, []⟩

/-- Round brackets and the opening square one carry no meaning and are left out before cutting. -/
def isGrouping (c : Char) : Bool :=
  c == '[' || c == '(' || c == ')'

def singles : List Char :=
  "0123456789abcdef]=<>!".toList

def isQuote (c : Char) : Bool :=
  c == '\x22' || c == '\x27'

/-- The character that a key after a backslash stands for; an unknown key stands
for the replacement character. -/
def unescape : Char → Char
  | 'n' => '\n'
  | 'r' => '\r'
  | 't' => '\t'
  | '\\' => '\\'
  | '\x27' => '\x27'
  | '\x22' => '\x22'
  | 'a' => '\x07'
  | 'b' => '\x08'
  | 'f' => '\x0c'
  | 'v' => '\x0b'
  | _ => '\ufffd'

def byteTokens (byte : UInt8) : List Token :=
  (hexWidth 2 byte.toNat).map fun digit => [digit]

def textLimit : Nat := 65535

/-- The tokens of a quoted text.  The basic edition displays each character by
itself; the extended edition writes the number of bytes, then the bytes. -/
def textTokens (edition : Edition) (chars : List Char) : Except Fault (List Token) :=
  match edition with
  | .basic =>
      .ok (chars.flatMap fun c => "DPI".toList :: (String.utf8EncodeChar c).flatMap byteTokens)
  | .extended =>
      let bytes := chars.flatMap String.utf8EncodeChar
      if textLimit < bytes.length then .error .longText
      else
        let size := (hexWidth 4 bytes.length).map fun digit => [digit]
        .ok ("DPM".toList :: size ++ bytes.flatMap byteTokens)

def Scan.cut (scan : Scan) (c : Char) (rest : List Char) : Except Fault Scan :=
  if isBlank c then .ok scan
  else if c ∈ singles then .ok { scan with tokens := [c] :: scan.tokens }
  else if isQuote c then
    match scan.tokens with
    | [] => .error .leadingQuote
    | token :: before =>
        if token = "DPI".toList then .ok { scan with mode := .text c [], tokens := before }
        else .error .unexpectedQuote
  else if c = 'I' ∧ rest.head? = some 'F' then
    .ok { scan with pending := 1, tokens := ['I', 'F'] :: scan.tokens }
  else .ok { scan with pending := 2, tokens := (c :: rest.take 2) :: scan.tokens }

def Scan.step (edition : Edition) (scan : Scan) (c : Char) (rest : List Char) :
    Except Fault Scan :=
  match scan.mode with
  | .text mark chars =>
      if c = mark then do
        let added ← textTokens edition chars.reverse
        .ok { scan with mode := .code, tokens := added.reverse ++ scan.tokens }
      else if c = '\\' then .ok { scan with escaped := true }
      else if scan.escaped then
        .ok { scan with mode := .text mark (unescape c :: chars), escaped := false }
      else .ok { scan with mode := .text mark (c :: chars) }
  | .comment => .ok (if c = ';' then { scan with mode := .code } else scan)
  | .code =>
      if c = ';' then .ok { scan with mode := .comment }
      else if 0 < scan.pending then .ok { scan with pending := scan.pending - 1 }
      else scan.cut c rest

def Scan.run (edition : Edition) (scan : Scan) : List Char → Except Fault Scan
  | [] => .ok scan
  | c :: rest =>
      match scan.step edition c rest with
      | .error fault => .error fault
      | .ok next => next.run edition rest

def unclosedReport : String :=
  "Unclosed comment: please ensure all comments are closed correctly and try again\n"

def tokenize (edition : Edition) (source : List Char) : Except Fault (Option (List Token)) := do
  let scan ← Scan.start.run edition (source.filter fun c => !isGrouping c)
  if scan.mode = .comment then return none
  return some scan.tokens.reverse

end BitAssembly.Source
