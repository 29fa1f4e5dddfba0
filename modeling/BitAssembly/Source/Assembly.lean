import BitAssembly.Source.Token

/-!
# Assembly of a source text

Assembly concatenates the codes of the tokens.  It stops at the first token
without a code and reports it with its neighbours.
-/

namespace BitAssembly.Source

open BitAssembly.Text

inductive Assembly where
  | bits (code : List Char)
  | illegal (tokens : List Token) (index : Nat)
  | unclosed
deriving DecidableEq, Repr

/-- Curly brackets carry no meaning in the extended edition. -/
def isCurly (edition : Edition) (c : Char) : Bool :=
  edition == .extended && (c == '\x7b' || c == '\x7d')

def encodeTokens (edition : Edition) (tokens : List Token) : Except Nat (List Char) :=
  match tokens.findIdx? fun token => (code? edition token).isNone with
  | some index => .error index
  | none => .ok (tokens.flatMap fun token => (code? edition token).getD [])

def assemble (edition : Edition) (source : List Char) : Except Fault Assembly := do
  match ← tokenize edition (source.filter fun c => !isCurly edition c) with
  | none => return .unclosed
  | some tokens =>
      match encodeTokens edition tokens with
      | .ok bits => return .bits bits
      | .error index => return .illegal tokens index

def Assembly.report : Assembly → String
  | .bits _ => ""
  | .unclosed => unclosedReport
  | .illegal tokens index =>
      let nearby := (tokens.drop (index - 5)).take (min index 5 + 5)
      "COMPILATION ERROR: Illegal character '" ++ String.ofList (tokens.getD index [])
        ++ "' found at position " ++ toString index ++ "\nContext: ..."
        ++ quoteList (nearby.map String.ofList) ++ "...\n"

/-- The bits of an assembly that succeeded.  An unclosed comment leaves no tokens to encode. -/
def Assembly.bits? : Assembly → Except Fault (Option (List Char))
  | .bits code => .ok (some code)
  | .illegal _ _ => .ok none
  | .unclosed => .error .noProgram

end BitAssembly.Source
