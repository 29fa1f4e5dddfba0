/-!
# Lines

A line ends with a line feed, a carriage return, or both in this order.  The
last line need not have an end.
-/

namespace BitAssembly.Text

def isLineEnd (c : Char) : Bool :=
  c == '\n' || c == '\r'

def dropLineEnd : List Char → List Char
  | '\r' :: '\n' :: rest => rest
  | '\r' :: rest => rest
  | '\n' :: rest => rest
  | text => text

def plainLineEndsOnto (before : List Char) : List Char → List Char
  | [] => before.reverse
  | '\r' :: '\n' :: rest => plainLineEndsOnto ('\n' :: before) rest
  | '\r' :: rest => plainLineEndsOnto ('\n' :: before) rest
  | c :: rest => plainLineEndsOnto (c :: before) rest

def plainLineEnds (text : List Char) : List Char :=
  plainLineEndsOnto [] text

/-- The first line without its end, and the text after it; an empty input has no line. -/
def takeLine? (input : List Char) : Option (List Char × List Char) :=
  if input.isEmpty then none
  else
    let isInside := fun c => !isLineEnd c
    some (input.takeWhile isInside, dropLineEnd (input.dropWhile isInside))

end BitAssembly.Text
