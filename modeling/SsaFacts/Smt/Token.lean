import SsaFacts.Text.Runs

/-! The tokens of a solver's replies, which are read line by line. -/
namespace SsaFacts.Smt

inductive Token
  | opening
  | closing
  | symbol (text : String)
  | string (text : String)
  deriving DecidableEq, Repr

namespace Token

/-- The characters that continue a symbol outside bars. Any character that means nothing else starts
one. -/
def continuesSymbol (c : Char) : Bool :=
  Text.isAlphanumeric c || "~!@$%^&*_-+=<>.?/".toList.contains c

/-- What a line is in the middle of. What was read of a symbol or a string is reversed. -/
inductive Mode
  | between
  /-- In a symbol, and whether between bars. Bars are part of the symbol. -/
  | symbol (barred : Bool) (held : List Char)
  /-- In a string. The quotes are not part of it. -/
  | string (held : List Char)
  /-- Behind a backslash in a string. The backslash is part of the string. -/
  | escaped (held : List Char)
  | comment
  deriving DecidableEq

namespace Mode

def ofReversed (held : List Char) : String := String.ofList held.reverse

/-- The effect of a character that stands between tokens. -/
def start (c : Char) : List Token × Mode :=
  if c = '(' then ([.opening], between)
  else if c = ')' then ([.closing], between)
  else if c = '"' then ([], string [])
  else if c = ';' then ([], comment)
  else if Text.isBlank c then ([], between)
  else ([], symbol (c = '|') [c])

/-- The effect of a character: the tokens that it ends or is, and the mode behind it. -/
def next (c : Char) : Mode → List Token × Mode
  | between => start c
  | comment => ([], comment)
  | escaped held => ([], string (c :: held))
  | string held =>
    if c = '"' then ([.string (ofReversed held)], between)
    else if c = '\\' then ([], escaped (c :: held))
    else ([], string (c :: held))
  | symbol barred held =>
    if c = '|' then ([], symbol (!barred) (c :: held))
    else if barred || continuesSymbol c then ([], symbol barred (c :: held))
    else
      let (tokens, mode) := start c
      (.symbol (ofReversed held) :: tokens, mode)

def finish : Mode → List Token
  | between | comment => []
  | symbol _ held => [.symbol (ofReversed held)]
  | string held | escaped held => [.string (ofReversed held)]

end Mode

def scan (mode : Mode) : List Char → List Token
  | [] => mode.finish
  | c :: cs =>
    let (tokens, mode) := mode.next c
    tokens ++ scan mode cs

def ofLine (line : String) : List Token := scan .between line.toList

end Token
end SsaFacts.Smt
