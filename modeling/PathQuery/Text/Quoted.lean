import PathQuery.Text.Printable

/-! Quoted texts, as messages show them: a quote on either side, and an escape for the quote, the
backslash and every character that does not print. -/
namespace PathQuery.Text

def hexDigit (n : Nat) : Char :=
  if n < 10 then Char.ofNat (n + 48) else Char.ofNat (n + 87)

def hex : Nat → Nat → List Char
  | 0, _ => []
  | width + 1, n => hex width (n / 16) ++ [hexDigit (n % 16)]

def quoteFor (s : List Char) : Char :=
  if s.contains '\'' && !s.contains '"' then '"' else '\''

def escapeIn (quote c : Char) : List Char :=
  if c == quote || c == '\\' then ['\\',c]
  else if c == '\n' then ['\\','n']
  else if c == '\r' then ['\\','r']
  else if c == '\t' then ['\\','t']
  else if isPrintable c then [c]
  else if c.toNat < 0x100 then ['\\','x'] ++ hex 2 c.toNat
  else if c.toNat < 0x10000 then ['\\','u'] ++ hex 4 c.toNat
  else ['\\','U'] ++ hex 8 c.toNat

def quoted (s : List Char) : List Char :=
  let quote := quoteFor s
  quote :: s.flatMap (escapeIn quote) ++ [quote]

end PathQuery.Text
