import PathQuery.Text.Casing
import PathQuery.Text.Character

/-! The characters that the parts of a query are made of. -/
namespace PathQuery.Grammar

def isSpace (c : Char) : Bool := c == ' ' || c == '\t' || c == '\n' || c == '\r'

def letterSpans : List Text.Span :=
  [(0xC0,0xD6),(0xD8,0xF6),(0xF8,0x2FF),(0x370,0x37D),(0x37F,0x1FFF),(0x200C,0x200D),(0x2070,0x218F),
    (0x2C00,0x2FEF),(0x3001,0xD7FF),(0xF900,0xFDCF),(0xFDF0,0xFFFD),(0x10000,0xEFFFF)]

def joinerSpans : List Text.Span := [(0xB7,0xB7),(0x300,0x36F),(0x203F,0x2040)]

def isLetter (c : Char) : Bool := c.isAlpha || Text.inSpans letterSpans c

def isVarStart (c : Char) : Bool := isLetter c || c == '_' || c.isDigit

def isVarChar (c : Char) : Bool := isVarStart c || Text.inSpans joinerSpans c

def isNameChar (c : Char) : Bool := isVarChar c || c == '-'

def isLocalChar (c : Char) : Bool := isNameChar c || c == ':'

def isIriChar (c : Char) : Bool :=
  !(c.toNat ≤ 32 || c == '<' || c == '>' || c == '"' || c == '\x7b' || c == '\x7d' || c == '|' ||
    c == '^' || c.toNat == 0x60 || c == '\\')

def isFormOf (capital c : Char) : Bool := Text.upperChar c == [capital]

def isKeywordChar (c : Char) : Bool := match Text.upperChar c with
  | [d] => d.isUpper || d.isDigit || d == '_' || d == '$'
  | _ => false

end PathQuery.Grammar
