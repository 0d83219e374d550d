/-!
# Tokens and rejected text

A token is a lexeme with its class, the line it starts on and the UTF-8 byte span
it covers. Text that forms no token is reported with a cause and the same position.

* `Token.display`, `Rejection.display`: the written form of each.
* `Token.endOfInput`: the marker that stands behind the last token.
-/

namespace OnePass.Lexical

/-- Token classes. A number or identifier stands for its class, a keyword or symbol for itself. -/
inductive TokenKind where
  | number
  | identifier
  | keyword
  | symbol
  | endOfInput
deriving DecidableEq, Inhabited

def TokenKind.name : TokenKind → String
  | .number => "NUM"
  | .identifier => "ID"
  | .keyword => "KEYWORD"
  | .symbol => "SYMBOL"
  | .endOfInput => "EOF"

/-- A token with the bytes from `start` up to `stop` that it covers. -/
structure Token where
  kind : TokenKind
  lexeme : String
  line : Nat
  start : Nat
  stop : Nat
deriving DecidableEq, Inhabited

namespace Token

/-- The end marker after a text whose last line is `line` and whose length is `offset`. -/
def endOfInput (line offset : Nat) : Token := ⟨.endOfInput, "$", line, offset, offset⟩

def isEndOfInput (t : Token) : Bool := t.kind == .endOfInput

/-- Whether the token is a word of the program, one that names a symbol row. -/
def isWord (t : Token) : Bool := t.kind == .identifier || t.kind == .keyword

def display (t : Token) : String :=
  if t.isEndOfInput then "$" else s!"({t.kind.name}, {t.lexeme})"

/-- What the token is called in a complaint: its class if the class is all that counts. -/
def className (t : Token) : String :=
  match t.kind with
  | .identifier | .number => t.kind.name
  | _ => t.lexeme

end Token

/-- Why a piece of text is no token. -/
inductive LexicalFault where
  /-- A character that starts no token, or that may not follow a word. -/
  | invalidInput
  /-- A number run into a letter, with a fraction, or beyond 64 bits. -/
  | invalidNumber
  /-- A block comment that the text never closes. -/
  | unclosedComment
  /-- A closing mark outside a comment. -/
  | unmatchedComment
deriving DecidableEq

def LexicalFault.name : LexicalFault → String
  | .invalidInput => "Invalid input"
  | .invalidNumber => "Invalid number"
  | .unclosedComment => "Unclosed comment"
  | .unmatchedComment => "Unmatched comment"

/-- A rejected piece of text. The lexeme of an unclosed comment is shortened. -/
structure Rejection where
  fault : LexicalFault
  lexeme : String
  line : Nat
  start : Nat
  stop : Nat
deriving DecidableEq

def Rejection.display (e : Rejection) : String := s!"({e.lexeme}, {e.fault.name})"

end OnePass.Lexical
