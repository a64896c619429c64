import FilterQuery.Operator

/-!
# Token — the words of a query
-/

namespace FilterQuery

/-- The kinds of literal that are one token. -/
inductive Literal where
  | number
  | string
  | true
  | false
  | null
  deriving DecidableEq, Inhabited

/-- Brackets and marks. -/
inductive Punct where
  | openParen
  | closeParen
  | openBrace
  | closeBrace
  | openBracket
  | closeBracket
  | comma
  | colon
  | period
  deriving DecidableEq, Inhabited

namespace Punct

/-- The character of a mark. -/
def char : Punct → Char
  | openParen => '('
  | closeParen => ')'
  | openBrace => '\x7b'
  | closeBrace => '\x7d'
  | openBracket => '['
  | closeBracket => ']'
  | comma => ','
  | colon => ':'
  | period => '.'

/-- All marks. -/
def all : List Punct :=
  [openParen, closeParen, openBrace, closeBrace, openBracket, closeBracket, comma, colon, period]

/-- The mark that a character is. -/
def ofChar? (c : Char) : Option Punct :=
  all.find? fun p => p.char == c

/-- **Marks and their characters determine each other.** -/
theorem ofChar?_eq_some_iff (c : Char) (p : Punct) : ofChar? c = some p ↔ p.char = c := by
  constructor
  · intro h
    simpa using List.find?_some h
  · rintro rfl
    cases p <;> decide

end Punct

namespace Token

/-- What a token is, apart from its spelling. -/
inductive Kind where
  | literal (l : Literal)
  | segment
  | connector (op : Connector)
  | comparator (op : Comparator)
  | punct (p : Punct)
  | endOfInput
  deriving DecidableEq, Inhabited

namespace Kind

/-- `text` in single quotes. -/
def quoted (text : String) : String :=
  "'" ++ text ++ "'"

/-- The name of a kind in an error message. -/
def describe : Kind → String
  | literal .number => "number"
  | literal .string => "string"
  | literal .true => quoted "true"
  | literal .false => quoted "false"
  | literal .null => quoted "null"
  | segment => "path segment"
  | connector op => quoted op.symbol
  | comparator op => quoted op.symbol
  | punct p => quoted p.char.toString
  | endOfInput => "end of input"

/-- All kinds. -/
def all : List Kind :=
  [.number, .string, .true, .false, .null].map literal ++ [segment] ++
    [.and, .or].map connector ++ Comparator.all.map comparator ++ Punct.all.map punct ++
    [endOfInput]

/-- The kind of a given name. -/
def ofDescription? (text : String) : Option Kind :=
  all.find? fun kind => kind.describe == text

end Kind

end Token

/-- A lexeme with its kind and the byte offset at which it starts. -/
structure Token where
  kind : Token.Kind
  lexeme : String
  offset : Nat
  deriving DecidableEq, Inhabited

/-- The byte offset just after a token. -/
def Token.stop (t : Token) : Nat :=
  t.offset + t.lexeme.utf8ByteSize

end FilterQuery
