import LoxLang.Value
/-!
# Tokens

A token is a kind, the text it was read from, its literal and its line.
-/

namespace LoxLang

/-- The reserved words. -/
inductive Keyword where
  | andWord
  | classWord
  | elseWord
  | falseWord
  | funWord
  | forWord
  | ifWord
  | nilWord
  | orWord
  | printWord
  | returnWord
  | superWord
  | thisWord
  | trueWord
  | varWord
  | whileWord
  deriving DecidableEq

namespace Keyword

/-- All reserved words. -/
def all : List Keyword :=
  [.andWord, .classWord, .elseWord, .falseWord, .funWord, .forWord, .ifWord, .nilWord, .orWord,
   .printWord, .returnWord, .superWord, .thisWord, .trueWord, .varWord, .whileWord]

/-- The spelling of a reserved word. -/
def text : Keyword → String
  | andWord => "and"
  | classWord => "class"
  | elseWord => "else"
  | falseWord => "false"
  | funWord => "fun"
  | forWord => "for"
  | ifWord => "if"
  | nilWord => "nil"
  | orWord => "or"
  | printWord => "print"
  | returnWord => "return"
  | superWord => "super"
  | thisWord => "this"
  | trueWord => "true"
  | varWord => "var"
  | whileWord => "while"

/-- The reserved word with a spelling. -/
def ofText? (text : String) : Option Keyword := all.find? (·.text == text)

/-- No two reserved words are spelled alike. -/
theorem ofText?_text (word : Keyword) : ofText? word.text = some word := by
  cases word <;> decide

end Keyword

/-- The kinds of tokens. -/
inductive Kind where
  | leftParen
  | rightParen
  | leftBrace
  | rightBrace
  | comma
  | dot
  | minus
  | plus
  | semicolon
  | slash
  | star
  | bang
  | bangEqual
  | equal
  | equalEqual
  | greater
  | greaterEqual
  | less
  | lessEqual
  | identifier
  | string
  | number
  | keyword (word : Keyword)
  | eof
  deriving DecidableEq

namespace Kind

/-- The name of a kind in a token listing. -/
def name : Kind → String
  | leftParen => "LEFT_PAREN"
  | rightParen => "RIGHT_PAREN"
  | leftBrace => "LEFT_BRACE"
  | rightBrace => "RIGHT_BRACE"
  | comma => "COMMA"
  | dot => "DOT"
  | minus => "MINUS"
  | plus => "PLUS"
  | semicolon => "SEMICOLON"
  | slash => "SLASH"
  | star => "STAR"
  | bang => "BANG"
  | bangEqual => "BANG_EQUAL"
  | equal => "EQUAL"
  | equalEqual => "EQUAL_EQUAL"
  | greater => "GREATER"
  | greaterEqual => "GREATER_EQUAL"
  | less => "LESS"
  | lessEqual => "LESS_EQUAL"
  | identifier => "IDENTIFIER"
  | string => "STRING"
  | number => "NUMBER"
  | keyword word => String.ofList (word.text.toList.map Char.toUpper)
  | eof => "EOF"

/-- All kinds but those of reserved words. -/
def plain : List Kind :=
  [.leftParen, .rightParen, .leftBrace, .rightBrace, .comma, .dot, .minus, .plus, .semicolon,
   .slash, .star, .bang, .bangEqual, .equal, .equalEqual, .greater, .greaterEqual, .less,
   .lessEqual, .identifier, .string, .number, .eof]

/-- All kinds. -/
def all : List Kind := plain ++ Keyword.all.map keyword

/-- The kind of a name. -/
def ofName? (name : String) : Option Kind := all.find? (·.name == name)

end Kind

/-- A token. A token without a literal has the literal `nil`. -/
structure Token where
  kind : Kind
  lexeme : String
  literal : Value
  line : Int
  deriving DecidableEq

namespace Token

/-- The line of a token listing. -/
def text (t : Token) : String :=
  t.kind.name ++ " " ++ t.lexeme ++ " " ++ t.literal.bareText ++ " " ++ intText t.line

/-- Whether two tokens agree in kind, text, literal and line. -/
def agrees (t u : Token) : Bool :=
  t.kind == u.kind && t.lexeme == u.lexeme && t.literal.matchesLiteral u.literal && t.line == u.line

/-- For each token of a list, whether it equals the first. A token equals itself, also where its
literal is not a number and so differs from every literal. -/
def agreesWithFirst : List Token → List Bool
  | [] => []
  | t :: ts => true :: ts.map t.agrees

end Token

end LoxLang
