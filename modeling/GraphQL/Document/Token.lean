import GraphQL.Source.Span

/-!
# Tokens

The kinds of tokens of a document, and a token as a kind with its span and its text.
-/

namespace GraphQL

/-- The fourteen punctuators. -/
inductive Punctuator where
  | openBrace | closeBrace | openParen | closeParen | openBracket | closeBracket
  | colon | spread | equals | pipe | ampersand | atSign | bang | dollar
deriving DecidableEq, Repr

namespace Punctuator

/-- How a punctuator is written. -/
def text : Punctuator → String
  | openBrace => "\x7b"
  | closeBrace => "\x7d"
  | openParen => "("
  | closeParen => ")"
  | openBracket => "["
  | closeBracket => "]"
  | colon => ":"
  | spread => "..."
  | equals => "="
  | pipe => "|"
  | ampersand => "&"
  | atSign => "@"
  | bang => "!"
  | dollar => "$"

/-- The punctuator of a single character. -/
def ofChar? : Char → Option Punctuator
  | '\x7b' => some openBrace
  | '\x7d' => some closeBrace
  | '(' => some openParen
  | ')' => some closeParen
  | '[' => some openBracket
  | ']' => some closeBracket
  | ':' => some colon
  | '=' => some equals
  | '|' => some pipe
  | '&' => some ampersand
  | '@' => some atSign
  | '!' => some bang
  | '$' => some dollar
  | _ => none

end Punctuator

/-- The kind of a token. -/
inductive TokenKind where
  | endOfFile
  | error
  | name
  | int
  | float
  | string
  | blockString
  | punctuator (p : Punctuator)
deriving DecidableEq, Repr, Inhabited

namespace TokenKind

/-- What a kind is called. -/
def label : TokenKind → String
  | endOfFile => "<EOF>"
  | error => "<error>"
  | name => "Name"
  | int => "Int"
  | float => "Float"
  | string => "String"
  | blockString => "BlockString"
  | punctuator p => p.text

/-- How a kind is shown in a sentence: punctuators in quotes. -/
def text : TokenKind → String
  | punctuator p => "\"" ++ p.text ++ "\""
  | kind => kind.label

/-- Whether tokens of the kind are shown together with what is written. -/
def showsText : TokenKind → Bool
  | name | int | float | string | blockString => true
  | _ => false

end TokenKind

/-- A token with the characters it covers.  The span reaches one byte beyond the text exactly if the source ends
within a string right after a backslash. -/
structure Token where
  kind : TokenKind
  span : Span
  text : String
deriving DecidableEq, Repr, Inhabited

namespace Token

/-- Whether the span reaches beyond the end of the source. -/
def overruns (t : Token) : Bool := t.span.stop ≠ t.span.start + t.text.utf8ByteSize

/-- How a token is shown in a sentence. -/
def describe (t : Token) : String :=
  if t.kind.showsText then t.kind.label ++ " \"" ++ t.text ++ "\"" else t.kind.text

end Token

end GraphQL
