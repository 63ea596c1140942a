import GraphQL.Document.Diagnostic
import GraphQL.Document.Token

/-!
# A cursor over tokens

The reader of documents sees one token at a time and collects diagnostics.  Moving on steps over error tokens and
reports each of them, so the token under the cursor is never one.  At the end of the file the cursor stays.
-/

namespace GraphQL

/-- The token under the cursor, those after it, and the diagnostics so far, the last one first. -/
structure Cursor where
  lines : LineIndex
  current : Token
  rest : List Token
  reports : List Diagnostic

/-- A computation that moves a cursor. -/
abbrev Parser := StateM Cursor

namespace Cursor

/-- The diagnostic for an error token, by its first character. -/
def diagnoseError (t : Token) : Diagnostic :=
  match t.text.toList.head? with
  | some '"' => ⟨.unterminatedString, t.span, "Unterminated string."⟩
  | some c =>
    if c = '-' ∨ c.isDigit then ⟨.invalidNumberToken, t.span, "Invalid number \"" ++ t.text ++ "\"."⟩
    else ⟨.invalidCharacter, t.span, "Unexpected character \"" ++ t.text ++ "\"."⟩
  | none => ⟨.invalidCharacter, t.span, "Unexpected character \"\"."⟩

/-- Moves to the next token that is no error token. -/
def advanceTo : List Token → Cursor → Cursor
  | [], c => c
  | t :: rest, c =>
    if t.kind = .error then advanceTo rest { c with rest := rest, reports := diagnoseError t :: c.reports }
    else { c with current := t, rest := rest }

/-- A cursor at the first token. -/
def ofTokens (lines : LineIndex) (tokens : List Token) : Cursor :=
  advanceTo tokens ⟨lines, ⟨.endOfFile, .empty 0, ""⟩, tokens, []⟩

end Cursor

namespace Parser

/-- The token under the cursor. -/
def current : Parser Token := do return (← get).current

/-- The offset at which the token under the cursor starts. -/
def offset : Parser Nat := do return (← current).span.start

/-- The location at which the token under the cursor starts. -/
def location : Parser Location := do
  let c ← get
  return c.lines.location c.current.span.start

/-- The span from an offset up to the token under the cursor. -/
def spanFrom (start : Nat) : Parser Span := do return ⟨start, ← offset⟩

/-- Moves on by one token. -/
def advance : Parser Unit := modify fun c => c.advanceTo c.rest

/-- Adds a diagnostic. -/
def report (d : Diagnostic) : Parser Unit := modify fun c => { c with reports := d :: c.reports }

/-- Whether the token under the cursor has a kind. -/
def atKind (kind : TokenKind) : Parser Bool := do return (← current).kind = kind

/-- Whether a punctuator is under the cursor. -/
def atPunctuator (p : Punctuator) : Parser Bool := atKind (.punctuator p)

/-- Whether the end of the file is under the cursor. -/
def atEnd : Parser Bool := atKind .endOfFile

/-- Whether the name under the cursor is the given one. -/
def atKeyword (word : String) : Parser Bool := do
  let t ← current
  return t.kind = .name ∧ t.text = word

/-- Reports that the token under the cursor has no place here. -/
def unexpected : Parser Unit := do
  let t ← current
  report ⟨.unexpectedToken, t.span, "Unexpected " ++ t.describe ++ "."⟩

/-- Reports that something else than the token under the cursor was due. -/
def expected (what : String) : Parser Unit := do
  let t ← current
  let problem := if t.kind = .endOfFile then .unexpectedEnd else .unexpectedToken
  report ⟨problem, t.span, "Expected " ++ what ++ ", found " ++ t.describe ++ "."⟩

/-- Steps over a punctuator, or reports that it is missing and stays. -/
def expectPunctuator (p : Punctuator) : Parser Unit := do
  if ← atPunctuator p then advance else expected (TokenKind.punctuator p).text

/-- Steps over a word, or reports that it is missing and stays. -/
def expectKeyword (word : String) : Parser Unit := do
  if ← atKeyword word then advance else expected ("\"" ++ word ++ "\"")

/-- Moves on unless the file has ended. -/
def advanceUnlessAtEnd : Parser Unit := do
  if ← atEnd then pure () else advance

end Parser

end GraphQL
