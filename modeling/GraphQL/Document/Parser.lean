import GraphQL.Document.Basic
import GraphQL.Document.Cursor
import GraphQL.Document.Lexer
import GraphQL.Document.StringLiteral
import GraphQL.Number.Range

/-!
# Reading documents

A recursive descent over the tokens that goes on after an error: a token that is missing is reported and taken as
there, and one that has no place is reported and skipped.  So every round of a loop and every descent either takes
a token or stands at the end of the file, and the number of nested steps is bounded by the number of tokens: the
`fuel` below is computed from it and never runs out.

`parse?` has no answer for one kind of source, that in which a string is cut off right after a backslash: the span
of that error token reaches beyond the source, so there is no text to report.
-/

namespace GraphQL

namespace Parser

/-- Reads a name.  What stands in its place is reported and skipped, and the name is empty. -/
def name : Parser Name := do
  let t ← current
  if t.kind = .name then
    advance
    return ⟨t.text, t.span⟩
  else
    expected TokenKind.name.label
    advanceUnlessAtEnd
    return ⟨"", t.span⟩

/-- Reads a type. -/
def type : (fuel : Nat) → Parser TypeNode
  | 0 => return default
  | fuel + 1 => do
    let core ←
      if ← atPunctuator .openBracket then
        advance
        let item ← type fuel
        expectPunctuator .closeBracket
        pure (TypeNode.list item)
      else
        pure (TypeNode.named (← name))
    if ← atPunctuator .bang then
      advance
      return .nonNull core
    else return core

/-- The integer of an integer token. -/
def intOfText (text : String) : Int :=
  match text.toList with
  | '-' :: digits => -(Double.natOfDigits digits : Int)
  | digits => Double.natOfDigits digits

/-- Reads an integer token.  Beyond 64 bits it is reported and taken as null. -/
def intLiteral (t : Token) : Parser Literal := do
  let i := intOfText t.text
  if IntRange.int64.holds i then return .int i
  else
    report ⟨.intOutOfRange, t.span, "Int cannot represent value: " ++ t.text ++ "."⟩
    return .null

/-- Reads a quoted string token.  An invalid escape is reported and the value taken as null. -/
def stringLiteral (t : Token) : Parser Literal := do
  match stringValue? t.text with
  | some value => return .string value
  | none =>
    report ⟨.invalidEscape, t.span, "Invalid character escape sequence."⟩
    return .null

/-- The value of a name token. -/
def nameLiteral (text : String) : Literal :=
  if text = "true" then .bool true
  else if text = "false" then .bool false
  else if text = "null" then .null
  else .enumValue text

mutual

/-- Reads a value; variables have a place only where the value need not be constant. -/
def value (isConst : Bool) : (fuel : Nat) → Parser Literal
  | 0 => return default
  | fuel + 1 => do
    let t ← current
    match t.kind with
    | .punctuator .dollar =>
      if isConst then
        unexpected
        advanceUnlessAtEnd
        return .null
      else
        advance
        return .variable (← name)
    | .int =>
      let v ← intLiteral t
      advance
      return v
    | .float =>
      advance
      return (Double.read? t.text).elim .null .float
    | .string =>
      let v ← stringLiteral t
      advance
      return v
    | .blockString =>
      advance
      return .string (blockStringValue t.text)
    | .name =>
      advance
      return nameLiteral t.text
    | .punctuator .openBracket =>
      advance
      let items ← listItems isConst fuel
      expectPunctuator .closeBracket
      return .list items
    | .punctuator .openBrace =>
      advance
      let fields ← objectFields isConst fuel
      expectPunctuator .closeBrace
      return .object fields
    | _ =>
      unexpected
      advanceUnlessAtEnd
      return .null

/-- Reads values up to a closing bracket or the end. -/
def listItems (isConst : Bool) : (fuel : Nat) → Parser (List Literal)
  | 0 => return []
  | fuel + 1 => do
    if (← atPunctuator .closeBracket) || (← atEnd) then return []
    else
      let item ← value isConst fuel
      return item :: (← listItems isConst fuel)

/-- Reads named values up to a closing brace or the end. -/
def objectFields (isConst : Bool) : (fuel : Nat) → Parser (List (Name × Literal))
  | 0 => return []
  | fuel + 1 => do
    if (← atPunctuator .closeBrace) || (← atEnd) then return []
    else
      let key ← name
      expectPunctuator .colon
      let v ← value isConst fuel
      return (key, v) :: (← objectFields isConst fuel)

end

/-- Reads at least one argument, up to a closing parenthesis or the end. -/
def argumentList : (fuel : Nat) → Parser (List Argument)
  | 0 => return []
  | fuel + 1 => do
    let start ← offset
    let key ← name
    expectPunctuator .colon
    let v ← value false fuel
    let argument : Argument := ⟨key, v, ← spanFrom start⟩
    if (← atPunctuator .closeParen) || (← atEnd) then return [argument]
    else return argument :: (← argumentList fuel)

/-- Reads the arguments in parentheses, if there are any. -/
def arguments (fuel : Nat) : Parser (List Argument) := do
  if ← atPunctuator .openParen then
    advance
    let args ← argumentList fuel
    expectPunctuator .closeParen
    return args
  else return []

/-- Reads directives as long as there are any. -/
def directives : (fuel : Nat) → Parser (List Directive)
  | 0 => return []
  | fuel + 1 => do
    if ← atPunctuator .atSign then
      let start ← offset
      advance
      let key ← name
      let args ← arguments fuel
      let directive : Directive := ⟨key, args, ← spanFrom start⟩
      return directive :: (← directives fuel)
    else return []

mutual

/-- Reads a selection set with its braces. -/
def selectionSet : (fuel : Nat) → Parser SelectionSet
  | 0 => return default
  | fuel + 1 => do
    let start ← offset
    expectPunctuator .openBrace
    let selections ← selectionList fuel
    expectPunctuator .closeBrace
    return ⟨selections, ← spanFrom start⟩

/-- Reads at least one selection, up to a closing brace or the end. -/
def selectionList : (fuel : Nat) → Parser (List Selection)
  | 0 => return []
  | fuel + 1 => do
    let s ← selection fuel
    if (← atPunctuator .closeBrace) || (← atEnd) then return [s]
    else return s :: (← selectionList fuel)

/-- Reads a field, a fragment spread or an inline fragment. -/
def selection : (fuel : Nat) → Parser Selection
  | 0 => return default
  | fuel + 1 => do
    let start ← offset
    if ← atPunctuator .spread then
      advance
      if ← atKeyword "on" then
        advance
        let condition ← name
        let ds ← directives fuel
        let set ← selectionSet fuel
        return .inline ⟨some condition, ds, set, ← spanFrom start⟩
      else if (← atPunctuator .openBrace) || (← atPunctuator .atSign) then
        let ds ← directives fuel
        let set ← selectionSet fuel
        return .inline ⟨none, ds, set, ← spanFrom start⟩
      else
        let key ← name
        let ds ← directives fuel
        return .spread ⟨key, ds, ← spanFrom start⟩
    else
      let place ← location
      let first ← name
      let (aliasName, key) ←
        if ← atPunctuator .colon then
          advance
          pure (some first, ← name)
        else pure (none, first)
      let args ← arguments fuel
      let ds ← directives fuel
      let set ←
        if ← atPunctuator .openBrace then pure (some (← selectionSet fuel))
        else pure none
      return .field ⟨aliasName, key, args, ds, set, ← spanFrom start, place⟩

end

/-- Reads the declaration of a variable. -/
def variableDefinition (fuel : Nat) : Parser VariableDefinition := do
  let start ← offset
  let place ← location
  expectPunctuator .dollar
  let key ← name
  expectPunctuator .colon
  let ty ← type fuel
  let default ←
    if ← atPunctuator .equals then
      advance
      pure (some (← value true fuel))
    else pure none
  let ds ← directives fuel
  return ⟨key, ty, default, ds, ← spanFrom start, place⟩

/-- Reads declarations of variables up to a closing parenthesis or the end. -/
def variableDefinitions : (fuel : Nat) → Parser (List VariableDefinition)
  | 0 => return []
  | fuel + 1 => do
    if (← atPunctuator .closeParen) || (← atEnd) then return []
    else
      let v ← variableDefinition fuel
      return v :: (← variableDefinitions fuel)

/-- The kind of operation that a keyword opens. -/
def operationKind? (word : String) : Option OperationKind :=
  if word = "query" then some .query
  else if word = "mutation" then some .mutation
  else if word = "subscription" then some .subscription
  else none

/-- Reads an operation that starts with its keyword. -/
def operation (fuel : Nat) (kind : OperationKind) : Parser Operation := do
  let start ← offset
  advance
  let key ← if ← atKind .name then pure (some (← name)) else pure none
  let variableDefs ←
    if ← atPunctuator .openParen then
      advance
      let vs ← variableDefinitions fuel
      expectPunctuator .closeParen
      pure vs
    else pure []
  let ds ← directives fuel
  let set ← selectionSet fuel
  return ⟨kind, key, variableDefs, ds, set, ← spanFrom start⟩

/-- Reads a query that is a selection set alone. -/
def anonymousQuery (fuel : Nat) : Parser Operation := do
  let start ← offset
  let set ← selectionSet fuel
  return ⟨.query, none, [], [], set, ← spanFrom start⟩

/-- Reads a fragment that starts with its keyword. -/
def fragment (fuel : Nat) : Parser Fragment := do
  let start ← offset
  advance
  let key ← name
  if key.value = "on" then
    report ⟨.unexpectedToken, key.span, "Unexpected Name \"on\"."⟩
  expectKeyword "on"
  let condition ← name
  let ds ← directives fuel
  let set ← selectionSet fuel
  return ⟨key, condition, ds, set, ← spanFrom start⟩

/-- Reads a definition, or reports a token that opens none and stays. -/
def definition? (fuel : Nat) : Parser (Option Definition) := do
  let t ← current
  match t.kind with
  | .punctuator .openBrace => return some (.operation (← anonymousQuery fuel))
  | .name =>
    match operationKind? t.text with
    | some kind => return some (.operation (← operation fuel kind))
    | none =>
      if t.text = "fragment" then return some (.fragment (← fragment fuel))
      else
        unexpected
        return none
  | _ =>
    unexpected
    return none

/-- Reads definitions up to the end, and skips tokens that open none. -/
def definitions : (fuel : Nat) → Parser (List Definition)
  | 0 => return []
  | fuel + 1 => do
    if ← atEnd then return []
    else
      match ← definition? fuel with
      | some d => return d :: (← definitions fuel)
      | none =>
        advance
        definitions fuel

/-- Reads a document, which has at least one token. -/
def document (fuel : Nat) : Parser Document := do
  let start ← offset
  if ← atEnd then unexpected
  let ds ← definitions fuel
  return ⟨ds, ⟨start, (← current).span.stop⟩⟩

end Parser

/-- A document as far as it could be read, and what was wrong with its source. -/
structure ParseResult where
  document : Document
  diagnostics : List Diagnostic
deriving Repr

namespace ParseResult

/-- The document, or the errors for a client if there was anything wrong. -/
def toExcept (source : String) (r : ParseResult) : Except (List Error) Document :=
  if r.diagnostics.isEmpty then .ok r.document
  else .error (Diagnostic.toErrors source r.diagnostics)

end ParseResult

namespace Document

/-- Reads the document that tokens form. -/
def ofTokens (lines : LineIndex) (tokens : List Token) : ParseResult :=
  let (document, cursor) := (Parser.document (4 * tokens.length + 16)).run (.ofTokens lines tokens)
  ⟨document, cursor.reports.reverse⟩

/-- Reads a source.  There is no answer if it ends within a string right after a backslash. -/
def parse? (source : String) : Option ParseResult :=
  let tokens := tokenize source
  if tokens.any Token.overruns then none
  else some (ofTokens (LineIndex.ofSource source) tokens)

end Document

end GraphQL
