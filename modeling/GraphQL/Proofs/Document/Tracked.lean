import GraphQL.Proofs.Document.Reading

/-!
# Tracking the reader

`Track` is a parser that keeps a record of what it enters: every production, and every round of a loop, each with the
tokens that were left when it began and when it ended (`Step`).  The productions are read as the parser reads them, and
nothing else is done, except that a tracked production has no outcome when its fuel runs out.
-/

namespace GraphQL

open Grammar

/-- The loops of the reader. -/
inductive Loop where
  | definitions | variableDefinitions | selections | directives | arguments | listItems | objectFields
deriving DecidableEq

/-- What the reader enters: a production, or a round of a loop. -/
inductive Production where
  | definition | operation | fragment | variableDefinition | type | selectionSet | selection | field | directives
  | arguments | value | name
  | round (loop : Loop)
deriving DecidableEq

/-- A production that was entered, with the tokens that were left before and after it, the one under the cursor first. -/
structure Step where
  production : Production
  before : List Token
  after : List Token

/-- A parser that keeps a record, the last step first, and may run out of fuel. -/
abbrev Track := StateT (List Step) (OptionT Parser)

namespace Track

open GraphQL.Parser (current offset location spanFrom advance report atKind atPunctuator atEnd atKeyword unexpected
  expectPunctuator expectKeyword advanceUnlessAtEnd intLiteral stringLiteral nameLiteral operationKind?)

variable {α : Type}

/-- The tokens that are left. -/
def left : Parser (List Token) := do return (← get).tokens

/-- Records a production that is entered. -/
def within (production : Production) (p : Track α) : Track α := do
  let before ← (left : Parser (List Token))
  let x ← p
  let after ← (left : Parser (List Token))
  modify (⟨production, before, after⟩ :: ·)
  return x

/-- `Parser.name`, tracked. -/
def name : Track Name := within .name Parser.name

/-- `Parser.type`, tracked. -/
def type : (fuel : Nat) → Track TypeNode
  | 0 => failure
  | fuel + 1 => within .type do
    let core ←
      if ← atPunctuator .openBracket then
        advance
        let item ← type fuel
        expectPunctuator .closeBracket
        pure (TypeNode.list item)
      else
        pure (TypeNode.named (← name))
    if ← atPunctuator .bang then
      advance
      return .nonNull core
    else return core

mutual

/-- `Parser.value`, tracked. -/
def value (isConst : Bool) : (fuel : Nat) → Track Literal
  | 0 => failure
  | fuel + 1 => within .value do
    let t ← (current : Parser Token)
    match t.kind with
    | .punctuator .dollar =>
      if isConst then
        unexpected
        advanceUnlessAtEnd
        return .null
      else
        advance
        return .variable (← name)
    | .int =>
      let v ← (intLiteral t : Parser Literal)
      advance
      return v
    | .float =>
      advance
      return (Double.read? t.text).elim .null .float
    | .string =>
      let v ← (stringLiteral t : Parser Literal)
      advance
      return v
    | .blockString =>
      advance
      return .string (blockStringValue t.text)
    | .name =>
      advance
      return nameLiteral t.text
    | .punctuator .openBracket =>
      advance
      let items ← listItems isConst fuel
      expectPunctuator .closeBracket
      return .list items
    | .punctuator .openBrace =>
      advance
      let fields ← objectFields isConst fuel
      expectPunctuator .closeBrace
      return .object fields
    | _ =>
      unexpected
      advanceUnlessAtEnd
      return .null

/-- `Parser.listItems`, tracked. -/
def listItems (isConst : Bool) : (fuel : Nat) → Track (List Literal)
  | 0 => failure
  | fuel + 1 => do
    if (← atPunctuator .closeBracket) || (← atEnd) then return []
    else
      let item ← within (.round .listItems) (value isConst fuel)
      return item :: (← listItems isConst fuel)

/-- `Parser.objectFields`, tracked. -/
def objectFields (isConst : Bool) : (fuel : Nat) → Track (List (Name × Literal))
  | 0 => failure
  | fuel + 1 => do
    if (← atPunctuator .closeBrace) || (← atEnd) then return []
    else
      let field ← within (.round .objectFields) do
        let key ← name
        expectPunctuator .colon
        let v ← value isConst fuel
        return (key, v)
      return field :: (← objectFields isConst fuel)

end

/-- `Parser.argumentList`, tracked. -/
def argumentList : (fuel : Nat) → Track (List Argument)
  | 0 => failure
  | fuel + 1 => do
    let argument ← within (.round .arguments) do
      let start ← (offset : Parser Nat)
      let key ← name
      expectPunctuator .colon
      let v ← value false fuel
      return ⟨key, v, ← (spanFrom start : Parser Span)⟩
    if (← atPunctuator .closeParen) || (← atEnd) then return [argument]
    else return argument :: (← argumentList fuel)

/-- `Parser.arguments`, tracked. -/
def arguments (fuel : Nat) : Track (List Argument) := within .arguments do
  if ← atPunctuator .openParen then
    advance
    let args ← argumentList fuel
    expectPunctuator .closeParen
    return args
  else return []

/-- The loop of `Parser.directives`, tracked. -/
def directiveList : (fuel : Nat) → Track (List Directive)
  | 0 => failure
  | fuel + 1 => do
    if ← atPunctuator .atSign then
      let directive ← within (.round .directives) do
        let start ← (offset : Parser Nat)
        advance
        let key ← name
        let args ← arguments fuel
        return ⟨key, args, ← (spanFrom start : Parser Span)⟩
      return directive :: (← directiveList fuel)
    else return []

/-- `Parser.directives`, tracked. -/
def directives (fuel : Nat) : Track (List Directive) := within .directives (directiveList fuel)

mutual

/-- `Parser.selectionSet`, tracked. -/
def selectionSet : (fuel : Nat) → Track SelectionSet
  | 0 => failure
  | fuel + 1 => within .selectionSet do
    let start ← (offset : Parser Nat)
    expectPunctuator .openBrace
    let selections ← selectionList fuel
    expectPunctuator .closeBrace
    return ⟨selections, ← (spanFrom start : Parser Span)⟩

/-- `Parser.selectionList`, tracked. -/
def selectionList : (fuel : Nat) → Track (List Selection)
  | 0 => failure
  | fuel + 1 => do
    let s ← within (.round .selections) (selection fuel)
    if (← atPunctuator .closeBrace) || (← atEnd) then return [s]
    else return s :: (← selectionList fuel)

/-- `Parser.selection`, tracked. -/
def selection : (fuel : Nat) → Track Selection
  | 0 => failure
  | fuel + 1 => within .selection do
    let start ← (offset : Parser Nat)
    if ← atPunctuator .spread then
      advance
      if ← atKeyword "on" then
        advance
        let condition ← name
        let ds ← directives fuel
        let set ← selectionSet fuel
        return .inline ⟨some condition, ds, set, ← (spanFrom start : Parser Span)⟩
      else if (← atPunctuator .openBrace) || (← atPunctuator .atSign) then
        let ds ← directives fuel
        let set ← selectionSet fuel
        return .inline ⟨none, ds, set, ← (spanFrom start : Parser Span)⟩
      else
        let key ← name
        let ds ← directives fuel
        return .spread ⟨key, ds, ← (spanFrom start : Parser Span)⟩
    else within .field do
      let place ← (location : Parser Location)
      let first ← name
      let (aliasName, key) ←
        if ← atPunctuator .colon then
          advance
          pure (some first, ← name)
        else pure (none, first)
      let args ← arguments fuel
      let ds ← directives fuel
      let set ←
        if ← atPunctuator .openBrace then pure (some (← selectionSet fuel))
        else pure none
      return .field ⟨aliasName, key, args, ds, set, ← (spanFrom start : Parser Span), place⟩

end

/-- `Parser.variableDefinition`, tracked. -/
def variableDefinition (fuel : Nat) : Track VariableDefinition := within .variableDefinition do
  let start ← (offset : Parser Nat)
  let place ← (location : Parser Location)
  expectPunctuator .dollar
  let key ← name
  expectPunctuator .colon
  let ty ← type fuel
  let default ←
    if ← atPunctuator .equals then
      advance
      pure (some (← value true fuel))
    else pure none
  let ds ← directives fuel
  return ⟨key, ty, default, ds, ← (spanFrom start : Parser Span), place⟩

/-- `Parser.variableDefinitions`, tracked. -/
def variableDefinitions : (fuel : Nat) → Track (List VariableDefinition)
  | 0 => failure
  | fuel + 1 => do
    if (← atPunctuator .closeParen) || (← atEnd) then return []
    else
      let v ← within (.round .variableDefinitions) (variableDefinition fuel)
      return v :: (← variableDefinitions fuel)

/-- `Parser.operation`, tracked. -/
def operation (fuel : Nat) (kind : OperationKind) : Track Operation := within .operation do
  let start ← (offset : Parser Nat)
  advance
  let key ← if ← atKind .name then pure (some (← name)) else pure none
  let variableDefs ←
    if ← atPunctuator .openParen then
      advance
      let vs ← variableDefinitions fuel
      expectPunctuator .closeParen
      pure vs
    else pure []
  let ds ← directives fuel
  let set ← selectionSet fuel
  return ⟨kind, key, variableDefs, ds, set, ← (spanFrom start : Parser Span)⟩

/-- `Parser.anonymousQuery`, tracked. -/
def anonymousQuery (fuel : Nat) : Track Operation := within .operation do
  let start ← (offset : Parser Nat)
  let set ← selectionSet fuel
  return ⟨.query, none, [], [], set, ← (spanFrom start : Parser Span)⟩

/-- `Parser.fragment`, tracked. -/
def fragment (fuel : Nat) : Track Fragment := within .fragment do
  let start ← (offset : Parser Nat)
  advance
  let key ← name
  if key.value = "on" then
    report ⟨.unexpectedToken, key.span, "Unexpected Name \"on\"."⟩
  expectKeyword "on"
  let condition ← name
  let ds ← directives fuel
  let set ← selectionSet fuel
  return ⟨key, condition, ds, set, ← (spanFrom start : Parser Span)⟩

/-- `Parser.definition?`, tracked. -/
def definition? (fuel : Nat) : Track (Option Definition) := within .definition do
  let t ← (current : Parser Token)
  match t.kind with
  | .punctuator .openBrace => return some (.operation (← anonymousQuery fuel))
  | .name =>
    match operationKind? t.text with
    | some kind => return some (.operation (← operation fuel kind))
    | none =>
      if t.text = "fragment" then return some (.fragment (← fragment fuel))
      else
        unexpected
        return none
  | _ =>
    unexpected
    return none

/-- `Parser.definitions`, tracked. -/
def definitions : (fuel : Nat) → Track (List Definition)
  | 0 => failure
  | fuel + 1 => do
    if ← atEnd then return []
    else
      let d? ← within (.round .definitions) do
        match ← definition? fuel with
        | some d => return some d
        | none =>
          advance
          return none
      match d? with
      | some d => return d :: (← definitions fuel)
      | none => definitions fuel

/-- `Parser.document`, tracked. -/
def document (fuel : Nat) : Track Document := do
  let start ← (offset : Parser Nat)
  if ← atEnd then unexpected
  let ds ← definitions fuel
  return ⟨ds, ⟨start, (← (current : Parser Token)).span.stop⟩⟩

end Track

end GraphQL
