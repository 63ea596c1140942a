import GraphQL.Error

/-!
# Diagnostics

What the reader of documents finds wrong with a source: a kind of problem, the span at fault and a sentence.
Every diagnostic has one label.
-/

namespace GraphQL

/-- What kind of problem a diagnostic reports. -/
inductive Problem where
  | unexpectedToken
  | unexpectedEnd
  | invalidCharacter
  | invalidEscape
  | invalidNumberToken
  | intOutOfRange
  | unterminatedString
deriving DecidableEq, Repr

namespace Problem

/-- The code under which a problem is reported. -/
def code : Problem → String
  | unexpectedToken => "E0001"
  | unexpectedEnd => "E0002"
  | invalidCharacter => "E0003"
  | invalidEscape => "E0003"
  | invalidNumberToken => "E0004"
  | intOutOfRange => "E0004"
  | unterminatedString => "E0005"

/-- The heading of a problem. -/
def title : Problem → String
  | unexpectedToken => "unexpected token"
  | unexpectedEnd => "unexpected token"
  | invalidCharacter => "invalid token"
  | invalidEscape => "invalid string"
  | invalidNumberToken => "invalid token"
  | intOutOfRange => "invalid number"
  | unterminatedString => "invalid token"

end Problem

/-- A problem at a span. -/
structure Diagnostic where
  problem : Problem
  span : Span
  message : String
deriving DecidableEq, Repr

namespace Diagnostic

/-- The error that a client gets for a diagnostic: its sentence, located where the span starts. -/
def toError (lines : LineIndex) (d : Diagnostic) : Error where
  message := s!"Syntax Error: {d.message}"
  locations := [lines.location d.span.start]

/-- The errors that a client gets for the diagnostics of a source. -/
def toErrors (source : String) (ds : List Diagnostic) : List Error :=
  ds.map (toError (LineIndex.ofSource source))

end Diagnostic

end GraphQL
