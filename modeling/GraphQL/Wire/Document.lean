import GraphQL.Document.Diagnostic
import GraphQL.Document.Basic
import GraphQL.Json.Basic

/-!
# Syntax trees in JSON

Every node of a document is written as an object with its span; a name is written as its text with both ends of its
span, and a double as its bits.  Diagnostics are written with their codes and labels.
-/

namespace GraphQL

namespace Span

/-- Both ends. -/
def toJson (s : Span) : Json := .array [.ofNat s.start, .ofNat s.stop]

end Span

namespace Location

/-- The line and the column. -/
def toPair (l : Location) : Json := .array [.ofNat l.line, .ofNat l.column]

end Location

namespace Name

/-- The text and both ends of the span. -/
def toJson (n : Name) : Json := .array [.string n.value, .ofNat n.span.start, .ofNat n.span.stop]

end Name

namespace Literal

mutual

/-- The kind of a literal with what it holds. -/
def toJson : Literal → Json
  | .variable n => .object [("var", n.toJson)]
  | .int i => .object [("int", .string (toString i))]
  | .float d => .object [("float", .string d.toHex)]
  | .string s => .object [("string", .string s)]
  | .bool b => .object [("bool", .bool b)]
  | .null => .object [("null", .bool true)]
  | .enumValue s => .object [("enum", .string s)]
  | .list items => .object [("list", .array (itemsToJson items))]
  | .object fields => .object [("object", .array (fieldsToJson fields))]

/-- The items of a list. -/
def itemsToJson : List Literal → List Json
  | [] => []
  | item :: rest => toJson item :: itemsToJson rest

/-- The fields of an object. -/
def fieldsToJson : List (Name × Literal) → List Json
  | [] => []
  | (name, value) :: rest => .array [name.toJson, toJson value] :: fieldsToJson rest

end

end Literal

namespace Argument

/-- An argument, and whether it holds no variable. -/
def toJson (a : Argument) : Json :=
  .object [("name", a.name.toJson), ("value", a.value.toJson), ("const", .bool a.value.isConst),
    ("span", a.span.toJson)]

end Argument

namespace Directive

/-- A directive with its arguments. -/
def toJson (d : Directive) : Json :=
  .object [("name", d.name.toJson), ("args", .ofList Argument.toJson d.arguments), ("span", d.span.toJson)]

end Directive

/-- Selections between braces, from those that are written. -/
def Json.ofSelectionSet (selections : List Json) (span : Span) : Json :=
  .object [("selections", .array selections), ("span", span.toJson)]

namespace Selection

mutual

/-- A selection with what lies below it. -/
def toJson : Selection → Json
  | .field ⟨aliasName, name, arguments, directives, set, span, location⟩ =>
    .object [("field", name.toJson), ("alias", .ofOption Name.toJson aliasName),
      ("key", .string (aliasName.getD name).value), ("args", .ofList Argument.toJson arguments),
      ("directives", .ofList Directive.toJson directives),
      ("set", match set with
        | some ⟨selections, span⟩ => .ofSelectionSet (listToJson selections) span
        | none => .null),
      ("span", span.toJson), ("at", location.toPair)]
  | .spread ⟨name, directives, span⟩ =>
    .object [("spread", name.toJson), ("directives", .ofList Directive.toJson directives), ("span", span.toJson)]
  | .inline ⟨condition, directives, ⟨selections, inner⟩, span⟩ =>
    .object [("inline", .ofOption Name.toJson condition), ("directives", .ofList Directive.toJson directives),
      ("set", .ofSelectionSet (listToJson selections) inner), ("span", span.toJson)]

/-- Selections in their order. -/
def listToJson : List Selection → List Json
  | [] => []
  | selection :: rest => toJson selection :: listToJson rest

end

end Selection

namespace VariableDefinition

/-- A variable with its type and default. -/
def toJson (v : VariableDefinition) : Json :=
  .object [("name", v.name.toJson), ("type", .string v.type.text), ("named", v.type.innermost.toJson),
    ("nonNull", .bool v.type.isNonNull), ("default", .ofOption Literal.toJson v.default),
    ("directives", .ofList Directive.toJson v.directives), ("span", v.span.toJson), ("at", v.location.toPair)]

end VariableDefinition

namespace Definition

/-- An operation or a fragment. -/
def toJson : Definition → Json
  | operation o =>
    .object [("operation", .string o.kind.text), ("name", .ofOption Name.toJson o.name),
      ("variables", .ofList VariableDefinition.toJson o.variableDefs),
      ("directives", .ofList Directive.toJson o.directives),
      ("set", .ofSelectionSet (Selection.listToJson o.selectionSet.selections) o.selectionSet.span),
      ("span", o.span.toJson)]
  | fragment f =>
    .object [("fragment", f.name.toJson), ("on", f.typeCondition.toJson),
      ("directives", .ofList Directive.toJson f.directives),
      ("set", .ofSelectionSet (Selection.listToJson f.selectionSet.selections) f.selectionSet.span),
      ("span", f.span.toJson)]

end Definition

namespace Document

/-- All definitions. -/
def toJson (d : Document) : Json :=
  .object [("definitions", .ofList Definition.toJson d.definitions), ("span", d.span.toJson)]

end Document

namespace Diagnostic

/-- The code, the heading and the label. -/
def toJson (d : Diagnostic) : Json :=
  .object [("code", .string d.problem.code), ("title", .string d.problem.title),
    ("labels", .array [.array [.ofNat d.span.start, .ofNat d.span.stop, .string d.message]])]

end Diagnostic

end GraphQL
