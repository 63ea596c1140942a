import GraphQL.Number.Double
import GraphQL.Source.Span

/-!
# Documents

A document is a list of operations and fragments.  Every part carries its span, and fields and variables also
the location where they start.  Selection sets, fields and inline fragments are stated over the type of their
selections, which `Selection` ties back to itself.
-/

namespace GraphQL

/-- A name as written. -/
structure Name where
  value : String
  span : Span
deriving DecidableEq, Repr, Inhabited

/-- A value as written in a document. -/
inductive Literal where
  | variable (name : Name)
  | int (value : Int)
  | float (value : Double)
  | string (value : String)
  | bool (value : Bool)
  | null
  | enumValue (name : String)
  | list (items : List Literal)
  | object (fields : List (Name × Literal))
deriving Repr, Inhabited

namespace Literal

mutual

/-- Whether no variable occurs. -/
def isConst : Literal → Bool
  | .variable _ => false
  | .list items => allConst items
  | .object fields => allFieldsConst fields
  | _ => true

/-- Whether no variable occurs in the items. -/
def allConst : List Literal → Bool
  | [] => true
  | item :: rest => item.isConst && allConst rest

/-- Whether no variable occurs in the fields. -/
def allFieldsConst : List (Name × Literal) → Bool
  | [] => true
  | (_, value) :: rest => value.isConst && allFieldsConst rest

end

end Literal

/-- A type as written. -/
inductive TypeNode where
  | named (name : Name)
  | list (item : TypeNode)
  | nonNull (type : TypeNode)
deriving DecidableEq, Repr, Inhabited

namespace TypeNode

/-- The name inside all lists and exclamation marks. -/
def innermost : TypeNode → Name
  | named name => name
  | list item => item.innermost
  | nonNull type => type.innermost

/-- Whether an exclamation mark comes last. -/
def isNonNull : TypeNode → Bool
  | nonNull _ => true
  | _ => false

/-- The type without its spans. -/
def text : TypeNode → String
  | named name => name.value
  | list item => "[" ++ item.text ++ "]"
  | nonNull type => type.text ++ "!"

end TypeNode

/-- An argument of a field or directive. -/
structure Argument where
  name : Name
  value : Literal
  span : Span
deriving Repr, Inhabited

/-- A directive with its arguments. -/
structure Directive where
  name : Name
  arguments : List Argument
  span : Span
deriving Repr, Inhabited

namespace Directive

/-- The value of the first argument with a name. -/
def argument? (d : Directive) (name : String) : Option Literal :=
  (d.arguments.find? (·.name.value = name)).map Argument.value

/-- The first directive with a name. -/
def find? (ds : List Directive) (name : String) : Option Directive :=
  ds.find? (·.name.value = name)

end Directive

/-- Selections between braces. -/
structure SelectionSetOf (σ : Type) where
  selections : List σ
  span : Span
deriving Repr, Inhabited

/-- A field, with the selections below it if it has any. -/
structure FieldOf (σ : Type) where
  aliasName : Option Name
  name : Name
  arguments : List Argument
  directives : List Directive
  selectionSet : Option (SelectionSetOf σ)
  span : Span
  location : Location
deriving Repr, Inhabited

/-- Selections that apply to one type, or to all if there is no type condition. -/
structure InlineFragmentOf (σ : Type) where
  typeCondition : Option Name
  directives : List Directive
  selectionSet : SelectionSetOf σ
  span : Span
deriving Repr, Inhabited

/-- The use of a named fragment. -/
structure FragmentSpread where
  name : Name
  directives : List Directive
  span : Span
deriving Repr, Inhabited

/-- One selection of a selection set. -/
inductive Selection where
  | field (node : FieldOf Selection)
  | spread (node : FragmentSpread)
  | inline (node : InlineFragmentOf Selection)
deriving Repr, Inhabited

abbrev SelectionSet := SelectionSetOf Selection

abbrev Field := FieldOf Selection

abbrev InlineFragment := InlineFragmentOf Selection

namespace FieldOf

/-- The key of the field in the response: its alias, or else its name. -/
def responseKey {σ : Type} (f : FieldOf σ) : String := (f.aliasName.getD f.name).value

end FieldOf

/-- What an operation does. -/
inductive OperationKind where
  | query | mutation | subscription
deriving DecidableEq, Repr, Inhabited

namespace OperationKind

/-- The keyword of a kind of operation. -/
def text : OperationKind → String
  | query => "query"
  | mutation => "mutation"
  | subscription => "subscription"

end OperationKind

/-- A variable that an operation declares. -/
structure VariableDefinition where
  name : Name
  type : TypeNode
  default : Option Literal
  directives : List Directive
  span : Span
  location : Location
deriving Repr, Inhabited

/-- An operation. -/
structure Operation where
  kind : OperationKind
  name : Option Name
  variableDefs : List VariableDefinition
  directives : List Directive
  selectionSet : SelectionSet
  span : Span
deriving Repr, Inhabited

/-- A named fragment. -/
structure Fragment where
  name : Name
  typeCondition : Name
  directives : List Directive
  selectionSet : SelectionSet
  span : Span
deriving Repr, Inhabited

/-- A definition of a document. -/
inductive Definition where
  | operation (node : Operation)
  | fragment (node : Fragment)
deriving Repr, Inhabited

/-- A document. -/
structure Document where
  definitions : List Definition
  span : Span
deriving Repr, Inhabited

namespace Document

/-- The operations in the order in which they are written. -/
def operations (d : Document) : List Operation :=
  d.definitions.filterMap fun
    | .operation node => some node
    | .fragment _ => none

/-- The fragments in the order in which they are written. -/
def fragments (d : Document) : List Fragment :=
  d.definitions.filterMap fun
    | .operation _ => none
    | .fragment node => some node

/-- The first fragment with a name. -/
def fragment? (d : Document) (name : String) : Option Fragment :=
  d.fragments.find? (·.name.value = name)

end Document

end GraphQL
