import GraphQL.Coercion.Arguments
import GraphQL.Json.Typed

/-!
# Directives of selections

What the four built-in directives say about a selection: whether it is included, and how a fragment is deferred or a
list streamed.  A directive that the schema does not know says nothing.
-/

namespace GraphQL

/-- Why a directive cannot be followed. -/
inductive DirectiveError where
  | arguments (reason : ArgumentError)
  | shape (directiveName : String) (reason : Mismatch)

namespace DirectiveError

/-- The sentence for a reason. -/
def message : DirectiveError → String
  | arguments reason => reason.message
  | shape name reason => "Invalid arguments for @" ++ name ++ ": " ++ reason.message

/-- The error that a client gets. -/
def toError (e : DirectiveError) : Error := .ofMessage e.message

end DirectiveError

/-- A fragment to be delivered later. -/
structure DeferDirective where
  label : Option String := none
  condition : Bool := true
deriving DecidableEq, Repr, Inhabited

/-- A list whose items after the first `initialCount` are delivered later. -/
structure StreamDirective where
  label : Option String := none
  condition : Bool := true
  initialCount : Int := 0
deriving DecidableEq, Repr, Inhabited

/-- An optional string, or null. -/
def Json.ofOptionalText : Option String → Json
  | some s => .string s
  | none => .null

namespace DeferDirective

/-- All arguments by name. -/
def toJson (d : DeferDirective) : Json :=
  .object [("label", .ofOptionalText d.label), ("if", .bool d.condition)]

/-- Takes one argument; arguments with other names say nothing. -/
def set (d : DeferDirective) (argument : String × Json) : Except Mismatch DeferDirective := do
  match argument with
  | ("label", v) => return { d with label := ← v.toOptionalText }
  | ("if", v) => return { d with condition := ← v.toBool }
  | _ => return d

/-- The directive with given arguments; those that are not given have defaults. -/
def ofArguments (arguments : ArgumentValues) : Except Mismatch DeferDirective := arguments.foldlM set {}

end DeferDirective

namespace StreamDirective

/-- All arguments by name. -/
def toJson (d : StreamDirective) : Json :=
  .object [("label", .ofOptionalText d.label), ("if", .bool d.condition),
    ("initialCount", .ofInt d.initialCount)]

/-- Takes one argument; arguments with other names say nothing. -/
def set (d : StreamDirective) (argument : String × Json) : Except Mismatch StreamDirective := do
  match argument with
  | ("label", v) => return { d with label := ← v.toOptionalText }
  | ("if", v) => return { d with condition := ← v.toBool }
  | ("initialCount", v) => return { d with initialCount := ← v.toInt64 }
  | _ => return d

/-- The directive with given arguments; those that are not given have defaults. -/
def ofArguments (arguments : ArgumentValues) : Except Mismatch StreamDirective := arguments.foldlM set {}

end StreamDirective

/-- The arguments of a directive of a selection, if the directive is there and the schema knows it. -/
def directiveArguments? (schema : Schema) (name : String) (directives : List Directive)
    (vars : Variables) : Except DirectiveError (Option ArgumentValues) :=
  match schema.directive? name with
  | none => .ok none
  | some definition =>
    match Directive.find? directives definition.name with
    | none => .ok none
    | some directive =>
      match argumentValues schema definition.arguments directive.arguments vars with
      | .ok values => .ok (some values)
      | .error e => .error (.arguments e)

/-- The condition of a directive; one that is no boolean counts as false. -/
def directiveCondition? (schema : Schema) (name : String) (directives : List Directive)
    (vars : Variables) : Except DirectiveError (Option Bool) := do
  let arguments ← directiveArguments? schema name directives vars
  return arguments.map fun (args : ArgumentValues) =>
    match Dict.get? args "if" with
    | some (.bool b) => b
    | _ => false

/-- Whether a selection is included: not skipped, and not left out. -/
def isIncluded (schema : Schema) (directives : List Directive) (vars : Variables) :
    Except DirectiveError Bool := do
  if (← directiveCondition? schema "skip" directives vars) = some true then return false
  else return (← directiveCondition? schema "include" directives vars) ≠ some false

/-- How a fragment is deferred, if it is. -/
def deferOf? (schema : Schema) (directives : List Directive) (vars : Variables) :
    Except DirectiveError (Option DeferDirective) := do
  match ← directiveArguments? schema "defer" directives vars with
  | none => return none
  | some arguments =>
    match DeferDirective.ofArguments arguments with
    | .ok d => return if d.condition then some d else none
    | .error e => throw (.shape "defer" e)

/-- How a list is streamed, if it is. -/
def streamOf? (schema : Schema) (directives : List Directive) (vars : Variables) :
    Except DirectiveError (Option StreamDirective) := do
  match ← directiveArguments? schema "stream" directives vars with
  | none => return none
  | some arguments =>
    match StreamDirective.ofArguments arguments with
    | .ok d => return if d.condition then some d else none
    | .error e => throw (.shape "stream" e)

end GraphQL
