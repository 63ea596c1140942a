import GraphQL.Coercion.Arguments
import GraphQL.Json.Typed
import GraphQL.Resolution.FieldValue
import GraphQL.Text.Uppercase

/-!
# Resolvers

A resolver gives the result of a field from the value of its parent, the arguments, a context, and facts about the
field.  `ResolverMap` finds the resolver of a field; without one of its own a field is read off its parent, unless
another rule is set.
-/

namespace GraphQL

/-- Facts about the field that is resolved. -/
structure FieldInfo where
  fieldName : String
  parentType : String
  returnType : String := ""
  path : Path := .root
deriving Repr, Inhabited

/-- What a resolver may look at. -/
structure ResolverInput where
  parent : Json
  arguments : ArgumentValues
  context : Dict Json
  info : FieldInfo

/-- Gives the result of a field.  If it is called later, the call happens when its result is first asked for. -/
structure Resolver where
  resolve : ResolverInput → Resolved
  calledLater : Bool := false

/-- What is done for fields without a resolver of their own. -/
inductive FallbackResolver where
  /-- They have none. -/
  | none
  /-- They are read off the parent. -/
  | property
  | custom (resolver : Resolver)

/-- The resolvers of fields, and how values find their object types. -/
structure ResolverMap where
  /-- By the names of the type and the field with a point between them. -/
  resolvers : Dict Resolver := []
  fallback : FallbackResolver := .property
  /-- By the name of an abstract type: the name of the object type of a value. -/
  typeResolvers : Dict (Json → Dict Json → FieldInfo → Option String) := []
  /-- By the name of an object type: whether a value is of that type. -/
  isTypeOf : Dict (Json → Dict Json → Bool) := []

/-- The property of the parent with the name of the field, or else with that name in snake case; null if there is
neither. -/
def propertyOf (parent : Json) (fieldName : String) : Resolved :=
  match parent with
  | .object fields =>
    .ok <| .value <|
      ((Dict.get? fields fieldName).orElse fun _ => Dict.get? fields (Text.toSnakeCase fieldName)).getD .null
  | .null => .ok .null
  | _ => .error (.fieldNotFound fieldName)

namespace ResolverMap

/-- Where the resolver of a field is found. -/
inductive Found where
  | property
  | resolver (r : Resolver)

/-- The resolver of a field. -/
def find? (m : ResolverMap) (typeName fieldName : String) : Option Found :=
  match Dict.get? m.resolvers (typeName ++ "." ++ fieldName) with
  | some r => some (.resolver r)
  | none =>
    match m.fallback with
    | .none => none
    | .property => some .property
    | .custom r => some (.resolver r)

/-- Sets the resolver of a field. -/
def register (m : ResolverMap) (typeName fieldName : String) (r : Resolver) : ResolverMap :=
  { m with resolvers := Dict.insert m.resolvers (typeName ++ "." ++ fieldName) r }

end ResolverMap

namespace ArgumentValues

/-- An argument that has to be there and of a wanted type. -/
def require {α : Type} (args : ArgumentValues) (name : String) (read : Json → Except Mismatch α) :
    Except ResolverError α :=
  match Dict.get? args name with
  | none => .error (.missingArgument name)
  | some value =>
    match read value with
    | .ok a => .ok a
    | .error e => .error (.argumentParse name e.message)

/-- An argument of a wanted type, if there is one. -/
def getAs? {α : Type} (args : ArgumentValues) (name : String) (read : Json → Except Mismatch α) : Option α :=
  (Dict.get? args name).bind fun value => (read value).toOption

end ArgumentValues

end GraphQL
