import GraphQL.Execution.Request

/-!
# A schema to try things on

Characters with friends who have to be waited for, and a countdown that comes as a stream.  Times are milliseconds.
-/

namespace GraphQL

namespace Demo

private def string : TypeRef := .named "String"

private def listOf (typeName : String) : TypeRef := .list (.named typeName)

private def fieldOf (name : String) (type : TypeRef) : String × FieldDef := (name, { name := name, type := type })

/-- The fields of every character. -/
def characterFields : Dict FieldDef :=
  [fieldOf "id" (.nonNull (.named "ID")), fieldOf "name" string, fieldOf "friends" (listOf "Character"),
    fieldOf "appearsIn" (listOf "String")]

/-- The argument of the countdown. -/
def countdownStart : InputFieldDef := { name := "from", type := .named "Int", default := some (.ofNat 3) }

/-- The countdown. -/
def countdownField : FieldDef :=
  { name := "countdown", type := .list (.nonNull (.named "Int")), arguments := [("from", countdownStart)] }

/-- The types. -/
def types : List TypeDef :=
  [.object
      { name := "Query"
        fields :=
          [fieldOf "hero" (.named "Character"), fieldOf "characters" (.list (.nonNull (.named "Character"))),
            fieldOf "scalarList" (listOf "String"), ("countdown", countdownField)] },
    .object
      { name := "Human", implements := ["Character"], fields := characterFields ++ [fieldOf "homePlanet" string] },
    .object
      { name := "Droid", implements := ["Character"]
        fields := characterFields ++ [fieldOf "primaryFunction" string] },
    .interface { name := "Character", fields := characterFields }]

/-- The schema. -/
def schema : Except SchemaError Schema :=
  (types.foldl SchemaDraft.addType ({ query := some "Query" } : SchemaDraft)).build

private def texts (xs : List String) : Json := .array (xs.map .string)

private def characterOf (typeName id name : String) (friends : List String) : List (String × Json) :=
  [("__typename", .string typeName), ("id", .string id), ("name", .string name), ("friends", texts friends),
    ("appearsIn", texts ["NEWHOPE", "EMPIRE", "JEDI"])]

/-- All characters. -/
def characters : List Json :=
  [.object (characterOf "Human" "1000" "Luke Skywalker" ["1002", "2001"] ++ [("homePlanet", .string "Tatooine")]),
    .object (characterOf "Human" "1002" "Han Solo" ["1000", "2001"]),
    .object
      (characterOf "Droid" "2001" "R2-D2" ["1000", "1002"] ++ [("primaryFunction", .string "Astromech")])]

/-- The character with an id, or null. -/
def character (id : String) : Json :=
  (characters.find? fun c => c.get? "id" = some (.string id)).getD .null

/-- The root value. -/
def root : Json :=
  .object
    [("hero", character "1000"), ("characters", .array characters),
      ("scalarList", texts ["apple", "banana", "coconut"])]

/-- How long friends have to be waited for. -/
def friendsDelay : Nat := 50

/-- The time between two steps of the countdown. -/
def countdownDelay : Nat := 100

/-- The friends of a character, after a while. -/
def friends : Resolver where
  resolve input :=
    let ids := match input.parent.get? "friends" with
      | some (.array ids) => ids
      | _ => []
    let friend : Json → FieldValue
      | .string id => .value (character id)
      | _ => .value (character "")
    .ok (.later none friendsDelay (.ok (.list (ids.map friend))))
  calledLater := true

/-- The numbers from the start down to zero, one after the other. -/
def countdown : Resolver where
  resolve input := do
    let start ← input.arguments.require "from" Json.toInt64
    if start < 0 then throw (.custom "countdown must start at zero or above")
    let numbers := (List.range (start.toNat + 1)).reverse
    return .stream
      { steps := numbers.flatMap fun n => [.wait countdownDelay, .item (.ok (.value (.ofNat n)))] }

/-- The resolvers. -/
def resolvers : ResolverMap :=
  ((({} : ResolverMap).register "Human" "friends" friends).register "Droid" "friends" friends).register
    "Query" "countdown" countdown

end Demo

end GraphQL
