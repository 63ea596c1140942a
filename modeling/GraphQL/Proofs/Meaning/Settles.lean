import GraphQL.Execution.Run
import GraphQL.Proofs.Collection.Targets

/-!
# What values come to

Which value of the response a result of a resolver comes to does not depend on when it is completed, nor on the record
that delivers it.  `Settles c w out` says that what is asked for may come to an outcome: a value of a type, a child of a
list or an object, or several children together.  An error of a child becomes null if the type of the child allows it,
and otherwise goes on to the list or object around it (`Child.absorbed`); children that fail together may fail with the
error of any one of them.
-/

namespace GraphQL

/-- Where a value stands, whichever record delivers it: the fields that ask for it, the facts about the first of them,
and its path. -/
structure Place where
  group : FieldGroup
  info : FieldInfo
  path : Path

/-- The place of a site. -/
def Site.place (s : Site) : Place := ⟨s.group, s.info, s.path⟩

namespace Place

/-- The place of an item of a list. -/
def index (p : Place) (position : Nat) : Place := { p with path := p.path.index position }

/-- The site at a place. -/
def site (p : Place) (record : RecordId) (deferMap : DeferMap) : Site :=
  ⟨p.group, p.info, p.path, record, deferMap⟩

end Place

/-! ### Children -/

/-- A field or an item: its type, its place, and what its resolver or its list gives. -/
structure Child where
  type : TypeRef
  place : Place
  result : Except Error FieldValue

namespace Child

/-- An error that reaches a child is located there.  It goes on if the type is non-null, and the value is null
otherwise. -/
def absorbed (type : TypeRef) (place : Place) : Except Error Json → Except Error Json
  | .ok v => .ok v
  | .error e => if type.isNonNull then .error (e.locate place.group place.path) else .ok .null

end Child

/-- Fields of an object that are resolved, whichever record delivers them. -/
structure Selected where
  typeName : String
  parent : Json
  path : Path
  fields : GroupedFieldSet

/-- The fields, without the record and the deferred fragments. -/
def ObjectFields.selected (o : ObjectFields) : Selected := ⟨o.typeName, o.parent, o.path, o.fields⟩

/-- What a resolver gives when it is called; if it is called later, its result comes later. -/
def Resolver.result (r : Resolver) (input : ResolverInput) : Resolved :=
  if r.calledLater then
    .ok (.later (some (.called input.info.parentType input.info.fieldName input.info.path)) 0 (r.resolve input))
  else r.resolve input

namespace ExecutionContext

variable (c : ExecutionContext)

/-- What a field of a parent gives. -/
def resolution (parent : Json) (field : Field) (definition : FieldDef) (info : FieldInfo) : Except Error FieldValue :=
  match argumentValues c.schema definition.arguments field.arguments c.vars with
  | .error e => .error e.toError
  | .ok arguments =>
    if info.fieldName = "__typename" then .ok (.value (.string info.parentType))
    else
      match c.resolvers.find? info.parentType info.fieldName with
      | none => .error (CompletionError.noResolver info.parentType info.fieldName).toError
      | some .property => (propertyOf parent info.fieldName).mapError ResolverError.toError
      | some (.resolver r) => (r.result ⟨parent, arguments, c.context, info⟩).mapError ResolverError.toError

/-- The child at a key, unless the type does not have the field. -/
def child? (o : Selected) (key : String) (group : FieldGroup) : Option Child :=
  (c.schema.field? o.typeName group.first.node.name.value).map fun definition =>
    let info : FieldInfo := ⟨group.first.node.name.value, o.typeName, definition.type.text, o.path.key key⟩
    ⟨definition.type, ⟨group, info, o.path.key key⟩, c.resolution o.parent group.first.node definition info⟩

/-- The children at the keys of fields that the type has. -/
def children (o : Selected) : List (String × Child) :=
  o.fields.filterMap fun field => (c.child? o field.1 field.2).map (field.1, ·)

end ExecutionContext

/-! ### Items -/

/-- The items of a list: their outcomes up to the first error, and whether the list ends with them. -/
structure ItemSource where
  outcomes : List Resolved
  ends : Bool

namespace ItemSource

/-- The first items, or all of them, once they are there; an error among them is that of the list. -/
def first? (source : ItemSource) (count : Option Nat) : Option (Except ResolverError (List FieldValue)) :=
  if source.ends || count.any (· ≤ source.outcomes.length) then
    some (((count.map source.outcomes.take).getD source.outcomes).mapM id)
  else none

end ItemSource

/-- The items that come with the steps of a stream. -/
def StreamStep.source (hangs : Bool) : List (StreamStep Resolved) → ItemSource
  | [] => ⟨[], !hangs⟩
  | .wait _ :: rest => source hangs rest
  | .item (.error e) :: _ => ⟨[.error e], true⟩
  | .item (.ok v) :: rest => ⟨.ok v :: (source hangs rest).outcomes, (source hangs rest).ends⟩

/-- The items that are still to come from a stream. -/
def ItemStreamOf.source (s : ItemStream) : ItemSource :=
  if s.finished then ⟨[], true⟩ else StreamStep.source s.hangs s.steps

namespace FieldValue

/-- The items of a result that is a list. -/
def items? : FieldValue → Option ItemSource
  | list items => some ⟨items.map .ok, true⟩
  | value (.array items) => some ⟨items.map (.ok ∘ .value), true⟩
  | stream source => some source.source
  | _ => none

/-- The single value of a result. -/
def single (v : FieldValue) (typeName : String) : Except Error Json :=
  match v with
  | .value v => .ok v
  | .later .. => .error (CompletionError.notReady typeName).toError
  | _ => .error (CompletionError.notSingle typeName).toError

end FieldValue

/-! ### Demands -/

/-- What a value comes down to. -/
inductive Demand where
  | outcome (outcome : Except Error Json)
  /-- A value of the same type, which came later. -/
  | value (value : FieldValue)
  /-- The same value, but of another type, and not null. -/
  | required (type : TypeRef)
  | items (type : TypeRef) (source : ItemSource)
  | object (typeName : String) (value : Json)

namespace ExecutionContext

variable (c : ExecutionContext)

/-- The outcome of a value of a leaf type. -/
def leaf (typeName : String) (v : Json) : Except Error Json :=
  match c.schema.serializeLeaf typeName v with
  | .error e => .error (.ofMessage e.message)
  | .ok serialized =>
    if serialized.isNull then .error (CompletionError.nullLeaf typeName v).toError else .ok serialized

/-- What a value of an object type comes down to. -/
def objectDemand (typeName : String) (place : Place) (v : Json) : Demand :=
  let isOfType := match Dict.get? c.resolvers.isTypeOf typeName with
    | some test => test v c.context
    | none => true
  if isOfType then .object typeName v
  else .outcome (.error ((CompletionError.wrongObjectType typeName v).toErrorAt place.group))

/-- What a value of a named type comes down to that is not null and not to come later. -/
def namedDemand (typeName : String) (place : Place) (value : FieldValue) : Demand :=
  match c.schema.typeKind? typeName with
  | some .scalar | some .enum => .outcome (value.single typeName >>= c.leaf typeName)
  | some .interface | some .union =>
    match value.single typeName with
    | .error e => .outcome (.error e)
    | .ok v =>
      match Execution.runtimeType c typeName v (place.site .initial []) with
      | .error e => .outcome (.error e)
      | .ok runtimeType => c.objectDemand runtimeType place v
  | some .object =>
    match value.single typeName with
    | .error e => .outcome (.error e)
    | .ok v => c.objectDemand typeName place v
  | _ => .outcome (.error (CompletionError.unexpectedOutputType typeName).toError)

/-- What a value of a type comes down to. -/
def demand (type : TypeRef) (place : Place) (value : FieldValue) : Demand :=
  match value, type with
  | .later _ _ (.error e), _ => .outcome (.error e.toError)
  | .later _ _ (.ok v), _ => .value v
  | _, .nonNull inner => .required inner
  | value, .list itemType =>
    if value.isNull then .outcome (.ok .null)
    else
      match value.items? with
      | some source => .items itemType source
      | none => .outcome (.error (CompletionError.notIterable place.info).toError)
  | value, .named typeName =>
    if value.isNull then .outcome (.ok .null) else c.namedDemand typeName place value

/-- What is collected below a group for an object type, with some numbers. -/
def Collects (typeName : String) (group : FieldGroup) (collected : Except CollectionError CollectedFields) : Prop :=
  ∃ collector, group.Precedes collector ∧ (collector.collectBelow c.collection typeName group).1 = collected

/-- How the list that a group asks for at a path is streamed, with some number. -/
def Streams (group : FieldGroup) (path : Path) (usage : Except Error (Option StreamUsage)) : Prop :=
  if path.endsWithIndex then usage = .ok none
  else ∃ nextGroup, Execution.newStreamUsage c group nextGroup = usage

end ExecutionContext

/-! ### Outcomes -/

/-- A value that must not be null. -/
def FieldInfo.required (info : FieldInfo) : Except Error Json → Except Error Json
  | .ok v => if v.isNull then .error (CompletionError.unexpectedNull info).toError else .ok v
  | .error e => .error e

/-- The items of a list as children, from an index on. -/
def itemChildren (type : TypeRef) (place : Place) : (position : Nat) → List FieldValue → List Child
  | _, [] => []
  | position, item :: rest => ⟨type, place.index position, .ok item⟩ :: itemChildren type place (position + 1) rest

/-- What can come to an outcome. -/
inductive Asked where
  | value (type : TypeRef) (place : Place) (value : FieldValue)
  | child (child : Child)
  /-- Children that are put together. -/
  | gather (shape : Shape) (children : List Child)

/-- The fields of an object. -/
def ExecutionContext.asked (c : ExecutionContext) (o : Selected) : Asked :=
  .gather (.object ((c.children o).map Prod.fst)) ((c.children o).map Prod.snd)

/-- What is collected for the operation. -/
def ExecutionContext.collected (c : ExecutionContext) : Except CollectionError CollectedFields :=
  (({} : Collector).collectFields c.collection c.rootType c.operation.selectionSet.selections).1

/-- The fields of the operation that belong to the initial data. -/
def ExecutionContext.opening (c : ExecutionContext) (collected : CollectedFields) : Selected :=
  ⟨c.rootType, c.rootValue, .root, collected.fields⟩

/-- What is asked for may come to the outcome. -/
inductive Settles (c : ExecutionContext) : Asked → Except Error Json → Prop
  | outcome {type place v out} (h : c.demand type place v = .outcome out) : Settles c (.value type place v) out
  | awaited {type place v later out} (h : c.demand type place v = .value later)
      (hlater : Settles c (.value type place later) out) : Settles c (.value type place v) out
  | required {type place v inner out} (h : c.demand type place v = .required inner)
      (hinner : Settles c (.value inner place v) out) : Settles c (.value type place v) (place.info.required out)
  | unstreamed {type place v itemType source e} (h : c.demand type place v = .items itemType source)
      (husage : c.Streams place.group place.path (.error e)) : Settles c (.value type place v) (.error e)
  | unlisted {type place v itemType source usage e} (h : c.demand type place v = .items itemType source)
      (husage : c.Streams place.group place.path (.ok usage))
      (hfirst : source.first? (usage.map StreamUsage.initialCount) = some (.error e)) :
      Settles c (.value type place v) (.error (e.toError.locate place.group place.path))
  | list {type place v itemType source usage items out} (h : c.demand type place v = .items itemType source)
      (husage : c.Streams place.group place.path (.ok usage))
      (hfirst : source.first? (usage.map StreamUsage.initialCount) = some (.ok items))
      (hitems : Settles c (.gather .list (itemChildren itemType place 0 items)) out) :
      Settles c (.value type place v) out
  | uncollected {type place v typeName parent e} (h : c.demand type place v = .object typeName parent)
      (hcollected : c.Collects typeName place.group (.error e)) : Settles c (.value type place v) (.error e.toError)
  | object {type place v typeName parent collected out} (h : c.demand type place v = .object typeName parent)
      (hcollected : c.Collects typeName place.group (.ok collected))
      (hfields : Settles c (c.asked ⟨typeName, parent, place.path, collected.fields⟩) out) :
      Settles c (.value type place v) out
  | child {type place v out} (h : Settles c (.value type place v) out) :
      Settles c (.child ⟨type, place, .ok v⟩) (Child.absorbed type place out)
  | unresolved {type place e} : Settles c (.child ⟨type, place, .error e⟩) (Child.absorbed type place (.error e))
  | gathered {shape} {children : List Child} {values : List Json} (hlength : values.length = children.length)
      (h : ∀ (i : Nat) child v, children[i]? = some child → values[i]? = some v → Settles c (.child child) (.ok v)) :
      Settles c (.gather shape children) (.ok (shape.assemble values))
  | failed {shape children child e} (hchild : child ∈ children) (h : Settles c (.child child) (.error e)) :
      Settles c (.gather shape children) (.error e)

end GraphQL
