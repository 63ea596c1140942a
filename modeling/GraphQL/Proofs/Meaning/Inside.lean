import GraphQL.Proofs.Delivery.Assembly
import GraphQL.Proofs.Meaning.Settles

/-!
# What is asked for inside

Steps lead from what is asked for to what is asked for inside of it (`Asked.Leads`): to the fields of an object, and to the
items that are delivered with their list.
-/

namespace GraphQL

/-- Steps lead to what is asked for inside.  Items of a streamed list are inside as far as they are delivered with it. -/
inductive Asked.Leads (c : ExecutionContext) (a : Asked) : List PathSegment → Asked → Prop
  | self : Leads c a [] a
  | awaited {steps type place v later} (h : Leads c a steps (.value type place v))
      (hdemand : c.demand type place v = .value later) : Leads c a steps (.value type place later)
  | required {steps type place v inner} (h : Leads c a steps (.value type place v))
      (hdemand : c.demand type place v = .required inner) : Leads c a steps (.value inner place v)
  | object {steps type place v typeName parent collected} (h : Leads c a steps (.value type place v))
      (hdemand : c.demand type place v = .object typeName parent)
      (hcollected : c.Collects typeName place.group (.ok collected)) :
      Leads c a steps (c.asked ⟨typeName, parent, place.path, collected.fields⟩)
  | field {steps o key child} (h : Leads c a steps (c.asked o)) (hchild : (key, child) ∈ c.children o) :
      Leads c a (steps ++ [.key key]) (.child child)
  | item {steps type place v itemType source usage position item} (h : Leads c a steps (.value type place v))
      (hdemand : c.demand type place v = .items itemType source) (husage : c.Streams place.group place.path (.ok usage))
      (hfirst : ∀ u, usage = some u → position < u.initialCount)
      (hitem : source.outcomes[position]? = some (.ok item)) :
      Leads c a (steps ++ [.index position]) (.child ⟨itemType, place.index position, .ok item⟩)
  | child {steps type place v} (h : Leads c a steps (.child ⟨type, place, .ok v⟩)) : Leads c a steps (.value type place v)

end GraphQL
