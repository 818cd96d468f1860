import ResponseModels.Document

/-!
# A schema of animals

A small schema and a document for it, on which general statements can be tried. The types are chosen
so that they overlap: every pet of the schema is an animal, but not every animal is a pet.
-/

set_option autoImplicit false

namespace ResponseModels
namespace Sample

/-- The definition of a field without arguments. -/
def plain (name type : Name) : FieldDefinition := ⟨name, .named type, [], none, []⟩

/-- What every animal has. -/
def animalFields : List FieldDefinition :=
  [plain "name" "String", plain "breed" "String", plain "friend" "Animal"]

/-- Dogs and cats are animals and pets, foxes only animals. -/
def schema : Schema where
  query := some "Query"
  mutation := none
  subscription := none
  definitions :=
    [⟨"Query", none, .object [] [plain "animal" "Animal"]⟩,
      ⟨"Animal", none, .interface [] animalFields⟩,
      ⟨"Pet", none, .interface [] [plain "owner" "String"]⟩,
      ⟨"Dog", none, .object ["Animal", "Pet"]
        (animalFields ++ [plain "owner" "String", plain "trick" "String"])⟩,
      ⟨"Cat", none, .object ["Animal", "Pet"] (animalFields ++ [plain "owner" "String"])⟩,
      ⟨"Fox", none, .object ["Animal"] animalFields⟩]

/-- A field without alias, arguments and directives. -/
def field (name : Name) (selections : List Selection) : Selection :=
  .field ⟨name, none, [], []⟩ selections

/-- `@include(if: $name)`. -/
def includeIf (name : Name) : Directive := ⟨"include", [("if", .var name)]⟩

/-- `@skip(if: $name)`. -/
def skipIf (name : Name) : Directive := ⟨"skip", [("if", .var name)]⟩

/-- What is selected of an animal: its name, the owner of a pet and what a dog can do if `$pets` is
set, and the name of its friend unless `$alone` is. -/
def selections : List Selection :=
  [field "name" [],
    .inline (some "Pet") [includeIf "pets"]
      [field "owner" [], .inline (some "Dog") [] [field "trick" []]],
    .spread "Company" [skipIf "alone"]]

/-- A query for an animal, with a fragment for its friend. -/
def document : Document where
  operations := [⟨.query, some "Visit", [], [], [field "animal" selections]⟩]
  fragments := [⟨"Company", "Animal", [], [field "friend" [field "name" []]]⟩]

/-- A query for an animal that selects `__typename` there, but not for its friend. -/
def tagged : Document where
  operations :=
    [⟨.query, some "Visit", [], [], [field "animal" [field "__typename" [], .spread "Company" []]]⟩]
  fragments := document.fragments

/-- A query that asks for an animal twice, once for its name if `$named` is set and once for its
breed if `$bred` is. -/
def twice : Document where
  operations := [⟨.query, some "Visit", [], [],
    [.field ⟨"animal", none, [], [includeIf "named"]⟩ [field "name" []],
      .field ⟨"animal", none, [], [includeIf "bred"]⟩ [field "breed" []]]⟩]
  fragments := []

/-- Two fragments that spread each other: the friend of a host is a guest, whose friend is a
host. -/
def circular : Document where
  operations := [⟨.query, some "Visit", [], [], [field "animal" [.spread "Host" []]]⟩]
  fragments := [⟨"Host", "Animal", [], [field "friend" [.spread "Guest" []]]⟩,
    ⟨"Guest", "Animal", [], [field "name" [], field "friend" [.spread "Host" []]]⟩]

/-- The query for an animal, with the selections of the animal and of its being a pet in the
opposite order. -/
def mirrored : Document where
  operations := [⟨.query, some "Visit", [], [], [field "animal"
    [.spread "Company" [skipIf "alone"],
      .inline (some "Pet") [includeIf "pets"]
        [.inline (some "Dog") [] [field "trick" []], field "owner" []],
      field "name" []]]⟩]
  fragments := document.fragments

/-- The schema of animals, with an input object that refers to itself. -/
def searchable : Schema where
  query := schema.query
  mutation := schema.mutation
  subscription := schema.subscription
  definitions := schema.definitions ++
    [⟨"Search", none, .inputObject
      [⟨"name", .named "String", none, none, []⟩, ⟨"butNot", .named "Search", none, none, []⟩]⟩]

/-- A schema in which one counts animals. A filter may be made of pairs of filters, so that the two
input objects refer to each other. -/
def registry : Schema where
  query := some "Query"
  mutation := none
  subscription := none
  definitions :=
    [⟨"Date", none, .scalar⟩,
      ⟨"Query", none,
        .object []
          [⟨"count", .named "Int", [⟨"where", .named "Filter", none, none, []⟩], none, []⟩]⟩,
      ⟨"Filter", none, .inputObject
        [⟨"size", .named "Size", none, none, []⟩,
          ⟨"either", .list (.nonNull (.named "Pair")), none, none, []⟩]⟩,
      ⟨"Color", none, .enum [⟨"RED", none, []⟩]⟩,
      ⟨"Pair", none, .inputObject
        [⟨"first", .named "Filter", none, none, []⟩,
          ⟨"since", .nonNull (.named "Date"), none, none, []⟩]⟩,
      ⟨"Size", none, .enum [⟨"SMALL", none, []⟩, ⟨"LARGE", none, []⟩]⟩]

/-- A query that counts the animals of a filter. -/
def counted : Document where
  operations := [⟨.query, some "Count", [⟨"where", .named "Filter", none, []⟩], [],
    [.field ⟨"count", none, [("where", .var "where")], []⟩ []]⟩]
  fragments := []

/-- A schema in which one asks for a dog, not just for an animal. -/
def kennel : Schema where
  query := some "Query"
  mutation := none
  subscription := none
  definitions :=
    [⟨"Query", none, .object [] [plain "dog" "Dog"]⟩,
      ⟨"Animal", none, .interface [] [plain "name" "String"]⟩,
      ⟨"Dog", none, .object ["Animal"] [plain "name" "String"]⟩]

/-- A query for a dog, with a fragment for the name of an animal. -/
def called : Document where
  operations := [⟨.query, some "Visit", [], [], [field "dog" [.spread "Named" []]]⟩]
  fragments := [⟨"Named", "Animal", [], [field "name" []]⟩]

/-- A query for an animal with a fragment for its name. The fragment is spread if `$shy` is set, and
then the name is left out. -/
def withheld : Document where
  operations := [⟨.query, some "Visit", [], [],
    [field "animal" [field "breed" [], .spread "Named" [includeIf "shy"]]]⟩]
  fragments := [⟨"Named", "Animal", [], [.field ⟨"name", none, [], [skipIf "shy"]⟩ []]⟩]

/-- A query for the breed of an animal's friend, with a fragment for its name. The fragment is
spread if `$shy` is set, and then the friend is left out there. -/
def estranged : Document where
  operations := [⟨.query, some "Visit", [], [],
    [field "animal" [field "friend" [field "breed" []], .spread "Known" [includeIf "shy"]]]⟩]
  fragments :=
    [⟨"Known", "Animal", [], [.inline none [skipIf "shy"] [field "friend" [field "name" []]]]⟩]

/-- A query that asks for the name of an animal twice, once unless `$shy` is set and once if both
`$pets` and `$named` are. It asks for the breed where `$shy` is set, and then leaves it out. -/
def guarded : Document where
  operations := [⟨.query, some "Visit", [], [],
    [field "animal" [.field ⟨"name", none, [], [skipIf "shy"]⟩ [],
      .inline none [includeIf "pets"] [.field ⟨"name", none, [], [includeIf "named"]⟩ []],
      .inline none [includeIf "shy"] [.field ⟨"breed", none, [], [skipIf "shy"]⟩ []]]]⟩]
  fragments := []

/-- A query for an animal that comes upon a fragment for the name of an animal on several ways:
directly, if `$pets` is set for pets, and through a fragment for its friend. -/
def diamond : Document where
  operations := [⟨.query, some "Visit", [], [],
    [field "animal" [.spread "Named" [],
      .inline (some "Pet") [includeIf "pets"] [.spread "Named" []], .spread "Company" []]]⟩]
  fragments :=
    [⟨"Company", "Animal", [], [.spread "Named" [], field "friend" [.spread "Named" []]]⟩,
     ⟨"Named", "Animal", [], [field "name" []]⟩]

/-- The same with selections that are repeated: a spread beneath a field, one in an inline fragment,
and a field in a named fragment. -/
def diamondRepeated : Document where
  operations := [⟨.query, some "Visit", [], [],
    [field "animal" [.spread "Named" [],
      .inline (some "Pet") [includeIf "pets"] [.spread "Named" [], .spread "Named" []],
      .spread "Named" [], .spread "Company" []]]⟩]
  fragments := [⟨"Company", "Animal", [], [.spread "Named" [], field "friend" [.spread "Named" []],
      field "friend" [.spread "Named" []]]⟩,
    ⟨"Named", "Animal", [], [field "name" []]⟩]

/-- The same with inline fragments in the place of spreads. -/
def diamondInlined : List Selection :=
  let named := .inline (some "Animal") [] [field "name" []]
  [field "animal" [named, .inline (some "Pet") [includeIf "pets"] [named],
    .inline (some "Animal") [] [named, field "friend" [named]]]]

/-- `@skip(if: true)`. -/
def skipAlways : Directive := ⟨"skip", [("if", .boolean true)]⟩

/-- A query in which a fragment is spread where it is always skipped. -/
def skipped : Document where
  operations := [⟨.query, some "Visit", [], [],
    [field "animal" [field "name" [], .inline none [skipAlways] [.spread "Named" []]]]⟩]
  fragments := [⟨"Named", "Animal", [], [field "name" []]⟩]

/-- Two queries that share fragments. -/
def visits : Document where
  operations := diamond.operations ++
    [⟨.query, some "Call", [], [], [field "animal" [.spread "Company" [skipIf "alone"]]]⟩]
  fragments := diamond.fragments

/-- The same definitions in the opposite order. -/
def visitsReversed : Document where
  operations := visits.operations.reverse
  fragments := visits.fragments.reverse

/-- What is selected of an animal under one label: the name of a dog and the breed of a cat. -/
def labels : List Selection :=
  [.inline (some "Dog") [] [.field ⟨"name", some "label", [], []⟩ []],
    .inline (some "Cat") [] [.field ⟨"breed", some "label", [], []⟩ []]]

/-- The same, and under the same label the owner of a pet. -/
def disputedLabels : List Selection :=
  labels ++ [.inline (some "Pet") [] [.field ⟨"owner", some "label", [], []⟩ []]]

/-- A query for the name of an animal that asks for the `__typename` of dogs only, with directives
at it. -/
def taggedDogs (directives : List Directive) : Document where
  operations := [⟨.query, some "Visit", [], [],
    [field "animal" [field "name" [],
      .inline (some "Dog") [] [.field ⟨"__typename", none, [], directives⟩ []]]]⟩]
  fragments := []

/-- A query for an animal that asks something of pets, of dogs and of cats, so that there are no
other pets to ask of. -/
def kinds : Document where
  operations := [⟨.query, some "Visit", [], [],
    [field "animal" [field "name" [], .inline (some "Pet") [] [field "owner" []],
      .inline (some "Dog") [] [field "trick" []], .inline (some "Cat") [] [field "breed" []]]]⟩]
  fragments := []

/-- A schema in which one counts the animals of an age. -/
def census : Schema where
  query := some "Query"
  mutation := none
  subscription := none
  definitions :=
    [⟨"Query", none, .object [] [⟨"count", .named "Int",
      [⟨"from", .named "Int", none, none, []⟩, ⟨"to", .named "Int", none, none, []⟩], none, []⟩]⟩]

/-- A dog that says it implements an interface, another object type and a type that does not
exist. -/
def strayDog : TypeDefinition := ⟨"Dog", none, .object ["Animal", "Cat", "Spirit"] []⟩

/-- A cat that says it implements a union. -/
def strayCat : TypeDefinition := ⟨"Cat", none, .object ["Pet"] []⟩

/-- A schema with names that do not fit. Its union lists an interface and a type that does not
exist, besides a dog. -/
def misfits : Schema where
  query := none
  mutation := none
  subscription := none
  definitions := [⟨"Pet", none, .union ["Dog", "Animal", "Ghost"]⟩, strayDog,
    ⟨"Animal", none, .interface [] []⟩, strayCat]

/-- The same definitions in the opposite order. -/
def misfitsReversed : Schema := { misfits with definitions := misfits.definitions.reverse }

/-- The field that counts the animals of an age, with arguments in some order. -/
def count (arguments : List (Name × Value)) : FieldHead := ⟨"count", none, arguments, []⟩

/-- A query that counts the animals of an age, and counts them again if `$again` is set, with the
arguments in some orders. -/
def counts (first again : List (Name × Value)) : Document where
  operations := [⟨.query, some "Count", [], [],
    [.field (count first) [], .inline none [includeIf "again"] [.field (count again) []]]⟩]
  fragments := []

end Sample
end ResponseModels
