import ResponseModels.Collect.Survey
import ResponseModels.Config

/-!
# Expanding fields

A composite field is expanded by surveying the selections beneath it and giving each of its shapes
the fields whose scope applies to the shape, merged by response name (`Survey.fieldsFor`). Every
field that can be included is then expanded in turn (`expandField`). `expandRoot` does this for the
selections of an operation or a named fragment, as if they stood beneath a field `data`.

Shapes are filled one after the other, and the fields of a shape are expanded before the next shape
is filled, so of several errors the one met first on that way is reported.

The recursion ends because children that come from a survey rank below the children surveyed.
`expandField_eq` states the recursion without the bookkeeping that this needs.
-/

set_option autoImplicit false

namespace ResponseModels

/-- The arguments of a field selection with their declared types, in the order of their names. -/
def Occurrence.arguments (o : Occurrence) (schema : Schema) (definition : FieldDefinition) :
    Except Error (List Argument) := do
  let arguments ← o.head.arguments.mapM fun (name, value) ↦
    match definition.arguments.find? fun a ↦ a.name == name with
    | none => .error (.unresolved .argument s!"{o.head.name}({name}:)" (some o.scope.parentType))
    | some a => do return { name, value, type := ← schema.resolve a.type }
  return arguments.mergeSort fun a b ↦ a.name ≤ b.name

/-- What is known of a field that was found. -/
def Occurrence.info (o : Occurrence) (schema : Schema) : Except Error FieldInfo := do
  let definition ← schema.field o.scope.parentType o.head.name
  let arguments ← o.arguments schema definition
  let type ← schema.resolve definition.type
  return { name := o.head.name
           alias? := o.head.alias?
           arguments
           type
           description := definition.description
           deprecation := Directive.deprecation? definition.directives }

/-- A field that was found, as a declaration. -/
def Occurrence.declaration (o : Occurrence) (schema : Schema) : Except Error Declaration := do
  return { info := ← o.info schema, condition := o.scope.condition, children := o.children }

namespace Survey

/-- The fields that were found where they apply to a type set. -/
def declarationsFor (s : Survey) (schema : Schema) (typeSet : NameSet) :
    Except Error (List Declaration) :=
  (s.found.occurrences.filter fun o ↦ o.scope.typeSet ⊆ typeSet).mapM fun o ↦ o.declaration schema

/-- The fields of a type set, merged by response name. -/
def fieldsFor (s : Survey) (schema : Schema) (typeSet : NameSet) :
    Except Error (List Declaration) := do
  Declaration.merge (← s.declarationsFor schema typeSet)

/-- A field of a type set comes from fields that were found, and so do its children. -/
theorem exists_of_mem_fieldsFor {s : Survey} {schema : Schema} {typeSet : NameSet}
    {merged : List Declaration} (hm : s.fieldsFor schema typeSet = .ok merged) {m : Declaration}
    (h : m ∈ merged) :
    s.found.occurrences ≠ [] ∧ ∀ c ∈ m.children, ∃ o ∈ s.found.occurrences, c ∈ o.children := by
  rw [fieldsFor] at hm
  obtain ⟨declarations, hd, hm⟩ := Error.bind_eq_ok.mp hm
  obtain ⟨hne, hchildren⟩ := Declaration.exists_of_mem_merge hm h
  have hfrom : ∀ m' ∈ declarations, ∃ o ∈ s.found.occurrences, m'.children = o.children := by
    intro m' hm'
    obtain ⟨o, ho, ho'⟩ := Error.exists_of_mem_mapM hd hm'
    rw [Occurrence.declaration] at ho'
    obtain ⟨info, -, ho'⟩ := Error.bind_eq_ok.mp ho'
    cases ho'
    exact ⟨o, (List.mem_filter.mp ho).1, rfl⟩
  refine ⟨?_, fun c hc ↦ ?_⟩
  · obtain ⟨m', hm'⟩ := List.exists_mem_of_ne_nil _ hne
    obtain ⟨o, ho, -⟩ := hfrom m' hm'
    exact List.ne_nil_of_mem ho
  · obtain ⟨m', hm', hc⟩ := hchildren c hc
    obtain ⟨o, ho, hoc⟩ := hfrom m' hm'
    exact ⟨o, ho, hoc ▸ hc⟩

theorem rank_lt_of_mem_fieldsFor {schema : Schema} {d : Document} {rawType : Name}
    {children : List Child} {s : Survey} (hs : ofChildren schema d rawType children = .ok s)
    {typeSet : NameSet} {merged : List Declaration} (hm : s.fieldsFor schema typeSet = .ok merged)
    {m : Declaration} (h : m ∈ merged) : d.rank m.children < d.rank children :=
  rank_lt hs (exists_of_mem_fieldsFor hm h).1 (exists_of_mem_fieldsFor hm h).2

end Survey

/-- Whether a declaration can be included at all. -/
def Declaration.canBeIncluded (d : Declaration) : Bool := !d.condition.isNever

/-- The `__typename` field, where it is to be added to fields that do not have it. -/
def addedTypename (wanted : Bool) (fields : List Declaration) : List Field :=
  if wanted && !fields.any (fun f ↦ f.responseName == Schema.typename) then [Field.typename] else []

set_option linter.unusedVariables false in
/-- Expands a declared field with all that is selected beneath it. -/
def expandField (schema : Schema) (d : Document) (policy : TypenamePolicy) (field : Declaration) :
    Except Error Field :=
  if schema.isComposite field.info.rawType then
    match hs : Survey.ofChildren schema d field.info.rawType field.children with
    | .error e => .error e
    | .ok survey => do
      let shapes ← survey.shapes schema
      let wanted := policy.applies (1 < shapes.length || schema.isAbstract field.info.rawType)
      let fieldSets ← shapes.mapM fun shape ↦
        match hm : survey.fieldsFor schema shape.typeSet with
        | .error e => .error e
        | .ok merged => do
          let fields ← (merged.filter Declaration.canBeIncluded).attach.mapM fun ⟨f, hf⟩ ↦
            expandField schema d policy f
          return { typeSet := shape.typeSet
                   possibleTypes := shape.possibleTypes
                   fields := addedTypename wanted merged ++ fields
                   fragments := survey.fragmentsFor shape.typeSet }
      return ⟨field.info, field.condition, fieldSets, survey.fragments⟩
  else
    .ok ⟨field.info, field.condition, [], []⟩
termination_by d.rank field.children
decreasing_by exact Survey.rank_lt_of_mem_fieldsFor hs hm (List.mem_filter.mp hf).1

/-- **How a field is expanded.** -/
theorem expandField_eq (schema : Schema) (d : Document) (policy : TypenamePolicy)
    (field : Declaration) :
    expandField schema d policy field =
      if schema.isComposite field.info.rawType then do
        let survey ← Survey.ofChildren schema d field.info.rawType field.children
        let shapes ← survey.shapes schema
        let wanted := policy.applies (1 < shapes.length || schema.isAbstract field.info.rawType)
        let fieldSets ← shapes.mapM fun shape ↦ do
          let merged ← survey.fieldsFor schema shape.typeSet
          let fields ← (merged.filter Declaration.canBeIncluded).mapM (expandField schema d policy)
          return { typeSet := shape.typeSet
                   possibleTypes := shape.possibleTypes
                   fields := addedTypename wanted merged ++ fields
                   fragments := survey.fragmentsFor shape.typeSet }
        return ⟨field.info, field.condition, fieldSets, survey.fragments⟩
      else
        .ok ⟨field.info, field.condition, [], []⟩ := by
  rw [expandField]
  split
  · split
    · rename_i e he
      rw [he]
      rfl
    · rename_i survey hs
      rw [hs]
      refine congrArg (survey.shapes schema >>= ·) (funext fun shapes ↦ ?_)
      refine congrArg (· >>= _) (congrArg (fun f ↦ shapes.mapM f) (funext fun shape ↦ ?_))
      split
      · rename_i e he
        rw [he]
        rfl
      · rename_i merged hm
        rw [hm, List.mapM_subtype fun f _ ↦ rfl, List.unattach_attach]
        rfl
  · rfl

/-- The children that stand at the top of a definition. -/
def rootChildren (selections : List Selection) (path : List Name) : List Child :=
  (Place.root.locate selections).map fun (place, selection) ↦ ⟨selection, place, path⟩

/-- The name of the field that the selections of a definition stand beneath. -/
def rootFieldName : Name := "data"

/-- Expands the selections of an operation or a named fragment on a type. A fragment is expanded
with its own name on the path. -/
def expandRoot (schema : Schema) (d : Document) (policy : TypenamePolicy) (rawType : Name)
    (selections : List Selection) (path : List Name) : Except Error Field := do
  let type ← schema.resolve (.nonNull (.named rawType))
  expandField schema d policy
    { info :=
        { name := rootFieldName
          alias? := none
          arguments := []
          type
          description := none
          deprecation := none }
      condition := .always
      children := rootChildren selections path }

end ResponseModels
