import Mathlib.Order.WellFounded
import ResponseModels.Build

/-!
# Why building ends

Two recursions do the work of a build. Selections are expanded into fields, field by field and
fragment by fragment, and the interfaces of fragments are built, each after those of the fragments
spread in it. Both go on through whatever a document holds, and fragments may lead back to
themselves, directly, through each other or through the selections beneath a field.

Here the recursions are taken apart. A `Call` is a call of one of the functions. `Call.step` is what
the function does with it, where `outcome` tells what its own calls give, and `Calls` lists these
calls. So a call ends (`Ends`) when all calls that it makes have ended. Nothing in this bounds the
depth.

* **No call leads to an endless chain of calls** (`wellFounded_calls`). Within the selections
  beneath a field the weight of the document goes down, from a field to the fields beneath it the
  rank of their children does, and from a fragment to those spread in it the number of fragments
  that do not wait yet.
* **Every call ends in one way, with a result or an error, and this is what the functions give**
  (`ends_iff_run`).
-/

set_option autoImplicit false

namespace ResponseModels

/-! ## Calls -/

/-- A call of one of the functions that expand selections and build fragments. -/
inductive Call where
  /-- Expanding the selections of a definition. -/
  | root (rawType : Name) (selections : List Selection) (path : List Name)
  /-- Expanding a field. -/
  | field (field : Declaration)
  /-- Filling one shape of a field. -/
  | fieldSet (survey : Survey) (wanted : Bool) (shape : Shape)
  /-- Surveying the children of a field. -/
  | children (fieldTypes : NameSet) (rawType : Name) (children : List Child)
      (expanded : List Expansion)
  /-- Surveying selections. -/
  | selections (fieldTypes : NameSet) (trail : Trail) (scope : Scope)
      (selections : List (Place × Selection)) (expanded : List Expansion)
  /-- Ensuring that a fragment is built. -/
  | ensure (active : List Name) (name : Name) (lib : FragmentLibrary)
  /-- Ensuring that fragments are built, one after the other. -/
  | ensureAll (active names : List Name) (lib : FragmentLibrary)
  /-- Building fragments into a library, one after the other. -/
  | fragments (rest : List Fragment) (lib : FragmentLibrary)
  /-- Building operations, one after the other. -/
  | operations (lib : FragmentLibrary) (named : List (Name × Operation)) (used : List Name)
  /-- Building the document. -/
  | document

namespace Call

/-- What a call gives when it succeeds. -/
@[reducible] def Result : Call → Type
  | .root .. => Field
  | .field _ => Field
  | .fieldSet .. => FieldSet
  | .children .. => Findings
  | .selections .. => Findings × List Expansion
  | .ensure .. => FragmentLibrary
  | .ensureAll .. => FragmentLibrary
  | .fragments .. => FragmentLibrary
  | .operations .. => List OperationModels × List Name
  | .document => Representation

variable (schema : Schema) (d : Document) (config : Config)

/-- What is done in a call, given what its own calls give. -/
def step (outcome : (c : Call) → Except Error c.Result) : (c : Call) → Except Error c.Result
  | .root rawType body path => do
    let type ← schema.resolve (.nonNull (.named rawType))
    outcome (.field
      { info :=
          { name := rootFieldName
            alias? := none
            arguments := []
            type
            description := none
            deprecation := none }
        condition := .always
        children := rootChildren body path })
  | .field f =>
    if schema.isComposite f.info.rawType then do
      let fieldTypes ← schema.possibleTypes f.info.rawType
      let found ← outcome (.children fieldTypes f.info.rawType f.children [])
      let survey : Survey := ⟨f.info.rawType, fieldTypes, found⟩
      let shapes ← survey.shapes schema
      let wanted := config.typename.applies (1 < shapes.length || schema.isAbstract f.info.rawType)
      let fieldSets ← shapes.mapM fun shape ↦ outcome (.fieldSet survey wanted shape)
      return ⟨f.info, f.condition, fieldSets, survey.fragments⟩
    else
      .ok ⟨f.info, f.condition, [], []⟩
  | .fieldSet survey wanted shape => do
    let merged ← survey.fieldsFor schema shape.typeSet
    let fields ← (merged.filter Declaration.canBeIncluded).mapM fun f ↦ outcome (.field f)
    return { typeSet := shape.typeSet
             possibleTypes := shape.possibleTypes
             fields := addedTypename wanted merged ++ fields
             fragments := survey.fragmentsFor shape.typeSet }
  | .children _ _ [] _ => .ok .none
  | .children fieldTypes rawType (c :: rest) expanded => do
    let (found, expanded) ← outcome
      (.selections fieldTypes ⟨c.path, true⟩ (.ofField rawType) [(c.place, c.selection)] expanded)
    return found ++ (← outcome (.children fieldTypes rawType rest expanded))
  | .selections _ _ _ [] expanded => .ok (.none, expanded)
  | .selections fieldTypes trail scope ((place, .field head beneath) :: rest) expanded => do
    let condition ← Condition.ofDirectives head.directives head.responseName
    let here : Occurrence :=
      { head, selections := beneath, place, path := trail.path
        scope := { scope with condition := scope.condition.and condition } }
    let (found, expanded) ← outcome (.selections fieldTypes trail scope rest expanded)
    return (⟨[here], []⟩ ++ found, expanded)
  | .selections fieldTypes trail scope ((place, .inline typeCondition directives beneath) :: rest)
      expanded => do
    let typeCondition := typeCondition.getD scope.parentType
    let condition ← Condition.ofDirectives directives s!"... on {typeCondition}"
    let entered ← scope.enter schema fieldTypes typeCondition condition
    let (inside, expanded) ← (match entered with
      | none => .ok (.none, expanded)
      | some (inner, narrows) => do
        let here : Entry := ⟨typeCondition, inner.typeSet, narrows, none⟩
        let (found, expanded) ← outcome
          (.selections fieldTypes trail inner (place.locate beneath) expanded)
        return (⟨[], [here]⟩ ++ found, expanded) : Except Error (Findings × List Expansion))
    let (found, expanded) ← outcome (.selections fieldTypes trail scope rest expanded)
    return (inside ++ found, expanded)
  | .selections fieldTypes trail scope ((_, .spread name directives) :: rest) expanded =>
    match d.fragment? name with
    | none => .error (.unknown .fragment name)
    | some fragment =>
      if name ∈ trail.path then
        .error (.fragmentCycle name (trail.path ++ [name]))
      else do
        let condition ← Condition.ofDirectives directives s!"...{name}"
        let entered ← scope.enter schema fieldTypes fragment.typeCondition condition
        let (inside, expanded) ← (match entered with
          | none => .ok (.none, expanded)
          | some (inner, narrows) =>
            let spread := if trail.direct then some name else none
            let here : Entry := ⟨fragment.typeCondition, inner.typeSet, narrows, spread⟩
            let expansion : Expansion := ⟨name, inner.typeSet, inner.condition⟩
            if expansion ∈ expanded then .ok (⟨[], [here]⟩, expanded)
            else do
              let (found, expanded) ← outcome (.selections fieldTypes (trail.into name) inner
                ((Place.fragment name).locate fragment.selections) (expanded ++ [expansion]))
              return (⟨[], [here]⟩ ++ found, expanded) : Except Error (Findings × List Expansion))
        let (found, expanded) ← outcome (.selections fieldTypes trail scope rest expanded)
        return (inside ++ found, expanded)
  | .ensure active name lib =>
    if (lib.built? name).isSome then .ok lib
    else if name ∈ active then .error (.fragmentCycle name (active ++ [name]))
    else
      Error.wrap (fragmentTitle name) <|
        match d.fragment? name with
        | none => .error (.unknown .fragment name)
        | some fragment => do
          let field ← outcome (.root fragment.typeCondition fragment.selections [name])
          let lib ← outcome
            (.ensureAll (active ++ [name]) (NameSet.ofList field.spreads).toList lib)
          let interface ← field.modelGroup (lib.interfaceOf (active ++ [name]))
            { root := .fragmentInterface name, path := []
              baseName := name, interfacesOnly := true } []
          return { lib with built := lib.built ++ [⟨name, field, interface⟩] }
  | .ensureAll _ [] lib => .ok lib
  | .ensureAll active (name :: rest) lib => do
    let lib ← outcome (.ensure active name lib)
    outcome (.ensureAll active rest lib)
  | .fragments [] lib => .ok lib
  | .fragments (fragment :: rest) lib => do
    let lib ← outcome (.ensure [] fragment.name lib)
    let lib ← (if config.fragmentImplementations then lib.implement fragment.name else
      return lib : Except Error FragmentLibrary)
    outcome (.fragments rest lib)
  | .operations _ [] used => .ok ([], used)
  | .operations lib ((name, o) :: rest) used => do
    let built ← Error.wrap s!"{o.kind.text} \"{name}\"" (do
      let rootType ← schema.root o.kind
      let field ← outcome (.root rootType o.selections [])
      let group ← field.modelGroup (lib.interfaceOf [])
        { root := .operation name, path := []
          baseName := dataModelName, interfacesOnly := false } []
      let inputs ← o.variableDefinitions.mapM schema.resolveVariable
      let fragmentNames ← lib.usedFragments field
      return { name
               kind := o.kind
               inputs
               field
               group
               fragmentNames
               source := d.operationSource o fragmentNames
               flatModels := config.flatModels group } : Except Error OperationModels)
    let used ← schema.addUsedTypes built.field.typeNames used
    let used ← schema.addUsedTypes (built.inputs.map fun v ↦ v.type.base.name) used
    let (others, used) ← outcome (.operations lib rest used)
    return (built :: others, used)
  | .document =>
    if d.operations.any fun o ↦ o.name.isNone then
      .error ((Error.unknown .operationName "<anonymous>").inDefinition "anonymous operation")
    else do
      let lib ← outcome (.fragments d.fragments .empty)
      let (fragmentModels, used) ← buildFragments schema config lib d.fragments []
      let (operationModels, used) ← outcome (.operations lib d.namedOperations used)
      return { operations := operationModels
               fragments := fragmentModels
               inputObjects := ← schema.usedInputObjects used
               enums := schema.usedEnums used
               scalars := schema.usedScalars used }

/-- What the function that is called gives. -/
def run : (c : Call) → Except Error c.Result
  | .root rawType body path => expandRoot schema d config.typename rawType body path
  | .field f => expandField schema d config.typename f
  | .fieldSet survey wanted shape => do
    let merged ← survey.fieldsFor schema shape.typeSet
    let fields ← (merged.filter Declaration.canBeIncluded).mapM
      (expandField schema d config.typename)
    return { typeSet := shape.typeSet
             possibleTypes := shape.possibleTypes
             fields := addedTypename wanted merged ++ fields
             fragments := survey.fragmentsFor shape.typeSet }
  | .children fieldTypes rawType beneath expanded =>
    surveyChildren schema d fieldTypes rawType beneath expanded
  | .selections fieldTypes trail scope listed expanded =>
    surveySelections schema d fieldTypes trail scope listed expanded
  | .ensure active name lib => lib.ensure schema d config active name
  | .ensureAll active names lib =>
    names.foldlM (fun lib name ↦ lib.ensure schema d config active name) lib
  | .fragments rest lib => rest.foldlM (fun lib fragment ↦ do
      let lib ← lib.ensure schema d config [] fragment.name
      if config.fragmentImplementations then lib.implement fragment.name else return lib) lib
  | .operations lib named used => buildOperations schema d config lib named used
  | .document => build schema config d

end Call

/-- The first call is made in the second. -/
inductive Calls (schema : Schema) (d : Document) : Call → Call → Prop
  | field_of_root {rawType : Name} {selections : List Selection} {path : List Name}
      (info : FieldInfo) :
      Calls schema d (.field ⟨info, .always, rootChildren selections path⟩)
        (.root rawType selections path)
  | children_of_field {field : Declaration} (fieldTypes : NameSet) :
      Calls schema d (.children fieldTypes field.info.rawType field.children []) (.field field)
  | fieldSet_of_field {field : Declaration} {survey : Survey} (wanted : Bool) (shape : Shape)
      (surveyed : Survey.ofChildren schema d field.info.rawType field.children = .ok survey) :
      Calls schema d (.fieldSet survey wanted shape) (.field field)
  | field_of_fieldSet {survey : Survey} {wanted : Bool} {shape : Shape} {merged : List Declaration}
      {m : Declaration} (fields : survey.fieldsFor schema shape.typeSet = .ok merged)
      (among : m ∈ merged) :
      Calls schema d (.field m) (.fieldSet survey wanted shape)
  | selections_of_children {fieldTypes : NameSet} {rawType : Name} {c : Child} {rest : List Child}
      {expanded : List Expansion} :
      Calls schema d
        (.selections fieldTypes ⟨c.path, true⟩ (.ofField rawType) [(c.place, c.selection)] expanded)
        (.children fieldTypes rawType (c :: rest) expanded)
  | children_after {fieldTypes : NameSet} {rawType : Name} {c : Child} {rest : List Child}
      {expanded : List Expansion} (expanded' : List Expansion) :
      Calls schema d (.children fieldTypes rawType rest expanded')
        (.children fieldTypes rawType (c :: rest) expanded)
  | selections_after {fieldTypes : NameSet} {trail : Trail} {scope : Scope} {s : Place × Selection}
      {rest : List (Place × Selection)} {expanded : List Expansion} (expanded' : List Expansion) :
      Calls schema d (.selections fieldTypes trail scope rest expanded')
        (.selections fieldTypes trail scope (s :: rest) expanded)
  | inside_inline {fieldTypes : NameSet} {trail : Trail} {scope : Scope} {place : Place}
      {typeCondition : Option Name} {directives : List Directive} {selections : List Selection}
      {rest : List (Place × Selection)} {expanded : List Expansion} (inner : Scope) :
      Calls schema d (.selections fieldTypes trail inner (place.locate selections) expanded)
        (.selections fieldTypes trail scope
          ((place, .inline typeCondition directives selections) :: rest) expanded)
  | inside_spread {fieldTypes : NameSet} {trail : Trail} {scope : Scope} {place : Place}
      {name : Name} {directives : List Directive} {fragment : Fragment}
      {rest : List (Place × Selection)} {expanded : List Expansion}
      (found : d.fragment? name = some fragment) (fresh : name ∉ trail.path) (inner : Scope)
      (expanded' : List Expansion) :
      Calls schema d
        (.selections fieldTypes (trail.into name) inner
          ((Place.fragment name).locate fragment.selections) expanded')
        (.selections fieldTypes trail scope ((place, .spread name directives) :: rest) expanded)
  | root_of_ensure {active : List Name} {name : Name} {lib : FragmentLibrary} {fragment : Fragment}
      (found : d.fragment? name = some fragment) :
      Calls schema d (.root fragment.typeCondition fragment.selections [name])
        (.ensure active name lib)
  | ensureAll_of_ensure {active : List Name} {name : Name} {lib : FragmentLibrary}
      {fragment : Fragment} (found : d.fragment? name = some fragment) (free : name ∉ active)
      (names : List Name) :
      Calls schema d (.ensureAll (active ++ [name]) names lib) (.ensure active name lib)
  | ensure_of_ensureAll {active rest : List Name} {name : Name} {lib : FragmentLibrary} :
      Calls schema d (.ensure active name lib) (.ensureAll active (name :: rest) lib)
  | ensureAll_after {active rest : List Name} {name : Name} {lib : FragmentLibrary}
      (lib' : FragmentLibrary) :
      Calls schema d (.ensureAll active rest lib') (.ensureAll active (name :: rest) lib)
  | ensure_of_fragments {fragment : Fragment} {rest : List Fragment} {lib : FragmentLibrary} :
      Calls schema d (.ensure [] fragment.name lib) (.fragments (fragment :: rest) lib)
  | fragments_after {fragment : Fragment} {rest : List Fragment} {lib : FragmentLibrary}
      (lib' : FragmentLibrary) :
      Calls schema d (.fragments rest lib') (.fragments (fragment :: rest) lib)
  | root_of_operations {lib : FragmentLibrary} {name : Name} {o : Operation}
      {rest : List (Name × Operation)} {used : List Name} (rootType : Name) :
      Calls schema d (.root rootType o.selections []) (.operations lib ((name, o) :: rest) used)
  | operations_after {lib : FragmentLibrary} {p : Name × Operation} {rest : List (Name × Operation)}
      {used : List Name} (used' : List Name) :
      Calls schema d (.operations lib rest used') (.operations lib (p :: rest) used)
  | fragments_of_document : Calls schema d (.fragments d.fragments .empty) .document
  | operations_of_document (lib : FragmentLibrary) (used : List Name) :
      Calls schema d (.operations lib d.namedOperations used) .document

/-- A call ends with an outcome when all calls made in it end. -/
inductive Ends (schema : Schema) (d : Document) (config : Config) :
    (c : Call) → Except Error c.Result → Prop
  | intro (c : Call) (outcome : (c : Call) → Except Error c.Result)
      (callees : ∀ c', Calls schema d c' c → Ends schema d config c' (outcome c')) :
      Ends schema d config c (c.step schema d config outcome)

/-! ## No endless chains -/

/-- The children of all fields that a survey found. -/
def Survey.beneath (s : Survey) : List Child := s.found.occurrences.flatMap Occurrence.children

theorem Document.rank_le_of_subset {d : Document} {children children' : List Child}
    (h : children ⊆ children') :
    d.rank children ≤ d.rank children' :=
  Nat.le_of_lt_succ <| d.rank_lt_of_forall (Nat.succ_pos _) fun _ hc ↦
    Nat.lt_succ_of_le (d.weight_le_rank (h hc))

/-- How much a call has before it, by the kind of call first. A shape for which no fields were found
makes no calls. -/
def Call.extent (d : Document) : Call → Nat × Nat × Nat
  | .selections _ trail _ listed _ => (0, d.weight trail.path (listed.map Prod.snd), 0)
  | .children _ _ beneath _ => (1, beneath.length, 0)
  | .field f => (2, d.rank f.children, 1)
  | .fieldSet survey _ _ =>
    if survey.found.occurrences = [] then (2, 0, 0) else (2, d.rank survey.beneath, 2)
  | .root .. => (3, 0, 0)
  | .ensure active _ _ => (4, d.room active, 0)
  | .ensureAll active names _ => (4, d.room active, names.length + 1)
  | .fragments rest _ => (5, rest.length, 0)
  | .operations _ named _ => (5, named.length, 0)
  | .document => (6, 0, 0)

/-- The order of extents. -/
def Call.Shorter : Nat × Nat × Nat → Nat × Nat × Nat → Prop :=
  Prod.Lex (· < ·) (Prod.Lex (· < ·) (· < ·))

namespace Call.Shorter

variable {kind kind' m m' n n' : Nat}

theorem of_kind (h : kind < kind') : Shorter (kind, m, n) (kind', m', n') := .left _ _ h

theorem of_main (h : m < m') : Shorter (kind, m, n) (kind, m', n') := .right _ (.left _ _ h)

theorem of_last (h : n < n') : Shorter (kind, m, n) (kind, m, n') := .right _ (.right _ h)

/-- Two extents of a kind, where what is last decides if the rest can be the same. -/
theorem of_le (h : m ≤ m') (hlast : n < n') : Shorter (kind, m, n) (kind, m', n') := by
  rcases Nat.lt_or_eq_of_le h with hlt | rfl
  · exact of_main hlt
  · exact of_last hlast

end Call.Shorter

open Call.Shorter in
/-- **Every call that is made has less before it.** -/
theorem Calls.shorter {schema : Schema} {d : Document} {c' c : Call} (h : Calls schema d c' c) :
    Call.Shorter (c'.extent d) (c.extent d) := by
  cases h with
  | field_of_root info => exact of_kind (by decide)
  | children_of_field fieldTypes => exact of_kind (by decide)
  | @fieldSet_of_field field survey wanted shape surveyed =>
    rw [Call.extent, Call.extent]
    split
    · exact of_le (Nat.zero_le _) Nat.zero_lt_one
    · rename_i hne
      exact of_main (Survey.rank_lt surveyed hne fun c hc ↦ List.mem_flatMap.mp hc)
  | @field_of_fieldSet survey wanted shape merged m fields among =>
    obtain ⟨hne, hfrom⟩ := Survey.exists_of_mem_fieldsFor fields among
    rw [Call.extent, Call.extent, if_neg hne]
    exact of_le (Document.rank_le_of_subset fun c hc ↦ List.mem_flatMap.mpr (hfrom c hc))
      (by decide)
  | selections_of_children => exact of_kind Nat.zero_lt_one
  | children_after expanded' => exact of_main (Nat.lt_succ_self _)
  | selections_after expanded' => exact of_main d.weight_tail_lt
  | inside_inline inner =>
    refine of_main ?_
    rw [Place.map_snd_locate]
    exact d.weight_inline_lt
  | inside_spread found fresh inner expanded' =>
    refine of_main ?_
    have hname := Document.name_of_fragment? found
    subst hname
    rw [Place.map_snd_locate]
    exact d.weight_expand_lt (Document.mem_of_fragment? found) fresh _
  | root_of_ensure found => exact of_kind (by decide)
  | ensureAll_of_ensure found free names =>
    refine of_main ?_
    have hname := Document.name_of_fragment? found
    subst hname
    exact d.room_lt (Document.mem_of_fragment? found) free
  | ensure_of_ensureAll => exact of_last (Nat.succ_pos _)
  | ensureAll_after lib' => exact of_last (Nat.lt_succ_self _)
  | ensure_of_fragments => exact of_kind (by decide)
  | fragments_after lib' => exact of_main (Nat.lt_succ_self _)
  | root_of_operations rootType => exact of_kind (by decide)
  | operations_after used' => exact of_main (Nat.lt_succ_self _)
  | fragments_of_document => exact of_kind (by decide)
  | operations_of_document lib used => exact of_kind (by decide)

/-- **There is no endless chain of calls.** -/
theorem wellFounded_calls (schema : Schema) (d : Document) : WellFounded (Calls schema d) := by
  have hwf : WellFounded Call.Shorter :=
    Nat.lt_wfRel.wf.prod_lex (Nat.lt_wfRel.wf.prod_lex Nat.lt_wfRel.wf)
  exact Subrelation.wf Calls.shorter (InvImage.wf (Call.extent d) hwf)

/-! ## Outcomes -/

section

variable {schema : Schema} {d : Document} {config : Config}

theorem mapM_congr {α β : Type} {f g : α → Except Error β} {l : List α} (h : ∀ a ∈ l, f a = g a) :
    l.mapM f = l.mapM g := by
  induction l with
  | nil => rfl
  | cons a rest ih =>
    rw [List.mapM_cons, List.mapM_cons, h a List.mem_cons_self, ih fun a' ha' ↦
      h a' (List.mem_cons_of_mem a ha')]

theorem bind_congr_ok {α β : Type} {x : Except Error α} {f g : α → Except Error β}
    (h : ∀ a, x = .ok a → f a = g a) :
    (x >>= f) = (x >>= g) := by
  cases x with
  | error e => rfl
  | ok a => exact h a rfl

theorem Call.step_selections {fieldTypes : NameSet} {trail : Trail} {scope : Scope}
    {listed : List (Place × Selection)} {expanded : List Expansion}
    {outcome : (c : Call) → Except Error c.Result}
    (h : ∀ c', Calls schema d c' (.selections fieldTypes trail scope listed expanded) →
      outcome c' = c'.run schema d config) :
    Call.step schema d config outcome (.selections fieldTypes trail scope listed expanded) =
      surveySelections schema d fieldTypes trail scope listed expanded := by
  cases listed with
  | nil => rw [surveySelections, Call.step]
  | cons first rest =>
    obtain ⟨place, s⟩ := first
    have hrest : ∀ expanded', outcome (.selections fieldTypes trail scope rest expanded') =
        surveySelections schema d fieldTypes trail scope rest expanded' :=
          fun expanded' ↦ h _ (.selections_after expanded')
    cases s with
    | field head beneath =>
      rw [surveySelections, Call.step]
      simp only [hrest]
    | inline typeCondition directives beneath =>
      have hinside : ∀ inner,
          outcome (.selections fieldTypes trail inner (place.locate beneath) expanded) =
            surveySelections schema d fieldTypes trail inner (place.locate beneath) expanded :=
        fun inner ↦ h _ (.inside_inline inner)
      rw [surveySelections, Call.step]
      refine bind_congr fun condition ↦ bind_congr fun entered ↦ ?_
      cases entered with
      | none => simp only [hrest]
      | some entered => simp only [hrest, hinside]
    | spread name directives =>
      rw [surveySelections, Call.step]
      cases hf : d.fragment? name with
      | none => rfl
      | some fragment =>
        by_cases hp : name ∈ trail.path
        · simp only [dif_pos hp, if_pos hp]
        have hinside : ∀ inner expanded',
            outcome (.selections fieldTypes (trail.into name) inner
              ((Place.fragment name).locate fragment.selections) expanded') =
            surveySelections schema d fieldTypes (trail.into name) inner
              ((Place.fragment name).locate fragment.selections) expanded' :=
          fun inner expanded' ↦ h _ (.inside_spread hf hp inner expanded')
        simp only [dif_neg hp, if_neg hp]
        refine bind_congr fun condition ↦ bind_congr fun entered ↦ ?_
        cases entered with
        | none => simp only [hrest]
        | some entered => simp only [hrest, hinside]

theorem Call.step_ensure {active : List Name} {name : Name} {lib : FragmentLibrary}
    {outcome : (c : Call) → Except Error c.Result}
    (h : ∀ c', Calls schema d c' (.ensure active name lib) → outcome c' = c'.run schema d config) :
    Call.step schema d config outcome (.ensure active name lib) =
      lib.ensure schema d config active name := by
  rw [FragmentLibrary.ensure, Call.step]
  split
  · rfl
  split
  · rfl
  rename_i hfree
  refine congrArg (Error.wrap (fragmentTitle name)) ?_
  cases hf : d.fragment? name with
  | none => rfl
  | some fragment =>
    show (outcome (.root fragment.typeCondition fragment.selections [name]) >>= _) = _
    rw [h _ (.root_of_ensure hf)]
    refine bind_congr fun field ↦ ?_
    rw [h _ (.ensureAll_of_ensure hf hfree _)]
    rfl

theorem Call.step_operations {lib : FragmentLibrary} {named : List (Name × Operation)}
    {used : List Name} {outcome : (c : Call) → Except Error c.Result}
    (h : ∀ c', Calls schema d c' (.operations lib named used) →
      outcome c' = c'.run schema d config) :
    Call.step schema d config outcome (.operations lib named used) =
      buildOperations schema d config lib named used := by
  cases named with
  | nil => rfl
  | cons p rest =>
    have hrest : ∀ used', outcome (.operations lib rest used') =
        buildOperations schema d config lib rest used' :=
      fun used' ↦ h _ (.operations_after used')
    have hroot : ∀ rootType, outcome (.root rootType p.2.selections []) =
        expandRoot schema d config.typename rootType p.2.selections [] :=
          fun rootType ↦ h _ (.root_of_operations rootType)
    rw [buildOperations, Call.step]
    simp only [hrest, hroot]
    rfl

/-- What a function does with a call depends only on what the calls give that it makes. -/
theorem Call.step_eq_run {c : Call} {outcome : (c : Call) → Except Error c.Result}
    (h : ∀ c', Calls schema d c' c → outcome c' = c'.run schema d config) :
    c.step schema d config outcome = c.run schema d config := by
  cases c with
  | root rawType body path => exact bind_congr fun type ↦ h _ (.field_of_root _)
  | field f =>
    rw [Call.run, expandField_eq, Call.step]
    split
    · rw [Survey.ofChildren, bind_assoc]
      refine bind_congr_ok fun fieldTypes htypes ↦ ?_
      rw [h _ (.children_of_field fieldTypes), Call.run, bind_assoc]
      refine bind_congr_ok fun found hfound ↦ ?_
      have hs : Survey.ofChildren schema d f.info.rawType f.children =
          .ok ⟨f.info.rawType, fieldTypes, found⟩ :=
        Error.bind_eq_ok.mpr ⟨fieldTypes, htypes, Error.bind_eq_ok.mpr ⟨found, hfound, rfl⟩⟩
      refine bind_congr fun shapes ↦ ?_
      refine congrArg (· >>= _) (mapM_congr fun shape _ ↦ ?_)
      exact h _ (.fieldSet_of_field _ shape hs)
    · rfl
  | fieldSet survey wanted shape =>
    refine bind_congr_ok fun merged hmerged ↦ congrArg (· >>= _) (mapM_congr fun m hm ↦ ?_)
    exact h _ (.field_of_fieldSet hmerged (List.mem_filter.mp hm).1)
  | children fieldTypes rawType beneath expanded =>
    cases beneath with
    | nil => rfl
    | cons c rest =>
      rw [Call.run, Call.step, surveyChildren, h _ .selections_of_children]
      refine bind_congr fun first ↦ ?_
      obtain ⟨found, expanded'⟩ := first
      exact congrArg (· >>= _) (h _ (.children_after expanded'))
  | selections fieldTypes trail scope listed expanded => exact step_selections h
  | ensure active name lib => exact step_ensure h
  | ensureAll active names lib =>
    cases names with
    | nil => rfl
    | cons name rest =>
      rw [Call.run, Call.step, List.foldlM_cons, h _ .ensure_of_ensureAll]
      exact bind_congr fun lib' ↦ h _ (.ensureAll_after lib')
  | fragments rest lib =>
    cases rest with
    | nil => rfl
    | cons fragment rest =>
      rw [Call.run, Call.step, List.foldlM_cons, h _ .ensure_of_fragments, bind_assoc]
      exact bind_congr fun lib₁ ↦ bind_congr fun lib₂ ↦ h _ (.fragments_after lib₂)
  | operations lib named used => exact step_operations h
  | document =>
    rw [Call.run, build, Call.step]
    split
    · rfl
    · rw [h _ .fragments_of_document]
      refine bind_congr fun lib ↦ bind_congr fun built ↦ ?_
      obtain ⟨_, used⟩ := built
      exact congrArg (· >>= _) (h _ (.operations_of_document lib used))

/-- **Every call ends in one way**, and this is what the function gives. -/
theorem ends_iff_run (c : Call) (r : Except Error c.Result) :
    Ends schema d config c r ↔ c.run schema d config = r := by
  constructor
  · intro h
    induction h with
    | intro c outcome callees ih => exact (Call.step_eq_run fun c' hc' ↦ (ih c' hc').symm).symm
  · rintro rfl
    induction c using (wellFounded_calls schema d).induction with
    | _ c ih =>
      have hstep : c.step schema d config (Call.run schema d config) = c.run schema d config :=
        Call.step_eq_run fun c' _ ↦ rfl
      rw [← hstep]
      exact .intro c _ ih

end

/-- **Building ends on every document.** Whatever a schema and a document hold, there is no endless
chain of calls in the recursions that expand selections and build fragments, and each of their
calls, like the build as a whole, ends with exactly one result or error. -/
theorem building_ends (schema : Schema) (d : Document) (config : Config) :
    WellFounded (Calls schema d) ∧
      ∀ (c : Call) (r : Except Error c.Result), Ends schema d config c r ↔
      c.run schema d config = r :=
  ⟨wellFounded_calls schema d, ends_iff_run⟩

end ResponseModels
