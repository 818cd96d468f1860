import ResponseModels.Collect.Declaration
import ResponseModels.Collect.Weight
import ResponseModels.Condition.Directives
import ResponseModels.Shape

/-!
# Surveying the selections beneath a field

Before anything is decided about a composite field, the selections beneath it are surveyed: every
field selected there, through any number of inline fragments and spreads, is noted with the type
conditions and the condition on the way to it, and every fragment that is entered is noted with its
type set.

* A fragment whose type condition every object type of the field satisfies adds nothing to the type
  set.
* A fragment that can never be included is not entered.
* A named fragment that was expanded under the same type set and condition before is noted again but
  not expanded again: it would only find the same fields.
* A named fragment that is already being expanded is an error.

The last rule is why the survey ends: `Document.weight` goes down with every fragment that is
entered. The result carries the measure on. What is selected beneath a field that was found weighs
less than the selections it was found in (`weight_lt_of_mem_occurrences`), and so children that come
from such fields rank below the children surveyed (`Survey.rank_lt`), which is what makes collecting
field by field end too.
-/

set_option autoImplicit false

namespace ResponseModels

/-! ## What is found -/

/-- Which conditions hold where a selection stands beneath the field being surveyed. -/
structure Scope where
  /-- The raw type of the field and the type conditions on the way that narrow it. -/
  typeSet : NameSet
  /-- The innermost type condition, or the raw type of the field. -/
  parentType : Name
  /-- When the selection is reached. -/
  condition : Condition

/-- The scope of the selections right beneath a field. -/
def Scope.ofField (rawType : Name) : Scope := ⟨{rawType}, rawType, .always⟩

/-- Which named fragments are being expanded. -/
structure Trail where
  /-- Their names, the outermost first. -/
  path : List Name
  /-- Whether none of them was entered since the field being surveyed. -/
  direct : Bool

/-- The trail inside a further fragment. -/
def Trail.into (t : Trail) (fragment : Name) : Trail := ⟨t.path ++ [fragment], false⟩

/-- A field that was found. Its own condition is part of the scope's. -/
structure Occurrence where
  /-- The field as it is written. -/
  head : FieldHead
  /-- What is selected beneath it. -/
  selections : List Selection
  /-- Where it stands in the document. -/
  place : Place
  /-- What the fragments around it and its own directives add up to. -/
  scope : Scope
  /-- The named fragments that were being expanded. -/
  path : List Name

/-- The selections beneath an occurrence. -/
def Occurrence.children (o : Occurrence) : List Child :=
  (o.place.locate o.selections).map fun (place, selection) ↦ ⟨selection, place, o.path⟩

theorem Occurrence.weight_child_le (o : Occurrence) (d : Document) {c : Child}
    (h : c ∈ o.children) : d.weight c.path [c.selection] ≤ d.weight o.path o.selections := by
  rw [children] at h
  obtain ⟨⟨place, selection⟩, hmem, rfl⟩ := List.mem_map.mp h
  exact d.weight_singleton_le (o.place.map_snd_locate o.selections ▸ List.mem_map_of_mem hmem)

/-- An inline fragment or spread that was entered. -/
structure Entry where
  /-- The type condition; the enclosing type if none is written. -/
  typeCondition : Name
  /-- The type set inside. -/
  typeSet : NameSet
  /-- Whether some object type of the field does not satisfy the type condition. -/
  narrows : Bool
  /-- The fragment that is spread here, unless the spread itself stands in another named
  fragment. -/
  spread : Option Name

/-- What a stretch of selections contributes to a survey. -/
structure Findings where
  /-- The fields that were found, in order. -/
  occurrences : List Occurrence
  /-- The fragments that were entered, in order. -/
  entries : List Entry

namespace Findings

/-- Nothing was found. -/
def none : Findings := ⟨[], []⟩

instance : Append Findings where
  append a b := ⟨a.occurrences ++ b.occurrences, a.entries ++ b.entries⟩

@[simp] theorem occurrences_none : none.occurrences = [] := rfl

@[simp] theorem occurrences_append (a b : Findings) :
    (a ++ b).occurrences = a.occurrences ++ b.occurrences := rfl

@[simp] theorem entries_none : none.entries = [] := rfl

@[simp] theorem entries_append (a b : Findings) : (a ++ b).entries = a.entries ++ b.entries := rfl

end Findings

/-- A named fragment that was expanded, and where. -/
structure Expansion where
  /-- The name of the fragment. -/
  fragment : Name
  /-- The type set inside. -/
  typeSet : NameSet
  /-- The condition inside. -/
  condition : Condition
  deriving DecidableEq

/-! ## The survey -/

/-- Enters an inline fragment or spread: the scope inside, and whether the type condition narrows
the field. Nothing if it is never included. -/
def Scope.enter (scope : Scope) (schema : Schema) (fieldTypes : NameSet) (typeCondition : Name)
    (condition : Condition) : Except Error (Option (Scope × Bool)) := do
  let types ← schema.possibleTypes typeCondition
  let narrows := !decide (fieldTypes ⊆ types)
  let condition := scope.condition.and condition
  if condition.isNever then
    return none
  else
    return some ({ scope with
      typeSet := if narrows then scope.typeSet.insert typeCondition else scope.typeSet
      parentType := typeCondition
      condition := condition }, narrows)

set_option linter.unusedVariables false in
/-- Surveys selections in a scope. `expanded` are the fragments expanded before; those expanded here
are added to them. -/
def surveySelections (schema : Schema) (d : Document) (fieldTypes : NameSet) (trail : Trail)
    (scope : Scope) (selections : List (Place × Selection)) (expanded : List Expansion) :
    Except Error (Findings × List Expansion) :=
  match selections with
  | [] => .ok (.none, expanded)
  | (place, .field head selections) :: rest => do
    let condition ← Condition.ofDirectives head.directives head.responseName
    let here : Occurrence :=
      { head, selections, place, path := trail.path
        scope := { scope with condition := scope.condition.and condition } }
    let (found, expanded) ← surveySelections schema d fieldTypes trail scope rest expanded
    return (⟨[here], []⟩ ++ found, expanded)
  | (place, .inline typeCondition directives selections) :: rest => do
    let typeCondition := typeCondition.getD scope.parentType
    let condition ← Condition.ofDirectives directives s!"... on {typeCondition}"
    let entered ← scope.enter schema fieldTypes typeCondition condition
    let (inside, expanded) ← (match entered with
      | none => .ok (.none, expanded)
      | some (inner, narrows) => do
        let here : Entry := ⟨typeCondition, inner.typeSet, narrows, none⟩
        let (found, expanded) ←
          surveySelections schema d fieldTypes trail inner (place.locate selections) expanded
        return (⟨[], [here]⟩ ++ found, expanded) : Except Error (Findings × List Expansion))
    let (found, expanded) ← surveySelections schema d fieldTypes trail scope rest expanded
    return (inside ++ found, expanded)
  | (_, .spread name directives) :: rest =>
    match hf : d.fragment? name with
    | none => .error (.unknown .fragment name)
    | some fragment =>
      if hp : name ∈ trail.path then
        .error (.fragmentCycle name (trail.path ++ [name]))
      else do
        let condition ← Condition.ofDirectives directives s!"...{name}"
        let entered ← scope.enter schema fieldTypes fragment.typeCondition condition
        let (inside, expanded) ← (match entered with
          | none => .ok (.none, expanded)
          | some (inner, narrows) =>
            let spread := if trail.direct then some name else none
            let here : Entry := ⟨fragment.typeCondition, inner.typeSet, narrows, spread⟩
            let expansion : Expansion := ⟨name, inner.typeSet, inner.condition⟩
            if expansion ∈ expanded then .ok (⟨[], [here]⟩, expanded)
            else do
              let (found, expanded) ←
                surveySelections schema d fieldTypes (trail.into name) inner
                  ((Place.fragment name).locate fragment.selections) (expanded ++ [expansion])
              return (⟨[], [here]⟩ ++ found, expanded) : Except Error (Findings × List Expansion))
        let (found, expanded) ← surveySelections schema d fieldTypes trail scope rest expanded
        return (inside ++ found, expanded)
termination_by d.weight trail.path (selections.map Prod.snd)
decreasing_by
  · exact d.weight_tail_lt
  · rw [Place.map_snd_locate]
    exact d.weight_inline_lt
  · exact d.weight_tail_lt
  · rw [Place.map_snd_locate, ← Document.name_of_fragment? hf]
    exact d.weight_expand_lt (Document.mem_of_fragment? hf) (Document.name_of_fragment? hf ▸ hp) _
  · exact d.weight_tail_lt

/-- **What is selected beneath a field that was found weighs less than what it was found in.** -/
theorem weight_lt_of_mem_occurrences {schema : Schema} {d : Document} {fieldTypes : NameSet}
    {trail : Trail} {scope : Scope} {selections : List (Place × Selection)}
    {expanded expanded' : List Expansion} {found : Findings}
    (h : surveySelections schema d fieldTypes trail scope selections expanded =
      .ok (found, expanded')) {o : Occurrence} (ho : o ∈ found.occurrences) :
    d.weight o.path o.selections < d.weight trail.path (selections.map Prod.snd) := by
  induction trail, scope, selections, expanded using surveySelections.induct d
    generalizing found expanded' with
  | case1 trail scope expanded =>
    rw [surveySelections] at h
    cases h
    exact absurd ho List.not_mem_nil
  | case2 trail scope expanded place head selections rest ih =>
    rw [surveySelections] at h
    obtain ⟨condition, -, h⟩ := Error.bind_eq_ok.mp h
    obtain ⟨⟨later, expanded₁⟩, hlater, h⟩ := Error.bind_eq_ok.mp h
    cases h
    rcases List.mem_cons.mp ho with rfl | ho
    · exact d.weight_field_lt
    · exact Nat.lt_trans (ih hlater ho) d.weight_tail_lt
  | case3 trail scope expanded place typeCondition directives selections rest ihInside ihRest =>
    rw [surveySelections] at h
    obtain ⟨condition, -, h⟩ := Error.bind_eq_ok.mp h
    obtain ⟨entered, -, h⟩ := Error.bind_eq_ok.mp h
    obtain ⟨⟨inside, expanded₁⟩, hinside, h⟩ := Error.bind_eq_ok.mp h
    obtain ⟨⟨later, expanded₂⟩, hlater, h⟩ := Error.bind_eq_ok.mp h
    cases h
    rcases List.mem_append.mp ho with ho | ho
    · cases entered with
      | none => cases hinside; exact absurd ho List.not_mem_nil
      | some entered =>
        obtain ⟨⟨deeper, expanded₃⟩, hdeeper, hinside⟩ := Error.bind_eq_ok.mp hinside
        cases hinside
        have hlt := ihInside entered.1 hdeeper ho
        rw [Place.map_snd_locate] at hlt
        exact Nat.lt_trans hlt d.weight_inline_lt
    · exact Nat.lt_trans (ihRest _ hlater ho) d.weight_tail_lt
  | case4 trail scope expanded place name directives rest hf =>
    rw [surveySelections] at h
    split at h
    · cases h
    · rename_i hf'
      rw [hf] at hf'
      cases hf'
  | case5 trail scope expanded place name directives rest fragment hf hp =>
    rw [surveySelections] at h
    split at h
    · cases h
    · rw [dif_pos hp] at h
      cases h
  | case6 trail scope expanded place name directives rest fragment hf hp ihInside ihRest =>
    rw [surveySelections] at h
    split at h
    · cases h
    rename_i fragment' hf'
    rw [hf] at hf'
    cases hf'
    rw [dif_neg hp] at h
    obtain ⟨condition, -, h⟩ := Error.bind_eq_ok.mp h
    obtain ⟨entered, -, h⟩ := Error.bind_eq_ok.mp h
    obtain ⟨⟨inside, expanded₁⟩, hinside, h⟩ := Error.bind_eq_ok.mp h
    obtain ⟨⟨later, expanded₂⟩, hlater, h⟩ := Error.bind_eq_ok.mp h
    cases h
    rcases List.mem_append.mp ho with ho | ho
    · cases entered with
      | none => cases hinside; exact absurd ho List.not_mem_nil
      | some entered =>
        simp only at hinside
        split at hinside
        · cases hinside
          exact absurd ho List.not_mem_nil
        · obtain ⟨⟨deeper, expanded₃⟩, hdeeper, hinside⟩ := Error.bind_eq_ok.mp hinside
          cases hinside
          have hlt := ihInside entered.1 hdeeper ho
          rw [Place.map_snd_locate] at hlt
          have hname := Document.name_of_fragment? hf
          subst hname
          exact Nat.lt_trans hlt (d.weight_expand_lt (Document.mem_of_fragment? hf) hp _)
    · exact Nat.lt_trans (ihRest _ hlater ho) d.weight_tail_lt

/-! ## The survey of a field -/

/-- Surveys the children of a field one after the other. -/
def surveyChildren (schema : Schema) (d : Document) (fieldTypes : NameSet) (rawType : Name) :
    List Child → List Expansion → Except Error Findings
  | [], _ => .ok .none
  | c :: rest, expanded => do
    let (found, expanded) ← surveySelections schema d fieldTypes ⟨c.path, true⟩ (.ofField rawType)
      [(c.place, c.selection)] expanded
    return found ++ (← surveyChildren schema d fieldTypes rawType rest expanded)

/-- What is known of a composite field before its shapes are filled. -/
structure Survey where
  /-- The type of the field, without lists and nulls. -/
  rawType : Name
  /-- The object types that the field can have. -/
  fieldTypes : NameSet
  /-- What was found beneath the field. -/
  found : Findings

/-- Surveys the selections beneath a field of a composite type. -/
def Survey.ofChildren (schema : Schema) (d : Document) (rawType : Name) (children : List Child) :
    Except Error Survey := do
  let fieldTypes ← schema.possibleTypes rawType
  return ⟨rawType, fieldTypes, ← surveyChildren schema d fieldTypes rawType children []⟩

namespace Survey

/-- The type conditions that narrow the field, in the order they are first met. -/
def typeConditions (s : Survey) : List Name :=
  ((s.found.entries.filter Entry.narrows).map Entry.typeCondition).eraseDups

/-- The type sets of the fragments that are entered, in the order they are first met. -/
def declaredTypeSets (s : Survey) : List NameSet :=
  (s.found.entries.map Entry.typeSet).eraseDups

/-- The fragments spread directly beneath the field, in order. -/
def fragments (s : Survey) : List Name :=
  (s.found.entries.filterMap Entry.spread).eraseDups

/-- The fragments spread directly beneath the field where they apply to a type set, in order. -/
def fragmentsFor (s : Survey) (typeSet : NameSet) : List Name :=
  ((s.found.entries.filter fun e ↦ e.typeSet ⊆ typeSet).filterMap Entry.spread).eraseDups

/-- The shapes of the field: those derived from its object types, and every type set that is
declared and can match some object. Each object that matches a declared type set belongs to a
narrower shape, so a shape that is only declared has no types of its own. -/
def shapes (s : Survey) (schema : Schema) : Except Error (List Shape) := do
  let derived ← schema.derivedShapes s.rawType s.typeConditions
  let undiscovered := s.declaredTypeSets.filter fun t ↦ !derived.any fun shape ↦ shape.typeSet = t
  let declared ← undiscovered.filterM fun t ↦ do
    return !(← schema.typesSatisfying s.rawType t).isEmpty
  return sortShapes (derived ++ declared.map fun t ↦ ⟨t, ∅⟩)

end Survey

theorem exists_weight_lt_of_mem_occurrences {schema : Schema} {d : Document} {fieldTypes : NameSet}
    {rawType : Name} {children : List Child} {expanded : List Expansion} {found : Findings}
    (h : surveyChildren schema d fieldTypes rawType children expanded = .ok found)
    {o : Occurrence} (ho : o ∈ found.occurrences) :
    ∃ c ∈ children, d.weight o.path o.selections < d.weight c.path [c.selection] := by
  induction children generalizing expanded found with
  | nil =>
    rw [surveyChildren] at h
    cases h
    exact absurd ho List.not_mem_nil
  | cons c rest ih =>
    rw [surveyChildren] at h
    obtain ⟨⟨first, expanded₁⟩, hfirst, h⟩ := Error.bind_eq_ok.mp h
    obtain ⟨later, hlater, h⟩ := Error.bind_eq_ok.mp h
    cases h
    rcases List.mem_append.mp ho with ho | ho
    · exact ⟨c, List.mem_cons_self, weight_lt_of_mem_occurrences hfirst ho⟩
    · obtain ⟨c', hc', hlt⟩ := ih hlater ho
      exact ⟨c', List.mem_cons_of_mem c hc', hlt⟩

/-- **Collecting goes down.** Children of fields that a survey found rank below the children
surveyed. -/
theorem Survey.rank_lt {schema : Schema} {d : Document} {rawType : Name}
    {children children' : List Child} {s : Survey}
    (h : Survey.ofChildren schema d rawType children = .ok s) (hne : s.found.occurrences ≠ [])
    (hc : ∀ c ∈ children', ∃ o ∈ s.found.occurrences, c ∈ o.children) :
    d.rank children' < d.rank children := by
  rw [Survey.ofChildren] at h
  obtain ⟨fieldTypes, -, h⟩ := Error.bind_eq_ok.mp h
  obtain ⟨found, hfound, h⟩ := Error.bind_eq_ok.mp h
  cases h
  have hbound : ∀ o ∈ found.occurrences, d.weight o.path o.selections < d.rank children := by
    intro o ho
    obtain ⟨c, hmem, hlt⟩ := exists_weight_lt_of_mem_occurrences hfound ho
    exact Nat.lt_of_lt_of_le hlt (d.weight_le_rank hmem)
  refine d.rank_lt_of_forall ?_ fun c hmem ↦ ?_
  · obtain ⟨o, ho⟩ := List.exists_mem_of_ne_nil _ hne
    exact Nat.zero_lt_of_lt (hbound o ho)
  · obtain ⟨o, ho, hmem⟩ := hc c hmem
    exact Nat.lt_of_le_of_lt (o.weight_child_le d hmem) (hbound o ho)

end ResponseModels
