import ResponseModels.Document
import ResponseModels.Field

/-!
# Declarations of a field

For one shape, a response name can be selected several times: directly, in inline fragments, through
named fragments. Each of these is a *declaration*, and all of them become one field of the shape.
`Declaration.merge` groups declarations by response name and merges each group into one declaration:

* the groups keep the order in which their response names are first seen;
* declarations that select different fields, or the same field with another type or other arguments,
  conflict, each being compared with the first of its group;
* the merged declaration is included when one of the declarations is;
* the selections beneath are put together, a selection that stands at one place being taken once,
  however many ways lead to it.
-/

set_option autoImplicit false

namespace ResponseModels

/-- A selection beneath a field, with the way to it. -/
structure Child where
  /-- The selection itself. -/
  selection : Selection
  /-- Where it stands in the document. -/
  place : Place
  /-- The named fragments that were being expanded where it was found, the outermost first. -/
  path : List Name

/-- Appends children that stand at places not yet taken. -/
def Child.addNew (children : List Child) : List Child → List Child
  | [] => children
  | c :: rest =>
    if children.any fun k ↦ k.place = c.place then addNew children rest
    else addNew (children ++ [c]) rest

theorem Child.mem_of_mem_addNew {c : Child} {children more : List Child}
    (h : c ∈ addNew children more) : c ∈ children ∨ c ∈ more := by
  induction more generalizing children with
  | nil => exact .inl h
  | cons k rest ih =>
    rw [addNew] at h
    split at h
    · exact (ih h).imp_right (List.mem_cons_of_mem k)
    · rcases ih h with h | h
      · rcases List.mem_append.mp h with h | h
        · exact .inl h
        · exact .inr (List.mem_singleton.mp h ▸ List.mem_cons_self)
      · exact .inr (List.mem_cons_of_mem k h)

/-- One selection of a field, or several merged into one. -/
structure Declaration where
  /-- What is known of the field. -/
  info : FieldInfo
  /-- When the field is included, the fragments around it considered. -/
  condition : Condition
  /-- What is selected beneath it. -/
  children : List Child

namespace Declaration

/-- The response name that is declared. -/
def responseName (d : Declaration) : Name := d.info.responseName

/-- Fails if two declarations of a response name cannot be one field. -/
def checkSame (first other : FieldInfo) : Except Error Unit :=
  if first.name ≠ other.name then
    .error (.fieldConflict first.responseName .fieldName first.name other.name)
  else if first.type ≠ other.type then
    .error (.fieldConflict first.responseName .type (NamedType.written first.type).text
      (NamedType.written other.type).text)
  else if first.arguments ≠ other.arguments then
    .error (.fieldConflict first.responseName .arguments (Argument.listText first.arguments)
      (Argument.listText other.arguments))
  else .ok ()

/-- Merges a further declaration into a merged one. -/
def absorb (merged other : Declaration) : Except Error Declaration := do
  checkSame merged.info other.info
  return { merged with
    condition := merged.condition.or other.condition
    children := Child.addNew merged.children other.children }

/-- Merges the declarations of one response name. -/
def mergeGroup : List Declaration → Except Error Declaration
  | [] => .error (.internal "Cannot merge an empty list of field declarations")
  | first :: rest => rest.foldlM absorb { first with children := Child.addNew [] first.children }

/-- The declarations of a response name. -/
def group (declarations : List Declaration) (responseName : Name) : List Declaration :=
  declarations.filter fun d ↦ d.responseName == responseName

/-- Merges declarations by response name. -/
def merge (declarations : List Declaration) : Except Error (List Declaration) :=
  (declarations.map responseName).eraseDups.mapM fun n ↦ mergeGroup (group declarations n)

/-! ## Where children come from -/

private theorem mem_children_of_foldlM {first merged : Declaration} {rest : List Declaration}
    (h : rest.foldlM absorb first = .ok merged) {c : Child} (hc : c ∈ merged.children) :
    c ∈ first.children ∨ ∃ d ∈ rest, c ∈ d.children := by
  induction rest generalizing first with
  | nil =>
    rw [List.foldlM_nil] at h
    cases h
    exact .inl hc
  | cons d rest ih =>
    rw [List.foldlM_cons] at h
    obtain ⟨next, hnext, h⟩ := Error.bind_eq_ok.mp h
    rw [absorb] at hnext
    obtain ⟨-, -, hnext⟩ := Error.bind_eq_ok.mp hnext
    cases hnext
    rcases ih h with hc | ⟨d', hd', hc⟩
    · rcases Child.mem_of_mem_addNew hc with hc | hc
      · exact .inl hc
      · exact .inr ⟨d, List.mem_cons_self, hc⟩
    · exact .inr ⟨d', List.mem_cons_of_mem d hd', hc⟩

/-- The children of a declaration that was merged from a group come from declarations of the
group. -/
theorem exists_of_mem_mergeGroup {declarations : List Declaration} {m : Declaration}
    (h : mergeGroup declarations = .ok m) :
    declarations ≠ [] ∧ ∀ c ∈ m.children, ∃ d ∈ declarations, c ∈ d.children := by
  cases declarations with
  | nil => cases h
  | cons first rest =>
    refine ⟨List.cons_ne_nil first rest, fun c hc ↦ ?_⟩
    rw [mergeGroup] at h
    rcases mem_children_of_foldlM h hc with hc | ⟨d, hd, hc⟩
    · rcases Child.mem_of_mem_addNew hc with hc | hc
      · exact absurd hc List.not_mem_nil
      · exact ⟨first, List.mem_cons_self, hc⟩
    · exact ⟨d, List.mem_cons_of_mem first hd, hc⟩

/-- Merging invents nothing: a merged declaration comes from some declarations, and so do its
children. -/
theorem exists_of_mem_merge {declarations merged : List Declaration}
    (h : merge declarations = .ok merged) {m : Declaration} (hm : m ∈ merged) :
    declarations ≠ [] ∧ ∀ c ∈ m.children, ∃ d ∈ declarations, c ∈ d.children := by
  obtain ⟨n, -, hn⟩ := Error.exists_of_mem_mapM h hm
  obtain ⟨hne, hchildren⟩ := exists_of_mem_mergeGroup hn
  refine ⟨fun hnil ↦ hne (by rw [hnil]; rfl), fun c hc ↦ ?_⟩
  obtain ⟨d, hd, hc⟩ := hchildren c hc
  exact ⟨d, (List.mem_filter.mp hd).1, hc⟩

end Declaration
end ResponseModels
