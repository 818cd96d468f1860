import ResponseModels.Proofs.Collect.ShapeTree

/-!
# The declarations that apply to a shape

A field set of a field has what is declared for its shape. `DeclaredFor` says this in terms of the
selections: one gets to the declaration from what is selected beneath the field, through gates whose
type conditions are satisfied in the shape. A declaration that lies behind gates which are never
open all at once is not come upon. So a response name counts as selected for the shape if a
declaration of it lies behind gates that can be open (`SelectedFor`), and these are the names that
the fields of the shape are merged under (`Survey.selectedFor_iff`). For given values of the
variables it is included if the gates are open and the directives of the declaration include it
(`IncludedFor`), which is what the conditions of occurrences say (`Survey.includedFor_iff`).
-/

set_option autoImplicit false

namespace ResponseModels

/-- A field is declared for a shape of a field of type `rawType`: from what is selected beneath the
field one gets to it through gates whose type conditions are in the type set of the shape or hold
for all objects of the type. -/
def DeclaredFor (schema : Schema) (d : Document) (rawType : Name) (typeSet : NameSet)
    (selected : Selection → Prop) (gates : List Gate) (head : FieldHead) : Prop :=
  (∃ y beneath, selected y ∧ Way d y gates (.field head beneath)) ∧
    ∀ g ∈ gates, ∀ c, g.typeCondition = some c → c ∈ typeSet ∨
      ∀ t, schema.satisfies t rawType = true → schema.satisfies t c = true

/-- A response name is selected for a shape: a field is declared under it, through gates that are
all open for some values of the variables. -/
def SelectedFor (schema : Schema) (d : Document) (rawType : Name) (typeSet : NameSet)
    (selected : Selection → Prop) (n : Name) : Prop :=
  ∃ gates head, DeclaredFor schema d rawType typeSet selected gates head ∧ head.responseName = n ∧
    ∃ v, ∀ g ∈ gates, included v g.directives = true

/-- For some values of the variables, a field of a response name is included in a shape: one is
declared whose gates are open, and its own directives include it. -/
def IncludedFor (schema : Schema) (d : Document) (rawType : Name) (typeSet : NameSet)
    (selected : Selection → Prop) (n : Name) (v : Name → Bool) : Prop :=
  ∃ gates head, DeclaredFor schema d rawType typeSet selected gates head ∧ head.responseName = n ∧
    (∀ g ∈ gates, included v g.directives = true) ∧ included v head.directives = true

namespace Survey

variable {schema : Schema} {d : Document} {rawType : Name} {children : List Child} {s : Survey}
  (h : Survey.ofChildren schema d rawType children = .ok s) {selected : Selection → Prop}
  (hselected : ∀ x, x ∈ children.map Child.selection ↔ selected x) {typeSet : NameSet}
include h hselected

/-- What is declared for a shape is found, if the gates can be open. -/
theorem exists_applies_of_declaredFor (hraw : rawType ∈ typeSet) {gates : List Gate}
    {head : FieldHead} (hdeclared : DeclaredFor schema d rawType typeSet selected gates head)
    {v : Name → Bool} (hv : ∀ g ∈ gates, included v g.directives = true) :
    ∃ o, s.Applies typeSet o ∧ o.head = head ∧ o.Sums schema s.fieldTypes rawType gates := by
  obtain ⟨⟨y, beneath, hy, hway⟩, htypes⟩ := hdeclared
  obtain ⟨c, hc, rfl⟩ := List.mem_map.mp ((hselected y).mpr hy)
  obtain ⟨o, ho, hhead, -, hsums⟩ := exists_occurrence h hc hway hv
  refine ⟨o, ⟨ho, subset_of_forall h hraw (mem_typeSets_of_mem_occurrences ho) ?_⟩, hhead, hsums⟩
  refine (hsums.typeSet fun c hcovers ↦ .inr hcovers).mpr fun g hg c hc ↦ ?_
  rw [Schema.covers_iff_forall (ofChildren_eq_ok h).2.1]
  exact htypes g hg c hc

/-- What is found is declared for the shapes it applies to. -/
theorem exists_declaredFor {o : Occurrence} (ho : s.Applies typeSet o) :
    ∃ gates, DeclaredFor schema d rawType typeSet selected gates o.head ∧
      o.Sums schema s.fieldTypes rawType gates ∧
      ∃ v, ∀ g ∈ gates, included v g.directives = true := by
  obtain ⟨c, hc, gates, hleads, hsums, hopen⟩ := exists_leads h ho.1
  have hcovers := fun c ↦ Schema.covers_iff_forall (c := c) (ofChildren_eq_ok h).2.1
  refine ⟨gates, ⟨⟨c.selection, o.selections, ?_, hleads.way⟩, ?_⟩, hsums, hopen⟩
  · exact (hselected _).mp (List.mem_map_of_mem hc)
  · exact (hsums.typeSet fun c hc ↦ .inr ((hcovers c).mp hc)).mp fun c hc ↦ .inl (ho.2 c hc)

/-- **The response names that are selected for a shape** are those of its fields, before what can
never be included is left out. -/
theorem selectedFor_iff (hraw : rawType ∈ typeSet) {merged : List Declaration}
    (hmerged : s.fieldsFor schema typeSet = .ok merged) {n : Name} :
    SelectedFor schema d rawType typeSet selected n ↔ ∃ m ∈ merged, m.responseName = n := by
  constructor
  · rintro ⟨gates, head, hdeclared, rfl, v, hv⟩
    obtain ⟨o, ho, rfl, -⟩ := exists_applies_of_declaredFor h hselected hraw hdeclared hv
    exact exists_mem_fieldsFor hmerged ho
  · rintro ⟨m, hm, rfl⟩
    obtain ⟨o, ho, hname⟩ := exists_applies_of_mem_fieldsFor hmerged hm
    obtain ⟨gates, hdeclared, -, hopen⟩ := exists_declaredFor h hselected ho
    exact ⟨gates, o.head, hdeclared, hname, hopen⟩

/-- What is included in a shape is found with a condition that holds. -/
theorem includedFor_iff (hraw : rawType ∈ typeSet) {n : Name} {v : Name → Bool} :
    IncludedFor schema d rawType typeSet selected n v ↔
      ∃ o, s.Applies typeSet o ∧ o.head.responseName = n ∧ o.scope.condition.eval v = true := by
  constructor
  · rintro ⟨gates, head, hdeclared, rfl, hgates, hhead⟩
    obtain ⟨o, ho, rfl, hsums⟩ := exists_applies_of_declaredFor h hselected hraw hdeclared hgates
    refine ⟨o, ho, rfl, ?_⟩
    rw [hsums.eval, Bool.and_eq_true, List.all_eq_true]
    exact ⟨hgates, hhead⟩
  · rintro ⟨o, ho, hname, heval⟩
    obtain ⟨gates, hdeclared, hsums, -⟩ := exists_declaredFor h hselected ho
    rw [hsums.eval, Bool.and_eq_true, List.all_eq_true] at heval
    exact ⟨gates, o.head, hdeclared, hname, heval⟩

end Survey
end ResponseModels
