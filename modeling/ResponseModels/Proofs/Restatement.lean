import ResponseModels.Proofs.DefinitionOrder

/-!
# Definitions with other selections

Two documents can have the same definitions but for the selections in them. What a definition is
built from is the field that its selections expand to, and its text apart nothing else of the
selections is seen.

* `Document.Restates` says that the definitions of one document are those of another, with
  selections that have the same field wherever these have one.
* `Representation.withoutSources` is all that is built but the text.
* **What has the same fields is built alike** (`exists_build_of_restates`), up to the text of
  operations and fragments.
-/

set_option autoImplicit false

namespace ResponseModels

/-! ## What is built, the text apart -/

/-- An operation without its text. -/
def OperationModels.withoutSource (o : OperationModels) : OperationModels := { o with source := "" }

/-- A fragment without its text. -/
def FragmentModels.withoutSource (f : FragmentModels) : FragmentModels := { f with source := "" }

/-- All that is built from a document but the text of its operations and fragments. -/
def Representation.withoutSources (ir : Representation) : Representation :=
  { ir with
    operations := ir.operations.map OperationModels.withoutSource
    fragments := ir.fragments.map FragmentModels.withoutSource }

theorem Representation.typeNames_withoutSources (ir : Representation) :
    ir.withoutSources.typeNames = ir.typeNames := by
  rw [typeNames, typeNames, withoutSources, List.flatMap_map, List.flatMap_map]
  rfl

/-! ## Documents -/

section

variable (schema : Schema) (policy : TypenamePolicy) (d d' : Document)

/-- An operation of one document and one of another differ in their selections, which have the same
field on every type. -/
structure Operation.Restates (o o' : Operation) : Prop where
  /-- All but the selections is the same. -/
  rest : o' = { o with selections := o'.selections }
  /-- On every type the selections have the same field. -/
  field (rootType : Name) :
    Yields (expandRoot schema d policy rootType o.selections [])
      (expandRoot schema d' policy rootType o'.selections [])

/-- A fragment of one document and one of another differ in their selections, which have the same
field. -/
structure Fragment.Restates (f f' : Fragment) : Prop where
  /-- All but the selections is the same. -/
  rest : f' = { f with selections := f'.selections }
  /-- The selections have the same field. -/
  field : Yields (expandRoot schema d policy f.typeCondition f.selections [f.name])
    (expandRoot schema d' policy f.typeCondition f'.selections [f.name])

/-- Two documents have the same definitions, with selections that have the same fields. -/
structure Document.Restates : Prop where
  /-- The operations correspond one by one. -/
  operations : List.Forall₂ (Operation.Restates schema policy d d') d.operations d'.operations
  /-- The fragments correspond one by one. -/
  fragments : List.Forall₂ (Fragment.Restates schema policy d d') d.fragments d'.fragments

end

namespace Document

variable {d d' : Document}

/-- Fragments that correspond in order correspond by their names. -/
theorem fragment?_of_forall₂ {R : Fragment → Fragment → Prop}
    (hR : ∀ f f', R f f' → f'.name = f.name) (h : List.Forall₂ R d.fragments d'.fragments)
    (name : Name) : Option.Rel R (d.fragment? name) (d'.fragment? name) :=
  rel_find? (fun f f' hf ↦ by rw [hR f f' hf]) h

theorem forall₂_namedOperations {R : Operation → Operation → Prop}
    (hR : ∀ o o', R o o' → o'.name = o.name) (h : List.Forall₂ R d.operations d'.operations) :
    List.Forall₂ (fun p p' : Name × Operation ↦ p.1 = p'.1 ∧ R p.2 p'.2) d.namedOperations
      d'.namedOperations := by
  refine List.rel_filterMap (fun o o' ho ↦ ?_) h
  rw [hR o o' ho]
  cases o.name with
  | none => exact .none
  | some name => exact .some ⟨rfl, ho⟩

end Document

/-! ## Building -/

section

variable {schema : Schema} {config : Config} {d d' : Document} {lib lib' : FragmentLibrary}

theorem Fragment.Restates.exists_buildFragment (hlib : lib'.Matches lib) {f f' : Fragment}
    (hf : Fragment.Restates schema config.typename d d' f f') {r : FragmentModels}
    (h : buildFragment config lib f = .ok r) :
    ∃ r', buildFragment config lib' f' = .ok r' ∧ r'.withoutSource = r.withoutSource := by
  rw [hf.rest, buildFragment_congr hlib]
  rw [buildFragment] at h ⊢
  obtain ⟨b, hb, h⟩ := Error.bind_eq_ok.mp h
  obtain ⟨names, hnames, h⟩ := Error.bind_eq_ok.mp h
  cases h
  exact ⟨_, Error.bind_eq_ok.mpr ⟨b, hb, Error.bind_eq_ok.mpr ⟨names, hnames, rfl⟩⟩, rfl⟩

theorem Operation.Restates.exists_buildOperation (hlib : lib'.Matches lib) {name : Name}
    {o o' : Operation} (ho : Operation.Restates schema config.typename d d' o o')
    {r : OperationModels} (h : buildOperation schema d config lib name o = .ok r) :
    ∃ r', buildOperation schema d' config lib' name o' = .ok r' ∧
      r'.withoutSource = r.withoutSource := by
  rw [ho.rest]
  rw [buildOperation] at h ⊢
  rw [hlib.interfaceOf_eq]
  obtain ⟨rootType, hroot, h⟩ := Error.bind_eq_ok.mp h
  obtain ⟨field, hfield, h⟩ := Error.bind_eq_ok.mp h
  obtain ⟨group, hgroup, h⟩ := Error.bind_eq_ok.mp h
  obtain ⟨inputs, hinputs, h⟩ := Error.bind_eq_ok.mp h
  obtain ⟨names, hnames, h⟩ := Error.bind_eq_ok.mp h
  cases h
  rw [← hlib.usedFragments_eq] at hnames
  exact ⟨_, Error.bind_eq_ok.mpr ⟨rootType, hroot,
    Error.bind_eq_ok.mpr ⟨field, ho.field rootType field hfield,
    Error.bind_eq_ok.mpr ⟨group, hgroup, Error.bind_eq_ok.mpr ⟨inputs, hinputs,
    Error.bind_eq_ok.mpr ⟨names, hnames, rfl⟩⟩⟩⟩⟩, rfl⟩

theorem Document.Restates.retains (h : d.Restates schema config.typename d') :
    FragmentLibrary.Retains schema config.typename d d' := by
  intro name f field hf hfield
  have hrel := Document.fragment?_of_forall₂ (fun _ _ hff ↦ by rw [hff.rest]) h.fragments name
  obtain ⟨f', hf', hff⟩ := exists_of_rel hrel hf
  refine ⟨f', hf', ?_⟩
  cases Document.name_of_fragment? hf
  rw [hff.rest]
  exact hff.field field hfield

/-- Steps that succeed on one list succeed on a list that corresponds to it, with results that look
the same. -/
theorem exists_forall₂_of_forall₂ {α α' β γ : Type} {S : α → α' → Prop} {step : α → Except Error β}
    {step' : α' → Except Error β} {view : β → γ} {l : List α} {l' : List α'} {r : List β}
    (hl : List.Forall₂ S l l')
    (hstep : ∀ a a' b, S a a' → step a = .ok b → ∃ b', step' a' = .ok b' ∧ view b' = view b)
    (h : List.Forall₂ (fun a b ↦ step a = .ok b) l r) :
    ∃ r', List.Forall₂ (fun a b ↦ step' a = .ok b) l' r' ∧ r'.map view = r.map view := by
  induction hl generalizing r with
  | nil =>
    cases h
    exact ⟨[], .nil, rfl⟩
  | cons hS _ ih =>
    cases h with
    | cons hb hrest =>
      obtain ⟨b', hb', hview⟩ := hstep _ _ _ hS hb
      obtain ⟨r', hr', hviews⟩ := ih hrest
      exact ⟨b' :: r', .cons hb' hr', by rw [List.map_cons, List.map_cons, hview, hviews]⟩

/-- **Documents whose definitions have the same fields are built alike**, up to the text. -/
theorem exists_build_of_restates {ir : Representation}
    (hrestates : d.Restates schema config.typename d') (h : build schema config d = .ok ir) :
    ∃ ir', build schema config d' = .ok ir' ∧ ir'.withoutSources = ir.withoutSources := by
  obtain ⟨lib, used, ha⟩ := build_eq_ok_iff.mp h
  have hnames : ∀ f' ∈ d'.fragments, ∃ f ∈ d.fragments, f.name = f'.name := by
    intro f' hf'
    obtain ⟨f, hf, hff⟩ := exists_of_mem_forall₂ hrestates.fragments.flip hf'
    exact ⟨f, hf, by rw [hff.rest]⟩
  obtain ⟨lib', hlib', hmatches⟩ :=
    FragmentLibrary.exists_ofDocument ha.library hrestates.retains hnames
  obtain ⟨fragments', hf', hfview⟩ := exists_forall₂_of_forall₂ hrestates.fragments
    (fun f f' r hf hr ↦ hf.exists_buildFragment hmatches hr) ha.fragments
  have hoperations :=
    Document.forall₂_namedOperations (fun _ _ hoo ↦ by rw [hoo.rest]) hrestates.operations
  obtain ⟨operations', ho', hoview⟩ := exists_forall₂_of_forall₂ hoperations
    (fun p p' r hp hr ↦ hp.1 ▸ hp.2.exists_buildOperation hmatches hr) ha.operations
  have hview : Representation.withoutSources
      { ir with operations := operations', fragments := fragments' } = ir.withoutSources := by
    rw [Representation.withoutSources, Representation.withoutSources, hoview, hfview]
  refine ⟨{ ir with operations := operations', fragments := fragments' },
    build_eq_ok_iff.mpr ⟨lib', used, ?_⟩, hview⟩
  refine ⟨fun o' ho' ↦ ?_, hlib', hf', ho', ?_, ha.inputObjects, ha.enums, ha.scalars⟩
  · obtain ⟨o, ho, hoo⟩ := exists_of_mem_forall₂ hrestates.operations.flip ho'
    rw [hoo.rest]
    exact ha.named o ho
  · rw [← Representation.typeNames_withoutSources, hview, Representation.typeNames_withoutSources]
    exact ha.types

end
end ResponseModels
