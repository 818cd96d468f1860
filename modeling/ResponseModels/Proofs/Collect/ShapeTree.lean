import ResponseModels.Proofs.Build
import ResponseModels.Proofs.Collect.Agreement
import ResponseModels.Proofs.Sample

/-!
# The shapes of all fields

Every composite field in the tree of an operation or a fragment has well-formed shapes
(`ShapeInvariants`). What this means for a field is said in terms of the selections beneath it.
These are not part of the tree, but they can be followed down: `SelectedBeneath` says what is
selected beneath a field of a field set, given what is selected beneath the field around it, and
`Within` goes from the root of a tree to any field in it. `AllFields` says of all fields of a
representation what holds of each.

The invariants of one field come from what is known of the shapes of a survey (`Shaped.invariants`).
That each field of the tree comes from a survey of just the selections beneath it is shown by going
down (`Expands.step`, `Expands.within`). So what holds of every field that was expanded in this way
holds of all fields (`AllFields.of_build`).
-/

set_option autoImplicit false

namespace ResponseModels

/-! ## Statements -/

/-- What is selected beneath the fields `n` of a field set of a field of type `rawType`: from the
selections `among` one gets to a field of this response name, through gates that are open for some
values of the variables and whose type conditions are in the type set or hold for all objects of the
type. -/
def SelectedBeneath (schema : Schema) (d : Document) (rawType : Name) (typeSet : NameSet)
    (among : Selection → Prop) (n : Name) (x : Selection) : Prop :=
  ∃ y gates head beneath, among y ∧ Leads d [] y gates (.field head beneath) ∧
    head.responseName = n ∧ x ∈ beneath ∧ (∃ v, ∀ g ∈ gates, included v g.directives = true) ∧
    ∀ g ∈ gates, ∀ c, g.typeCondition = some c → c ∈ typeSet ∨
      ∀ t, schema.satisfies t rawType = true → schema.satisfies t c = true

/-- A field is in the tree of another; `among` and `selected` are what is selected beneath each. -/
inductive Within (schema : Schema) (d : Document) (root : Field) (among : Selection → Prop) :
    Field → (Selection → Prop) → Prop
  | here : Within schema d root among root among
  | step {f k : Field} {selected : Selection → Prop} {s : FieldSet}
      (outer : Within schema d root among f selected) (mem : s ∈ f.fieldSets)
      (inner : k ∈ s.fields) :
      Within schema d root among k
        (SelectedBeneath schema d f.info.rawType s.typeSet selected k.responseName)

/-- In a representation, `P` holds of all fields in the trees of operations and fragments, and of
what is selected beneath each. -/
structure Representation.AllFields (schema : Schema) (d : Document) (ir : Representation)
    (P : Field → (Selection → Prop) → Prop) : Prop where
  /-- An operation is one of the document, and `P` holds of the fields beneath its selections. -/
  operation : ∀ o ∈ ir.operations, ∃ op ∈ d.operations, op.name = some o.name ∧
    ∀ f selected, Within schema d o.field (· ∈ op.selections) f selected → P f selected
  /-- A fragment is one of the document, and `P` holds of the fields beneath its selections. -/
  fragment : ∀ r ∈ ir.fragments, ∃ fragment, d.fragment? r.name = some fragment ∧
    ∀ f selected, Within schema d r.field (· ∈ fragment.selections) f selected → P f selected

/-- The shapes of a composite field are well-formed, `among` being selected beneath it. -/
structure ShapeInvariants (schema : Schema) (d : Document) (among : Selection → Prop)
    (rawType : Name) (fieldTypes : NameSet) (sets : List FieldSet) : Prop where
  /-- The type sets are listed in strictly increasing order. -/
  sorted : sets.Pairwise fun s s' ↦ s.typeSet.Before s'.typeSet
  /-- They differ. -/
  nodup : (sets.map FieldSet.typeSet).Nodup
  /-- Each has the raw type. -/
  rawType_mem : ∀ s ∈ sets, rawType ∈ s.typeSet
  /-- Just one has no other member, and its field set has all object types of the field. -/
  base : ∃ s ∈ sets, s.typeSet = {rawType} ∧ s.possibleTypes = fieldTypes ∧
    ∀ s' ∈ sets, s'.typeSet.size = 1 → s' = s
  /-- No other two have an object type in common. -/
  disjoint : ∀ s ∈ sets, ∀ s' ∈ sets, s.typeSet ≠ {rawType} → s'.typeSet ≠ {rawType} → s ≠ s' →
    ∀ t ∈ s.possibleTypes, t ∉ s'.possibleTypes
  /-- Each lacks an object type of the field. -/
  strict : ∀ s ∈ sets, s.typeSet ≠ {rawType} → s.possibleTypes ⊂ fieldTypes
  /-- Objects belong where the type set is the raw type and all type conditions that are entered
  beneath the field, do not cover it, and hold for them. -/
  mem_possibleTypes : ∀ s ∈ sets, s.typeSet ≠ {rawType} → ∀ t ∈ fieldTypes,
    (t ∈ s.possibleTypes ↔ ∀ c, c ∈ s.typeSet ↔ c = rawType ∨
      Entered d among c ∧ ¬ schema.Covers fieldTypes c ∧ schema.satisfies t c = true)
  /-- Each type set is satisfied by an object type of the field. -/
  satisfied : ∀ s ∈ sets, s.typeSet ≠ {rawType} →
    ∃ t ∈ fieldTypes, ∀ c ∈ s.typeSet, schema.satisfies t c = true

/-! ## One field -/

section

variable {schema : Schema} {d : Document} {among : Selection → Prop} {rawType : Name}
  {typeConditions : List Name} {fieldTypes : NameSet}

/-- A shape other than that of the raw type lacks an object type, since its conditions do not cover
the field. -/
theorem Shaped.ssubset {shapes : List Shape}
    (h : Shaped schema rawType typeConditions fieldTypes shapes)
    (hcovers : ∀ c ∈ typeConditions, ¬ schema.Covers fieldTypes c) {a : Shape} (ha : a ∈ shapes)
    (hne : a.typeSet ≠ {rawType}) : a.possibleTypes ⊂ fieldTypes := by
  have hmem := h.mem_possibleTypes a ha hne
  refine NameSet.ssubset_iff_subset_ne.mpr ⟨fun t ht ↦ ((hmem t).mp ht).1, fun heq ↦ hne ?_⟩
  refine NameSet.Subset.antisymm (fun c hc ↦ ?_) (NameSet.singleton_subset.mpr (h.rawType_mem a ha))
  rcases h.made a ha c hc with rfl | hcond
  · exact NameSet.mem_singleton.mpr rfl
  · refine absurd (fun t ht ↦ ?_) (hcovers c hcond)
    have hlabel := ((hmem t).mp (heq.symm ▸ ht)).2
    rcases Schema.mem_typeSetOf.mp (hlabel.symm ▸ hc) with rfl | ⟨-, hsat⟩
    · exact h.satisfies_rawType ht
    · exact hsat

/-- **What is known of the shapes of a survey, said in terms of the selections.** -/
theorem Shaped.invariants {f : Field} (h : Shaped schema rawType typeConditions fieldTypes f.shapes)
    (hconditions : ∀ c, c ∈ typeConditions ↔ Entered d among c ∧ ¬ schema.Covers fieldTypes c) :
    ShapeInvariants schema d among rawType fieldTypes f.fieldSets where
  sorted := by
    have hsorted := h.sorted
    rw [Field.shapes, List.pairwise_map] at hsorted
    exact hsorted
  nodup := h.nodup_fieldSets
  rawType_mem s hs := h.rawType_mem _ (List.mem_map_of_mem hs)
  base := by
    obtain ⟨s, hs, heq⟩ := List.mem_map.mp h.base_mem
    obtain ⟨htypeSet, htypes⟩ := Shape.mk.inj heq
    refine ⟨s, hs, htypeSet, htypes, fun s' hs' hsize ↦ h.fieldSet_eq hs' hs ?_⟩
    rw [htypeSet]
    exact (NameSet.size_eq_one_iff (h.rawType_mem _ (List.mem_map_of_mem hs'))).mp hsize
  disjoint s hs s' hs' hne hne' hdiff t ht ht' := by
    have hlabel := ((h.mem_possibleTypes _ (List.mem_map_of_mem hs) hne t).mp ht).2
    have hlabel' := ((h.mem_possibleTypes _ (List.mem_map_of_mem hs') hne' t).mp ht').2
    exact hdiff (h.fieldSet_eq hs hs' (hlabel.symm.trans hlabel'))
  strict s hs hne := h.ssubset (fun c hc ↦ ((hconditions c).mp hc).2) (List.mem_map_of_mem hs) hne
  mem_possibleTypes s hs hne t ht := by
    rw [show t ∈ s.possibleTypes ↔ _ from h.mem_possibleTypes _ (List.mem_map_of_mem hs) hne t,
      and_iff_right ht]
    simp only [← and_assoc, ← hconditions]
    constructor
    · intro hlabel c
      rw [← hlabel, Schema.mem_typeSetOf]
    · intro hmem
      ext c
      rw [Schema.mem_typeSetOf, hmem]
  satisfied s hs hne := h.satisfied _ (List.mem_map_of_mem hs) hne

end

/-! ## The tree -/

/-- A field was expanded from just the selections beneath it, or it is a `__typename` that was
added. -/
def Field.Expands (schema : Schema) (d : Document) (policy : TypenamePolicy) (root : List Selection)
    (selected : Selection → Prop) (f : Field) : Prop :=
  f = Field.typename ∨ ∃ field, expandField schema d policy field = .ok f ∧
    (∀ c ∈ field.children, Stands d root c.place c.selection) ∧
    ∀ x, x ∈ field.children.map Child.selection ↔ selected x

/-- What is selected beneath the fields of a shape is what is selected beneath the occurrences that
apply. -/
theorem Survey.selectedBeneath_iff {schema : Schema} {d : Document} {rawType : Name}
    {children : List Child} {s : Survey} (h : Survey.ofChildren schema d rawType children = .ok s)
    {selected : Selection → Prop} (hselected : ∀ x, x ∈ children.map Child.selection ↔ selected x)
    {typeSet : NameSet} (hraw : rawType ∈ typeSet) {n : Name} {x : Selection} :
    SelectedBeneath schema d rawType typeSet selected n x ↔
      ∃ o, s.Applies typeSet o ∧ o.head.responseName = n ∧ x ∈ o.selections := by
  have happlies := Survey.exists_applies_iff h hraw
  simp only [Schema.covers_iff_forall (ofChildren_eq_ok h).2.1] at happlies
  constructor
  · rintro ⟨y, gates, head, beneath, hy, hleads, hname, hx, hopen, htypes⟩
    obtain ⟨o, ho, rfl, rfl⟩ :=
      (happlies head beneath).mpr ⟨y, (hselected y).mpr hy, gates, hleads, hopen, htypes⟩
    exact ⟨o, ho, hname, hx⟩
  · rintro ⟨o, ho, hname, hx⟩
    obtain ⟨y, hy, gates, hleads, hopen, htypes⟩ :=
      (happlies o.head o.selections).mp ⟨o, ho, rfl, rfl⟩
    exact ⟨y, gates, o.head, o.selections, (hselected y).mp hy, hleads, hname, hx, hopen, htypes⟩

namespace Field.Expands

variable {schema : Schema} {d : Document} {policy : TypenamePolicy} {root : List Selection}
  {selected : Selection → Prop} {f : Field}

theorem of_expandRoot {rawType : Name} {selections : List Selection} {path : List Name}
    (h : expandRoot schema d policy rawType selections path = .ok f) :
    f.Expands schema d policy selections (· ∈ selections) := by
  obtain ⟨field, hf, hstands, hchildren⟩ := exists_of_expandRoot h
  exact .inr ⟨field, hf, hstands, fun x ↦ by rw [hchildren]⟩

/-- **One step down.** -/
theorem step (h : f.Expands schema d policy root selected) {s : FieldSet} (hs : s ∈ f.fieldSets)
    {k : Field} (hk : k ∈ s.fields) :
    k.Expands schema d policy root
      (SelectedBeneath schema d f.info.rawType s.typeSet selected k.responseName) := by
  rcases h with rfl | ⟨field, hf, hstands, hselected⟩
  · exact absurd hs List.not_mem_nil
  obtain ⟨survey, hu⟩ := unfolds_of_expandField hf (isComposite_of_mem_fieldSets hf hs)
  refine (hu.of_mem_fields hs hstands hk).imp_right ?_
  rintro ⟨m, hok, hchildren, hmem⟩
  refine ⟨m, hok, hchildren, fun x ↦ (hmem x).trans ?_⟩
  rw [(info_of_expandField hf).1]
  exact (Survey.selectedBeneath_iff hu.survey_eq hselected
    (hu.shaped.rawType_mem _ (List.mem_map_of_mem hs))).symm

/-- **The whole tree.** -/
theorem within {f₀ : Field} {among : Selection → Prop} (h : f₀.Expands schema d policy root among)
    (hw : Within schema d f₀ among f selected) : f.Expands schema d policy root selected := by
  induction hw with
  | here => exact h
  | step outer mem inner ih => exact ih.step mem inner

/-- A composite field in the tree has well-formed shapes. -/
theorem invariants (h : f.Expands schema d policy root selected)
    (hc : schema.isComposite f.info.rawType = true) :
    ∃ fieldTypes, schema.possibleTypes f.info.rawType = .ok fieldTypes ∧
      ShapeInvariants schema d selected f.info.rawType fieldTypes f.fieldSets := by
  rcases h with rfl | ⟨field, hf, -, hselected⟩
  · cases hc
  rw [(info_of_expandField hf).1] at hc ⊢
  obtain ⟨survey, hu⟩ := unfolds_of_expandField hf hc
  refine ⟨survey.fieldTypes, hu.shaped.fieldTypes_eq, hu.shaped.invariants fun c ↦ ?_⟩
  rw [Survey.mem_typeConditions_iff hu.survey_eq]
  simp only [Entered, hselected]

end Field.Expands

/-- What holds of every field that was expanded from the selections beneath it holds of all fields
in the result of a build. -/
theorem Representation.AllFields.of_build {schema : Schema} {config : Config} {d : Document}
    {ir : Representation} (h : build schema config d = .ok ir)
    {P : Field → (Selection → Prop) → Prop}
    (hP : ∀ root f selected, f.Expands schema d config.typename root selected → P f selected) :
    ir.AllFields schema d P where
  operation o ho := by
    obtain ⟨op, hop, hname, rootType, _, -, hroot, -⟩ := exists_operation_of_build h ho
    exact ⟨op, hop, hname, fun f selected hw ↦
      hP _ f selected ((Field.Expands.of_expandRoot hroot).within hw)⟩
  fragment r hr := by
    obtain ⟨fragment, hf, hroot, -⟩ := exists_fragment_of_build h hr
    exact ⟨fragment, hf, fun f selected hw ↦
      hP _ f selected ((Field.Expands.of_expandRoot hroot).within hw)⟩

/-- What holds of all fields holds of those that an operation selects at its root. -/
theorem Representation.AllFields.exists_within {schema : Schema} {d : Document}
    {ir : Representation} {P : Field → (Selection → Prop) → Prop} (h : ir.AllFields schema d P)
    {o : OperationModels} (ho : o ∈ ir.operations) {s : FieldSet} (hs : s ∈ o.field.fieldSets)
    {f : Field} (hf : f ∈ s.fields) :
    ∃ op ∈ d.operations, ∃ selected,
      Within schema d o.field (· ∈ op.selections) f selected ∧ P f selected := by
  obtain ⟨op, hop, -, hall⟩ := h.operation o ho
  have hroot : Within schema d o.field (· ∈ op.selections) o.field (· ∈ op.selections) := .here
  exact ⟨op, hop, _, hroot.step hs hf, hall f _ (hroot.step hs hf)⟩

/-- **The shapes of all fields are well-formed**, in the trees of operations and of fragments. -/
theorem shapes_of_build {schema : Schema} {config : Config} {d : Document} {ir : Representation}
    (h : build schema config d = .ok ir) :
    ir.AllFields schema d fun f selected ↦ schema.isComposite f.info.rawType = true →
      ∃ fieldTypes, schema.possibleTypes f.info.rawType = .ok fieldTypes ∧
        ShapeInvariants schema d selected f.info.rawType fieldTypes f.fieldSets :=
  .of_build h fun _ _ _ hexpands ↦ hexpands.invariants

open Sample in
/-- In the sample, animals have three shapes: that of all animals, that of pets and that of dogs. -/
theorem shapes_of_build_animal :
    ∃ ir, build schema {} document = .ok ir ∧ ∃ o ∈ ir.operations, ∃ op ∈ document.operations,
      ∃ f selected fieldTypes, Within schema document o.field (· ∈ op.selections) f selected ∧
      f.fieldSets.map FieldSet.typeSet =
        [{"Animal"}, .ofList ["Animal", "Pet"], .ofList ["Animal", "Dog", "Pet"]] ∧
      ShapeInvariants schema document selected f.info.rawType fieldTypes f.fieldSets := by
  obtain ⟨ir, hir, hcheck⟩ := Error.exists_of_any (x := build schema {} document)
    (p := fun ir ↦ ir.operations.any fun o ↦ o.field.fieldSets.any fun s ↦ s.fields.any fun f ↦
      schema.isComposite f.info.rawType && f.fieldSets.map FieldSet.typeSet =
        [{"Animal"}, .ofList ["Animal", "Pet"], .ofList ["Animal", "Dog", "Pet"]])
    (by decide +kernel)
  simp only [List.any_eq_true, Bool.and_eq_true, decide_eq_true_eq] at hcheck
  obtain ⟨o, ho, s, hs, f, hf, hcomposite, hsets⟩ := hcheck
  obtain ⟨op, hop, selected, hwithin, hshapes⟩ := (shapes_of_build hir).exists_within ho hs hf
  obtain ⟨fieldTypes, -, hinvariants⟩ := hshapes hcomposite
  exact ⟨ir, hir, o, ho, op, hop, f, selected, fieldTypes, hwithin, hsets, hinvariants⟩

end ResponseModels
