import ResponseModels.Proofs.Conditions

/-!
# Narrower field sets

The more type conditions a shape has, the more declarations apply to it. So a narrower field set has
all that a wider one has: a field of the wider one is *continued* in the narrower one, where it is
the same field and is included at least as often (`Field.Continues`). Two things make this more than
an inclusion of lists. Each field set leaves out for itself what can never be included, and it is
because conditions that are kept can be met that nothing is left out which a wider field set has
(`Survey.exists_continuing`). And a `__typename` is added where none is selected. If one is selected
for the narrower shape only, the field set there has what is selected, and that need not be included
as often (`not_fieldSetsContinue`). This is the one exception (`narrower_fieldSets_extend`): there
is still a field of this response name, unless what is selected is always skipped.
-/

set_option autoImplicit false

namespace ResponseModels

/-! ## Statements -/

/-- A field continues another: it stands under the same response name, is the same field and is
included whenever the other is. -/
structure Field.Continues (k' k : Field) : Prop where
  /-- The response names are the same. -/
  responseName : k'.responseName = k.responseName
  /-- Name, type and arguments are the same. -/
  sameField : k'.info.SameField k.info
  /-- Values of the variables that include the one include the other. -/
  included : ∀ v, k.condition.eval v = true → k'.condition.eval v = true

/-- The fields of every field set are continued in all narrower ones. -/
def Representation.FieldSetsContinue (ir : Representation) : Prop :=
  ∀ f, ir.HasField f → ∀ g ∈ f.fieldSets, ∀ s ∈ f.fieldSets, g.typeSet ⊆ s.typeSet →
    ∀ k ∈ g.fields, ∃ k' ∈ s.fields, k'.Continues k

open Sample in
/-- Asked for the `__typename` of dogs only, a dog has it if `$tagged` is set. An animal of unknown
kind always has one. -/
theorem not_fieldSetsContinue :
    ∃ ir, build schema {} (taggedDogs [includeIf "tagged"]) = .ok ir ∧ ¬ ir.FieldSetsContinue := by
  obtain ⟨ir, hir, hcheck⟩ := Error.exists_of_any
    (x := build schema {} (taggedDogs [includeIf "tagged"]))
    (p := fun ir ↦ ir.operations.any fun o ↦ o.field.fieldSets.any fun s₀ ↦ s₀.fields.any fun f ↦
      f.fieldSets.any fun g ↦ f.fieldSets.any fun s ↦ decide (g.typeSet ⊆ s.typeSet) &&
        g.fields.any fun k ↦ k.condition.eval (fun _ ↦ false) && s.fields.all fun k' ↦
          decide (k'.responseName ≠ k.responseName) || !k'.condition.eval fun _ ↦ false)
    (by decide +kernel)
  simp only [List.any_eq_true, List.all_eq_true, Bool.and_eq_true, Bool.or_eq_true,
    Bool.not_eq_true', decide_eq_true_eq] at hcheck
  obtain ⟨o, ho, s₀, hs₀, f, hf, g, hg, s, hs, hsub, k, hk, hincluded, hnone⟩ := hcheck
  refine ⟨ir, hir, fun hall ↦ ?_⟩
  obtain ⟨k', hk', hcontinues⟩ := hall f (.operation ho (.step .here hs₀ hf)) g hg s hs hsub k hk
  rcases hnone k' hk' with hname | hout
  · exact hname hcontinues.responseName
  · rw [hcontinues.included _ hincluded] at hout
    cases hout

/-- A `__typename` is selected for a shape of a field of type `rawType` and always skipped. -/
structure TypenameSkipped (schema : Schema) (d : Document) (rawType : Name) (typeSet : NameSet)
    (selected : Selection → Prop) : Prop where
  /-- It is selected for the shape. -/
  declared : SelectedFor schema d rawType typeSet selected Schema.typename
  /-- Wherever it is declared, its own directives leave it out when the gates before it are open. -/
  skipped : ∀ gates head, DeclaredFor schema d rawType typeSet selected gates head →
    head.responseName = Schema.typename →
    ∀ v, ¬((∀ g ∈ gates, included v g.directives = true) ∧ included v head.directives = true)

/-- A `__typename` is selected for the narrower of two shapes and not for the wider one. -/
structure TypenameNarrowed (schema : Schema) (d : Document) (rawType : Name)
    (selected : Selection → Prop) (wide narrow : NameSet) : Prop where
  /-- For the wider shape none is selected. -/
  wide : ¬ SelectedFor schema d rawType wide selected Schema.typename
  /-- For the narrower shape one is. -/
  narrow : SelectedFor schema d rawType narrow selected Schema.typename

/-- What a field set `g` has is in a narrower one `s`. -/
structure FieldSet.Extends (schema : Schema) (d : Document) (rawType : Name)
    (selected : Selection → Prop) (s g : FieldSet) : Prop where
  /-- The fields are continued, unless it is a `__typename` that was added and one is selected for
  the narrower shape. Then there is a field of this response name too, if what is selected is not
  always skipped, and it is included when what is selected is. -/
  fields : ∀ k ∈ g.fields, (∃ k' ∈ s.fields, k'.Continues k) ∨
    k = Field.typename ∧ TypenameNarrowed schema d rawType selected g.typeSet s.typeSet ∧
      (¬ TypenameSkipped schema d rawType s.typeSet selected →
        ∃ k' ∈ s.fields, k'.responseName = Schema.typename ∧ ∀ v, k'.condition.eval v = true ↔
          IncludedFor schema d rawType s.typeSet selected Schema.typename v)
  /-- The fragments are fragments there. -/
  fragments : g.fragments ⊆ s.fragments

/-- The response names of a field set differ, and narrower field sets extend wider ones. -/
structure Field.Narrows (schema : Schema) (d : Document) (selected : Selection → Prop) (f : Field) :
    Prop where
  /-- The response names in a field set differ. -/
  nodup : ∀ s ∈ f.fieldSets, (s.fields.map Field.responseName).Nodup
  /-- A field set is extended by every one with a larger type set. -/
  extend : ∀ g ∈ f.fieldSets, ∀ s ∈ f.fieldSets, g.typeSet ⊆ s.typeSet →
    s.Extends schema d f.info.rawType selected g

/-! ## One survey -/

namespace Survey

variable {schema : Schema} {d : Document} {rawType : Name} {children : List Child} {s : Survey}
  {wide narrow : NameSet}

theorem Applies.mono {o : Occurrence} (h : s.Applies wide o) (hsub : wide ⊆ narrow) :
    s.Applies narrow o :=
  ⟨h.1, fun c hc ↦ hsub c (h.2 c hc)⟩

theorem fragmentsFor_subset (hsub : wide ⊆ narrow) :
    s.fragmentsFor wide ⊆ s.fragmentsFor narrow := by
  intro n hn
  obtain ⟨e, he, htypeSet, hspread⟩ := mem_fragmentsFor.mp hn
  exact mem_fragmentsFor.mpr ⟨e, he, fun c hc ↦ hsub c (htypeSet c hc), hspread⟩

/-- **A field of a type set that can be included is one of every narrower type set.** -/
theorem exists_continuing (h : Survey.ofChildren schema d rawType children = .ok s)
    (hsub : wide ⊆ narrow) {merged merged' : List Declaration}
    (hmerged : s.fieldsFor schema wide = .ok merged)
    (hmerged' : s.fieldsFor schema narrow = .ok merged') {m : Declaration} (hm : m ∈ merged)
    (hincluded : m.canBeIncluded = true) :
    ∃ m' ∈ merged', m'.canBeIncluded = true ∧ m'.responseName = m.responseName ∧
      m'.info.SameField m.info ∧ ∀ v, m.condition.eval v = true → m'.condition.eval v = true := by
  obtain ⟨v, hv⟩ := (proper_of_mem_fieldsFor h hmerged hm hincluded).satisfiable
  obtain ⟨o, ho, hname, -⟩ := (eval_of_mem_fieldsFor hmerged hm v).mp hv
  obtain ⟨m', hm', hname'⟩ := exists_mem_fieldsFor hmerged' (ho.mono hsub)
  have himplied : ∀ v, m.condition.eval v = true → m'.condition.eval v = true := by
    intro v hv
    obtain ⟨x, hx, hxname, hxv⟩ := (eval_of_mem_fieldsFor hmerged hm v).mp hv
    exact (eval_of_mem_fieldsFor hmerged' hm' v).mpr ⟨x, hx.mono hsub,
      hxname.trans (hname.symm.trans hname'.symm), hxv⟩
  -- Both are the same field as the declaration they have in common.
  obtain ⟨info, hinfo, hsame⟩ := sameField_of_mem_fieldsFor hmerged hm ho hname
  obtain ⟨info', hinfo', hsame'⟩ :=
    sameField_of_mem_fieldsFor hmerged' hm' (ho.mono hsub) hname'.symm
  cases hinfo.symm.trans hinfo'
  exact ⟨m', hm', Declaration.canBeIncluded_of_eval (himplied v hv), hname'.trans hname,
    hsame'.trans hsame.symm, himplied⟩

end Survey

/-! ## One field -/

/-- **The fields of a field set are continued in a narrower one**, or a `__typename` is selected
there only. -/
theorem Declaration.Unfolds.exists_continues {schema : Schema} {d : Document}
    {policy : TypenamePolicy} {field : Declaration} {f : Field} {survey : Survey}
    (h : field.Unfolds schema d policy f survey) {selected : Selection → Prop}
    (hselected : ∀ x, x ∈ field.children.map Child.selection ↔ selected x) {g s : FieldSet}
    (hg : g ∈ f.fieldSets) (hs : s ∈ f.fieldSets) (hsub : g.typeSet ⊆ s.typeSet) {k : Field}
    (hk : k ∈ g.fields) :
    (∃ k' ∈ s.fields, k'.Continues k) ∨
      k = Field.typename ∧
      TypenameNarrowed schema d field.info.rawType selected g.typeSet s.typeSet := by
  obtain ⟨merged, fields, hmerged, hfields, heq⟩ := h.fieldSet g hg
  obtain ⟨merged', fields', hmerged', hfields', heq'⟩ := h.fieldSet s hs
  rw [heq] at hk
  rcases List.mem_append.mp hk with hk | hk
  · obtain ⟨rfl, hwanted, hnone⟩ := mem_addedTypename_iff.mp hk
    by_cases hnone' : ∀ m ∈ merged', m.responseName ≠ Schema.typename
    · refine .inl ⟨Field.typename, ?_, rfl, .refl _, fun _ hv ↦ hv⟩
      rw [heq']
      exact List.mem_append_left _ (mem_addedTypename_iff.mpr ⟨rfl, hwanted, hnone'⟩)
    · have hraw : ∀ x ∈ f.fieldSets, field.info.rawType ∈ x.typeSet := fun x hx ↦
        h.shaped.rawType_mem _ (List.mem_map_of_mem hx)
      refine .inr ⟨rfl, ?_, ?_⟩
      · rw [Survey.selectedFor_iff h.survey_eq hselected (hraw g hg) hmerged]
        rintro ⟨m, hm, hname⟩
        exact hnone m hm hname
      · rw [Survey.selectedFor_iff h.survey_eq hselected (hraw s hs) hmerged']
        simpa using hnone'
  · obtain ⟨m, hm, hok⟩ := Error.exists_of_mem_mapM hfields hk
    obtain ⟨hm, hincluded⟩ := List.mem_filter.mp hm
    obtain ⟨m', hm', hincluded', hname, hsame, himplied⟩ :=
      Survey.exists_continuing h.survey_eq hsub hmerged hmerged' hm hincluded
    obtain ⟨k', hk', hok'⟩ :=
      Error.exists_mem_of_mapM hfields' (List.mem_filter.mpr ⟨hm', hincluded'⟩)
    obtain ⟨hinfo, hcondition⟩ := info_of_expandField hok
    obtain ⟨hinfo', hcondition'⟩ := info_of_expandField hok'
    refine .inl ⟨k', heq' ▸ List.mem_append_right _ hk', ?_, ?_, ?_⟩
    · rw [responseName_of_expandField hok, responseName_of_expandField hok', hname]
    · rw [hinfo, hinfo']
      exact hsame
    · rw [hcondition, hcondition']
      exact himplied

/-- If `__typename` is selected for a shape, its field set has one that is included when what is
selected is, unless that is always skipped. -/
theorem Field.Expands.exists_mem_typename {schema : Schema} {d : Document} {policy : TypenamePolicy}
    {root : List Selection} {selected : Selection → Prop} {f : Field}
    (h : f.Expands schema d policy root selected) {s : FieldSet} (hs : s ∈ f.fieldSets)
    (hselects : SelectedFor schema d f.info.rawType s.typeSet selected Schema.typename)
    (hnot : ¬ TypenameSkipped schema d f.info.rawType s.typeSet selected) :
    ∃ k ∈ s.fields, k.responseName = Schema.typename ∧ ∀ v, k.condition.eval v = true ↔
      IncludedFor schema d f.info.rawType s.typeSet selected Schema.typename v := by
  have hpresent : ∃ k ∈ s.fields, k.responseName = Schema.typename := by
    by_contra hout
    simp only [not_exists, not_and] at hout
    exact hnot ⟨hselects, (h.leavesOutUnmet hs Schema.typename fun _ ↦ hselects).mp hout⟩
  obtain ⟨k, hk, hname⟩ := hpresent
  refine ⟨k, hk, hname, fun v ↦ ?_⟩
  rw [← hname] at hselects ⊢
  exact h.eval_iff_includedFor hs hk (fun _ ↦ hselects) v

theorem Field.Expands.narrows {schema : Schema} {d : Document} {policy : TypenamePolicy}
    {root : List Selection} {selected : Selection → Prop} {f : Field}
    (h : f.Expands schema d policy root selected) : f.Narrows schema d selected := by
  have hpresent := fun s hs ↦ h.exists_mem_typename (s := s) hs
  rcases h with rfl | ⟨field, hf, -, hselected⟩
  · exact ⟨fun s hs ↦ absurd hs List.not_mem_nil, fun g hg ↦ absurd hg List.not_mem_nil⟩
  have hunfolds : ∀ s ∈ f.fieldSets, ∃ survey, field.Unfolds schema d policy f survey := fun s hs ↦
    unfolds_of_expandField hf (isComposite_of_mem_fieldSets hf hs)
  refine ⟨fun s hs ↦ ?_, fun g hg s hs hsub ↦ ?_⟩
  · obtain ⟨survey, hu⟩ := hunfolds s hs
    exact hu.nodup_fields hs
  · obtain ⟨survey, hu⟩ := hunfolds s hs
    rw [(info_of_expandField hf).1] at hpresent ⊢
    refine ⟨fun k hk ↦ (hu.exists_continues hselected hg hs hsub hk).imp_right ?_, ?_⟩
    · rintro ⟨htypename, hnarrowed⟩
      exact ⟨htypename, hnarrowed, hpresent s hs hnarrowed.narrow⟩
    · rw [hu.fragmentsFor g hg, hu.fragmentsFor s hs]
      exact Survey.fragmentsFor_subset hsub

/-! ## The whole representation -/

/-- **Narrower field sets extend wider ones.** In the result of a build, the response names of each
field set differ, and what a field set has is in every narrower one of the same field: a field under
the same response name, which is the same field and is included at least as often, and the same
fragments. Only a `__typename` that was added may be another field in the narrower one, be included
less often, or be missing where all that is selected is skipped, and this only where `__typename` is
selected for the narrower shape and not for the wider. -/
theorem narrower_fieldSets_extend {schema : Schema} {config : Config} {d : Document}
    {ir : Representation} (h : build schema config d = .ok ir) :
    ir.AllFields schema d fun f selected ↦ f.Narrows schema d selected :=
  .of_build h fun _ _ _ hexpands ↦ hexpands.narrows

open Sample in
/-- In the sample, what an animal has a dog has too, a friend unless `$alone` is set among it. -/
theorem narrower_fieldSets_extend_friend :
    ∃ ir, build schema {} document = .ok ir ∧ ∃ o ∈ ir.operations, ∃ op ∈ document.operations,
      ∃ f selected, Within schema document o.field (· ∈ op.selections) f selected ∧
      ∃ g ∈ f.fieldSets, ∃ s ∈ f.fieldSets,
        g.typeSet = {"Animal"} ∧ s.typeSet = .ofList ["Animal", "Dog", "Pet"] ∧
        (∃ k ∈ g.fields, k.responseName = "friend" ∧ k.condition = .literal "alone" true) ∧
        s.Extends schema document f.info.rawType selected g := by
  obtain ⟨ir, hir, hcheck⟩ := Error.exists_of_any (x := build schema {} document)
    (p := fun ir ↦ ir.operations.any fun o ↦ o.field.fieldSets.any fun s₀ ↦ s₀.fields.any fun f ↦
      f.fieldSets.any fun g ↦ f.fieldSets.any fun s ↦ g.typeSet = {"Animal"} &&
        (s.typeSet = .ofList ["Animal", "Dog", "Pet"] &&
          g.fields.any fun k ↦ k.responseName = "friend" && k.condition = .literal "alone" true))
    (by decide +kernel)
  simp only [List.any_eq_true, Bool.and_eq_true, decide_eq_true_eq] at hcheck
  obtain ⟨o, ho, s₀, hs₀, f, hf, g, hg, s, hs, hwide, hnarrow, hfriend⟩ := hcheck
  obtain ⟨op, hop, selected, hwithin, hnarrows⟩ :=
    (narrower_fieldSets_extend hir).exists_within ho hs₀ hf
  refine ⟨ir, hir, o, ho, op, hop, f, selected, hwithin, g, hg, s, hs, hwide, hnarrow, hfriend, ?_⟩
  refine hnarrows.extend g hg s hs ?_
  rw [hwide, hnarrow]
  decide

end ResponseModels
