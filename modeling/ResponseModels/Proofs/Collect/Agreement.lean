import ResponseModels.Proofs.Collect.Expand
import ResponseModels.Proofs.Sample

/-!
# Collected fields agree with execution

For every type an object can have, one of the field sets of a field is the largest
(`Field.IsLargest`): it is the one whose type set is that of the object type
(`Declaration.Unfolds.exists_largest`). It holds the occurrences that apply to objects of this type,
and these are what execution collects, as the survey of the field knows. So for all values of the
variables, the fields of that field set whose conditions hold are those that execution collects
(`responseNames_eq_collectFields`).

The field set may hold one field more than execution collects, a `__typename` that is added where
none is selected. It is left out in all statements here.
-/

set_option autoImplicit false

namespace ResponseModels

/-- Of the field sets that have the object type `t`, one has the largest type set: that of the
objects of type `t`. -/
def Field.IsLargest (f : Field) (t : Name) (s : FieldSet) : Prop :=
  s ∈ f.fieldSets ∧ t ∈ s.possibleTypes ∧
    ∀ s' ∈ f.fieldSets, t ∈ s'.possibleTypes → s' = s ∨ s'.typeSet ⊂ s.typeSet

theorem Field.IsLargest.unique {f : Field} {t : Name} {s s' : FieldSet} (h : f.IsLargest t s)
    (h' : f.IsLargest t s') : s = s' := by
  rcases h.2.2 s' h'.1 h'.2.1 with heq | hlt
  · exact heq.symm
  rcases h'.2.2 s h.1 h.2.1 with heq | hgt
  · exact heq
  · exact absurd (Nat.lt_trans hlt.1 hgt.1) (Nat.lt_irrefl _)

section

variable {schema : Schema} {d : Document} {policy : TypenamePolicy} {field : Declaration}
  {f : Field} {survey : Survey}

theorem Shaped.nodup_fieldSets {rawType : Name} {typeConditions : List Name} {fieldTypes : NameSet}
    (h : Shaped schema rawType typeConditions fieldTypes f.shapes) :
    (f.fieldSets.map FieldSet.typeSet).Nodup := by
  have hmap : f.shapes.map Shape.typeSet = f.fieldSets.map FieldSet.typeSet := by
    rw [Field.shapes, List.map_map]
    rfl
  exact hmap ▸ h.nodup

/-- A field set is told by its type set. -/
theorem Shaped.fieldSet_eq {rawType : Name} {typeConditions : List Name} {fieldTypes : NameSet}
    (h : Shaped schema rawType typeConditions fieldTypes f.shapes) {s s' : FieldSet}
    (hs : s ∈ f.fieldSets) (hs' : s' ∈ f.fieldSets) (heq : s.typeSet = s'.typeSet) : s = s' :=
  List.inj_on_of_nodup_map h.nodup_fieldSets hs hs' heq

namespace Declaration.Unfolds

theorem shaped (h : field.Unfolds schema d policy f survey) :
    Shaped schema field.info.rawType survey.typeConditions survey.fieldTypes f.shapes :=
  Survey.shaped h.survey_eq h.shapes_eq

/-- **Of the field sets with an object type, that of its type set is the largest.** -/
theorem exists_largest (h : field.Unfolds schema d policy f survey) {t : Name}
    (ht : t ∈ survey.fieldTypes) :
    ∃ s, f.IsLargest t s ∧
      s.typeSet = schema.typeSetOf field.info.rawType survey.typeConditions t := by
  obtain ⟨a, ha, hlabel, hmem, hmax⟩ := h.shaped.exists_largest ht
  obtain ⟨s, hs, rfl⟩ := List.mem_map.mp ha
  refine ⟨s, ⟨hs, hmem, fun s' hs' ht' ↦ ?_⟩, hlabel⟩
  refine (hmax _ (List.mem_map_of_mem hs') ht').imp_left fun heq ↦ ?_
  exact h.shaped.fieldSet_eq hs' hs (congrArg Shape.typeSet heq)

/-- The occurrences that apply to the type set of an object type are those whose own type set it
satisfies. -/
theorem applies_iff (h : field.Unfolds schema d policy f survey) {t : Name}
    (ht : t ∈ survey.fieldTypes) {o : Occurrence} :
    survey.Applies (schema.typeSetOf field.info.rawType survey.typeConditions t) o ↔
      o ∈ survey.found.occurrences ∧ ∀ c ∈ o.scope.typeSet, schema.satisfies t c = true :=
  Survey.applies_typeSetOf_iff h.survey_eq ht

end Declaration.Unfolds

/-- The fields that are selected in a field set, apart from a `__typename` that is added. -/
theorem exists_mem_selected_iff {merged : List Declaration} {selected : List Field}
    (h : merged.mapM (expandField schema d policy) = .ok selected) {n : Name} {v : Name → Bool} :
    (∃ g ∈ selected, g.responseName = n ∧ g.condition.eval v = true) ↔
      ∃ m ∈ merged, m.responseName = n ∧ m.condition.eval v = true := by
  constructor
  · rintro ⟨g, hg, rfl, heval⟩
    obtain ⟨m, hm, hok⟩ := Error.exists_of_mem_mapM h hg
    obtain ⟨hinfo, hcond⟩ := info_of_expandField hok
    exact ⟨m, hm, congrArg FieldInfo.responseName hinfo.symm, hcond ▸ heval⟩
  · rintro ⟨m, hm, rfl, heval⟩
    obtain ⟨g, hg, hok⟩ := Error.exists_mem_of_mapM h hm
    obtain ⟨hinfo, hcond⟩ := info_of_expandField hok
    exact ⟨g, hg, congrArg FieldInfo.responseName hinfo, hcond ▸ heval⟩

/-- What the field set of the objects of type `t` selects, apart from a `__typename` that is
added. -/
theorem Declaration.Unfolds.exists_selected (h : field.Unfolds schema d policy f survey) {t : Name}
    {s : FieldSet} (ht : t ∈ survey.fieldTypes) (hs : f.IsLargest t s) :
    ∃ selected, (s.fields = selected ∨ s.fields = Field.typename :: selected ∧
        ∀ g ∈ selected, g.responseName ≠ Schema.typename) ∧
      ∀ v n, (∃ g ∈ selected, g.responseName = n ∧ g.condition.eval v = true) ↔
        n ∈ responseNames (collectFields schema d v t (field.children.map Child.selection)) := by
  obtain ⟨s', hs', hlabel⟩ := h.exists_largest ht
  cases hs.unique hs'
  obtain ⟨merged, selected, hmerged, hselected, hfields⟩ := h.fieldSet s hs.1
  refine ⟨selected, hfields ▸ addedTypename_append hselected, fun v n ↦ ?_⟩
  rw [exists_mem_selected_iff hselected, Survey.exists_mem_fieldsFor_iff hmerged, hlabel,
    mem_responseNames]
  simp only [h.applies_iff ht, Survey.mem_collectFields_iff h.survey_eq ht]
  constructor
  · rintro ⟨o, ⟨ho, hsat⟩, hname, heval⟩
    exact ⟨o.head, o.selections, ⟨o, ho, rfl, rfl, heval, hsat⟩, hname⟩
  · rintro ⟨-, -, ⟨o, ho, rfl, rfl, heval, hsat⟩, hname⟩
    exact ⟨o, ⟨ho, hsat⟩, hname, heval⟩

/-- **One level of collecting agrees with execution.** A composite field has for every type `t` that
an object can have a field set that is the largest among those with `t`. Leaving out a `__typename`
that is added where it is not selected, the response names of its fields whose conditions hold are
those that execution collects on objects of type `t` from the selections beneath the field. -/
theorem responseNames_eq_collectFields (hc : schema.isComposite field.info.rawType = true)
    (h : expandField schema d policy field = .ok f) :
    ∃ fieldTypes, schema.possibleTypes field.info.rawType = .ok fieldTypes ∧
      ∀ t ∈ fieldTypes, ∃ s, f.IsLargest t s ∧
        ∃ selected, (s.fields = selected ∨ s.fields = Field.typename :: selected ∧
            ∀ g ∈ selected, g.responseName ≠ Schema.typename) ∧
          ∀ v n, (∃ g ∈ selected, g.responseName = n ∧ g.condition.eval v = true) ↔
            n ∈ responseNames
              (collectFields schema d v t (field.children.map Child.selection)) := by
  obtain ⟨survey, hu⟩ := unfolds_of_expandField h hc
  refine ⟨survey.fieldTypes, hu.shaped.fieldTypes_eq, fun t ht ↦ ?_⟩
  obtain ⟨s, hs, -⟩ := hu.exists_largest ht
  exact ⟨s, hs, hu.exists_selected ht hs⟩

end

open Sample in
/-- Of the animals of the sample, dogs are seen with their tricks when `$pets` is set. -/
theorem responseNames_eq_collectFields_dog :
    ∃ f fieldTypes,
      expandField schema document .ifPolymorphic
        ⟨⟨"animal", none, [], .named ⟨.interface, "Animal"⟩, none, none⟩, .always,
          rootChildren selections []⟩ = .ok f ∧
      schema.possibleTypes "Animal" = .ok fieldTypes ∧ "Dog" ∈ fieldTypes ∧
      ∃ s, f.IsLargest "Dog" s ∧ ∃ g ∈ s.fields,
        g.responseName = "trick" ∧ g.condition.eval (· == "pets") = true := by
  obtain ⟨f, hf, -⟩ := Error.exists_of_any (show (expandField schema document .ifPolymorphic
    ⟨⟨"animal", none, [], .named ⟨.interface, "Animal"⟩, none, none⟩, .always,
      rootChildren selections []⟩).toOption.any (fun _ ↦ true) = true by decide +kernel)
  obtain ⟨fieldTypes, htypes, hall⟩ := responseNames_eq_collectFields (by decide +kernel) hf
  have hdog : "Dog" ∈ fieldTypes := (Schema.satisfies_iff htypes).mp (by decide +kernel)
  obtain ⟨s, hs, selected, hfields, hiff⟩ := hall "Dog" hdog
  obtain ⟨g, hg, hname, heval⟩ := (hiff (· == "pets") "trick").mpr (by decide +kernel)
  refine ⟨f, fieldTypes, hf, htypes, hdog, s, hs, g, ?_, hname, heval⟩
  rcases hfields with hfields | ⟨hfields, -⟩
  · exact hfields ▸ hg
  · exact hfields ▸ List.mem_cons_of_mem _ hg

end ResponseModels
