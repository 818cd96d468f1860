import ResponseModels.Proofs.Collect.Declared
import ResponseModels.Proofs.LockStep

/-!
# The `__typename` that is added

Where a field set does not select `__typename`, it may be added as the first field.
`Field.withoutAdded` takes it away again, in the whole tree of a field. Whether a field set selects
`__typename` is said in terms of the selections, which are followed down the tree like in `Within`:
the leaf that is added cannot be told from one that is selected by looking at it.

What is left is what is collected if `__typename` is never added, whatever the policy
(`sameOutcome_expandField`). The leaf is put in front of fields that have been merged before, and
nothing that is collected later looks at it.
-/

set_option autoImplicit false

namespace ResponseModels

/-! ## Taking it away -/

open Classical in
/-- Fields without the `__typename` in front, unless this name is selected. -/
noncomputable def Field.dropAdded (selects : Prop) : List Field → List Field
  | [] => []
  | f :: rest => if f = Field.typename ∧ ¬ selects then rest else f :: rest

section

variable (schema : Schema) (d : Document)

mutual

/-- The tree of a field without the `__typename` that was added, `selected` being selected beneath
the field. -/
noncomputable def Field.withoutAdded (selected : Selection → Prop) : Field → Field
  | ⟨info, condition, fieldSets, fragments⟩ =>
    ⟨info, condition, FieldSet.withoutAddedAll info.rawType selected fieldSets, fragments⟩

/-- A field set without the `__typename` that was added. -/
noncomputable def FieldSet.withoutAdded (rawType : Name) (selected : Selection → Prop) :
    FieldSet → FieldSet
  | ⟨typeSet, possibleTypes, fields, fragments⟩ =>
    ⟨typeSet, possibleTypes,
      Field.dropAdded (SelectedFor schema d rawType typeSet selected Schema.typename)
      (Field.withoutAddedAll (SelectedBeneath schema d rawType typeSet selected) fields), fragments⟩

/-- Field sets without the `__typename` that was added. -/
noncomputable def FieldSet.withoutAddedAll (rawType : Name) (selected : Selection → Prop) :
    List FieldSet → List FieldSet
  | [] => []
  | s :: rest => s.withoutAdded rawType selected :: FieldSet.withoutAddedAll rawType selected rest

/-- The trees of fields without the `__typename` that was added, given what is selected beneath each
response name. -/
noncomputable def Field.withoutAddedAll (beneath : Name → Selection → Prop) :
    List Field → List Field
  | [] => []
  | f :: rest => f.withoutAdded (beneath f.responseName) :: Field.withoutAddedAll beneath rest

end

end

theorem Field.withoutAdded_typename {schema : Schema} {d : Document} (selected : Selection → Prop) :
    Field.typename.withoutAdded schema d selected = Field.typename := rfl

section

variable {selects : Prop} {fields : List Field}

theorem Field.dropAdded_cons_typename (h : ¬ selects) :
    dropAdded selects (Field.typename :: fields) = fields := by
  rw [dropAdded, if_pos ⟨rfl, h⟩]

/-- Nothing is taken away from fields that are selected. -/
theorem Field.dropAdded_eq_self (h : ¬ selects → ∀ f ∈ fields, f.responseName ≠ Schema.typename) :
    dropAdded selects fields = fields := by
  cases fields with
  | nil => rfl
  | cons f rest =>
    refine if_neg ?_
    rintro ⟨rfl, hnot⟩
    exact h hnot _ List.mem_cons_self rfl

end

/-! ## What is collected without it -/

section

variable {schema : Schema} {d : Document} {rawType : Name} {selected : Selection → Prop}
  {beneath : Name → Selection → Prop}

theorem FieldSet.withoutAddedAll_eq {l l₀ : List FieldSet}
    (h : List.Forall₂ (fun s s₀ ↦ s.withoutAdded schema d rawType selected = s₀) l l₀) :
    FieldSet.withoutAddedAll schema d rawType selected l = l₀ := by
  induction h with
  | nil => rfl
  | cons h _ ih => rw [FieldSet.withoutAddedAll, h, ih]

theorem Field.withoutAddedAll_eq {l l₀ : List Field}
    (h : List.Forall₂ (fun k k₀ ↦ k.withoutAdded schema d (beneath k.responseName) = k₀) l l₀) :
    Field.withoutAddedAll schema d beneath l = l₀ := by
  induction h with
  | nil => rfl
  | cons h _ ih => rw [Field.withoutAddedAll, h, ih]

end

/-- Taking away what is added to the fields of a shape leaves these fields. -/
theorem Survey.dropAdded_eq {schema : Schema} {d : Document} {rawType : Name}
    {children : List Child} {s : Survey} (h : Survey.ofChildren schema d rawType children = .ok s)
    {selected : Selection → Prop} (hselected : ∀ x, x ∈ children.map Child.selection ↔ selected x)
    {typeSet : NameSet} (hraw : rawType ∈ typeSet) {merged : List Declaration}
    (hmerged : s.fieldsFor schema typeSet = .ok merged) {fields fields₀ : List Field}
    (hfields₀ : (merged.filter Declaration.canBeIncluded).mapM (expandField schema d .never) =
      .ok fields₀)
    (hfields : Field.withoutAddedAll schema d (SelectedBeneath schema d rawType typeSet selected)
      fields = fields₀) (wanted : Bool) :
    Field.dropAdded (SelectedFor schema d rawType typeSet selected Schema.typename)
      (Field.withoutAddedAll schema d (SelectedBeneath schema d rawType typeSet selected)
        (addedTypename wanted merged ++ fields)) = fields₀ := by
  have hselects := Survey.selectedFor_iff h hselected hraw hmerged (n := Schema.typename)
  rcases addedTypename_eq wanted merged with heq | ⟨heq, hnone⟩
  · rw [heq, List.nil_append, hfields]
    refine Field.dropAdded_eq_self fun hnot k hk hname ↦ hnot (hselects.mpr ?_)
    obtain ⟨m, hm, hok⟩ := Error.exists_of_mem_mapM hfields₀ hk
    exact ⟨m, (List.mem_filter.mp hm).1, hname ▸ (responseName_of_expandField hok).symm⟩
  · rw [heq, List.singleton_append, Field.withoutAddedAll, Field.withoutAdded_typename, hfields]
    refine Field.dropAdded_cons_typename fun hselected ↦ ?_
    obtain ⟨m, hm, hname⟩ := hselects.mp hselected
    exact hnone m hm hname

/-- **What is collected if `__typename` is never added** is what is left without it. -/
theorem sameOutcome_expandField {schema : Schema} {d : Document} {policy : TypenamePolicy}
    {root : List Selection} {field : Declaration}
    (hstands : ∀ c ∈ field.children, Stands d root c.place c.selection)
    {selected : Selection → Prop}
    (hselected : ∀ x, x ∈ field.children.map Child.selection ↔ selected x) :
    SameOutcome (fun f f₀ ↦ f.withoutAdded schema d selected = f₀)
      (expandField schema d policy field) (expandField schema d .never field) := by
  -- The induction follows the recursion: children that come from a survey rank below those
  -- surveyed.
  induction hn : d.rank field.children using Nat.strongRecOn generalizing field selected with
  | ind n ih =>
    subst hn
    rw [expandField_eq, expandField_eq]
    split
    · refine .bind_same fun survey hs ↦ .bind_same fun shapes hshapes ↦ ?_
      refine .bind (R := List.Forall₂ fun (s s₀ : FieldSet) ↦
        s.withoutAdded schema d field.info.rawType selected = s₀)
        (.mapM fun shape hshape ↦ ?_) fun sets sets₀ _ _ hall ↦ ?_
      · have hraw := (Survey.shaped hs hshapes).rawType_mem shape hshape
        refine .bind_same fun merged hmerged ↦ ?_
        refine .bind (R := List.Forall₂ fun (k k₀ : Field) ↦ k.withoutAdded schema d
          (SelectedBeneath schema d field.info.rawType shape.typeSet selected k.responseName) = k₀)
          (.mapM fun m hm ↦ ?_) fun fields fields₀ _ hfields₀ hall ↦ ?_
        · have hm := (List.mem_filter.mp hm).1
          obtain ⟨hstands', hchildren⟩ := Survey.mem_children_iff hmerged hs hstands hm
          refine (ih _ (Survey.rank_lt_of_mem_fieldsFor hs hmerged hm) hstands'
            (fun x ↦ (hchildren x).trans
            (Survey.selectedBeneath_iff hs hselected hraw).symm) rfl).mono fun k k₀ hk _ hkk₀ ↦ ?_
          rw [responseName_of_expandField hk]
          exact hkk₀
        · refine .ok ?_
          rw [FieldSet.withoutAdded, Survey.dropAdded_eq hs hselected hraw hmerged hfields₀
            (Field.withoutAddedAll_eq hall)]
          rfl
      · refine .ok ?_
        rw [Field.withoutAdded, FieldSet.withoutAddedAll_eq hall]
    · exact .ok rfl

/-- The selections of a definition, collected as if `__typename` were never added. -/
theorem sameOutcome_expandRoot {schema : Schema} {d : Document} {policy : TypenamePolicy}
    {rawType : Name} {selections : List Selection} {path : List Name} :
    SameOutcome (fun f f₀ ↦ f.withoutAdded schema d (· ∈ selections) = f₀)
      (expandRoot schema d policy rawType selections path)
      (expandRoot schema d .never rawType selections path) := by
  rw [expandRoot, expandRoot]
  refine .bind_same fun type _ ↦ ?_
  exact sameOutcome_expandField (fun c hc ↦ stands_rootChildren hc) fun x ↦ by
    rw [map_selection_rootChildren]

/-! ## What it says besides

The leaf spreads no fragment, and its type is the built-in scalar `String`. -/

section

variable {schema : Schema} {d : Document}

theorem Field.spreadsOf_dropAdded (selects : Prop) (fields : List Field) :
    Field.spreadsOf (dropAdded selects fields) = Field.spreadsOf fields := by
  cases fields with
  | nil => rfl
  | cons f rest =>
    rw [dropAdded]
    split
    · rename_i h
      rw [h.1]
      rfl
    · rfl

theorem Field.typeNamesOf_dropAdded (selects : Prop) (fields : List Field) :
    (Field.typeNamesOf (dropAdded selects fields)).filter (· ≠ "String") =
      (Field.typeNamesOf fields).filter (· ≠ "String") := by
  cases fields with
  | nil => rfl
  | cons f rest =>
    rw [dropAdded]
    split
    · rename_i h
      rw [h.1]
      rfl
    · rfl

mutual

theorem Field.spreads_withoutAdded (selected : Selection → Prop) :
    ∀ f : Field, (f.withoutAdded schema d selected).spreads = f.spreads
  | ⟨info, _, fieldSets, _⟩ => by
    rw [Field.withoutAdded, Field.spreads, Field.spreads,
      FieldSet.spreadsOf_withoutAddedAll info.rawType selected fieldSets]

theorem FieldSet.spreads_withoutAdded (rawType : Name) (selected : Selection → Prop) :
    ∀ s : FieldSet, (s.withoutAdded schema d rawType selected).spreads = s.spreads
  | ⟨typeSet, _, fields, _⟩ => by
    rw [FieldSet.withoutAdded, FieldSet.spreads, FieldSet.spreads, Field.spreadsOf_dropAdded,
      Field.spreadsOf_withoutAddedAll _ fields]

theorem FieldSet.spreadsOf_withoutAddedAll (rawType : Name) (selected : Selection → Prop) :
    ∀ l : List FieldSet, FieldSet.spreadsOf (FieldSet.withoutAddedAll schema d rawType selected l) =
      FieldSet.spreadsOf l
  | [] => rfl
  | s :: rest => by
    rw [FieldSet.withoutAddedAll, FieldSet.spreadsOf, FieldSet.spreadsOf,
      FieldSet.spreads_withoutAdded rawType selected s,
      FieldSet.spreadsOf_withoutAddedAll rawType selected rest]

theorem Field.spreadsOf_withoutAddedAll (beneath : Name → Selection → Prop) :
    ∀ l : List Field, Field.spreadsOf (Field.withoutAddedAll schema d beneath l) = Field.spreadsOf l
  | [] => rfl
  | f :: rest => by
    rw [Field.withoutAddedAll, Field.spreadsOf, Field.spreadsOf, Field.spreads_withoutAdded _ f,
      Field.spreadsOf_withoutAddedAll beneath rest]

end

mutual

theorem Field.typeNames_withoutAdded (selected : Selection → Prop) :
    ∀ f : Field, (f.withoutAdded schema d selected).typeNames.filter (· ≠ "String") =
      f.typeNames.filter (· ≠ "String")
  | ⟨info, _, fieldSets, _⟩ => by
    rw [Field.withoutAdded, Field.typeNames, Field.typeNames, List.filter_append,
      List.filter_append, FieldSet.typeNamesOf_withoutAddedAll info.rawType selected fieldSets]

theorem FieldSet.typeNames_withoutAdded (rawType : Name) (selected : Selection → Prop) :
    ∀ s : FieldSet, (s.withoutAdded schema d rawType selected).typeNames.filter (· ≠ "String") =
      s.typeNames.filter (· ≠ "String")
  | ⟨typeSet, _, fields, _⟩ => by
    rw [FieldSet.withoutAdded, FieldSet.typeNames, FieldSet.typeNames, Field.typeNamesOf_dropAdded,
      Field.typeNamesOf_withoutAddedAll _ fields]

theorem FieldSet.typeNamesOf_withoutAddedAll (rawType : Name) (selected : Selection → Prop) :
    ∀ l : List FieldSet,
      (FieldSet.typeNamesOf (FieldSet.withoutAddedAll schema d rawType selected l)).filter
        (· ≠ "String") = (FieldSet.typeNamesOf l).filter (· ≠ "String")
  | [] => rfl
  | s :: rest => by
    rw [FieldSet.withoutAddedAll, FieldSet.typeNamesOf, FieldSet.typeNamesOf, List.filter_append,
      List.filter_append, FieldSet.typeNames_withoutAdded rawType selected s,
      FieldSet.typeNamesOf_withoutAddedAll rawType selected rest]

theorem Field.typeNamesOf_withoutAddedAll (beneath : Name → Selection → Prop) : ∀ l : List Field,
    (Field.typeNamesOf (Field.withoutAddedAll schema d beneath l)).filter (· ≠ "String") =
      (Field.typeNamesOf l).filter (· ≠ "String")
  | [] => rfl
  | f :: rest => by
    rw [Field.withoutAddedAll, Field.typeNamesOf, Field.typeNamesOf, List.filter_append,
      List.filter_append, Field.typeNames_withoutAdded _ f,
      Field.typeNamesOf_withoutAddedAll beneath rest]

end

end
end ResponseModels
