import ResponseModels.Proofs.Collect.Expand
import ResponseModels.Proofs.Collect.MergeExact
import ResponseModels.Proofs.Collect.Ways
import ResponseModels.Proofs.Failure
import ResponseModels.Proofs.Sample

/-!
# Merging the fields of a shape

Each shape of a field merges the declarations that apply to it. There are two questions to this.
What comes of merging is answered without going through the declarations one by one by
`Declaration.merge_joins_groups`: what a survey hands to merging has simplified conditions, so the
order of joining them does not show.

When merging fails is answered by `Survey.fieldsFor_iff_no_conflict`. Declarations conflict within a
shape, and shapes are not objects: a shape that is only declared has no objects of its own, and no
shape is kept for type conditions that no object satisfies together. Still it comes to the objects.
What applies to a shape is met by an object that satisfies the shape, and there is one
(`Shaped.exists_satisfies`); what an object meets applies to the shape of its type
(`Survey.applies_typeSetOf_iff`). So declarations conflict when there are objects that meet both of
them, and otherwise not.
-/

set_option autoImplicit false

namespace ResponseModels

/-! ## Merging -/

/-- What a survey hands to merging has simplified conditions. -/
theorem Survey.simplify_condition {schema : Schema} {d : Document} {rawType : Name}
    {children : List Child} {s : Survey} (h : Survey.ofChildren schema d rawType children = .ok s)
    {typeSet : NameSet} {declarations : List Declaration}
    (hd : s.declarationsFor schema typeSet = .ok declarations) :
    ∀ m ∈ declarations, m.condition.simplify = m.condition :=
  condition_of_mem_declarationsFor (P := fun c ↦ c.simplify = c) hd fun _ ho ↦
    (canonical_of_mem_occurrences h ho).simplify_eq

namespace Declaration

/-- **What comes of merging.** Declarations with simplified conditions, as a survey finds them, can
be merged when no two of one response name differ in field name, type or arguments. Then there is
one declaration for each response name, in the order in which the names are first seen. It has the
information of the first declaration of the name, the disjunction of the set of all their
conditions, simplified, and all their children one after the other, without those at a place that
was there before. So declarations that follow once more change nothing. -/
theorem merge_joins_groups :
    (∀ declarations : List Declaration, (∀ d ∈ declarations, d.condition.simplify = d.condition) →
      ((∃ merged, merge declarations = .ok merged) ↔
        ∀ d ∈ declarations, ∀ d' ∈ declarations, d.responseName = d'.responseName →
        d.info.SameField d'.info) ∧
      (∀ merged, merge declarations = .ok merged →
        merged.map responseName = (declarations.map responseName).eraseDups ∧
        ∀ m ∈ merged, ∃ first rest, group declarations m.responseName = first :: rest ∧
        m.info = first.info ∧
        m.condition = (Condition.anyOf ((first :: rest).map condition)).simplify ∧
          m.children = ((first :: rest).flatMap children).eraseDupsBy fun c k ↦ c.place = k.place) ∧
      ∀ more : List Declaration, (∀ d ∈ more, d ∈ declarations) →
        merge (declarations ++ more) = merge declarations) ∧
    ∀ (schema : Schema) (d : Document) (rawType : Name) (children : List Child) (s : Survey),
      Survey.ofChildren schema d rawType children = .ok s → ∀ typeSet declarations,
        s.declarationsFor schema typeSet = .ok declarations →
        ∀ m ∈ declarations, m.condition.simplify = m.condition := by
  refine ⟨fun declarations hsimplified ↦ ?_, fun _ _ _ _ _ h _ _ ↦ Survey.simplify_condition h⟩
  have hcanonical : ∀ d ∈ declarations, d.condition.Canonical :=
    fun d hd ↦ hsimplified d hd ▸ Condition.canonical_simplify _
  refine ⟨exists_merge_iff, fun merged hmerged ↦ ⟨map_responseName_merge hmerged, fun m hm ↦ ?_⟩,
    fun more ↦ merge_append hcanonical⟩
  obtain ⟨first, rest, hgroup, hjoined⟩ := exists_joined_of_mem_merge hmerged hcanonical hm
  have hmap :
      ((first :: rest).map condition).map Condition.simplify = (first :: rest).map condition := by
    refine (List.map_congr_left fun c hc ↦ ?_).trans (List.map_id _)
    obtain ⟨d, hd, rfl⟩ := List.mem_map.mp hc
    rw [← hgroup] at hd
    exact hsimplified d (List.mem_filter.mp hd).1
  refine ⟨first, rest, hgroup, ?_, ?_, ?_⟩
  · rw [hjoined]
    rfl
  · rw [hjoined, Condition.anyOf, Junction.simplify_ofList, hmap]
    rfl
  · rw [hjoined, joined, Child.addNew_eq_append]
    simp

/-- The friend of an animal if `$a` is set, its breed, and its friend once more if `$b` is set, with
a selection beneath that both declarations of the friend have. -/
def sampleDeclarations : List Declaration :=
  let info (name : Name) : FieldInfo := ⟨name, none, [], .named ⟨.object, "Animal"⟩, none, none⟩
  let child (i : Nat) : Child := ⟨Sample.field "name" [], ⟨none, [i]⟩, []⟩
  [⟨info "friend", .ofVariable "a", [child 0, child 1]⟩, ⟨info "breed", .always, []⟩,
    ⟨info "friend", .ofVariable "b", [child 1, child 2]⟩]

theorem merge_joins_groups_friend :
    (∀ d ∈ sampleDeclarations, d.condition.simplify = d.condition) ∧
    merge (sampleDeclarations ++ sampleDeclarations.reverse) = merge sampleDeclarations ∧
    ∃ merged, merge sampleDeclarations = .ok merged ∧
      merged.map responseName = ["friend", "breed"] ∧
      merged.map condition = [.junction .any [.ofVariable "a", .ofVariable "b"], .always] ∧
      merged.map (fun m ↦ m.children.map fun c ↦ c.place.steps) = [[[0], [1], [2]], []] := by
  have hsimplified : ∀ d ∈ sampleDeclarations, d.condition.simplify = d.condition := by decide
  obtain ⟨-, hresult, hagain⟩ := merge_joins_groups.1 _ hsimplified
  obtain ⟨merged, hmerged, hshown⟩ := Error.exists_of_any (x := merge sampleDeclarations)
    (p := fun merged ↦
      merged.map condition = [.junction .any [.ofVariable "a", .ofVariable "b"], .always] ∧
      merged.map (fun m ↦ m.children.map fun c ↦ c.place.steps) = [[[0], [1], [2]], []]) (by decide)
  refine ⟨hsimplified, hagain _ fun d hd ↦ List.mem_reverse.mp hd, merged, hmerged, ?_,
    of_decide_eq_true hshown⟩
  exact (hresult merged hmerged).1.trans (by decide)

end Declaration

/-! ## Shapes are found -/

/-- The type condition that was entered is a composite type. -/
theorem Scope.Passes.exists_possibleTypes {schema : Schema} {fieldTypes : NameSet}
    {scope inner : Scope} {g : Gate} {narrows : Bool}
    (h : scope.Passes schema fieldTypes g inner narrows) :
    ∃ types, schema.possibleTypes inner.parentType = .ok types := by
  rw [h.parentType]
  obtain ⟨selection, condition, -, h⟩ := h
  rw [enter] at h
  obtain ⟨types, htypes, -⟩ := Error.bind_eq_ok.mp h
  exact ⟨types, htypes⟩

theorem Schema.exists_typesSatisfying {schema : Schema} {rawType : Name} {typeSet : NameSet}
    (hraw : ∃ types, schema.possibleTypes rawType = .ok types)
    (h : ∀ c ∈ typeSet, ∃ types, schema.possibleTypes c = .ok types) :
    ∃ types, schema.typesSatisfying rawType typeSet = .ok types := by
  obtain ⟨fieldTypes, hfieldTypes⟩ := hraw
  obtain ⟨conditions, hconditions⟩ := Error.exists_mapM fun c hc ↦ h c (NameSet.mem_toList.mp hc)
  exact ⟨_, Error.bind_eq_ok.mpr ⟨fieldTypes, hfieldTypes,
    Error.bind_eq_ok.mpr ⟨conditions, hconditions, rfl⟩⟩⟩

theorem Shaped.exists_satisfies {schema : Schema} {rawType : Name} {typeConditions : List Name}
    {fieldTypes : NameSet} {shapes : List Shape}
    (h : Shaped schema rawType typeConditions fieldTypes shapes) (hne : ∃ t, t ∈ fieldTypes)
    {a : Shape} (ha : a ∈ shapes) :
    ∃ t ∈ fieldTypes, ∀ c ∈ a.typeSet, schema.satisfies t c = true := by
  by_cases hbase : a.typeSet = {rawType}
  · obtain ⟨t, ht⟩ := hne
    refine ⟨t, ht, fun c hc ↦ ?_⟩
    rw [hbase, NameSet.mem_singleton] at hc
    exact hc ▸ h.satisfies_rawType ht
  · exact h.satisfied a ha hbase

namespace Survey

variable {schema : Schema} {d : Document} {rawType : Name} {children : List Child} {s : Survey}
  (h : Survey.ofChildren schema d rawType children = .ok s)
include h

theorem exists_possibleTypes {c : Name} (hc : c = rawType ∨ c ∈ s.typeConditions) :
    ∃ types, schema.possibleTypes c = .ok types := by
  rcases hc with rfl | hc
  · exact ⟨s.fieldTypes, (ofChildren_eq_ok h).2.1⟩
  · obtain ⟨e, he, -, rfl⟩ := mem_typeConditions.mp hc
    obtain ⟨_, _, _, _, _, _, _, _, _, -, -, -, hpass, rfl⟩ := exists_enters_entry h he
    exact hpass.exists_possibleTypes

/-- **A survey that succeeds has shapes.** -/
theorem exists_shapes : ∃ shapes, s.shapes schema = .ok shapes := by
  obtain ⟨hraw, htypes, -⟩ := ofChildren_eq_ok h
  obtain ⟨conditions, hconditions⟩ : ∃ conditions,
      ((s.typeConditions.filter (· != rawType)).mapM fun c ↦
        do return (c, ← schema.possibleTypes c)) = .ok conditions := by
    refine Error.exists_mapM fun c hc ↦ ?_
    obtain ⟨types, htypes⟩ := exists_possibleTypes h (.inr (List.mem_filter.mp hc).1)
    exact ⟨_, Error.bind_eq_ok.mpr ⟨types, htypes, rfl⟩⟩
  obtain ⟨derived, hderived⟩ :
      ∃ derived, schema.derivedShapes s.rawType s.typeConditions = .ok derived := by
    rw [hraw]
    exact ⟨_, Error.bind_eq_ok.mpr ⟨_, htypes, Error.bind_eq_ok.mpr ⟨_, hconditions, rfl⟩⟩⟩
  refine FailsOnly.exists_ok
    (.bind (x := schema.derivedShapes _ _) (hderived ▸ .ok derived) fun _ _ ↦ ?_)
  refine .bind (.filterM fun typeSet htypeSet ↦ ?_) fun _ _ ↦ .ok _
  have hmade :=
    of_mem_typeSets h (mem_typeSets_of_mem_declaredTypeSets (List.mem_filter.mp htypeSet).1)
  obtain ⟨types, hsatisfying⟩ := Schema.exists_typesSatisfying ⟨_, htypes⟩ fun c hc ↦
    exists_possibleTypes h (hmade.2 c hc)
  rw [hraw, hsatisfying]
  exact .ok _

end Survey

/-! ## Conflicts -/

/-- The type conditions around a field that was found are satisfied by objects of type `t`. -/
def Occurrence.MetBy (o : Occurrence) (schema : Schema) (t : Name) : Prop :=
  ∀ c ∈ o.scope.typeSet, schema.satisfies t c = true

/-- Two fields that were found conflict for objects of type `t`: the objects meet both, under one
response name, and the fields differ in name, type or arguments. -/
structure Occurrence.ConflictsFor (schema : Schema) (t : Name) (o o' : Occurrence) : Prop where
  /-- The objects meet the one, -/
  met : o.MetBy schema t
  /-- and they meet the other. -/
  met' : o'.MetBy schema t
  /-- Both are asked for under one name. -/
  responseName : o.head.responseName = o'.head.responseName
  /-- They are not the same field. -/
  differ : ∃ info info', o.info schema = .ok info ∧ o'.info schema = .ok info' ∧
    ¬ info.SameField info'

/-- A field that was found lies behind gates: the objects that meet it are those that pass all of
them, and it is looked up in the innermost type condition. -/
structure Occurrence.LiesBehind (o : Occurrence) (schema : Schema) (fieldTypes : NameSet)
    (rawType : Name) (gates : List Gate) : Prop where
  /-- The objects that meet the field pass all gates, and the other way round. -/
  metBy_iff : ∀ t ∈ fieldTypes, o.MetBy schema t ↔ ∀ g ∈ gates, g.applies schema t = true
  /-- The field is looked up in the innermost type condition. -/
  parentType_eq : o.scope.parentType = Gate.innermost rawType gates

theorem Occurrence.Sums.liesBehind {o : Occurrence} {schema : Schema} {fieldTypes : NameSet}
    {rawType : Name} {gates : List Gate} (h : o.Sums schema fieldTypes rawType gates) :
    o.LiesBehind schema fieldTypes rawType gates where
  metBy_iff t ht := by
    simp only [Gate.applies_iff]
    exact h.typeSet fun c hcovers ↦ hcovers t ht
  parentType_eq := h.parentType

/-- The fields found are those that are selected beneath a field, the fragments around them left
out: each lies behind the gates on a way to it, and each that can be come to through gates that are
open together is found. -/
structure Survey.Flattens (schema : Schema) (d : Document) (rawType : Name) (children : List Child)
    (s : Survey) : Prop where
  /-- What is found lies behind gates on a way to it that can be open together. -/
  way : ∀ o ∈ s.found.occurrences, ∃ c ∈ children, ∃ gates,
    Leads d [] c.selection gates (.field o.head o.selections) ∧
    (∃ v, ∀ g ∈ gates, included v g.directives = true) ∧
    o.LiesBehind schema s.fieldTypes rawType gates
  /-- What lies behind such gates is found. -/
  found : ∀ c ∈ children, ∀ gates head beneath, Way d c.selection gates (.field head beneath) →
    (∃ v, ∀ g ∈ gates, included v g.directives = true) →
      ∃ o ∈ s.found.occurrences, o.head = head ∧ o.selections = beneath ∧
      o.LiesBehind schema s.fieldTypes rawType gates

namespace Survey

variable {schema : Schema} {d : Document} {rawType : Name} {children : List Child} {s : Survey}

/-- What can be merged for a type set. -/
theorem exists_fieldsFor_iff {typeSet : NameSet} {declarations : List Declaration}
    (hd : s.declarationsFor schema typeSet = .ok declarations) :
    (∃ merged, s.fieldsFor schema typeSet = .ok merged) ↔
      ∀ o o', s.Applies typeSet o → s.Applies typeSet o' →
      o.head.responseName = o'.head.responseName →
        ∀ info info', o.info schema = .ok info → o'.info schema = .ok info' →
        info.SameField info' := by
  have hmerge : (∃ merged, s.fieldsFor schema typeSet = .ok merged) ↔
      ∃ merged, Declaration.merge declarations = .ok merged := by
    rw [fieldsFor, hd]
    exact Iff.rfl
  rw [hmerge, Declaration.exists_merge_iff]
  constructor
  · intro hsame o o' ho ho' hname info info' hinfo hinfo'
    obtain ⟨m, hm, hok, hn, -⟩ := exists_mem_declarationsFor hd ho
    obtain ⟨m', hm', hok', hn', -⟩ := exists_mem_declarationsFor hd ho'
    cases hinfo.symm.trans hok
    cases hinfo'.symm.trans hok'
    exact hsame m hm m' hm' (hn.trans (hname.trans hn'.symm))
  · intro hsame m hm m' hm' hname
    obtain ⟨o, ho, hok⟩ := Error.exists_of_mem_mapM hd hm
    obtain ⟨o', ho', hok'⟩ := Error.exists_of_mem_mapM hd hm'
    obtain ⟨hinfo, hn, -⟩ := Occurrence.of_declaration hok
    obtain ⟨hinfo', hn', -⟩ := Occurrence.of_declaration hok'
    have happlies :
      ∀ {k : Occurrence}, k ∈ s.found.occurrences.filter (fun o ↦ o.scope.typeSet ⊆ typeSet) →
        s.Applies typeSet k := fun hk ↦ (List.mem_filter.mp hk).imp_right of_decide_eq_true
    exact hsame o o' (happlies ho) (happlies ho') (hn.symm.trans (hname.trans hn')) _ _ hinfo hinfo'

section

variable (h : Survey.ofChildren schema d rawType children = .ok s)
include h

/-- What a survey finds are the fields behind the gates that can be open. -/
theorem flattens : s.Flattens schema d rawType children where
  way o ho := by
    obtain ⟨c, hc, gates, hleads, hsums, hopen⟩ := exists_leads h ho
    exact ⟨c, hc, gates, hleads, hopen, hsums.liesBehind⟩
  found c hc gates head beneath hway := by
    rintro ⟨v, hv⟩
    obtain ⟨o, ho, hhead, hbeneath, hsums⟩ := exists_occurrence h hc hway hv
    exact ⟨o, ho, hhead, hbeneath, hsums.liesBehind⟩

/-- Two fields that apply to one shape are met by objects of one type. -/
theorem exists_metBy_of_applies (hobjects : ∃ t, t ∈ s.fieldTypes) {shapes : List Shape}
    (hshapes : s.shapes schema = .ok shapes) {a : Shape} (ha : a ∈ shapes) {o o' : Occurrence}
    (ho : s.Applies a.typeSet o) (ho' : s.Applies a.typeSet o') :
    ∃ t ∈ s.fieldTypes, o.MetBy schema t ∧ o'.MetBy schema t := by
  obtain ⟨t, ht, hsatisfies⟩ := (shaped h hshapes).exists_satisfies hobjects ha
  exact ⟨t, ht, fun c hc ↦ hsatisfies c (ho.2 c hc), fun c hc ↦ hsatisfies c (ho'.2 c hc)⟩

/-- Two fields that are met by objects of one type apply to the shape of that type. -/
theorem exists_applies_of_metBy {shapes : List Shape} (hshapes : s.shapes schema = .ok shapes)
    {t : Name} (ht : t ∈ s.fieldTypes) :
    ∃ a ∈ shapes, ∀ o ∈ s.found.occurrences, o.MetBy schema t → s.Applies a.typeSet o := by
  obtain ⟨a, ha, htypeSet⟩ := (shaped h hshapes).exists_shape t ht
  refine ⟨a, ha, fun o ho hmet ↦ ?_⟩
  rw [htypeSet]
  exact (applies_typeSetOf_iff h ht).mpr ⟨ho, hmet⟩

end

/-- **Fields conflict exactly when it can matter.** Beneath a field that objects of some type can
have, merging succeeds for every shape, if what applies to the shapes can be looked up, exactly if
no two of the fields found conflict for objects of any type. Where it fails for a shape, it fails
over a conflict. Fields that no objects meet both of apply to no shape together. And the fields
found are those that are selected beneath the field, however many fragments are around them: objects
meet a field if they pass all the gates around it. -/
theorem fieldsFor_iff_no_conflict (hsurvey : Survey.ofChildren schema d rawType children = .ok s)
    (hobjects : ∃ t, t ∈ s.fieldTypes) :
    (∃ shapes, s.shapes schema = .ok shapes ∧
      ((∀ a ∈ shapes, ∃ declarations, s.declarationsFor schema a.typeSet = .ok declarations) →
        ((∀ a ∈ shapes, ∃ merged, s.fieldsFor schema a.typeSet = .ok merged) ↔
          ¬ ∃ t ∈ s.fieldTypes, ∃ o ∈ s.found.occurrences, ∃ o' ∈ s.found.occurrences,
            o.ConflictsFor schema t o') ∧
        ∀ a ∈ shapes, FailsOnly Error.IsConflict (s.fieldsFor schema a.typeSet)) ∧
      ∀ o ∈ s.found.occurrences, ∀ o' ∈ s.found.occurrences,
        (¬ ∃ t ∈ s.fieldTypes, o.MetBy schema t ∧ o'.MetBy schema t) →
          ¬ ∃ a ∈ shapes, s.Applies a.typeSet o ∧ s.Applies a.typeSet o') ∧
    s.Flattens schema d rawType children := by
  obtain ⟨shapes, hshapes⟩ := exists_shapes hsurvey
  refine ⟨⟨shapes, hshapes, fun hdeclares ↦ ⟨?_, fun a ha ↦ ?_⟩, ?_⟩, flattens hsurvey⟩
  · constructor
    · rintro hmerges ⟨t, ht, o, ho, o', ho', hconflict⟩
      obtain ⟨a, ha, happlies⟩ := exists_applies_of_metBy hsurvey hshapes ht
      obtain ⟨declarations, hd⟩ := hdeclares a ha
      obtain ⟨info, info', hinfo, hinfo', hdiffer⟩ := hconflict.differ
      exact hdiffer ((exists_fieldsFor_iff hd).mp (hmerges a ha) o o' (happlies o ho hconflict.met)
        (happlies o' ho' hconflict.met') hconflict.responseName info info' hinfo hinfo')
    · intro hnone a ha
      obtain ⟨declarations, hd⟩ := hdeclares a ha
      refine (exists_fieldsFor_iff hd).mpr fun o o' ho ho' hname info info' hinfo hinfo' ↦ ?_
      by_contra hdiffer
      obtain ⟨t, ht, hmet, hmet'⟩ := exists_metBy_of_applies hsurvey hobjects hshapes ha ho ho'
      exact hnone ⟨t, ht, o, ho.1, o', ho'.1, hmet, hmet', hname, info, info', hinfo,
        hinfo', hdiffer⟩
  · obtain ⟨declarations, hd⟩ := hdeclares a ha
    rw [fieldsFor, hd]
    exact Declaration.failsOnly_merge declarations
  · rintro o - o' - hnone ⟨a, ha, ho, ho'⟩
    exact hnone (exists_metBy_of_applies hsurvey hobjects hshapes ha ho ho')

/-- A dog and a cat can have different things under one label. If pets have another under it, they
conflict. -/
theorem fieldsFor_iff_no_conflict_labels :
    (∃ s, Survey.ofChildren Sample.schema Sample.document "Animal" (rootChildren Sample.labels []) =
      .ok s ∧ "Dog" ∈ s.fieldTypes ∧ s.found.occurrences.map (fun o ↦ o.head.responseName) =
        ["label", "label"] ∧ s.found.occurrences.map (fun o ↦ o.head.name) = ["name", "breed"] ∧
      ¬ ∃ t ∈ s.fieldTypes, ∃ o ∈ s.found.occurrences, ∃ o' ∈ s.found.occurrences,
        o.ConflictsFor Sample.schema t o') ∧
    ∃ s, Survey.ofChildren Sample.schema Sample.document "Animal"
      (rootChildren Sample.disputedLabels []) = .ok s ∧ "Dog" ∈ s.fieldTypes ∧
      ∃ t ∈ s.fieldTypes, ∃ o ∈ s.found.occurrences, ∃ o' ∈ s.found.occurrences,
        o.ConflictsFor Sample.schema t o' := by
  constructor
  · obtain ⟨s, hs, htest⟩ := Error.exists_of_any
      (x := Survey.ofChildren Sample.schema Sample.document "Animal"
        (rootChildren Sample.labels []))
      (p := fun s ↦
        decide ("Dog" ∈ s.fieldTypes ∧
          s.found.occurrences.map (fun o ↦ o.head.responseName) = ["label", "label"] ∧
          s.found.occurrences.map (fun o ↦ o.head.name) = ["name", "breed"]) &&
        (s.shapes Sample.schema).toOption.any fun shapes ↦
          shapes.all fun a ↦ (s.fieldsFor Sample.schema a.typeSet).toOption.any fun _ ↦ true)
      (by decide +kernel)
    obtain ⟨hshown, hmerge⟩ := Bool.and_eq_true_iff.mp htest
    obtain ⟨hdog, hnames⟩ := of_decide_eq_true hshown
    obtain ⟨⟨shapes, hshapes, hiff, -⟩, -⟩ := fieldsFor_iff_no_conflict hs ⟨"Dog", hdog⟩
    have hmerges : ∀ a ∈ shapes, ∃ merged, s.fieldsFor Sample.schema a.typeSet = .ok merged := by
      intro a ha
      rw [hshapes] at hmerge
      obtain ⟨merged, hmerged, -⟩ := Error.exists_of_any (List.all_eq_true.mp hmerge a ha)
      exact ⟨merged, hmerged⟩
    refine ⟨s, hs, hdog, hnames.1, hnames.2, (hiff fun a ha ↦ ?_).1.mp hmerges⟩
    obtain ⟨merged, hmerged⟩ := hmerges a ha
    obtain ⟨declarations, hd, -⟩ := Error.bind_eq_ok.mp hmerged
    exact ⟨declarations, hd⟩
  · obtain ⟨s, hs, htest⟩ := Error.exists_of_any
      (x := Survey.ofChildren Sample.schema Sample.document "Animal"
        (rootChildren Sample.disputedLabels []))
      (p := fun s ↦
        decide ("Dog" ∈ s.fieldTypes) && (s.shapes Sample.schema).toOption.any fun shapes ↦
          (shapes.all fun a ↦
            (s.declarationsFor Sample.schema a.typeSet).toOption.any fun _ ↦ true) &&
          shapes.any fun a ↦ (s.fieldsFor Sample.schema a.typeSet).toOption.all fun _ ↦ false)
      (by decide +kernel)
    obtain ⟨hshown, htest⟩ := Bool.and_eq_true_iff.mp htest
    have hdog := of_decide_eq_true hshown
    obtain ⟨⟨shapes, hshapes, hiff, -⟩, -⟩ := fieldsFor_iff_no_conflict hs ⟨"Dog", hdog⟩
    rw [hshapes] at htest
    obtain ⟨hdeclare, hfail⟩ := Bool.and_eq_true_iff.mp htest
    refine ⟨s, hs, hdog, ?_⟩
    have hdeclares : ∀ a ∈ shapes,
        ∃ declarations, s.declarationsFor Sample.schema a.typeSet = .ok declarations := by
      intro a ha
      obtain ⟨declarations, hd, -⟩ := Error.exists_of_any (List.all_eq_true.mp hdeclare a ha)
      exact ⟨declarations, hd⟩
    by_contra hnone
    obtain ⟨a, ha, hnot⟩ := List.any_eq_true.mp hfail
    obtain ⟨merged, hmerged⟩ := (hiff hdeclares).1.mpr hnone a ha
    rw [hmerged] at hnot
    cases hnot

end Survey
end ResponseModels
