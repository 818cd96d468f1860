import ResponseModels.Collect.Expand
import ResponseModels.Model.Plan
import ResponseModels.Proofs.Collect.FieldSurvey
import ResponseModels.Proofs.Shape

/-!
# What expanding a field gives

A field is expanded shape by shape. `Declaration.Unfolds` says how the field that results hangs
together with the survey of what is selected beneath it, so that no other proof has to open
`expandField`:

* its field sets are the shapes of the survey, of which `Survey.shaped` says what is known;
* the fields of a field set are the occurrences that apply to its type set, merged by response name
  (`Survey.exists_mem_fieldsFor_iff`), and perhaps `__typename`.
-/

set_option autoImplicit false

namespace ResponseModels

/-! ## The shapes of a survey -/

theorem Schema.mem_typesSatisfying {schema : Schema} {rawType : Name}
    {typeSet fieldTypes types : NameSet} (ht : schema.possibleTypes rawType = .ok fieldTypes)
    (h : schema.typesSatisfying rawType typeSet = .ok types) {t : Name} :
    t ∈ types ↔ t ∈ fieldTypes ∧ ∀ c ∈ typeSet, schema.satisfies t c = true := by
  rw [typesSatisfying, ht] at h
  obtain ⟨_, ⟨⟩, h⟩ := Error.bind_eq_ok.mp h
  obtain ⟨conditions, hconditions, h⟩ := Error.bind_eq_ok.mp h
  cases h
  rw [NameSet.mem_filter, List.all_eq_true]
  refine and_congr_right fun _ ↦ ⟨fun hall c hc ↦ ?_, fun hall types htypes ↦ ?_⟩
  · obtain ⟨types, hmem, htypes⟩ := Error.exists_mem_of_mapM hconditions hc
    exact (satisfies_iff htypes).mpr (of_decide_eq_true (hall types hmem))
  · obtain ⟨c, hc, hok⟩ := Error.exists_of_mem_mapM hconditions htypes
    exact decide_eq_true ((satisfies_iff hok).mp (hall c hc))

namespace Survey

variable {schema : Schema} {d : Document} {rawType : Name} {children : List Child} {s : Survey}

theorem mem_typeSets_of_mem_occurrences {o : Occurrence} (h : o ∈ s.found.occurrences) :
    o.scope.typeSet ∈ s.found.typeSets :=
  List.mem_append_left _ (List.mem_map_of_mem h)

/-- A type set that is declared is one of those that are noted. -/
theorem mem_typeSets_of_mem_declaredTypeSets {typeSet : NameSet}
    (h : typeSet ∈ s.declaredTypeSets) :
    typeSet ∈ s.found.typeSets :=
  List.mem_append_right _ (List.mem_eraseDups.mp h)

/-- **What is known of the shapes of a survey.** -/
theorem shaped (h : Survey.ofChildren schema d rawType children = .ok s) {shapes : List Shape}
    (hs : s.shapes schema = .ok shapes) :
    Shaped schema rawType s.typeConditions s.fieldTypes shapes := by
  obtain ⟨hraw, htypes, -⟩ := ofChildren_eq_ok h
  rw [Survey.shapes, hraw] at hs
  obtain ⟨derived, hderived, hs⟩ := Error.bind_eq_ok.mp hs
  obtain ⟨declared, hdeclared, hs⟩ := Error.bind_eq_ok.mp hs
  cases hs
  obtain ⟨hsublist, hkept⟩ := Error.sublist_of_filterM hdeclared
  have hdecl : ∀ t ∈ declared, t ∈ s.declaredTypeSets ∧ ∀ a ∈ derived, a.typeSet ≠ t := by
    intro t ht
    obtain ⟨hdecl, hnew⟩ := List.mem_filter.mp (hsublist.subset ht)
    simp only [Bool.not_eq_true', List.any_eq_false, decide_eq_true_eq] at hnew
    exact ⟨hdecl, hnew⟩
  refine Shaped.of_derived htypes hderived ?_ (fun t ht ↦ (hdecl t ht).2)
    (fun t ht ↦ ?_) fun t ht ↦ ?_
  · exact hsublist.nodup ((nodup_eraseDups _).filter _)
  · exact of_mem_typeSets h (mem_typeSets_of_mem_declaredTypeSets (hdecl t ht).1)
  · obtain ⟨types, htypes', hok⟩ := Error.bind_eq_ok.mp (hkept t ht)
    have hne : types.isEmpty = false := by simpa using Except.ok.inj hok
    obtain ⟨u, hu⟩ := NameSet.isEmpty_eq_false.mp hne
    exact ⟨u, (Schema.mem_typesSatisfying htypes htypes').mp hu⟩

end Survey

/-! ## The fields of a type set -/

theorem Declaration.canBeIncluded_of_eval {m : Declaration} {v : Name → Bool}
    (h : m.condition.eval v = true) : m.canBeIncluded = true := by
  rw [canBeIncluded, Bool.not_eq_true', Bool.eq_false_iff, ne_eq, Condition.isNever_eq_true]
  intro hnever
  rw [hnever] at h
  cases h

theorem Occurrence.of_declaration {o : Occurrence} {schema : Schema} {m : Declaration}
    (h : o.declaration schema = .ok m) :
    o.info schema = .ok m.info ∧ m.responseName = o.head.responseName ∧
      m.condition = o.scope.condition ∧ m.children = o.children := by
  rw [declaration] at h
  obtain ⟨info, hinfo, h⟩ := Error.bind_eq_ok.mp h
  cases h
  refine ⟨hinfo, ?_⟩
  rw [Occurrence.info] at hinfo
  obtain ⟨definition, -, hinfo⟩ := Error.bind_eq_ok.mp hinfo
  obtain ⟨arguments, -, hinfo⟩ := Error.bind_eq_ok.mp hinfo
  obtain ⟨type, -, hinfo⟩ := Error.bind_eq_ok.mp hinfo
  cases hinfo
  exact ⟨rfl, rfl, rfl⟩

theorem Occurrence.info_congr {o o' : Occurrence} (hhead : o'.head = o.head)
    (hparent : o'.scope.parentType = o.scope.parentType) (schema : Schema) :
    o'.info schema = o.info schema := by
  have harguments :
      ∀ definition, o'.arguments schema definition = o.arguments schema definition := by
    intro definition
    rw [arguments, arguments, hhead, hparent]
  rw [info, info, hhead, hparent]
  simp only [harguments]

theorem Schema.name_base_of_resolve {schema : Schema} {t : TypeExpr Name} {r : TypeExpr NamedType}
    (h : schema.resolve t = .ok r) : r.base.name = t.base := by
  induction t generalizing r with
  | named name =>
    obtain ⟨u, -, h⟩ := Error.bind_eq_ok.mp h
    cases h
    rfl
  | list item ih =>
    obtain ⟨r', hr', h⟩ := Error.bind_eq_ok.mp h
    cases h
    show r'.base.name = item.base
    exact ih hr'
  | nonNull item ih =>
    obtain ⟨r', hr', h⟩ := Error.bind_eq_ok.mp h
    cases h
    show r'.base.name = item.base
    exact ih hr'

/-- A field that was found is of the type that its definition says. -/
theorem Occurrence.exists_definition {o : Occurrence} {schema : Schema} {info : FieldInfo}
    (h : o.info schema = .ok info) :
    ∃ definition, schema.field o.scope.parentType o.head.name = .ok definition ∧
      info.rawType = definition.type.base := by
  rw [Occurrence.info] at h
  obtain ⟨definition, hfound, h⟩ := Error.bind_eq_ok.mp h
  obtain ⟨arguments, -, h⟩ := Error.bind_eq_ok.mp h
  obtain ⟨type, htype, h⟩ := Error.bind_eq_ok.mp h
  cases h
  exact ⟨definition, hfound, Schema.name_base_of_resolve htype⟩

theorem Occurrence.map_selection_children (o : Occurrence) :
    o.children.map Child.selection = o.selections := by
  rw [children, List.map_map]
  exact o.place.map_snd_locate o.selections

/-- What is selected beneath a field that stands at its place stands at its own. -/
theorem Occurrence.stands_children {o : Occurrence} {d : Document} {root : List Selection}
    (h : Stands d root o.place (.field o.head o.selections)) :
    ∀ c ∈ o.children, Stands d root c.place c.selection := by
  intro c hc
  obtain ⟨ps, hps, rfl⟩ := List.mem_map.mp hc
  exact .of_mem_locate (h.selectionsAt rfl) hps

namespace Survey

variable {schema : Schema} {s : Survey} {typeSet : NameSet}

/-- An occurrence is found where it applies to a type set. -/
def Applies (s : Survey) (typeSet : NameSet) (o : Occurrence) : Prop :=
  o ∈ s.found.occurrences ∧ o.scope.typeSet ⊆ typeSet

/-- A type set that is noted is in another if its conditions are, those left out that cover the
field: the only one of these it can have is the raw type. -/
theorem subset_of_forall {d : Document} {rawType : Name} {children : List Child}
    (h : Survey.ofChildren schema d rawType children = .ok s) (hraw : rawType ∈ typeSet)
    {noted : NameSet} (hnoted : noted ∈ s.found.typeSets)
    (hall : ∀ c ∈ noted, c ∈ typeSet ∨ schema.Covers s.fieldTypes c) : noted ⊆ typeSet := by
  intro c hc
  rcases hall c hc with hmem | hcovers
  · exact hmem
  · rcases (of_mem_typeSets h hnoted).2 c hc with rfl | hcond
    · exact hraw
    · exact absurd hcovers ((mem_typeConditions_iff h).mp hcond).2

/-- **What objects of a type meet is what applies to the shape of the type**: the occurrences whose
own type set they satisfy. -/
theorem applies_typeSetOf_iff {d : Document} {rawType : Name} {children : List Child}
    (h : Survey.ofChildren schema d rawType children = .ok s) {t : Name} (ht : t ∈ s.fieldTypes)
    {o : Occurrence} :
    s.Applies (schema.typeSetOf rawType s.typeConditions t) o ↔
      o ∈ s.found.occurrences ∧ ∀ c ∈ o.scope.typeSet, schema.satisfies t c = true := by
  refine and_congr_right fun ho ↦
    Schema.subset_typeSetOf_iff ?_ ((Schema.satisfies_iff (ofChildren_eq_ok h).2.1).mpr ht)
  exact (of_mem_typeSets h (mem_typeSets_of_mem_occurrences ho)).2

/-- **The occurrences that apply to a type set** are the fields that can be reached through gates
whose type conditions are in the type set or cover the field. -/
theorem exists_applies_iff {d : Document} {rawType : Name} {children : List Child}
    (h : Survey.ofChildren schema d rawType children = .ok s) (hraw : rawType ∈ typeSet)
    (head : FieldHead) (beneath : List Selection) :
    (∃ o, s.Applies typeSet o ∧ o.head = head ∧ o.selections = beneath) ↔
      ∃ y ∈ children.map Child.selection, ∃ gates, Leads d [] y gates (.field head beneath) ∧
        (∃ v, ∀ g ∈ gates, included v g.directives = true) ∧
        ∀ g ∈ gates, ∀ c, g.typeCondition = some c → c ∈ typeSet ∨
        schema.Covers s.fieldTypes c := by
  constructor
  · rintro ⟨o, ⟨ho, hsub⟩, rfl, rfl⟩
    obtain ⟨c, hc, gates, hleads, hsums, hopen⟩ := exists_leads h ho
    exact ⟨_, List.mem_map_of_mem hc, gates, hleads, hopen,
      (hsums.typeSet fun c hcovers ↦ .inr hcovers).mp fun c hc ↦ .inl (hsub c hc)⟩
  · rintro ⟨y, hy, gates, hleads, ⟨v, hv⟩, htypes⟩
    obtain ⟨c, hc, rfl⟩ := List.mem_map.mp hy
    obtain ⟨o, ho, rfl, rfl, hsums⟩ := exists_occurrence h hc hleads.way hv
    refine ⟨o, ⟨ho, subset_of_forall h hraw (mem_typeSets_of_mem_occurrences ho) ?_⟩, rfl, rfl⟩
    exact (hsums.typeSet fun c hcovers ↦ .inr hcovers).mpr htypes

/-- The declarations of a type set are those of the occurrences that apply. -/
theorem exists_of_mem_declarationsFor {declarations : List Declaration}
    (h : s.declarationsFor schema typeSet = .ok declarations) {m : Declaration}
    (hm : m ∈ declarations) :
    ∃ o, s.Applies typeSet o ∧ m.responseName = o.head.responseName ∧
      m.condition = o.scope.condition ∧ m.children = o.children := by
  obtain ⟨o, ho, hok⟩ := Error.exists_of_mem_mapM h hm
  obtain ⟨ho, hsub⟩ := List.mem_filter.mp ho
  exact ⟨o, ⟨ho, of_decide_eq_true hsub⟩, (Occurrence.of_declaration hok).2⟩

/-- What holds of the conditions of all occurrences holds of the conditions of the declarations. -/
theorem condition_of_mem_declarationsFor {P : Condition → Prop} {declarations : List Declaration}
    (h : s.declarationsFor schema typeSet = .ok declarations)
    (hfound : ∀ o ∈ s.found.occurrences, P o.scope.condition) :
    ∀ m ∈ declarations, P m.condition := by
  intro m hm
  obtain ⟨o, ho, -, hcondition, -⟩ := exists_of_mem_declarationsFor h hm
  exact hcondition ▸ hfound o ho.1

theorem exists_mem_declarationsFor {declarations : List Declaration}
    (h : s.declarationsFor schema typeSet = .ok declarations) {o : Occurrence}
    (ho : s.Applies typeSet o) :
    ∃ m ∈ declarations, o.info schema = .ok m.info ∧ m.responseName = o.head.responseName ∧
      m.condition = o.scope.condition ∧ m.children = o.children := by
  have hmem : o ∈ s.found.occurrences.filter fun o ↦ o.scope.typeSet ⊆ typeSet :=
    List.mem_filter.mpr ⟨ho.1, decide_eq_true ho.2⟩
  obtain ⟨m, hm, hok⟩ := Error.exists_mem_of_mapM h hmem
  exact ⟨m, hm, Occurrence.of_declaration hok⟩

section

variable {merged : List Declaration} (h : s.fieldsFor schema typeSet = .ok merged)
include h

theorem nodup_of_fieldsFor : (merged.map Declaration.responseName).Nodup := by
  rw [fieldsFor] at h
  obtain ⟨declarations, -, h⟩ := Error.bind_eq_ok.mp h
  exact Declaration.nodup_responseName_merge h

/-- A field of a type set is included when an occurrence that applies is. -/
theorem eval_of_mem_fieldsFor {m : Declaration} (hm : m ∈ merged) (v : Name → Bool) :
    m.condition.eval v = true ↔ ∃ o, s.Applies typeSet o ∧ o.head.responseName = m.responseName ∧
      o.scope.condition.eval v = true := by
  rw [fieldsFor] at h
  obtain ⟨declarations, hd, h⟩ := Error.bind_eq_ok.mp h
  rw [Declaration.eval_of_mem_merge h hm]
  constructor
  · rintro ⟨m', hm', hname, heval⟩
    obtain ⟨o, ho, hn, hc, -⟩ := exists_of_mem_declarationsFor hd hm'
    exact ⟨o, ho, hn ▸ hname, hc ▸ heval⟩
  · rintro ⟨o, ho, hname, heval⟩
    obtain ⟨m', hm', -, hn, hc, -⟩ := exists_mem_declarationsFor hd ho
    exact ⟨m', hm', hn.trans hname, hc ▸ heval⟩

/-- A field of a type set is the same field as the occurrences that apply. -/
theorem sameField_of_mem_fieldsFor {m : Declaration} (hm : m ∈ merged) {o : Occurrence}
    (ho : s.Applies typeSet o) (hname : o.head.responseName = m.responseName) :
    ∃ info, o.info schema = .ok info ∧ m.info.SameField info := by
  rw [fieldsFor] at h
  obtain ⟨declarations, hd, h⟩ := Error.bind_eq_ok.mp h
  obtain ⟨m', hm', hinfo, hn, -⟩ := exists_mem_declarationsFor hd ho
  exact ⟨m'.info, hinfo, Declaration.sameField_of_mem_merge h hm hm' (hn.trans hname)⟩

/-- A field of a type set comes from an occurrence that applies. -/
theorem exists_applies_of_mem_fieldsFor {m : Declaration} (hm : m ∈ merged) :
    ∃ o, s.Applies typeSet o ∧ o.head.responseName = m.responseName := by
  rw [fieldsFor] at h
  obtain ⟨declarations, hd, h⟩ := Error.bind_eq_ok.mp h
  have hmem := List.mem_map_of_mem (f := Declaration.responseName) hm
  rw [Declaration.map_responseName_merge h, List.mem_eraseDups] at hmem
  obtain ⟨m', hm', hname⟩ := List.mem_map.mp hmem
  obtain ⟨o, ho, hn, -⟩ := exists_of_mem_declarationsFor hd hm'
  exact ⟨o, ho, hn.symm.trans hname⟩

theorem exists_mem_fieldsFor {o : Occurrence} (ho : s.Applies typeSet o) :
    ∃ m ∈ merged, m.responseName = o.head.responseName := by
  rw [fieldsFor] at h
  obtain ⟨declarations, hd, h⟩ := Error.bind_eq_ok.mp h
  obtain ⟨m', hm', -, hn, -⟩ := exists_mem_declarationsFor hd ho
  obtain ⟨m, hm, hname⟩ := Declaration.exists_mem_merge h hm'
  exact ⟨m, hm, hname.trans hn⟩

/-- The response names of the fields that are included are those of the occurrences that apply and
are. -/
theorem exists_mem_fieldsFor_iff {n : Name} {v : Name → Bool} :
    (∃ m ∈ merged.filter Declaration.canBeIncluded, m.responseName = n ∧
      m.condition.eval v = true) ↔
      ∃ o, s.Applies typeSet o ∧ o.head.responseName = n ∧ o.scope.condition.eval v = true := by
  constructor
  · rintro ⟨m, hm, rfl, heval⟩
    exact (eval_of_mem_fieldsFor h (List.mem_filter.mp hm).1 v).mp heval
  · rintro ⟨o, ho, rfl, heval⟩
    obtain ⟨m, hm, hname⟩ := exists_mem_fieldsFor h ho
    have hmv := (eval_of_mem_fieldsFor h hm v).mpr ⟨o, ho, hname.symm, heval⟩
    refine ⟨m, List.mem_filter.mpr ⟨hm, ?_⟩, hname, hmv⟩
    exact Declaration.canBeIncluded_of_eval hmv

/-- **What is selected beneath a field of a type set** is what is selected beneath the occurrences
that apply, if the selections surveyed stand at their places. -/
theorem mem_children_iff {d : Document} {rawType : Name} {children : List Child}
    {root : List Selection} (hs : Survey.ofChildren schema d rawType children = .ok s)
    (hstands : ∀ c ∈ children, Stands d root c.place c.selection) {m : Declaration}
    (hm : m ∈ merged) :
    (∀ c ∈ m.children, Stands d root c.place c.selection) ∧
      ∀ x, x ∈ m.children.map Child.selection ↔
        ∃ o, s.Applies typeSet o ∧ o.head.responseName = m.responseName ∧ x ∈ o.selections := by
  rw [fieldsFor] at h
  obtain ⟨declarations, hd, h⟩ := Error.bind_eq_ok.mp h
  have hfound : ∀ {o : Occurrence}, s.Applies typeSet o → ∀ c ∈ o.children,
      Stands d root c.place c.selection := fun ho c hc ↦
    Occurrence.stands_children (stands hs hstands _ ho.1) c hc
  -- A child of the merged field is a child of an occurrence.
  have hfrom : ∀ c ∈ m.children, ∃ o, s.Applies typeSet o ∧ o.head.responseName = m.responseName ∧
      c ∈ o.children := by
    intro c hc
    obtain ⟨m', hm', hname, hc⟩ := Declaration.exists_of_mem_children_merge h hm hc
    obtain ⟨o, ho, hn, -, hchildren⟩ := exists_of_mem_declarationsFor hd hm'
    exact ⟨o, ho, hn ▸ hname, hchildren ▸ hc⟩
  refine ⟨fun c hc ↦ ?_, fun x ↦ ⟨fun hx ↦ ?_, ?_⟩⟩
  · obtain ⟨o, ho, -, hc⟩ := hfrom c hc
    exact hfound ho c hc
  · obtain ⟨c, hc, rfl⟩ := List.mem_map.mp hx
    obtain ⟨o, ho, hname, hc⟩ := hfrom c hc
    exact ⟨o, ho, hname, o.map_selection_children ▸ List.mem_map_of_mem hc⟩
  · rintro ⟨o, ho, hname, hx⟩
    rw [← o.map_selection_children] at hx
    obtain ⟨c, hc, rfl⟩ := List.mem_map.mp hx
    obtain ⟨m', hm', -, hn, -, hchildren⟩ := exists_mem_declarationsFor hd ho
    obtain ⟨k, hk, hplace⟩ :=
      Declaration.exists_place_of_mem_merge h hm hm' (hn.trans hname) (hchildren.symm ▸ hc)
    -- Of children at one place only the first is kept, but only one selection stands there.
    obtain ⟨o', ho', -, hk'⟩ := hfrom k hk
    have heq : k.selection = c.selection :=
      (hfound ho' k hk').unique (hplace ▸ hfound ho c hc)
    exact heq ▸ List.mem_map_of_mem hk

end
end Survey

/-! ## The field that results -/

section

variable {schema : Schema} {d : Document} {policy : TypenamePolicy}
  {field : Declaration} {f : Field}

/-- How a composite field hangs together with the survey of what is selected beneath it. -/
structure Declaration.Unfolds (schema : Schema) (d : Document) (policy : TypenamePolicy)
    (field : Declaration) (f : Field) (survey : Survey) : Prop where
  /-- The survey is that of the children. -/
  survey_eq : Survey.ofChildren schema d field.info.rawType field.children = .ok survey
  /-- The shapes of the field are those of the survey. -/
  shapes_eq : survey.shapes schema = .ok f.shapes
  /-- A field set has what the survey declares for its type set and can be included, and in front
  a `__typename` if one is added. -/
  fieldSet : ∀ s ∈ f.fieldSets, ∃ merged selected,
    survey.fieldsFor schema s.typeSet = .ok merged ∧
    (merged.filter Declaration.canBeIncluded).mapM (expandField schema d policy) = .ok selected ∧
    s.fields = addedTypename (policy.applies (1 < f.fieldSets.length ||
      schema.isAbstract field.info.rawType)) merged ++ selected
  /-- The fragments beneath the field are those of the survey. -/
  fragments : f.fragments = survey.fragments
  /-- So are the fragments of each field set. -/
  fragmentsFor : ∀ s ∈ f.fieldSets, s.fragments = survey.fragmentsFor s.typeSet

theorem info_of_expandField (h : expandField schema d policy field = .ok f) :
    f.info = field.info ∧ f.condition = field.condition := by
  rw [expandField_eq] at h
  split at h
  · obtain ⟨survey, -, h⟩ := Error.bind_eq_ok.mp h
    obtain ⟨shapes, -, h⟩ := Error.bind_eq_ok.mp h
    obtain ⟨fieldSets, -, h⟩ := Error.bind_eq_ok.mp h
    cases h
    exact ⟨rfl, rfl⟩
  · cases h
    exact ⟨rfl, rfl⟩

theorem responseName_of_expandField (h : expandField schema d policy field = .ok f) :
    f.responseName = field.responseName :=
  congrArg FieldInfo.responseName (info_of_expandField h).1

/-- A field that is not composite has no field sets. -/
theorem fieldSets_of_expandField (h : expandField schema d policy field = .ok f)
    (hc : schema.isComposite field.info.rawType = false) : f.fieldSets = [] := by
  rw [expandField_eq, hc] at h
  cases h
  rfl

/-- A field with a field set is composite. -/
theorem isComposite_of_mem_fieldSets {field : Declaration}
    (h : expandField schema d policy field = .ok f) {s : FieldSet} (hs : s ∈ f.fieldSets) :
    schema.isComposite field.info.rawType = true := by
  cases hc : schema.isComposite field.info.rawType with
  | true => rfl
  | false => exact absurd hs (fieldSets_of_expandField h hc ▸ List.not_mem_nil)

/-- **How a composite field unfolds.** -/
theorem unfolds_of_expandField (h : expandField schema d policy field = .ok f)
    (hc : schema.isComposite field.info.rawType = true) :
    ∃ survey, field.Unfolds schema d policy f survey := by
  rw [expandField_eq, if_pos hc] at h
  obtain ⟨survey, hsurvey, h⟩ := Error.bind_eq_ok.mp h
  obtain ⟨shapes, hshapes, h⟩ := Error.bind_eq_ok.mp h
  obtain ⟨fieldSets, hsets, h⟩ := Error.bind_eq_ok.mp h
  cases h
  have heq : fieldSets.map (fun s ↦ (⟨s.typeSet, s.possibleTypes⟩ : Shape)) = shapes.map id := by
    refine Error.map_eq_of_mapM (fun shape s hs ↦ ?_) hsets
    obtain ⟨merged, -, hs⟩ := Error.bind_eq_ok.mp hs
    obtain ⟨fields, -, hs⟩ := Error.bind_eq_ok.mp hs
    cases hs
    rfl
  rw [List.map_id] at heq
  refine ⟨survey, hsurvey, hshapes.trans (congrArg Except.ok heq.symm),
    fun s hs ↦ ?_, rfl, fun s hs ↦ ?_⟩
  · obtain ⟨shape, -, hs⟩ := Error.exists_of_mem_mapM hsets hs
    obtain ⟨merged, hmerged, hs⟩ := Error.bind_eq_ok.mp hs
    obtain ⟨selected, hselected, hs⟩ := Error.bind_eq_ok.mp hs
    cases hs
    refine ⟨merged, selected, hmerged, hselected, ?_⟩
    rw [← heq, List.length_map]
  · obtain ⟨shape, -, hs⟩ := Error.exists_of_mem_mapM hsets hs
    obtain ⟨merged, -, hs⟩ := Error.bind_eq_ok.mp hs
    obtain ⟨selected, -, hs⟩ := Error.bind_eq_ok.mp hs
    cases hs
    rfl

theorem addedTypename_eq (wanted : Bool) (merged : List Declaration) :
    addedTypename wanted merged = [] ∨
      addedTypename wanted merged = [Field.typename] ∧
      ∀ m ∈ merged, m.responseName ≠ Schema.typename := by
  rw [addedTypename]
  split
  · rename_i hadd
    simp only [Bool.and_eq_true, Bool.not_eq_true', List.any_eq_false, beq_iff_eq] at hadd
    exact .inr ⟨rfl, hadd.2⟩
  · exact .inl rfl

/-- Only `__typename` is added, and only where no field is declared under this name. -/
theorem mem_addedTypename_iff {wanted : Bool} {merged : List Declaration} {k : Field} :
    k ∈ addedTypename wanted merged ↔
      k = Field.typename ∧ wanted = true ∧ ∀ m ∈ merged, m.responseName ≠ Schema.typename := by
  have hadd : (wanted && !merged.any fun m ↦ m.responseName == Schema.typename) = true ↔
      wanted = true ∧ ∀ m ∈ merged, m.responseName ≠ Schema.typename := by
    simp
  rw [addedTypename]
  split
  · rename_i h
    rw [List.mem_singleton]
    exact (and_iff_left (hadd.mp h)).symm
  · rename_i h
    exact iff_of_false List.not_mem_nil fun hk ↦ h (hadd.mpr hk.2)

theorem mem_addedTypename {wanted : Bool} {merged : List Declaration} {k : Field}
    (h : k ∈ addedTypename wanted merged) :
    k = Field.typename ∧ ∀ m ∈ merged, m.responseName ≠ Schema.typename :=
  (mem_addedTypename_iff.mp h).imp_right And.right

/-- `__typename` is added only where no field is selected under this name. -/
theorem addedTypename_append {wanted : Bool} {merged : List Declaration} {selected : List Field}
    (h : (merged.filter Declaration.canBeIncluded).mapM (expandField schema d policy) =
      .ok selected) :
    addedTypename wanted merged ++ selected = selected ∨
      addedTypename wanted merged ++ selected = Field.typename :: selected ∧
        ∀ g ∈ selected, g.responseName ≠ Schema.typename := by
  rcases addedTypename_eq wanted merged with heq | ⟨heq, hnone⟩
  · exact .inl (by rw [heq, List.nil_append])
  · refine .inr ⟨by rw [heq, List.singleton_append], fun g hg hname ↦ ?_⟩
    obtain ⟨m, hm, hok⟩ := Error.exists_of_mem_mapM h hg
    exact hnone m (List.mem_filter.mp hm).1 (hname ▸ (responseName_of_expandField hok).symm)

namespace Declaration.Unfolds

variable {survey : Survey} (h : field.Unfolds schema d policy f survey) {s : FieldSet}
  (hs : s ∈ f.fieldSets)
include h hs

/-- The fields of a field set differ in their response names. -/
theorem nodup_fields : (s.fields.map Field.responseName).Nodup := by
  obtain ⟨merged, selected, hmerged, hselected, hfields⟩ := h.fieldSet s hs
  have hnames : selected.map Field.responseName =
      (merged.filter Declaration.canBeIncluded).map Declaration.responseName :=
    Error.map_eq_of_mapM (fun m k hok ↦ responseName_of_expandField hok) hselected
  have hnodup : (selected.map Field.responseName).Nodup :=
    hnames ▸ (Survey.nodup_of_fieldsFor hmerged).sublist (List.filter_sublist.map _)
  rw [hfields]
  rcases addedTypename_append hselected with heq | ⟨heq, hne⟩
  · rwa [heq]
  · rw [heq, List.map_cons, List.nodup_cons]
    refine ⟨fun hmem ↦ ?_, hnodup⟩
    obtain ⟨k, hk, hname⟩ := List.mem_map.mp hmem
    exact hne k hk hname

/-- The fields of a field set come from declarations. Only a `__typename` that was added comes from
nothing. -/
theorem exists_of_mem_fields {k : Field} (hk : k ∈ s.fields) :
    k = Field.typename ∨ ∃ merged, survey.fieldsFor schema s.typeSet = .ok merged ∧
      ∃ m ∈ merged, expandField schema d policy m = .ok k := by
  obtain ⟨merged, selected, hmerged, hselected, hfields⟩ := h.fieldSet s hs
  rw [hfields] at hk
  rcases List.mem_append.mp hk with hk | hk
  · exact .inl (mem_addedTypename hk).1
  · obtain ⟨m, hm, hok⟩ := Error.exists_of_mem_mapM hselected hk
    exact .inr ⟨merged, hmerged, m, (List.mem_filter.mp hm).1, hok⟩

/-- A field of a field set was selected, unless it is a `__typename` that was added. -/
theorem exists_applies_of_mem_fields {k : Field} (hk : k ∈ s.fields) (hne : k ≠ Field.typename) :
    ∃ o, survey.Applies s.typeSet o ∧ o.head.responseName = k.responseName := by
  rcases h.exists_of_mem_fields hs hk with heq | ⟨merged, hmerged, m, hm, hok⟩
  · exact absurd heq hne
  · obtain ⟨o, ho, hname⟩ := Survey.exists_applies_of_mem_fieldsFor hmerged hm
    refine ⟨o, ho, hname.trans ?_⟩
    exact (responseName_of_expandField hok).symm

/-- **A field of a field set is the same field as the occurrences that apply.** -/
theorem sameField {k : Field} (hk : k ∈ s.fields) {o : Occurrence} (ho : survey.Applies s.typeSet o)
    (hname : o.head.responseName = k.responseName) :
    ∃ info, o.info schema = .ok info ∧ k.info.SameField info := by
  obtain ⟨merged, selected, hmerged, hselected, hfields⟩ := h.fieldSet s hs
  rw [hfields] at hk
  rcases List.mem_append.mp hk with hk | hk
  · -- A `__typename` would not have been added, since one is selected.
    obtain ⟨m, hm, hmname⟩ := Survey.exists_mem_fieldsFor hmerged ho
    obtain ⟨rfl, hnone⟩ := mem_addedTypename hk
    exact absurd (hmname.trans hname) (hnone m hm)
  · obtain ⟨m, hm, hok⟩ := Error.exists_of_mem_mapM hselected hk
    have hinfo := (info_of_expandField hok).1
    rw [hinfo]
    refine Survey.sameField_of_mem_fieldsFor hmerged (List.mem_filter.mp hm).1 ho (hname.trans ?_)
    exact congrArg FieldInfo.responseName hinfo

/-- An occurrence that applies and can be included is a field of the field set. -/
theorem exists_mem_fields {o : Occurrence} (ho : survey.Applies s.typeSet o) {v : Name → Bool}
    (hv : o.scope.condition.eval v = true) :
    ∃ k ∈ s.fields, k.responseName = o.head.responseName := by
  obtain ⟨merged, selected, hmerged, hselected, hfields⟩ := h.fieldSet s hs
  obtain ⟨m, hm, hname, -⟩ := (Survey.exists_mem_fieldsFor_iff hmerged).mpr ⟨o, ho, rfl, hv⟩
  obtain ⟨k, hk, hok⟩ := Error.exists_mem_of_mapM hselected hm
  refine ⟨k, hfields ▸ List.mem_append_right _ hk, ?_⟩
  exact (responseName_of_expandField hok).trans hname

/-- **What is selected beneath a field of a field set** is what is selected beneath the occurrences
of its response name that apply. -/
theorem of_mem_fields {root : List Selection}
    (hstands : ∀ c ∈ field.children, Stands d root c.place c.selection) {k : Field}
    (hk : k ∈ s.fields) :
    k = Field.typename ∨ ∃ m, expandField schema d policy m = .ok k ∧
      (∀ c ∈ m.children, Stands d root c.place c.selection) ∧
      ∀ x, x ∈ m.children.map Child.selection ↔ ∃ o, survey.Applies s.typeSet o ∧
        o.head.responseName = k.responseName ∧ x ∈ o.selections := by
  refine (h.exists_of_mem_fields hs hk).imp_right ?_
  rintro ⟨merged, hmerged, m, hm, hok⟩
  rw [responseName_of_expandField hok]
  exact ⟨m, hok, Survey.mem_children_iff hmerged h.survey_eq hstands hm⟩

end Declaration.Unfolds
end

/-! ## Definitions -/

theorem map_selection_rootChildren (selections : List Selection) (path : List Name) :
    (rootChildren selections path).map Child.selection = selections := by
  rw [rootChildren, List.map_map]
  exact Place.root.map_snd_locate selections

theorem stands_rootChildren {d : Document} {selections : List Selection} {path : List Name}
    {c : Child} (h : c ∈ rootChildren selections path) :
    Stands d selections c.place c.selection := by
  obtain ⟨ps, hps, rfl⟩ := List.mem_map.mp h
  exact .of_mem_locate rfl hps

/-- The field of a definition is expanded from the selections of the definition, each at its
place. -/
theorem exists_of_expandRoot {schema : Schema} {d : Document} {policy : TypenamePolicy}
    {rawType : Name} {selections : List Selection} {path : List Name} {f : Field}
    (h : expandRoot schema d policy rawType selections path = .ok f) :
    ∃ field, expandField schema d policy field = .ok f ∧
      (∀ c ∈ field.children, Stands d selections c.place c.selection) ∧
      field.children.map Child.selection = selections := by
  rw [expandRoot] at h
  obtain ⟨type, -, h⟩ := Error.bind_eq_ok.mp h
  exact ⟨_, h, fun c hc ↦ stands_rootChildren hc, map_selection_rootChildren selections path⟩

/-- The field of a definition is of the type of the definition. -/
theorem rawType_of_expandRoot {schema : Schema} {d : Document} {policy : TypenamePolicy}
    {rawType : Name} {selections : List Selection} {path : List Name} {f : Field}
    (h : expandRoot schema d policy rawType selections path = .ok f) :
    f.info.rawType = rawType := by
  rw [expandRoot] at h
  obtain ⟨type, htype, h⟩ := Error.bind_eq_ok.mp h
  rw [(info_of_expandField h).1]
  obtain ⟨item, hitem, htype⟩ := Error.bind_eq_ok.mp htype
  cases htype
  obtain ⟨definition, -, hitem⟩ := Error.bind_eq_ok.mp hitem
  cases hitem
  rfl

end ResponseModels
