import ResponseModels.Proofs.Collect.Ways
import ResponseModels.Proofs.Cycles
import ResponseModels.Proofs.Model.Partition

/-!
# The text of an operation and the fragments it needs

The source of an operation is its own text, followed by the texts of the fragments it uses. Which
these are is read off the fields that were collected, not off the text. A spread that execution can
get to is among them: `Selection.Shows` says of a fragment that it is spread where the inline
fragments and the directives around it let execution pass, at each field on the way down for some
values of the variables and for some object type. What the text of an operation shows is recorded in
its fields (`Selection.Shows.mem_spreads`), so the source of an operation defines it, and what these
texts show in turn (`source_defines_shown`).

A spread that execution never gets to is left out of the fields. The text still has it, so such a
source spreads a fragment that it does not define (`source_lacks_skipped`).
-/

set_option autoImplicit false

namespace ResponseModels

open Relation (ReflTransGen TransGen)

/-! ## Statements -/

/-- For some values of the variables gates let execution pass, and directives behind them do too. -/
def Gate.Passable (gates : List Gate) (directives : List Directive) : Prop :=
  ∃ v, (∀ g ∈ gates, included v g.directives = true) ∧ included v directives = true

/-- Some object type of a type, if it has any, satisfies the type conditions of gates. -/
def Schema.Admits (schema : Schema) (rawType : Name) (gates : List Gate) : Prop :=
  ∀ types, schema.possibleTypes rawType = .ok types → types.isEmpty = false →
    ∃ t ∈ types, ∀ g ∈ gates, g.applies schema t = true

/-- In selections on a type a fragment is spread where execution can get to. -/
inductive Selection.Shows (schema : Schema) : Name → List Selection → Name → Prop
  | spread {rawType name : Name} {selections : List Selection} {s : Selection} {gates : List Gate}
      {directives : List Directive} (mem : s ∈ selections)
      (inside : Inside s gates (.spread name directives))
      (passable : Gate.Passable gates directives) : Shows schema rawType selections name
  | field {rawType name : Name} {selections beneath : List Selection} {s : Selection}
      {gates : List Gate} {head : FieldHead} {definition : FieldDefinition} (mem : s ∈ selections)
      (inside : Inside s gates (.field head beneath))
      (passable : Gate.Passable gates head.directives) (admits : schema.Admits rawType gates)
      (found : schema.field (Gate.innermost rawType gates) head.name = .ok definition)
      (composite : schema.isComposite definition.type.base = true)
      (further : Shows schema definition.type.base beneath name) :
      Shows schema rawType selections name

/-! ## What is shown is recorded -/

theorem Inside.way {d : Document} {s target : Selection} {gates : List Gate}
    (h : Inside s gates target) :
    Way d s gates target := by
  induction h with
  | here s => exact .here s
  | inline mem _ ih => exact .inline mem ih

namespace Survey

variable {schema : Schema} {d : Document} {rawType : Name} {children : List Child} {s : Survey}

/-- A spread that execution can get to through inline fragments is noted. -/
theorem mem_fragments_of_passable (h : Survey.ofChildren schema d rawType children = .ok s)
    {c : Child} (hc : c ∈ children) {gates : List Gate} {name : Name} {directives : List Directive}
    (hinside : Inside c.selection gates (.spread name directives))
    (hpassable : Gate.Passable gates directives) :
    name ∈ s.fragments := by
  obtain ⟨v, hgates, hspread⟩ := hpassable
  obtain ⟨final, hdealt, hchildren⟩ := exists_covered h
  obtain ⟨inner, henters, htarget⟩ := (hchildren c hc).reach hdealt hinside.way rfl hgates
  have hinner : inner.condition.eval v = true := by
    rw [henters.eval, Bool.and_eq_true, List.all_eq_true]
    exact ⟨rfl, hgates⟩
  cases htarget with
  | skipped gate blocked =>
    obtain ⟨fragment, hf, rfl⟩ := Option.map_eq_some_iff.mp gate
    have hclosed := blocked.not_included hinner
    rw [hspread] at hclosed
    cases hclosed
  | spread hf pass entry expansion =>
    exact mem_fragments.mpr ⟨_, mem_entries_of_inside h hc hinside henters hf pass, rfl⟩

end Survey

namespace Declaration.Unfolds

variable {schema : Schema} {d : Document} {policy : TypenamePolicy} {field : Declaration}
  {f : Field} {survey : Survey}

/-- A field that was found behind gates which some object type satisfies applies to some field
set. -/
theorem exists_applies (h : field.Unfolds schema d policy f survey) {o : Occurrence}
    (ho : o ∈ survey.found.occurrences) {gates : List Gate}
    (hsums : o.Sums schema survey.fieldTypes field.info.rawType gates)
    (hadmits : schema.Admits field.info.rawType gates) :
    ∃ s ∈ f.fieldSets, survey.Applies s.typeSet o := by
  cases hempty : survey.fieldTypes.isEmpty with
  | false =>
    obtain ⟨t, ht, happlies⟩ := hadmits _ h.shaped.fieldTypes_eq hempty
    obtain ⟨s, hs, hlabel⟩ := h.exists_largest ht
    refine ⟨s, hs.1, hlabel ▸ (h.applies_iff ht).mpr ⟨ho, ?_⟩⟩
    refine (hsums.typeSet fun c hcovers ↦ hcovers t ht).mpr fun g hg c hgc ↦ ?_
    exact Gate.applies_iff.mp (happlies g hg) c hgc
  | true =>
    -- Without object types every type condition covers the field, so the occurrence applies to the
    -- base shape.
    have hcovers : ∀ c, schema.Covers survey.fieldTypes c := by
      intro c t ht
      rw [NameSet.isEmpty_eq_false.mpr ⟨t, ht⟩] at hempty
      cases hempty
    obtain ⟨s, hs, hbase⟩ := List.mem_map.mp h.shaped.base_mem
    have htypeSet : s.typeSet = {field.info.rawType} := (Shape.mk.inj hbase).1
    refine ⟨s, hs, ho,
      htypeSet ▸ Survey.subset_of_forall h.survey_eq (NameSet.mem_singleton.mpr rfl)
      (Survey.mem_typeSets_of_mem_occurrences ho) fun c _ ↦ .inr (hcovers c)⟩

/-- A field that was found, can be included and applies to a field set is expanded there, from all
that is selected beneath it. -/
theorem exists_expanded (h : field.Unfolds schema d policy f survey) {root : List Selection}
    (hstands : ∀ c ∈ field.children, Stands d root c.place c.selection) {s : FieldSet}
    (hs : s ∈ f.fieldSets) {o : Occurrence} (ho : survey.Applies s.typeSet o) {v : Name → Bool}
    (hv : o.scope.condition.eval v = true) :
    ∃ k ∈ s.fields, ∃ m, expandField schema d policy m = .ok k ∧
      (∃ info, o.info schema = .ok info ∧ m.info.rawType = info.rawType) ∧
      (∀ c ∈ m.children, Stands d root c.place c.selection) ∧
      ∀ x ∈ o.selections, x ∈ m.children.map Child.selection := by
  obtain ⟨merged, selected, hmerged, hselected, hfields⟩ := h.fieldSet s hs
  obtain ⟨m, hm, hname, -⟩ := (Survey.exists_mem_fieldsFor_iff hmerged).mpr ⟨o, ho, rfl, hv⟩
  obtain ⟨k, hk, hok⟩ := Error.exists_mem_of_mapM hselected hm
  have hmem := (List.mem_filter.mp hm).1
  obtain ⟨info, hinfo, hsame⟩ := Survey.sameField_of_mem_fieldsFor hmerged hmem ho hname.symm
  obtain ⟨hplaces, hchildren⟩ := Survey.mem_children_iff hmerged h.survey_eq hstands hmem
  exact ⟨k, hfields ▸ List.mem_append_right _ hk, m, hok, ⟨info, hinfo, hsame.rawType⟩, hplaces,
    fun x hx ↦ (hchildren x).mpr ⟨o, ho, hname.symm, hx⟩⟩

end Declaration.Unfolds

/-- **What selections show is recorded** in the field that is expanded from them. -/
theorem Selection.Shows.mem_spreads {schema : Schema} {d : Document} {policy : TypenamePolicy}
    {rawType name : Name} {selections root : List Selection}
    (h : Selection.Shows schema rawType selections name) {field : Declaration} {f : Field}
    (hf : expandField schema d policy field = .ok f) (hraw : field.info.rawType = rawType)
    (hcomposite : schema.isComposite rawType = true)
    (hstands : ∀ c ∈ field.children, Stands d root c.place c.selection)
    (hselections : ∀ s ∈ selections, s ∈ field.children.map Child.selection) :
    name ∈ f.spreads := by
  induction h generalizing field f with
  | spread mem inside passable =>
    obtain ⟨survey, hu⟩ := unfolds_of_expandField hf (hraw ▸ hcomposite)
    obtain ⟨c, hc, rfl⟩ := List.mem_map.mp (hselections _ mem)
    refine Field.mem_spreads.mpr (.inl ?_)
    rw [hu.fragments]
    exact Survey.mem_fragments_of_passable hu.survey_eq hc inside passable
  | field mem inside passable admits found composite _ ih =>
    obtain ⟨survey, hu⟩ := unfolds_of_expandField hf (hraw ▸ hcomposite)
    obtain ⟨c, hc, rfl⟩ := List.mem_map.mp (hselections _ mem)
    obtain ⟨v, hgates, hhead⟩ := passable
    obtain ⟨o, ho, rfl, rfl, hsums⟩ := Survey.exists_occurrence hu.survey_eq hc inside.way hgates
    obtain ⟨s, hs, happlies⟩ := hu.exists_applies ho hsums (hraw ▸ admits)
    have hv : o.scope.condition.eval v = true := by
      rw [hsums.eval, Bool.and_eq_true, List.all_eq_true]
      exact ⟨hgates, hhead⟩
    obtain ⟨k, hk, m, hm, ⟨info, hinfo, hrawType⟩, hplaces, hchildren⟩ :=
      hu.exists_expanded hstands hs happlies hv
    obtain ⟨definition, hdefinition, hinner⟩ := Occurrence.exists_definition hinfo
    rw [hsums.parentType, hraw, found] at hdefinition
    cases hdefinition
    refine Field.mem_spreads.mpr (.inr ⟨s, hs, .inr ⟨k, hk, ?_⟩⟩)
    exact ih hm (hrawType.trans hinner) composite hplaces hchildren

/-- What a definition shows is recorded in its field, if the field has models. -/
theorem Selection.Shows.mem_spreads_of_expandRoot {schema : Schema} {d : Document}
    {policy : TypenamePolicy} {rawType name : Name} {selections : List Selection} {path : List Name}
    {f : Field} (h : Selection.Shows schema rawType selections name)
    (hf : expandRoot schema d policy rawType selections path = .ok f) (hne : f.fieldSets ≠ []) :
    name ∈ f.spreads := by
  obtain ⟨field, hfield, hstands, hchildren⟩ := exists_of_expandRoot hf
  obtain ⟨s, hs⟩ := List.exists_mem_of_ne_nil _ hne
  have hraw : field.info.rawType = rawType :=
    (info_of_expandField hfield).1 ▸ rawType_of_expandRoot hf
  exact h.mem_spreads hfield hraw (hraw ▸ isComposite_of_mem_fieldSets hfield hs) hstands fun s hs ↦
    hchildren ▸ hs

/-! ## The fragments of a source -/

/-- Whatever is spread in the text of selections, or can be reached from there, is spread in what
they lead to. -/
theorem Document.carries_reached (d : Document) (selections : List Selection) :
    d.Carries fun _ s ↦ ∀ n ∈ s.spreads, ∃ p ∈ Selection.spreadsAll selections,
      ReflTransGen d.Spreads p n where
  field h mem n hn := h n (Selection.mem_spreadsAll.mpr ⟨_, mem, hn⟩)
  inline h mem n hn := h n (Selection.mem_spreadsAll.mpr ⟨_, mem, hn⟩)
  spread h found mem n hn := by
    obtain ⟨p, hp, hreach⟩ := h _ (List.mem_singleton_self _)
    exact ⟨p, hp, hreach.tail ⟨_, found, Selection.mem_spreadsAll.mpr ⟨_, mem, hn⟩⟩⟩

/-- What is recorded in the field of a definition can be reached in the text. -/
theorem exists_reached_of_mem_spreads {schema : Schema} {d : Document} {policy : TypenamePolicy}
    {rawType : Name} {selections : List Selection} {path : List Name} {f : Field}
    (h : expandRoot schema d policy rawType selections path = .ok f) {n : Name}
    (hn : n ∈ f.spreads) :
    ∃ p ∈ Selection.spreadsAll selections, ReflTransGen d.Spreads p n := by
  rw [expandRoot] at h
  obtain ⟨type, -, h⟩ := Error.bind_eq_ok.mp h
  have hroot : ∀ s ∈ selections, ∀ n ∈ s.spreads,
      ∃ p ∈ Selection.spreadsAll selections, ReflTransGen d.Spreads p n :=
    fun s hs n hn ↦ ⟨n, Selection.mem_spreadsAll.mpr ⟨s, hs, hn⟩, .refl⟩
  obtain ⟨_, directives, hreached⟩ := (d.carries_reached selections).exists_of_mem_spreads h
    (forall_mem_rootChildren (I := fun _ s ↦ ∀ n ∈ s.spreads, ∃ p ∈ Selection.spreadsAll selections,
      ReflTransGen d.Spreads p n) hroot) hn
  exact hreached n (List.mem_singleton_self n)

section build

variable {schema : Schema} {config : Config} {d : Document} {ir : Representation}
  (h : build schema config d = .ok ir)
include h

/-- The field of a fragment has models. -/
theorem fieldSets_ne_nil_of_mem_fragments {r : FragmentModels} (hr : r ∈ ir.fragments) :
    r.field.fieldSets ≠ [] := by
  obtain ⟨lib, _, _, _, hlib, hfragments, -⟩ := build_eq_ok h
  obtain ⟨f, -, hok⟩ := exists_of_mem_buildFragments hfragments hr
  obtain ⟨-, -, b, hb, hfield, -⟩ := buildFragment_eq_ok hok
  obtain ⟨interfaces, -, hgroup⟩ :=
    (FragmentLibrary.wired_ofDocument hlib).stacked.exists_interfaces (List.mem_of_find?_eq_some hb)
  exact hfield ▸ (Field.modelGroup_eq_ok hgroup).1

/-- A fragment of the document is one of the result. -/
theorem exists_mem_fragments {name : Name} {f : Fragment} (hf : d.fragment? name = some f) :
    ∃ r ∈ ir.fragments, r.name = name := by
  obtain ⟨lib, _, _, _, -, hfragments, -⟩ := build_eq_ok h
  have hmem : name ∈ d.fragments.map Fragment.name :=
    List.mem_map.mpr ⟨f, Document.mem_of_fragment? hf, Document.name_of_fragment? hf⟩
  rw [← map_name_buildFragments hfragments] at hmem
  exact List.mem_map.mp hmem

/-- What the text of a fragment shows is recorded of it. -/
theorem records_of_shows {name n : Name} {f : Fragment} (hf : d.fragment? name = some f)
    (hshows : Selection.Shows schema f.typeCondition f.selections n) : ir.Records name n := by
  obtain ⟨r, hr, rfl⟩ := exists_mem_fragments h hf
  obtain ⟨f', hf', hfield, -⟩ := exists_fragment_of_build h hr
  cases hf.symm.trans hf'
  exact ⟨r, hr, rfl,
    hshows.mem_spreads_of_expandRoot hfield (fieldSets_ne_nil_of_mem_fragments h hr)⟩

/-- What can be reached by recorded spreads can be reached in the text. -/
theorem reflTransGen_of_records {name n : Name} (hreach : ReflTransGen ir.Records name n) :
    ReflTransGen d.Spreads name n := by
  induction hreach with
  | refl => exact .refl
  | tail _ hstep ih =>
    obtain ⟨r, hr, rfl, hn⟩ := hstep
    obtain ⟨f, hf, hfield, -⟩ := exists_fragment_of_build h hr
    exact ih.trans (Document.transGen_of_mem_spreads hf hfield hn).to_reflTransGen

/-- Whatever is recorded is a fragment of the document. -/
theorem exists_fragment?_of_records {name n : Name} (hrecords : ir.Records name n) :
    ∃ f, d.fragment? n = some f := by
  obtain ⟨r, hr, rfl, hn⟩ := hrecords
  obtain ⟨f, -, hfield, -⟩ := exists_fragment_of_build h hr
  exact (Field.Expanded.of_expandRoot hfield).exists_fragment? hn

/-- **The source of an operation defines what it shows.** A fragment that is spread where execution
can get to, in the text of an operation or in that of a fragment which the operation uses, is one of
the fragments that the operation uses. All of these are defined and can be reached in the text of
the operation, and the source is that text followed by theirs, one after the other in the order of
their names. -/
theorem source_defines_shown {o : OperationModels} (ho : o ∈ ir.operations) :
    ∃ op ∈ d.operations, op.name = some o.name ∧ ∃ rootType, schema.root op.kind = .ok rootType ∧
      (∀ n, Selection.Shows schema rootType op.selections n → n ∈ o.fragmentNames) ∧
      (∀ m ∈ o.fragmentNames, ∃ f, d.fragment? m = some f ∧
        (∃ p ∈ Selection.spreadsAll op.selections, ReflTransGen d.Spreads p m) ∧
        ∀ n, Selection.Shows schema f.typeCondition f.selections n → n ∈ o.fragmentNames) ∧
      o.source = "\n".intercalate
        (op.source :: (o.fragmentNames.toList.filterMap d.fragment?).map Fragment.source) := by
  obtain ⟨lib, _, _, _, -, -, hoperations⟩ := build_eq_ok h
  obtain ⟨⟨name, op⟩, hop, hok⟩ := exists_of_mem_buildOperations hoperations ho
  obtain ⟨hmem, hname⟩ := Document.mem_namedOperations hop
  obtain ⟨rfl, rootType, hroot, hfield, hgroup⟩ := buildOperation_eq_ok hok
  have hused : ∀ {n}, n ∈ o.fragmentNames ↔ ∃ p ∈ o.field.spreads, ReflTransGen ir.Records p n :=
    mem_operation_fragmentNames_iff h ho
  refine ⟨op, hmem, hname, rootType, hroot, fun n hshows ↦ ?_, fun m hm ↦ ?_,
    (usedFragments_of_buildOperation hok).2⟩
  · have hne := (Field.modelGroup_eq_ok hgroup).1
    exact hused.mpr ⟨n, hshows.mem_spreads_of_expandRoot hfield hne, .refl⟩
  · obtain ⟨p, hp, hreach⟩ := hused.mp hm
    have hfragment : ∃ f, d.fragment? m = some f := by
      rcases ReflTransGen.cases_tail hreach with rfl | ⟨_, -, hlast⟩
      · exact (Field.Expanded.of_expandRoot hfield).exists_fragment? hp
      · exact exists_fragment?_of_records h hlast
    obtain ⟨f, hf⟩ := hfragment
    refine ⟨f, hf, ?_, fun n hshows ↦ hused.mpr ⟨p, hp, hreach.tail (records_of_shows h hf hshows)⟩⟩
    obtain ⟨q, hq, hstart⟩ := exists_reached_of_mem_spreads hfield hp
    exact ⟨q, hq, hstart.trans (reflTransGen_of_records h hreach)⟩

end build

/-- The query for an animal and its company shows the fragment on the company, and so its source
defines it and what it spreads. -/
theorem source_defines_shown_company :
    ∃ ir o, build Sample.schema {} Sample.diamond = .ok ir ∧ o ∈ ir.operations ∧
      Selection.Shows Sample.schema "Query" [Sample.field "animal" [.spread "Company" []]]
        "Company" ∧ "Company" ∈ o.fragmentNames ∧ "Named" ∈ o.fragmentNames := by
  have hopen : Gate.Passable [] [] := ⟨fun _ ↦ false, fun _ hg ↦ absurd hg List.not_mem_nil, rfl⟩
  have hadmits : ∀ rawType, Sample.schema.Admits rawType [] := by
    intro rawType types _ hne
    obtain ⟨t, ht⟩ := NameSet.isEmpty_eq_false.mp hne
    exact ⟨t, ht, fun _ hg ↦ absurd hg List.not_mem_nil⟩
  have hanimal : ∀ {beneath : List Selection} {name : Name}, Selection.spread name [] ∈ beneath →
      Selection.Shows Sample.schema "Query" [Sample.field "animal" beneath] name := fun hmem ↦
    .field List.mem_cons_self (.here _) hopen (hadmits _) rfl (by decide +kernel)
      (.spread hmem (.here _) hopen)
  have hok : (build Sample.schema {} Sample.diamond).toOption.any
      fun ir ↦ !ir.operations.isEmpty := by decide +kernel
  obtain ⟨ir, hir, hne⟩ := Error.exists_of_any hok
  obtain ⟨o, ho⟩ := List.exists_mem_of_ne_nil ir.operations (by simpa using hne)
  obtain ⟨op, hop, -, rootType, hroot, hshown, hfragments, -⟩ := source_defines_shown hir ho
  cases List.mem_singleton.mp hop
  cases hroot
  have hcompany : "Company" ∈ o.fragmentNames := hshown _ (hanimal (by simp))
  obtain ⟨f, hf, -, hinner⟩ := hfragments _ hcompany
  cases hf
  exact ⟨ir, o, hir, ho, hanimal List.mem_cons_self, hcompany,
    hinner _ (.spread List.mem_cons_self (.here _) hopen)⟩

/-- A spread that is always skipped stands in the text of an operation, but the source is that text
alone and does not define the fragment. -/
theorem source_lacks_skipped :
    ∃ ir o op, build Sample.schema {} Sample.skipped = .ok ir ∧ o ∈ ir.operations ∧
      op ∈ Sample.skipped.operations ∧
      op.name = some o.name ∧ "Named" ∈ Selection.spreadsAll op.selections ∧
      "Named" ∉ o.fragmentNames ∧ o.source = op.source := by
  have hok : (build Sample.schema {} Sample.skipped).toOption.any fun ir ↦ ir.operations.any fun o ↦
      Sample.skipped.operations.any fun op ↦ decide (op.name = some o.name ∧
        "Named" ∈ Selection.spreadsAll op.selections ∧ "Named" ∉ o.fragmentNames ∧
        o.source = op.source) := by
    decide +kernel
  obtain ⟨ir, hir, hany⟩ := Error.exists_of_any hok
  obtain ⟨o, ho, hany⟩ := List.any_eq_true.mp hany
  obtain ⟨op, hop, hall⟩ := List.any_eq_true.mp hany
  obtain ⟨hname, hspread, hlacks, hsource⟩ := of_decide_eq_true hall
  exact ⟨ir, o, op, hir, ho, hop, hname, hspread, hlacks, hsource⟩

end ResponseModels
