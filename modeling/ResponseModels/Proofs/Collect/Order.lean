import ResponseModels.Proofs.Library
import ResponseModels.Proofs.Collect.Expand
import ResponseModels.Proofs.Collect.MergeExact
import ResponseModels.Proofs.Rearranged
import ResponseModels.Proofs.Sample

/-!
# The order of selections does not matter

Where two documents differ only in the order of selections, the fields collected from them are the
same, with the same shapes and conditions, up to their order (`fields_alike_of_rearranged`).

A survey comes upon fields in the order of the selections, and this decides which expansion of a
fragment is remembered, which declaration a merged field takes its description from, and in which
order conditions are joined. But what is found is known from the ways there are through the
selections, and the scopes they lead to, whatever the order. So each survey finds what the other
finds (`Survey.FoundIn`). From this follow

* the shapes, which are made of sets and sorted (`Survey.Alike.shapes_eq`);
* the fields of each shape: the conditions of what is merged are the same set, and such a set has
  one disjunction (`Survey.Alike.exists_alike`).

Then the fields are compared level by level (`alike_of_expandField`).
-/

set_option autoImplicit false

namespace ResponseModels

/-- Each of some selections is among others, up to order. -/
def Selection.Among (l l' : List Selection) : Prop := ∀ x ∈ l, ∃ x' ∈ l', x.Rearranged x'

/-- What one survey finds, another finds too, up to the order of the selections beneath a field. -/
structure Survey.FoundIn (s s' : Survey) : Prop where
  /-- A field is found in the same scope, with the same selections beneath it in some order. -/
  occurrence : ∀ o ∈ s.found.occurrences, ∃ o' ∈ s'.found.occurrences, o'.head = o.head ∧
    o'.scope = o.scope ∧ Selection.Among o.selections o'.selections
  /-- A fragment is entered with the same type set. -/
  entry : ∀ e ∈ s.found.entries, ∃ e' ∈ s'.found.entries, e'.typeCondition = e.typeCondition ∧
    e'.typeSet = e.typeSet ∧ e'.narrows = e.narrows
  /-- A fragment is noted as spread with the same type set. -/
  spread : ∀ e ∈ s.found.entries, ∀ n, e.spread = some n →
    ∃ e' ∈ s'.found.entries, e'.typeSet = e.typeSet ∧ e'.spread = some n

/-- Two surveys of a field find the same. -/
structure Survey.Alike (s s' : Survey) : Prop where
  /-- The fields are of the same type. -/
  rawType : s.rawType = s'.rawType
  /-- They have the same object types. -/
  fieldTypes : s.fieldTypes = s'.fieldTypes
  /-- What the one survey finds the other finds, -/
  foundIn : s.FoundIn s'
  /-- and the other way round. -/
  foundIn' : s'.FoundIn s

theorem Survey.Alike.symm {s s' : Survey} (h : s.Alike s') : s'.Alike s :=
  ⟨h.rawType.symm, h.fieldTypes.symm, h.foundIn', h.foundIn⟩

/-! ## Surveys -/

namespace Survey

variable {schema : Schema} {d d' : Document} {rawType : Name} {children children' : List Child}
  {s s' : Survey}

/-- **What is found does not depend on the order.** -/
theorem foundIn_of_among (hd : d.Rearranged d')
    (h : Survey.ofChildren schema d rawType children = .ok s)
    (h' : Survey.ofChildren schema d' rawType children' = .ok s')
    (hf : s.fieldTypes = s'.fieldTypes)
    (hc : Selection.Among (children.map Child.selection) (children'.map Child.selection)) :
    s.FoundIn s' := by
  have hchild : ∀ c ∈ children, ∃ c' ∈ children', c.selection.Rearranged c'.selection := by
    intro c hmem
    obtain ⟨x', hx', hR⟩ := hc c.selection (List.mem_map_of_mem hmem)
    obtain ⟨c', hc', rfl⟩ := List.mem_map.mp hx'
    exact ⟨c', hc', hR⟩
  refine ⟨fun o ho ↦ ?_, fun e he ↦ ?_, fun e he n hn ↦ ?_⟩
  · obtain ⟨c, hmem, gates, inner, condition, hway, henters, hcond, hscope⟩ := exists_enters h ho
    obtain ⟨c', hc', hR⟩ := hchild c hmem
    obtain ⟨target', hway', htarget⟩ := hway.rearranged hd hR
    cases htarget with
    | field _ each order =>
      obtain ⟨o', ho', condition', hhead, hbeneath, hcond', hscope'⟩ :=
        exists_of_enters h' hc' hway' (hf ▸ henters)
      cases hcond.symm.trans hcond'
      refine ⟨o', ho', hhead, hscope'.trans hscope.symm, fun x hx ↦ ?_⟩
      rw [hbeneath]
      exact Selection.RearrangedAll.exists_of_mem ⟨_, each, order⟩ hx
  · obtain ⟨c, hmem, gates, inner, target, g, final, narrows, spread, hway, henters, hg,
        hpass, rfl⟩ :=
      exists_enters_entry h he
    obtain ⟨c', hc', hR⟩ := hchild c hmem
    obtain ⟨target', hway', htarget⟩ := hway.rearranged hd hR
    obtain ⟨spread', hmem'⟩ :=
      exists_entry_of_enters h' hc' hway' (hf ▸ henters) (htarget.gate? hd hg) (hf ▸ hpass)
    exact ⟨_, hmem', rfl, rfl, rfl⟩
  · obtain ⟨c, hmem, gates, inner, directives, fragment, final, narrows, hinside, henters, hfrag,
        hpass, rfl⟩ :=
      exists_inside h he hn
    obtain ⟨c', hc', hR⟩ := hchild c hmem
    obtain ⟨target', hinside', htarget⟩ := hinside.rearranged hR
    cases htarget
    obtain ⟨fragment', hfrag', -, heq⟩ := hd.exists_fragment hfrag
    have hpass' :
        inner.Passes schema s'.fieldTypes ⟨some fragment'.typeCondition, directives⟩
          final narrows := by
      rw [heq]
      exact hf ▸ hpass
    exact ⟨_, mem_entries_of_inside h' hc' hinside' (hf ▸ henters) hfrag' hpass', rfl, rfl⟩

theorem alike_of_among (hd : d.Rearranged d')
    (h : Survey.ofChildren schema d rawType children = .ok s)
    (h' : Survey.ofChildren schema d' rawType children' = .ok s')
    (hc : Selection.Among (children.map Child.selection) (children'.map Child.selection))
    (hc' : Selection.Among (children'.map Child.selection) (children.map Child.selection)) :
    s.Alike s' := by
  obtain ⟨hraw, htypes, -⟩ := ofChildren_eq_ok h
  obtain ⟨hraw', htypes', -⟩ := ofChildren_eq_ok h'
  have hf : s.fieldTypes = s'.fieldTypes := Except.ok.inj (htypes.symm.trans htypes')
  exact ⟨hraw.trans hraw'.symm, hf, foundIn_of_among hd h h' hf hc,
    foundIn_of_among hd.symm h' h hf.symm hc'⟩

end Survey

/-! ## Shapes -/

private theorem mem_of_filterAuxM {α : Type} {f : α → Except Error Bool} {l acc r : List α}
    (h : l.filterAuxM f acc = .ok r) {a : α} (ha : a ∈ acc ∨ a ∈ l ∧ f a = .ok true) : a ∈ r := by
  induction l generalizing acc with
  | nil =>
    cases h
    exact ha.resolve_right fun h ↦ absurd h.1 List.not_mem_nil
  | cons b rest ih =>
    obtain ⟨keep, hkeep, h⟩ := Error.bind_eq_ok.mp h
    refine ih h ?_
    rcases ha with ha | ⟨ha, hf⟩
    · cases keep with
      | true => exact .inl (List.mem_cons_of_mem b ha)
      | false => exact .inl ha
    · rcases List.mem_cons.mp ha with rfl | ha
      · cases hkeep.symm.trans hf
        exact .inl List.mem_cons_self
      · exact .inr ⟨ha, hf⟩

theorem Error.mem_filterM {α : Type} {f : α → Except Error Bool} {l r : List α}
    (h : l.filterM f = .ok r) {a : α} :
    a ∈ r ↔ a ∈ l ∧ f a = .ok true := by
  refine ⟨fun ha ↦ ⟨(sublist_of_filterM h).1.subset ha, (sublist_of_filterM h).2 a ha⟩, fun ha ↦ ?_⟩
  rw [List.filterM] at h
  obtain ⟨kept, hkept, h⟩ := bind_eq_ok.mp h
  cases h
  exact List.mem_reverse.mpr (mem_of_filterAuxM hkept (.inr ha))

namespace Survey

/-- Which shapes a survey has: those derived from the type conditions, and those declared that
objects can have. -/
theorem mem_shapes_iff {schema : Schema} {d : Document} {rawType : Name} {children : List Child}
    {s : Survey} (h : Survey.ofChildren schema d rawType children = .ok s) {shapes : List Shape}
    (hs : s.shapes schema = .ok shapes) {a : Shape} :
    a ∈ shapes ↔
      (schema.Derives rawType s.typeConditions s.fieldTypes a.typeSet ∧
        a.possibleTypes = if a.typeSet = {rawType} then s.fieldTypes else
          s.fieldTypes.filter fun t ↦ schema.typeSetOf rawType s.typeConditions t = a.typeSet) ∨
      a.possibleTypes = ∅ ∧ a.typeSet ∈ s.declaredTypeSets ∧
        ¬ schema.Derives rawType s.typeConditions s.fieldTypes a.typeSet ∧
        (do return !(← schema.typesSatisfying rawType a.typeSet).isEmpty : Except Error Bool) =
          .ok true := by
  obtain ⟨hraw, htypes, -⟩ := ofChildren_eq_ok h
  rw [Survey.shapes, hraw] at hs
  obtain ⟨derived, hderived, hs⟩ := Error.bind_eq_ok.mp hs
  obtain ⟨declared, hdeclared, hs⟩ := Error.bind_eq_ok.mp hs
  cases hs
  have hdue : ∀ t, (derived.any fun shape ↦ decide (shape.typeSet = t)) = true ↔
      schema.Derives rawType s.typeConditions s.fieldTypes t := by
    intro t
    simp only [List.any_eq_true, decide_eq_true_eq]
    exact Schema.exists_mem_derivedShapes htypes hderived
  rw [mem_sortShapes, List.mem_append, (Schema.mem_derivedShapes htypes hderived).2, List.mem_map]
  refine or_congr_right ⟨?_, ?_⟩
  · rintro ⟨t, ht, rfl⟩
    obtain ⟨ht, hsat⟩ := (Error.mem_filterM hdeclared).mp ht
    obtain ⟨ht, hnew⟩ := List.mem_filter.mp ht
    rw [Bool.not_eq_true', ← Bool.not_eq_true, hdue] at hnew
    exact ⟨rfl, ht, hnew, hsat⟩
  · rintro ⟨hempty, ht, hnew, hsat⟩
    refine ⟨a.typeSet, (Error.mem_filterM hdeclared).mpr ⟨List.mem_filter.mpr ⟨ht, ?_⟩, hsat⟩, ?_⟩
    · rwa [Bool.not_eq_true', ← Bool.not_eq_true, hdue]
    · rw [← hempty]

namespace Alike

variable {schema : Schema} {d d' : Document} {rawType : Name} {children children' : List Child}
  {s s' : Survey}

theorem mem_typeConditions_iff (ha : s.Alike s') {c : Name} :
    c ∈ s.typeConditions ↔ c ∈ s'.typeConditions := by
  have hone : ∀ {s s' : Survey}, s.FoundIn s' → c ∈ s.typeConditions → c ∈ s'.typeConditions := by
    intro s s' hfound hc
    obtain ⟨e, he, hnarrows, htc⟩ := mem_typeConditions.mp hc
    obtain ⟨e', he', htc', -, hnarrows'⟩ := hfound.entry e he
    exact mem_typeConditions.mpr ⟨e', he', hnarrows'.trans hnarrows, htc'.trans htc⟩
  exact ⟨hone ha.foundIn, hone ha.foundIn'⟩

theorem mem_declaredTypeSets_iff (ha : s.Alike s') {t : NameSet} :
    t ∈ s.declaredTypeSets ↔ t ∈ s'.declaredTypeSets := by
  have hone : ∀ {s s' : Survey}, s.FoundIn s' → t ∈ s.declaredTypeSets →
      t ∈ s'.declaredTypeSets := by
    intro s s' hfound ht
    rw [declaredTypeSets, List.mem_eraseDups, List.mem_map] at ht ⊢
    obtain ⟨e, he, rfl⟩ := ht
    obtain ⟨e', he', -, htypeSet, -⟩ := hfound.entry e he
    exact ⟨e', he', htypeSet⟩
  exact ⟨hone ha.foundIn, hone ha.foundIn'⟩

/-- **The shapes do not depend on the order.** -/
theorem shapes_eq (ha : s.Alike s') (h : Survey.ofChildren schema d rawType children = .ok s)
    (h' : Survey.ofChildren schema d' rawType children' = .ok s') {shapes shapes' : List Shape}
    (hs : s.shapes schema = .ok shapes) (hs' : s'.shapes schema = .ok shapes') :
    shapes = shapes' := by
  have hof :
      schema.typeSetOf rawType s.typeConditions = schema.typeSetOf rawType s'.typeConditions := by
    funext t
    ext c
    simp only [Schema.mem_typeSetOf, ha.mem_typeConditions_iff]
  have hmem : ∀ a, a ∈ shapes ↔ a ∈ shapes' := by
    intro a
    rw [mem_shapes_iff h hs, mem_shapes_iff h' hs', Schema.Derives, Schema.Derives, hof,
      ha.fieldTypes, ha.mem_declaredTypeSets_iff]
  have hshaped := shaped h hs
  have hshaped' := shaped h' hs'
  have hperm : shapes.Perm shapes' :=
    (List.perm_ext_iff_of_nodup hshaped.nodup.of_map hshaped'.nodup.of_map).mpr hmem
  refine hperm.eq_of_pairwise (fun a b _ _ hab hba ↦ ?_) hshaped.sorted hshaped'.sorted
  exact absurd (hab.trans hba) (NameSet.Before.irrefl _)

theorem perm_fragments (ha : s.Alike s') : s.fragments.Perm s'.fragments := by
  refine (List.perm_ext_iff_of_nodup (nodup_eraseDups _) (nodup_eraseDups _)).mpr fun n ↦ ?_
  have hone : ∀ {s s' : Survey}, s.FoundIn s' → n ∈ s.fragments → n ∈ s'.fragments := by
    intro s s' hfound hn
    obtain ⟨e, he, hspread⟩ := mem_fragments.mp hn
    obtain ⟨e', he', -, hspread'⟩ := hfound.spread e he n hspread
    exact mem_fragments.mpr ⟨e', he', hspread'⟩
  exact ⟨hone ha.foundIn, hone ha.foundIn'⟩

theorem perm_fragmentsFor (ha : s.Alike s') (typeSet : NameSet) :
    (s.fragmentsFor typeSet).Perm (s'.fragmentsFor typeSet) := by
  refine (List.perm_ext_iff_of_nodup (nodup_eraseDups _) (nodup_eraseDups _)).mpr fun n ↦ ?_
  have hone : ∀ {s s' : Survey}, s.FoundIn s' → n ∈ s.fragmentsFor typeSet →
      n ∈ s'.fragmentsFor typeSet := by
    intro s s' hfound hn
    obtain ⟨e, he, hsub, hspread⟩ := mem_fragmentsFor.mp hn
    obtain ⟨e', he', htypeSet, hspread'⟩ := hfound.spread e he n hspread
    exact mem_fragmentsFor.mpr ⟨e', he', htypeSet ▸ hsub, hspread'⟩
  exact ⟨hone ha.foundIn, hone ha.foundIn'⟩

end Alike
end Survey

/-! ## The fields of a type set -/

/-- Two declarations are of the same field, with the same condition and the same selections beneath
it. -/
structure Declaration.Alike (m m' : Declaration) : Prop where
  /-- Name, type and arguments are the same. -/
  info : m.info.SameField m'.info
  /-- So is the response name. -/
  responseName : m.responseName = m'.responseName
  /-- So is the condition. -/
  condition : m.condition = m'.condition
  /-- What is selected beneath the one is selected beneath the other, -/
  among : Selection.Among (m.children.map Child.selection) (m'.children.map Child.selection)
  /-- and the other way round. -/
  among' : Selection.Among (m'.children.map Child.selection) (m.children.map Child.selection)

namespace Survey

variable {schema : Schema} {d d' : Document} {rawType : Name} {children children' : List Child}
  {s s' : Survey} {typeSet : NameSet} {merged merged' : List Declaration}

theorem FoundIn.exists_applies (hfound : s.FoundIn s') {o : Occurrence} (ho : s.Applies typeSet o) :
    ∃ o', s'.Applies typeSet o' ∧ o'.head = o.head ∧ o'.scope = o.scope ∧
      Selection.Among o.selections o'.selections := by
  obtain ⟨o', ho', hhead, hscope, hamong⟩ := hfound.occurrence o ho.1
  exact ⟨o', ⟨ho', hscope ▸ ho.2⟩, hhead, hscope, hamong⟩

/-- The condition of a field of a type set is the disjunction of the conditions of the occurrences
that apply. -/
theorem exists_condition_of_mem_fieldsFor (h : Survey.ofChildren schema d rawType children = .ok s)
    (hm : s.fieldsFor schema typeSet = .ok merged) {m : Declaration} (hmem : m ∈ merged) :
    ∃ conditions, m.condition = Junction.any.reduce conditions ∧ ∀ c, c ∈ conditions ↔
      ∃ o, s.Applies typeSet o ∧ o.head.responseName = m.responseName ∧ o.scope.condition = c := by
  rw [fieldsFor] at hm
  obtain ⟨declarations, hd, hm⟩ := Error.bind_eq_ok.mp hm
  have hcanonical : ∀ k ∈ declarations, k.condition.Canonical :=
    condition_of_mem_declarationsFor hd fun o ho ↦ canonical_of_mem_occurrences h ho
  refine ⟨_, Declaration.condition_of_mem_merge hm hcanonical hmem, fun c ↦ ?_⟩
  simp only [Declaration.group, List.mem_map, List.mem_filter, beq_iff_eq]
  constructor
  · rintro ⟨k, ⟨hk, hname⟩, rfl⟩
    obtain ⟨o, ho, hn, hc, -⟩ := exists_of_mem_declarationsFor hd hk
    exact ⟨o, ho, hn ▸ hname, hc.symm⟩
  · rintro ⟨o, ho, hname, rfl⟩
    obtain ⟨k, hk, -, hn, hc, -⟩ := exists_mem_declarationsFor hd ho
    exact ⟨k, ⟨hk, hn.trans hname⟩, hc⟩

/-- **The fields of a type set do not depend on the order.** -/
theorem Alike.exists_alike {root root' : List Selection} (ha : s.Alike s')
    (h : Survey.ofChildren schema d rawType children = .ok s)
    (h' : Survey.ofChildren schema d' rawType children' = .ok s')
    (hstands : ∀ c ∈ children, Stands d root c.place c.selection)
    (hstands' : ∀ c ∈ children', Stands d' root' c.place c.selection)
    (hm : s.fieldsFor schema typeSet = .ok merged) (hm' : s'.fieldsFor schema typeSet = .ok merged')
    {m : Declaration} (hmem : m ∈ merged) : ∃ m' ∈ merged', m.Alike m' := by
  obtain ⟨o, ho, hname⟩ := exists_applies_of_mem_fieldsFor hm hmem
  obtain ⟨o', ho', hhead, hscope, -⟩ := ha.foundIn.exists_applies ho
  obtain ⟨m', hmem', hname'⟩ := exists_mem_fieldsFor hm' ho'
  rw [hhead, hname] at hname'
  refine ⟨m', hmem', ?_, hname'.symm, ?_, ?_, ?_⟩
  · obtain ⟨info, hinfo, hsame⟩ := sameField_of_mem_fieldsFor hm hmem ho hname
    obtain ⟨info', hinfo', hsame'⟩ :=
      sameField_of_mem_fieldsFor hm' hmem' ho'
        ((congrArg FieldHead.responseName hhead).trans (hname.trans hname'.symm))
    rw [Occurrence.info_congr hhead (congrArg Scope.parentType hscope), hinfo] at hinfo'
    cases hinfo'
    exact hsame.trans hsame'.symm
  · obtain ⟨conditions, heq, hconditions⟩ := exists_condition_of_mem_fieldsFor h hm hmem
    obtain ⟨conditions', heq', hconditions'⟩ := exists_condition_of_mem_fieldsFor h' hm' hmem'
    rw [heq, heq']
    refine Junction.reduce_congr fun c ↦ ?_
    rw [hconditions, hconditions', hname']
    constructor
    · rintro ⟨p, hp, hpname, hpc⟩
      obtain ⟨p', hp', hhead, hscope, -⟩ := ha.foundIn.exists_applies hp
      exact ⟨p', hp', hhead ▸ hpname, hscope ▸ hpc⟩
    · rintro ⟨p, hp, hpname, hpc⟩
      obtain ⟨p', hp', hhead, hscope, -⟩ := ha.foundIn'.exists_applies hp
      exact ⟨p', hp', hhead ▸ hpname, hscope ▸ hpc⟩
  · intro x hx
    obtain ⟨p, hp, hpname, hx⟩ := ((mem_children_iff hm h hstands hmem).2 x).mp hx
    obtain ⟨p', hp', hhead, -, hamong⟩ := ha.foundIn.exists_applies hp
    obtain ⟨x', hx', hR⟩ := hamong x hx
    exact ⟨x', ((mem_children_iff hm' h' hstands' hmem').2 x').mpr
      ⟨p', hp', (hhead ▸ hpname).trans hname'.symm, hx'⟩, hR⟩
  · intro x hx
    obtain ⟨p, hp, hpname, hx⟩ := ((mem_children_iff hm' h' hstands' hmem').2 x).mp hx
    obtain ⟨p', hp', hhead, -, hamong⟩ := ha.foundIn'.exists_applies hp
    obtain ⟨x', hx', hR⟩ := hamong x hx
    exact ⟨x', ((mem_children_iff hm h hstands hmem).2 x').mpr
      ⟨p', hp', (hhead ▸ hpname).trans hname', hx'⟩, hR⟩

end Survey
/-! ## Trees of fields -/

theorem addedTypename_congr {wanted : Bool} {merged merged' : List Declaration}
    (h : ∀ m ∈ merged, ∃ m' ∈ merged', m.Alike m') (h' : ∀ m' ∈ merged', ∃ m ∈ merged, m'.Alike m) :
    addedTypename wanted merged = addedTypename wanted merged' := by
  have hany : (merged.any fun m ↦ m.responseName == Schema.typename) =
      merged'.any fun m ↦ m.responseName == Schema.typename := by
    rw [Bool.eq_iff_iff, List.any_eq_true, List.any_eq_true]
    constructor
    · rintro ⟨m, hm, hname⟩
      obtain ⟨m', hm', ha⟩ := h m hm
      exact ⟨m', hm', ha.responseName ▸ hname⟩
    · rintro ⟨m', hm', hname⟩
      obtain ⟨m, hm, ha⟩ := h' m' hm'
      exact ⟨m, hm, ha.responseName ▸ hname⟩
  rw [addedTypename, addedTypename, hany]

section

variable {schema : Schema} {d d' : Document} {policy : TypenamePolicy}

/-- What is expanded from one of two lists of declarations corresponds to what is expanded from the
other. -/
theorem exists_alike_of_mem_selected {merged merged' : List Declaration}
    {selected selected' : List Field} (halike : ∀ m ∈ merged, ∃ m' ∈ merged', m.Alike m')
    (h : (merged.filter Declaration.canBeIncluded).mapM (expandField schema d policy) =
      .ok selected)
    (h' : (merged'.filter Declaration.canBeIncluded).mapM (expandField schema d' policy) =
      .ok selected') {k : Field} (hk : k ∈ selected) :
    ∃ m ∈ merged, ∃ m' ∈ merged', ∃ k' ∈ selected', m.Alike m' ∧
      expandField schema d policy m = .ok k ∧ expandField schema d' policy m' = .ok k' := by
  obtain ⟨m, hm, hok⟩ := Error.exists_of_mem_mapM h hk
  obtain ⟨hm, hincluded⟩ := List.mem_filter.mp hm
  obtain ⟨m', hm', ha⟩ := halike m hm
  have hincluded' : m'.canBeIncluded = true := by
    rw [Declaration.canBeIncluded, ← ha.condition]
    exact hincluded
  obtain ⟨k', hk', hok'⟩ := Error.exists_mem_of_mapM h' (List.mem_filter.mpr ⟨hm', hincluded'⟩)
  exact ⟨m, hm, m', hm', k', hk', ha, hok, hok'⟩

/-- **One level.** Field sets of one shape are alike, if the fields expanded from declarations that
are alike are. -/
theorem Declaration.Unfolds.fieldSet_alike {root root' : List Selection}
    {field field' : Declaration} {f f' : Field} {survey survey' : Survey}
    (hu : field.Unfolds schema d policy f survey) (hu' : field'.Unfolds schema d' policy f' survey')
    (hraw : field.info.rawType = field'.info.rawType) (ha : survey.Alike survey')
    (hlength : f.fieldSets.length = f'.fieldSets.length)
    (hstands : ∀ c ∈ field.children, Stands d root c.place c.selection)
    (hstands' : ∀ c ∈ field'.children, Stands d' root' c.place c.selection) {s s' : FieldSet}
    (hs : s ∈ f.fieldSets) (hs' : s' ∈ f'.fieldSets) (htypeSet : s.typeSet = s'.typeSet)
    (hpossible : s.possibleTypes = s'.possibleTypes)
    (hdeeper : ∀ k ∈ s.fields, ∀ m m' k', Declaration.Alike m m' →
      (∀ c ∈ m.children, Stands d root c.place c.selection) →
      (∀ c ∈ m'.children, Stands d' root' c.place c.selection) →
      expandField schema d policy m = .ok k → expandField schema d' policy m' = .ok k' →
      k.Alike k') : s.Alike s' := by
  obtain ⟨merged, selected, hmerged, hselected, hfields⟩ := hu.fieldSet s hs
  obtain ⟨merged', selected', hmerged', hselected', hfields'⟩ := hu'.fieldSet s' hs'
  rw [← htypeSet] at hmerged'
  have hsurvey := hu'.survey_eq
  rw [← hraw] at hsurvey
  have halike : ∀ m ∈ merged, ∃ m' ∈ merged', m.Alike m' := fun m hm ↦
    ha.exists_alike hu.survey_eq hsurvey hstands hstands' hmerged hmerged' hm
  have halike' : ∀ m' ∈ merged', ∃ m ∈ merged, m'.Alike m := fun m' hm' ↦
    ha.symm.exists_alike hsurvey hu.survey_eq hstands' hstands hmerged' hmerged hm'
  rw [← hraw, ← hlength, ← addedTypename_congr halike halike'] at hfields'
  have hexists : ∀ k ∈ s.fields, ∃ k' ∈ s'.fields, k'.responseName = k.responseName ∧
      k.Alike k' := by
    intro k hk
    rw [hfields] at hk
    rw [hfields']
    rcases List.mem_append.mp hk with hk | hk
    · refine ⟨k, List.mem_append_left _ hk, rfl, ?_⟩
      rw [(mem_addedTypename hk).1]
      exact Field.alike_typename
    · obtain ⟨m, hm, m', hm', k', hk', hma, hok, hok'⟩ :=
        exists_alike_of_mem_selected halike hselected hselected' hk
      refine ⟨k', List.mem_append_right _ hk', ?_, hdeeper k ?_ m m' k' hma ?_ ?_ hok hok'⟩
      · rw [responseName_of_expandField hok, responseName_of_expandField hok', hma.responseName]
      · exact hfields ▸ List.mem_append_right _ hk
      · exact (Survey.mem_children_iff hmerged hu.survey_eq hstands hm).1
      · exact (Survey.mem_children_iff hmerged' hsurvey hstands' hm').1
  have hexists' : ∀ k' ∈ s'.fields, ∃ k ∈ s.fields, k.responseName = k'.responseName := by
    intro k' hk'
    rw [hfields'] at hk'
    rw [hfields]
    rcases List.mem_append.mp hk' with hk' | hk'
    · exact ⟨k', List.mem_append_left _ hk', rfl⟩
    · obtain ⟨m', -, m, -, k, hk, hma, hok', hok⟩ :=
        exists_alike_of_mem_selected halike' hselected' hselected hk'
      refine ⟨k, List.mem_append_right _ hk, ?_⟩
      rw [responseName_of_expandField hok, responseName_of_expandField hok', hma.responseName]
  obtain ⟨reordered, horder, heach⟩ :=
    exists_perm_forall₂ (hu.nodup_fields hs) (hu'.nodup_fields hs') hexists hexists'
  refine .mk htypeSet hpossible heach horder ?_
  rw [hu.fragmentsFor s hs, hu'.fragmentsFor s' hs', ← htypeSet]
  exact ha.perm_fragmentsFor s.typeSet

/-- **All levels.** -/
theorem alike_of_expandField (hd : d.Rearranged d') {root root' : List Selection}
    {field field' : Declaration} {f f' : Field} (ha : field.Alike field')
    (hstands : ∀ c ∈ field.children, Stands d root c.place c.selection)
    (hstands' : ∀ c ∈ field'.children, Stands d' root' c.place c.selection)
    (h : expandField schema d policy field = .ok f)
    (h' : expandField schema d' policy field' = .ok f') :
    f.Alike f' := by
  induction hn : f.size using Nat.strongRecOn generalizing field field' f f' with
  | ind n ih =>
    subst hn
    have hinfo := info_of_expandField h
    have hinfo' := info_of_expandField h'
    have hraw : field.info.rawType = field'.info.rawType := ha.info.rawType
    have hname : f.responseName = f'.responseName := by
      rw [responseName_of_expandField h, responseName_of_expandField h', ha.responseName]
    have hsame : f.info.SameField f'.info := by
      rw [hinfo.1, hinfo'.1]
      exact ha.info
    have hcond : f.condition = f'.condition := by rw [hinfo.2, hinfo'.2, ha.condition]
    cases hc : schema.isComposite field.info.rawType with
    | false =>
      rw [expandField_eq, hc] at h
      rw [expandField_eq, ← hraw, hc] at h'
      cases h
      cases h'
      exact .mk hsame hname hcond .nil (.refl _)
    | true =>
      obtain ⟨survey, hu⟩ := unfolds_of_expandField h hc
      obtain ⟨survey', hu'⟩ := unfolds_of_expandField h' (hraw ▸ hc)
      have hsurvey := hu'.survey_eq
      rw [← hraw] at hsurvey
      have hsurveys := Survey.alike_of_among hd hu.survey_eq hsurvey ha.among ha.among'
      have hshapes := hsurveys.shapes_eq hu.survey_eq hsurvey hu.shapes_eq hu'.shapes_eq
      have hlength : f.fieldSets.length = f'.fieldSets.length := by
        simpa [Field.shapes] using congrArg List.length hshapes
      refine .mk hsame hname hcond (forall₂_of_map_eq hshapes fun s hs s' hs' heq ↦ ?_) ?_
      · obtain ⟨htypeSet, hpossible⟩ := Shape.mk.inj heq
        refine hu.fieldSet_alike hu' hraw hsurveys hlength hstands hstands' hs hs'
          htypeSet hpossible ?_
        intro k hk m m' k' hma hm hm' hok hok'
        exact ih k.size (Field.size_lt_of_mem hs hk) hma hm hm' hok hok' rfl
      · rw [hu.fragments, hu'.fragments]
        exact hsurveys.perm_fragments

theorem alike_of_expandRoot (hd : d.Rearranged d') {rawType : Name}
    {selections selections' : List Selection} {path path' : List Name} {f f' : Field}
    (hall : Selection.RearrangedAll selections selections')
    (h : expandRoot schema d policy rawType selections path = .ok f)
    (h' : expandRoot schema d' policy rawType selections' path' = .ok f') : f.Alike f' := by
  rw [expandRoot] at h h'
  obtain ⟨type, htype, h⟩ := Error.bind_eq_ok.mp h
  obtain ⟨type', htype', h'⟩ := Error.bind_eq_ok.mp h'
  cases htype.symm.trans htype'
  refine alike_of_expandField hd ?_ (fun c hc ↦ stands_rootChildren hc)
    (fun c hc ↦ stands_rootChildren hc) h h'
  refine ⟨.refl _, rfl, rfl, ?_, ?_⟩
  · rw [map_selection_rootChildren, map_selection_rootChildren]
    exact fun x hx ↦ hall.exists_of_mem hx
  · rw [map_selection_rootChildren, map_selection_rootChildren]
    exact fun x hx ↦ hall.symm.exists_of_mem hx

end

/-! ## Documents -/

section

variable {schema : Schema} {d d' : Document} {config : Config}

theorem forall₂_buildOperations {lib : FragmentLibrary} {named : List (Name × Operation)}
    {operations : List OperationModels} {used used' : List Name}
    (h : buildOperations schema d config lib named used = .ok (operations, used')) :
    List.Forall₂ (fun p o ↦ buildOperation schema d config lib p.1 p.2 = .ok o) named
      operations := by
  induction named generalizing operations used with
  | nil =>
    cases h
    exact .nil
  | cons p rest ih =>
    rw [buildOperations] at h
    obtain ⟨built, hbuilt, h⟩ := Error.bind_eq_ok.mp h
    obtain ⟨used₁, -, h⟩ := Error.bind_eq_ok.mp h
    obtain ⟨used₂, -, h⟩ := Error.bind_eq_ok.mp h
    obtain ⟨⟨others, used₃⟩, hothers, h⟩ := Error.bind_eq_ok.mp h
    cases h
    exact .cons (Error.wrap_eq_ok.mp hbuilt) (ih hothers)

/-- The named operations of rearranged documents correspond. -/
theorem Document.Rearranged.namedOperations (hd : d.Rearranged d') :
    List.Forall₂ (fun p p' ↦ p.1 = p'.1 ∧ Operation.Rearranged p.2 p'.2) d.namedOperations
      d'.namedOperations := by
  refine List.rel_filterMap (fun o o' ho ↦ ?_) hd.operations
  have hname : o'.name = o.name := by rw [ho.2]
  rw [hname]
  cases o.name with
  | none => exact .none
  | some name => exact .some ⟨rfl, ho⟩

/-- **The order of selections does not matter.** If two documents differ only in the order of
selections and both can be built, the trees of fields of their operations and fragments are the same
up to order. -/
theorem fields_alike_of_rearranged {ir ir' : Representation} (hd : d.Rearranged d')
    (h : build schema config d = .ok ir) (h' : build schema config d' = .ok ir') :
    List.Forall₂ (fun o o' ↦ o.name = o'.name ∧ o.field.Alike o'.field) ir.operations
      ir'.operations ∧
      List.Forall₂ (fun r r' ↦ r.name = r'.name ∧ r.field.Alike r'.field) ir.fragments
        ir'.fragments := by
  obtain ⟨lib, _, _, _, -, hfragments, hoperations⟩ := build_eq_ok h
  obtain ⟨lib', _, _, _, -, hfragments', hoperations'⟩ := build_eq_ok h'
  constructor
  · refine forall₂_image hd.namedOperations (forall₂_buildOperations hoperations)
      (forall₂_buildOperations hoperations') fun p p' o o' hp ho ho' ↦ ?_
    obtain ⟨hname, rootType, hroot, hfield, -⟩ := buildOperation_eq_ok ho
    obtain ⟨hname', rootType', hroot', hfield', -⟩ := buildOperation_eq_ok ho'
    have hkind : p'.2.kind = p.2.kind := by rw [hp.2.2]
    rw [hkind, hroot] at hroot'
    cases hroot'
    exact ⟨hname.trans (hp.1.trans hname'.symm), alike_of_expandRoot hd hp.2.1 hfield hfield'⟩
  · have hnames : ir.fragments.map FragmentModels.name = ir'.fragments.map FragmentModels.name := by
      rw [map_name_buildFragments hfragments, map_name_buildFragments hfragments']
      exact hd.map_name_fragments
    refine forall₂_of_map_eq hnames fun r hr r' hr' hname ↦ ⟨hname, ?_⟩
    obtain ⟨fragment, hf, hfield, -⟩ := exists_fragment_of_build h hr
    obtain ⟨fragment', hf', hfield', -⟩ := exists_fragment_of_build h' hr'
    obtain ⟨other, hother, hR⟩ := hd.exists_fragment hf
    rw [hname, hf'] at hother
    cases hother
    have htype : fragment'.typeCondition = fragment.typeCondition := by rw [hR.2]
    exact alike_of_expandRoot hd hR.1 hfield (htype ▸ hfield')

end

open Sample in
private theorem rearranged_mirrored : document.Rearranged mirrored := by
  have hleaf : ∀ name, (field name []).Rearranged (field name []) :=
    fun name ↦ .field _ .nil (.refl _)
  have hdog := Selection.Rearranged.inline (some "Dog") [] (.cons (hleaf "trick") .nil) (.refl _)
  have hpet := Selection.Rearranged.inline (some "Pet") [includeIf "pets"]
    (.cons (hleaf "owner") (.cons hdog .nil)) (List.reverse_perm _).symm
  have hanimal := Selection.Rearranged.field ⟨"animal", none, [], []⟩
    (.cons (hleaf "name") (.cons hpet (.cons (.spread "Company" [skipIf "alone"]) .nil)))
    (List.reverse_perm _).symm
  have hfriend :=
    Selection.Rearranged.field ⟨"friend", none, [], []⟩ (.cons (hleaf "name") .nil) (.refl _)
  exact ⟨.cons ⟨⟨_, .cons hanimal .nil, .refl _⟩, rfl⟩ .nil,
    .cons ⟨⟨_, .cons hfriend .nil, .refl _⟩, rfl⟩ .nil⟩

open Sample in
/-- The sample, and the same with selections listed the other way round: the fields of each animal
come in another order, but they are the same fields. -/
theorem fields_alike_of_mirrored :
    document.Rearranged mirrored ∧ ∃ ir ir', build schema {} document = .ok ir ∧
      build schema {} mirrored = .ok ir' ∧
      (ir.operations.flatMap fun o ↦ o.field.fieldSets.flatMap fun s ↦ s.fields.flatMap fun f ↦
        f.fieldSets.map fun s ↦ s.fields.map Field.responseName) =
          [["__typename", "name", "friend"], ["__typename", "name", "owner", "friend"],
            ["__typename", "name", "owner", "trick", "friend"]] ∧
      (ir'.operations.flatMap fun o ↦ o.field.fieldSets.flatMap fun s ↦ s.fields.flatMap fun f ↦
        f.fieldSets.map fun s ↦ s.fields.map Field.responseName) =
          [["__typename", "friend", "name"], ["__typename", "friend", "owner", "name"],
            ["__typename", "friend", "trick", "owner", "name"]] ∧
      List.Forall₂ (fun o o' ↦ o.name = o'.name ∧ o.field.Alike o'.field) ir.operations
        ir'.operations ∧
        List.Forall₂ (fun r r' ↦ r.name = r'.name ∧ r.field.Alike r'.field) ir.fragments
          ir'.fragments := by
  obtain ⟨ir, hir, hnames⟩ := Error.exists_of_any (x := build schema {} document)
    (p := fun ir ↦
      (ir.operations.flatMap fun o ↦ o.field.fieldSets.flatMap fun s ↦ s.fields.flatMap fun f ↦
      f.fieldSets.map fun s ↦ s.fields.map Field.responseName) =
        [["__typename", "name", "friend"], ["__typename", "name", "owner", "friend"],
          ["__typename", "name", "owner", "trick", "friend"]]) (by decide +kernel)
  obtain ⟨ir', hir', hnames'⟩ := Error.exists_of_any (x := build schema {} mirrored)
    (p := fun ir ↦
      (ir.operations.flatMap fun o ↦ o.field.fieldSets.flatMap fun s ↦ s.fields.flatMap fun f ↦
      f.fieldSets.map fun s ↦ s.fields.map Field.responseName) =
        [["__typename", "friend", "name"], ["__typename", "friend", "owner", "name"],
          ["__typename", "friend", "trick", "owner", "name"]]) (by decide +kernel)
  exact ⟨rearranged_mirrored, ir, ir', hir, hir', of_decide_eq_true hnames,
    of_decide_eq_true hnames', fields_alike_of_rearranged rearranged_mirrored hir hir'⟩

end ResponseModels
