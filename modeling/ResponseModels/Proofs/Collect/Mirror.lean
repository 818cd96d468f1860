import ResponseModels.Proofs.Collect.Expand
import ResponseModels.Proofs.Collect.MergeExact
import ResponseModels.Proofs.Collect.Ways
import ResponseModels.Proofs.SeenAlike

/-!
# Fields that are expanded alike

Two documents can be written differently and still give the same fields. To see this it is enough to
look at one level: if children that correspond have the same shapes, filled with the same fields,
and what is selected beneath the same fields corresponds again (`Survey.Agrees`), then fields with
corresponding children expand to the same tree (`same_of_expandField`). How children correspond is
left open here, and so is whether the fragments noted are the same.

* `Survey.Mirrors` says of two surveys that they see the same, up to repetition, and that the
  children beneath correspond.
* Then the fields of each type set are the same, in the same order, with children that correspond
  (`Survey.Mirrors.exists_fieldsFor`), and the surveys agree (`Survey.Mirrors.agrees`).
-/

set_option autoImplicit false

namespace ResponseModels

/-! ## The same fields -/

mutual

/-- Two trees of fields are the same, the fragments noted in them being related by `R`. -/
inductive Field.Same (R : List Name → List Name → Prop) : Field → Field → Prop
  | mk {f f' : Field} (info : f.info = f'.info) (condition : f.condition = f'.condition)
      (fieldSets : List.Forall₂ (FieldSet.Same R) f.fieldSets f'.fieldSets)
      (fragments : R f.fragments f'.fragments) :
      Field.Same R f f'

/-- Two field sets are the same, the fragments noted in them being related by `R`. -/
inductive FieldSet.Same (R : List Name → List Name → Prop) : FieldSet → FieldSet → Prop
  | mk {s s' : FieldSet} (typeSet : s.typeSet = s'.typeSet)
      (possibleTypes : s.possibleTypes = s'.possibleTypes)
      (fields : List.Forall₂ (Field.Same R) s.fields s'.fields)
      (fragments : R s.fragments s'.fragments) :
      FieldSet.Same R s s'

end

mutual

theorem Field.Same.eq : ∀ {f f' : Field}, f.Same Eq f' → f = f'
  | ⟨_, _, _, _⟩, ⟨_, _, _, _⟩, .mk info condition fieldSets fragments => by
    cases info
    cases condition
    cases fragments
    cases FieldSet.Same.all_eq fieldSets
    rfl

theorem FieldSet.Same.eq : ∀ {s s' : FieldSet}, s.Same Eq s' → s = s'
  | ⟨_, _, _, _⟩, ⟨_, _, _, _⟩, .mk typeSet possibleTypes fields fragments => by
    cases typeSet
    cases possibleTypes
    cases fragments
    cases Field.Same.all_eq fields
    rfl

theorem FieldSet.Same.all_eq :
    ∀ {l l' : List FieldSet}, List.Forall₂ (FieldSet.Same Eq) l l' → l = l'
  | [], [], .nil => rfl
  | _ :: _, _ :: _, .cons h hrest => by rw [h.eq, FieldSet.Same.all_eq hrest]

theorem Field.Same.all_eq : ∀ {l l' : List Field}, List.Forall₂ (Field.Same Eq) l l' → l = l'
  | [], [], .nil => rfl
  | _ :: _, _ :: _, .cons h hrest => by rw [h.eq, Field.Same.all_eq hrest]

end

/-- Two declarations are the same, and their children correspond. -/
structure Declaration.Mirrors (C : List Child → List Child → Prop) (m m' : Declaration) : Prop where
  /-- The field is the same. -/
  info : m.info = m'.info
  /-- It is included under the same condition. -/
  condition : m.condition = m'.condition
  /-- What is selected beneath corresponds. -/
  children : C m.children m'.children

/-- What a survey sees of an occurrence: the field and the scope it stands in. -/
def Occurrence.sight (o : Occurrence) : FieldHead × Scope := (o.head, o.scope)

/-- What a survey sees of an entry, whatever is spread there. -/
def Entry.sight (e : Entry) : Name × NameSet × Bool := (e.typeCondition, e.typeSet, e.narrows)

/-- Two surveys see the same, and the children beneath the fields they see correspond, whichever of
the fields are taken. -/
structure Survey.Mirrors (R : List Name → List Name → Prop) (C : List Child → List Child → Prop)
    (s s' : Survey) : Prop where
  /-- The fields are of the same type. -/
  rawType : s.rawType = s'.rawType
  /-- The same type conditions narrow them. -/
  typeConditions : s.typeConditions = s'.typeConditions
  /-- The same type sets are noted. -/
  declaredTypeSets : s.declaredTypeSets = s'.declaredTypeSets
  /-- The fragments beneath them are related. -/
  fragments : R s.fragments s'.fragments
  /-- So are the fragments of each type set. -/
  fragmentsFor (typeSet : NameSet) : R (s.fragmentsFor typeSet) (s'.fragmentsFor typeSet)
  /-- The same fields are seen in the same scopes, leaving out what was seen before. -/
  sights :
    SeenAlike (s.found.occurrences.map Occurrence.sight) (s'.found.occurrences.map Occurrence.sight)
  /-- Whichever of the fields are taken, what is selected beneath them corresponds. -/
  children (p : FieldHead × Scope → Bool) :
    C (Child.addNew [] ((s.found.occurrences.filter fun o ↦ p o.sight).flatMap Occurrence.children))
      (Child.addNew []
        ((s'.found.occurrences.filter fun o ↦ p o.sight).flatMap Occurrence.children))

/-- Two surveys fill a field alike: its shapes are the same, and so are the fields of each type set,
with children that correspond. -/
structure Survey.Agrees (schema : Schema) (R : List Name → List Name → Prop)
    (C : List Child → List Child → Prop) (s s' : Survey) : Prop where
  /-- The shapes are the same. -/
  shapes : s.shapes schema = s'.shapes schema
  /-- The fragments beneath the field are related. -/
  fragments : R s.fragments s'.fragments
  /-- So are the fragments of each type set. -/
  fragmentsFor (typeSet : NameSet) : R (s.fragmentsFor typeSet) (s'.fragmentsFor typeSet)
  /-- The fields of each type set are the same, with children that correspond. -/
  fieldsFor {typeSet : NameSet} {merged : List Declaration}
    (hm : s.fieldsFor schema typeSet = .ok merged) :
    ∃ merged', s'.fieldsFor schema typeSet = .ok merged' ∧
    List.Forall₂ (Declaration.Mirrors C) merged merged'

/-! ## The fields of a type set -/

/-- What a declaration says of its field, the children apart. -/
def Declaration.key (m : Declaration) : FieldInfo × Condition := (m.info, m.condition)

theorem Declaration.map_key_group (declarations : List Declaration) (n : Name) :
    (group declarations n).map key = (declarations.map key).filter fun k ↦
      k.1.responseName == n := by
  rw [group, List.filter_map]
  rfl

theorem Declaration.map_responseName_eq (declarations : List Declaration) :
    declarations.map responseName = (declarations.map key).map fun k ↦ k.1.responseName := by
  rw [List.map_map]
  rfl

/-- **Groups of declarations that are seen alike are merged alike.** -/
theorem Declaration.exists_mergeGroup {group group' : List Declaration} {m : Declaration}
    (hkeys : SeenAlike (group.map key) (group'.map key)) (hg : ∀ d ∈ group, d.condition.Canonical)
    (hg' : ∀ d ∈ group', d.condition.Canonical) (h : mergeGroup group = .ok m) :
    ∃ m', mergeGroup group' = .ok m' ∧ m.info = m'.info ∧ m.condition = m'.condition ∧
      m.children = Child.addNew [] (group.flatMap children) ∧
      m'.children = Child.addNew [] (group'.flatMap children) := by
  cases group with
  | nil => cases h
  | cons first rest =>
    obtain ⟨hsame, rfl⟩ := (mergeGroup_eq_ok_iff hg).mp h
    cases group' with
    | nil => cases hkeys.head?_eq
    | cons first' rest' =>
      have hfirst : first.key = first'.key := Option.some_inj.mp hkeys.head?_eq
      have hinfo : first.info = first'.info := congrArg Prod.fst hfirst
      -- Every declaration of the one group has the information of a declaration of the other.
      have hall : ∀ d ∈ first' :: rest', first'.info.SameField d.info := by
        intro d hd
        obtain ⟨e, he, hkey⟩ := List.mem_map.mp (hkeys.mem_iff.mpr (List.mem_map_of_mem hd))
        have hsame' : e.info = d.info := congrArg Prod.fst hkey
        rw [← hinfo, ← hsame']
        rcases List.mem_cons.mp he with rfl | he
        · exact .refl _
        · exact hsame e he
      refine ⟨joined first' (first' :: rest'),
        (mergeGroup_eq_ok_iff hg').mpr ⟨(List.forall_mem_cons.mp hall).2, rfl⟩, hinfo, ?_, rfl, rfl⟩
      refine Junction.reduce_congr fun c ↦ ?_
      have hconditions := hkeys.map Prod.snd
      rw [List.map_map, List.map_map] at hconditions
      exact hconditions.mem_iff

section

variable {schema : Schema} {occurrences : List Occurrence} {declarations : List Declaration}
  (h : List.Forall₂ (fun o m ↦ Occurrence.declaration o schema = .ok m) occurrences declarations)
include h

/-- What declarations say of their fields depends on what was seen. -/
theorem map_key_of_declarations :
    declarations.map Declaration.key = (occurrences.map Occurrence.sight).filterMap fun s ↦
      (Occurrence.info ⟨s.1, [], .root, s.2, []⟩ schema).toOption.map fun info ↦
        (info, s.2.condition) := by
  induction h with
  | nil => rfl
  | @cons o m _ _ hom _ ih =>
    obtain ⟨hinfo, -, hcondition, -⟩ := Occurrence.of_declaration hom
    have hinfo' : Occurrence.info ⟨o.head, [], .root, o.scope, []⟩ schema = .ok m.info :=
      (Occurrence.info_congr rfl rfl schema).trans hinfo
    rw [List.map_cons, List.map_cons, ih, List.filterMap_cons]
    simp only [Occurrence.sight, hinfo', Declaration.key, hcondition]
    rfl

theorem flatMap_children_group (n : Name) :
    (Declaration.group declarations n).flatMap Declaration.children =
      (occurrences.filter fun o ↦ o.head.responseName == n).flatMap Occurrence.children := by
  induction h with
  | nil => rfl
  | @cons o m _ _ hom _ ih =>
    obtain ⟨-, hname, -, hchildren⟩ := Occurrence.of_declaration hom
    rw [Declaration.group] at ih ⊢
    rw [List.filter_cons, List.filter_cons, hname]
    split
    · rw [List.flatMap_cons, List.flatMap_cons, ih, hchildren]
    · exact ih

end

/-! ## Shapes -/

section

variable {s s' : Survey}
  (h : SeenAlike (s.found.entries.map Entry.sight) (s'.found.entries.map Entry.sight))
include h

theorem Survey.typeConditions_eq : s.typeConditions = s'.typeConditions := by
  have hnarrowing := ((h.filter fun e ↦ e.2.2).map Prod.fst).eraseDups_eq
  rwa [List.filter_map, List.filter_map, List.map_map, List.map_map] at hnarrowing

theorem Survey.declaredTypeSets_eq : s.declaredTypeSets = s'.declaredTypeSets := by
  have htypeSets := (h.map fun e ↦ e.2.1).eraseDups_eq
  rwa [List.map_map, List.map_map] at htypeSets

end

namespace Survey.Mirrors

variable {R : List Name → List Name → Prop} {C : List Child → List Child → Prop} {s s' : Survey}

theorem shapes_eq (h : s.Mirrors R C s') (schema : Schema) :
    s.shapes schema = s'.shapes schema := by
  rw [shapes, shapes, h.rawType, h.typeConditions, h.declaredTypeSets]

/-- **The fields of a type set are the same**, and what is selected beneath them corresponds. -/
theorem exists_fieldsFor {schema : Schema} {typeSet : NameSet} {merged : List Declaration}
    (h : s.Mirrors R C s') (hc : ∀ o ∈ s.found.occurrences, o.scope.condition.Canonical)
    (hc' : ∀ o ∈ s'.found.occurrences, o.scope.condition.Canonical)
    (hm : s.fieldsFor schema typeSet = .ok merged) :
    ∃ merged', s'.fieldsFor schema typeSet = .ok merged' ∧
      List.Forall₂ (Declaration.Mirrors C) merged merged' := by
  rw [fieldsFor] at hm
  obtain ⟨declarations, hd, hm⟩ := Error.bind_eq_ok.mp hm
  have hsights := h.sights.filter fun x ↦ x.2.typeSet ⊆ typeSet
  rw [List.filter_map, List.filter_map] at hsights
  have hdeclares : ∀ o' ∈ s'.found.occurrences.filter fun o ↦ o.scope.typeSet ⊆ typeSet,
      ∃ m, o'.declaration schema = .ok m := by
    intro o' ho'
    obtain ⟨o, ho, hsight⟩ := List.mem_map.mp (hsights.mem_iff.mpr (List.mem_map_of_mem ho'))
    obtain ⟨m, -, hok⟩ := Error.exists_mem_of_mapM hd ho
    obtain ⟨hhead, hscope⟩ := Prod.mk.inj hsight
    have hinfo : o'.info schema = .ok m.info :=
      (Occurrence.info_congr hhead.symm (congrArg Scope.parentType hscope.symm) schema).trans
        (Occurrence.of_declaration hok).1
    exact ⟨_, Error.bind_eq_ok.mpr ⟨m.info, hinfo, rfl⟩⟩
  obtain ⟨declarations', hd'⟩ := Error.exists_mapM hdeclares
  have hforall := Error.forall₂_of_mapM hd
  have hforall' := Error.forall₂_of_mapM hd'
  have hkeys :
      SeenAlike (declarations.map Declaration.key) (declarations'.map Declaration.key) := by
    rw [map_key_of_declarations hforall, map_key_of_declarations hforall']
    exact hsights.filterMap _
  have hnames : (declarations.map Declaration.responseName).eraseDups =
      (declarations'.map Declaration.responseName).eraseDups := by
    rw [Declaration.map_responseName_eq, Declaration.map_responseName_eq]
    exact (hkeys.map _).eraseDups_eq
  have hcanonical : ∀ m ∈ declarations, m.condition.Canonical :=
    condition_of_mem_declarationsFor hd hc
  have hcanonical' : ∀ m ∈ declarations', m.condition.Canonical :=
    condition_of_mem_declarationsFor hd' hc'
  have hgroups : ∀ n m, Declaration.mergeGroup (Declaration.group declarations n) = .ok m →
      ∃ m', Declaration.mergeGroup (Declaration.group declarations' n) = .ok m' ∧
      m.Mirrors C m' := by
    intro n m hgroup
    have hkeys := hkeys.filter fun k ↦ k.1.responseName == n
    rw [← Declaration.map_key_group, ← Declaration.map_key_group] at hkeys
    obtain ⟨m', hok, hinfo, hcond, hchildren, hchildren'⟩ := Declaration.exists_mergeGroup hkeys
      (fun d hd ↦ hcanonical d (List.mem_filter.mp hd).1)
      (fun d hd ↦ hcanonical' d (List.mem_filter.mp hd).1) hgroup
    refine ⟨m', hok, hinfo, hcond, ?_⟩
    rw [hchildren, hchildren', flatMap_children_group hforall, flatMap_children_group hforall',
      List.filter_filter, List.filter_filter]
    exact h.children fun x ↦ (x.1.responseName == n) && x.2.typeSet ⊆ typeSet
  obtain ⟨merged', hm', hmirrors⟩ := Error.exists_mapM_of_forall₂ hm (fun m hmem ↦ hmem)
    (List.forall₂_same.mpr fun n _ m _ hgroup ↦ hgroups n m hgroup)
  refine ⟨merged', Error.bind_eq_ok.mpr ⟨declarations', hd', ?_⟩, hmirrors⟩
  rw [Declaration.merge, ← hnames]
  exact hm'

theorem agrees {schema : Schema} {d d' : Document} {rawType rawType' : Name}
    {children children' : List Child} (h : s.Mirrors R C s')
    (hs : ofChildren schema d rawType children = .ok s)
    (hs' : ofChildren schema d' rawType' children' = .ok s') : s.Agrees schema R C s' where
  shapes := h.shapes_eq schema
  fragments := h.fragments
  fragmentsFor := h.fragmentsFor
  fieldsFor := h.exists_fieldsFor (fun _ ho ↦ canonical_of_mem_occurrences hs ho)
    (fun _ ho ↦ canonical_of_mem_occurrences hs' ho)

end Survey.Mirrors

/-! ## Trees -/

section

variable {R : List Name → List Name → Prop} {C : List Child → List Child → Prop} {schema : Schema}
  {d d' : Document} {policy : TypenamePolicy}

/-- `__typename` is added to both or to none. -/
theorem forall₂_addedTypename (hR : R [] []) {merged merged' : List Declaration}
    (h : List.Forall₂ (Declaration.Mirrors C) merged merged') (wanted : Bool) :
    List.Forall₂ (Field.Same R) (addedTypename wanted merged) (addedTypename wanted merged') := by
  have hany : (merged.any fun m ↦ m.responseName == Schema.typename) =
      merged'.any fun m ↦ m.responseName == Schema.typename := by
    induction h with
    | nil => rfl
    | cons hm _ ih =>
      rw [List.any_cons, List.any_cons, ih, Declaration.responseName,
        Declaration.responseName, hm.info]
  rw [addedTypename, addedTypename, hany]
  split
  · exact .cons (.mk rfl rfl .nil hR) .nil
  · exact .nil

/-- What one level of fields is filled with, if the fields of the level below are. -/
theorem exists_selected {merged merged' : List Declaration} {selected : List Field}
    (h : List.Forall₂ (Declaration.Mirrors C) merged merged')
    (hs : (merged.filter Declaration.canBeIncluded).mapM (expandField schema d policy) =
      .ok selected)
    (hdeeper : ∀ k ∈ selected, ∀ m m', Declaration.Mirrors C m m' → expandField schema d policy m =
      .ok k → ∃ k', expandField schema d' policy m' = .ok k' ∧ k.Same R k') :
    ∃ selected', (merged'.filter Declaration.canBeIncluded).mapM (expandField schema d' policy) =
      .ok selected' ∧ List.Forall₂ (Field.Same R) selected selected' := by
  have hfilter : List.Forall₂ (Declaration.Mirrors C) (merged.filter Declaration.canBeIncluded)
      (merged'.filter Declaration.canBeIncluded) := by
    refine List.rel_filter (fun m m' hm ↦ ?_) h
    simp only [Declaration.canBeIncluded, hm.condition]
  exact Error.exists_mapM_of_forall₂ hs (fun k hk ↦ hk) (hfilter.imp fun m m' hm k hk hok ↦
    hdeeper k hk m m' hm hok)

/-- **Fields with corresponding children expand to the same tree**, if children that correspond are
surveyed alike. -/
theorem same_of_expandField (hR : R [] [])
    (hsurvey : ∀ {rawType : Name} {children children' : List Child} {s : Survey},
      C children children' → Survey.ofChildren schema d rawType children = .ok s →
      ∃ s', Survey.ofChildren schema d' rawType children' = .ok s' ∧ s.Agrees schema R C s')
    {field field' : Declaration} (h : field.Mirrors C field') {f : Field}
    (hf : expandField schema d policy field = .ok f) :
    ∃ f', expandField schema d' policy field' = .ok f' ∧ f.Same R f' := by
  induction hn : f.size using Nat.strongRecOn generalizing field field' f with
  | ind n ih =>
    subst hn
    rw [expandField_eq] at hf
    rw [expandField_eq, ← h.info, ← h.condition]
    split at hf
    · rename_i hcomposite
      rw [if_pos hcomposite]
      obtain ⟨survey, hs, hf⟩ := Error.bind_eq_ok.mp hf
      obtain ⟨shapes, hshapes, hf⟩ := Error.bind_eq_ok.mp hf
      obtain ⟨fieldSets, hsets, hf⟩ := Error.bind_eq_ok.mp hf
      cases hf
      obtain ⟨survey', hs', hm⟩ := hsurvey h.children hs
      rw [hm.shapes] at hshapes
      have hrun := fun g hg ↦
        Error.exists_mapM_of_forall₂ (g := g) (R := FieldSet.Same R) hsets (fun s hmem ↦ hmem)
        (List.forall₂_same.mpr hg)
      refine (hrun _ ?_).elim fun fieldSets' h' ↦
        ⟨_, Error.bind_eq_ok.mpr ⟨_, hs', Error.bind_eq_ok.mpr ⟨_, hshapes,
        Error.bind_eq_ok.mpr ⟨_, h'.1, rfl⟩⟩⟩, .mk rfl rfl h'.2 hm.fragments⟩
      intro shape _ s hmem hset
      obtain ⟨merged, hmerged, hset⟩ := Error.bind_eq_ok.mp hset
      obtain ⟨selected, hselected, hset⟩ := Error.bind_eq_ok.mp hset
      cases hset
      obtain ⟨merged', hmerged', hmirrors⟩ := hm.fieldsFor hmerged
      obtain ⟨selected', hselected', hsame⟩ :=
        exists_selected hmirrors hselected fun k hk m m' hm hok ↦
          ih k.size (Field.size_lt_of_mem hmem (List.mem_append_right _ hk)) hm hok rfl
      refine ⟨_, Error.bind_eq_ok.mpr ⟨_, hmerged', Error.bind_eq_ok.mpr ⟨_, hselected', rfl⟩⟩, ?_⟩
      refine .mk rfl rfl ?_ (hm.fragmentsFor shape.typeSet)
      exact List.rel_append (forall₂_addedTypename hR hmirrors _) hsame
    · rename_i hcomposite
      rw [if_neg hcomposite]
      cases hf
      exact ⟨_, rfl, .mk rfl rfl .nil hR⟩

/-- A definition gives the same field in two documents if the same fragments are noted. -/
theorem expandRoot_eq_ok_of_agrees
    (hsurvey : ∀ {rawType : Name} {children children' : List Child} {s : Survey},
      C children children' → Survey.ofChildren schema d rawType children = .ok s →
      ∃ s', Survey.ofChildren schema d' rawType children' = .ok s' ∧ s.Agrees schema Eq C s')
    {rawType : Name} {selections selections' : List Selection} {path : List Name}
    (hroot : C (rootChildren selections path) (rootChildren selections' path)) {f : Field}
    (hf : expandRoot schema d policy rawType selections path = .ok f) :
    expandRoot schema d' policy rawType selections' path = .ok f := by
  obtain ⟨type, htype, hf⟩ := Error.bind_eq_ok.mp hf
  have hmirrors :
      ∀ info condition, Declaration.Mirrors C ⟨info, condition, rootChildren selections path⟩
      ⟨info, condition, rootChildren selections' path⟩ := fun _ _ ↦ ⟨rfl, rfl, hroot⟩
  obtain ⟨f', hf', hsame⟩ := same_of_expandField rfl hsurvey (hmirrors _ _) hf
  exact Error.bind_eq_ok.mpr ⟨type, htype, hsame.eq ▸ hf'⟩

end
end ResponseModels
