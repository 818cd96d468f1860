import ResponseModels.Proofs.Library
import ResponseModels.Proofs.Model.Completion
import ResponseModels.Proofs.Sample

/-!
# Errors name the definition they arose in

Whatever a document holds, a build either succeeds or reports one plain error, together with the
definition it arose in (`build_ok_or_reports`). Two things are behind this.

* What fails in a definition is wrapped with its title, and what is wrapped already stays as it is
  (`FailsOnly.wrap`).
* The steps outside of any definition do not fail, nor do those that rely on an invariant of the
  builder. A library of fragments is `Closed`: with a fragment it holds all that are spread in it,
  so their interfaces are at hand when models are built, and following spreads leads out of it
  nowhere. The types of fields, arguments and variables have been resolved, so they are found again
  when the types in use are collected.
-/

set_option autoImplicit false

namespace ResponseModels

/-! ## Statements -/

/-- The titles of the definitions of a document. All operations without a name share one. -/
inductive Document.Titles (d : Document) : String → Prop
  | anonymous {o : Operation} (mem : o ∈ d.operations) (unnamed : o.name = none) :
      d.Titles "anonymous operation"
  | operation {o : Operation} {name : Name} (mem : o ∈ d.operations) (named : o.name = some name) :
      d.Titles s!"{o.kind.text} \"{name}\""
  | fragment {f : Fragment} (mem : f ∈ d.fragments) : d.Titles (fragmentTitle f.name)

/-- An error that names the definition it arose in, and says in plain terms why. -/
def Error.Reported (d : Document) (e : Error) : Prop :=
  ∃ definition cause, e = .within definition cause ∧ cause.IsPlain ∧ d.Titles definition

/-- The types that the fields of input objects name exist. -/
def Schema.InputTypesExist (schema : Schema) : Prop :=
  ∀ t ∈ schema.types, ∀ n ∈ t.inputTypes, (schema.type? n).isSome

/-- The types that the definitions of a document start from have fields to select, so far as they
exist. -/
structure Document.StartsComposite (d : Document) (schema : Schema) : Prop where
  /-- Fragments are on types with fields. -/
  fragments : ∀ f ∈ d.fragments, (schema.type? f.typeCondition).all fun t ↦ t.kind.isComposite
  /-- The root types of operations have fields. -/
  operations : ∀ o ∈ d.operations, ((schema.root? o.kind).bind schema.type?).all fun t ↦
    t.kind.isComposite

/-! ## Wrapping -/

/-- What fails plainly in a definition is reported with its title. -/
theorem FailsOnly.wrap {α : Type} {d : Document} {title : String} {x : Except Error α}
    (h : FailsOnly (fun e ↦ e.IsPlain ∨ e.Reported d) x) (htitle : d.Titles title) :
    FailsOnly (Error.Reported d) (Error.wrap title x) := by
  cases x with
  | ok a => exact .ok a
  | error e =>
    refine .error ?_
    rcases h e rfl with hplain | ⟨definition, cause, rfl, hcause⟩
    · cases e with
      | internal details => exact hplain.elim
      | within definition cause => exact hplain.elim
      | _ => exact ⟨title, _, rfl, hplain, htitle⟩
    · exact ⟨definition, cause, rfl, hcause⟩

/-- What does not fail needs no title. -/
theorem FailsOnly.wrap_of_false {α : Type} {P : Error → Prop} {x : Except Error α}
    (h : FailsOnly (fun _ ↦ False) x) (title : String) : FailsOnly P (Error.wrap title x) := by
  obtain ⟨a, rfl⟩ := h.exists_ok
  exact .ok a

/-! ## The types in use -/

theorem Schema.exists_type?_of_resolve {schema : Schema} {t : TypeExpr Name}
    {r : TypeExpr NamedType} (h : schema.resolve t = .ok r) :
    ∃ u, schema.type? r.base.name = some u := by
  induction t generalizing r with
  | named name =>
    obtain ⟨u, hu, h⟩ := Error.bind_eq_ok.mp h
    cases h
    rw [Schema.type] at hu
    split at hu
    · rename_i u' hu'
      exact ⟨u', hu'⟩
    · cases hu
  | list item ih =>
    obtain ⟨r', hr', h⟩ := Error.bind_eq_ok.mp h
    cases h
    obtain ⟨u, hu⟩ := ih hr'
    exact ⟨u, hu⟩
  | nonNull item ih =>
    obtain ⟨r', hr', h⟩ := Error.bind_eq_ok.mp h
    cases h
    obtain ⟨u, hu⟩ := ih hr'
    exact ⟨u, hu⟩

/-- The types of a field that was found, and of its arguments, exist. -/
theorem Occurrence.exists_type? {o : Occurrence} {schema : Schema} {info : FieldInfo}
    (h : o.info schema = .ok info) {n : Name} (hn : n ∈ info.typeNames) :
    ∃ u, schema.type? n = some u := by
  rw [Occurrence.info] at h
  obtain ⟨definition, -, h⟩ := Error.bind_eq_ok.mp h
  obtain ⟨arguments, harguments, h⟩ := Error.bind_eq_ok.mp h
  obtain ⟨type, htype, h⟩ := Error.bind_eq_ok.mp h
  cases h
  rcases List.mem_cons.mp hn with rfl | hn
  · exact Schema.exists_type?_of_resolve htype
  · obtain ⟨a, ha, rfl⟩ := List.mem_map.mp hn
    obtain ⟨unsorted, hunsorted, harguments⟩ := Error.bind_eq_ok.mp harguments
    cases harguments
    obtain ⟨p, -, hp⟩ := Error.exists_of_mem_mapM hunsorted (List.mem_mergeSort.mp ha)
    dsimp only at hp
    split at hp
    · cases hp
    · obtain ⟨r, hr, hp⟩ := Error.bind_eq_ok.mp hp
      cases hp
      exact Schema.exists_type?_of_resolve hr

theorem FieldInfo.SameField.typeNames {i j : FieldInfo} (h : i.SameField j) :
    i.typeNames = j.typeNames := by
  rw [FieldInfo.typeNames, FieldInfo.typeNames, h.rawType, h.arguments]

theorem FieldSet.mem_typeNamesOf {name : Name} {sets : List FieldSet} :
    name ∈ FieldSet.typeNamesOf sets ↔ ∃ s ∈ sets, name ∈ s.typeNames := by
  induction sets with
  | nil => simp [FieldSet.typeNamesOf]
  | cons s rest ih => simp [FieldSet.typeNamesOf, ih]

theorem Field.mem_typeNamesOf {name : Name} {fields : List Field} :
    name ∈ Field.typeNamesOf fields ↔ ∃ k ∈ fields, name ∈ k.typeNames := by
  induction fields with
  | nil => simp [Field.typeNamesOf]
  | cons k rest ih => simp [Field.typeNamesOf, ih]

theorem Field.mem_typeNames {name : Name} {f : Field} :
    name ∈ f.typeNames ↔ name ∈ f.info.typeNames ∨ ∃ s ∈ f.fieldSets, ∃ k ∈ s.fields,
      name ∈ k.typeNames := by
  have hset : ∀ s : FieldSet, name ∈ s.typeNames ↔ ∃ k ∈ s.fields, name ∈ k.typeNames := by
    rintro ⟨typeSet, possibleTypes, fields, fragments⟩
    simp [FieldSet.typeNames, Field.mem_typeNamesOf]
  obtain ⟨info, condition, fieldSets, fragments⟩ := f
  simp [Field.typeNames, FieldSet.mem_typeNamesOf, hset]

/-- A table has an entry for each key. -/
theorem isSome_lookup_map {α : Type} {key : α → Name} {content : α → List Name} {l : List α}
    {n : Name} :
    ((l.map fun a ↦ (key a, content a)).lookup n).isSome ↔ ∃ a ∈ l, key a = n := by
  rw [List.lookup_isSome_iff]
  simp [eq_comm (a := n)]

/-- Where every name that is referred to has an entry, no look-up fails. -/
theorem failsOnly_closure {P : Error → Prop} {table : List (Name × List Name)}
    {missing : Name → Error} (htable : ∀ e ∈ table, ∀ n ∈ e.2, (table.lookup n).isSome)
    {pending seen : List Name} (hpending : ∀ n ∈ pending, (table.lookup n).isSome) :
    FailsOnly P (closure table missing pending seen) := by
  induction pending, seen using closure.induct table with
  | case1 seen =>
    rw [closure]
    exact .ok seen
  | case2 seen n rest hn ih =>
    rw [closure, dif_pos hn]
    exact ih fun m hm ↦ hpending m (List.mem_cons_of_mem n hm)
  | case3 seen n rest hn hnone =>
    have hsome := hpending n List.mem_cons_self
    rw [hnone] at hsome
    cases hsome
  | case4 seen n rest hn next hnext ih =>
    rw [closure, dif_neg hn]
    split
    · rename_i hnone
      rw [hnext] at hnone
      cases hnone
    · rename_i next' hnext'
      rw [hnext] at hnext'
      cases hnext'
      refine ih fun m hm ↦ ?_
      rcases List.mem_append.mp hm with hm | hm
      · obtain ⟨l₁, l₂, heq, -⟩ := List.lookup_eq_some_iff.mp hnext
        exact htable (n, next) (by simp [heq]) m hm
      · exact hpending m (List.mem_cons_of_mem n hm)

namespace Schema

variable {schema : Schema} {P : Error → Prop}

theorem isSome_lookup_inputTable {n : Name} :
    (schema.inputTable.lookup n).isSome ↔ (schema.type? n).isSome := by
  rw [inputTable, isSome_lookup_map, type?, List.find?_isSome]
  simp

theorem failsOnly_addUsedTypes (hinputs : schema.InputTypesExist) {names seen : List Name}
    (hnames : ∀ n ∈ names, ∃ u, schema.type? n = some u) :
    FailsOnly P (schema.addUsedTypes names seen) := by
  refine failsOnly_closure (fun e he n hn ↦ ?_) fun n hn ↦ ?_
  · obtain ⟨t, ht, rfl⟩ := List.mem_map.mp he
    exact isSome_lookup_inputTable.mpr (hinputs t ht n hn)
  · exact isSome_lookup_inputTable.mpr (Option.isSome_iff_exists.mpr (hnames n hn))

theorem failsOnly_resolve_of_type? {t : TypeExpr Name} (h : (schema.type? t.base).isSome) :
    FailsOnly P (schema.resolve t) := by
  induction t with
  | named name =>
    obtain ⟨u, hu⟩ := Option.isSome_iff_exists.mp h
    have htype : schema.type name = .ok u := by
      rw [type, show schema.type? name = some u from hu]
    rw [resolve, htype]
    exact .ok _
  | list item ih => exact .bind (ih h) fun _ _ ↦ .ok _
  | nonNull item ih => exact .bind (ih h) fun _ _ ↦ .ok _

end Schema

theorem FailsOnly.filterMapM {α β : Type} {P : Error → Prop} {f : α → Except Error (Option β)}
    {l : List α} (h : ∀ a ∈ l, FailsOnly P (f a)) : FailsOnly P (l.filterMapM f) := by
  have hloop : ∀ acc, FailsOnly P (List.filterMapM.loop f l acc) := by
    induction l with
    | nil => exact fun acc ↦ .ok _
    | cons a rest ih =>
      intro acc
      rw [List.filterMapM.loop]
      refine .bind (h a List.mem_cons_self) fun r _ ↦ ?_
      have hrest := ih fun a' ha' ↦ h a' (List.mem_cons_of_mem a ha')
      cases r with
      | none => exact hrest acc
      | some b => exact hrest (b :: acc)
  exact hloop []

theorem Schema.failsOnly_usedInputObjects {schema : Schema} {P : Error → Prop}
    (hinputs : schema.InputTypesExist) (names : List Name) :
    FailsOnly P (schema.usedInputObjects names) := by
  refine .filterMapM fun t ht ↦ ?_
  split
  · rename_i fields hbody
    split
    · refine .bind (.mapM fun i hi ↦ ?_) fun _ _ ↦ .ok _
      refine .bind (Schema.failsOnly_resolve_of_type? (hinputs t ht _ ?_)) fun _ _ ↦ .ok _
      rw [TypeDefinition.inputTypes, hbody]
      exact List.mem_map_of_mem hi
    · exact .ok _
  · exact .ok _

/-! ## What is known of a field that was expanded -/

section

variable {schema : Schema} {d : Document} {policy : TypenamePolicy} {f : Field}

/-- The fragments that are spread in a tree are fragments of the document. -/
theorem Field.Expanded.exists_fragment? (h : f.Expanded schema d policy) {name : Name}
    (hname : name ∈ f.spreads) : ∃ fragment, d.fragment? name = some fragment := by
  induction hsize : f.size using Nat.strongRecOn generalizing f with
  | _ size ih =>
    rcases h with rfl | ⟨field, hf⟩
    · exact absurd hname List.not_mem_nil
    cases hc : schema.isComposite field.info.rawType with
    | false =>
      rw [expandField_eq, hc] at hf
      cases hf
      exact absurd hname List.not_mem_nil
    | true =>
      obtain ⟨survey, hu⟩ := unfolds_of_expandField hf hc
      have hfound : ∀ e ∈ survey.found.entries, e.spread = some name →
          ∃ fragment, d.fragment? name = some fragment := by
        intro e he hspread
        obtain ⟨_, -, _, _, fragment, -, hfragment, -⟩ :=
          Survey.exists_leads_spread hu.survey_eq he hspread
        exact ⟨fragment, hfragment⟩
      rcases Field.mem_spreads.mp hname with hmem | ⟨s, hs, hmem | ⟨k, hk, hmem⟩⟩
      · rw [hu.fragments] at hmem
        obtain ⟨e, he, hspread⟩ := Survey.mem_fragments.mp hmem
        exact hfound e he hspread
      · rw [hu.fragmentsFor s hs] at hmem
        obtain ⟨e, he, -, hspread⟩ := Survey.mem_fragmentsFor.mp hmem
        exact hfound e he hspread
      · exact ih _ (hsize ▸ Field.size_lt_of_mem hs hk)
          (Field.Expanded.of_mem (.inr ⟨field, hf⟩) hs hk) hmem rfl

/-- The types in a tree exist, if those of its root do. -/
theorem Field.Expanded.exists_type? (h : f.Expanded schema d policy)
    (hinfo : ∀ n ∈ f.info.typeNames, ∃ u, schema.type? n = some u) {n : Name}
    (hn : n ∈ f.typeNames) :
    ∃ u, schema.type? n = some u := by
  induction hsize : f.size using Nat.strongRecOn generalizing f with
  | _ size ih =>
    rcases Field.mem_typeNames.mp hn with hn | ⟨s, hs, k, hk, hn⟩
    · exact hinfo n hn
    obtain ⟨field, survey, -, hu⟩ := h.exists_unfolds hs
    refine ih _ (hsize ▸ Field.size_lt_of_mem hs hk) (h.of_mem hs hk) (fun m hm ↦ ?_) hn rfl
    by_cases htypename : k = Field.typename
    · subst htypename
      cases List.mem_singleton.mp hm
      exact ⟨_, rfl⟩
    · obtain ⟨o, ho, hname⟩ := hu.exists_applies_of_mem_fields hs hk htypename
      obtain ⟨info, hok, hsame⟩ := hu.sameField hs hk ho hname
      exact Occurrence.exists_type? hok (hsame.typeNames ▸ hm)

variable {rawType : Name} {selections : List Selection} {path : List Name}

theorem exists_type?_of_expandRoot (h : expandRoot schema d policy rawType selections path = .ok f)
    {n : Name} (hn : n ∈ f.typeNames) : ∃ u, schema.type? n = some u := by
  refine (Field.Expanded.of_expandRoot h).exists_type? (fun m hm ↦ ?_) hn
  rw [expandRoot] at h
  obtain ⟨type, htype, h⟩ := Error.bind_eq_ok.mp h
  rw [(info_of_expandField h).1] at hm
  cases List.mem_singleton.mp hm
  exact Schema.exists_type?_of_resolve htype

/-- The field of a definition that starts from a composite type is composite. -/
theorem fieldSets_ne_nil_of_expandRoot
    (h : expandRoot schema d policy rawType selections path = .ok f)
    (hstart : (schema.type? rawType).all fun t ↦ t.kind.isComposite) : f.fieldSets ≠ [] := by
  have hraw := rawType_of_expandRoot h
  obtain ⟨u, hu⟩ := exists_type?_of_expandRoot h (Field.mem_typeNames.mpr (.inl List.mem_cons_self))
  obtain ⟨field, hf, -⟩ := exists_of_expandRoot h
  have hc : schema.isComposite field.info.rawType = true := by
    rw [← (info_of_expandField hf).1, Schema.isComposite, hu, Option.any_some]
    rwa [← hraw, hu] at hstart
  obtain ⟨survey, hunfolds⟩ := unfolds_of_expandField hf hc
  obtain ⟨s, hs, -⟩ := List.mem_map.mp hunfolds.shaped.base_mem
  exact List.ne_nil_of_mem hs

/-- The field of an operation that starts from a composite type is composite. -/
theorem Document.StartsComposite.fieldSets_ne_nil (hstarts : d.StartsComposite schema)
    {o : Operation} (ho : o ∈ d.operations) (hroot : schema.root o.kind = .ok rawType)
    (h : expandRoot schema d policy rawType selections path = .ok f) :
    f.fieldSets ≠ [] := by
  have hroot? : schema.root? o.kind = some rawType := by
    rw [Schema.root] at hroot
    split at hroot
    · rename_i name hname
      cases hroot
      exact hname
    · cases hroot
  have hstart := hstarts.operations o ho
  rw [hroot?, Option.bind_some] at hstart
  exact fieldSets_ne_nil_of_expandRoot h hstart

end

/-! ## The library of fragments -/

theorem Document.exists_fragment? {d : Document} {f : Fragment} (h : f ∈ d.fragments) :
    ∃ fragment, d.fragment? f.name = some fragment := by
  rw [Document.fragment?, ← Option.isSome_iff_exists, List.find?_isSome]
  exact ⟨f, h, beq_self_eq_true f.name⟩

namespace FragmentLibrary

variable {schema : Schema} {d : Document} {config : Config} {lib lib' : FragmentLibrary}
  {P : Error → Prop}

/-- With a fragment a library has all that are spread in it. -/
def Closed (lib : FragmentLibrary) : Prop :=
  ∀ b ∈ lib.built, ∀ name ∈ b.field.spreads, (lib.built? name).isSome

theorem isSome_built?_append {more : List BuiltFragment} {name : Name}
    (h : (lib.built? name).isSome) :
    (FragmentLibrary.built? { lib with built := lib.built ++ more } name).isSome := by
  obtain ⟨b, hb⟩ := Option.isSome_iff_exists.mp h
  rw [built?_append hb, Option.isSome_some]

theorem failsOnly_interfaceOf {active : List Name} {name : Name} (h : (lib.built? name).isSome) :
    FailsOnly P (lib.interfaceOf active name) := by
  obtain ⟨b, hb⟩ := Option.isSome_iff_exists.mp h
  rw [interfaceOf, hb]
  exact .ok _

theorem failsOnly_entry {name : Name} (h : (lib.built? name).isSome) :
    FailsOnly P (lib.entry name) := by
  obtain ⟨b, hb⟩ := Option.isSome_iff_exists.mp h
  rw [entry, hb]
  exact .ok b

/-- A fragment that is ensured is in the library, and nothing is lost. -/
theorem isSome_built?_of_ensure {active : List Name} {name : Name}
    (h : lib.ensure schema d config active name = .ok lib') :
    (lib'.built? name).isSome ∧ ∀ other, (lib.built? other).isSome →
      (lib'.built? other).isSome := by
  induction active, name, lib using ensure.induct d generalizing lib' with
  | case1 active name lib hbuilt =>
    rw [ensure, if_pos hbuilt] at h
    cases h
    exact ⟨hbuilt, fun other hother ↦ hother⟩
  | case2 active name lib hbuilt hactive =>
    rw [ensure, if_neg hbuilt, dif_pos hactive] at h
    cases h
  | case3 active name lib hbuilt hactive ih =>
    rw [ensure, if_neg hbuilt, dif_neg hactive, Error.wrap_eq_ok] at h
    split at h
    · cases h
    rename_i fragment hf
    obtain ⟨field, -, h⟩ := Error.bind_eq_ok.mp h
    obtain ⟨lib₁, hfold, h⟩ := Error.bind_eq_ok.mp h
    obtain ⟨interface, -, h⟩ := Error.bind_eq_ok.mp h
    cases h
    refine ⟨?_, fun other hother ↦ isSome_built?_append ?_⟩
    · rw [built?, List.find?_isSome]
      exact ⟨_, List.mem_append_right _ (List.mem_singleton_self _), beq_self_eq_true name⟩
    · exact Error.foldlM_invariant (I := fun _ (lib : FragmentLibrary) ↦ (lib.built? other).isSome)
        (fun spread _ lib lib' hlib hok ↦ (ih fragment hf lib spread hok).2 other hlib) hother hfold

/-- All fragments that are ensured in turn are in the library. -/
theorem isSome_built?_of_foldlM {active spreads : List Name}
    (h : spreads.foldlM (fun lib spread ↦ lib.ensure schema d config active spread) lib = .ok lib')
    {name : Name} (hname : name ∈ spreads) : (lib'.built? name).isSome := by
  refine (Error.foldlM_invariant
    (I := fun rest (lib : FragmentLibrary) ↦ name ∈ rest ∨ (lib.built? name).isSome)
    (fun spread rest lib lib' hlib hok ↦ ?_) (.inl hname) h).resolve_left List.not_mem_nil
  obtain ⟨hspread, hkept⟩ := isSome_built?_of_ensure hok
  rcases hlib with hmem | hbuilt
  · rcases List.mem_cons.mp hmem with rfl | hmem
    · exact .inr hspread
    · exact .inl hmem
  · exact .inr (hkept name hbuilt)

/-- Ensuring that a fragment is built keeps a library closed. -/
theorem Closed.of_ensure {active : List Name} {name : Name} (hclosed : lib.Closed)
    (h : lib.ensure schema d config active name = .ok lib') : lib'.Closed := by
  induction active, name, lib using ensure.induct d generalizing lib' with
  | case1 active name lib hbuilt =>
    rw [ensure, if_pos hbuilt] at h
    cases h
    exact hclosed
  | case2 active name lib hbuilt hactive =>
    rw [ensure, if_neg hbuilt, dif_pos hactive] at h
    cases h
  | case3 active name lib hbuilt hactive ih =>
    rw [ensure, if_neg hbuilt, dif_neg hactive, Error.wrap_eq_ok] at h
    split at h
    · cases h
    rename_i fragment hf
    obtain ⟨field, -, h⟩ := Error.bind_eq_ok.mp h
    obtain ⟨lib₁, hfold, h⟩ := Error.bind_eq_ok.mp h
    obtain ⟨interface, -, h⟩ := Error.bind_eq_ok.mp h
    cases h
    have hclosed₁ : lib₁.Closed :=
      Error.foldlM_invariant (I := fun _ (lib : FragmentLibrary) ↦ lib.Closed)
        (fun spread _ lib lib' hlib hok ↦ ih fragment hf lib spread hlib hok) hclosed hfold
    intro b hb spread hspread
    refine isSome_built?_append ?_
    rcases List.mem_append.mp hb with hb | hb
    · exact hclosed₁ b hb spread hspread
    · cases List.mem_singleton.mp hb
      exact isSome_built?_of_foldlM hfold (NameSet.mem_ofList.mpr hspread)

/-- **Ensuring that a fragment is built fails with a report**, unless the fragment waits itself. -/
theorem failsOnly_ensure (hstarts : d.StartsComposite schema) {active : List Name} {name : Name}
    {fragment : Fragment} (hf : d.fragment? name = some fragment) :
    FailsOnly (fun e ↦ e.IsPlain ∧ name ∈ active ∨ e.Reported d)
      (lib.ensure schema d config active name) := by
  induction active, name, lib using ensure.induct d generalizing fragment with
  | case1 active name lib hbuilt =>
    rw [ensure, if_pos hbuilt]
    exact .ok lib
  | case2 active name lib hbuilt hactive =>
    rw [ensure, if_neg hbuilt, dif_pos hactive]
    exact .error (.inl ⟨trivial, hactive⟩)
  | case3 active name lib hbuilt hactive ih =>
    have htitle : d.Titles (fragmentTitle name) := by
      rw [← Document.name_of_fragment? hf]
      exact .fragment (Document.mem_of_fragment? hf)
    rw [ensure, if_neg hbuilt, dif_neg hactive]
    refine .mono (.wrap ?_ htitle) fun e he ↦ .inr he
    split
    · exact .error (.inl trivial)
    rename_i fragment' hf'
    refine .bind ((failsOnly_expandRoot _ _ _ _ _ _).mono fun e he ↦ .inl he) fun field hfield ↦ ?_
    have hexpanded := Field.Expanded.of_expandRoot hfield
    refine .bind (.foldlM (fun rest _ ↦ ∀ n ∈ rest, n ∈ field.spreads)
      (fun n hn ↦ NameSet.mem_ofList.mp hn) (fun spread rest lib hrest ↦ ?_)
      fun spread rest _ _ hrest _ n hn ↦ hrest n (List.mem_cons_of_mem spread hn))
      fun lib₁ hfold ↦ ?_
    · obtain ⟨inner, hinner⟩ := hexpanded.exists_fragment? (hrest spread List.mem_cons_self)
      refine (ih fragment' hf' lib spread hinner).mono ?_
      rintro e (⟨hplain, -⟩ | hreported)
      · exact .inl hplain
      · exact .inr hreported
    · refine .bind (hexpanded.failsOnly_modelGroup ?_ (fun n hn ↦ ?_) _ _) fun _ _ ↦ .ok _
      · exact fieldSets_ne_nil_of_expandRoot hfield
          (hstarts.fragments fragment' (Document.mem_of_fragment? hf'))
      · exact failsOnly_interfaceOf (isSome_built?_of_foldlM hfold (NameSet.mem_ofList.mpr hn))

theorem Sound.fieldSets_ne_nil (h : lib.Sound schema d config) (hstarts : d.StartsComposite schema)
    {b : BuiltFragment} (hb : b ∈ lib.built) :
    b.field.Expanded schema d config.typename ∧ b.field.fieldSets ≠ [] := by
  obtain ⟨fragment, hf, hfield⟩ := h.built b hb
  exact ⟨.of_expandRoot hfield,
    fieldSets_ne_nil_of_expandRoot hfield
      (hstarts.fragments fragment (Document.mem_of_fragment? hf))⟩

/-- The implementation of a fragment that is built can be built too. -/
theorem failsOnly_implement (hstarts : d.StartsComposite schema)
    (hsound : lib.Sound schema d config) (hclosed : lib.Closed) {name : Name}
    (h : (lib.built? name).isSome) :
    FailsOnly P (lib.implement name) := by
  refine .wrap_of_false (.bind (failsOnly_entry h) fun b hb ↦ ?_) _
  have hmem := List.mem_of_find?_eq_some (entry_eq_ok hb)
  obtain ⟨hexpanded, hne⟩ := hsound.fieldSets_ne_nil hstarts hmem
  refine .bind (hexpanded.failsOnly_modelGroup hne (fun n hn ↦ ?_) _ _) fun _ _ ↦ .ok _
  exact failsOnly_interfaceOf (hclosed b hmem n hn)

theorem built_implement {name : Name} (h : lib.implement name = .ok lib') :
    lib'.built = lib.built := by
  rw [implement, Error.wrap_eq_ok] at h
  obtain ⟨b, -, h⟩ := Error.bind_eq_ok.mp h
  obtain ⟨group, -, h⟩ := Error.bind_eq_ok.mp h
  cases h
  rfl

/-- What is known of a library when some fragments of a document are still to come. -/
structure Holds (schema : Schema) (d : Document) (config : Config) (rest : List Fragment)
    (lib : FragmentLibrary) : Prop where
  /-- What it has comes from the document. -/
  sound : lib.Sound schema d config
  /-- What is spread in its fields it has too. -/
  closed : lib.Closed
  /-- What is to come is in the document. -/
  pending : ∀ f ∈ rest, f ∈ d.fragments
  /-- All other fragments of the document are built. -/
  built : ∀ f ∈ d.fragments, f ∈ rest ∨ (lib.built? f.name).isSome

theorem holds_empty : empty.Holds schema d config d.fragments where
  sound := sound_empty
  closed _ hb := absurd hb List.not_mem_nil
  pending _ hf := hf
  built _ hf := .inl hf

/-- Building one more fragment. -/
theorem Holds.of_ensure {f : Fragment} {rest : List Fragment}
    (h : lib.Holds schema d config (f :: rest))
    (hok : lib.ensure schema d config [] f.name = .ok lib') : lib'.Holds schema d config rest where
  sound := h.sound.of_ensure hok
  closed := h.closed.of_ensure hok
  pending g hg := h.pending g (List.mem_cons_of_mem f hg)
  built g hg := by
    obtain ⟨hbuilt, hkept⟩ := isSome_built?_of_ensure hok
    rcases h.built g hg with hmem | hg
    · rcases List.mem_cons.mp hmem with rfl | hmem
      · exact .inr hbuilt
      · exact .inl hmem
    · exact .inr (hkept g.name hg)

theorem Holds.of_implement {name : Name} {rest : List Fragment} (h : lib.Holds schema d config rest)
    (hok : lib.implement name = .ok lib') : lib'.Holds schema d config rest where
  sound := h.sound.of_implement hok
  closed := by
    rw [Closed, built_implement hok]
    exact fun b hb n hn ↦ by rw [built?, built_implement hok]; exact h.closed b hb n hn
  pending := h.pending
  built g hg := by
    rw [built?, built_implement hok]
    exact h.built g hg

/-- What is done with one fragment keeps the library in order. -/
private theorem Holds.step {f : Fragment} {rest : List Fragment}
    (h : lib.Holds schema d config (f :: rest))
    (hok : (do
      let lib ← lib.ensure schema d config [] f.name
      if config.fragmentImplementations then lib.implement f.name else return lib) = .ok lib') :
    lib'.Holds schema d config rest := by
  obtain ⟨lib₁, hensure, hok⟩ := Error.bind_eq_ok.mp hok
  split at hok
  · exact (h.of_ensure hensure).of_implement hok
  · cases hok
    exact h.of_ensure hensure

/-- The library of a document has all its fragments. -/
theorem holds_ofDocument (h : ofDocument schema d config = .ok lib) :
    lib.Holds schema d config [] :=
  Error.foldlM_invariant (I := fun rest (lib : FragmentLibrary) ↦ lib.Holds schema d config rest)
    (fun _ _ _ _ hlib hok ↦ hlib.step hok) holds_empty h

/-- **Building the fragments of a document fails with a report.** -/
theorem failsOnly_ofDocument (hstarts : d.StartsComposite schema) :
    FailsOnly (Error.Reported d) (ofDocument schema d config) := by
  refine .foldlM (fun rest lib ↦ lib.Holds schema d config rest) holds_empty
    (fun f rest lib hlib ↦ ?_) fun _ _ _ _ hlib hok ↦ hlib.step hok
  obtain ⟨fragment, hf⟩ := Document.exists_fragment? (hlib.pending f List.mem_cons_self)
  refine .bind ((failsOnly_ensure hstarts hf).mono ?_) fun lib₁ hensure ↦ ?_
  · rintro e (⟨-, hactive⟩ | hreported)
    · exact absurd hactive List.not_mem_nil
    · exact hreported
  · have hlib₁ := hlib.of_ensure hensure
    split
    · exact failsOnly_implement hstarts hlib₁.sound hlib₁.closed (isSome_built?_of_ensure hensure).1
    · exact .ok lib₁

/-- The spreads of a field lead to fragments of the library only. -/
theorem failsOnly_usedFragments (hclosed : lib.Closed) {f : Field}
    (hspreads : ∀ n ∈ f.spreads, (lib.built? n).isSome) : FailsOnly P (lib.usedFragments f) := by
  have htable : ∀ n, (lib.built? n).isSome → (lib.spreadTable.lookup n).isSome := by
    intro n hn
    rw [spreadTable, isSome_lookup_map]
    obtain ⟨b, hb⟩ := Option.isSome_iff_exists.mp hn
    exact ⟨b, List.mem_of_find?_eq_some hb, by simpa using List.find?_some hb⟩
  refine .bind (failsOnly_closure (fun e he n hn ↦ ?_) fun n hn ↦ htable n (hspreads n hn))
    fun _ _ ↦ .ok _
  obtain ⟨b, hb, rfl⟩ := List.mem_map.mp he
  exact htable n (hclosed b hb n hn)

/-- The spreads of a field of the document are fragments of its library. -/
theorem Holds.isSome_built? (h : lib.Holds schema d config []) {f : Field}
    (hf : f.Expanded schema d config.typename) {n : Name} (hn : n ∈ f.spreads) :
    (lib.built? n).isSome := by
  obtain ⟨fragment, hfragment⟩ := hf.exists_fragment? hn
  have := (h.built fragment (Document.mem_of_fragment? hfragment)).resolve_left List.not_mem_nil
  rwa [Document.name_of_fragment? hfragment] at this

/-- With the library of a document its operations get their models. -/
theorem Holds.failsOnly_of_operation (h : lib.Holds schema d config [])
    (hstarts : d.StartsComposite schema) {o : Operation} (ho : o ∈ d.operations) {rootType : Name}
    (hroot : schema.root o.kind = .ok rootType) {f : Field}
    (hf : expandRoot schema d config.typename rootType o.selections [] = .ok f) :
    (∀ site, FailsOnly P (f.modelGroup (lib.interfaceOf []) site [])) ∧
      FailsOnly P (lib.usedFragments f) := by
  have hexpanded := Field.Expanded.of_expandRoot hf
  have hspreads : ∀ n ∈ f.spreads, (lib.built? n).isSome := fun n hn ↦ h.isSome_built? hexpanded hn
  refine ⟨fun site ↦ ?_, failsOnly_usedFragments h.closed hspreads⟩
  exact hexpanded.failsOnly_modelGroup (hstarts.fieldSets_ne_nil ho hroot hf)
    (fun n hn ↦ failsOnly_interfaceOf (hspreads n hn)) site []

end FragmentLibrary

/-! ## The build -/

section

variable {schema : Schema} {d : Document} {config : Config} {lib : FragmentLibrary}
  {P : Error → Prop}

theorem failsOnly_buildFragment (hlib : lib.Holds schema d config []) {f : Fragment}
    (hf : f ∈ d.fragments) : FailsOnly P (buildFragment config lib f) := by
  refine .bind (FragmentLibrary.failsOnly_entry ((hlib.built f hf).resolve_left List.not_mem_nil))
    fun b hb ↦ ?_
  refine .bind (FragmentLibrary.failsOnly_usedFragments hlib.closed fun n hn ↦ ?_) fun _ _ ↦ .ok _
  exact hlib.closed b (List.mem_of_find?_eq_some (FragmentLibrary.entry_eq_ok hb)) n hn

theorem failsOnly_buildFragments (hinputs : schema.InputTypesExist)
    (hlib : lib.Holds schema d config []) {fragments : List Fragment}
    (hfragments : ∀ f ∈ fragments, f ∈ d.fragments) (used : List Name) :
    FailsOnly (Error.Reported d) (buildFragments schema config lib fragments used) := by
  induction fragments generalizing used with
  | nil => exact .ok _
  | cons f rest ih =>
    obtain ⟨hf, hrest⟩ := List.forall_mem_cons.mp hfragments
    refine .bind (.wrap (failsOnly_buildFragment hlib hf) (.fragment hf)) fun built hbuilt ↦ ?_
    refine .bind (Schema.failsOnly_addUsedTypes hinputs fun n hn ↦ ?_) fun used _ ↦ ?_
    · obtain ⟨b, hb, hfield, -⟩ := (buildFragment_eq_ok (Error.wrap_eq_ok.mp hbuilt)).2.2
      obtain ⟨fragment, -, hexpand⟩ := hlib.sound.built b (List.mem_of_find?_eq_some hb)
      exact exists_type?_of_expandRoot hexpand (hfield ▸ hn)
    · exact .bind (ih hrest used) fun _ _ ↦ .ok _

theorem failsOnly_buildOperation (hstarts : d.StartsComposite schema)
    (hlib : lib.Holds schema d config []) {o : Operation} (ho : o ∈ d.operations) (name : Name) :
    FailsOnly Error.IsPlain (buildOperation schema d config lib name o) := by
  refine .bind ((schema.failsOnly_root o.kind).mono fun _ he ↦ he.isPlain) fun rootType hroot ↦ ?_
  refine .bind (failsOnly_expandRoot schema d config.typename rootType o.selections [])
    fun field hfield ↦ ?_
  obtain ⟨hgroup, hused⟩ := hlib.failsOnly_of_operation hstarts ho hroot hfield
  refine .bind (hgroup _) fun group _ ↦ ?_
  refine .bind (.mapM fun v _ ↦ ?_) fun inputs _ ↦ ?_
  · exact .bind ((schema.failsOnly_resolve v.type).mono fun _ he ↦ he.isPlain) fun _ _ ↦ .ok _
  · exact .bind hused fun _ _ ↦ .ok _

/-- The types that an operation uses exist. -/
theorem exists_type?_of_buildOperation {name : Name} {o : Operation} {built : OperationModels}
    (h : buildOperation schema d config lib name o = .ok built) :
    (∀ n ∈ built.field.typeNames, ∃ u, schema.type? n = some u) ∧
      ∀ v ∈ built.inputs, ∃ u, schema.type? v.type.base.name = some u := by
  obtain ⟨rootType, -, h⟩ := Error.bind_eq_ok.mp h
  obtain ⟨field, hfield, h⟩ := Error.bind_eq_ok.mp h
  obtain ⟨group, -, h⟩ := Error.bind_eq_ok.mp h
  obtain ⟨inputs, hinputs, h⟩ := Error.bind_eq_ok.mp h
  obtain ⟨names, -, h⟩ := Error.bind_eq_ok.mp h
  cases h
  refine ⟨fun n hn ↦ exists_type?_of_expandRoot hfield hn, fun v hv ↦ ?_⟩
  obtain ⟨definition, -, hdefinition⟩ := Error.exists_of_mem_mapM hinputs hv
  obtain ⟨type, htype, hdefinition⟩ := Error.bind_eq_ok.mp hdefinition
  cases hdefinition
  exact Schema.exists_type?_of_resolve htype

theorem failsOnly_buildOperations (hinputs : schema.InputTypesExist)
    (hstarts : d.StartsComposite schema) (hlib : lib.Holds schema d config [])
    {named : List (Name × Operation)}
    (hnamed : ∀ p ∈ named, p.2 ∈ d.operations ∧ p.2.name = some p.1) (used : List Name) :
    FailsOnly (Error.Reported d) (buildOperations schema d config lib named used) := by
  induction named generalizing used with
  | nil => exact .ok _
  | cons p rest ih =>
    obtain ⟨⟨hmem, hname⟩, hrest⟩ := List.forall_mem_cons.mp hnamed
    have hplain := failsOnly_buildOperation hstarts hlib hmem p.1
    refine .bind (.wrap (hplain.mono fun e he ↦ .inl he) (.operation hmem hname))
      fun built hbuilt ↦ ?_
    obtain ⟨hfield, hvariables⟩ := exists_type?_of_buildOperation (Error.wrap_eq_ok.mp hbuilt)
    refine .bind (Schema.failsOnly_addUsedTypes hinputs hfield) fun used _ ↦ ?_
    refine .bind (Schema.failsOnly_addUsedTypes hinputs fun n hn ↦ ?_) fun used _ ↦ ?_
    · obtain ⟨v, hv, rfl⟩ := List.mem_map.mp hn
      exact hvariables v hv
    · exact .bind (ih hrest used) fun _ _ ↦ .ok _

theorem Document.mem_namedOperations {p : Name × Operation} (h : p ∈ d.namedOperations) :
    p.2 ∈ d.operations ∧ p.2.name = some p.1 := by
  obtain ⟨o, ho, hp⟩ := List.mem_filterMap.mp h
  obtain ⟨name, hname, rfl⟩ := Option.map_eq_some_iff.mp hp
  exact ⟨ho, hname⟩

/-- A build fails with a report. -/
theorem failsOnly_build (hinputs : schema.InputTypesExist) (hstarts : d.StartsComposite schema) :
    FailsOnly (Error.Reported d) (build schema config d) := by
  rw [build]
  split
  · rename_i hunnamed
    obtain ⟨o, ho, hnone⟩ := List.any_eq_true.mp hunnamed
    exact .error ⟨_, _, rfl, trivial, .anonymous ho (Option.isNone_iff_eq_none.mp hnone)⟩
  · refine .bind (FragmentLibrary.failsOnly_ofDocument hstarts) fun lib hok ↦ ?_
    have hlib := FragmentLibrary.holds_ofDocument hok
    refine .bind (failsOnly_buildFragments hinputs hlib (fun f hf ↦ hf) []) fun fragments _ ↦ ?_
    refine .bind (failsOnly_buildOperations hinputs hstarts hlib
      (fun p hp ↦ Document.mem_namedOperations hp) _) fun operations _ ↦ ?_
    exact .bind (Schema.failsOnly_usedInputObjects hinputs _) fun _ _ ↦ .ok _

/-- **A build succeeds or reports a plain error with the definition it arose in.** -/
theorem build_ok_or_reports (schema : Schema) (config : Config) (d : Document)
    (hinputs : schema.InputTypesExist) (hstarts : d.StartsComposite schema) :
    (∃ ir, build schema config d = .ok ir) ∨
      ∃ definition cause, build schema config d = .error (.within definition cause) ∧
        cause.IsPlain ∧ d.Titles definition := by
  cases hbuild : build schema config d with
  | ok ir => exact .inl ⟨ir, rfl⟩
  | error e =>
    obtain ⟨definition, cause, rfl, hcause, htitle⟩ := failsOnly_build hinputs hstarts e hbuild
    exact .inr ⟨definition, cause, rfl, hcause, htitle⟩

/-- Fragments that spread each other are reported. -/
theorem build_reports_circular :
    Sample.searchable.InputTypesExist ∧ Sample.circular.StartsComposite Sample.searchable ∧
      ∃ definition cause, build Sample.searchable {} Sample.circular =
        .error (.within definition cause) ∧ cause.IsPlain ∧ Sample.circular.Titles definition := by
  have hinputs : Sample.searchable.InputTypesExist := by
    unfold Schema.InputTypesExist
    decide +kernel
  have hstarts : Sample.circular.StartsComposite Sample.searchable :=
    ⟨by decide +kernel, by decide +kernel⟩
  refine ⟨hinputs, hstarts, ?_⟩
  refine (build_ok_or_reports Sample.searchable {} Sample.circular hinputs hstarts).resolve_left ?_
  rintro ⟨ir, hir⟩
  have hfails : (build Sample.searchable {} Sample.circular).toOption.isNone := by decide +kernel
  rw [hir] at hfails
  cases hfails

end
end ResponseModels
