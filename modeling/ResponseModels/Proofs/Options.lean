import ResponseModels.Proofs.Collect.AddedTypename

/-!
# The options of a build do not interfere

A build can be asked for implementations of fragments, for models with unique names, and to add
`__typename`. What is asked for makes no difference to the rest of what is built, nor to whether it
can be built (`build_of_options`).

* Implementations are built between the interfaces of fragments, but they are not looked at when
  other fragments or operations are built, and do not fail. So two builds that differ in them have
  the same fragments in their libraries (`tracks_of_typename_eq`).
* Builds that differ in where `__typename` is added do not have the same fields, but they do once it
  is taken away. The building of models never fails, whatever the fields are, and both builds look
  up the same fragments (`tracks_bare`). The types that they use are the same but for `String`,
  which leads on to nothing (`sameOutcome_closure`).
-/

set_option autoImplicit false

namespace ResponseModels

/-! ## Implementations and models with unique names -/

/-- An operation without what is built only if it is asked for. -/
def OperationModels.withoutOptional (o : OperationModels) : OperationModels :=
  { o with flatModels := none }

/-- A fragment without what is built only if it is asked for. -/
def FragmentModels.withoutOptional (r : FragmentModels) : FragmentModels :=
  { r with implementation := none, flatModels := none }

/-- What is built, without what is built only if it is asked for. -/
def Representation.withoutOptional (ir : Representation) : Representation :=
  { ir with
    operations := ir.operations.map OperationModels.withoutOptional
    fragments := ir.fragments.map FragmentModels.withoutOptional }

theorem OperationModels.typeNames_withoutOptional (o : OperationModels) :
    o.withoutOptional.typeNames = o.typeNames := rfl

theorem FragmentModels.field_withoutOptional (r : FragmentModels) :
    r.withoutOptional.field = r.field := rfl

/-- What is looked up in a library depends on its interfaces only. -/
theorem FragmentLibrary.lookups_congr {lib lib' : FragmentLibrary} (h : lib.built = lib'.built) :
    lib.entry = lib'.entry ∧ lib.interfaceOf = lib'.interfaceOf ∧
      lib.usedFragments = lib'.usedFragments := by
  cases lib
  cases lib'
  cases h
  exact ⟨rfl, rfl, rfl⟩

section

variable {schema : Schema} {d : Document} {config config' : Config} {lib lib' : FragmentLibrary}

theorem FragmentLibrary.tracks_of_typename_eq (h : config.typename = config'.typename) :
    Tracks schema d config config' (fun _ ↦ Eq) Eq where
  name hb := congrArg BuiltFragment.name hb
  spreads hf := congrArg Field.spreads hf
  expand _ := h ▸ .refl _
  interface _ _ _ hf hlib _ active := by
    rw [List.forall₂_eq_eq_eq] at hlib
    rw [hf, (lookups_congr hlib).2.1]
    exact (SameOutcome.refl _).mono fun g g' _ _ hg ↦ by rw [hg]

theorem sameOutcome_buildFragment_optional (h : lib.built = lib'.built) (f : Fragment) :
    SameOutcome (fun r r' ↦ r.withoutOptional = r'.withoutOptional) (buildFragment config lib f)
      (buildFragment config' lib' f) := by
  obtain ⟨hentry, -, hused⟩ := FragmentLibrary.lookups_congr h
  rw [buildFragment, buildFragment, hentry, hused]
  exact .bind_same fun b _ ↦ .bind_same fun names _ ↦ .ok rfl

theorem sameOutcome_buildOperation_optional (htypename : config.typename = config'.typename)
    (h : lib.built = lib'.built) (name : Name) (o : Operation) :
    SameOutcome (fun r r' ↦ r.withoutOptional = r'.withoutOptional)
      (buildOperation schema d config lib name o)
      (buildOperation schema d config' lib' name o) := by
  obtain ⟨-, hinterfaces, hused⟩ := FragmentLibrary.lookups_congr h
  rw [buildOperation, buildOperation, htypename, hinterfaces, hused]
  exact .bind_same fun rootType _ ↦ .bind_same fun field _ ↦ .bind_same fun group _ ↦
    .bind_same fun inputs _ ↦ .bind_same fun names _ ↦ .ok rfl

/-- **Builds that differ in what they are asked for besides** come out alike. -/
theorem sameOutcome_build_optional (hstarts : d.StartsComposite schema)
    (htypename : config.typename = config'.typename) :
    SameOutcome (fun ir ir' ↦ ir.withoutOptional = ir'.withoutOptional) (build schema config d)
      (build schema config' d) := by
  have hlib := (FragmentLibrary.tracks_of_typename_eq htypename).ofDocument hstarts
  rw [List.forall₂_eq_eq_eq] at hlib
  refine (sameOutcome_build (U := Eq) (S := fun r r' ↦ r.withoutOptional = r'.withoutOptional)
    (T := fun o o' ↦ o.withoutOptional = o'.withoutOptional) hlib
    (fun lib lib' hL f _ ↦ sameOutcome_buildFragment_optional hL.1 f)
    (fun lib lib' hL p _ ↦ sameOutcome_buildOperation_optional htypename hL.1 p.1 p.2) rfl ?_
    ?_ ?_).mono ?_
  · rintro r r' used _ hr rfl
    rw [← r.field_withoutOptional, hr, r'.field_withoutOptional]
    exact .refl _
  · rintro o o' used _ ho rfl
    rw [← o.typeNames_withoutOptional, ho, o'.typeNames_withoutOptional]
    exact .refl _
  · rintro used _ rfl
    exact ⟨rfl, rfl, rfl⟩
  · rintro ir ir' - - ⟨hfragments, hoperations, hinputs, henums, hscalars⟩
    rw [Representation.withoutOptional, Representation.withoutOptional,
      map_eq_of_forall₂ hfragments, map_eq_of_forall₂ hoperations, hinputs, henums, hscalars]

end

/-! ## Types that are used besides

With `__typename` comes the type `String`. It leads on to no other, so it can be left out wherever
the table of types has it. -/

/-- A name that refers to nothing can be left out of a traversal. -/
theorem sameOutcome_closure {table table' : List (Name × List Name)} {n : Name}
    (hn : table.lookup n = some [])
    (htable : ∀ m, table'.lookup m = (table.lookup m).map (List.filter (· ≠ n)))
    (missing : Name → Error) (pending seen : List Name) :
    SameOutcome (fun r r' ↦ r.filter (· ≠ n) = r') (closure table missing pending seen)
      (closure table' missing (pending.filter (· ≠ n)) (seen.filter (· ≠ n))) := by
  induction pending, seen using closure.induct table with
  | case1 seen =>
    rw [List.filter_nil, closure_nil, closure_nil]
    exact .ok rfl
  | case2 seen m rest hm ih =>
    rw [closure_of_mem hm]
    by_cases hmn : m = n
    · rwa [List.filter_cons_of_neg (by simpa using hmn)]
    · rw [List.filter_cons_of_pos (by simpa using hmn), closure_of_mem (by simp [hm, hmn])]
      exact ih
  | case3 seen m rest hm hnone =>
    have hmn : m ≠ n := by
      rintro rfl
      rw [hnone] at hn
      cases hn
    rw [closure_of_none hm hnone, List.filter_cons_of_pos (by simpa using hmn),
      closure_of_none (by simp [hm]) (by rw [htable, hnone, Option.map_none])]
    exact .error _
  | case4 seen m rest hm next hnext ih =>
    rw [closure_of_some hm hnext]
    rw [List.filter_append, List.filter_append] at ih
    by_cases hmn : m = n
    · subst hmn
      cases hn.symm.trans hnext
      simpa using ih
    · rw [List.filter_cons_of_pos (by simpa using hmn),
        closure_of_some (by simp [hm]) (by rw [htable, hnext, Option.map_some])]
      simpa [hmn] using ih

theorem filterMapM_congr {α β : Type} {f g : α → Except Error (Option β)} {l : List α}
    (h : ∀ a ∈ l, f a = g a) :
    l.filterMapM f = l.filterMapM g := by
  induction l with
  | nil => rfl
  | cons a rest ih =>
    obtain ⟨ha, hrest⟩ := List.forall_mem_cons.mp h
    rw [List.filterMapM_cons, List.filterMapM_cons, ha, ih hrest]

namespace Schema

variable {schema : Schema} {names names' used used' : List Name}

/-- The types that names lead to are the same but for `String`, if the names are. -/
theorem sameOutcome_addUsedTypes
    (hnames : names.filter (· ≠ "String") = names'.filter (· ≠ "String"))
    (hused : used.filter (· ≠ "String") = used'.filter (· ≠ "String")) :
    SameOutcome (fun r r' ↦ r.filter (· ≠ "String") = r'.filter (· ≠ "String"))
      (schema.addUsedTypes names used) (schema.addUsedTypes names' used') := by
  have hstring : schema.inputTable.lookup "String" = some [] := rfl
  have htable :
      ∀ m, (schema.types.map fun t ↦ (t.name, t.inputTypes.filter (· ≠ "String"))).lookup m =
      (schema.inputTable.lookup m).map (List.filter (· ≠ "String")) := by
    intro m
    rw [inputTable, lookup_map, lookup_map, Option.map_map]
    rfl
  have h := sameOutcome_closure hstring htable (.unknown .type) names used
  have h' := sameOutcome_closure hstring htable (.unknown .type) names' used'
  rw [← hnames, ← hused] at h'
  refine (h.join h').mono ?_
  rintro r r' - - ⟨r₀, -, hr, hr'⟩
  exact hr.trans hr'.symm

section

variable (hstring : "String" ∉ schema.definitions.map TypeDefinition.name)
include hstring

/-- `String` is a scalar, and nothing else. -/
theorem ne_string_of_mem_types {t : TypeDefinition} (ht : t ∈ schema.types)
    (hkind : t.kind ≠ .scalar) : t.name ≠ "String" := by
  intro hname
  rcases List.mem_append.mp ht with ht | ht
  · obtain ⟨_, -, rfl⟩ := List.mem_map.mp ht
    exact hkind rfl
  · exact hstring (hname ▸ List.mem_map_of_mem ht)

theorem usedEnums_filter (used : List Name) :
    schema.usedEnums (used.filter (· ≠ "String")) = schema.usedEnums used := by
  refine List.filterMap_congr fun t ht ↦ ?_
  split
  · rename_i values hbody
    have hne := ne_string_of_mem_types hstring ht (by rw [TypeDefinition.kind, hbody]; exact nofun)
    simp [List.mem_filter, hne]
  · rfl

theorem usedInputObjects_filter (used : List Name) :
    schema.usedInputObjects (used.filter (· ≠ "String")) = schema.usedInputObjects used := by
  refine filterMapM_congr fun t ht ↦ ?_
  split
  · rename_i fields hbody
    have hne := ne_string_of_mem_types hstring ht (by rw [TypeDefinition.kind, hbody]; exact nofun)
    simp [List.mem_filter, hne]
  · rfl

end

theorem usedScalars_filter (used : List Name) :
    schema.usedScalars (used.filter (· ≠ "String")) = schema.usedScalars used := by
  refine List.filterMap_congr fun t ht ↦ ?_
  split
  · refine ite_congr (propext ?_) (fun _ ↦ rfl) fun _ ↦ rfl
    refine and_congr_left fun hcustom ↦ ?_
    have hne : t.name ≠ "String" := by
      intro hname
      exact hcustom (hname ▸ by decide)
    simp [List.mem_filter, hne]
  · rfl

/-- What is listed is the same if the names are the same but for `String`. -/
theorem used_lists_eq (hstring : "String" ∉ schema.definitions.map TypeDefinition.name)
    (h : used.filter (· ≠ "String") = used'.filter (· ≠ "String")) :
    schema.usedInputObjects used = schema.usedInputObjects used' ∧
      schema.usedEnums used = schema.usedEnums used' ∧
      schema.usedScalars used = schema.usedScalars used' := by
  rw [← usedInputObjects_filter hstring used, ← usedEnums_filter hstring used,
    ← usedScalars_filter used, h, usedInputObjects_filter hstring, usedEnums_filter hstring,
    usedScalars_filter]
  exact ⟨rfl, rfl, rfl⟩

end Schema

/-! ## Adding `__typename` -/

section

variable {schema : Schema} {d : Document} {config : Config} {lib lib₀ : FragmentLibrary}

/-- Without the `__typename` that was added, the fields of an operation are those of another. -/
structure OperationModels.BaresTo (schema : Schema) (d : Document) (o o₀ : OperationModels) :
    Prop where
  /-- The names are the same. -/
  name : o.name = o₀.name
  /-- The variables are the same. -/
  inputs : o.inputs = o₀.inputs
  /-- The field is the same without the `__typename` that was added. -/
  field : ∃ op ∈ d.operations, op.name = some o.name ∧
    o.field.withoutAdded schema d (· ∈ op.selections) = o₀.field

/-- Without the `__typename` that was added, the fields of a fragment are those of another. -/
structure FragmentModels.BaresTo (schema : Schema) (d : Document) (r r₀ : FragmentModels) :
    Prop where
  /-- The names are the same. -/
  name : r.name = r₀.name
  /-- The field is the same without the `__typename` that was added. -/
  field : ∃ fragment, d.fragment? r.name = some fragment ∧
    r.field.withoutAdded schema d (· ∈ fragment.selections) = r₀.field

/-- Without the `__typename` that was added, the fields of all that is built are those of `ir₀`,
definition by definition. -/
structure Representation.BaresTo (schema : Schema) (d : Document) (ir ir₀ : Representation) :
    Prop where
  /-- The operations correspond one by one. -/
  operations : List.Forall₂ (OperationModels.BaresTo schema d) ir.operations ir₀.operations
  /-- The fragments correspond one by one. -/
  fragments : List.Forall₂ (FragmentModels.BaresTo schema d) ir.fragments ir₀.fragments
  /-- The input objects in use are the same. -/
  inputObjects : ir.inputObjects = ir₀.inputObjects
  /-- So are the enums. -/
  enums : ir.enums = ir₀.enums
  /-- So are the scalars. -/
  scalars : ir.scalars = ir₀.scalars

/-- The configuration that never adds `__typename`. -/
def Config.bare (config : Config) : Config := { config with typename := .never }

theorem FragmentLibrary.tracks_bare (hstarts : d.StartsComposite schema) :
    Tracks schema d config config.bare
      (fun n f f₀ ↦ ∃ fragment, d.fragment? n = some fragment ∧
        f.withoutAdded schema d (· ∈ fragment.selections) = f₀) (fun b b₀ ↦ b.name = b₀.name) where
  name hb := hb
  spreads := by
    rintro n f f₀ ⟨fragment, -, rfl⟩
    exact (Field.spreads_withoutAdded _ f).symm
  expand hf := sameOutcome_expandRoot.mono fun f f₀ _ _ h ↦ ⟨_, hf, h⟩
  interface {n fragment f f₀ lib lib₀} hf hfield hfield₀ hF hlib hspreads active := by
    have hstart := hstarts.fragments fragment (Document.mem_of_fragment? hf)
    refine .of_failsOnly ?_ ?_ fun _ _ _ _ ↦ rfl
    · exact (Field.Expanded.of_expandRoot hfield).failsOnly_modelGroup
        (fieldSets_ne_nil_of_expandRoot hfield hstart)
        (fun n hn ↦ failsOnly_interfaceOf (hspreads n hn).1) _ _
    · obtain ⟨_, -, rfl⟩ := hF
      refine (Field.Expanded.of_expandRoot hfield₀).failsOnly_modelGroup
        (fieldSets_ne_nil_of_expandRoot hfield₀ hstart)
        (fun n hn ↦ failsOnly_interfaceOf (hspreads n ?_).2) _ _
      rwa [Field.spreads_withoutAdded] at hn

theorem sameOutcome_buildFragment_bare (hlib : lib.Holds schema d config [])
    (hlib₀ : lib₀.Holds schema d config.bare []) {f : Fragment} (hf : f ∈ d.fragments) :
    SameOutcome (FragmentModels.BaresTo schema d) (buildFragment config lib f)
      (buildFragment config.bare lib₀ f) := by
  refine .of_failsOnly (failsOnly_buildFragment hlib hf) (failsOnly_buildFragment hlib₀ hf)
    fun r r₀ hr hr₀ ↦ ?_
  obtain ⟨hname, -, b, hb, hfield, -⟩ := buildFragment_eq_ok hr
  obtain ⟨hname₀, -, b₀, hb₀, hfield₀, -⟩ := buildFragment_eq_ok hr₀
  obtain ⟨fragment, hfragment, hexpand⟩ := hlib.sound.built b (List.mem_of_find?_eq_some hb)
  obtain ⟨fragment₀, hfragment₀, hexpand₀⟩ := hlib₀.sound.built b₀ (List.mem_of_find?_eq_some hb₀)
  have hbname : b.name = f.name := by simpa [hname] using List.find?_some hb
  have hbname₀ : b₀.name = f.name := by simpa [hname₀] using List.find?_some hb₀
  rw [hbname] at hfragment hexpand
  rw [hbname₀] at hfragment₀ hexpand₀
  cases hfragment.symm.trans hfragment₀
  refine ⟨hname.trans hname₀.symm, fragment, hname ▸ hfragment, ?_⟩
  rw [hfield, hfield₀]
  exact sameOutcome_expandRoot.of_ok hexpand hexpand₀

theorem sameOutcome_buildOperation_bare (hstarts : d.StartsComposite schema)
    (hlib : lib.Holds schema d config []) (hlib₀ : lib₀.Holds schema d config.bare []) {name : Name}
    {op : Operation} (hop : op ∈ d.operations) (hname : op.name = some name) :
    SameOutcome (OperationModels.BaresTo schema d) (buildOperation schema d config lib name op)
      (buildOperation schema d config.bare lib₀ name op) := by
  rw [buildOperation, buildOperation]
  refine .bind_same fun rootType hroot ↦
    .bind sameOutcome_expandRoot fun field field₀ hfield hfield₀ hbare ↦ ?_
  obtain ⟨hgroup, hused⟩ := hlib.failsOnly_of_operation hstarts hop hroot hfield
  obtain ⟨hgroup₀, hused₀⟩ := hlib₀.failsOnly_of_operation hstarts hop hroot hfield₀
  refine .bind (.of_failsOnly (hgroup _) (hgroup₀ _) fun _ _ _ _ ↦ trivial) fun group group₀ _ _ _ ↦
    .bind_same fun inputs _ ↦ ?_
  refine .bind (.of_failsOnly hused hused₀ fun _ _ _ _ ↦ trivial) fun names names₀ _ _ _ ↦ ?_
  exact .ok ⟨rfl, rfl, op, hop, hname, hbare⟩

/-- **A build comes out like the one that never adds `__typename`.** -/
theorem sameOutcome_build_bare (hstarts : d.StartsComposite schema)
    (hstring : "String" ∉ schema.definitions.map TypeDefinition.name) (config : Config) :
    SameOutcome (Representation.BaresTo schema d) (build schema config d)
      (build schema config.bare d) := by
  refine (sameOutcome_build (T := OperationModels.BaresTo schema d)
    (U := fun used used₀ ↦ used.filter (· ≠ "String") = used₀.filter (· ≠ "String"))
    ((FragmentLibrary.tracks_bare hstarts).ofDocument hstarts)
    (fun lib lib₀ hL f hf ↦ sameOutcome_buildFragment_bare hL.2.1 hL.2.2 hf)
    (fun lib lib₀ hL p hp ↦ ?_) rfl ?_ ?_ fun used used₀ hU ↦ Schema.used_lists_eq hstring hU).mono
    ?_
  · obtain ⟨hop, hname⟩ := Document.mem_namedOperations hp
    exact sameOutcome_buildOperation_bare hstarts hL.2.1 hL.2.2 hop hname
  · rintro r r₀ used used₀ ⟨-, fragment, -, hfield⟩ hU
    refine Schema.sameOutcome_addUsedTypes ?_ hU
    rw [← hfield, Field.typeNames_withoutAdded]
  · rintro o o₀ used used₀ ⟨-, hinputs, op, -, -, hfield⟩ hU
    refine Schema.sameOutcome_addUsedTypes ?_ hU
    rw [OperationModels.typeNames, OperationModels.typeNames, List.filter_append,
      List.filter_append, hinputs, ← hfield, Field.typeNames_withoutAdded]
  · rintro ir ir₀ - - ⟨hfragments, hoperations, hinputs, henums, hscalars⟩
    exact ⟨hoperations, hfragments, hinputs, henums, hscalars⟩

end

/-! ## All options -/

/-- **The options of a build do not interfere with the rest.** Let the definitions of a document
start from composite types, so far as these exist.

* Two builds that differ only in whether implementations and models with unique names are wanted
  both fail, with the same error, or both succeed, and then what they give is the same but for
  these.
* Two builds that differ only in where `__typename` is added both fail, with the same error, or both
  succeed. Then the build that never adds it succeeds too, and both have its fields once the
  `__typename` in front is taken away from the field sets that do not select this name. Here no type
  that the schema defines may be called `String` like the built-in scalar: types have names of their
  own. -/
theorem build_of_options {schema : Schema} {d : Document} (hstarts : d.StartsComposite schema) :
    (∀ config config' : Config, config.typename = config'.typename →
      SameOutcome (fun ir ir' ↦ ir.withoutOptional = ir'.withoutOptional) (build schema config d)
        (build schema config' d)) ∧
    ("String" ∉ schema.definitions.map TypeDefinition.name →
      ∀ config config' : Config, config.bare = config'.bare →
      SameOutcome (fun ir ir' ↦ ∃ ir₀, build schema config.bare d = .ok ir₀ ∧
        ir.BaresTo schema d ir₀ ∧
        ir'.BaresTo schema d ir₀) (build schema config d) (build schema config' d)) := by
  refine ⟨fun config config' htypename ↦ sameOutcome_build_optional hstarts htypename,
    fun hstring config config' hrest ↦ ?_⟩
  have h := sameOutcome_build_bare hstarts hstring config
  have h' := sameOutcome_build_bare hstarts hstring config'
  rw [← hrest] at h'
  exact h.join h'

open Sample in
/-- In the sample, the implementation of a fragment is missing if it is not wanted. If `__typename`
is always added, it is there beside the animal and for its friend too, where it is not selected. -/
theorem build_of_options_tagged :
    tagged.StartsComposite schema ∧ "String" ∉ schema.definitions.map TypeDefinition.name ∧
    (∃ ir ir', build schema {} tagged = .ok ir ∧
      build schema { fragmentImplementations := false, flattenModels := true } tagged = .ok ir' ∧
      ir.fragments.all (fun r ↦ r.implementation.isSome) ∧
      ir'.fragments.all (fun r ↦ r.implementation.isNone) ∧
      ir.withoutOptional = ir'.withoutOptional) ∧
    ∃ ir ir₀, build schema { typename := .always } tagged = .ok ir ∧
      build schema { typename := .never } tagged = .ok ir₀ ∧
      (∃ o ∈ ir.operations, ∀ path ∈ [[], ["animal"], ["animal", "friend"]],
        (o.field.descend? (path ++ [Schema.typename])).isSome) ∧
      (∃ o ∈ ir₀.operations, ∀ path ∈ [[], ["animal"], ["animal", "friend"]],
        (o.field.descend? (path ++ [Schema.typename])).isSome ↔ path = ["animal"]) ∧
      ir.BaresTo schema tagged ir₀ := by
  have hstarts : tagged.StartsComposite schema := ⟨by decide +kernel, by decide +kernel⟩
  have hstring : "String" ∉ schema.definitions.map TypeDefinition.name := by decide
  obtain ⟨hoptional, hadded⟩ := build_of_options hstarts
  refine ⟨hstarts, hstring, ?_, ?_⟩
  · obtain ⟨ir, hir, hsome⟩ := Error.exists_of_any (x := build schema {} tagged)
      (p := fun ir ↦ ir.fragments.all fun r ↦ r.implementation.isSome) (by decide +kernel)
    obtain ⟨ir', hir', hnone⟩ := Error.exists_of_any
      (x := build schema { fragmentImplementations := false, flattenModels := true } tagged)
      (p := fun ir ↦ ir.fragments.all fun r ↦ r.implementation.isNone) (by decide +kernel)
    have hsame := hoptional {} { fragmentImplementations := false, flattenModels := true } rfl
    exact ⟨ir, ir', hir, hir', hsome, hnone, hsame.of_ok hir hir'⟩
  · obtain ⟨ir, hir, hall⟩ := Error.exists_of_any (x := build schema { typename := .always } tagged)
      (p := fun ir ↦ decide (∃ o ∈ ir.operations, ∀ path ∈ [[], ["animal"], ["animal", "friend"]],
        (o.field.descend? (path ++ [Schema.typename])).isSome)) (by decide +kernel)
    obtain ⟨ir₀, hir₀, hone⟩ := Error.exists_of_any
      (x := build schema { typename := .never } tagged)
      (p := fun ir ↦ decide (∃ o ∈ ir.operations, ∀ path ∈ [[], ["animal"], ["animal", "friend"]],
        (o.field.descend? (path ++ [Schema.typename])).isSome ↔ path = ["animal"]))
      (by decide +kernel)
    obtain ⟨_, hbare, hbares, -⟩ :=
      (hadded hstring { typename := .always } { typename := .never } rfl).of_ok hir hir₀
    cases hir₀.symm.trans hbare
    exact ⟨ir, ir₀, hir, hir₀, of_decide_eq_true hall, of_decide_eq_true hone, hbares⟩

end ResponseModels
