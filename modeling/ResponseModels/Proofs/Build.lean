import ResponseModels.Build

/-!
# Where the parts of a representation come from

A build goes through the fragments and operations of a document and hands a growing library of
fragments along. Here it is said once where each part of the result comes from, so that what is
known of expanding fields and of building models can be carried over to the results of a build:

* the field and the models of an operation come from an operation of the document
  (`exists_operation_of_build`);
* the field of a fragment, and its implementation models, come from a fragment of the document
  (`exists_fragment_of_build`).
-/

set_option autoImplicit false

namespace ResponseModels

theorem Error.wrap_eq_ok {α : Type} {definition : String} {r : Except Error α} {a : α} :
    Error.wrap definition r = .ok a ↔ r = .ok a := by
  cases r with
  | error e =>
    constructor
    · intro h; cases h
    · intro h; cases h
  | ok b => exact Iff.rfl

/-- What each step of a run keeps the whole run keeps. An invariant may speak of the elements that
are still to come. -/
theorem Error.foldlM_invariant {α β : Type} {f : β → α → Except Error β} {I : List α → β → Prop}
    {l : List α} {b b' : β}
    (hstep : ∀ a rest b b', I (a :: rest) b → f b a = .ok b' → I rest b') (hb : I l b)
    (h : l.foldlM f b = .ok b') : I [] b' := by
  induction l generalizing b with
  | nil =>
    cases h
    exact hb
  | cons a rest ih =>
    rw [List.foldlM_cons] at h
    obtain ⟨next, hnext, h⟩ := Error.bind_eq_ok.mp h
    exact ih (hstep a rest b next hb hnext) h

/-! ## The library of fragments -/

namespace FragmentLibrary

/-- What is known of a library: its fields come from the fragments of the document, and its
implementations are models of these fields. -/
structure Sound (schema : Schema) (d : Document) (config : Config) (lib : FragmentLibrary) :
    Prop where
  /-- What was built of a fragment comes from its selections. -/
  built : ∀ b ∈ lib.built, ∃ fragment, d.fragment? b.name = some fragment ∧
    expandRoot schema d config.typename fragment.typeCondition fragment.selections [b.name] =
      .ok b.field
  /-- What implements a fragment are models of its field, below its interface. -/
  implementations : ∀ p ∈ lib.implementations, ∃ b interfaceOf, lib.built? p.1 = some b ∧
    b.field.modelGroup interfaceOf ⟨.fragmentImplementation p.1, [], p.1, false⟩
      [b.interface] = .ok p.2

variable {schema : Schema} {d : Document} {config : Config} {lib lib' : FragmentLibrary}

theorem sound_empty : empty.Sound schema d config where
  built _ hb := absurd hb List.not_mem_nil
  implementations _ hp := absurd hp List.not_mem_nil

/-- Entries are only added at the end, so those that are there stay. -/
theorem built?_append {more : List BuiltFragment} {name : Name} {b : BuiltFragment}
    (h : lib.built? name = some b) :
    FragmentLibrary.built? { lib with built := lib.built ++ more } name = some b := by
  rw [built?] at h ⊢
  rw [List.find?_append, h, Option.some_or]

/-- Ensuring that a fragment is built keeps a library sound. -/
theorem Sound.of_ensure {active : List Name} {name : Name} (hs : lib.Sound schema d config)
    (h : lib.ensure schema d config active name = .ok lib') : lib'.Sound schema d config := by
  induction active, name, lib using ensure.induct d generalizing lib' with
  | case1 active name lib hbuilt =>
    rw [ensure, if_pos hbuilt] at h
    cases h
    exact hs
  | case2 active name lib hbuilt hactive =>
    rw [ensure, if_neg hbuilt, dif_pos hactive] at h
    cases h
  | case3 active name lib hbuilt hactive ih =>
    rw [ensure, if_neg hbuilt, dif_neg hactive, Error.wrap_eq_ok] at h
    split at h
    · cases h
    rename_i fragment hf
    obtain ⟨field, hfield, h⟩ := Error.bind_eq_ok.mp h
    obtain ⟨lib₁, hfold, h⟩ := Error.bind_eq_ok.mp h
    obtain ⟨interface, -, h⟩ := Error.bind_eq_ok.mp h
    cases h
    have hs₁ : lib₁.Sound schema d config :=
      Error.foldlM_invariant (I := fun _ lib ↦ lib.Sound schema d config)
        (fun spread _ lib lib' hlib hok ↦ ih fragment hf lib spread hlib hok) hs hfold
    refine ⟨fun b hb ↦ ?_, fun p hp ↦ ?_⟩
    · rcases List.mem_append.mp hb with hb | hb
      · exact hs₁.built b hb
      · cases List.mem_singleton.mp hb
        exact ⟨fragment, hf, hfield⟩
    · obtain ⟨b, interfaceOf, hb, hgroup⟩ := hs₁.implementations p hp
      exact ⟨b, interfaceOf, built?_append hb, hgroup⟩

theorem entry_eq_ok {name : Name} {b : BuiltFragment} (h : lib.entry name = .ok b) :
    lib.built? name = some b := by
  rw [entry] at h
  split at h
  · rename_i hb
    cases h
    exact hb
  · cases h

/-- Building an implementation keeps a library sound. -/
theorem Sound.of_implement {name : Name} (hs : lib.Sound schema d config)
    (h : lib.implement name = .ok lib') : lib'.Sound schema d config := by
  rw [implement, Error.wrap_eq_ok] at h
  obtain ⟨b, hb, h⟩ := Error.bind_eq_ok.mp h
  obtain ⟨group, hgroup, h⟩ := Error.bind_eq_ok.mp h
  cases h
  refine ⟨hs.built, fun p hp ↦ ?_⟩
  rcases List.mem_append.mp hp with hp | hp
  · exact hs.implementations p hp
  · cases List.mem_singleton.mp hp
    exact ⟨b, _, entry_eq_ok hb, hgroup⟩

/-- **The library of a document is sound.** -/
theorem sound_ofDocument (h : ofDocument schema d config = .ok lib) :
    lib.Sound schema d config := by
  refine Error.foldlM_invariant (I := fun _ lib ↦ lib.Sound schema d config)
    (fun fragment _ lib lib' hs hok ↦ ?_) sound_empty h
  obtain ⟨lib₁, hensure, hok⟩ := Error.bind_eq_ok.mp hok
  have hs₁ := hs.of_ensure hensure
  split at hok
  · exact hs₁.of_implement hok
  · cases hok
    exact hs₁

/-- The entry of a name is for the fragment of that name. -/
theorem Sound.exists_fragment {name : Name} {b : BuiltFragment} (hs : lib.Sound schema d config)
    (h : lib.built? name = some b) :
    ∃ fragment, d.fragment? name = some fragment ∧
      expandRoot schema d config.typename fragment.typeCondition fragment.selections [name] =
        .ok b.field := by
  have hname : b.name = name := by simpa using List.find?_some h
  exact hname ▸ hs.built b (List.mem_of_find?_eq_some h)

theorem Sound.modelGroup_of_implementation? {name : Name} {b : BuiltFragment} {g : ModelGroup}
    (hs : lib.Sound schema d config) (hb : lib.built? name = some b)
    (h : lib.implementation? name = some g) :
    ∃ interfaceOf, b.field.modelGroup interfaceOf
      ⟨.fragmentImplementation name, [], name, false⟩ [b.interface] = .ok g := by
  obtain ⟨l₁, l₂, heq, -⟩ := List.lookup_eq_some_iff.mp h
  have hmem : (name, g) ∈ lib.implementations := by simp [heq]
  obtain ⟨b', interfaceOf, hb', hgroup⟩ := hs.implementations _ hmem
  cases hb.symm.trans hb'
  exact ⟨interfaceOf, hgroup⟩

end FragmentLibrary

/-! ## The parts of a representation -/

section

variable {schema : Schema} {d : Document} {config : Config} {ir : Representation}

theorem exists_of_mem_buildOperations {lib : FragmentLibrary} {named : List (Name × Operation)}
    {operations : List OperationModels} {used used' : List Name}
    (h : buildOperations schema d config lib named used = .ok (operations, used'))
    {o : OperationModels} (ho : o ∈ operations) :
    ∃ p ∈ named, buildOperation schema d config lib p.1 p.2 = .ok o := by
  induction named generalizing operations used with
  | nil =>
    cases h
    exact absurd ho List.not_mem_nil
  | cons p rest ih =>
    rw [buildOperations] at h
    obtain ⟨built, hbuilt, h⟩ := Error.bind_eq_ok.mp h
    obtain ⟨used₁, -, h⟩ := Error.bind_eq_ok.mp h
    obtain ⟨used₂, -, h⟩ := Error.bind_eq_ok.mp h
    obtain ⟨⟨others, used₃⟩, hothers, h⟩ := Error.bind_eq_ok.mp h
    cases h
    rcases List.mem_cons.mp ho with rfl | ho
    · exact ⟨p, List.mem_cons_self, Error.wrap_eq_ok.mp hbuilt⟩
    · obtain ⟨p', hp', hok⟩ := ih hothers ho
      exact ⟨p', List.mem_cons_of_mem p hp', hok⟩

theorem exists_of_mem_buildFragments {lib : FragmentLibrary} {fragments : List Fragment}
    {results : List FragmentModels} {used used' : List Name}
    (h : buildFragments schema config lib fragments used = .ok (results, used'))
    {r : FragmentModels} (hr : r ∈ results) :
    ∃ f ∈ fragments, buildFragment config lib f = .ok r := by
  induction fragments generalizing results used with
  | nil =>
    cases h
    exact absurd hr List.not_mem_nil
  | cons f rest ih =>
    rw [buildFragments] at h
    obtain ⟨built, hbuilt, h⟩ := Error.bind_eq_ok.mp h
    obtain ⟨used₁, -, h⟩ := Error.bind_eq_ok.mp h
    obtain ⟨⟨others, used₂⟩, hothers, h⟩ := Error.bind_eq_ok.mp h
    cases h
    rcases List.mem_cons.mp hr with rfl | hr
    · exact ⟨f, List.mem_cons_self, Error.wrap_eq_ok.mp hbuilt⟩
    · obtain ⟨f', hf', hok⟩ := ih hothers hr
      exact ⟨f', List.mem_cons_of_mem f hf', hok⟩

theorem build_eq_ok (h : build schema config d = .ok ir) :
    ∃ lib used used' used'', FragmentLibrary.ofDocument schema d config = .ok lib ∧
      buildFragments schema config lib d.fragments used = .ok (ir.fragments, used') ∧
      buildOperations schema d config lib d.namedOperations used' =
        .ok (ir.operations, used'') := by
  rw [build] at h
  split at h
  · cases h
  obtain ⟨lib, hlib, h⟩ := Error.bind_eq_ok.mp h
  obtain ⟨⟨fragments, used⟩, hfragments, h⟩ := Error.bind_eq_ok.mp h
  obtain ⟨⟨operations, used'⟩, hoperations, h⟩ := Error.bind_eq_ok.mp h
  obtain ⟨inputObjects, -, h⟩ := Error.bind_eq_ok.mp h
  cases h
  exact ⟨lib, [], used, used', hlib, hfragments, hoperations⟩

/-- What an operation is built from. -/
theorem buildOperation_eq_ok {lib : FragmentLibrary} {name : Name} {op : Operation}
    {o : OperationModels} (h : buildOperation schema d config lib name op = .ok o) :
    o.name = name ∧ ∃ rootType, schema.root op.kind = .ok rootType ∧
      expandRoot schema d config.typename rootType op.selections [] = .ok o.field ∧
      o.field.modelGroup (lib.interfaceOf []) ⟨.operation o.name, [], dataModelName, false⟩ [] =
        .ok o.group := by
  rw [buildOperation] at h
  obtain ⟨rootType, hroot, h⟩ := Error.bind_eq_ok.mp h
  obtain ⟨field, hfield, h⟩ := Error.bind_eq_ok.mp h
  obtain ⟨group, hgroup, h⟩ := Error.bind_eq_ok.mp h
  obtain ⟨inputs, -, h⟩ := Error.bind_eq_ok.mp h
  obtain ⟨fragmentNames, -, h⟩ := Error.bind_eq_ok.mp h
  cases h
  exact ⟨rfl, rootType, hroot, hfield, hgroup⟩

/-- What a fragment is built from. -/
theorem buildFragment_eq_ok {lib : FragmentLibrary} {f : Fragment} {r : FragmentModels}
    (h : buildFragment config lib f = .ok r) :
    r.name = f.name ∧ r.implementation = lib.implementation? r.name ∧
      ∃ b, lib.built? r.name = some b ∧ r.field = b.field ∧ r.interface = b.interface := by
  rw [buildFragment] at h
  obtain ⟨b, hb, h⟩ := Error.bind_eq_ok.mp h
  obtain ⟨fragmentNames, -, h⟩ := Error.bind_eq_ok.mp h
  cases h
  exact ⟨rfl, rfl, b, FragmentLibrary.entry_eq_ok hb, rfl, rfl⟩

/-- **An operation of the result** has the fields that an operation of the document selects, and
their models. -/
theorem exists_operation_of_build (h : build schema config d = .ok ir) {o : OperationModels}
    (ho : o ∈ ir.operations) :
    ∃ op ∈ d.operations, op.name = some o.name ∧ ∃ rootType interfaceOf,
      schema.root op.kind = .ok rootType ∧
      expandRoot schema d config.typename rootType op.selections [] = .ok o.field ∧
      o.field.modelGroup interfaceOf ⟨.operation o.name, [], dataModelName, false⟩ [] =
        .ok o.group := by
  obtain ⟨lib, _, _, _, -, -, hoperations⟩ := build_eq_ok h
  obtain ⟨⟨name, op⟩, hop, hok⟩ := exists_of_mem_buildOperations hoperations ho
  obtain ⟨op', hop', hnamed⟩ := List.mem_filterMap.mp hop
  obtain ⟨name', hname, heq⟩ := Option.map_eq_some_iff.mp hnamed
  cases heq
  obtain ⟨rfl, rootType, hroot, hfield, hgroup⟩ := buildOperation_eq_ok hok
  exact ⟨op, hop', hname, rootType, _, hroot, hfield, hgroup⟩

/-- **A fragment of the result** has the fields that a fragment of the document selects, and its
implementation models, if there are any, are models of them. -/
theorem exists_fragment_of_build (h : build schema config d = .ok ir) {r : FragmentModels}
    (hr : r ∈ ir.fragments) :
    ∃ fragment, d.fragment? r.name = some fragment ∧
      expandRoot schema d config.typename fragment.typeCondition fragment.selections [r.name] =
        .ok r.field ∧
      ∀ g, r.implementation = some g → ∃ interfaceOf inherited,
        r.field.modelGroup interfaceOf ⟨.fragmentImplementation r.name, [], r.name, false⟩
          inherited = .ok g := by
  obtain ⟨lib, _, _, _, hlib, hfragments, -⟩ := build_eq_ok h
  obtain ⟨f, -, hok⟩ := exists_of_mem_buildFragments hfragments hr
  obtain ⟨-, himplementation, b, hbuilt, hfield, -⟩ := buildFragment_eq_ok hok
  have hs := FragmentLibrary.sound_ofDocument hlib
  obtain ⟨fragment, hf, hroot⟩ := hs.exists_fragment hbuilt
  rw [hfield]
  refine ⟨fragment, hf, hroot, fun g hg ↦ ?_⟩
  obtain ⟨interfaceOf, hgroup⟩ := hs.modelGroup_of_implementation? hbuilt (himplementation ▸ hg)
  exact ⟨interfaceOf, _, hgroup⟩

end
end ResponseModels
