import ResponseModels.Proofs.Cycles

/-!
# Building a library again

In which order the fragments of a document are built is decided on the way: each one after those
spread in it, wherever the first of them is needed. What comes out for a fragment does not depend on
that. It is determined by its own field and by the interfaces of the fragments spread in it.

* Models that are built from some interfaces are built from any others that agree with them on the
  fragments spread in the field (`Field.yields_modelGroup`).
* So a library can be built again, from the same fields, with any part of it there already
  (`FragmentLibrary.PartOf.exists_ensure`). The fragments that wait for others all come later in the
  library, so there is no circle now if there was none before.
* In the end **two documents whose fragments have the same fields have the same library**
  (`FragmentLibrary.exists_ofDocument`), up to its order.
-/

set_option autoImplicit false

namespace ResponseModels

/-! ## Steps that do at least as well as others -/

section

variable {α β : Type}

/-- Where one step succeeds so does the other, with the same result. -/
def Yields (x y : Except Error α) : Prop := ∀ a, x = .ok a → y = .ok a

namespace Yields

theorem refl (x : Except Error α) : Yields x x := fun _ h ↦ h

theorem bind {x y : Except Error α} {f g : α → Except Error β} (h : Yields x y)
    (hfg : ∀ a, Yields (f a) (g a)) :
    Yields (x >>= f) (y >>= g) := by
  intro b hb
  obtain ⟨a, ha, hb⟩ := Error.bind_eq_ok.mp hb
  exact Error.bind_eq_ok.mpr ⟨a, h a ha, hfg a b hb⟩

theorem mapM {f g : α → Except Error β} {l : List α} (h : ∀ a ∈ l, Yields (f a) (g a)) :
    Yields (l.mapM f) (l.mapM g) := by
  induction l with
  | nil => exact .refl _
  | cons a rest ih =>
    rw [List.mapM_cons, List.mapM_cons]
    exact .bind (h a List.mem_cons_self) fun b ↦
      .bind (ih fun a' ha' ↦ h a' (List.mem_cons_of_mem a ha')) fun bs ↦ .refl _

theorem foldlM {f g : β → α → Except Error β} {l : List α} {b : β}
    (h : ∀ b, ∀ a ∈ l, Yields (f b a) (g b a)) :
    Yields (l.foldlM f b) (l.foldlM g b) := by
  induction l generalizing b with
  | nil => exact .refl _
  | cons a rest ih =>
    rw [List.foldlM_cons, List.foldlM_cons]
    exact .bind (h b a List.mem_cons_self) fun b' ↦
      ih fun b a' ha' ↦ h b a' (List.mem_cons_of_mem a ha')

end Yields

/-- A run of steps succeeds if each does wherever the others lead to. -/
theorem Error.exists_foldlM {f : β → α → Except Error β} {I : β → Prop} {l : List α} {b : β}
    (hb : I b) (h : ∀ b, I b → ∀ a ∈ l, ∃ b', f b a = .ok b' ∧ I b') :
    ∃ b', l.foldlM f b = .ok b' ∧ I b' := by
  induction l generalizing b with
  | nil => exact ⟨b, rfl, hb⟩
  | cons a rest ih =>
    obtain ⟨b₁, hb₁, hI₁⟩ := h b hb a List.mem_cons_self
    obtain ⟨b₂, hb₂, hI₂⟩ := ih hI₁ fun b hb a' ha' ↦ h b hb a' (List.mem_cons_of_mem a ha')
    exact ⟨b₂, by rw [List.foldlM_cons]; exact Error.bind_eq_ok.mpr ⟨b₁, hb₁, hb₂⟩, hI₂⟩

end

/-! ## Models -/

section

variable {interfaces interfaces' : Name → Except Error ModelGroup}

theorem yields_supers {f : Field} {inherited : List ModelGroup} {built : List BuiltModel}
    {p : PlannedModel} (h : ∀ n ∈ p.fieldSet.fragments, Yields (interfaces n) (interfaces' n)) :
    Yields (supers interfaces f inherited built p) (supers interfaces' f inherited built p) := by
  rw [supers, supers]
  split
  · exact .refl _
  · exact .bind (.refl _) fun wider ↦ .bind (.mapM h) fun spread ↦ .refl _

theorem yields_accessors {f : Field} {site : Site} {plan : List PlannedModel} {p : PlannedModel}
    (h : ∀ n ∈ f.fragments, Yields (interfaces n) (interfaces' n)) :
    Yields (accessors interfaces f site plan p) (accessors interfaces' f site plan p) := by
  refine .bind (.mapM fun n hn ↦ ?_) fun fragments ↦ .refl _
  have hmem : n ∈ f.fragments := by
    split at hn
    · exact hn
    · exact absurd hn List.not_mem_nil
  exact .bind (h n hmem) fun g ↦ .refl _

theorem yields_property {sups : List Model} {k : Field}
    {group group' : List ModelGroup → Except Error ModelGroup}
    (h : ∀ inherited, Yields (group inherited) (group' inherited)) :
    Yields (property sups k group) (property sups k group') := by
  rw [property, property]
  split
  · exact .refl _
  · rw [map_eq_pure_bind, map_eq_pure_bind]
    exact .bind (.bind (h _) fun g ↦ .refl _) fun g ↦ .refl _

/-- **Models are determined by the interfaces of the fragments that are spread.** -/
theorem Field.yields_modelGroup {f : Field}
    (h : ∀ n ∈ f.spreads, Yields (interfaces n) (interfaces' n)) (site : Site)
    (inherited : List ModelGroup) :
    Yields (f.modelGroup interfaces site inherited) (f.modelGroup interfaces' site inherited) := by
  induction hsize : f.size using Nat.strong_induction_on generalizing f site inherited with
  | _ size ih =>
    have hspread : ∀ s ∈ f.fieldSets, ∀ n ∈ s.fragments, n ∈ f.spreads :=
      fun s hs n hn ↦ Field.mem_spreads.mpr (.inr ⟨s, hs, .inl hn⟩)
    have hdeeper : ∀ s ∈ f.fieldSets, ∀ k ∈ s.fields, ∀ n ∈ k.spreads, n ∈ f.spreads :=
      fun s hs k hk n hn ↦ Field.mem_spreads.mpr (.inr ⟨s, hs, .inr ⟨k, hk, hn⟩⟩)
    rw [modelGroup_eq, modelGroup_eq]
    split
    · exact .refl _
    split
    · exact .refl _
    refine .bind (.foldlM fun built p hp ↦ ?_) fun built ↦ .refl _
    have hs := fieldSet_mem_of_mem_plan hp
    refine .bind (yields_supers fun n hn ↦ h n (hspread _ hs n hn)) fun sups ↦ ?_
    refine .bind (.mapM fun k hk ↦ yields_property fun inherited ↦ ?_) fun properties ↦ ?_
    · exact ih k.size (hsize ▸ size_lt_of_mem hs hk) (fun n hn ↦
        h n (hdeeper _ hs k hk n hn)) _ _ rfl
    · exact .bind (yields_accessors fun n hn ↦ h n (Field.mem_spreads.mpr (.inl hn)))
        fun accessors ↦ .refl _

end

/-! ## Libraries -/

namespace FragmentLibrary

variable {schema : Schema} {d d' : Document} {config : Config} {lib lib' whole : FragmentLibrary}

/-- What has been built of a library. -/
structure PartOf (lib whole : FragmentLibrary) : Prop where
  /-- A fragment that was built is the same in the whole. -/
  built : ∀ {name b}, lib.built? name = some b → whole.built? name = some b
  /-- So is one that was implemented. -/
  implementation : ∀ {name g}, lib.implementation? name = some g →
    whole.implementation? name = some g

theorem partOf_empty : empty.PartOf whole where
  built h := by cases h
  implementation h := by cases h

/-- One document has the fragments of another, with the same fields. -/
def Retains (schema : Schema) (policy : TypenamePolicy) (d d' : Document) : Prop :=
  ∀ name fragment field, d.fragment? name = some fragment →
    expandRoot schema d policy fragment.typeCondition fragment.selections [name] = .ok field →
    ∃ fragment', d'.fragment? name = some fragment' ∧
      expandRoot schema d' policy fragment'.typeCondition fragment'.selections [name] = .ok field

/-- Two libraries have the same entries, whatever their order. -/
structure Matches (lib lib' : FragmentLibrary) : Prop where
  /-- A fragment is built the same in both. -/
  built (name : Name) : lib.built? name = lib'.built? name
  /-- It is implemented the same in both. -/
  implementation (name : Name) : lib.implementation? name = lib'.implementation? name

/-- The interfaces of a part are those that the whole is built from. -/
theorem PartOf.yields_interfaceOf (hpart : lib.PartOf whole) (hwired : whole.Wired)
    {interfaces : Name → Except Error ModelGroup} (hoffers : Offers whole.built interfaces)
    {active : List Name} {name : Name} (hbuilt : (lib.built? name).isSome) :
    Yields (interfaces name) (lib.interfaceOf active name) := by
  intro g hg
  obtain ⟨b, hb, rfl, rfl⟩ := hoffers name g hg
  obtain ⟨c, hc⟩ := Option.isSome_iff_exists.mp hbuilt
  cases (hpart.built hc).symm.trans (hwired.built?_eq_some hb)
  rw [interfaceOf, hc]

/-- One more entry of the whole. -/
theorem PartOf.snoc {name : Name} {b : BuiltFragment} (hpart : lib.PartOf whole)
    (hb : whole.built? name = some b) :
    PartOf { lib with built := lib.built ++ [⟨name, b.field, b.interface⟩] } whole where
  implementation h := hpart.implementation h
  built := by
    intro other c hc
    have hname : b.name = name := by simpa using List.find?_some hb
    rw [built?, List.find?_append] at hc
    rcases Option.or_eq_some_iff.mp hc with hc | ⟨-, hc⟩
    · exact hpart.built hc
    · cases List.mem_singleton.mp (List.mem_of_find?_eq_some hc)
      have hother : name = other := by simpa using List.find?_some hc
      subst hother hname
      exact hb

/-- What is spread in a fragment has an earlier position in the library. -/
theorem idxOf_lt_of_ofDocument (h : ofDocument schema d config = .ok lib) {name other : Name}
    {b : BuiltFragment} (hb : lib.built? name = some b) (hother : other ∈ b.field.spreads) :
    (lib.built.map BuiltFragment.name).idxOf other <
      (lib.built.map BuiltFragment.name).idxOf name := by
  have hname : b.name = name := by simpa using List.find?_some hb
  exact hname ▸ (layered_ofDocument h).idxOf_lt (wired_ofDocument h).stacked.nodup
    (List.mem_of_find?_eq_some hb) hother

section

variable (hwhole : ofDocument schema d config = .ok whole)
include hwhole

/-- **A part of a library can be extended** to any fragment of it, if all that wait for the fragment
come later. -/
theorem PartOf.exists_ensure (hretains : Retains schema config.typename d d') {active : List Name}
    {name : Name} {b : BuiltFragment} (hpart : lib.PartOf whole) (hb : whole.built? name = some b)
    (hactive : ∀ a ∈ active,
      (whole.built.map BuiltFragment.name).idxOf name <
        (whole.built.map BuiltFragment.name).idxOf a) :
    ∃ lib', lib.ensure schema d' config active name = .ok lib' ∧ lib'.PartOf whole := by
  induction hposition : (whole.built.map BuiltFragment.name).idxOf name using
    Nat.strong_induction_on generalizing active name b lib with
  | _ position ih =>
    subst hposition
    by_cases hbuilt : (lib.built? name).isSome
    · exact ⟨lib, by rw [ensure, if_pos hbuilt], hpart⟩
    have hfree : name ∉ active := fun hmem ↦ Nat.lt_irrefl _ (hactive name hmem)
    have hwired := wired_ofDocument hwhole
    have hmem := List.mem_of_find?_eq_some hb
    have hname : b.name = name := by simpa using List.find?_some hb
    obtain ⟨fragment, hf, hfield⟩ := (sound_ofDocument hwhole).exists_fragment hb
    obtain ⟨fragment', hf', hfield'⟩ := hretains name fragment b.field hf hfield
    -- The fragments spread in this one come earlier in the library, so before all that wait.
    obtain ⟨lib₁, hfold, hpart₁⟩ :=
      Error.exists_foldlM (I := fun lib : FragmentLibrary ↦ lib.PartOf whole)
        (f := fun lib spread ↦ lib.ensure schema d' config (active ++ [name]) spread)
        (l := (NameSet.ofList b.field.spreads).toList) hpart fun lib hlib spread hspread ↦ by
          have hspread : spread ∈ b.field.spreads := NameSet.mem_ofList.mp hspread
          have hlt := idxOf_lt_of_ofDocument hwhole hb hspread
          obtain ⟨c, hc⟩ :=
            Option.isSome_iff_exists.mp ((holds_ofDocument hwhole).closed b hmem spread hspread)
          refine ih _ hlt hlib hc (fun a ha ↦ ?_) rfl
          rcases List.mem_append.mp ha with ha | ha
          · exact Nat.lt_trans hlt (hactive a ha)
          · exact List.mem_singleton.mp ha ▸ hlt
    obtain ⟨interfaces, hoffers, hgroup⟩ := hwired.stacked.exists_interfaces hmem
    have hinterfaces : ∀ n ∈ b.field.spreads,
        Yields (interfaces n) (lib₁.interfaceOf (active ++ [name]) n) := fun n hn ↦
      hpart₁.yields_interfaceOf hwired hoffers
        (isSome_built?_of_foldlM hfold (NameSet.mem_ofList.mpr hn))
    have hgroup' := Field.yields_modelGroup hinterfaces _ _ _ hgroup
    refine ⟨_, ?_, hpart₁.snoc hb⟩
    rw [ensure, if_neg hbuilt, dif_neg hfree, Error.wrap_eq_ok]
    split
    · rename_i hnone
      rw [hf'] at hnone
      cases hnone
    rename_i fragment'' hf''
    cases hf'.symm.trans hf''
    rw [hname] at hgroup'
    exact Error.bind_eq_ok.mpr ⟨_, hfield',
      Error.bind_eq_ok.mpr ⟨_, hfold, Error.bind_eq_ok.mpr ⟨_, hgroup', rfl⟩⟩⟩

/-- A fragment of a part can be implemented as in the whole. -/
theorem PartOf.exists_implement {name : Name} {b : BuiltFragment} {g : ModelGroup}
    (hpart : lib.PartOf whole) (hclosed : lib.Closed) (hb : lib.built? name = some b)
    (hg : whole.implementation? name = some g) :
    ∃ lib', lib.implement name = .ok lib' ∧ lib'.PartOf whole := by
  have hwired := wired_ofDocument hwhole
  obtain ⟨before, after, heq, -⟩ := List.lookup_eq_some_iff.mp hg
  obtain ⟨c, hc, interfaces, hname, hoffers, hgroup⟩ :=
    hwired.implementations (name, g) (by simp [heq])
  subst hname
  cases (hpart.built hb).symm.trans (hwired.built?_eq_some hc)
  have hinterfaces : ∀ n ∈ b.field.spreads,
      Yields (interfaces n) (lib.interfaceOf [] n) := fun n hn ↦
    hpart.yields_interfaceOf hwired hoffers (hclosed b (List.mem_of_find?_eq_some hb) n hn)
  have hgroup' := Field.yields_modelGroup hinterfaces _ _ _ hgroup
  have hentry : lib.entry b.name = .ok b := by rw [entry, hb]
  refine ⟨_, Error.wrap_eq_ok.mpr (Error.bind_eq_ok.mpr ⟨b, hentry,
    Error.bind_eq_ok.mpr ⟨g, hgroup', rfl⟩⟩), ?_⟩
  refine ⟨hpart.built, fun {other g'} hg' ↦ ?_⟩
  rw [implementation?, List.lookup_append] at hg'
  rcases Option.or_eq_some_iff.mp hg' with hg' | ⟨-, hg'⟩
  · exact hpart.implementation hg'
  · rw [List.lookup_cons] at hg'
    split at hg'
    · rename_i hsame
      cases hg'
      rw [beq_iff_eq.mp hsame]
      exact hg
    · cases hg'

end

/-! ## Which fragments are implemented -/

theorem implementations_ensure {active : List Name} {name : Name}
    (h : lib.ensure schema d config active name = .ok lib') :
    lib'.implementations = lib.implementations := by
  induction active, name, lib using ensure.induct d generalizing lib' with
  | case1 active name lib hbuilt =>
    rw [ensure, if_pos hbuilt] at h
    cases h
    rfl
  | case2 active name lib hbuilt hactive =>
    rw [ensure, if_neg hbuilt, dif_pos hactive] at h
    cases h
  | case3 active name lib hbuilt hactive ih =>
    rw [ensure, if_neg hbuilt, dif_neg hactive, Error.wrap_eq_ok] at h
    split at h
    · cases h
    rename_i fragment hf
    obtain ⟨field, -, h⟩ := Error.bind_eq_ok.mp h
    obtain ⟨lib₁, hfold, h⟩ := Error.bind_eq_ok.mp h
    obtain ⟨interface, -, h⟩ := Error.bind_eq_ok.mp h
    cases h
    have hkept : lib₁.implementations = lib.implementations :=
      Error.foldlM_invariant (I := fun _ (lib₁ : FragmentLibrary) ↦
        lib₁.implementations = lib.implementations)
        (fun spread _ lib lib' hlib hok ↦ (ih fragment hf lib spread hok).trans hlib) rfl hfold
    exact hkept

theorem isSome_implementation?_of_implement {name : Name} (h : lib.implement name = .ok lib')
    (other : Name) :
    (lib'.implementation? other).isSome ↔ (lib.implementation? other).isSome ∨ other = name := by
  rw [implement, Error.wrap_eq_ok] at h
  obtain ⟨b, -, h⟩ := Error.bind_eq_ok.mp h
  obtain ⟨g, -, h⟩ := Error.bind_eq_ok.mp h
  cases h
  rw [implementation?, implementation?, List.lookup_append, Option.isSome_or, Bool.or_eq_true,
    List.lookup_cons]
  refine or_congr_right ?_
  split
  · rename_i hsame
    simpa using hsame
  · rename_i hother
    simpa using hother

/-- **All fragments of a document are implemented, or none.** -/
theorem isSome_implementation?_ofDocument (h : ofDocument schema d config = .ok lib) (name : Name) :
    (lib.implementation? name).isSome ↔ config.fragmentImplementations = true ∧
      ∃ f ∈ d.fragments, f.name = name := by
  -- What is implemented already, and what is still to come.
  have hrun : ∀ {rest : List Fragment} {start : FragmentLibrary},
      rest.foldlM (fun lib fragment ↦ do
        let lib ← lib.ensure schema d config [] fragment.name
        if config.fragmentImplementations then lib.implement fragment.name else return lib)
        start = .ok lib →
      ((lib.implementation? name).isSome ↔ (start.implementation? name).isSome ∨
        config.fragmentImplementations = true ∧ ∃ f ∈ rest, f.name = name) := by
    intro rest start hrest
    induction rest generalizing start with
    | nil =>
      cases hrest
      simp
    | cons f rest ih =>
      rw [List.foldlM_cons] at hrest
      obtain ⟨next, hnext, hrest⟩ := Error.bind_eq_ok.mp hrest
      obtain ⟨lib₁, hensure, hnext⟩ := Error.bind_eq_ok.mp hnext
      have hkept : lib₁.implementation? name = start.implementation? name := by
        rw [implementation?, implementations_ensure hensure, implementation?]
      rw [ih hrest]
      split at hnext
      · rename_i hwanted
        rw [isSome_implementation?_of_implement hnext, hkept, or_assoc, eq_comm (a := name)]
        simp [hwanted]
      · rename_i hwanted
        cases hnext
        rw [hkept]
        simp [hwanted]
  rw [hrun h]
  simp [empty, implementation?]

theorem Closed.of_implement {name : Name} (h : lib.Closed) (hok : lib.implement name = .ok lib') :
    lib'.Closed := by
  intro b hb other hother
  rw [built_implement hok] at hb
  rw [built?, built_implement hok]
  exact h b hb other hother

/-- A part can be extended as the fragments of a document are taken in turn. -/
theorem PartOf.exists_next (hwhole : ofDocument schema d config = .ok whole)
    (hretains : Retains schema config.typename d d') (hpart : lib.PartOf whole)
    (hclosed : lib.Closed) {f : Fragment} (hf : f ∈ d.fragments) :
    ∃ lib', (do
      let lib ← lib.ensure schema d' config [] f.name
      if config.fragmentImplementations then lib.implement f.name else return lib) = .ok lib' ∧
      lib'.PartOf whole ∧ lib'.Closed := by
  have hbuilt := ((holds_ofDocument hwhole).built f hf).resolve_left List.not_mem_nil
  obtain ⟨b, hb⟩ := Option.isSome_iff_exists.mp hbuilt
  obtain ⟨lib₁, hensure, hpart₁⟩ := hpart.exists_ensure hwhole hretains hb fun a ha ↦
    absurd ha List.not_mem_nil
  have hclosed₁ := hclosed.of_ensure hensure
  by_cases hwanted : config.fragmentImplementations = true
  · obtain ⟨b₁, hb₁⟩ := Option.isSome_iff_exists.mp (isSome_built?_of_ensure hensure).1
    obtain ⟨g, hg⟩ := Option.isSome_iff_exists.mp
      ((isSome_implementation?_ofDocument hwhole f.name).mpr ⟨hwanted, f, hf, rfl⟩)
    obtain ⟨lib₂, himplement, hpart₂⟩ := hpart₁.exists_implement hwhole hclosed₁ hb₁ hg
    exact ⟨lib₂, Error.bind_eq_ok.mpr ⟨lib₁, hensure, (if_pos hwanted).trans himplement⟩, hpart₂,
      hclosed₁.of_implement himplement⟩
  · exact ⟨lib₁, Error.bind_eq_ok.mpr ⟨lib₁, hensure, if_neg hwanted⟩, hpart₁, hclosed₁⟩

/-- **A library can be built again** from another document, if its fragments have the same
fields. -/
theorem exists_ofDocument (hwhole : ofDocument schema d config = .ok whole)
    (hretains : Retains schema config.typename d d')
    (hnames : ∀ f' ∈ d'.fragments, ∃ f ∈ d.fragments, f.name = f'.name) :
    ∃ lib, ofDocument schema d' config = .ok lib ∧ lib.Matches whole := by
  obtain ⟨lib, hlib, hpart, -⟩ :=
    Error.exists_foldlM (I := fun lib : FragmentLibrary ↦ lib.PartOf whole ∧ lib.Closed)
      (l := d'.fragments) (f := fun lib fragment ↦ do
        let lib ← lib.ensure schema d' config [] fragment.name
        if config.fragmentImplementations then lib.implement fragment.name else return lib)
      ⟨partOf_empty, fun b hb ↦ absurd hb List.not_mem_nil⟩ fun lib hlib f' hf' ↦ by
        obtain ⟨f, hf, hname⟩ := hnames f' hf'
        exact hname ▸ hlib.1.exists_next hwhole hretains hlib.2 hf
  -- Every fragment of the whole is one of the document, so nothing is left out.
  have hall : ∀ {name b}, whole.built? name = some b → ∃ f' ∈ d'.fragments, f'.name = name := by
    intro name b hb
    obtain ⟨fragment, hf, hfield⟩ := (sound_ofDocument hwhole).exists_fragment hb
    obtain ⟨fragment', hf', -⟩ := hretains name fragment b.field hf hfield
    exact ⟨fragment', Document.mem_of_fragment? hf', Document.name_of_fragment? hf'⟩
  have hbuilt : ∀ name, lib.built? name = whole.built? name := by
    intro name
    cases hb : whole.built? name with
    | none =>
      exact Option.eq_none_iff_forall_ne_some.mpr fun c hc ↦ by cases hb.symm.trans (hpart.built hc)
    | some b =>
      obtain ⟨f', hf', rfl⟩ := hall hb
      obtain ⟨c, hc⟩ := Option.isSome_iff_exists.mp
        (((holds_ofDocument hlib).built f' hf').resolve_left List.not_mem_nil)
      rw [hc, ← hb, hpart.built hc]
  refine ⟨lib, hlib, hbuilt, fun name ↦ ?_⟩
  cases hg : whole.implementation? name with
  | none =>
    exact Option.eq_none_iff_forall_ne_some.mpr fun c hc ↦ by
      cases hg.symm.trans (hpart.implementation hc)
  | some g =>
    obtain ⟨hwanted, f, hf, rfl⟩ :=
      (isSome_implementation?_ofDocument hwhole name).mp (by rw [hg, Option.isSome_some])
    obtain ⟨b, hb⟩ := Option.isSome_iff_exists.mp
      (((holds_ofDocument hwhole).built f hf).resolve_left List.not_mem_nil)
    obtain ⟨c, hc⟩ := Option.isSome_iff_exists.mp
      ((isSome_implementation?_ofDocument hlib f.name).mpr ⟨hwanted, hall hb⟩)
    rw [hc, ← hg, hpart.implementation hc]

/-! ## What is read from a library -/

namespace Matches

variable (h : lib.Matches lib')
include h

theorem entry_eq (name : Name) : lib.entry name = lib'.entry name := by rw [entry, entry, h.built]

theorem interfaceOf_eq (active : List Name) : lib.interfaceOf active = lib'.interfaceOf active := by
  funext name
  rw [interfaceOf, interfaceOf, h.built]

theorem usedFragments_eq (f : Field) : lib.usedFragments f = lib'.usedFragments f := by
  have hlookup : ∀ name, lib.spreadTable.lookup name = lib'.spreadTable.lookup name := by
    intro name
    rw [spreadTable, spreadTable, lookup_map, lookup_map, ← built?, ← built?, h.built]
  rw [usedFragments, usedFragments, closure_congr hlookup]

end Matches
end FragmentLibrary
end ResponseModels
