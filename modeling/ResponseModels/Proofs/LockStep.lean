import ResponseModels.Proofs.Assembly
import ResponseModels.Proofs.SeenAlike

/-!
# Builds in lock step

Two builds of a document that differ in their configuration can be gone through side by side.
`SameOutcome` says of two steps that they come out alike: both fail, with the same error, or both
succeed, with results that are related. This is kept by all that a build is put together with, so it
is enough to compare the steps that differ.

* The libraries of fragments run alike if the fields of a fragment are collected alike and its
  interface is built alike (`Tracks.ensure`). Implementations are built in between in one run and
  perhaps not in the other. They do not fail and leave what is built as it is, so they do no harm
  (`Tracks.ofDocument`).
* With this, two builds run alike if their definitions do, one by one, and the types they use are
  collected alike (`sameOutcome_build`).
-/

set_option autoImplicit false

namespace ResponseModels

/-- Two steps come out alike: both fail with the same error, or both succeed with results that are
related. -/
inductive SameOutcome {α β : Type} (R : α → β → Prop) : Except Error α → Except Error β → Prop
  | ok {a : α} {b : β} (h : R a b) : SameOutcome R (.ok a) (.ok b)
  | error (e : Error) : SameOutcome R (.error e) (.error e)

namespace SameOutcome

variable {α β γ δ : Type} {R R' : α → β → Prop} {S : γ → δ → Prop} {x : Except Error α}
  {y : Except Error β}

theorem refl (x : Except Error α) : SameOutcome Eq x x := by
  cases x with
  | ok a => exact .ok rfl
  | error e => exact .error e

theorem mono (h : SameOutcome R x y) (hR : ∀ a b, x = .ok a → y = .ok b → R a b → R' a b) :
    SameOutcome R' x y := by
  cases h with
  | ok h => exact .ok (hR _ _ rfl rfl h)
  | error e => exact .error e

theorem of_ok {a : α} {b : β} (h : SameOutcome R x y) (hx : x = .ok a) (hy : y = .ok b) :
    R a b := by
  cases h with
  | ok h =>
    cases hx
    cases hy
    exact h
  | error e => cases hx

/-- Two steps that come out like a third come out alike. -/
theorem join {z : Except Error γ} {R₀ : β → γ → Prop} {S₀ : α → γ → Prop} (hx : SameOutcome S₀ x z)
    (hy : SameOutcome R₀ y z) :
    SameOutcome (fun a b ↦ ∃ c, z = .ok c ∧ S₀ a c ∧ R₀ b c) x y := by
  cases hx with
  | ok hx =>
    cases hy with
    | ok hy => exact .ok ⟨_, rfl, hx, hy⟩
  | error e =>
    cases hy with
    | error => exact .error e

/-- Steps that do not fail come out alike. -/
theorem of_failsOnly (hx : FailsOnly (fun _ ↦ False) x) (hy : FailsOnly (fun _ ↦ False) y)
    (h : ∀ a b, x = .ok a → y = .ok b → R a b) : SameOutcome R x y := by
  obtain ⟨a, rfl⟩ := hx.exists_ok
  obtain ⟨b, rfl⟩ := hy.exists_ok
  exact .ok (h a b rfl rfl)

theorem bind {f : α → Except Error γ} {g : β → Except Error δ} (h : SameOutcome R x y)
    (hnext : ∀ a b, x = .ok a → y = .ok b → R a b → SameOutcome S (f a) (g b)) :
    SameOutcome S (x >>= f) (y >>= g) := by
  cases h with
  | ok h => exact hnext _ _ rfl rfl h
  | error e => exact .error e

/-- After the same step. -/
theorem bind_same {f : α → Except Error γ} {g : α → Except Error δ}
    (hnext : ∀ a, x = .ok a → SameOutcome S (f a) (g a)) :
    SameOutcome S (x >>= f) (x >>= g) := by
  cases x with
  | ok a => exact hnext a rfl
  | error e => exact .error e

theorem wrap (title : String) (h : SameOutcome R x y) :
    SameOutcome R (Error.wrap title x) (Error.wrap title y) := by
  cases h with
  | ok h => exact .ok h
  | error e => exact .error _

theorem mapM {ι : Type} {f : ι → Except Error α} {g : ι → Except Error β} {l : List ι}
    (h : ∀ i ∈ l, SameOutcome R (f i) (g i)) :
    SameOutcome (List.Forall₂ R) (l.mapM f) (l.mapM g) := by
  induction l with
  | nil => exact .ok .nil
  | cons i rest ih =>
    obtain ⟨hi, hrest⟩ := List.forall_mem_cons.mp h
    rw [List.mapM_cons, List.mapM_cons]
    exact hi.bind fun a b _ _ hab ↦ (ih hrest).bind fun as bs _ _ hall ↦ .ok (.cons hab hall)

/-- Runs whose steps come out alike do so. What relates their states may speak of the elements that
are still to come. -/
theorem foldlM {ι : Type} {f : α → ι → Except Error α} {g : β → ι → Except Error β}
    (I : List ι → α → β → Prop)
    (hstep : ∀ i rest a b, I (i :: rest) a b → SameOutcome (I rest) (f a i) (g b i)) {l : List ι}
    {a : α} {b : β} (h : I l a b) : SameOutcome (I []) (l.foldlM f a) (l.foldlM g b) := by
  induction l generalizing a b with
  | nil => exact .ok h
  | cons i rest ih =>
    rw [List.foldlM_cons, List.foldlM_cons]
    exact (hstep i rest a b h).bind fun a' b' _ _ h' ↦ ih h'

end SameOutcome

/-! ## Libraries -/

namespace FragmentLibrary

section

variable {schema : Schema} {d : Document} {config : Config} {lib : FragmentLibrary}
  {active : List Name} {name : Name} (hbuilt : ¬(lib.built? name).isSome) (hactive : name ∉ active)
include hbuilt hactive

theorem ensure_of_none (hf : d.fragment? name = none) :
    lib.ensure schema d config active name =
      Error.wrap (fragmentTitle name) (.error (.unknown .fragment name)) := by
  rw [ensure, if_neg hbuilt, dif_neg hactive]
  split
  · rfl
  · rename_i hsome
    rw [hf] at hsome
    cases hsome

theorem ensure_of_some {fragment : Fragment} (hf : d.fragment? name = some fragment) :
    lib.ensure schema d config active name = Error.wrap (fragmentTitle name) (do
      let field ← expandRoot schema d config.typename fragment.typeCondition
        fragment.selections [name]
      let lib ← (NameSet.ofList field.spreads).toList.foldlM
        (fun lib spread ↦ lib.ensure schema d config (active ++ [name]) spread) lib
      let interface ← field.modelGroup (lib.interfaceOf (active ++ [name]))
        ⟨.fragmentInterface name, [], name, true⟩ []
      return { lib with built := lib.built ++ [⟨name, field, interface⟩] }) := by
  rw [ensure, if_neg hbuilt, dif_neg hactive]
  split
  · rename_i hnone
    rw [hf] at hnone
    cases hnone
  · rename_i fragment' hf'
    cases hf.symm.trans hf'
    rfl

end

/-- Two configurations under which the fields of a fragment come out alike, related by `F`, and so
do the fragments that are built of them, related by `R`. -/
structure Tracks (schema : Schema) (d : Document) (config config' : Config)
    (F : Name → Field → Field → Prop) (R : BuiltFragment → BuiltFragment → Prop) : Prop where
  /-- Related fragments have the same name. -/
  name : ∀ {b b' : BuiltFragment}, R b b' → b.name = b'.name
  /-- Related fields spread the same fragments. -/
  spreads : ∀ {n : Name} {f f' : Field}, F n f f' → f.spreads = f'.spreads
  /-- Fragments are collected with the same outcome. -/
  expand : ∀ {n : Name} {fragment : Fragment}, d.fragment? n = some fragment →
    SameOutcome (F n)
      (expandRoot schema d config.typename fragment.typeCondition fragment.selections [n])
      (expandRoot schema d config'.typename fragment.typeCondition fragment.selections [n])
  /-- The interface models of a fragment come out alike, if the fragments it spreads are there. -/
  interface : ∀ {n : Name} {fragment : Fragment} {f f' : Field} {lib lib' : FragmentLibrary},
    d.fragment? n = some fragment →
    expandRoot schema d config.typename fragment.typeCondition fragment.selections [n] = .ok f →
    expandRoot schema d config'.typename fragment.typeCondition fragment.selections [n] = .ok f' →
    F n f f' → List.Forall₂ R lib.built lib'.built →
    (∀ spread ∈ f.spreads, (lib.built? spread).isSome ∧ (lib'.built? spread).isSome) →
    ∀ active : List Name, SameOutcome (fun g g' ↦ R ⟨n, f, g⟩ ⟨n, f', g'⟩)
      (f.modelGroup (lib.interfaceOf active) ⟨.fragmentInterface n, [], n, true⟩ [])
      (f'.modelGroup (lib'.interfaceOf active) ⟨.fragmentInterface n, [], n, true⟩ [])

namespace Tracks

variable {schema : Schema} {d : Document} {config config' : Config}
  {F : Name → Field → Field → Prop} {R : BuiltFragment → BuiltFragment → Prop}
  (h : Tracks schema d config config' F R) {lib lib' : FragmentLibrary}
include h

theorem isSome_built?_iff (hlib : List.Forall₂ R lib.built lib'.built) (name : Name) :
    (lib.built? name).isSome ↔ (lib'.built? name).isSome := by
  have hnames : lib.built.map BuiltFragment.name = lib'.built.map BuiltFragment.name :=
    map_eq_of_forall₂ (hlib.imp fun _ _ hb ↦ h.name hb)
  rw [built?, built?, List.find?_isSome, List.find?_isSome]
  simp only [beq_iff_eq, ← List.mem_map, hnames]

/-- **Ensuring that a fragment is built comes out alike.** -/
theorem ensure {active : List Name} {name : Name} (hlib : List.Forall₂ R lib.built lib'.built) :
    SameOutcome (fun l l' ↦ List.Forall₂ R l.built l'.built)
      (lib.ensure schema d config active name) (lib'.ensure schema d config' active name) := by
  induction active, name, lib using ensure.induct d generalizing lib' with
  | case1 active name lib hbuilt =>
    have hbuilt' := (h.isSome_built?_iff hlib name).mp hbuilt
    rw [FragmentLibrary.ensure, if_pos hbuilt, FragmentLibrary.ensure, if_pos hbuilt']
    exact .ok hlib
  | case2 active name lib hbuilt hactive =>
    have hbuilt' := mt (h.isSome_built?_iff hlib name).mpr hbuilt
    rw [FragmentLibrary.ensure, if_neg hbuilt, dif_pos hactive, FragmentLibrary.ensure,
      if_neg hbuilt', dif_pos hactive]
    exact .error _
  | case3 active name lib hbuilt hactive ih =>
    have hbuilt' := mt (h.isSome_built?_iff hlib name).mpr hbuilt
    cases hf : d.fragment? name with
    | none =>
      rw [ensure_of_none hbuilt hactive hf, ensure_of_none hbuilt' hactive hf]
      exact .error _
    | some fragment =>
      rw [ensure_of_some hbuilt hactive hf, ensure_of_some hbuilt' hactive hf]
      refine .wrap _ (.bind (h.expand hf) fun f f' hfield hfield' hF ↦ ?_)
      have hspreads := h.spreads hF
      rw [hspreads]
      refine .bind (.foldlM (fun _ l l' ↦ List.Forall₂ R l.built l'.built)
        (fun spread _ l l' hl ↦ ih fragment hf l spread hl) hlib) fun l l' hfold hfold' hl ↦ ?_
      refine .bind (h.interface hf hfield hfield' hF hl (fun spread hspread ↦ ?_) _)
        fun g g' _ _ hR ↦ ?_
      · rw [hspreads] at hspread
        exact ⟨isSome_built?_of_foldlM hfold (NameSet.mem_ofList.mpr hspread),
          isSome_built?_of_foldlM hfold' (NameSet.mem_ofList.mpr hspread)⟩
      · exact .ok (List.rel_append hl (.cons hR .nil))

end Tracks

/-- What is done with a fragment after its interface is built does not fail, and keeps what is
built. -/
theorem implement_if_wanted {schema : Schema} {d : Document} {config : Config}
    {lib : FragmentLibrary} {rest : List Fragment} {name : Name}
    (hstarts : d.StartsComposite schema) (hlib : lib.Holds schema d config rest)
    (hbuilt : (lib.built? name).isSome) (wanted : Bool) :
    ∃ lib', (if wanted then lib.implement name else return lib) = .ok lib' ∧
      lib'.built = lib.built ∧
      lib'.Holds schema d config rest := by
  cases wanted with
  | false => exact ⟨lib, rfl, rfl, hlib⟩
  | true =>
    have hnever : FailsOnly (fun _ ↦ False) (lib.implement name) :=
      failsOnly_implement hstarts hlib.sound hlib.closed hbuilt
    obtain ⟨lib', hok⟩ := hnever.exists_ok
    exact ⟨lib', hok, built_implement hok, hlib.of_implement hok⟩

/-- **The libraries of a document come out alike**, whether implementations are wanted or not. -/
theorem Tracks.ofDocument {schema : Schema} {d : Document} {config config' : Config}
    {F : Name → Field → Field → Prop} {R : BuiltFragment → BuiltFragment → Prop}
    (h : Tracks schema d config config' F R) (hstarts : d.StartsComposite schema) :
    SameOutcome (fun lib lib' ↦ List.Forall₂ R lib.built lib'.built ∧ lib.Holds schema d config [] ∧
      lib'.Holds schema d config' []) (ofDocument schema d config)
        (ofDocument schema d config') := by
  refine SameOutcome.foldlM (fun rest (lib lib' : FragmentLibrary) ↦
    List.Forall₂ R lib.built lib'.built ∧ lib.Holds schema d config rest ∧
    lib'.Holds schema d config' rest) (fun f rest lib lib' hlib ↦ ?_)
      ⟨.nil, holds_empty, holds_empty⟩
  obtain ⟨hall, hholds, hholds'⟩ := hlib
  refine .bind (h.ensure hall) fun l l' hensure hensure' hl ↦ ?_
  obtain ⟨l₁, hok, hbuilt, hl₁⟩ :=
    implement_if_wanted hstarts (hholds.of_ensure hensure) (isSome_built?_of_ensure hensure).1
      config.fragmentImplementations
  obtain ⟨l₁', hok', hbuilt', hl₁'⟩ := implement_if_wanted hstarts (hholds'.of_ensure hensure')
    (isSome_built?_of_ensure hensure').1 config'.fragmentImplementations
  rw [hok, hok']
  exact .ok ⟨hbuilt ▸ hbuilt' ▸ hl, hl₁, hl₁'⟩

end FragmentLibrary

/-! ## Builds -/

section

variable {schema : Schema} {d : Document} {config config' : Config} {lib lib' : FragmentLibrary}
  {S : FragmentModels → FragmentModels → Prop} {T : OperationModels → OperationModels → Prop}
  {U : List Name → List Name → Prop}

theorem sameOutcome_buildFragments {fragments : List Fragment}
    (hbuild : ∀ f ∈ fragments,
      SameOutcome S (buildFragment config lib f) (buildFragment config' lib' f))
    (htypes : ∀ r r' used used', S r r' → U used used' →
      SameOutcome U (schema.addUsedTypes r.field.typeNames used)
        (schema.addUsedTypes r'.field.typeNames used'))
    {used used' : List Name} (hused : U used used') :
    SameOutcome (fun p p' ↦ List.Forall₂ S p.1 p'.1 ∧ U p.2 p'.2)
      (buildFragments schema config lib fragments used)
      (buildFragments schema config' lib' fragments used') := by
  induction fragments generalizing used used' with
  | nil => exact .ok ⟨.nil, hused⟩
  | cons f rest ih =>
    obtain ⟨hf, hrest⟩ := List.forall_mem_cons.mp hbuild
    rw [buildFragments, buildFragments]
    refine .bind (.wrap _ hf) fun r r' _ _ hr ↦
      .bind (htypes r r' used used' hr hused) fun used₁ used₁' _ _ hused₁ ↦ ?_
    exact .bind (ih hrest hused₁) fun p p' _ _ hp ↦ .ok ⟨.cons hr hp.1, hp.2⟩

theorem sameOutcome_buildOperations {named : List (Name × Operation)}
    (hbuild : ∀ p ∈ named, SameOutcome T (buildOperation schema d config lib p.1 p.2)
      (buildOperation schema d config' lib' p.1 p.2))
    (htypes : ∀ o o' used used', T o o' → U used used' →
      SameOutcome U (schema.addUsedTypes o.typeNames used) (schema.addUsedTypes o'.typeNames used'))
    {used used' : List Name} (hused : U used used') :
    SameOutcome (fun p p' ↦ List.Forall₂ T p.1 p'.1 ∧ U p.2 p'.2)
      (buildOperations schema d config lib named used)
      (buildOperations schema d config' lib' named used') := by
  induction named generalizing used used' with
  | nil => exact .ok ⟨.nil, hused⟩
  | cons p rest ih =>
    obtain ⟨hp, hrest⟩ := List.forall_mem_cons.mp hbuild
    rw [buildOperations, buildOperations]
    refine .bind (.wrap _ hp) fun o o' _ _ ho ↦ ?_
    -- The types of the fields and those of the variables are collected in one go.
    have hboth := htypes o o' used used' ho hused
    rw [OperationModels.typeNames, OperationModels.typeNames, Schema.addUsedTypes_append,
      Schema.addUsedTypes_append] at hboth
    have hrest := hboth.bind fun used₁ used₁' _ _ hused₁ ↦ (ih hrest hused₁).bind
      (S := fun p p' ↦ List.Forall₂ T p.1 p'.1 ∧ U p.2 p'.2) (f := fun p ↦ .ok (o :: p.1, p.2))
      (g := fun p ↦ .ok (o' :: p.1, p.2)) fun p p' _ _ hp ↦ .ok ⟨.cons ho hp.1, hp.2⟩
    rw [bind_assoc, bind_assoc] at hrest
    exact hrest

/-- **Two builds come out alike if their parts do.** -/
theorem sameOutcome_build {L : FragmentLibrary → FragmentLibrary → Prop}
    (hlib : SameOutcome L (FragmentLibrary.ofDocument schema d config)
      (FragmentLibrary.ofDocument schema d config'))
    (hfragments : ∀ lib lib', L lib lib' → ∀ f ∈ d.fragments,
      SameOutcome S (buildFragment config lib f) (buildFragment config' lib' f))
    (hoperations : ∀ lib lib', L lib lib' → ∀ p ∈ d.namedOperations,
      SameOutcome T (buildOperation schema d config lib p.1 p.2)
        (buildOperation schema d config' lib' p.1 p.2))
    (hnone : U [] [])
    (hfragmentTypes : ∀ r r' used used', S r r' → U used used' →
      SameOutcome U (schema.addUsedTypes r.field.typeNames used)
        (schema.addUsedTypes r'.field.typeNames used'))
    (hoperationTypes : ∀ o o' used used', T o o' → U used used' →
      SameOutcome U (schema.addUsedTypes o.typeNames used) (schema.addUsedTypes o'.typeNames used'))
    (hlists : ∀ used used', U used used' →
      schema.usedInputObjects used = schema.usedInputObjects used' ∧
      schema.usedEnums used = schema.usedEnums used' ∧
      schema.usedScalars used = schema.usedScalars used') :
    SameOutcome (fun ir ir' ↦ List.Forall₂ S ir.fragments ir'.fragments ∧
      List.Forall₂ T ir.operations ir'.operations ∧
      ir.inputObjects = ir'.inputObjects ∧ ir.enums = ir'.enums ∧ ir.scalars = ir'.scalars)
      (build schema config d) (build schema config' d) := by
  rw [build, build]
  split
  · exact .error _
  refine .bind hlib fun lib lib' _ _ hL ↦ ?_
  refine .bind (sameOutcome_buildFragments (hfragments lib lib' hL) hfragmentTypes hnone)
    fun p p' _ _ hp ↦ ?_
  refine .bind (sameOutcome_buildOperations (hoperations lib lib' hL) hoperationTypes hp.2)
    fun q q' _ _ hq ↦ ?_
  obtain ⟨hinputs, henums, hscalars⟩ := hlists q.2 q'.2 hq.2
  simp only [hinputs]
  exact .bind (.refl _) fun inputs inputs' _ _ heq ↦ .ok ⟨hp.1, hq.1, heq, henums, hscalars⟩

end
end ResponseModels
