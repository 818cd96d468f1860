import ResponseModels.Proofs.Model.Naming
import ResponseModels.Proofs.Model.Tree

/-!
# Ids are addresses

The id of a model names the tree it is in and the way to it, so a representation finds every model
by its id (`Representation.model?`), and no two models have the same one. This rests on the names of
the models of a group, on the response names of the properties of a model, and on the names of
operations and of fragments: each of these tells its own apart from the others.

It is shown from the leaves up: if the groups beneath a group are `Addressed`, so is the group
(`Field.addressed`). All ids that a model mentions are ids of models of the representation, so each
of them is found in the same way (`ids_are_addresses`).
-/

set_option autoImplicit false

namespace ResponseModels

/-! ## Statements -/

/-- Operations have different names, and so have fragments. -/
structure Document.UniqueNames (d : Document) : Prop where
  /-- No two operations have one name. -/
  operations : (d.operations.filterMap Operation.name).Nodup
  /-- No two fragments have one name. -/
  fragments : (d.fragments.map Fragment.name).Nodup

namespace Representation

/-- The group at the root of a tree. -/
def root? (ir : Representation) : ModelRoot → Option ModelGroup
  | .operation name => (ir.operation? name).map OperationModels.group
  | .fragmentInterface name => (ir.fragment? name).map FragmentModels.interface
  | .fragmentImplementation name => (ir.fragment? name).bind FragmentModels.implementation

/-- The model that an id leads to, from the root of its tree. -/
def model? (ir : Representation) (id : ModelId) : Option Model :=
  (ir.root? id.root).bind fun g ↦ g.at? (id.path.map some)

/-- An accessor of a model of a group leads where it says: to the base model of a fragment's
interface, or to the model of a type set in the same group. -/
def Resolves (ir : Representation) (g : ModelGroup) : Accessor → Prop
  | .fragment name target => ∃ r ∈ ir.fragments, r.name = name ∧ r.interface.baseId = target ∧
      ∃ n ∈ r.interface.models, n.isBase = true ∧ ir.model? target = some n
  | .subtype typeSet target => ∃ n ∈ g.models, n.typeSet = typeSet ∧ ir.model? target = some n

end Representation

/-! ## One tree -/

theorem ModelGroup.at?_singleton (g : ModelGroup) (name : String) :
    g.at? [some name] = g.named? name := by
  rw [at?]
  cases g.named? name <;> rfl

/-- A path goes on in the group of a property. -/
theorem ModelGroup.at?_property {g inner : ModelGroup} {m : Model} {p : Property} {name : String}
    {responseName : Name} (hm : g.named? name = some m) (hp : m.property? responseName = some p)
    (hinner : p.group = some inner) (next : Option String) (rest : List (Option String)) :
    g.at? (some name :: some responseName :: next :: rest) = inner.at? (next :: rest) := by
  rw [at?]
  simp [hm, hp, hinner]

/-- The models of a group, and those beneath, have ids that lead to them from an address, and no two
have the same. -/
structure Addressed (root : ModelRoot) (path : List String) (g : ModelGroup) : Prop where
  /-- The id of a model goes on from the address, and it leads to the model. -/
  found : ∀ m ∈ g.models, ∀ n ∈ m :: m.beneath, ∃ rest,
    n.id = ⟨root, path ++ m.name :: rest⟩ ∧ g.at? (some m.name :: rest.map some) = some n
  /-- No two models have the same id. -/
  nodup : (g.allModels.map Model.id).Nodup

theorem Addressed.exists_path {root : ModelRoot} {path : List String} {g : ModelGroup}
    (h : Addressed root path g) {n : Model} (hn : n ∈ g.allModels) :
    ∃ name rest, n.id = ⟨root, path ++ name :: rest⟩ ∧
      g.at? (some name :: rest.map some) = some n := by
  rw [ModelGroup.allModels_eq] at hn
  obtain ⟨m, hm, hn⟩ := List.mem_flatMap.mp hn
  exact ⟨m.name, h.found m hm n hn⟩

/-- Models whose ids continue a common path in different ways have no id in common. -/
theorem disjoint_ids {root : ModelRoot} {path : List String} {a b : String} (hab : a ≠ b)
    {l l' : List Model} (hl : ∀ m ∈ l, ∃ rest, m.id = ⟨root, path ++ a :: rest⟩)
    (hl' : ∀ m ∈ l', ∃ rest, m.id = ⟨root, path ++ b :: rest⟩) :
    (l.map Model.id).Disjoint (l'.map Model.id) := by
  intro id hid hid'
  obtain ⟨m, hm, rfl⟩ := List.mem_map.mp hid
  obtain ⟨m', hm', heq⟩ := List.mem_map.mp hid'
  obtain ⟨rest, hrest⟩ := hl m hm
  obtain ⟨rest', hrest'⟩ := hl' m' hm'
  rw [hrest, hrest', ModelId.mk.injEq, List.append_cancel_left_eq, List.cons.injEq] at heq
  exact hab heq.2.1.symm

section step

variable {root : ModelRoot} {path : List String} {g : ModelGroup}
  (hids : ∀ m ∈ g.models, m.id = ⟨root, path ++ [m.name]⟩)
  (hnames : (g.models.map Model.name).Nodup)
  (hresponseNames : ∀ m ∈ g.models, (m.properties.map fun p ↦ p.info.responseName).Nodup)
  (hinner : ∀ m ∈ g.models, ∀ p ∈ m.properties, ∀ inner, p.group = some inner →
    Addressed root (path ++ [m.name, p.info.responseName]) inner)
include hinner

/-- The ids beneath a model go on with a response name and the name of a model. -/
theorem id_of_mem_models {m : Model} (hm : m ∈ g.models) {p : Property} (hp : p ∈ m.properties)
    {n : Model} (hn : n ∈ p.models) :
    ∃ name rest, n.id = ⟨root, (path ++ [m.name]) ++ p.info.responseName :: name :: rest⟩ := by
  obtain ⟨inner, hgroup, hn⟩ := Property.mem_models_iff.mp hn
  obtain ⟨name, rest, hid, -⟩ := (hinner m hm p hp inner hgroup).exists_path hn
  exact ⟨name, rest, by rw [hid]; simp⟩

include hresponseNames

theorem nodup_ids_beneath {m : Model} (hm : m ∈ g.models) : (m.beneath.map Model.id).Nodup := by
  rw [Model.beneath_eq, List.map_flatMap, List.nodup_flatMap]
  constructor
  · intro p hp
    cases hgroup : p.group with
    | none => simp [Property.models, hgroup]
    | some inner => simpa [Property.models, hgroup] using (hinner m hm p hp inner hgroup).nodup
  · have hpath : ∀ p ∈ m.properties, ∀ n ∈ p.models, ∃ rest,
        n.id = ⟨root, (path ++ [m.name]) ++ p.info.responseName :: rest⟩ := by
      intro p hp n hn
      obtain ⟨name, rest, hid⟩ := id_of_mem_models hinner hm hp hn
      exact ⟨name :: rest, hid⟩
    refine (List.pairwise_map.mp (hresponseNames m hm)).imp_of_mem fun {p q} hp hq hne ↦ ?_
    exact disjoint_ids hne (hpath p hp) (hpath q hq)

include hids hnames

/-- A group is addressed if the groups beneath it are. -/
theorem Addressed.of_beneath : Addressed root path g := by
  have hfound : ∀ m ∈ g.models, ∀ n ∈ m :: m.beneath, ∃ rest,
      n.id = ⟨root, path ++ m.name :: rest⟩ ∧ g.at? (some m.name :: rest.map some) = some n := by
    intro m hm n hn
    have hnamed : g.named? m.name = some m := find?_of_nodup hnames hm
    rcases List.mem_cons.mp hn with rfl | hn
    · exact ⟨[], hids n hm, (g.at?_singleton n.name).trans hnamed⟩
    · obtain ⟨p, hp, inner, hgroup, hn⟩ := Model.mem_beneath_iff.mp hn
      have hproperty : m.property? p.info.responseName = some p :=
        find?_of_nodup (hresponseNames m hm) hp
      obtain ⟨name, rest, hid, hat⟩ := (hinner m hm p hp inner hgroup).exists_path hn
      refine ⟨p.info.responseName :: name :: rest, by rw [hid]; simp, ?_⟩
      exact (ModelGroup.at?_property hnamed hproperty hgroup _ _).trans hat
  refine ⟨hfound, ?_⟩
  rw [ModelGroup.allModels_eq, List.map_flatMap, List.nodup_flatMap]
  constructor
  · intro m hm
    rw [List.map_cons, List.nodup_cons]
    refine ⟨fun hmem ↦ ?_, nodup_ids_beneath hresponseNames hinner hm⟩
    -- The id of the model itself is too short to be one beneath it.
    obtain ⟨n, hn, heq⟩ := List.mem_map.mp hmem
    rw [Model.beneath_eq] at hn
    obtain ⟨p, hp, hn⟩ := List.mem_flatMap.mp hn
    obtain ⟨name, rest, hid⟩ := id_of_mem_models hinner hm hp hn
    rw [hid, hids m hm] at heq
    simp at heq
  · have hpath : ∀ m ∈ g.models, ∀ n ∈ m :: m.beneath, ∃ rest,
        n.id = ⟨root, path ++ m.name :: rest⟩ := by
      intro m hm n hn
      obtain ⟨rest, hid, -⟩ := hfound m hm n hn
      exact ⟨rest, hid⟩
    refine (List.pairwise_map.mp hnames).imp_of_mem fun {m m'} hm hm' hne ↦ ?_
    exact disjoint_ids hne (hpath m hm) (hpath m' hm')

end step

/-- **The tree that is built for a field is addressed.** -/
theorem Field.addressed {schema : Schema} {d : Document} {policy : TypenamePolicy}
    {interfaces : Name → Except Error ModelGroup} {f : Field} {site : Site}
    {inherited : List ModelGroup} {g : ModelGroup}
    (h : f.modelGroup interfaces site inherited = .ok g)
    (hf : ∃ field, expandField schema d policy field = .ok f) :
    Addressed site.root site.path g := by
  refine modelGroup_induct (motive := fun f site _ g ↦
    (∃ field, expandField schema d policy field = .ok f) → Addressed site.root site.path g)
    (fun f site inherited g h ih hf ↦ ?_) h hf
  obtain ⟨built, hraises, hmodels, hplanned, -⟩ := raises_of_modelGroup h
  obtain ⟨field, hf⟩ := hf
  obtain ⟨s, hs⟩ := List.exists_mem_of_ne_nil _ (modelGroup_eq_ok h).1
  obtain ⟨survey, hu⟩ := unfolds_of_expandField hf (isComposite_of_mem_fieldSets hf hs)
  have hbuilt : ∀ m ∈ g.models, ∃ b ∈ built, b.model = m ∧ b.planned.fieldSet ∈ f.fieldSets := by
    intro m hm
    rw [hmodels] at hm
    obtain ⟨b, hb, rfl⟩ := List.mem_map.mp hm
    exact ⟨b, hb, rfl, fieldSet_mem_of_mem_plan (hplanned ▸ List.mem_map_of_mem hb)⟩
  refine .of_beneath (fun m hm ↦ ?_) ?_ (fun m hm ↦ ?_) fun m hm p hp inner hinner ↦ ?_
  · obtain ⟨b, hb, rfl, -⟩ := hbuilt m hm
    rw [(hraises.keeps hb).id, (hraises.keeps hb).name]
    rfl
  · have hnames : g.models.map Model.name = (f.plan site).map PlannedModel.name := by
      rw [hmodels, ← hplanned, List.map_map, List.map_map]
      exact List.map_congr_left fun b hb ↦ (hraises.keeps hb).name
    exact hnames ▸ f.nodup_names_plan site
  · obtain ⟨b, hb, rfl, hset⟩ := hbuilt m hm
    obtain ⟨_, _, -, hfollows⟩ := hraises.exists_follows hb
    exact hfollows.nodup_responseNames hu hset
  · obtain ⟨b, hb, rfl, hset⟩ := hbuilt m hm
    obtain ⟨_, _, -, hfollows⟩ := hraises.exists_follows hb
    obtain ⟨k, hk, hinfo, hgroup⟩ := hfollows.nested hp hinner
    have hcollected : ∃ field, expandField schema d policy field = .ok k := by
      rcases hu.exists_of_mem_fields hset hk with rfl | ⟨_, -, declaration, -, hdeclaration⟩
      · exact absurd rfl (modelGroup_eq_ok hgroup).1
      · exact ⟨declaration, hdeclaration⟩
    have haddressed := ih _ hset k hk _ _ inner hgroup hcollected
    rw [(hraises.keeps hb).name, hinfo]
    simpa [Site.beneath, Site.id, Field.responseName] using haddressed

/-! ## All trees -/

section build

variable {schema : Schema} {d : Document} {config : Config} {ir : Representation}
  (h : build schema config d = .ok ir)
include h

/-- The tree at a root is addressed from there. -/
theorem addressed_of_mem_trees {root : ModelRoot} {g : ModelGroup} (hg : (root, g) ∈ ir.trees) :
    Addressed root [] g := by
  have hplaced : ∃ f site inherited, Placed schema d config.typename ir f site inherited g ∧
      site.root = root ∧ site.path = [] := by
    rcases Representation.mem_trees_iff.mp hg with
      ⟨o, ho, rfl, rfl⟩ | ⟨r, hr, ⟨rfl, rfl⟩ | ⟨rfl, himplementation⟩⟩
    · exact ⟨_, _, _, .operation h ho, rfl, rfl⟩
    · exact ⟨_, _, _, .interface h hr, rfl, rfl⟩
    · exact ⟨_, _, _, .implementation h hr himplementation, rfl, rfl⟩
  obtain ⟨f, site, inherited, hplaced, rfl, hpath⟩ := hplaced
  obtain ⟨interfaces, -, hgroup⟩ := hplaced.built
  exact hpath ▸ f.addressed hgroup hplaced.collected

variable (hd : d.UniqueNames)
include hd

/-- The operations of the result have different names, and so have the fragments. -/
theorem nodup_names_of_build :
    (ir.operations.map OperationModels.name).Nodup ∧
      (ir.fragments.map FragmentModels.name).Nodup := by
  obtain ⟨lib, _, _, _, -, hfragments, hoperations⟩ := build_eq_ok h
  rw [map_name_buildFragments hfragments, map_name_buildOperations hoperations]
  have hnamed : d.namedOperations.map Prod.fst = d.operations.filterMap Operation.name := by
    rw [Document.namedOperations, List.map_filterMap]
    refine List.filterMap_congr fun o _ ↦ ?_
    cases o.name <;> rfl
  exact ⟨hnamed ▸ hd.operations, hd.fragments⟩

/-- A tree is found by its root. -/
theorem root?_of_mem_trees {root : ModelRoot} {g : ModelGroup} (hg : (root, g) ∈ ir.trees) :
    ir.root? root = some g := by
  obtain ⟨hoperations, hfragments⟩ := nodup_names_of_build h hd
  rcases Representation.mem_trees_iff.mp hg with
    ⟨o, ho, rfl, rfl⟩ | ⟨r, hr, ⟨rfl, rfl⟩ | ⟨rfl, himplementation⟩⟩
  · have hfound : ir.operation? o.name = some o := find?_of_nodup hoperations ho
    rw [Representation.root?, hfound, Option.map_some]
  · have hfound : ir.fragment? r.name = some r := find?_of_nodup hfragments hr
    rw [Representation.root?, hfound, Option.map_some]
  · have hfound : ir.fragment? r.name = some r := find?_of_nodup hfragments hr
    rw [Representation.root?, hfound, Option.bind_some, himplementation]

/-- No two trees have the same root. -/
theorem nodup_roots : (ir.trees.map Prod.fst).Nodup := by
  obtain ⟨hoperations, hfragments⟩ := nodup_names_of_build h hd
  rw [Representation.trees, List.map_append, List.nodup_append, List.map_map, List.map_flatMap,
    List.nodup_flatMap]
  refine ⟨?_, ⟨fun r _ ↦ ?_, ?_⟩, ?_⟩
  · have hroots := hoperations.map (f := ModelRoot.operation) fun _ _ heq ↦
      ModelRoot.operation.inj heq
    rwa [List.map_map] at hroots
  · cases r.implementation <;> simp
  · refine (List.pairwise_map.mp hfragments).imp fun {r r'} hne ↦ ?_
    cases r.implementation <;> cases r'.implementation <;> simp [List.disjoint_iff_ne, hne]
  · intro a ha b hb
    obtain ⟨o, -, rfl⟩ := List.mem_map.mp ha
    obtain ⟨r, -, hb⟩ := List.mem_flatMap.mp hb
    rintro rfl
    cases r.implementation <;> simp at hb

/-- **A model is found by its id.** -/
theorem model?_id {m : Model} (hm : m ∈ ir.models) : ir.model? m.id = some m := by
  obtain ⟨⟨root, g⟩, hg, hm⟩ := List.mem_flatMap.mp hm
  obtain ⟨name, rest, hid, hat⟩ := (addressed_of_mem_trees h hg).exists_path hm
  rw [Representation.model?, hid, root?_of_mem_trees h hd hg]
  exact hat

/-- **No two models have the same id.** -/
theorem nodup_ids : (ir.models.map Model.id).Nodup := by
  rw [Representation.models, List.map_flatMap, List.nodup_flatMap]
  refine ⟨fun tree htree ↦ (addressed_of_mem_trees h htree).nodup, ?_⟩
  refine (List.pairwise_map.mp (nodup_roots h hd)).imp_of_mem fun {a b} ha hb hne ↦ ?_
  intro id hid hid'
  obtain ⟨m, hm, rfl⟩ := List.mem_map.mp hid
  obtain ⟨m', hm', heq⟩ := List.mem_map.mp hid'
  obtain ⟨name, rest, hm, -⟩ := (addressed_of_mem_trees h ha).exists_path hm
  obtain ⟨name', rest', hm', -⟩ := (addressed_of_mem_trees h hb).exists_path hm'
  rw [hm, hm', ModelId.mk.injEq] at heq
  exact hne heq.1.symm

/-- A model of a group is found by its id. -/
theorem Representation.HasGroup.model?_id {g : ModelGroup} (hg : ir.HasGroup g) {m : Model}
    (hm : m ∈ g.models) : ir.model? m.id = some m :=
  ResponseModels.model?_id h hd (hg.mem_models (ModelGroup.mem_allModels hm))

/-- A group has a base model, which is found by the group's base id. -/
theorem Representation.HasGroup.exists_base {g : ModelGroup} (hg : ir.HasGroup g) :
    ∃ m ∈ g.models, m.isBase = true ∧ m.id = g.baseId ∧ ir.model? g.baseId = some m := by
  obtain ⟨f, site, inherited, hplaced⟩ := hg.exists_placed h
  obtain ⟨interfaces, -, hgroup⟩ := hplaced.built
  obtain ⟨built, hraises, hmodels, -, b, hb, hbase, hbaseId⟩ := Field.raises_of_modelGroup hgroup
  have hm : b.model ∈ g.models := hmodels ▸ List.mem_map_of_mem hb
  have hkeeps := hraises.keeps hb
  have hid : b.model.id = g.baseId := hkeeps.id.trans hbaseId.symm
  exact ⟨b.model, hm, hkeeps.isBase.trans hbase, hid, hid ▸ hg.model?_id h hd hm⟩

/-- The accessors of a model lead where they say. -/
theorem Representation.HasGroup.resolves {g : ModelGroup} (hg : ir.HasGroup g) {m : Model}
    (hm : m ∈ g.models) {a : Accessor} (ha : a ∈ m.accessors) : ir.Resolves g a := by
  obtain ⟨f, site, inherited, hplaced⟩ := hg.exists_placed h
  obtain ⟨interfaces, hoffers, hgroup⟩ := hplaced.built
  obtain ⟨built, hraises, hmodels, hplanned, -⟩ := Field.raises_of_modelGroup hgroup
  rw [hmodels] at hm
  obtain ⟨b, hb, rfl⟩ := List.mem_map.mp hm
  obtain ⟨_, _, -, hfollows⟩ := hraises.exists_follows hb
  cases (accessors_eq_ok hfollows.accessors).1 a ha with
  | fragment spread ok =>
    obtain ⟨r, hr, hname, rfl⟩ := hoffers _ _ ok
    obtain ⟨n, hn, hbase, -, hfound⟩ := (HasGroup.interface hr).exists_base h hd
    exact ⟨r, hr, hname, rfl, n, hn, hbase, hfound⟩
  | subtype mem primary narrower =>
    rw [← hplanned] at mem
    obtain ⟨c, hc, rfl⟩ := List.mem_map.mp mem
    have hn : c.model ∈ g.models := hmodels ▸ List.mem_map_of_mem hc
    have hkeeps := hraises.keeps hc
    exact ⟨c.model, hn, hkeeps.typeSet, hkeeps.id ▸ hg.model?_id h hd hn⟩

/-- **Ids are addresses, and no reference dangles.** In the result of a build, the id of every model
leads to that model, and no two models have the same id. The base id of every group leads to the
base model of the group, what a model implements leads to models of the result, and its accessors
lead where they say. -/
theorem ids_are_addresses :
    (∀ m ∈ ir.models, ir.model? m.id = some m) ∧ (ir.models.map Model.id).Nodup ∧
      ∀ g, ir.HasGroup g →
        (∃ m ∈ g.models, m.isBase = true ∧ ir.model? g.baseId = some m) ∧
        ∀ m ∈ g.models, m ∈ ir.models ∧
          (∀ id ∈ m.implements, ∃ n ∈ ir.models, ir.model? id = some n) ∧
          ∀ a ∈ m.accessors, ir.Resolves g a := by
  refine ⟨fun m hm ↦ model?_id h hd hm, nodup_ids h hd, fun g hg ↦ ⟨?_, fun m hm ↦ ?_⟩⟩
  · obtain ⟨m, hm, hbase, -, hfound⟩ := hg.exists_base h hd
    exact ⟨m, hm, hbase, hfound⟩
  · have hmem : m ∈ ir.models := hg.mem_models (ModelGroup.mem_allModels hm)
    refine ⟨hmem, fun id hid ↦ ?_, fun a ha ↦ hg.resolves h hd hm ha⟩
    obtain ⟨sups, himplements, -, hsups⟩ := Representation.exists_supers h hmem
    rw [himplements] at hid
    obtain ⟨n, hn, rfl⟩ := List.mem_map.mp hid
    exact ⟨n, (hsups n hn).1, model?_id h hd (hsups n hn).1⟩

end build

open Sample in
/-- In the sample, the model of a dog's friend is found by its id, and so are the two models it
implements: that of a pet's friend in the same tree, and that of the friend in the tree of the
fragment. -/
theorem ids_are_addresses_friend :
    ∃ ir, build schema {} document = .ok ir ∧ document.UniqueNames ∧ ∃ m ∈ ir.models,
      m.id = ⟨.operation "Visit", ["Data", "animal", "DogPetAnimal", "friend", "Friend"]⟩ ∧
      m.implements = [⟨.operation "Visit", ["Data", "animal", "PetAnimal", "friend", "Friend"]⟩,
        ⟨.fragmentInterface "Company", ["Company", "friend", "Friend"]⟩] ∧
      ir.model? m.id = some m ∧ ∀ id ∈ m.implements, ∃ n ∈ ir.models, ir.model? id = some n := by
  obtain ⟨ir, hir, hcheck⟩ := Error.exists_of_any (x := build schema {} document)
    (p := fun ir ↦ ir.models.any fun m ↦
      m.id = ⟨.operation "Visit", ["Data", "animal", "DogPetAnimal", "friend", "Friend"]⟩ &&
      m.implements = [⟨.operation "Visit", ["Data", "animal", "PetAnimal", "friend", "Friend"]⟩,
        ⟨.fragmentInterface "Company", ["Company", "friend", "Friend"]⟩]) (by decide +kernel)
  simp only [List.any_eq_true, Bool.and_eq_true, decide_eq_true_eq] at hcheck
  obtain ⟨m, hm, hid, himplements⟩ := hcheck
  have hd : document.UniqueNames := ⟨by decide, by decide⟩
  obtain ⟨hfound, -, hgroups⟩ := ids_are_addresses hir hd
  obtain ⟨g, hg, hmem⟩ := (Representation.mem_models_iff hir).mp hm
  obtain ⟨-, hreferences, -⟩ := (hgroups g hg).2 m hmem
  exact ⟨ir, hir, hd, m, hm, hid, himplements, hfound m hm, hreferences⟩

end ResponseModels
