import Mathlib.Data.Finset.Card
import Mathlib.Data.Finset.Image
import ResponseModels.Proofs.Build
import ResponseModels.Proofs.Model.Naming
import ResponseModels.Proofs.Model.Tree

/-!
# Unique names in a tree of models

`freshName` looks through the numbers from 2 on each time a name is taken. One need not start over:
a `NameAllocator` remembers, for each name, the number to go on with. Going on comes to an end
because it can only pass names that are taken (`NameAllocator.firstFree`), and what it passed is
still taken the next time (`NameAllocator.Sound`), so that the names given are the same
(`NameAllocator.run_mapM_allocate`).

Flattening a tree hands one allocator down the tree and on from property to property. It comes to
the same as giving names to the list of all models (`ModelGroup.run_flattenM`).

* **Flattened names differ**, and each model of the tree has one of its own
  (`flattened_names_differ`).
-/

set_option autoImplicit false

namespace ResponseModels

/-! ## Numbers behind a name -/

/-- A number is the first from `k` on that makes a name free. -/
structure IsFirstFree (taken : List String) (name : String) (k n : Nat) : Prop where
  /-- It is from `k` on. -/
  le : k ≤ n
  /-- With it the name is free. -/
  free : name ++ toString n ∉ taken
  /-- With the numbers before it the name is taken. -/
  passed : ∀ i, k ≤ i → i < n → name ++ toString i ∈ taken

namespace IsFirstFree

variable {taken : List String} {name : String} {k n : Nat}

theorem unique (h : IsFirstFree taken name k n) {n' : Nat} (h' : IsFirstFree taken name k n') :
    n = n' := by
  rcases Nat.lt_trichotomy n n' with hlt | heq | hlt
  · exact absurd (h'.passed n h.le hlt) h.free
  · exact heq
  · exact absurd (h.passed n' h'.le hlt) h'.free

/-- Numbers before `k` that are taken might as well be passed. -/
theorem of_passed (h : IsFirstFree taken name k n) {j : Nat} (hle : j ≤ k)
    (hpassed : ∀ i, j ≤ i → i < k → name ++ toString i ∈ taken) : IsFirstFree taken name j n where
  le := hle.trans h.le
  free := h.free
  passed i hi hn := by
    by_cases hk : i < k
    · exact hpassed i hi hk
    · exact h.passed i (Nat.le_of_not_lt hk) hn

/-- No more numbers are passed than names are taken. -/
theorem le_add_length (h : IsFirstFree taken name k n) : n ≤ k + taken.length := by
  have hsubset : (List.range' k (n - k)).map (fun i ↦ name ++ toString i) ⊆ taken := by
    intro x hx
    obtain ⟨i, hi, rfl⟩ := List.mem_map.mp hx
    rw [List.mem_range'_1] at hi
    exact h.passed i hi.1 (by omega)
  have hlength := ((nodup_numbered name k (n - k)).subperm hsubset).length_le
  rw [List.length_map, List.length_range'] at hlength
  omega

end IsFirstFree

/-- **The number that a fresh name gets** is the first from 2 on that makes it free. -/
theorem exists_freshName_eq {taken : List String} {name : String} (h : name ∈ taken) :
    ∃ n, freshName taken name = name ++ toString n ∧ IsFirstFree taken name 2 n := by
  have hfresh := freshName_notMem taken name
  rw [freshName, if_pos h] at hfresh ⊢
  dsimp only at hfresh ⊢
  cases hfind :
      ((List.range' 2 (taken.length + 1)).map fun i ↦ name ++ toString i).find?
        fun c ↦ c ∉ taken with
  | none =>
    rw [hfind, Option.getD_none] at hfresh
    exact absurd h hfresh
  | some found =>
    rw [hfind, Option.getD_some] at hfresh
    rw [Option.getD_some]
    obtain ⟨-, j, hj, hfound, hbefore⟩ := List.find?_eq_some_iff_getElem.mp hfind
    rw [List.getElem_map, List.getElem_range', Nat.one_mul] at hfound
    subst hfound
    refine ⟨2 + j, rfl, Nat.le_add_right 2 j, hfresh, fun i hi hlt ↦ ?_⟩
    have hi' := hbefore (i - 2) (by omega)
    rw [List.getElem_map, List.getElem_range', Nat.one_mul, Nat.add_sub_cancel' hi] at hi'
    simpa using hi'

/-! ## Going on where one stopped -/

/-- What is remembered of the names that were given. -/
structure NameAllocator where
  /-- The names that were given. -/
  taken : List String := []
  /-- The number to try next, for each name. -/
  nextSuffix : String → Nat := fun _ ↦ 2

namespace NameAllocator

/-- The first number from `k` on that makes a name free, found by trying one after the other. This
ends because each number that is passed uses up one of the taken names. -/
def firstFree (taken : List String) (name : String) (k : Nat) : Nat :=
  if name ++ toString k ∈ taken then firstFree taken name (k + 1) else k
termination_by (taken.toFinset \ (Finset.range k).image fun i ↦ name ++ toString i).card
decreasing_by
  rename_i htaken
  rw [Finset.range_add_one, Finset.image_insert, Finset.sdiff_insert]
  refine Finset.card_erase_lt_of_mem
    (Finset.mem_sdiff.mpr ⟨List.mem_toFinset.mpr htaken, fun himage ↦ ?_⟩)
  obtain ⟨i, hi, heq⟩ := Finset.mem_image.mp himage
  exact absurd (numbered_injective name heq) (Finset.mem_range.mp hi).ne

/-- **The search ends** at the first number that makes the name free. -/
theorem isFirstFree_firstFree (taken : List String) (name : String) (k : Nat) :
    IsFirstFree taken name k (firstFree taken name k) := by
  induction k using firstFree.induct taken name with
  | case1 k htaken ih =>
    rw [firstFree, if_pos htaken]
    refine ih.of_passed (Nat.le_succ k) fun i hi hlt ↦ ?_
    rwa [Nat.le_antisymm (Nat.lt_succ_iff.mp hlt) hi]
  | case2 k hfree =>
    rw [firstFree, if_neg hfree]
    exact ⟨Nat.le_refl k, hfree, fun i hi hlt ↦ absurd hi (Nat.not_le_of_lt hlt)⟩

/-- Give out a name. -/
def allocate (name : String) : StateM NameAllocator String := do
  let a ← get
  if name ∈ a.taken then
    let k := firstFree a.taken name (a.nextSuffix name)
    let given := name ++ toString k
    set (⟨a.taken ++ [given], fun n ↦ if n = name then k + 1 else a.nextSuffix n⟩ : NameAllocator)
    return given
  else
    set { a with taken := a.taken ++ [name] }
    return name

theorem run_allocate_of_mem {a : NameAllocator} {name : String} (h : name ∈ a.taken) :
    let k := firstFree a.taken name (a.nextSuffix name)
    (allocate name).run a = (name ++ toString k,
      ⟨a.taken ++ [name ++ toString k], fun n ↦ if n = name then k + 1 else a.nextSuffix n⟩) := by
  simp only [allocate, StateT.run_bind, StateT.run_get, pure_bind, if_pos h]
  rfl

theorem run_allocate_of_notMem {a : NameAllocator} {name : String} (h : name ∉ a.taken) :
    (allocate name).run a = (name, { a with taken := a.taken ++ [name] }) := by
  simp only [allocate, StateT.run_bind, StateT.run_get, pure_bind, if_neg h]
  rfl

/-- The numbers that are not tried again are all taken. -/
structure Sound (a : NameAllocator) : Prop where
  /-- Numbers are from two on. -/
  le : ∀ name, 2 ≤ a.nextSuffix name
  /-- With the numbers before the next one the name is taken. -/
  passed : ∀ name i, 2 ≤ i → i < a.nextSuffix name → name ++ toString i ∈ a.taken

theorem Sound.init : Sound {} :=
  ⟨fun _ ↦ Nat.le_refl 2, fun _ _ hi hlt ↦ absurd hi (Nat.not_le_of_lt hlt)⟩

/-- **One name**: the one given is fresh, and the allocator stays sound. -/
theorem Sound.run_allocate {a : NameAllocator} (h : a.Sound) (name : String) :
    ∃ a', (allocate name).run a = (freshName a.taken name, a') ∧
      a'.taken = a.taken ++ [freshName a.taken name] ∧ a'.Sound := by
  by_cases htaken : name ∈ a.taken
  · have hfirst := isFirstFree_firstFree a.taken name (a.nextSuffix name)
    obtain ⟨n, hfresh, hn⟩ := exists_freshName_eq htaken
    have heq : n = firstFree a.taken name (a.nextSuffix name) :=
      hn.unique (hfirst.of_passed (h.le name) (h.passed name))
    subst heq
    rw [hfresh]
    rw [run_allocate_of_mem htaken]
    refine ⟨_, rfl, rfl, fun m ↦ ?_, fun m i hi hlt ↦ ?_⟩
    · dsimp only
      split
      · exact (h.le name).trans (hfirst.le.trans (Nat.le_succ _))
      · exact h.le m
    · dsimp only at hlt ⊢
      split at hlt
      · -- Of the numbers of this name, those before and those just passed are taken, and so is the
        -- one given.
        rename_i hm
        subst hm
        rcases Nat.lt_succ_iff_lt_or_eq.mp hlt with hlt | rfl
        · exact List.mem_append_left _ (hn.passed i hi hlt)
        · exact List.mem_append_right _ (List.mem_singleton_self _)
      · exact List.mem_append_left _ (h.passed m i hi hlt)
  · rw [run_allocate_of_notMem htaken, freshName, if_neg htaken]
    exact ⟨_, rfl, rfl, h.le, fun m i hi hlt ↦ List.mem_append_left _ (h.passed m i hi hlt)⟩

/-- **A sequence of names**: those given are fresh one after the other. -/
theorem Sound.run_mapM {α β : Type} {a : NameAllocator} (h : a.Sound) (name : α → String)
    (f : α → String → β) (l : List α) :
    ((l.mapM fun x ↦ f x <$> allocate (name x)).run a).1 =
      (l.zip (freshNames a.taken (l.map name))).map fun p ↦ f p.1 p.2 := by
  induction l generalizing a with
  | nil => rfl
  | cons x rest ih =>
    obtain ⟨a', hrun, htaken, hsound⟩ := h.run_allocate (name x)
    rw [List.mapM_cons, StateT.run_bind, StateT.run_map, hrun, List.map_cons, freshNames,
      List.zip_cons_cons, List.map_cons, ← htaken, ← ih hsound]
    rfl

theorem run_mapM_allocate (names : List String) :
    ((names.mapM allocate).run {}).1 = freshNames [] names := by
  have hrun := Sound.init.run_mapM id (fun _ given ↦ given) names
  simp only [id_map', id_eq, List.map_id_fun] at hrun
  rw [hrun]
  exact List.map_snd_zip (length_freshNames [] names).le

end NameAllocator

/-! ## Going through a tree -/

/-- Give a model its flattened name. -/
def Model.flatM (m : Model) : StateM NameAllocator FlatModel :=
  FlatModel.mk m.id <$> NameAllocator.allocate m.name

mutual

/-- Give names to the models of a group and to all beneath them. -/
def ModelGroup.flattenM : ModelGroup → StateM NameAllocator (List FlatModel)
  | ⟨_, models⟩ => Model.flattenAllM models

/-- Give names to models, to each before those of its properties. -/
def Model.flattenAllM : List Model → StateM NameAllocator (List FlatModel)
  | [] => return []
  | m :: rest => do
    let flat ← m.flatM
    let beneath ← m.flattenBeneathM
    let later ← Model.flattenAllM rest
    return flat :: (beneath ++ later)

/-- Give names to the models of a model's properties. -/
def Model.flattenBeneathM : Model → StateM NameAllocator (List FlatModel)
  | ⟨_, _, _, _, properties, _, _, _, _, _⟩ => Property.flattenAllM properties

/-- Give names to the models of properties. -/
def Property.flattenAllM : List Property → StateM NameAllocator (List FlatModel)
  | [] => return []
  | ⟨_, _, _, none⟩ :: rest => Property.flattenAllM rest
  | ⟨_, _, _, some group⟩ :: rest => do
    let inner ← group.flattenM
    let later ← Property.flattenAllM rest
    return inner ++ later

end

mutual

/-- **Going through a tree is going through the list of its models.** -/
theorem ModelGroup.flattenM_eq : (g : ModelGroup) → g.flattenM = g.allModels.mapM Model.flatM
  | ⟨_, models⟩ => by
    rw [ModelGroup.flattenM, ModelGroup.allModels, Model.flattenAllM_eq models]

theorem Model.flattenAllM_eq :
    (models : List Model) → Model.flattenAllM models = (Model.allOf models).mapM Model.flatM
  | [] => by
    rw [Model.flattenAllM, Model.allOf, List.mapM_nil]
  | m :: rest => by
    rw [Model.flattenAllM, Model.allOf, Model.flattenBeneathM_eq m, Model.flattenAllM_eq rest,
      List.cons_append, List.mapM_cons, List.mapM_append]
    simp only [bind_assoc, pure_bind]

theorem Model.flattenBeneathM_eq : (m : Model) → m.flattenBeneathM = m.beneath.mapM Model.flatM
  | ⟨_, _, _, _, properties, _, _, _, _, _⟩ => by
    rw [Model.flattenBeneathM, Model.beneath, Property.flattenAllM_eq properties]

theorem Property.flattenAllM_eq : (properties : List Property) →
    Property.flattenAllM properties = (Property.modelsOf properties).mapM Model.flatM
  | [] => by
    rw [Property.flattenAllM, Property.modelsOf, List.mapM_nil]
  | ⟨_, _, _, none⟩ :: rest => by
    rw [Property.flattenAllM, Property.modelsOf, Property.flattenAllM_eq rest]
  | ⟨_, _, _, some group⟩ :: rest => by
    rw [Property.flattenAllM, Property.modelsOf, ModelGroup.flattenM_eq group,
      Property.flattenAllM_eq rest, List.mapM_append]

end

/-- One allocator, handed through the tree, gives the flattened names. -/
theorem ModelGroup.run_flattenM (g : ModelGroup) : (g.flattenM.run {}).1 = g.flatten := by
  rw [flattenM_eq]
  exact NameAllocator.Sound.init.run_mapM Model.name (fun m ↦ FlatModel.mk m.id) g.allModels

/-! ## What a flattened tree looks like -/

/-- A model is in the tree of a group. -/
inductive ModelGroup.Holds : ModelGroup → Model → Prop
  | model {g : ModelGroup} {m : Model} (mem : m ∈ g.models) : g.Holds m
  | beneath {g inner : ModelGroup} {n m : Model} {p : Property} (model : n ∈ g.models)
      (property : p ∈ n.properties) (group : p.group = some inner) (inside : inner.Holds m) :
      g.Holds m

theorem ModelGroup.Holds.mem_allModels {g : ModelGroup} {m : Model} (h : g.Holds m) :
    m ∈ g.allModels := by
  induction h with
  | model mem => exact ModelGroup.mem_allModels mem
  | beneath model property group _ ih => exact mem_allModels_of_group model property group ih

/-- A group in a tree is smaller than the group around it. -/
theorem ModelGroup.sizeOf_lt {g inner : ModelGroup} {n : Model} {p : Property} (hn : n ∈ g.models)
    (hp : p ∈ n.properties) (hinner : p.group = some inner) : sizeOf inner < sizeOf g := by
  have hmodel := List.sizeOf_lt_of_mem hn
  have hproperty := List.sizeOf_lt_of_mem hp
  cases g
  cases n
  cases p
  subst hinner
  simp only [mk.sizeOf_spec, Model.mk.sizeOf_spec, Property.mk.sizeOf_spec,
    Option.some.sizeOf_spec] at *
  omega

/-- The list of all models has just the models of the tree. -/
theorem ModelGroup.mem_allModels_iff_holds {g : ModelGroup} {m : Model} :
    m ∈ g.allModels ↔ g.Holds m := by
  refine ⟨fun hm ↦ ?_, Holds.mem_allModels⟩
  induction hsize : sizeOf g using Nat.strongRecOn generalizing g with
  | ind _ ih =>
    subst hsize
    rcases mem_allModels_iff.mp hm with hm | ⟨n, hn, hm⟩
    · exact .model hm
    · obtain ⟨p, hp, inner, hinner, hm⟩ := Model.mem_beneath_iff.mp hm
      exact .beneath hn hp hinner (ih _ (sizeOf_lt hn hp hinner) hm rfl)

/-- What the models of a tree are flattened to. -/
structure ModelGroup.FlattensTo (g : ModelGroup) (flat : List FlatModel) : Prop where
  /-- They stay in the order of the tree, each before those of its properties. -/
  order : flat.map FlatModel.id = g.allModels.map Model.id
  /-- Every model of the tree is there once. -/
  once : ∀ m, g.Holds m → (flat.map FlatModel.id).count m.id = 1
  /-- There are no others. -/
  only : ∀ x ∈ flat, ∃ m, g.Holds m ∧ m.id = x.id
  /-- The names differ. -/
  differ : (flat.map FlatModel.name).Nodup
  /-- A model has its own name, or a number from 2 on behind it. -/
  numbered : ∀ x ∈ flat, ∀ m, g.Holds m → m.id = x.id → x.name = m.name ∨ ∃ k, 2 ≤ k ∧
    x.name = m.name ++ toString k
  /-- It has its own name if none before it was given this name. -/
  kept : ∀ before x after, flat = before ++ x :: after → ∀ m, g.Holds m → m.id = x.id →
    (∀ y ∈ before, y.name ≠ m.name) → x.name = m.name

/-- Names for a list of models, when some are taken. -/
def Model.flattenList (taken : List String) (models : List Model) : List FlatModel :=
  (models.zip (freshNames taken (models.map Model.name))).map fun (m, name) ↦ ⟨m.id, name⟩

theorem Model.flattenList_cons (taken : List String) (m : Model) (rest : List Model) :
    Model.flattenList taken (m :: rest) =
      ⟨m.id, freshName taken m.name⟩ ::
        Model.flattenList (taken ++ [freshName taken m.name]) rest := rfl

/-- Where a flattened model stands, it is one of the models with the name that is fresh there. -/
theorem Model.of_flattenList_eq {taken : List String} {models : List Model}
    {before after : List FlatModel} {x : FlatModel}
    (h : Model.flattenList taken models = before ++ x :: after) :
    ∃ m ∈ models, m.id = x.id ∧ x.name = freshName (taken ++ before.map FlatModel.name) m.name := by
  induction before generalizing taken models with
  | nil =>
    cases models with
    | nil => cases h
    | cons m rest =>
      rw [flattenList_cons] at h
      cases h
      exact ⟨m, List.mem_cons_self, rfl, by rw [List.map_nil, List.append_nil]⟩
  | cons y before ih =>
    cases models with
    | nil => cases h
    | cons m rest =>
      rw [flattenList_cons, List.cons_append] at h
      obtain ⟨rfl, hrest⟩ := List.cons.inj h
      obtain ⟨n, hn, hid, hname⟩ := ih hrest
      refine ⟨n, List.mem_cons_of_mem m hn, hid, ?_⟩
      rw [hname, List.map_cons, List.append_assoc, List.singleton_append]

namespace ModelGroup

variable {g : ModelGroup}

theorem map_id_flatten (g : ModelGroup) :
    g.flatten.map FlatModel.id = g.allModels.map Model.id := by
  have hmodels : (g.allModels.zip (freshNames [] (g.allModels.map Model.name))).map Prod.fst =
      g.allModels :=
    List.map_fst_zip (by simp)
  calc g.flatten.map FlatModel.id
      = ((g.allModels.zip (freshNames [] (g.allModels.map Model.name))).map
          Prod.fst).map Model.id := by
        rw [flatten, List.map_map, List.map_map]
        rfl
    _ = g.allModels.map Model.id := by rw [hmodels]

theorem map_name_flatten (g : ModelGroup) :
    g.flatten.map FlatModel.name = freshNames [] (g.allModels.map Model.name) := by
  rw [flatten, List.map_map]
  exact List.map_snd_zip (by simp)

/-- **A tree whose ids differ is flattened to unique names.** -/
theorem flattensTo (hids : (g.allModels.map Model.id).Nodup) : g.FlattensTo g.flatten := by
  have hnamed : ∀ before x after, g.flatten = before ++ x :: after → ∀ m, g.Holds m → m.id = x.id →
      x.name = freshName (before.map FlatModel.name) m.name := by
    intro before x after heq m hm hid
    have hsplit : Model.flattenList [] g.allModels = before ++ x :: after := heq
    obtain ⟨n, hn, hid', hname⟩ := Model.of_flattenList_eq hsplit
    rwa [List.inj_on_of_nodup_map hids hn hm.mem_allModels (hid'.trans hid.symm),
      List.nil_append] at hname
  refine ⟨g.map_id_flatten, fun m hm ↦ ?_,
    fun x hx ↦ ?_, ?_, fun x hx m hm hid ↦ ?_, fun before x after heq m hm hid hnone ↦ ?_⟩
  · rw [map_id_flatten]
    exact List.count_eq_one_of_mem hids (List.mem_map_of_mem hm.mem_allModels)
  · have hid : x.id ∈ g.allModels.map Model.id := g.map_id_flatten ▸ List.mem_map_of_mem hx
    obtain ⟨m, hm, hid⟩ := List.mem_map.mp hid
    exact ⟨m, mem_allModels_iff_holds.mp hm, hid⟩
  · rw [map_name_flatten]
    exact (nodup_freshNames [] _).1
  · obtain ⟨before, after, heq⟩ := List.append_of_mem hx
    rw [hnamed before x after heq m hm hid]
    by_cases htaken : m.name ∈ before.map FlatModel.name
    · obtain ⟨k, hk, hfirst⟩ := exists_freshName_eq htaken
      exact .inr ⟨k, hfirst.le, hk⟩
    · exact .inl (by rw [freshName, if_neg htaken])
  · have hfree : m.name ∉ before.map FlatModel.name := by
      intro htaken
      obtain ⟨y, hy, hname⟩ := List.mem_map.mp htaken
      exact hnone y hy hname
    rw [hnamed before x after heq m hm hid, freshName, if_neg hfree]

end ModelGroup

/-- **Flattened names are unique.** A tree of models whose ids differ is flattened to all of its
models, each once, in the order of the tree and with different names. A name is the model's own, or
has a number from 2 on behind it, and it is the model's own unless this was given to a model before.
These are the names that an allocator gives which is handed through the tree. Whatever names an
allocator is asked for one after the other, its search ends each time, after no more numbers than
names are taken, and the names that it gives differ. -/
theorem flattened_names_differ :
    (∀ g : ModelGroup, (g.allModels.map Model.id).Nodup →
      (g.flattenM.run {}).1 = g.flatten ∧ g.FlattensTo g.flatten) ∧
    (∀ (taken : List String) (name : String) (k : Nat), ∃ n,
      NameAllocator.firstFree taken name k = n ∧ IsFirstFree taken name k n ∧
      n ≤ k + taken.length) ∧
    ∀ names : List String, ((names.mapM NameAllocator.allocate).run {}).1.Nodup := by
  refine ⟨fun g hids ↦ ⟨g.run_flattenM, g.flattensTo hids⟩, fun taken name k ↦ ?_, fun names ↦ ?_⟩
  · have hfirst := NameAllocator.isFirstFree_firstFree taken name k
    exact ⟨_, rfl, hfirst, hfirst.le_add_length⟩
  · rw [NameAllocator.run_mapM_allocate]
    exact (nodup_freshNames [] names).1

open Sample in
/-- In the sample the friend of an animal has another model for each kind of animal, and one of
these becomes `Friend2`. -/
theorem flattened_names_differ_friend :
    ∃ ir, build schema {} document = .ok ir ∧
      ∃ o ∈ ir.operations, (o.group.allModels.map Model.id).Nodup ∧
      (∃ x ∈ o.group.flatten, x.name = "Friend2") ∧ (o.group.flattenM.run {}).1 = o.group.flatten ∧
      o.group.FlattensTo o.group.flatten := by
  obtain ⟨ir, hir, hcheck⟩ := Error.exists_of_any (x := build schema {} document)
    (p := fun ir ↦ ir.operations.any fun o ↦ decide (o.group.allModels.map Model.id).Nodup &&
      o.group.flatten.any fun x ↦ x.name = "Friend2") (by decide +kernel)
  simp only [List.any_eq_true, Bool.and_eq_true, decide_eq_true_eq] at hcheck
  obtain ⟨o, ho, hids, hfriend⟩ := hcheck
  exact ⟨ir, hir, o, ho, hids, hfriend, flattened_names_differ.1 o.group hids⟩

end ResponseModels
