import Mathlib.Data.List.Nodup
import ResponseModels.Proofs.Build

/-!
# The order in which fragments are built

The interface of a fragment is built after those of the fragments spread in it, so a library is a
stack of fragments, each built from interfaces further down (`Stacked`). A fragment is not built a
second time while it waits for others (`FragmentLibrary.built?_of_ensure`), so the fragments of a
stack have different names.

An operation or the implementation of a fragment is built from the interfaces of the whole library
(`FragmentLibrary.Wired`), which are those of the result of a build (`Placed.offers_of_build`).
-/

set_option autoImplicit false

namespace ResponseModels

/-- Where keys differ, everything is found by its key. -/
theorem find?_of_nodup {α β : Type} [BEq β] [LawfulBEq β] {key : α → β} {l : List α}
    (hnodup : (l.map key).Nodup) {a : α} (ha : a ∈ l) :
    l.find? (fun b ↦ key b == key a) = some a := by
  cases hfind : l.find? fun b ↦ key b == key a with
  | none => exact absurd (beq_self_eq_true (key a)) (List.find?_eq_none.mp hfind a ha)
  | some b =>
    have hkey : key b = key a := by simpa using List.find?_some hfind
    rw [List.inj_on_of_nodup_map hnodup (List.mem_of_find?_eq_some hfind) ha hkey]

/-- Where keys differ, the same is found by a key in any order. -/
theorem find?_of_perm {α β : Type} [BEq β] [LawfulBEq β] {key : α → β} {l l' : List α}
    (hnodup : (l.map key).Nodup) (hperm : l.Perm l') (k : β) :
    l.find? (fun a ↦ key a == k) = l'.find? fun a ↦ key a == k := by
  have hnodup' := (hperm.map key).nodup_iff.mp hnodup
  ext a
  constructor
  · intro ha
    have hkey : key a = k := by simpa using List.find?_some ha
    exact hkey ▸ find?_of_nodup hnodup' (hperm.mem_iff.mp (List.mem_of_find?_eq_some ha))
  · intro ha
    have hkey : key a = k := by simpa using List.find?_some ha
    exact hkey ▸ find?_of_nodup hnodup (hperm.mem_iff.mpr (List.mem_of_find?_eq_some ha))

/-- All interfaces that are given out are those of some fragments. -/
def Offers (built : List BuiltFragment) (interfaces : Name → Except Error ModelGroup) : Prop :=
  ∀ name g, interfaces name = .ok g → ∃ b ∈ built, b.name = name ∧ b.interface = g

theorem Offers.append {built : List BuiltFragment} {interfaces : Name → Except Error ModelGroup}
    (h : Offers built interfaces) (more : List BuiltFragment) :
    Offers (built ++ more) interfaces := by
  intro name g hg
  obtain ⟨b, hb, hname⟩ := h name g hg
  exact ⟨b, List.mem_append_left more hb, hname⟩

/-- Fragments with different names, each built from the interfaces of those before it. -/
inductive Stacked : List BuiltFragment → Prop
  | nil : Stacked []
  | snoc {before : List BuiltFragment} {b : BuiltFragment}
      {interfaces : Name → Except Error ModelGroup} (earlier : Stacked before)
      (fresh : ∀ c ∈ before, c.name ≠ b.name) (offers : Offers before interfaces)
      (group : b.field.modelGroup interfaces ⟨.fragmentInterface b.name, [], b.name, true⟩ [] =
        .ok b.interface) : Stacked (before ++ [b])

theorem Stacked.nodup {built : List BuiltFragment} (h : Stacked built) :
    (built.map BuiltFragment.name).Nodup := by
  induction h with
  | nil => exact List.nodup_nil
  | snoc _ fresh _ _ ih =>
    rw [List.map_append, List.nodup_append]
    refine ⟨ih, List.nodup_singleton _, fun a ha b hb ↦ ?_⟩
    obtain ⟨c, hc, rfl⟩ := List.mem_map.mp ha
    rw [List.map_singleton, List.mem_singleton] at hb
    exact hb ▸ fresh c hc

/-- Every fragment of a stack is built from interfaces of the stack. -/
theorem Stacked.exists_interfaces {built : List BuiltFragment} (h : Stacked built)
    {b : BuiltFragment} (hb : b ∈ built) :
    ∃ interfaces, Offers built interfaces ∧
      b.field.modelGroup interfaces ⟨.fragmentInterface b.name, [], b.name, true⟩ [] =
        .ok b.interface := by
  induction h with
  | nil => exact absurd hb List.not_mem_nil
  | snoc _ _ offers group ih =>
    rcases List.mem_append.mp hb with hb | hb
    · obtain ⟨interfaces, hoffers, hgroup⟩ := ih hb
      exact ⟨interfaces, hoffers.append _, hgroup⟩
    · cases List.mem_singleton.mp hb
      exact ⟨_, offers.append _, group⟩

namespace FragmentLibrary

variable {schema : Schema} {d : Document} {config : Config} {lib lib' : FragmentLibrary}

theorem built?_eq_none {name : Name} : lib.built? name = none ↔ ∀ b ∈ lib.built, b.name ≠ name := by
  simp [built?]

theorem offers_interfaceOf (lib : FragmentLibrary) (active : List Name) :
    Offers lib.built (lib.interfaceOf active) := by
  intro name g h
  rw [interfaceOf] at h
  split at h
  · rename_i b hb
    cases h
    exact ⟨b, List.mem_of_find?_eq_some hb, by simpa using List.find?_some hb, rfl⟩
  · split at h <;> cases h

/-- A fragment that waits for others is not built in the meantime. -/
theorem built?_of_ensure {active : List Name} {name waiting : Name}
    (h : lib.ensure schema d config active name = .ok lib') (hmem : waiting ∈ active)
    (hnone : lib.built? waiting = none) : lib'.built? waiting = none := by
  induction active, name, lib using ensure.induct d generalizing lib' with
  | case1 active name lib hbuilt =>
    rw [ensure, if_pos hbuilt] at h
    cases h
    exact hnone
  | case2 active name lib hbuilt hactive =>
    rw [ensure, if_neg hbuilt, dif_pos hactive] at h
    cases h
  | case3 active name lib hbuilt hactive ih =>
    rw [ensure, if_neg hbuilt, dif_neg hactive, Error.wrap_eq_ok] at h
    split at h
    · cases h
    rename_i fragment hf
    obtain ⟨field, -, h⟩ := Error.bind_eq_ok.mp h
    obtain ⟨lib₁, hfold, h⟩ := Error.bind_eq_ok.mp h
    obtain ⟨interface, -, h⟩ := Error.bind_eq_ok.mp h
    cases h
    have hnone₁ : lib₁.built? waiting = none :=
      Error.foldlM_invariant (I := fun _ (lib : FragmentLibrary) ↦ lib.built? waiting = none)
        (fun spread _ lib lib' hlib hok ↦
          ih fragment hf lib spread hok (List.mem_append_left _ hmem) hlib) hnone hfold
    refine built?_eq_none.mpr fun b hb ↦ ?_
    rcases List.mem_append.mp hb with hb | hb
    · exact built?_eq_none.mp hnone₁ b hb
    · cases List.mem_singleton.mp hb
      rintro rfl
      exact hactive hmem

/-- A library is a stack, with implementations built from its interfaces. -/
structure Wired (lib : FragmentLibrary) : Prop where
  /-- Each fragment was built from those below it. -/
  stacked : Stacked lib.built
  /-- What implements a fragment was built from the interfaces of the library. -/
  implementations : ∀ p ∈ lib.implementations, ∃ b ∈ lib.built, ∃ interfaces, b.name = p.1 ∧
    Offers lib.built interfaces ∧
    b.field.modelGroup interfaces ⟨.fragmentImplementation p.1, [], p.1, false⟩
      [b.interface] = .ok p.2

theorem wired_empty : empty.Wired where
  stacked := .nil
  implementations _ hp := absurd hp List.not_mem_nil

/-- Ensuring that a fragment is built adds to the stack. -/
theorem Wired.of_ensure {active : List Name} {name : Name} (hw : lib.Wired)
    (h : lib.ensure schema d config active name = .ok lib') : lib'.Wired := by
  induction active, name, lib using ensure.induct d generalizing lib' with
  | case1 active name lib hbuilt =>
    rw [ensure, if_pos hbuilt] at h
    cases h
    exact hw
  | case2 active name lib hbuilt hactive =>
    rw [ensure, if_neg hbuilt, dif_pos hactive] at h
    cases h
  | case3 active name lib hbuilt hactive ih =>
    rw [ensure, if_neg hbuilt, dif_neg hactive, Error.wrap_eq_ok] at h
    split at h
    · cases h
    rename_i fragment hf
    obtain ⟨field, -, h⟩ := Error.bind_eq_ok.mp h
    obtain ⟨lib₁, hfold, h⟩ := Error.bind_eq_ok.mp h
    obtain ⟨interface, hinterface, h⟩ := Error.bind_eq_ok.mp h
    cases h
    have hnone : lib.built? name = none := by simpa using hbuilt
    have hinv := Error.foldlM_invariant
      (I := fun _ (lib : FragmentLibrary) ↦ lib.Wired ∧ lib.built? name = none)
      (fun spread _ lib lib' hlib hok ↦ ⟨ih fragment hf lib spread hlib.1 hok,
        built?_of_ensure hok (List.mem_append_right _ (List.mem_singleton_self name)) hlib.2⟩)
      ⟨hw, hnone⟩ hfold
    obtain ⟨hw₁, hnone₁⟩ := hinv
    refine ⟨.snoc hw₁.stacked (built?_eq_none.mp hnone₁) (lib₁.offers_interfaceOf _) hinterface,
      fun p hp ↦ ?_⟩
    obtain ⟨b, hb, interfaces, hname, hoffers, hgroup⟩ := hw₁.implementations p hp
    exact ⟨b, List.mem_append_left _ hb, interfaces, hname, hoffers.append _, hgroup⟩

/-- Building an implementation leaves the stack as it is. -/
theorem Wired.of_implement {name : Name} (hw : lib.Wired) (h : lib.implement name = .ok lib') :
    lib'.Wired := by
  rw [implement, Error.wrap_eq_ok] at h
  obtain ⟨b, hb, h⟩ := Error.bind_eq_ok.mp h
  obtain ⟨group, hgroup, h⟩ := Error.bind_eq_ok.mp h
  cases h
  refine ⟨hw.stacked, fun p hp ↦ ?_⟩
  rcases List.mem_append.mp hp with hp | hp
  · exact hw.implementations p hp
  · cases List.mem_singleton.mp hp
    have hfind := entry_eq_ok hb
    have hname : b.name = name := by simpa using List.find?_some hfind
    exact ⟨b, List.mem_of_find?_eq_some hfind, _, hname, lib.offers_interfaceOf [], hgroup⟩

/-- **The library of a document is wired.** -/
theorem wired_ofDocument (h : ofDocument schema d config = .ok lib) : lib.Wired := by
  refine Error.foldlM_invariant (I := fun _ (lib : FragmentLibrary) ↦ lib.Wired)
    (fun fragment _ lib lib' hw hok ↦ ?_) wired_empty h
  obtain ⟨lib₁, hensure, hok⟩ := Error.bind_eq_ok.mp hok
  have hw₁ := hw.of_ensure hensure
  split at hok
  · exact hw₁.of_implement hok
  · cases hok
    exact hw₁

/-- A fragment of a stack is found by its name. -/
theorem Wired.built?_eq_some {b : BuiltFragment} (hw : lib.Wired) (hb : b ∈ lib.built) :
    lib.built? b.name = some b :=
  find?_of_nodup hw.stacked.nodup hb

end FragmentLibrary

/-! ## The result of a build -/

section

variable {schema : Schema} {d : Document} {config : Config} {ir : Representation}
  {lib : FragmentLibrary}

theorem map_name_buildFragments {fragments : List Fragment} {results : List FragmentModels}
    {used used' : List Name}
    (h : buildFragments schema config lib fragments used = .ok (results, used')) :
    results.map FragmentModels.name = fragments.map Fragment.name := by
  induction fragments generalizing results used with
  | nil =>
    cases h
    rfl
  | cons f rest ih =>
    rw [buildFragments] at h
    obtain ⟨built, hbuilt, h⟩ := Error.bind_eq_ok.mp h
    obtain ⟨used₁, -, h⟩ := Error.bind_eq_ok.mp h
    obtain ⟨⟨others, used₂⟩, hothers, h⟩ := Error.bind_eq_ok.mp h
    cases h
    rw [List.map_cons, List.map_cons, ih hothers,
      (buildFragment_eq_ok (Error.wrap_eq_ok.mp hbuilt)).1]

theorem map_name_buildOperations {named : List (Name × Operation)}
    {operations : List OperationModels} {used used' : List Name}
    (h : buildOperations schema d config lib named used = .ok (operations, used')) :
    operations.map OperationModels.name = named.map Prod.fst := by
  induction named generalizing operations used with
  | nil =>
    cases h
    rfl
  | cons p rest ih =>
    rw [buildOperations] at h
    obtain ⟨built, hbuilt, h⟩ := Error.bind_eq_ok.mp h
    obtain ⟨used₁, -, h⟩ := Error.bind_eq_ok.mp h
    obtain ⟨used₂, -, h⟩ := Error.bind_eq_ok.mp h
    obtain ⟨⟨others, used₃⟩, hothers, h⟩ := Error.bind_eq_ok.mp h
    cases h
    rw [List.map_cons, List.map_cons, ih hothers,
      (buildOperation_eq_ok (Error.wrap_eq_ok.mp hbuilt)).1]

/-- The fragments of a library are those of the result. -/
theorem exists_fragment_of_mem_built (hlib : FragmentLibrary.ofDocument schema d config = .ok lib)
    {used used' : List Name}
    (h : buildFragments schema config lib d.fragments used = .ok (ir.fragments, used'))
    {b : BuiltFragment} (hb : b ∈ lib.built) :
    ∃ r ∈ ir.fragments, r.name = b.name ∧ r.interface = b.interface := by
  obtain ⟨fragment, hf, -⟩ := (FragmentLibrary.sound_ofDocument hlib).built b hb
  have hmem : b.name ∈ d.fragments.map Fragment.name := by
    rw [← Document.name_of_fragment? hf]
    exact List.mem_map_of_mem (Document.mem_of_fragment? hf)
  rw [← map_name_buildFragments h] at hmem
  obtain ⟨r, hr, hname⟩ := List.mem_map.mp hmem
  obtain ⟨f, -, hok⟩ := exists_of_mem_buildFragments h hr
  obtain ⟨-, -, c, hc, -, hinterface⟩ := buildFragment_eq_ok hok
  rw [hname, (FragmentLibrary.wired_ofDocument hlib).built?_eq_some hb] at hc
  cases hc
  exact ⟨r, hr, hname, hinterface⟩

end
end ResponseModels
