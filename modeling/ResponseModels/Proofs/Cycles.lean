import Mathlib.Data.List.Chain
import ResponseModels.Proofs.Closure
import ResponseModels.Proofs.Inlining

/-!
# Fragments that spread themselves

A fragment must not lead back to itself. While selections are surveyed, and again while fragments
wait for others to be built, a fragment that is come upon a second time is an error, which names the
fragment and the path from one time to the next.

* The report is right: each fragment on the path leads to the next by spreads in the text of the
  document, so there is a circle in the text (`Document.Circle`, `failsOnly_build_traced`). This is
  carried along: a selection stands in the text of the last fragment of its path
  (`Document.Follows`), and a fragment is spread in the tree of another only if it can be reached in
  the text.
* Nothing is missed: fragments are built after those spread in their trees (`Layered`), so after a
  build the spreads that were recorded lead back nowhere (`not_transGen_records`).

A circle in the text that no selection ever gets to, since it can never be included, is not an
error. That is why the first point is about the text and the second about what was recorded.
-/

set_option autoImplicit false

namespace ResponseModels

open Relation (ReflTransGen TransGen)

/-! ## Statements -/

/-- A path leads from fragment to fragment by spreads in their text, and comes back to the fragment
at its end. -/
structure Document.Circle (d : Document) (fragment : Name) (path : List Name) : Prop where
  /-- Each fragment of the path leads to the next. -/
  chain : path.IsChain (TransGen d.Spreads)
  /-- The last one was on the path before. -/
  returns : ∃ before, path = before ++ [fragment] ∧ fragment ∈ before

/-- An error that reports a fragment to spread itself does so rightly. -/
def Error.Traced (d : Document) (e : Error) : Prop :=
  ∀ fragment path, e.rootCause = .fragmentCycle fragment path → d.Circle fragment path

theorem Document.Circle.not_acyclic {d : Document} {fragment : Name} {path : List Name}
    (h : d.Circle fragment path) :
    ¬ d.Acyclic := by
  obtain ⟨before, rfl, hmem⟩ := h.returns
  have hpairs := List.pairwise_append.mp (List.isChain_iff_pairwise.mp h.chain)
  exact fun hacyclic ↦
    hacyclic fragment (hpairs.2.2 fragment hmem fragment (List.mem_singleton_self fragment))

namespace Error

variable {d : Document}

/-- An error with the code of a circle has one as its root cause. -/
theorem exists_of_code {e : Error} (h : e.code = .fragmentCycle) :
    ∃ fragment path, e.rootCause = .fragmentCycle fragment path := by
  induction e with
  | fragmentCycle fragment path => exact ⟨fragment, path, rfl⟩
  | within definition cause ih => exact ih h
  | _ => cases h

theorem IsLocal.traced {e : Error} (h : e.IsLocal) : e.Traced d := by
  intro fragment path hcause
  cases e <;> first | exact h.elim | cases hcause

theorem traced_internal (details : String) : (Error.internal details).Traced d := by
  rintro _ _ ⟨⟩

theorem traced_fragmentCycle {fragment : Name} {path : List Name} (h : d.Circle fragment path) :
    (Error.fragmentCycle fragment path).Traced d := by
  rintro _ _ ⟨⟩
  exact h

/-- Naming the definition does not change what is reported. -/
theorem failsOnly_wrap {α : Type} {title : String} {x : Except Error α}
    (h : FailsOnly (Error.Traced d) x) :
    FailsOnly (Error.Traced d) (Error.wrap title x) := by
  cases x with
  | ok a => exact .ok a
  | error e =>
    refine .error fun fragment path hcause ↦ h e rfl fragment path ?_
    rwa [rootCause_inDefinition] at hcause

end Error

/-! ## The text along a path -/

theorem Selection.mem_spreadsAll {n : Name} {l : List Selection} :
    n ∈ Selection.spreadsAll l ↔ ∃ s ∈ l, n ∈ s.spreads := by
  induction l with
  | nil => simp [Selection.spreadsAll]
  | cons s rest ih => simp [Selection.spreadsAll, ih]

/-- A further step at the end of a path. -/
theorem pairwise_transGen_snoc {α : Type} {r : α → α → Prop} {path : List α} {a b : α}
    (h : (path ++ [a]).Pairwise (TransGen r)) (hab : TransGen r a b) :
    (path ++ [a] ++ [b]).Pairwise (TransGen r) := by
  refine List.pairwise_append.mpr ⟨h, List.pairwise_singleton _ _, fun c hc b' hb ↦ ?_⟩
  cases List.mem_singleton.mp hb
  rcases List.mem_append.mp hc with hc | hc
  · exact ((List.pairwise_append.mp h).2.2 c hc a (List.mem_singleton_self a)).trans hab
  · exact List.mem_singleton.mp hc ▸ hab

namespace Document

variable {d : Document}

/-- What is spread in a selection can be reached, in the text, from every fragment of the path
around it, and the fragments of the path from those before them. -/
def Follows (d : Document) (path : List Name) (s : Selection) : Prop :=
  ∀ n ∈ s.spreads, (path ++ [n]).Pairwise (TransGen d.Spreads)

theorem carries_follows : d.Carries d.Follows where
  field h mem n hn := h n (Selection.mem_spreadsAll.mpr ⟨_, mem, hn⟩)
  inline h mem n hn := h n (Selection.mem_spreadsAll.mpr ⟨_, mem, hn⟩)
  spread h found mem n hn := by
    refine pairwise_transGen_snoc (h _ (List.mem_singleton_self _)) (.single ⟨_, found, ?_⟩)
    exact Selection.mem_spreadsAll.mpr ⟨_, mem, hn⟩

/-- Fragments stay on a path. -/
theorem Carries.and_mem {I : List Name → Selection → Prop} (hI : d.Carries I) (name : Name) :
    d.Carries fun path s ↦ name ∈ path ∧ I path s where
  field h mem := ⟨h.1, hI.field h.2 mem⟩
  inline h mem := ⟨h.1, hI.inline h.2 mem⟩
  spread h found mem := ⟨List.mem_append_left _ h.1, hI.spread h.2 found mem⟩

theorem Circle.of_pairwise {name : Name} {path : List Name}
    (h : (path ++ [name]).Pairwise (TransGen d.Spreads)) (hmem : name ∈ path) :
    d.Circle name (path ++ [name]) :=
  ⟨h.isChain, path, rfl, hmem⟩

/-- A fragment that is come upon while it is being expanded leads back to itself. -/
theorem blames_follows : Document.Blames d.Follows (Error.Traced d) where
  ofLocal _ he := he.traced
  ofCycle h mem := Error.traced_fragmentCycle (.of_pairwise (h _ (List.mem_singleton_self _)) mem)

/-- What is known of selections is known of the spreads recorded in the tree that is collected from
them. -/
theorem Carries.exists_of_mem_spreads {schema : Schema} {policy : TypenamePolicy}
    {I : List Name → Selection → Prop} (hI : d.Carries I) {field : Declaration} {f : Field}
    (h : expandField schema d policy field = .ok f)
    (hchildren : ∀ c ∈ field.children, I c.path c.selection) {n : Name} (hn : n ∈ f.spreads) :
    ∃ path directives, I path (.spread n directives) := by
  induction hsize : f.size using Nat.strongRecOn generalizing field f with
  | _ size ih =>
    cases hc : schema.isComposite field.info.rawType with
    | false =>
      rw [expandField_eq, hc] at h
      cases h
      exact absurd hn List.not_mem_nil
    | true =>
      obtain ⟨survey, hu⟩ := unfolds_of_expandField h hc
      have hknown := hI.ofChildren hu.survey_eq hchildren
      rcases Field.mem_spreads.mp hn with hmem | ⟨s, hs, hmem | ⟨k, hk, hmem⟩⟩
      · rw [hu.fragments] at hmem
        obtain ⟨e, he, hspread⟩ := Survey.mem_fragments.mp hmem
        exact hknown.spreads e he n hspread
      · rw [hu.fragmentsFor s hs] at hmem
        obtain ⟨e, he, -, hspread⟩ := Survey.mem_fragmentsFor.mp hmem
        exact hknown.spreads e he n hspread
      · rcases hu.exists_of_mem_fields hs hk with rfl | ⟨merged, hmerged, m, hm, hok⟩
        · exact absurd hmem List.not_mem_nil
        · exact ih _ (hsize ▸ Field.size_lt_of_mem hs hk) hok
            (hI.fieldsFor hknown hmerged hm) hmem rfl

/-- What is spread in the tree of a fragment can be reached from it in the text. -/
theorem transGen_of_mem_spreads {schema : Schema} {policy : TypenamePolicy} {name : Name}
    {fragment : Fragment} (hf : d.fragment? name = some fragment) {f : Field}
    (h : expandRoot schema d policy fragment.typeCondition fragment.selections [name] = .ok f)
    {n : Name} (hn : n ∈ f.spreads) : TransGen d.Spreads name n := by
  have hselections : ∀ s ∈ fragment.selections, name ∈ [name] ∧ d.Follows [name] s := by
    refine fun s hs ↦
      ⟨List.mem_singleton_self name, fun m hm ↦ List.pairwise_pair.mpr (.single ⟨fragment, hf, ?_⟩)⟩
    exact Selection.mem_spreadsAll.mpr ⟨s, hs, hm⟩
  rw [expandRoot] at h
  obtain ⟨type, -, h⟩ := Error.bind_eq_ok.mp h
  obtain ⟨path, directives, hmem, hfollows⟩ :=
    (carries_follows.and_mem name).exists_of_mem_spreads h
      (forall_mem_rootChildren (I := fun path s ↦ name ∈ path ∧ d.Follows path s) hselections) hn
  have hpairs := hfollows n (List.mem_singleton_self n)
  exact (List.pairwise_append.mp hpairs).2.2 name hmem n (List.mem_singleton_self n)

end Document

/-! ## The report is right -/

/-- Models are built, or an interface is not at hand, or an invariant is broken. -/
theorem Field.Expanded.failsOnly_modelGroup_of_internal {schema : Schema} {d : Document}
    {policy : TypenamePolicy} {interfaces : Name → Except Error ModelGroup} {P : Error → Prop}
    {f : Field} (h : f.Expanded schema d policy) (hinternal : ∀ details, P (.internal details))
    (hinterfaces : ∀ name ∈ f.spreads, FailsOnly P (interfaces name)) (site : Site)
    (inherited : List ModelGroup) : FailsOnly P (f.modelGroup interfaces site inherited) := by
  by_cases hleaf : f.fieldSets = []
  · rw [Field.modelGroup_eq, if_pos (by rw [hleaf]; rfl)]
    exact .error (hinternal _)
  · exact h.failsOnly_modelGroup hleaf hinterfaces site inherited

namespace FragmentLibrary

variable {schema : Schema} {d : Document} {config : Config} {lib : FragmentLibrary}

/-- Where no fragment waits, a look-up reports no circle. -/
theorem failsOnly_interfaceOf_nil (name : Name) :
    FailsOnly (Error.Traced d) (lib.interfaceOf [] name) := by
  rw [interfaceOf]
  split
  · exact .ok _
  · exact .error (Error.traced_internal _)

theorem failsOnly_entry_traced (name : Name) : FailsOnly (Error.Traced d) (lib.entry name) := by
  rw [entry]
  split
  · exact .ok _
  · exact .error (Error.traced_internal _)

theorem failsOnly_usedFragments_traced (f : Field) :
    FailsOnly (Error.Traced d) (lib.usedFragments f) :=
  .bind (failsOnly_closure_of_missing fun _ ↦ Error.traced_internal _) fun _ _ ↦ .ok _

/-- **A fragment that waits for itself leads back to itself**: those that wait can be reached from
one another. -/
theorem failsOnly_ensure_traced {active : List Name} {name : Name}
    (hactive : (active ++ [name]).Pairwise (TransGen d.Spreads)) :
    FailsOnly (Error.Traced d) (lib.ensure schema d config active name) := by
  induction active, name, lib using ensure.induct d with
  | case1 active name lib hbuilt =>
    rw [ensure, if_pos hbuilt]
    exact .ok lib
  | case2 active name lib hbuilt hmem =>
    rw [ensure, if_neg hbuilt, dif_pos hmem]
    exact .error (Error.traced_fragmentCycle (.of_pairwise hactive hmem))
  | case3 active name lib hbuilt hmem ih =>
    rw [ensure, if_neg hbuilt, dif_neg hmem]
    refine Error.failsOnly_wrap ?_
    split
    · exact .error (Error.IsLocal.traced trivial)
    rename_i fragment hf
    refine .bind (failsOnly_expandRoot_of_carries Document.carries_follows Document.blames_follows
      fun s hs n hn ↦ ?_) fun field hfield ↦ ?_
    · exact List.pairwise_pair.mpr
        (.single ⟨fragment, hf, Selection.mem_spreadsAll.mpr ⟨s, hs, hn⟩⟩)
    refine .bind
      (.foldlM (fun rest _ ↦ ∀ n ∈ rest, n ∈ field.spreads) (fun n hn ↦ NameSet.mem_ofList.mp hn)
      (fun spread rest lib hrest ↦ ?_) fun spread rest _ _ hrest _ n hn ↦
        hrest n (List.mem_cons_of_mem spread hn)) fun lib₁ hfold ↦ ?_
    · refine ih fragment hf lib spread (pairwise_transGen_snoc hactive ?_)
      exact Document.transGen_of_mem_spreads hf hfield (hrest spread List.mem_cons_self)
    · refine .bind ((Field.Expanded.of_expandRoot hfield).failsOnly_modelGroup_of_internal
        Error.traced_internal (fun n hn ↦ ?_) _ _) fun _ _ ↦ .ok _
      exact failsOnly_interfaceOf (isSome_built?_of_foldlM hfold (NameSet.mem_ofList.mpr hn))

theorem failsOnly_implement_traced (hsound : lib.Sound schema d config) (name : Name) :
    FailsOnly (Error.Traced d) (lib.implement name) := by
  refine Error.failsOnly_wrap (.bind (failsOnly_entry_traced name) fun b hb ↦ ?_)
  obtain ⟨fragment, -, hfield⟩ := hsound.built b (List.mem_of_find?_eq_some (entry_eq_ok hb))
  exact .bind ((Field.Expanded.of_expandRoot hfield).failsOnly_modelGroup_of_internal
    Error.traced_internal (fun n _ ↦ failsOnly_interfaceOf_nil n) _ _) fun _ _ ↦ .ok _

theorem failsOnly_ofDocument_traced : FailsOnly (Error.Traced d) (ofDocument schema d config) := by
  refine .foldlM (fun _ lib ↦ lib.Sound schema d config) sound_empty (fun f rest lib hsound ↦ ?_)
    fun f rest lib lib' hsound hok ↦ ?_
  · refine .bind (failsOnly_ensure_traced (List.pairwise_singleton _ _)) fun lib₁ hensure ↦ ?_
    split
    · exact failsOnly_implement_traced (hsound.of_ensure hensure) f.name
    · exact .ok lib₁
  · obtain ⟨lib₁, hensure, hok⟩ := Error.bind_eq_ok.mp hok
    split at hok
    · exact (hsound.of_ensure hensure).of_implement hok
    · cases hok
      exact hsound.of_ensure hensure

end FragmentLibrary

section build

variable {schema : Schema} {d : Document} {config : Config} {lib : FragmentLibrary}

theorem Schema.failsOnly_addUsedTypes_traced (names seen : List Name) :
    FailsOnly (Error.Traced d) (schema.addUsedTypes names seen) :=
  failsOnly_closure_of_missing fun _ ↦ Error.IsLocal.traced trivial

theorem Schema.failsOnly_usedInputObjects_traced (names : List Name) :
    FailsOnly (Error.Traced d) (schema.usedInputObjects names) := by
  refine .filterMapM fun t ht ↦ ?_
  split
  · split
    · refine .bind (.mapM fun i _ ↦ ?_) fun _ _ ↦ .ok _
      exact .bind ((schema.failsOnly_resolve i.type).mono fun _ he ↦ he.traced) fun _ _ ↦ .ok _
    · exact .ok _
  · exact .ok _

theorem failsOnly_buildFragments_traced (fragments : List Fragment) (used : List Name) :
    FailsOnly (Error.Traced d) (buildFragments schema config lib fragments used) := by
  induction fragments generalizing used with
  | nil => exact .ok _
  | cons f rest ih =>
    refine .bind
      (Error.failsOnly_wrap (.bind (FragmentLibrary.failsOnly_entry_traced f.name) fun b _ ↦ ?_))
      fun _ _ ↦ ?_
    · exact .bind (FragmentLibrary.failsOnly_usedFragments_traced _) fun _ _ ↦ .ok _
    · exact .bind (Schema.failsOnly_addUsedTypes_traced _ _) fun used _ ↦
        .bind (ih used) fun _ _ ↦ .ok _

theorem failsOnly_buildOperation_traced (name : Name) (o : Operation) :
    FailsOnly (Error.Traced d) (buildOperation schema d config lib name o) := by
  refine .bind ((schema.failsOnly_root o.kind).mono fun _ he ↦ he.traced) fun rootType _ ↦ ?_
  refine .bind (failsOnly_expandRoot_of_carries Document.carries_follows Document.blames_follows
    fun s _ n _ ↦ ?_) fun field hfield ↦ ?_
  · exact List.pairwise_singleton _ _
  refine .bind ((Field.Expanded.of_expandRoot hfield).failsOnly_modelGroup_of_internal
    Error.traced_internal (fun n _ ↦ FragmentLibrary.failsOnly_interfaceOf_nil n) _ _)
    fun group _ ↦ ?_
  refine .bind (.mapM fun v _ ↦ ?_) fun inputs _ ↦ ?_
  · exact .bind ((schema.failsOnly_resolve v.type).mono fun _ he ↦ he.traced) fun _ _ ↦ .ok _
  · exact .bind (FragmentLibrary.failsOnly_usedFragments_traced _) fun _ _ ↦ .ok _

theorem failsOnly_buildOperations_traced (named : List (Name × Operation)) (used : List Name) :
    FailsOnly (Error.Traced d) (buildOperations schema d config lib named used) := by
  induction named generalizing used with
  | nil => exact .ok _
  | cons p rest ih =>
    refine .bind (Error.failsOnly_wrap (failsOnly_buildOperation_traced p.1 p.2)) fun built _ ↦ ?_
    refine .bind (Schema.failsOnly_addUsedTypes_traced _ _) fun used _ ↦ ?_
    exact .bind (Schema.failsOnly_addUsedTypes_traced _ _) fun used _ ↦
      .bind (ih used) fun _ _ ↦ .ok _

/-- **A build that reports a circle is right.** -/
theorem failsOnly_build_traced (schema : Schema) (config : Config) (d : Document) :
    FailsOnly (Error.Traced d) (build schema config d) := by
  rw [build]
  split
  · refine .error fun fragment path hcause ↦ ?_
    cases hcause
  · refine .bind FragmentLibrary.failsOnly_ofDocument_traced fun lib _ ↦ ?_
    refine .bind (failsOnly_buildFragments_traced d.fragments []) fun fragments _ ↦ ?_
    refine .bind (failsOnly_buildOperations_traced d.namedOperations _) fun operations _ ↦ ?_
    exact .bind (Schema.failsOnly_usedInputObjects_traced _) fun _ _ ↦ .ok _

end build

/-! ## Nothing is missed -/

/-- Fragments in an order in which each comes after those spread in its tree. -/
inductive Layered : List BuiltFragment → Prop
  | nil : Layered []
  | snoc {before : List BuiltFragment} {b : BuiltFragment} (earlier : Layered before)
      (below : ∀ n ∈ b.field.spreads, n ∈ before.map BuiltFragment.name) : Layered (before ++ [b])

/-- What is spread in a fragment has an earlier position. -/
theorem Layered.idxOf_lt {built : List BuiltFragment} (h : Layered built)
    (hnodup : (built.map BuiltFragment.name).Nodup) {b : BuiltFragment} (hb : b ∈ built) {n : Name}
    (hn : n ∈ b.field.spreads) :
    (built.map BuiltFragment.name).idxOf n < (built.map BuiltFragment.name).idxOf b.name := by
  induction h with
  | nil => exact absurd hb List.not_mem_nil
  | @snoc before last earlier below ih =>
    rw [List.map_append, List.nodup_append] at hnodup
    obtain ⟨hbefore, -, hfresh⟩ := hnodup
    rw [List.map_append]
    rcases List.mem_append.mp hb with hb | hb
    · have hlt := ih hbefore hb
      have hmem : n ∈ before.map BuiltFragment.name :=
        List.idxOf_lt_length_iff.mp
          (Nat.lt_trans hlt (List.idxOf_lt_length_of_mem (List.mem_map_of_mem hb)))
      rwa [List.idxOf_append_of_mem hmem, List.idxOf_append_of_mem (List.mem_map_of_mem hb)]
    · cases List.mem_singleton.mp hb
      have hmem := below n hn
      have hnew : b.name ∉ before.map BuiltFragment.name := fun hold ↦ hfresh _ hold _ (by simp) rfl
      rw [List.idxOf_append_of_mem hmem, List.idxOf_append_of_notMem hnew]
      exact Nat.lt_of_lt_of_le (List.idxOf_lt_length_of_mem hmem) (Nat.le_add_right _ _)

namespace FragmentLibrary

variable {schema : Schema} {d : Document} {config : Config} {lib lib' : FragmentLibrary}

theorem mem_map_name_iff {name : Name} :
    name ∈ lib.built.map BuiltFragment.name ↔ (lib.built? name).isSome := by
  rw [built?, List.find?_isSome]
  simp

/-- Ensuring that a fragment is built keeps the order. -/
theorem layered_of_ensure {active : List Name} {name : Name} (hlayered : Layered lib.built)
    (h : lib.ensure schema d config active name = .ok lib') : Layered lib'.built := by
  induction active, name, lib using ensure.induct d generalizing lib' with
  | case1 active name lib hbuilt =>
    rw [ensure, if_pos hbuilt] at h
    cases h
    exact hlayered
  | case2 active name lib hbuilt hmem =>
    rw [ensure, if_neg hbuilt, dif_pos hmem] at h
    cases h
  | case3 active name lib hbuilt hmem ih =>
    rw [ensure, if_neg hbuilt, dif_neg hmem, Error.wrap_eq_ok] at h
    split at h
    · cases h
    rename_i fragment hf
    obtain ⟨field, -, h⟩ := Error.bind_eq_ok.mp h
    obtain ⟨lib₁, hfold, h⟩ := Error.bind_eq_ok.mp h
    obtain ⟨interface, -, h⟩ := Error.bind_eq_ok.mp h
    cases h
    refine .snoc ?_ fun n hn ↦
      mem_map_name_iff.mpr (isSome_built?_of_foldlM hfold (NameSet.mem_ofList.mpr hn))
    exact Error.foldlM_invariant (I := fun _ (lib : FragmentLibrary) ↦ Layered lib.built)
      (fun spread _ lib lib' hlib hok ↦ ih fragment hf lib spread hlib hok) hlayered hfold

theorem layered_ofDocument (h : ofDocument schema d config = .ok lib) : Layered lib.built := by
  refine Error.foldlM_invariant (I := fun _ (lib : FragmentLibrary) ↦ Layered lib.built)
    (fun fragment _ lib lib' hlayered hok ↦ ?_) .nil h
  obtain ⟨lib₁, hensure, hok⟩ := Error.bind_eq_ok.mp hok
  have hlayered₁ := layered_of_ensure hlayered hensure
  split at hok
  · exact (built_implement hok) ▸ hlayered₁
  · cases hok
    exact hlayered₁

end FragmentLibrary

/-- **The spreads that a build records lead back nowhere.** -/
theorem not_transGen_records {schema : Schema} {config : Config} {d : Document}
    {ir : Representation} (h : build schema config d = .ok ir) (name : Name) :
    ¬ TransGen ir.Records name name := by
  obtain ⟨lib, _, _, _, hlib, hfragments, -⟩ := build_eq_ok h
  have hlt : ∀ {a b}, TransGen ir.Records a b →
      (lib.built.map BuiltFragment.name).idxOf b < (lib.built.map BuiltFragment.name).idxOf a := by
    have hstep : ∀ {a b}, ir.Records a b →
        (lib.built.map BuiltFragment.name).idxOf b <
          (lib.built.map BuiltFragment.name).idxOf a := by
      intro a b hab
      rw [← refers_iff_records hlib hfragments, FragmentLibrary.refers_spreadTable_iff] at hab
      obtain ⟨c, hc, hb⟩ := hab
      have hname : c.name = a := by simpa using List.find?_some hc
      exact hname ▸ (FragmentLibrary.layered_ofDocument hlib).idxOf_lt
        (FragmentLibrary.wired_ofDocument hlib).stacked.nodup (List.mem_of_find?_eq_some hc) hb
    intro a b hab
    induction hab with
    | single hab => exact hstep hab
    | tail _ hbc ih => exact Nat.lt_trans (hstep hbc) ih
  exact fun hcycle ↦ Nat.lt_irrefl _ (hlt hcycle)

/-! ## The result -/

/-- **Circles are reported where they are, and none is built.** An error that a fragment spreads
itself ends in the fragment, which is on the path before, and each fragment of the path can be
reached from the one before it by spreads in the text; so a document without circles in its text
never gets this error. After a build no fragment uses itself, and the spreads that were recorded
form no circle. -/
theorem cycles_reported (schema : Schema) (config : Config) (d : Document) :
    (∀ e fragment path, build schema config d = .error e →
      e.rootCause = .fragmentCycle fragment path →
      (∃ before, path = before ++ [fragment] ∧ fragment ∈ before) ∧
      path.IsChain (TransGen d.Spreads)) ∧
    (d.Acyclic → ∀ e, build schema config d = .error e → e.code ≠ .fragmentCycle) ∧
    ∀ ir, build schema config d = .ok ir →
      (∀ r ∈ ir.fragments, r.name ∉ r.fragmentNames) ∧ ∀ name, ¬ TransGen ir.Records name name := by
  refine ⟨fun e fragment path he hcause ↦ ?_, fun hacyclic e he hcode ↦ ?_, fun ir hir ↦
    ⟨fun r hr hmem ↦ ?_, ?_⟩⟩
  · have hcircle := failsOnly_build_traced schema config d e he fragment path hcause
    exact ⟨hcircle.returns, hcircle.chain⟩
  · obtain ⟨fragment, path, hcause⟩ := Error.exists_of_code hcode
    exact (failsOnly_build_traced schema config d e he fragment path hcause).not_acyclic hacyclic
  · exact not_transGen_records hir r.name ((mem_fragmentNames_iff hir hr).mp hmem)
  · exact not_transGen_records hir

/-- A host whose friend is a guest whose friend is a host is reported; where two ways lead to one
fragment, all is well. -/
theorem cycles_reported_host :
    (∃ e, build Sample.searchable {} Sample.circular = .error e ∧
      e.rootCause = .fragmentCycle "Host" ["Host", "Guest", "Host"] ∧
      ["Host", "Guest", "Host"].IsChain (TransGen Sample.circular.Spreads)) ∧
    ∃ ir, build Sample.schema {} Sample.diamond = .ok ir ∧
      (∃ r ∈ ir.fragments, "Named" ∈ r.fragmentNames) ∧
      ∀ r ∈ ir.fragments, r.name ∉ r.fragmentNames := by
  refine ⟨?_, ?_⟩
  · have hcause : (match build Sample.searchable {} Sample.circular with
        | .error e => decide (e.rootCause = .fragmentCycle "Host" ["Host", "Guest", "Host"])
        | .ok _ => false) = true := by decide +kernel
    cases hbuild : build Sample.searchable {} Sample.circular with
    | ok ir =>
      rw [hbuild] at hcause
      cases hcause
    | error e =>
      rw [hbuild] at hcause
      have hroot := of_decide_eq_true hcause
      exact ⟨e, rfl, hroot, ((cycles_reported _ _ _).1 e _ _ hbuild hroot).2⟩
  · have hnamed : (build Sample.schema {} Sample.diamond).toOption.any fun ir ↦
        ir.fragments.any fun r ↦ decide ("Named" ∈ r.fragmentNames) := by decide +kernel
    obtain ⟨ir, hir, hnamed⟩ := Error.exists_of_any hnamed
    obtain ⟨r, hr, hmem⟩ := List.any_eq_true.mp hnamed
    exact ⟨ir, hir, ⟨r, hr, of_decide_eq_true hmem⟩, ((cycles_reported _ _ _).2.2 ir hir).1⟩

end ResponseModels
