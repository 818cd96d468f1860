import ResponseModels.Proofs.Collect.Carried

/-!
# How collecting fails

A step of the build that fails says why. `FailsOnly` is about the errors that a step can give: it
goes through the steps of a computation one by one, so that the errors of the whole are known from
those of its parts. A step that fails only with errors of no kind succeeds (`FailsOnly.exists_ok`).

Collecting fields looks up names in the schema and the document, and this fails only with *local*
errors. Besides, it fails over a fragment that leads back to itself, and then the error has what is
known of the path there (`Document.Blames`, `failsOnly_expandRoot_of_carries`). Nothing else goes
wrong: the one invariant that collecting relies on is that a response name which was seen has a
declaration, so that no empty group is merged.

So whatever a document holds, collecting fails only with *plain* errors: no invariant is broken, and
no definition is named yet (`failsOnly_expandRoot`).
-/

set_option autoImplicit false

namespace ResponseModels

/-- A step of the build fails with errors of a kind, if it fails at all. -/
def FailsOnly {α : Type} (P : Error → Prop) (x : Except Error α) : Prop :=
  ∀ e, x = .error e → P e

namespace FailsOnly

variable {α β : Type} {P Q : Error → Prop}

theorem ok (a : α) : FailsOnly P (.ok a) := fun _ h ↦ by cases h

theorem error {e : Error} (h : P e) : FailsOnly P (.error e : Except Error α) := by
  rintro _ ⟨⟩
  exact h

theorem mono {x : Except Error α} (h : FailsOnly P x) (hPQ : ∀ e, P e → Q e) : FailsOnly Q x :=
  fun e he ↦ hPQ e (h e he)

theorem exists_ok {x : Except Error α} (h : FailsOnly (fun _ ↦ False) x) : ∃ a, x = .ok a := by
  cases x with
  | error e => exact (h e rfl).elim
  | ok a => exact ⟨a, rfl⟩

/-- **A step followed by another fails as one of the two does.** -/
theorem bind {x : Except Error α} {f : α → Except Error β} (hx : FailsOnly P x)
    (hf : ∀ a, x = .ok a → FailsOnly P (f a)) : FailsOnly P (x >>= f) := by
  cases x with
  | error e => exact .error (hx e rfl)
  | ok a => exact hf a rfl

theorem mapM {f : α → Except Error β} {l : List α} (h : ∀ a ∈ l, FailsOnly P (f a)) :
    FailsOnly P (l.mapM f) := by
  induction l with
  | nil => exact .ok []
  | cons a rest ih =>
    rw [List.mapM_cons]
    refine .bind (h a List.mem_cons_self) fun b _ ↦ ?_
    exact .bind (ih fun a' ha' ↦ h a' (List.mem_cons_of_mem a ha')) fun bs _ ↦ .ok _

theorem filterAuxM {f : α → Except Error Bool} {l acc : List α} (h : ∀ a ∈ l, FailsOnly P (f a)) :
    FailsOnly P (l.filterAuxM f acc) := by
  induction l generalizing acc with
  | nil => exact .ok acc
  | cons a rest ih =>
    rw [List.filterAuxM]
    exact .bind (h a List.mem_cons_self) fun b _ ↦ ih fun a' ha' ↦ h a' (List.mem_cons_of_mem a ha')

theorem filterM {f : α → Except Error Bool} {l : List α} (h : ∀ a ∈ l, FailsOnly P (f a)) :
    FailsOnly P (l.filterM f) :=
  .bind (.filterAuxM h) fun _ _ ↦ .ok _

/-- A run fails as one of its steps does. An invariant may speak of the elements that are still to
come. -/
theorem foldlM {f : β → α → Except Error β} (I : List α → β → Prop) {l : List α} {b : β}
    (hb : I l b) (hfails : ∀ a rest b, I (a :: rest) b → FailsOnly P (f b a))
    (hstep : ∀ a rest b b', I (a :: rest) b → f b a = .ok b' → I rest b') :
    FailsOnly P (l.foldlM f b) := by
  induction l generalizing b with
  | nil => exact .ok b
  | cons a rest ih =>
    rw [List.foldlM_cons]
    exact .bind (hfails a rest b hb) fun b' hb' ↦ ih (hstep a rest b b' hb hb')

end FailsOnly

/-- An error that does not name its definition, and is not about the builder itself. -/
def Error.IsPlain : Error → Prop
  | .internal _ | .within .. => False
  | _ => True

/-- A plain error that is not about fragments that lead back to themselves. -/
def Error.IsLocal : Error → Prop
  | .internal _ | .within .. | .fragmentCycle .. => False
  | _ => True

theorem Error.IsLocal.isPlain {e : Error} (h : e.IsLocal) : e.IsPlain := by
  cases e <;> first | exact h.elim | exact trivial

/-- An error about two declarations that differ. -/
def Error.IsConflict : Error → Prop
  | .fieldConflict .. => True
  | _ => False

theorem Error.IsConflict.isLocal {e : Error} (h : e.IsConflict) : e.IsLocal := by
  cases e <;> first | exact h.elim | exact trivial

/-! ## Looking things up -/

namespace Schema

variable (schema : Schema)

theorem failsOnly_possibleTypes (name : Name) :
    FailsOnly Error.IsLocal (schema.possibleTypes name) := by
  rw [possibleTypes]
  split
  · exact .ok _
  · exact .error trivial

theorem failsOnly_type (name : Name) : FailsOnly Error.IsLocal (schema.type name) := by
  rw [type]
  split
  · exact .ok _
  · exact .error trivial

theorem failsOnly_resolve : ∀ t : TypeExpr Name, FailsOnly Error.IsLocal (schema.resolve t)
  | .named name => .bind (schema.failsOnly_type name) fun _ _ ↦ .ok _
  | .list item => .bind (failsOnly_resolve item) fun _ _ ↦ .ok _
  | .nonNull item => .bind (failsOnly_resolve item) fun _ _ ↦ .ok _

theorem failsOnly_field (parent name : Name) :
    FailsOnly Error.IsLocal (schema.field parent name) := by
  rw [field]
  split
  · exact .ok _
  · exact .error trivial

theorem failsOnly_root (kind : OperationKind) : FailsOnly Error.IsLocal (schema.root kind) := by
  rw [root]
  split
  · exact .ok _
  · exact .error trivial

theorem failsOnly_derivedShapes (rawType : Name) (typeConditions : List Name) :
    FailsOnly Error.IsLocal (schema.derivedShapes rawType typeConditions) := by
  refine .bind (schema.failsOnly_possibleTypes rawType) fun _ _ ↦ ?_
  refine .bind (.mapM fun c _ ↦ ?_) fun _ _ ↦ .ok _
  exact .bind (schema.failsOnly_possibleTypes c) fun _ _ ↦ .ok _

theorem failsOnly_typesSatisfying (rawType : Name) (typeSet : NameSet) :
    FailsOnly Error.IsLocal (schema.typesSatisfying rawType typeSet) := by
  refine .bind (schema.failsOnly_possibleTypes rawType) fun _ _ ↦ ?_
  exact .bind (.mapM fun c _ ↦ schema.failsOnly_possibleTypes c) fun _ _ ↦ .ok _

end Schema

namespace Condition

theorem failsOnly_ofDirective (d : Directive) (inverted : Bool) :
    FailsOnly Error.IsLocal (ofDirective d inverted) := by
  rw [ofDirective]
  split
  · exact .error trivial
  · exact .ok _
  · exact .ok _
  · exact .error trivial

theorem failsOnly_stated (selection : String) (directives : List Directive)
    (found : List Condition) :
    FailsOnly Error.IsLocal (stated selection directives found) := by
  induction directives generalizing found with
  | nil => exact .ok found
  | cons d rest ih =>
    rw [stated]
    split
    · exact ih found
    · refine .bind (failsOnly_ofDirective d _) fun condition _ ↦ ?_
      split
      · exact .error trivial
      · exact ih _

theorem failsOnly_ofDirectives (directives : List Directive) (selection : String) :
    FailsOnly Error.IsLocal (ofDirectives directives selection) :=
  .bind (failsOnly_stated selection directives []) fun _ _ ↦ .ok _

end Condition

/-! ## Surveying -/

/-- Where something is known of the selections come upon, errors are of a kind: the local ones, and
those over a fragment that is being expanded already. -/
structure Document.Blames (I : List Name → Selection → Prop) (P : Error → Prop) : Prop where
  /-- Local errors are of the kind. -/
  ofLocal : ∀ e : Error, e.IsLocal → P e
  /-- So is the error over a spread of a fragment that is being expanded, where it is come upon. -/
  ofCycle {path : List Name} {name : Name} {directives : List Directive}
    (h : I path (.spread name directives))
    (mem : name ∈ path) : P (.fragmentCycle name (path ++ [name]))

theorem Scope.failsOnly_enter (schema : Schema) (fieldTypes : NameSet) (scope : Scope)
    (typeCondition : Name) (condition : Condition) :
    FailsOnly Error.IsLocal (scope.enter schema fieldTypes typeCondition condition) := by
  refine .bind (schema.failsOnly_possibleTypes typeCondition) fun _ _ ↦ ?_
  dsimp only
  split <;> exact .ok _

section

variable {schema : Schema} {d : Document} {fieldTypes : NameSet} {I : List Name → Selection → Prop}
  {P : Error → Prop} (hI : d.Carries I) (hP : Document.Blames I P)
include hI hP

theorem failsOnly_surveySelections {trail : Trail} {scope : Scope}
    {selections : List (Place × Selection)} {expanded : List Expansion}
    (hselections : ∀ ps ∈ selections, I trail.path ps.2) :
    FailsOnly P (surveySelections schema d fieldTypes trail scope selections expanded) := by
  have hdirectives : ∀ directives text, FailsOnly P (Condition.ofDirectives directives text) :=
    fun directives text ↦ (Condition.failsOnly_ofDirectives directives text).mono hP.ofLocal
  have henter :
      ∀ (scope : Scope) c condition, FailsOnly P (scope.enter schema fieldTypes c condition) :=
    fun scope c condition ↦ (scope.failsOnly_enter schema fieldTypes c condition).mono hP.ofLocal
  induction trail, scope, selections, expanded using surveySelections.induct d with
  | case1 trail scope expanded =>
    rw [surveySelections]
    exact .ok _
  | case2 trail scope expanded place head selections rest ih =>
    rw [surveySelections]
    obtain ⟨-, hrest⟩ := List.forall_mem_cons.mp hselections
    exact .bind (hdirectives _ _) fun _ _ ↦ .bind (ih hrest) fun _ _ ↦ .ok _
  | case3 trail scope expanded place typeCondition directives selections rest ihInside ihRest =>
    rw [surveySelections]
    obtain ⟨hfirst, hrest⟩ := List.forall_mem_cons.mp hselections
    refine .bind (hdirectives _ _) fun _ _ ↦ ?_
    refine .bind (henter scope _ _) fun entered _ ↦ .bind ?_ fun r _ ↦ ?_
    · cases entered with
      | none => exact .ok _
      | some entered =>
        refine .bind (ihInside entered.1 fun ps hps ↦ ?_) fun _ _ ↦ .ok _
        exact hI.inline hfirst (Place.mem_of_mem_locate hps)
    · exact .bind (ihRest r.2 hrest) fun _ _ ↦ .ok _
  | case4 trail scope expanded place name directives rest hf =>
    rw [surveySelections]
    split
    · exact .error (hP.ofLocal _ trivial)
    · rename_i hf'
      rw [hf] at hf'
      cases hf'
  | case5 trail scope expanded place name directives rest fragment hf hp =>
    rw [surveySelections]
    split
    · exact .error (hP.ofLocal _ trivial)
    · rw [dif_pos hp]
      exact .error (hP.ofCycle (List.forall_mem_cons.mp hselections).1 hp)
  | case6 trail scope expanded place name directives rest fragment hf hp ihInside ihRest =>
    rw [surveySelections]
    obtain ⟨hfirst, hrest⟩ := List.forall_mem_cons.mp hselections
    split
    · exact .error (hP.ofLocal _ trivial)
    rename_i fragment' hf'
    cases hf.symm.trans hf'
    rw [dif_neg hp]
    refine .bind (hdirectives _ _) fun _ _ ↦ ?_
    refine .bind (henter scope _ _) fun entered _ ↦ .bind ?_ fun r _ ↦ ?_
    · cases entered with
      | none => exact .ok _
      | some entered =>
        dsimp only
        split
        · exact .ok _
        · refine .bind (ihInside entered.1 fun ps hps ↦ ?_) fun _ _ ↦ .ok _
          exact hI.spread hfirst hf (Place.mem_of_mem_locate hps)
    · exact .bind (ihRest r.2 hrest) fun _ _ ↦ .ok _

theorem failsOnly_surveyChildren {rawType : Name} {children : List Child}
    {expanded : List Expansion} (hchildren : ∀ c ∈ children, I c.path c.selection) :
    FailsOnly P (surveyChildren schema d fieldTypes rawType children expanded) := by
  induction children generalizing expanded with
  | nil => exact .ok _
  | cons c rest ih =>
    rw [surveyChildren]
    obtain ⟨hfirst, hrest⟩ := List.forall_mem_cons.mp hchildren
    refine .bind (failsOnly_surveySelections hI hP (List.forall_mem_singleton.mpr hfirst))
      fun r _ ↦ ?_
    exact .bind (ih hrest) fun _ _ ↦ .ok _

theorem Survey.failsOnly_ofChildren {rawType : Name} {children : List Child}
    (hchildren : ∀ c ∈ children, I c.path c.selection) :
    FailsOnly P (Survey.ofChildren schema d rawType children) := by
  refine .bind ((schema.failsOnly_possibleTypes rawType).mono hP.ofLocal) fun fieldTypes _ ↦ ?_
  exact .bind (failsOnly_surveyChildren hI hP hchildren) fun _ _ ↦ .ok _

end

theorem Survey.failsOnly_shapes (schema : Schema) (s : Survey) :
    FailsOnly Error.IsLocal (s.shapes schema) := by
  refine .bind (schema.failsOnly_derivedShapes _ _) fun _ _ ↦ ?_
  refine .bind (.filterM fun t _ ↦ ?_) fun _ _ ↦ .ok _
  exact .bind (schema.failsOnly_typesSatisfying _ t) fun _ _ ↦ .ok _

/-! ## Merging and expanding -/

theorem Occurrence.failsOnly_declaration (o : Occurrence) (schema : Schema) :
    FailsOnly Error.IsLocal (o.declaration schema) := by
  refine .bind (.bind (schema.failsOnly_field _ _) fun definition _ ↦ ?_) fun _ _ ↦ .ok _
  have harguments : FailsOnly Error.IsLocal (o.arguments schema definition) := by
    refine .bind (.mapM fun a _ ↦ ?_) fun _ _ ↦ .ok _
    dsimp only
    split
    · exact .error trivial
    · exact .bind (schema.failsOnly_resolve _) fun _ _ ↦ .ok _
  exact .bind harguments fun _ _ ↦ .bind (schema.failsOnly_resolve _) fun _ _ ↦ .ok _

namespace Declaration

theorem failsOnly_checkSame (first other : FieldInfo) :
    FailsOnly Error.IsConflict (checkSame first other) := by
  rw [checkSame]
  split
  · exact .error trivial
  split
  · exact .error trivial
  split
  · exact .error trivial
  · exact .ok _

theorem failsOnly_mergeGroup {group : List Declaration} (h : group ≠ []) :
    FailsOnly Error.IsConflict (mergeGroup group) := by
  cases group with
  | nil => exact absurd rfl h
  | cons first rest =>
    refine .foldlM (fun _ _ ↦ True) trivial (fun other _ merged _ ↦ ?_) fun _ _ _ _ _ _ ↦ trivial
    exact .bind (failsOnly_checkSame _ _) fun _ _ ↦ .ok _

/-- The group of a response name that was seen is not empty. -/
theorem failsOnly_merge (declarations : List Declaration) :
    FailsOnly Error.IsConflict (merge declarations) := by
  refine .mapM fun n hn ↦ failsOnly_mergeGroup ?_
  rw [List.mem_eraseDups] at hn
  obtain ⟨m, hm, rfl⟩ := List.mem_map.mp hn
  exact List.ne_nil_of_mem (List.mem_filter.mpr ⟨hm, beq_self_eq_true _⟩)

end Declaration

theorem Survey.failsOnly_fieldsFor (s : Survey) (schema : Schema) (typeSet : NameSet) :
    FailsOnly Error.IsLocal (s.fieldsFor schema typeSet) :=
  .bind (.mapM fun o _ ↦ o.failsOnly_declaration schema) fun _ _ ↦
    (Declaration.failsOnly_merge _).mono fun _ ↦ Error.IsConflict.isLocal

/-- **Expanding a field fails only with local errors, or over a fragment that leads back to
itself.** -/
theorem failsOnly_expandField {schema : Schema} {d : Document} {policy : TypenamePolicy}
    {I : List Name → Selection → Prop} {P : Error → Prop} (hI : d.Carries I)
    (hP : Document.Blames I P) {field : Declaration}
    (hchildren : ∀ c ∈ field.children, I c.path c.selection) :
    FailsOnly P (expandField schema d policy field) := by
  induction hrank : d.rank field.children using Nat.strongRecOn generalizing field with
  | _ rank ih =>
    rw [expandField_eq]
    split
    · refine .bind (Survey.failsOnly_ofChildren hI hP hchildren) fun survey hsurvey ↦ ?_
      refine .bind ((survey.failsOnly_shapes schema).mono hP.ofLocal) fun shapes _ ↦ ?_
      refine .bind (.mapM fun shape _ ↦ ?_) fun _ _ ↦ .ok _
      refine .bind ((survey.failsOnly_fieldsFor schema _).mono hP.ofLocal) fun merged hmerged ↦ ?_
      refine .bind (.mapM fun m hm ↦ ?_) fun _ _ ↦ .ok _
      have hmem := (List.mem_filter.mp hm).1
      refine ih _ ?_ (hI.fieldsFor (hI.ofChildren hsurvey hchildren) hmerged hmem) rfl
      exact hrank ▸ Survey.rank_lt_of_mem_fieldsFor hsurvey hmerged hmem
    · exact .ok _

theorem failsOnly_expandRoot_of_carries {schema : Schema} {d : Document} {policy : TypenamePolicy}
    {I : List Name → Selection → Prop} {P : Error → Prop} (hI : d.Carries I)
    (hP : Document.Blames I P) {rawType : Name} {selections : List Selection} {path : List Name}
    (hselections : ∀ s ∈ selections, I path s) :
    FailsOnly P (expandRoot schema d policy rawType selections path) :=
  .bind ((schema.failsOnly_resolve _).mono hP.ofLocal) fun _ _ ↦
    failsOnly_expandField hI hP (forall_mem_rootChildren hselections)

/-- **Collecting fails only with plain errors.** -/
theorem failsOnly_expandRoot (schema : Schema) (d : Document) (policy : TypenamePolicy)
    (rawType : Name) (selections : List Selection) (path : List Name) :
    FailsOnly Error.IsPlain (expandRoot schema d policy rawType selections path) := by
  have hcarries : d.Carries fun _ _ ↦ True :=
    ⟨fun _ _ ↦ trivial, fun _ _ ↦ trivial, fun _ _ _ ↦ trivial⟩
  exact failsOnly_expandRoot_of_carries hcarries ⟨fun _ he ↦ he.isPlain, fun _ _ ↦ trivial⟩
    fun _ _ ↦ trivial

end ResponseModels
