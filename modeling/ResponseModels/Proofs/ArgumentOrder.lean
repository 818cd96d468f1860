import Mathlib.Data.List.Nodup
import Mathlib.Data.List.Perm.Basic
import Mathlib.Data.List.Sort
import ResponseModels.Proofs.Restatement

/-!
# The order of arguments

The arguments of a field can be written in any order. Where their names differ, what is known of the
field lists them by name, and only there are they looked at.

* `Document.ReordersArguments` says of two documents that they are the same up to the order in which
  the fields in them have their arguments, at any depth.
* Arguments sorted by name are the same list whatever order they were written in
  (`Argument.mergeSort_eq_of_perm`), so what is known of a field is the same
  (`Occurrence.yields_info`).
* Surveys of such documents find the same fields and fragments, selection by selection
  (`Surveys.exists_of_reorders`), which have the same trees (`expandRoot_of_reorders`).
* **The order of arguments does not matter** (`build_of_reordered_arguments`).
-/

set_option autoImplicit false

namespace ResponseModels

/-! ## Documents -/

/-- Two fields are written the same up to the order of their arguments, no two of which have one
name. -/
structure FieldHead.ReordersArguments (head head' : FieldHead) : Prop where
  /-- All else is the same. -/
  rest : head' = { head with arguments := head'.arguments }
  /-- The arguments are the same in another order. -/
  order : head.arguments.Perm head'.arguments
  /-- They have different names. -/
  distinct : (head.arguments.map Prod.fst).Nodup

/-- Two selections are the same up to the order of the arguments of the fields in them, each field
having arguments of different names. -/
inductive Selection.ReordersArguments : Selection → Selection → Prop
  | field {head head' : FieldHead} {l l' : List Selection}
      (arguments : head.ReordersArguments head')
      (inside : List.Forall₂ Selection.ReordersArguments l l') :
      Selection.ReordersArguments (.field head l) (.field head' l')
  | inline (typeCondition : Option Name) (directives : List Directive) {l l' : List Selection}
      (inside : List.Forall₂ Selection.ReordersArguments l l') :
      Selection.ReordersArguments (.inline typeCondition directives l)
        (.inline typeCondition directives l')
  | spread (name : Name) (directives : List Directive) :
      Selection.ReordersArguments (.spread name directives) (.spread name directives)

/-- Two operations are the same up to the order of arguments. -/
structure Operation.ReordersArguments (o o' : Operation) : Prop where
  /-- All but the selections is the same. -/
  rest : o' = { o with selections := o'.selections }
  /-- The selections are the same up to the order of arguments. -/
  selections : List.Forall₂ Selection.ReordersArguments o.selections o'.selections

/-- Two fragments are the same up to the order of arguments. -/
structure Fragment.ReordersArguments (f f' : Fragment) : Prop where
  /-- All but the selections is the same. -/
  rest : f' = { f with selections := f'.selections }
  /-- The selections are the same up to the order of arguments. -/
  selections : List.Forall₂ Selection.ReordersArguments f.selections f'.selections

/-- Two documents are the same up to the order of the arguments of fields, in operations and
fragments, at any depth. No field in them has two arguments of one name. -/
structure Document.ReordersArguments (d d' : Document) : Prop where
  /-- The operations correspond one by one. -/
  operations : List.Forall₂ Operation.ReordersArguments d.operations d'.operations
  /-- The fragments correspond one by one. -/
  fragments : List.Forall₂ Fragment.ReordersArguments d.fragments d'.fragments

namespace FieldHead.ReordersArguments

variable {head head' : FieldHead} (h : head.ReordersArguments head')
include h

theorem symm : head'.ReordersArguments head where
  rest := by rw [h.rest]
  order := h.order.symm
  distinct := (h.order.map Prod.fst).nodup_iff.mp h.distinct

theorem name : head'.name = head.name := by rw [h.rest]

theorem directives : head'.directives = head.directives := by rw [h.rest]

theorem responseName : head'.responseName = head.responseName := by rw [h.rest]; rfl

end FieldHead.ReordersArguments

theorem Fragment.ReordersArguments.typeCondition {f f' : Fragment} (h : f.ReordersArguments f') :
    f'.typeCondition = f.typeCondition := by rw [h.rest]

mutual

theorem Selection.ReordersArguments.symm :
    ∀ {s s' : Selection}, s.ReordersArguments s' → s'.ReordersArguments s
  | _, _, .field arguments inside =>
    .field arguments.symm (Selection.forall₂_reordersArguments_symm inside)
  | _, _, .inline typeCondition directives inside =>
    .inline typeCondition directives (Selection.forall₂_reordersArguments_symm inside)
  | _, _, .spread name directives => .spread name directives

theorem Selection.forall₂_reordersArguments_symm : ∀ {l l' : List Selection},
    List.Forall₂ Selection.ReordersArguments l l' → List.Forall₂ Selection.ReordersArguments l' l
  | _, _, .nil => .nil
  | _, _, .cons h rest => .cons h.symm (Selection.forall₂_reordersArguments_symm rest)

end

namespace Document.ReordersArguments

variable {d d' : Document}

theorem symm (h : d.ReordersArguments d') : d'.ReordersArguments d where
  operations := (h.operations.imp fun o o' ho ↦ show Operation.ReordersArguments o' o from
    ⟨by rw [ho.rest], Selection.forall₂_reordersArguments_symm ho.selections⟩).flip
  fragments := (h.fragments.imp fun f f' hf ↦ show Fragment.ReordersArguments f' f from
    ⟨by rw [hf.rest], Selection.forall₂_reordersArguments_symm hf.selections⟩).flip

/-- A fragment of a name is found in one document if it is found in the other. -/
theorem exists_fragment (h : d.ReordersArguments d') {name : Name} {f : Fragment}
    (hf : d.fragment? name = some f) :
    ∃ f', d'.fragment? name = some f' ∧ f.ReordersArguments f' :=
  exists_of_rel (Document.fragment?_of_forall₂ (fun _ _ hff ↦ by rw [hff.rest]) h.fragments name) hf

end Document.ReordersArguments

/-! ## What is known of a field -/

namespace Argument

private theorem name_le_trans (a b c : Argument) (hab : decide (a.name ≤ b.name) = true)
    (hbc : decide (b.name ≤ c.name) = true) :
    decide (a.name ≤ c.name) = true :=
  decide_eq_true (String.le_trans (of_decide_eq_true hab) (of_decide_eq_true hbc))

private theorem name_le_total (a b : Argument) :
    (decide (a.name ≤ b.name) || decide (b.name ≤ a.name)) = true := by
  simpa using String.le_total a.name b.name

theorem pairwise_mergeSort (l : List Argument) :
    (l.mergeSort fun a b ↦ a.name ≤ b.name).Pairwise fun a b ↦ a.name ≤ b.name :=
  (List.pairwise_mergeSort name_le_trans name_le_total l).imp of_decide_eq_true

/-- Where names differ, arguments have one order by name. -/
theorem mergeSort_eq_of_perm {l l' : List Argument} (hperm : l.Perm l')
    (hnames : (l.map Argument.name).Nodup) :
    (l.mergeSort fun a b ↦ a.name ≤ b.name) = l'.mergeSort fun a b ↦ a.name ≤ b.name := by
  refine List.Perm.eq_of_pairwise (fun a b ha hb hab hba ↦ ?_) (pairwise_mergeSort l)
    (pairwise_mergeSort l')
    (((List.mergeSort_perm l _).trans hperm).trans (List.mergeSort_perm l' _).symm)
  have hb' : b ∈ l := hperm.mem_iff.mpr (List.mem_mergeSort.mp hb)
  exact List.inj_on_of_nodup_map hnames (List.mem_mergeSort.mp ha) hb' (String.le_antisymm hab hba)

/-- Arguments are sorted as if they were inserted one by one, from the last to the first, each
before those of its name. -/
theorem mergeSort_eq_insertionSort (l : List Argument) :
    (l.mergeSort fun a b ↦ a.name ≤ b.name) = l.insertionSort fun a b ↦ a.name ≤ b.name := by
  induction l with
  | nil => rw [List.mergeSort_nil, List.insertionSort_nil]
  | cons a l ih =>
    obtain ⟨before, after, hcons, hrest, hbefore⟩ :=
      List.mergeSort_cons name_le_trans name_le_total a l
    have hafter : ∀ b ∈ after, a.name ≤ b.name := by
      have hsorted := pairwise_mergeSort (a :: l)
      rw [hcons] at hsorted
      exact (List.pairwise_cons.mp (List.pairwise_append.mp hsorted).2.1).1
    rw [List.insertionSort_cons, ← ih, hrest, hcons]
    clear ih hrest hcons
    induction before with
    | nil =>
      cases after with
      | nil => rfl
      | cons b rest =>
        exact (List.orderedInsert_cons_of_le _ rest (hafter b List.mem_cons_self)).symm
    | cons b before ih =>
      obtain ⟨hb, hbefore⟩ := List.forall_mem_cons.mp hbefore
      have hlater : ¬a.name ≤ b.name := of_decide_eq_true (decide_not.trans hb)
      rw [List.cons_append, List.cons_append, List.orderedInsert_cons, if_neg hlater, ih hbefore]

end Argument

/-- Steps that are taken in another order have the same results in that order. -/
theorem Error.exists_mapM_of_perm {α β : Type} {f : α → Except Error β} {l l' : List α} {r : List β}
    (hperm : l.Perm l') (h : l.mapM f = .ok r) : ∃ r', l'.mapM f = .ok r' ∧ r.Perm r' := by
  obtain ⟨r', hr', hperm'⟩ := List.perm_comp_forall₂ hperm.symm (forall₂_of_mapM h)
  exact ⟨r', mapM_of_forall₂ hr', hperm'.symm⟩

namespace Occurrence

variable {o o' : Occurrence} (hhead : o.head.ReordersArguments o'.head)
  (hparent : o'.scope.parentType = o.scope.parentType)
include hhead hparent

theorem yields_arguments (schema : Schema) (definition : FieldDefinition) :
    Yields (o.arguments schema definition) (o'.arguments schema definition) := by
  intro sorted h
  obtain ⟨written, hwritten, h⟩ := Error.bind_eq_ok.mp h
  cases h
  have hnames : written.map Argument.name = o.head.arguments.map Prod.fst := by
    refine Error.map_eq_of_mapM (fun ⟨name, value⟩ a hp ↦ ?_) hwritten
    dsimp only at hp
    split at hp
    · cases hp
    · obtain ⟨type, -, hp⟩ := Error.bind_eq_ok.mp hp
      cases hp
      rfl
  obtain ⟨written', hwritten', hperm⟩ := Error.exists_mapM_of_perm hhead.order hwritten
  rw [Argument.mergeSort_eq_of_perm hperm (hnames ▸ hhead.distinct), arguments, hhead.name, hparent]
  exact Error.bind_eq_ok.mpr ⟨written', hwritten', rfl⟩

/-- **What is known of a field does not depend on the order of its arguments.** -/
theorem yields_info (schema : Schema) : Yields (o.info schema) (o'.info schema) := by
  have halias : o'.head.alias? = o.head.alias? := by rw [hhead.rest]
  rw [info, info, hparent, hhead.name, halias]
  exact .bind (.refl _) fun definition ↦
    .bind (yields_arguments hhead hparent schema definition) fun _ ↦ .refl _

/-- Declarations of one field that differ in the order of arguments do not conflict. -/
theorem exists_mergeGroup_pair {schema : Schema} {m m' : Declaration}
    (hm : o.declaration schema = .ok m) (hm' : o'.declaration schema = .ok m') :
    ∃ merged, Declaration.mergeGroup [m, m'] = .ok merged := by
  have hinfo : m'.info = m.info := by
    have hyields := yields_info hhead hparent schema m.info (of_declaration hm).1
    exact Except.ok.inj ((of_declaration hm').1.symm.trans hyields)
  have hsame : Declaration.checkSame m.info m'.info = .ok () := by
    simp [Declaration.checkSame, hinfo]
  rw [Declaration.mergeGroup, List.foldlM_cons]
  exact ⟨_, Error.bind_eq_ok.mpr ⟨_, Error.bind_eq_ok.mpr ⟨(), hsame, rfl⟩, rfl⟩⟩

end Occurrence

/-! ## Surveys -/

/-- Selections at one place are the same up to the order of arguments. -/
def Selection.ReordersAt (x x' : Place × Selection) : Prop :=
  x.1 = x'.1 ∧ x.2.ReordersArguments x'.2

theorem Selection.exists_of_reordersAt_cons {place : Place} {s : Selection}
    {rest l' : List (Place × Selection)}
    (h : List.Forall₂ Selection.ReordersAt ((place, s) :: rest) l') :
    ∃ s' rest', l' = (place, s') :: rest' ∧ s.ReordersArguments s' ∧
      List.Forall₂ Selection.ReordersAt rest rest' := by
  cases h with
  | @cons _ x' _ rest' hx hrest =>
    obtain ⟨hplace, hs⟩ := hx
    exact ⟨x'.2, rest', by rw [show place = x'.1 from hplace], hs, hrest⟩

/-- Children at one place, found on the same way, are the same up to the order of arguments. -/
structure Child.ReordersArguments (c c' : Child) : Prop where
  /-- The selections are the same up to the order of arguments. -/
  selection : c.selection.ReordersArguments c'.selection
  /-- They stand at one place. -/
  place : c.place = c'.place
  /-- The same fragments were being expanded. -/
  path : c.path = c'.path

/-- Occurrences at one place, found on the same way in the same scope, are the same up to the order
of arguments. -/
structure Occurrence.ReordersArguments (o o' : Occurrence) : Prop where
  /-- The fields are written the same up to the order of arguments. -/
  head : o.head.ReordersArguments o'.head
  /-- So are the selections beneath them. -/
  selections : List.Forall₂ Selection.ReordersArguments o.selections o'.selections
  /-- They stand at one place. -/
  place : o.place = o'.place
  /-- The fragments around them add up to the same. -/
  scope : o.scope = o'.scope
  /-- The same fragments were being expanded. -/
  path : o.path = o'.path

/-- Findings are the same up to the order of arguments. -/
structure Findings.ReordersArguments (found found' : Findings) : Prop where
  /-- The fields that were found correspond one by one. -/
  occurrences : List.Forall₂ Occurrence.ReordersArguments found.occurrences found'.occurrences
  /-- The fragments that were entered are the same. -/
  entries : found.entries = found'.entries

theorem Findings.ReordersArguments.append {a a' b b' : Findings} (ha : a.ReordersArguments a')
    (hb : b.ReordersArguments b') :
    (a ++ b).ReordersArguments (a' ++ b') where
  occurrences := List.rel_append ha.occurrences hb.occurrences
  entries := congrArg₂ (· ++ ·) ha.entries hb.entries

theorem Place.forall₂_locate (p : Place) {l l' : List Selection}
    (h : List.Forall₂ Selection.ReordersArguments l l') :
    List.Forall₂ Selection.ReordersAt (p.locate l) (p.locate l') := by
  rw [locate, locate]
  generalize 0 = i
  induction h generalizing i with
  | nil => exact .nil
  | cons hs _ ih => exact .cons ⟨rfl, hs⟩ (ih (i + 1))

theorem Child.forall₂_of_locate (p : Place) (path : List Name) {l l' : List Selection}
    (h : List.Forall₂ Selection.ReordersArguments l l') :
    List.Forall₂ Child.ReordersArguments ((p.locate l).map fun (place, selection) ↦
      ⟨selection, place, path⟩)
      ((p.locate l').map fun (place, selection) ↦ ⟨selection, place, path⟩) :=
  List.rel_map (fun _ _ hx ↦ ⟨hx.2, hx.1, rfl⟩) (p.forall₂_locate h)

theorem Occurrence.ReordersArguments.children {o o' : Occurrence} (h : o.ReordersArguments o') :
    List.Forall₂ Child.ReordersArguments o.children o'.children := by
  rw [Occurrence.children, Occurrence.children, ← h.place, ← h.path]
  exact Child.forall₂_of_locate o.place o.path h.selections

section

variable {schema : Schema} {d d' : Document} (hd : d.ReordersArguments d')
include hd

theorem Selection.ReordersArguments.gate? {s s' : Selection} {g : Gate} (h : s.ReordersArguments s')
    (hg : s.gate? d = some g) :
    s'.gate? d' = some g := by
  cases h with
  | field => cases hg
  | inline => exact hg
  | spread name directives =>
    obtain ⟨f, hf, rfl⟩ := Option.map_eq_some_iff.mp hg
    obtain ⟨f', hf', hff⟩ := hd.exists_fragment hf
    rw [gate?_spread hf', hff.typeCondition]

/-- **A survey goes the same way** through selections that are the same up to the order of
arguments. -/
theorem Surveys.exists_of_reorders {fieldTypes : NameSet} {trail : Trail} {scope : Scope}
    {selections selections' : List (Place × Selection)} {expanded expanded' : List Expansion}
    {found : Findings}
    (h : Surveys schema d fieldTypes trail scope selections expanded found expanded')
    (hselections : List.Forall₂ Selection.ReordersAt selections selections') :
    ∃ found', Surveys schema d' fieldTypes trail scope selections' expanded found' expanded' ∧
      found.ReordersArguments found' := by
  -- By the rules of the survey. No rule looks at arguments.
  induction h generalizing selections' with
  | nil trail scope expanded =>
    cases hselections
    exact ⟨.none, .nil trail scope expanded, .nil, rfl⟩
  | field directives _ ih =>
    obtain ⟨s', rest', rfl, hs, hrest⟩ := Selection.exists_of_reordersAt_cons hselections
    obtain ⟨later', hlater', hfound⟩ := ih hrest
    cases hs with
    | field arguments inside =>
      rw [← arguments.directives, ← arguments.responseName] at directives
      exact ⟨_, .field directives hlater',
        .append ⟨.cons ⟨arguments, inside, rfl, rfl, rfl⟩ .nil, rfl⟩ hfound⟩
  | skipped gate fresh blocked _ ih =>
    obtain ⟨s', rest', rfl, hs, hrest⟩ := Selection.exists_of_reordersAt_cons hselections
    obtain ⟨later', hlater', hfound⟩ := ih hrest
    refine ⟨_, .skipped (hs.gate? hd gate) (fun name directives heq ↦ ?_) blocked hlater', hfound⟩
    subst heq
    cases hs with
    | spread => exact fresh name directives rfl
  | inline pass _ _ ihWithin ihAfter =>
    obtain ⟨s', rest', rfl, hs, hrest⟩ := Selection.exists_of_reordersAt_cons hselections
    obtain ⟨later', hlater', hfound⟩ := ihAfter hrest
    cases hs with
    | inline _ _ inside =>
      obtain ⟨inside', hinside', hfoundInside⟩ := ihWithin (Place.forall₂_locate _ inside)
      exact ⟨_, .inline pass hinside' hlater', .append (.append ⟨.nil, rfl⟩ hfoundInside) hfound⟩
  | again hf fresh pass before _ ih =>
    obtain ⟨s', rest', rfl, hs, hrest⟩ := Selection.exists_of_reordersAt_cons hselections
    obtain ⟨later', hlater', hfound⟩ := ih hrest
    cases hs with
    | spread =>
      obtain ⟨f', hf', hff⟩ := hd.exists_fragment hf
      rw [← hff.typeCondition] at pass
      exact ⟨_, .again hf' fresh pass before hlater', .append ⟨.nil, rfl⟩ hfound⟩
  | spread hf fresh pass new _ _ ihWithin ihAfter =>
    obtain ⟨s', rest', rfl, hs, hrest⟩ := Selection.exists_of_reordersAt_cons hselections
    obtain ⟨later', hlater', hfound⟩ := ihAfter hrest
    cases hs with
    | spread =>
      obtain ⟨f', hf', hff⟩ := hd.exists_fragment hf
      obtain ⟨inside', hinside', hfoundInside⟩ := ihWithin (Place.forall₂_locate _ hff.selections)
      rw [← hff.typeCondition] at pass
      exact ⟨_, .spread hf' fresh pass new hinside' hlater',
        .append (.append ⟨.nil, rfl⟩ hfoundInside) hfound⟩

theorem exists_surveyChildren_of_reorders {fieldTypes : NameSet} {rawType : Name}
    {children children' : List Child} {expanded : List Expansion} {found : Findings}
    (hchildren : List.Forall₂ Child.ReordersArguments children children')
    (h : surveyChildren schema d fieldTypes rawType children expanded = .ok found) :
    ∃ found', surveyChildren schema d' fieldTypes rawType children' expanded = .ok found' ∧
      found.ReordersArguments found' := by
  induction hchildren generalizing expanded found with
  | nil =>
    cases h
    exact ⟨.none, rfl, .nil, rfl⟩
  | @cons c c' _ _ hc _ ih =>
    rw [surveyChildren] at h ⊢
    obtain ⟨⟨first, expanded₁⟩, hfirst, h⟩ := Error.bind_eq_ok.mp h
    obtain ⟨later, hlater, h⟩ := Error.bind_eq_ok.mp h
    cases h
    have hhere :
        List.Forall₂ Selection.ReordersAt [(c.place, c.selection)] [(c'.place, c'.selection)] :=
      .cons ⟨hc.place, hc.selection⟩ .nil
    obtain ⟨first', hfirst', hfound⟩ := (surveys_of_ok hfirst).exists_of_reorders hd hhere
    obtain ⟨later', hlater', hfoundLater⟩ := ih hlater
    rw [← hc.path]
    exact ⟨_, Error.bind_eq_ok.mpr ⟨_, hfirst'.ok, Error.bind_eq_ok.mpr ⟨_, hlater', rfl⟩⟩,
      hfound.append hfoundLater⟩

end

/-! ## Fields -/

/-- Children that stand at places not yet taken are the same on both sides. -/
theorem Child.forall₂_addNew {children children' more more' : List Child}
    (hchildren : List.Forall₂ Child.ReordersArguments children children')
    (hmore : List.Forall₂ Child.ReordersArguments more more') :
    List.Forall₂ Child.ReordersArguments (addNew children more) (addNew children' more') := by
  induction hmore generalizing children children' with
  | nil => exact hchildren
  | @cons c c' _ _ hc _ ih =>
    have hplaces : children.map Child.place = children'.map Child.place :=
      map_eq_of_forall₂ (hchildren.imp fun _ _ hk ↦ hk.place)
    have htaken : (children.any fun k ↦ k.place = c.place) = children'.any fun k ↦
        k.place = c'.place := by
      have hany := congrArg (fun places ↦ places.any fun p ↦ p = c'.place) hplaces
      rw [List.any_map, List.any_map] at hany
      rw [hc.place]
      exact hany
    rw [addNew, addNew, htaken]
    split
    · exact ih hchildren
    · exact ih (List.rel_append hchildren (.cons hc .nil))

/-- **Declarations whose children correspond are merged alike.** -/
theorem Declaration.exists_merge_of_reorders {declarations declarations' merged : List Declaration}
    (h : List.Forall₂ (Declaration.Mirrors (List.Forall₂ Child.ReordersArguments)) declarations
      declarations')
    (hc : ∀ m ∈ declarations, m.condition.Canonical) (hm : merge declarations = .ok merged) :
    ∃ merged', merge declarations' = .ok merged' ∧
      List.Forall₂ (Declaration.Mirrors (List.Forall₂ Child.ReordersArguments)) merged merged' := by
  have hc' : ∀ m ∈ declarations', m.condition.Canonical := by
    intro m' hm'
    obtain ⟨m, hmem, hmirrors⟩ := exists_of_mem_forall₂ h.flip hm'
    exact hmirrors.condition ▸ hc m hmem
  have hnames : declarations.map responseName = declarations'.map responseName :=
    map_eq_of_forall₂ (h.imp fun m m' hmirrors ↦ by rw [responseName, responseName, hmirrors.info])
  rw [merge, ← hnames]
  refine Error.exists_mapM_of_forall₂ hm (fun m hmem ↦ hmem)
    (List.forall₂_same.mpr fun n _ m _ hgroup ↦ ?_)
  have hgroups :
      List.Forall₂ (Declaration.Mirrors (List.Forall₂ Child.ReordersArguments))
        (group declarations n) (group declarations' n) :=
    List.rel_filter (fun m m' hmirrors ↦ by simp only [responseName, hmirrors.info]) h
  have hkeys : (group declarations n).map key = (group declarations' n).map key :=
    map_eq_of_forall₂
      (hgroups.imp fun m m' hmirrors ↦ by rw [key, key, hmirrors.info, hmirrors.condition])
  obtain ⟨m', hok, hinfo, hcondition, hchildren, hchildren'⟩ := exists_mergeGroup (.of_eq hkeys)
    (fun k hk ↦ hc k (List.mem_filter.mp hk).1) (fun k hk ↦ hc' k (List.mem_filter.mp hk).1) hgroup
  refine ⟨m', hok, hinfo, hcondition, ?_⟩
  rw [hchildren, hchildren']
  exact Child.forall₂_addNew .nil (List.rel_flatMap hgroups fun _ _ hmirrors ↦ hmirrors.children)

section

variable {schema : Schema} {d d' : Document}

theorem Survey.exists_declarationsFor_of_reorders {s : Survey} {found' : Findings}
    (h : s.found.ReordersArguments found') {typeSet : NameSet} {declarations : List Declaration}
    (hd : s.declarationsFor schema typeSet = .ok declarations) :
    ∃ declarations', declarationsFor { s with found := found' } schema typeSet = .ok declarations' ∧
      List.Forall₂ (Declaration.Mirrors (List.Forall₂ Child.ReordersArguments)) declarations
        declarations' := by
  have happlies := List.rel_filter (p := fun o ↦ o.scope.typeSet ⊆ typeSet)
    (q := fun o ↦ o.scope.typeSet ⊆ typeSet) (fun o o' ho ↦ by simp only [ho.scope]) h.occurrences
  refine Error.exists_mapM_of_forall₂ hd (fun m hmem ↦ hmem) (happlies.imp fun o o' ho m _ hok ↦ ?_)
  obtain ⟨hinfo, -, hcondition, hchildren⟩ := Occurrence.of_declaration hok
  have hinfo' :=
    Occurrence.yields_info ho.head (congrArg Scope.parentType ho.scope.symm) schema _ hinfo
  exact ⟨_, Error.bind_eq_ok.mpr ⟨_, hinfo', rfl⟩, rfl, ho.scope ▸ hcondition,
    hchildren ▸ ho.children⟩

/-- **Surveys that find the same up to the order of arguments fill a field alike.** -/
theorem Survey.agrees_of_reorders {rawType : Name} {children : List Child} {s : Survey}
    {found' : Findings} (hs : Survey.ofChildren schema d rawType children = .ok s)
    (h : s.found.ReordersArguments found') :
    s.Agrees schema Eq (List.Forall₂ Child.ReordersArguments) { s with found := found' } where
  shapes := by simp only [shapes, typeConditions, declaredTypeSets, h.entries]
  fragments := by rw [Survey.fragments, Survey.fragments, h.entries]
  fragmentsFor typeSet := by rw [Survey.fragmentsFor, Survey.fragmentsFor, h.entries]
  fieldsFor := by
    intro typeSet merged hm
    obtain ⟨declarations, hd, hm⟩ := Error.bind_eq_ok.mp hm
    obtain ⟨declarations', hd', hmirrors⟩ := exists_declarationsFor_of_reorders h hd
    have hcanonical := condition_of_mem_declarationsFor hd fun o ho ↦
      canonical_of_mem_occurrences hs ho
    obtain ⟨merged', hm', hmerged⟩ := Declaration.exists_merge_of_reorders hmirrors hcanonical hm
    exact ⟨merged', Error.bind_eq_ok.mpr ⟨declarations', hd', hm'⟩, hmerged⟩

/-- **Selections that are the same up to the order of arguments have the same fields.** -/
theorem expandRoot_of_reorders (hd : d.ReordersArguments d') {policy : TypenamePolicy}
    {rawType : Name} {l l' : List Selection} {path : List Name}
    (hl : List.Forall₂ Selection.ReordersArguments l l') :
    Yields (expandRoot schema d policy rawType l path)
      (expandRoot schema d' policy rawType l' path) := by
  intro f hf
  refine expandRoot_eq_ok_of_agrees (fun hchildren hs ↦ ?_)
    (Child.forall₂_of_locate .root path hl) hf
  obtain ⟨hraw, htypes, hfound⟩ := Survey.ofChildren_eq_ok hs
  obtain ⟨found', hfound', hreorders⟩ := exists_surveyChildren_of_reorders hd hchildren hfound
  refine ⟨_, ?_, Survey.agrees_of_reorders hs hreorders⟩
  rw [hraw]
  exact Error.bind_eq_ok.mpr ⟨_, htypes, Error.bind_eq_ok.mpr ⟨_, hfound', rfl⟩⟩

/-! ## Building -/

theorem Document.ReordersArguments.restates (h : d.ReordersArguments d') (policy : TypenamePolicy) :
    d.Restates schema policy d' where
  operations :=
    h.operations.imp fun _ _ ho ↦ ⟨ho.rest, fun _ ↦ expandRoot_of_reorders h ho.selections⟩
  fragments := h.fragments.imp fun _ _ hf ↦ ⟨hf.rest, expandRoot_of_reorders h hf.selections⟩

end

/-- **The order of arguments does not matter.** Let two documents be the same up to the order in
which the fields in them, in operations and fragments, have their arguments, no field having two
arguments of one name. Then one can be built if and only if the other can, and all that is built is
the same but for the text of the operations and fragments. In particular, two selections of a field
that differ in the order of arguments, under the same type, are known alike and do not conflict
where they are merged. -/
theorem build_of_reordered_arguments (schema : Schema) (config : Config) (d d' : Document)
    (h : d.ReordersArguments d') :
    ((∃ ir, build schema config d = .ok ir) ↔ ∃ ir', build schema config d' = .ok ir') ∧
      (∀ ir ir', build schema config d = .ok ir → build schema config d' = .ok ir' →
        ir'.withoutSources = ir.withoutSources) ∧
      ∀ o o' : Occurrence, o.head.ReordersArguments o'.head →
      o'.scope.parentType = o.scope.parentType →
        (∀ info, o.info schema = .ok info ↔ o'.info schema = .ok info) ∧
          ∀ m m', o.declaration schema = .ok m → o'.declaration schema = .ok m' →
            ∃ merged, Declaration.mergeGroup [m, m'] = .ok merged := by
  refine ⟨⟨?_, ?_⟩, fun ir ir' hir hir' ↦ ?_, fun o o' hhead hparent ↦
    ⟨fun info ↦ ⟨?_, ?_⟩, fun m m' hm hm' ↦ ?_⟩⟩
  · rintro ⟨ir, hir⟩
    obtain ⟨ir', hir', -⟩ := exists_build_of_restates (h.restates config.typename) hir
    exact ⟨ir', hir'⟩
  · rintro ⟨ir', hir'⟩
    obtain ⟨ir, hir, -⟩ := exists_build_of_restates (h.symm.restates config.typename) hir'
    exact ⟨ir, hir⟩
  · obtain ⟨ir₁, hir₁, hview⟩ := exists_build_of_restates (h.restates config.typename) hir
    cases hir'.symm.trans hir₁
    exact hview
  · exact Occurrence.yields_info hhead hparent schema info
  · exact Occurrence.yields_info hhead.symm hparent.symm schema info
  · exact Occurrence.exists_mergeGroup_pair hhead hparent hm hm'

open Sample in
/-- A field that is selected twice, its arguments in two orders, can as well be selected with its
arguments in one order. -/
theorem build_of_reordered_arguments_counts :
    let ages := [("from", Value.int "1"), ("to", Value.int "9")]
    (counts ages ages.reverse).ReordersArguments (counts ages ages) ∧
      (∃ ir ir', build census {} (counts ages ages.reverse) = .ok ir ∧
        build census {} (counts ages ages) = .ok ir' ∧ ir'.withoutSources = ir.withoutSources) ∧
      ∃ o o' m m' merged, o.head = count ages ∧ o'.head = count ages.reverse ∧
      Occurrence.declaration o census = .ok m ∧
        Occurrence.declaration o' census = .ok m' ∧ Declaration.mergeGroup [m, m'] =
          .ok merged := by
  intro ages
  have hsame : (count ages).ReordersArguments (count ages) := ⟨rfl, .refl _, by decide⟩
  have hswapped : (count ages.reverse).ReordersArguments (count ages) :=
    ⟨rfl, ages.reverse_perm, by decide⟩
  have hreorders : (counts ages ages.reverse).ReordersArguments (counts ages ages) :=
    ⟨.cons ⟨rfl, .cons (.field hsame .nil)
      (.cons (.inline _ _ (.cons (.field hswapped .nil) .nil)) .nil)⟩ .nil, .nil⟩
  obtain ⟨hbuilds, hview, hmerge⟩ :=
    build_of_reordered_arguments census {} (counts ages ages.reverse) (counts ages ages) hreorders
  refine ⟨hreorders, ?_, ?_⟩
  · have hok : ((build census {} (counts ages ages)).toOption.any fun _ ↦ true) = true := by
      -- The kernel can insert arguments but not merge them, so the build is opened down to where
      -- they are sorted.
      simp only [build, counts, Document.namedOperations, List.filterMap_cons, List.filterMap_nil,
        Option.map, buildOperations, buildOperation, expandRoot, expandField_eq, Survey.fieldsFor,
        Survey.declarationsFor, Occurrence.declaration, Occurrence.info, Occurrence.arguments,
        Argument.mergeSort_eq_insertionSort]
      decide +kernel
    obtain ⟨ir', hir', -⟩ := Error.exists_of_any hok
    obtain ⟨ir, hir⟩ := hbuilds.mpr ⟨ir', hir'⟩
    exact ⟨ir, ir', hir, hir', hview ir ir' hir hir'⟩
  · let found : List (Name × Value) → Occurrence :=
      fun arguments ↦ ⟨count arguments, [], .root, .ofField "Query", []⟩
    have hok : ((found ages).declaration census).toOption.any (fun _ ↦ true) = true := by
      decide +kernel
    have hok' : ((found ages.reverse).declaration census).toOption.any (fun _ ↦ true) = true := by
      decide +kernel
    obtain ⟨m, hm, -⟩ := Error.exists_of_any hok
    obtain ⟨m', hm', -⟩ := Error.exists_of_any hok'
    obtain ⟨merged, hmerged⟩ :=
      (hmerge (found ages) (found ages.reverse) hswapped.symm rfl).2 m m' hm hm'
    exact ⟨_, _, m, m', merged, rfl, rfl, hm, hm', hmerged⟩

end ResponseModels
