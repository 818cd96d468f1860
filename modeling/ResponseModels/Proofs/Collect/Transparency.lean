import ResponseModels.Proofs.Collect.Walk
import ResponseModels.Proofs.Sample

/-!
# Named fragments are transparent

Whether selections stand in a named fragment or are written out in its place makes no difference to
the fields that are collected (`expandRoot_transparent`), although a named fragment is expanded once
in a scope and what it selects beneath a field is taken once, while selections that are written out
are gone through as often as they are written.

The fields are compared level by level. At each level the children on both sides become, once
spreads are inlined, selections that are seen alike (`Child.InlinedAlike`). Then both are surveyed
alike, and what is selected beneath the fields that are found is again of this kind
(`Survey.exists_mirrors`).
-/

set_option autoImplicit false

namespace ResponseModels

/-! ## Trees without fragments -/

mutual

/-- The tree of a field without the fragments noted in it. -/
def Field.withoutFragments : Field → Field
  | ⟨info, condition, fieldSets, _⟩ => ⟨info, condition, FieldSet.withoutFragmentsAll fieldSets, []⟩

/-- A field set without the fragments noted in it. -/
def FieldSet.withoutFragments : FieldSet → FieldSet
  | ⟨typeSet, possibleTypes, fields, _⟩ =>
    ⟨typeSet, possibleTypes, Field.withoutFragmentsAll fields, []⟩

/-- Field sets without the fragments noted in them. -/
def FieldSet.withoutFragmentsAll : List FieldSet → List FieldSet
  | [] => []
  | s :: rest => s.withoutFragments :: FieldSet.withoutFragmentsAll rest

/-- The trees of fields without the fragments noted in them. -/
def Field.withoutFragmentsAll : List Field → List Field
  | [] => []
  | f :: rest => f.withoutFragments :: Field.withoutFragmentsAll rest

end

section

variable {R : List Name → List Name → Prop}

mutual

theorem Field.Same.withoutFragments_eq :
    ∀ {f f' : Field}, f.Same R f' → f.withoutFragments = f'.withoutFragments
  | ⟨_, _, _, _⟩, ⟨_, _, _, _⟩, .mk info condition fieldSets _ => by
    cases info
    cases condition
    rw [Field.withoutFragments, Field.withoutFragments,
      FieldSet.Same.withoutFragmentsAll_eq fieldSets]

theorem FieldSet.Same.withoutFragments_eq :
    ∀ {s s' : FieldSet}, s.Same R s' → s.withoutFragments = s'.withoutFragments
  | ⟨_, _, _, _⟩, ⟨_, _, _, _⟩, .mk typeSet possibleTypes fields _ => by
    cases typeSet
    cases possibleTypes
    rw [FieldSet.withoutFragments, FieldSet.withoutFragments,
      Field.Same.withoutFragmentsAll_eq fields]

theorem FieldSet.Same.withoutFragmentsAll_eq :
    ∀ {l l' : List FieldSet}, List.Forall₂ (FieldSet.Same R) l l' →
    FieldSet.withoutFragmentsAll l = FieldSet.withoutFragmentsAll l'
  | _, _, .nil => rfl
  | _, _, .cons h rest => by
    rw [FieldSet.withoutFragmentsAll, FieldSet.withoutFragmentsAll, h.withoutFragments_eq,
      FieldSet.Same.withoutFragmentsAll_eq rest]

theorem Field.Same.withoutFragmentsAll_eq :
    ∀ {l l' : List Field}, List.Forall₂ (Field.Same R) l l' →
    Field.withoutFragmentsAll l = Field.withoutFragmentsAll l'
  | _, _, .nil => rfl
  | _, _, .cons h rest => by
    rw [Field.withoutFragmentsAll, Field.withoutFragmentsAll, h.withoutFragments_eq,
      Field.Same.withoutFragmentsAll_eq rest]

end

end

/-! ## Children -/

/-- Leaving out children at places that are taken leaves out what was seen before, as far as the
place decides. -/
theorem Child.seenAlike_addNew {α : Type} {f : Child → α} {children more : List Child}
    (h : ∀ c ∈ children ++ more, ∀ k ∈ children ++ more, c.place = k.place → f c = f k) :
    SeenAlike ((addNew children more).map f) ((children ++ more).map f) := by
  induction more generalizing children with
  | nil => exact .of_eq (by rw [List.append_nil, addNew])
  | cons c rest ih =>
    rw [addNew]
    split
    · rename_i hany
      obtain ⟨k, hk, hplace⟩ := List.any_eq_true.mp hany
      have hkeep : ∀ {x}, x ∈ children ++ rest → x ∈ children ++ c :: rest := fun hx ↦
        (List.mem_append.mp hx).elim (List.mem_append_left _) fun hx ↦
          List.mem_append_right _ (List.mem_cons_of_mem c hx)
      refine (ih fun x hx y hy ↦ h x (hkeep hx) y (hkeep hy)).trans (.symm ?_)
      rw [List.map_append, List.map_append, List.map_cons]
      refine .again _ (List.mem_map.mpr ⟨k, hk, ?_⟩)
      exact h k (List.mem_append_left _ hk) c (List.mem_append_right _ List.mem_cons_self)
        (of_decide_eq_true hplace)
    · rw [List.append_cons children c rest] at h ⊢
      exact ih h

/-- Children stand at their places and fit on their paths. -/
def Child.Sits (d : Document) (root : List Selection) (c : Child) : Prop :=
  Stands d root c.place c.selection ∧ Selection.Fits d c.path c.selection

/-- Children that are seen alike once spreads are inlined. -/
structure Child.InlinedAlike (d : Document) (root root' : List Selection)
    (children children' : List Child) : Prop where
  /-- The children of the first definition sit at their places, -/
  sits : ∀ c ∈ children, c.Sits d root
  /-- and so do those of the second. -/
  sits' : ∀ c ∈ children', c.Sits d root'
  /-- With spreads inlined, the same is seen in both, leaving out what was seen before. -/
  alike : ∃ m m', Selection.InlinesAll d (children.map Child.selection) m ∧
    Selection.InlinesAll d (children'.map Child.selection) m' ∧ SeenAlike m m'

/-! ## Surveys -/

namespace Yield.Related

variable {R : Selection → Selection → Prop} {y z : Yield}

theorem map_fst_eq (h : y.Related R z) : y.fields.map Prod.fst = z.fields.map Prod.fst :=
  map_eq_of_forall₂ (h.fields.imp fun _ _ hab ↦ hab.1)

/-- What is selected beneath some of the fields is related. -/
theorem beneath (h : y.Related R z) (p : FieldHead × Scope → Bool) :
    List.Forall₂ R ((y.fields.filter fun a ↦ p a.1).flatMap Prod.snd)
      ((z.fields.filter fun a ↦ p a.1).flatMap Prod.snd) := by
  have hfilter := List.rel_filter (p := fun a : (FieldHead × Scope) × List Selection ↦ p a.1)
    (q := fun a ↦ p a.1) (fun a b hab ↦ by simp only [hab.1]) h.fields
  exact List.rel_flatMap hfilter fun a b hab ↦ hab.2

end Yield.Related

namespace Survey

variable {schema : Schema} {d : Document} {root root' : List Selection} {rawType : Name}
  {children children' : List Child} {s : Survey}

theorem sits_children (h : Survey.ofChildren schema d rawType children = .ok s)
    (hsits : ∀ c ∈ children, c.Sits d root) :
    ∀ o ∈ s.found.occurrences, ∀ c ∈ o.children, c.Sits d root := by
  intro o ho c hc
  refine ⟨Occurrence.stands_children (stands h (fun k hk ↦ (hsits k hk).1) o ho) c hc, ?_⟩
  obtain ⟨-, -, hfound⟩ := ofChildren_eq_ok h
  obtain ⟨k, hk, part, -, ⟨_, _, hpart⟩, ho⟩ := (contributes_of_surveyChildren hfound).1 o ho
  obtain ⟨ps, hps, rfl⟩ := List.mem_map.mp hc
  exact hpart.fits (List.forall_mem_singleton.mpr (hsits k hk).2) o ho _
    (Place.mem_of_mem_locate hps)

/-- The children beneath some of the fields a survey sees are what is selected there, each selection
taken once. -/
theorem seenAlike_children (hsits : ∀ o ∈ s.found.occurrences, ∀ c ∈ o.children, c.Sits d root)
    (p : FieldHead × Scope → Bool) :
    SeenAlike
      ((Child.addNew []
        ((s.found.occurrences.filter fun o ↦ p o.sight).flatMap Occurrence.children)).map
          Child.selection)
      ((s.found.yield.fields.filter fun a ↦ p a.1).flatMap Prod.snd) := by
  have hstands : ∀ c ∈ (s.found.occurrences.filter fun o ↦ p o.sight).flatMap Occurrence.children,
      Stands d root c.place c.selection := by
    intro c hc
    obtain ⟨o, ho, hc⟩ := List.mem_flatMap.mp hc
    exact (hsits o (List.mem_filter.mp ho).1 c hc).1
  refine (Child.seenAlike_addNew fun c hc k hk hplace ↦
    (hstands c hc).unique (hplace ▸ hstands k hk)).trans (.of_eq ?_)
  rw [List.nil_append, List.map_flatMap, Findings.yield, List.filter_map, List.flatMap_map]
  simp only [Occurrence.map_selection_children]
  rfl

/-- **Children that are alike once spreads are inlined are surveyed alike.** -/
theorem exists_mirrors (hchildren : Child.InlinedAlike d root root' children children')
    (h : Survey.ofChildren schema d rawType children = .ok s) :
    ∃ s', Survey.ofChildren schema d rawType children' = .ok s' ∧
      s.Mirrors (fun _ _ ↦ True) (Child.InlinedAlike d root root') s' := by
  obtain ⟨sits, sits', m, m', hm, hm', halike⟩ := hchildren
  obtain ⟨hraw, htypes, -⟩ := ofChildren_eq_ok h
  -- The walk through the children on the one side, taken over to the other side.
  obtain ⟨y, hy, hseen⟩ := exists_walks h
  obtain ⟨z, hz, hrel⟩ := hy.of_unnoticed (Selection.unnoticed_inlines d) hm
  obtain ⟨z', hz', hmiddle⟩ := hz.of_seenAlike halike
  obtain ⟨y', hy', hrel'⟩ := hz'.of_unnoticed (Selection.unnoticed_flip_inlines d) hm'.flip
  obtain ⟨found', hfound'⟩ := exists_surveyChildren hy' (fun c hc ↦ (sits' c hc).2) []
  have h' : Survey.ofChildren schema d rawType children' = .ok ⟨rawType, s.fieldTypes, found'⟩ :=
    Error.bind_eq_ok.mpr ⟨_, htypes, Error.bind_eq_ok.mpr ⟨_, hfound', rfl⟩⟩
  obtain ⟨_, hunique, hseen'⟩ := exists_walks h'
  cases hy'.unique hunique
  have hsits := sits_children h sits
  have hsits' := sits_children h' sits'
  have hentries : SeenAlike (s.found.entries.map Entry.sight) (found'.entries.map Entry.sight) := by
    have hentries := hmiddle.entries
    rw [← hrel.entries, hrel'.entries] at hentries
    exact (hseen.entries.trans hentries).trans hseen'.entries.symm
  have hsights :
      SeenAlike (s.found.occurrences.map Occurrence.sight)
        (found'.occurrences.map Occurrence.sight) := by
    have hsights := hmiddle.fields.map Prod.fst
    rw [← hrel.map_fst_eq, hrel'.map_fst_eq] at hsights
    rw [← Findings.map_fst_yield, ← Findings.map_fst_yield]
    exact ((hseen.fields.map _).trans hsights).trans (hseen'.fields.map _).symm
  refine ⟨_, h', hraw, typeConditions_eq hentries, declaredTypeSets_eq hentries, trivial, fun _ ↦
    trivial, hsights, fun p ↦ ⟨?_, ?_, ?_⟩⟩
  · intro c hc
    obtain ⟨o, ho, hc⟩ :=
      List.mem_flatMap.mp ((Child.mem_of_mem_addNew hc).resolve_left List.not_mem_nil)
    exact hsits o (List.mem_filter.mp ho).1 c hc
  · intro c hc
    obtain ⟨o, ho, hc⟩ :=
      List.mem_flatMap.mp ((Child.mem_of_mem_addNew hc).resolve_left List.not_mem_nil)
    exact hsits' o (List.mem_filter.mp ho).1 c hc
  · have hbeneath :=
      (seenAlike_children hsits p).trans ((hseen.fields.filter fun a ↦ p a.1).flatMap Prod.snd)
    have hbeneath' :=
      (seenAlike_children hsits' p).trans ((hseen'.fields.filter fun a ↦ p a.1).flatMap Prod.snd)
    obtain ⟨l, hl, hseenLeft⟩ :=
      hbeneath.symm.exists_forall₂ (R := Selection.Inlines d) Selection.Inlines.unique
        (hrel.beneath p)
    obtain ⟨l', hl', hseenRight⟩ :=
      hbeneath'.symm.exists_forall₂ (R := Selection.Inlines d) Selection.Inlines.unique
        (hrel'.beneath p).flip
    have hseenMiddle := (hmiddle.fields.filter fun a ↦ p a.1).flatMap Prod.snd
    exact ⟨l, l', hl, hl', (hseenLeft.symm.trans hseenMiddle).trans hseenRight⟩

end Survey

/-! ## Definitions -/

/-- Selections that are alike once spreads are inlined expand to the same tree, the fragments noted
in it apart. -/
theorem exists_expandRoot {schema : Schema} {d : Document} {policy : TypenamePolicy}
    {rawType : Name} {l l' m m' : List Selection} {f : Field} (hm : Selection.InlinesAll d l m)
    (hm' : Selection.InlinesAll d l' m') (halike : SeenAlike m m')
    (h : expandRoot schema d policy rawType l [] = .ok f) :
    ∃ f', expandRoot schema d policy rawType l' [] = .ok f' ∧ f.Same (fun _ _ ↦ True) f' := by
  have hsits : ∀ {l m : List Selection}, Selection.InlinesAll d l m →
      ∀ c ∈ rootChildren l [], c.Sits d l := by
    intro l m hm c hc
    refine ⟨stands_rootChildren hc, ?_⟩
    have hmem : c.selection ∈ l := map_selection_rootChildren l [] ▸ List.mem_map_of_mem hc
    obtain ⟨_, -, hinlines⟩ := exists_of_mem_forall₂ hm hmem
    obtain ⟨_, -, rfl⟩ := List.mem_map.mp hc
    exact Selection.fits_nil hinlines
  have hchildren : Child.InlinedAlike d l l' (rootChildren l []) (rootChildren l' []) := by
    refine ⟨hsits hm, hsits hm', m, m', ?_, ?_, halike⟩
    · rwa [map_selection_rootChildren]
    · rwa [map_selection_rootChildren]
  rw [expandRoot] at h
  obtain ⟨type, htype, h⟩ := Error.bind_eq_ok.mp h
  have hfields :
      ∀ info, Declaration.Mirrors (Child.InlinedAlike d l l') ⟨info, .always, rootChildren l []⟩
      ⟨info, .always, rootChildren l' []⟩ := fun info ↦ ⟨rfl, rfl, hchildren⟩
  obtain ⟨f', hf', hsame⟩ := same_of_expandField trivial (fun hC hs ↦ by
    obtain ⟨s', hs', hmirrors⟩ := Survey.exists_mirrors hC hs
    exact ⟨s', hs', hmirrors.agrees hs hs'⟩) (hfields _) h
  exact ⟨f', Error.bind_eq_ok.mpr ⟨type, htype, hf'⟩, hsame⟩

/-- **Named fragments are transparent.** If every spread of a document names a fragment and no
fragment spreads itself, the selections of an operation can be inlined, in one way and so that no
spread is left. Collecting the inlined selections succeeds if and only if collecting the operation
as it is does, and then the trees of fields are the same but for the fragments noted in them. -/
theorem expandRoot_transparent {d : Document} (hexist : d.SpreadsExist) (hacyclic : d.Acyclic)
    {o : Operation} (ho : o ∈ d.operations) :
    ∃ inlined, Selection.InlinesAll d o.selections inlined ∧
      (∀ l', Selection.InlinesAll d o.selections l' → l' = inlined) ∧
      Selection.spreadsAll inlined = [] ∧
      ∀ (schema : Schema) (policy : TypenamePolicy) (rawType : Name),
        ((∃ f, expandRoot schema d policy rawType o.selections [] = .ok f) ↔
          ∃ f', expandRoot schema d policy rawType inlined [] = .ok f') ∧
        ∀ f f', expandRoot schema d policy rawType o.selections [] = .ok f →
          expandRoot schema d policy rawType inlined [] = .ok f' →
          f.withoutFragments = f'.withoutFragments := by
  have hpath : ∀ p ∈ ([] : List Name), ∀ n ∈ Selection.spreadsAll o.selections,
      Relation.TransGen d.Spreads p n :=
    fun p hp ↦ absurd hp List.not_mem_nil
  obtain ⟨inlined, hinlined⟩ := d.exists_inlinesAll hexist hacyclic (hexist.1 o ho) hpath
  have hagain := Selection.InlinesAll.again hinlined
  refine ⟨inlined, hinlined, fun l' hl' ↦ Selection.InlinesAll.unique hl' hinlined,
    Selection.InlinesAll.spreadsAll_eq_nil hinlined, fun schema policy rawType ↦ ⟨⟨?_, ?_⟩, ?_⟩⟩
  · rintro ⟨f, hf⟩
    obtain ⟨f', hf', -⟩ := exists_expandRoot hinlined hagain (.refl _) hf
    exact ⟨f', hf'⟩
  · rintro ⟨f', hf'⟩
    obtain ⟨f, hf, -⟩ := exists_expandRoot hagain hinlined (.refl _) hf'
    exact ⟨f, hf⟩
  · intro f f' hf hf'
    obtain ⟨g, hg, hsame⟩ := exists_expandRoot hinlined hagain (.refl _) hf
    cases hf'.symm.trans hg
    exact hsame.withoutFragments_eq

open Sample in
private theorem inlinesAll_diamond :
    ∀ o ∈ diamond.operations, Selection.InlinesAll diamond o.selections diamondInlined := by
  have hfound : diamond.fragment? "Named" = some ⟨"Named", "Animal", [], [field "name" []]⟩ := rfl
  have hfound' : diamond.fragment? "Company" = some ⟨"Company", "Animal", [],
    [.spread "Named" [], field "friend" [.spread "Named" []]]⟩ := rfl
  have hnamed :=
    Selection.Inlines.spread [] hfound (.cons (.field ⟨"name", none, [], []⟩ .nil) .nil)
  have hpet := Selection.Inlines.inline (some "Pet") [includeIf "pets"] (.cons hnamed .nil)
  have hcompany := Selection.Inlines.spread [] hfound'
    (.cons hnamed (.cons (.field ⟨"friend", none, [], []⟩ (.cons hnamed .nil)) .nil))
  exact List.forall_mem_singleton.mpr
    (.cons (.field ⟨"animal", none, [], []⟩ (.cons hnamed (.cons hpet (.cons hcompany .nil)))) .nil)

open Sample in
/-- A query that comes upon a fragment on several ways, and the same with everything inlined: only
the one notes fragments, but the fields are the same. -/
theorem expandRoot_transparent_diamond :
    diamond.SpreadsExist ∧ diamond.Acyclic ∧ ∃ o ∈ diamond.operations, ∃ f f',
      expandRoot schema diamond .always "Query" o.selections [] = .ok f ∧
      expandRoot schema diamond .always "Query" diamondInlined [] = .ok f' ∧
      f.spreads.eraseDups = ["Named", "Company"] ∧ f'.spreads = [] ∧
      f.withoutFragments = f'.withoutFragments := by
  have hexist : diamond.SpreadsExist := ⟨by decide +kernel, by decide +kernel⟩
  have hacyclic : diamond.Acyclic := Document.acyclic_of_rank String.length (by decide +kernel)
  have ho : diamond.operations.head (by decide) ∈ diamond.operations := List.head_mem _
  obtain ⟨inlined, -, hunique, -, hall⟩ := expandRoot_transparent hexist hacyclic ho
  cases hunique _ (inlinesAll_diamond _ ho)
  obtain ⟨f, hf, hspreads⟩ := Error.exists_of_any
    (x := expandRoot schema diamond .always "Query" (diamond.operations.head (by decide)).selections
      []) (p := fun f ↦ f.spreads.eraseDups = ["Named", "Company"]) (by decide +kernel)
  obtain ⟨f', hf', hnone⟩ :=
    Error.exists_of_any (x := expandRoot schema diamond .always "Query" diamondInlined [])
      (p := fun f ↦ f.spreads = []) (by decide +kernel)
  exact ⟨hexist, hacyclic, _, ho, f, f', hf, hf', of_decide_eq_true hspreads,
    of_decide_eq_true hnone, (hall schema .always "Query").2 f f' hf hf'⟩

end ResponseModels
