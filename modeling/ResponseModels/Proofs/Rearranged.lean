import Mathlib.Data.List.Nodup
import Mathlib.Data.List.Perm.Basic
import ResponseModels.Proofs.Collect.Ways
import ResponseModels.Proofs.SeenAlike

/-!
# The order of selections

Two documents can differ only in the order in which selections are listed, at any depth
(`Document.Rearranged`). Then every way through one of them can be gone through the other, by the
same gates, to a selection that is the same up to order (`Way.rearranged`, `Inside.rearranged`).

What is collected from such documents should be the same up to the order of fields: `Field.Alike`
says of two trees of fields that they have the same shapes in the same order and, at each shape, the
same fields in some order.
-/

set_option autoImplicit false

namespace ResponseModels

/-! ## Lists -/

section lists

variable {α β γ : Type}

/-- Lists that agree in some respect are related element by element. -/
theorem forall₂_of_map_eq {R : α → β → Prop} {g : α → γ} {k : β → γ} {l : List α} {m : List β}
    (h : l.map g = m.map k) (hR : ∀ a ∈ l, ∀ b ∈ m, g a = k b → R a b) : List.Forall₂ R l m := by
  induction l generalizing m with
  | nil =>
    cases List.map_eq_nil_iff.mp h.symm
    exact .nil
  | cons a l ih =>
    cases m with
    | nil => cases h
    | cons b m =>
      obtain ⟨hab, hrest⟩ := List.cons.inj h
      refine .cons (hR a List.mem_cons_self b List.mem_cons_self hab)
        (ih hrest fun a' ha b' hb ↦ ?_)
      exact hR a' (List.mem_cons_of_mem a ha) b' (List.mem_cons_of_mem b hb)

/-- What is made of lists that are related element by element is related element by element. -/
theorem forall₂_image {α' β' : Type} {R : α → α' → Prop} {P : α → β → Prop} {Q : α' → β' → Prop}
    {S : β → β' → Prop} {l : List α} {l' : List α'} {m : List β} {m' : List β'}
    (hR : List.Forall₂ R l l') (hP : List.Forall₂ P l m) (hQ : List.Forall₂ Q l' m')
    (h : ∀ a a' b b', R a a' → P a b → Q a' b' → S b b') : List.Forall₂ S m m' := by
  induction hR generalizing m m' with
  | nil =>
    cases hP
    cases hQ
    exact .nil
  | cons hr _ ih =>
    cases hP with
    | cons hp hps =>
      cases hQ with
      | cons hq hqs => exact .cons (h _ _ _ _ hr hp hq) (ih hps hqs)

private theorem exists_forall₂ {R : α → β → Prop} {l : List α} (h : ∀ a ∈ l, ∃ b, R a b) :
    ∃ m, List.Forall₂ R l m := by
  induction l with
  | nil => exact ⟨[], .nil⟩
  | cons a l ih =>
    obtain ⟨⟨b, hab⟩, hl⟩ := List.forall_mem_cons.mp h
    obtain ⟨m, hm⟩ := ih hl
    exact ⟨b :: m, .cons hab hm⟩

/-- Where keys differ, lists whose elements correspond by their keys can be brought into the same
order. -/
theorem exists_perm_forall₂ {R : α → α → Prop} {key : α → β} {l m : List α} (hl : (l.map key).Nodup)
    (hm : (m.map key).Nodup) (h : ∀ a ∈ l, ∃ b ∈ m, key b = key a ∧ R a b)
    (h' : ∀ b ∈ m, ∃ a ∈ l, key a = key b) : ∃ r : List α, r.Perm m ∧ List.Forall₂ R l r := by
  obtain ⟨r, hr⟩ := exists_forall₂ (R := fun a b ↦ b ∈ m ∧ key b = key a ∧ R a b) h
  have hkeys : r.map key = l.map key := by
    clear hl h h'
    induction hr with
    | nil => rfl
    | cons hab _ ih => rw [List.map_cons, List.map_cons, hab.2.1, ih]
  refine ⟨r, (List.perm_ext_iff_of_nodup ?_ hm.of_map).mpr fun b ↦
    ⟨fun hb ↦ ?_, fun hb ↦ ?_⟩, hr.imp fun _ _ hab ↦ hab.2.2⟩
  · exact (hkeys ▸ hl).of_map
  · obtain ⟨a, -, hab⟩ := exists_of_mem_forall₂ hr.flip hb
    exact hab.1
  · obtain ⟨a, ha, hkey⟩ := h' b hb
    obtain ⟨b', hb', hmem, hkey', -⟩ := exists_of_mem_forall₂ hr ha
    cases List.inj_on_of_nodup_map hm hmem hb (hkey'.trans hkey)
    exact hb'

end lists

/-! ## Documents -/

/-- Two selections are the same up to the order of the selections in them. -/
inductive Selection.Rearranged : Selection → Selection → Prop
  | field (head : FieldHead) {l m l' : List Selection}
      (each : List.Forall₂ Selection.Rearranged l m) (order : m.Perm l') :
      Selection.Rearranged (.field head l) (.field head l')
  | inline (typeCondition : Option Name) (directives : List Directive) {l m l' : List Selection}
      (each : List.Forall₂ Selection.Rearranged l m) (order : m.Perm l') :
      Selection.Rearranged (.inline typeCondition directives l)
        (.inline typeCondition directives l')
  | spread (name : Name) (directives : List Directive) :
      Selection.Rearranged (.spread name directives) (.spread name directives)

/-- Two lists of selections are the same up to order, in them and in their selections. -/
def Selection.RearrangedAll (l l' : List Selection) : Prop :=
  ∃ m : List Selection, List.Forall₂ Selection.Rearranged l m ∧ m.Perm l'

/-- Two operations are the same up to the order of selections. -/
def Operation.Rearranged (o o' : Operation) : Prop :=
  Selection.RearrangedAll o.selections o'.selections ∧ o' = { o with selections := o'.selections }

/-- Two fragments are the same up to the order of selections. -/
def Fragment.Rearranged (f f' : Fragment) : Prop :=
  Selection.RearrangedAll f.selections f'.selections ∧ f' = { f with selections := f'.selections }

/-- Two documents are the same up to the order of selections, in their operations and fragments, at
any depth. -/
structure Document.Rearranged (d d' : Document) : Prop where
  /-- The operations correspond one by one. -/
  operations : List.Forall₂ Operation.Rearranged d.operations d'.operations
  /-- The fragments correspond one by one. -/
  fragments : List.Forall₂ Fragment.Rearranged d.fragments d'.fragments

namespace Selection

mutual

theorem Rearranged.symm : ∀ {s s' : Selection}, s.Rearranged s' → s'.Rearranged s
  | _, _, .field head each order => by
    obtain ⟨m, each', order'⟩ := List.perm_comp_forall₂ order.symm (forall₂_rearranged_symm each)
    exact .field head each' order'
  | _, _, .inline typeCondition directives each order => by
    obtain ⟨m, each', order'⟩ := List.perm_comp_forall₂ order.symm (forall₂_rearranged_symm each)
    exact .inline typeCondition directives each' order'
  | _, _, .spread name directives => .spread name directives

theorem forall₂_rearranged_symm :
    ∀ {l m : List Selection}, List.Forall₂ Rearranged l m → List.Forall₂ Rearranged m l
  | _, _, .nil => .nil
  | _, _, .cons h rest => .cons h.symm (forall₂_rearranged_symm rest)

end

namespace RearrangedAll

variable {l l' : List Selection}

theorem symm (h : RearrangedAll l l') : RearrangedAll l' l := by
  obtain ⟨m, each, order⟩ := h
  exact List.perm_comp_forall₂ order.symm (forall₂_rearranged_symm each)

theorem exists_of_mem (h : RearrangedAll l l') {s : Selection} (hs : s ∈ l) :
    ∃ s' ∈ l', s.Rearranged s' := by
  obtain ⟨m, each, order⟩ := h
  obtain ⟨s', hs', hR⟩ := exists_of_mem_forall₂ each hs
  exact ⟨s', order.mem_iff.mp hs', hR⟩

end RearrangedAll

end Selection

namespace Document.Rearranged

variable {d d' : Document}

theorem symm (h : d.Rearranged d') : d'.Rearranged d where
  operations := (h.operations.imp fun o o' ho ↦ show Operation.Rearranged o' o from
    ⟨ho.1.symm, by rw [ho.2]⟩).flip
  fragments := (h.fragments.imp fun f f' hf ↦
    show Fragment.Rearranged f' f from ⟨hf.1.symm, by rw [hf.2]⟩).flip

/-- A fragment is found in one document if it is found in the other. -/
theorem exists_fragment (h : d.Rearranged d') {name : Name} {fragment : Fragment}
    (hf : d.fragment? name = some fragment) :
    ∃ fragment', d'.fragment? name = some fragment' ∧ fragment.Rearranged fragment' :=
  exists_of_rel (rel_find? (fun f f' hR ↦ by rw [hR.2]) h.fragments) hf

theorem map_name_fragments (h : d.Rearranged d') :
    d.fragments.map Fragment.name = d'.fragments.map Fragment.name :=
  map_eq_of_forall₂ (h.fragments.imp fun f f' hf ↦ by rw [hf.2])

end Document.Rearranged

theorem Selection.Rearranged.gate? {d d' : Document} (hd : d.Rearranged d') {s s' : Selection}
    {g : Gate} (h : s.Rearranged s') (hg : s.gate? d = some g) : s'.gate? d' = some g := by
  cases h with
  | field => cases hg
  | inline => exact hg
  | spread name directives =>
    obtain ⟨fragment, hf, rfl⟩ := Option.map_eq_some_iff.mp hg
    obtain ⟨fragment', hf', -, heq⟩ := hd.exists_fragment hf
    rw [gate?_spread hf', heq]

/-- **A way can be gone in whatever order the selections are listed.** -/
theorem Way.rearranged {d d' : Document} (hd : d.Rearranged d') {s s' target : Selection}
    {gates : List Gate} (h : Way d s gates target) (hs : s.Rearranged s') :
    ∃ target', Way d' s' gates target' ∧ target.Rearranged target' := by
  induction h generalizing s' with
  | here s => exact ⟨s', .here s', hs⟩
  | inline mem rest ih =>
    cases hs with
    | inline _ _ each order =>
      obtain ⟨x', hx', hR⟩ := Selection.RearrangedAll.exists_of_mem ⟨_, each, order⟩ mem
      obtain ⟨target', hway, htarget⟩ := ih hR
      exact ⟨target', .inline hx' hway, htarget⟩
  | @spread name directives _ _ _ _ found mem rest ih =>
    cases hs with
    | spread =>
      obtain ⟨fragment', hf', hall, heq⟩ := hd.exists_fragment found
      obtain ⟨x', hx', hR⟩ := hall.exists_of_mem mem
      obtain ⟨target', hway, htarget⟩ := ih hR
      refine ⟨target', ?_, htarget⟩
      have hway' : Way d' (.spread name directives) _ target' := .spread hf' hx' hway
      rwa [heq] at hway'

/-- A way through inline fragments can be gone in whatever order the selections are listed. -/
theorem Inside.rearranged {s s' target : Selection} {gates : List Gate} (h : Inside s gates target)
    (hs : s.Rearranged s') : ∃ target', Inside s' gates target' ∧ target.Rearranged target' := by
  induction h generalizing s' with
  | here s => exact ⟨s', .here s', hs⟩
  | inline mem rest ih =>
    cases hs with
    | inline _ _ each order =>
      obtain ⟨x', hx', hR⟩ := Selection.RearrangedAll.exists_of_mem ⟨_, each, order⟩ mem
      obtain ⟨target', hway, htarget⟩ := ih hR
      exact ⟨target', .inline hx' hway, htarget⟩

/-! ## Trees of fields -/

mutual

/-- Two fields are the same up to the order of fields in their field sets and of the fragments
noted, and up to what their selections do not agree on where they are merged: whether an alias is
given, the description and the deprecation. -/
inductive Field.Alike : Field → Field → Prop
  | mk {f f' : Field} (info : f.info.SameField f'.info)
      (responseName : f.responseName = f'.responseName) (condition : f.condition = f'.condition)
      (fieldSets : List.Forall₂ FieldSet.Alike f.fieldSets f'.fieldSets)
      (fragments : f.fragments.Perm f'.fragments) : Field.Alike f f'

/-- Two field sets are for the same shape and have the same fields up to order. -/
inductive FieldSet.Alike : FieldSet → FieldSet → Prop
  | mk {s s' : FieldSet} {reordered : List Field} (typeSet : s.typeSet = s'.typeSet)
      (possibleTypes : s.possibleTypes = s'.possibleTypes)
      (fields : List.Forall₂ Field.Alike s.fields reordered) (order : reordered.Perm s'.fields)
      (fragments : s.fragments.Perm s'.fragments) : FieldSet.Alike s s'

end

theorem Field.alike_typename : Field.typename.Alike Field.typename :=
  .mk (.refl _) rfl rfl .nil (.refl _)

end ResponseModels
