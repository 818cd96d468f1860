import Mathlib.Logic.Relation
import ResponseModels.Proofs.Collect.Repetition
import ResponseModels.Proofs.Restatement

/-!
# Repeated selections

A selection can be written again in the list in which it stands, at once or later, in a definition
or at any depth in it. This makes no difference to what is built but for the text.

* `Document.Repeats` says that a document has one selection more than another, which reads the same
  as one before it in its list.
* Such a document has its places at home in the other, position by position, those of the selection
  that was inserted being at home where it was written before (`Selection.Repeats.exists_fold`). So
  its fields are the same (`expandRoot_of_repeats`).
* **Repeating selections changes nothing** (`build_of_repeated`).
-/

set_option autoImplicit false

namespace ResponseModels

/-! ## Repeating a selection -/

/-- The second list has one selection more than the first, or a list inside it has. It reads the
same as one that stands before it in the same list. -/
inductive Selection.Repeats : List Selection → List Selection → Prop
  | here {s : Selection} (before after : List Selection) (earlier : s ∈ before) :
      Repeats (before ++ after) (before ++ s :: after)
  | field {l l' : List Selection} (before : List Selection) (head : FieldHead)
      (after : List Selection) (inside : Repeats l l') :
      Repeats (before ++ .field head l :: after) (before ++ .field head l' :: after)
  | inline {l l' : List Selection} (before : List Selection) (typeCondition : Option Name)
      (directives : List Directive) (after : List Selection) (inside : Repeats l l') :
      Repeats (before ++ .inline typeCondition directives l :: after)
        (before ++ .inline typeCondition directives l' :: after)

/-- One of the definitions of the second document has one selection more, which repeats another. -/
inductive Document.Repeats : Document → Document → Prop
  | operation {o : Operation} {l : List Selection} (before after : List Operation)
      (fragments : List Fragment) (inside : Selection.Repeats o.selections l) :
      Repeats ⟨before ++ o :: after, fragments⟩
        ⟨before ++ { o with selections := l } :: after, fragments⟩
  | fragment {f : Fragment} {l : List Selection} (operations : List Operation)
      (before after : List Fragment) (inside : Selection.Repeats f.selections l) :
      Repeats ⟨operations, before ++ f :: after⟩
        ⟨operations, before ++ { f with selections := l } :: after⟩

/-! ## Where repeated selections are at home -/

namespace Place

/-- The place to which positions lead, the outermost first. -/
def descend (p : Place) : List Nat → Place
  | [] => p
  | k :: ks => (p.child k).descend ks

theorem descend_eq (p : Place) (ks : List Nat) :
    p.descend ks = ⟨p.owner, ks.reverse ++ p.steps⟩ := by
  induction ks generalizing p with
  | nil => rfl
  | cons k ks ih =>
    rw [descend, ih, List.reverse_cons, List.append_assoc]
    rfl

theorem locateFrom_append (p : Place) (i : Nat) (l m : List Selection) :
    p.locateFrom i (l ++ m) = p.locateFrom i l ++ p.locateFrom (i + l.length) m := by
  induction l generalizing i with
  | nil => rfl
  | cons s l ih =>
    rw [List.cons_append, locateFrom, locateFrom, ih, List.length_cons, Nat.add_right_comm,
      Nat.add_assoc]
    rfl

end Place

section

variable {home : Place → Place} {p p' : Place}

/-- Lists that read the same, where their places are at home position by position. -/
theorem retraces_locateFrom {before : List (Place × Selection)} {l : List Selection} {i i' : Nat}
    (hsame : ∀ s ∈ l, ∀ q q' : Place, (∀ ks, home (q'.descend ks) = q.descend ks) →
      Echoes home (q, s) (q', s))
    (hhome : ∀ k < l.length, ∀ ks,
      home ((p'.child (i' + k)).descend ks) = (p.child (i + k)).descend ks) :
    Retraces (Echoes home) before (p.locateFrom i l) (p'.locateFrom i' l) := by
  induction l generalizing before i i' with
  | nil => exact .nil before
  | cons s rest ih =>
    obtain ⟨hs, hrest⟩ := List.forall_mem_cons.mp hsame
    refine .next (hs _ _ fun ks ↦ hhome 0 (Nat.zero_lt_succ _) ks) (ih hrest fun k hk ks ↦ ?_)
    have hnext := hhome (k + 1) (Nat.succ_lt_succ hk) ks
    rwa [← Nat.add_assoc, Nat.add_right_comm, ← Nat.add_assoc, Nat.add_right_comm i] at hnext

/-- A selection that is at home, position by position, where it reads the same. -/
theorem Echoes.of_descend (s : Selection) (h : ∀ ks, home (p'.descend ks) = p.descend ks) :
    Echoes home (p, s) (p', s) := by
  induction hn : s.size using Nat.strongRecOn generalizing s p p' with
  | ind n ih =>
    subst hn
    have hinside : ∀ l : List Selection, Selection.sizeAll l < s.size →
        Retraces (Echoes home) [] (p.locate l) (p'.locate l) := by
      intro l hl
      refine retraces_locateFrom (fun t ht q q' hq ↦ ?_) fun k _ ks ↦ h ((0 + k) :: ks)
      exact ih t.size (Nat.lt_of_le_of_lt (Selection.size_le_sizeAll ht) hl) t hq rfl
    cases s with
    | field head l => exact .field (h []) (hinside l (Nat.lt_succ_self _))
    | inline typeCondition directives l => exact .inline (h []) (hinside l (Nat.lt_succ_self _))
    | spread name directives => exact .spread (h [])

theorem retraces_same {before : List (Place × Selection)} {l : List Selection} {i i' : Nat}
    (hhome : ∀ k < l.length, ∀ ks,
      home ((p'.child (i' + k)).descend ks) = (p.child (i + k)).descend ks) :
    Retraces (Echoes home) before (p.locateFrom i l) (p'.locateFrom i' l) :=
  retraces_locateFrom (fun s _ _ _ h ↦ .of_descend s h) hhome

/-- A list in which one selection is replaced. -/
theorem retraces_replaced {before after : List Selection} {s s' : Selection}
    (hitem : Echoes home (p.child before.length, s) (p'.child before.length, s'))
    (helse : ∀ k, k ≠ before.length → ∀ ks, home ((p'.child k).descend ks) =
      (p.child k).descend ks) :
    Retraces (Echoes home) [] (p.locate (before ++ s :: after))
      (p'.locate (before ++ s' :: after)) := by
  rw [Place.locate, Place.locate, Place.locateFrom_append, Place.locateFrom_append, Nat.zero_add]
  refine (retraces_same fun k hk ks ↦ helse _ (by omega) ks).append
    (.next hitem (retraces_same fun k _ ks ↦ helse _ (by omega) ks))

end

/-- From positions in a list to those before a copy of what stands at `j` was inserted at `n`. -/
def foldCopy (n j : Nat) : List Nat → List Nat
  | [] => []
  | k :: ks => (if k < n then k else if k = n then j else k - 1) :: ks

/-- From positions in a list to those before something was inserted inside what stands at `n`. -/
def foldInside (n : Nat) (inner : List Nat → List Nat) : List Nat → List Nat
  | [] => []
  | k :: ks => k :: if k = n then inner ks else ks

/-- A list in which something was inserted inside one selection. -/
theorem retraces_inside {home : Place → Place} {p p' : Place} {before after : List Selection}
    {s s' : Selection} {inner : List Nat → List Nat} (hnil : inner [] = [])
    (hhome : ∀ ks, home (p'.descend ks) = p.descend (foldInside before.length inner ks))
    (hitem : home (p'.child before.length) = p.child before.length →
      (∀ ks, home ((p'.child before.length).descend ks) =
        (p.child before.length).descend (inner ks)) →
      Echoes home (p.child before.length, s) (p'.child before.length, s')) :
    Retraces (Echoes home) [] (p.locate (before ++ s :: after))
      (p'.locate (before ++ s' :: after)) := by
  have hinside : ∀ ks, home ((p'.child before.length).descend ks) =
      (p.child before.length).descend (inner ks) := by
    intro ks
    refine (hhome (before.length :: ks)).trans ?_
    rw [foldInside, if_pos rfl]
    rfl
  refine retraces_replaced (hitem ((hinside []).trans (by rw [hnil]; rfl)) hinside) fun k hk ks ↦
    (hhome (k :: ks)).trans ?_
  rw [foldInside, if_neg hk]
  rfl

/-- **Positions lead home** from a list in which a selection is repeated. -/
theorem Selection.Repeats.exists_fold {l l' : List Selection} (h : Selection.Repeats l l') :
    ∃ fold : List Nat → List Nat, fold [] = [] ∧ ∀ (home : Place → Place) (p p' : Place),
      (∀ ks, home (p'.descend ks) = p.descend (fold ks)) →
      Retraces (Echoes home) [] (p.locate l) (p'.locate l') := by
  induction h with
  | @here s before after earlier =>
    obtain ⟨j, hj⟩ := List.mem_iff_getElem?.mp earlier
    refine ⟨foldCopy before.length j, rfl, fun home p p' hhome ↦ ?_⟩
    have hat : ∀ k ks, home ((p'.child k).descend ks) =
        p.descend (foldCopy before.length j (k :: ks)) :=
      fun k ks ↦ hhome (k :: ks)
    have hmem : (p.child j, s) ∈ [] ++ p.locateFrom 0 before := Place.mem_locate.mpr ⟨j, rfl, hj⟩
    rw [Place.locate, Place.locate, Place.locateFrom_append, Place.locateFrom_append, Nat.zero_add]
    refine .append (retraces_same fun k hk ks ↦ ?_)
      (.back hmem (.of_descend s fun ks ↦ ?_) (retraces_same fun k _ ks ↦ ?_))
    · rw [Nat.zero_add, hat, foldCopy, if_pos hk]
      rfl
    · rw [hat, foldCopy, if_neg (Nat.lt_irrefl _), if_pos rfl]
      rfl
    · rw [hat, foldCopy, if_neg (by omega), if_neg (by omega), Nat.add_right_comm,
        Nat.add_sub_cancel]
      rfl
  | field before head after _ ih =>
    obtain ⟨inner, hnil, ih⟩ := ih
    exact ⟨foldInside before.length inner, rfl, fun home p p' hhome ↦
      retraces_inside hnil hhome fun hplace hinside ↦ .field hplace (ih home _ _ hinside)⟩
  | inline before typeCondition directives after _ ih =>
    obtain ⟨inner, hnil, ih⟩ := ih
    exact ⟨foldInside before.length inner, rfl, fun home p p' hhome ↦
      retraces_inside hnil hhome fun hplace hinside ↦ .inline hplace (ih home _ _ hinside)⟩

/-! ## Documents -/

/-- Selections are the same, or one of them is repeated. -/
def Selection.RepeatsIfAny : List Selection → List Selection → Prop :=
  Relation.ReflGen Selection.Repeats

theorem Selection.RepeatsIfAny.exists_fold {l l' : List Selection}
    (h : Selection.RepeatsIfAny l l') :
    ∃ fold : List Nat → List Nat, ∀ (home : Place → Place) (p p' : Place),
      (∀ ks, home (p'.descend ks) = p.descend (fold ks)) →
      Retraces (Echoes home) [] (p.locate l) (p'.locate l') := by
  cases h with
  | refl => exact ⟨id, fun home p p' hhome ↦ retraces_same fun k _ ks ↦ hhome ((0 + k) :: ks)⟩
  | single h =>
    obtain ⟨fold, -, h⟩ := h.exists_fold
    exact ⟨fold, h⟩

/-- A fragment that is the same, or in which a selection is repeated. -/
def Fragment.RepeatsIfAny (f f' : Fragment) : Prop :=
  ∃ l, Selection.RepeatsIfAny f.selections l ∧ f' = { f with selections := l }

/-- An operation that is the same, or in which a selection is repeated. -/
def Operation.RepeatsIfAny (o o' : Operation) : Prop :=
  ∃ l, Selection.RepeatsIfAny o.selections l ∧ o' = { o with selections := l }

theorem Document.Repeats.forall₂ {d d' : Document} (h : d.Repeats d') :
    List.Forall₂ Operation.RepeatsIfAny d.operations d'.operations ∧
      List.Forall₂ Fragment.RepeatsIfAny d.fragments d'.fragments := by
  have hoperation : ∀ l : List Operation, List.Forall₂ Operation.RepeatsIfAny l l :=
    fun l ↦ List.forall₂_same.mpr fun o _ ↦ ⟨o.selections, .refl, rfl⟩
  have hfragment : ∀ l : List Fragment, List.Forall₂ Fragment.RepeatsIfAny l l :=
    fun l ↦ List.forall₂_same.mpr fun f _ ↦ ⟨f.selections, .refl, rfl⟩
  cases h with
  | operation before after fragments inside =>
    exact ⟨List.rel_append (hoperation before) (.cons ⟨_, .single inside, rfl⟩ (hoperation after)),
      hfragment fragments⟩
  | fragment operations before after inside =>
    exact ⟨hoperation operations,
      List.rel_append (hfragment before) (.cons ⟨_, .single inside, rfl⟩ (hfragment after))⟩

/-- All places of a document in which selections are repeated have a home. -/
theorem Document.exists_home {d d' : Document}
    (hd : ∀ name, Option.Rel Fragment.RepeatsIfAny (d.fragment? name) (d'.fragment? name))
    {l l' : List Selection} (hl : Selection.RepeatsIfAny l l') :
    ∃ home, d.Echoes home d' ∧
      Retraces (ResponseModels.Echoes home) [] (Place.root.locate l) (Place.root.locate l') := by
  obtain ⟨fold, hfold⟩ := hl.exists_fold
  have hfragment : ∀ name, ∃ fold : List Nat → List Nat, ∀ (home : Place → Place) (p p' : Place),
      (∀ ks, home (p'.descend ks) = p.descend (fold ks)) →
      Option.Rel (fun f f' ↦ f'.typeCondition = f.typeCondition ∧
        Retraces (ResponseModels.Echoes home) [] (p.locate f.selections) (p'.locate f'.selections))
        (d.fragment? name) (d'.fragment? name) := by
    intro name
    have hrel := hd name
    generalize d.fragment? name = f, d'.fragment? name = f' at hrel
    cases hrel with
    | none => exact ⟨id, fun _ _ _ _ ↦ .none⟩
    | some hrel =>
      obtain ⟨m, hm, rfl⟩ := hrel
      obtain ⟨fold, hfold⟩ := hm.exists_fold
      exact ⟨fold, fun home p p' hhome ↦ .some ⟨rfl, hfold home p p' hhome⟩⟩
  choose folds hfolds using hfragment
  let home : Place → Place := fun p ↦ ⟨p.owner, (p.owner.elim fold folds p.steps.reverse).reverse⟩
  have hhome : ∀ owner ks, home (Place.descend ⟨owner, []⟩ ks) =
      Place.descend ⟨owner, []⟩ (owner.elim fold folds ks) := by
    intro owner ks
    simp only [home, Place.descend_eq, List.append_nil, List.reverse_reverse]
  exact ⟨home, ⟨fun _ ↦ rfl, fun name ↦ hfolds name home _ _ (hhome (some name))⟩,
    hfold home _ _ (hhome none)⟩

section

variable {schema : Schema} {config : Config} {d d' : Document}

/-- **Selections that are repeated have the same fields.** -/
theorem expandRoot_of_repeats
    (hd : ∀ name, Option.Rel Fragment.RepeatsIfAny (d.fragment? name) (d'.fragment? name))
    {policy : TypenamePolicy} {rawType : Name} {l l' : List Selection} {path : List Name}
    (hl : Selection.RepeatsIfAny l l') :
    Yields (expandRoot schema d policy rawType l path)
      (expandRoot schema d' policy rawType l' path) := by
  obtain ⟨home, hechoes, hr⟩ := d.exists_home hd hl
  exact expandRoot_of_echoes hechoes hr

/-! ## Building -/

/-- **A build of a document in which one selection is repeated.** -/
theorem exists_build_of_repeats {ir : Representation} (hrepeats : d.Repeats d')
    (h : build schema config d = .ok ir) :
    ∃ ir', build schema config d' = .ok ir' ∧ ir'.withoutSources = ir.withoutSources := by
  obtain ⟨hoperations, hfragments⟩ := hrepeats.forall₂
  have hd := Document.fragment?_of_forall₂ (fun _ _ ⟨_, _, heq⟩ ↦ by rw [heq]) hfragments
  refine exists_build_of_restates
    ⟨hoperations.imp fun o o' ho ↦ ?_, hfragments.imp fun f f' hf ↦ ?_⟩ h
  · obtain ⟨l, hl, rfl⟩ := ho
    exact ⟨rfl, fun _ ↦ expandRoot_of_repeats hd hl⟩
  · obtain ⟨l, hl, rfl⟩ := hf
    exact ⟨rfl, expandRoot_of_repeats hd hl⟩

end

/-- **Repeating selections changes nothing.** If a document can be built, and another is obtained
from it by inserting, any number of times and in any lists of selections of its operations and
fragments, copies of selections that stand before them in the same list, then the other can be built
too, and all that is built is the same but for the text of the operations and fragments. -/
theorem build_of_repeated (schema : Schema) (config : Config) (d d' : Document)
    (ir : Representation) (hrepeats : Relation.ReflTransGen Document.Repeats d d')
    (h : build schema config d = .ok ir) :
    ∃ ir', build schema config d' = .ok ir' ∧ ir'.withoutSources = ir.withoutSources := by
  induction hrepeats with
  | refl => exact ⟨ir, h, rfl⟩
  | tail _ step ih =>
    obtain ⟨ir₁, h₁, hview₁⟩ := ih
    obtain ⟨ir', h', hview⟩ := exists_build_of_repeats step h₁
    exact ⟨ir', h', hview.trans hview₁⟩

open Sample in
/-- Spreads that are repeated beneath a field and in an inline fragment, and a field that is
repeated in a named fragment. -/
theorem build_of_repeated_diamond :
    Relation.ReflTransGen Document.Repeats diamond diamondRepeated ∧
      ∃ ir ir', build schema {} diamond = .ok ir ∧ build schema {} diamondRepeated = .ok ir' ∧
        ir'.withoutSources = ir.withoutSources := by
  let named := Selection.spread "Named" []
  let pet : List Selection → Selection := .inline (some "Pet") [includeIf "pets"]
  let friend := field "friend" [named]
  have hspread : Selection.Repeats [field "animal" [named, pet [named], .spread "Company" []]]
      [field "animal" [named, pet [named], named, .spread "Company" []]] :=
    .field [] _ [] (.here [named, pet [named]] [.spread "Company" []] List.mem_cons_self)
  have hinside :
      Selection.Repeats [field "animal" [named, pet [named], named, .spread "Company" []]]
      [field "animal" [named, pet [named, named], named, .spread "Company" []]] :=
    .field [] _ []
      (.inline [named] _ _ [named, .spread "Company" []] (.here [named] [] List.mem_cons_self))
  have hfield : Selection.Repeats [named, friend] [named, friend, friend] :=
    .here [named, friend] [] (List.mem_cons_of_mem _ List.mem_cons_self)
  have hfirst : diamond.Repeats ⟨[⟨.query, some "Visit", [], [], _⟩], diamond.fragments⟩ :=
    .operation [] [] _ hspread
  have hrepeats : Relation.ReflTransGen Document.Repeats diamond diamondRepeated :=
    ((Relation.ReflTransGen.single hfirst).tail (.operation [] [] _ hinside)).tail
      (.fragment _ [] [_] hfield)
  have hok : (build schema {} diamond).toOption.any fun _ ↦ true := by decide +kernel
  obtain ⟨ir, hir, -⟩ := Error.exists_of_any hok
  obtain ⟨ir', hir', hview⟩ := build_of_repeated schema {} diamond diamondRepeated ir hrepeats hir
  exact ⟨hrepeats, ir, ir', hir, hir', hview⟩

end ResponseModels
