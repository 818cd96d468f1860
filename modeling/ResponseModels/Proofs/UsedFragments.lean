import ResponseModels.Proofs.Closure
import ResponseModels.Proofs.FieldTree
import ResponseModels.Proofs.Sample

/-!
# The fragments that a field uses

The tree of a field records the fragments spread in it: each field and each field set has a list of
its own (`Field.Records`). A fragment of a library records fragments in the same way, in the tree of
its field. So from a field one gets to the fragments recorded in it, and from these to further ones,
and back to some that were met before, if they spread each other. `FragmentLibrary.Reaches` says
which fragments one can get to.

`FragmentLibrary.usedFragments` keeps a list of names that are still to be looked up, with
repetitions. Whatever the fragments of a library record, the names it ends up with are those that
are reached (`FragmentLibrary.mem_usedFragments_iff_reaches`). It ends up with an answer if all of
these are in the library. A library is complete (`FragmentLibrary.Complete`) if it has the fragments
of a document and these record no others; then every field that records fragments of the document
has an answer (`usedFragments_eq_reached`).
-/

set_option autoImplicit false

namespace ResponseModels

open Relation (ReflTransGen)

/-! ## What a field records -/

/-- A fragment is recorded somewhere in the tree of a field, at a field or at one of its field
sets. -/
def Field.Records (f : Field) (n : Name) : Prop :=
  ∃ k, f.Contains k ∧ (n ∈ k.fragments ∨ ∃ s ∈ k.fieldSets, n ∈ s.fragments)

theorem Field.Contains.mem_spreads {f k : Field} {n : Name} (h : f.Contains k)
    (hn : n ∈ k.spreads) : n ∈ f.spreads := by
  induction h with
  | here => exact hn
  | step _ mem inner ih => exact ih (Field.mem_spreads.mpr (.inr ⟨_, mem, .inr ⟨_, inner, hn⟩⟩))

theorem Field.records_of_mem_spreads {f : Field} {n : Name} (h : n ∈ f.spreads) : f.Records n := by
  rcases Field.mem_spreads.mp h with hn | ⟨s, hs, hn | ⟨k, hk, hn⟩⟩
  · exact ⟨f, .here, .inl hn⟩
  · exact ⟨f, .here, .inr ⟨s, hs, hn⟩⟩
  · obtain ⟨x, hx, hrecorded⟩ := records_of_mem_spreads hn
    exact ⟨x, hx.beneath hs hk, hrecorded⟩
termination_by f.size
decreasing_by exact Field.size_lt_of_mem hs hk

/-- The spreads of a field are those that its tree records. -/
theorem Field.mem_spreads_iff_records {f : Field} {n : Name} : n ∈ f.spreads ↔ f.Records n := by
  refine ⟨records_of_mem_spreads, ?_⟩
  rintro ⟨k, hk, hn | ⟨s, hs, hn⟩⟩
  · exact hk.mem_spreads (Field.mem_spreads.mpr (.inl hn))
  · exact hk.mem_spreads (Field.mem_spreads.mpr (.inr ⟨s, hs, .inl hn⟩))

/-! ## What is reached -/

namespace FragmentLibrary

variable {lib : FragmentLibrary} {f : Field} {n : Name}

/-- From a field one gets to a fragment that it records, or that a fragment records to which one
gets. -/
inductive Reaches (lib : FragmentLibrary) (f : Field) : Name → Prop
  | recorded {n : Name} (here : f.Records n) : lib.Reaches f n
  | further {m n : Name} {b : BuiltFragment} (before : lib.Reaches f m)
      (found : lib.built? m = some b) (there : b.field.Records n) : lib.Reaches f n

theorem reaches_iff :
    lib.Reaches f n ↔ ∃ p ∈ f.spreads, ReflTransGen (Refers lib.spreadTable) p n := by
  -- Both go on at their far end, so a step of one is a step of the other.
  constructor
  · intro h
    induction h with
    | recorded here => exact ⟨_, Field.mem_spreads_iff_records.mpr here, .refl⟩
    | further _ found there ih =>
      obtain ⟨p, hp, hreach⟩ := ih
      exact ⟨p, hp,
        hreach.tail
          (refers_spreadTable_iff.mpr ⟨_, found, Field.mem_spreads_iff_records.mpr there⟩)⟩
  · rintro ⟨p, hp, hreach⟩
    induction hreach with
    | refl => exact .recorded (Field.mem_spreads_iff_records.mp hp)
    | tail _ hstep ih =>
      obtain ⟨b, hb, hother⟩ := refers_spreadTable_iff.mp hstep
      exact .further ih hb (Field.mem_spreads_iff_records.mp hother)

/-- **What a field uses is what is reached from it**, in any library. -/
theorem mem_usedFragments_iff_reaches {names : NameSet} (h : lib.usedFragments f = .ok names) :
    n ∈ names ↔ lib.Reaches f n := by
  rw [mem_usedFragments_iff h, reaches_iff]

/-! ## Complete libraries -/

/-- A library has the fragments of a document, and no other is recorded in them. -/
structure Complete (lib : FragmentLibrary) (d : Document) : Prop where
  /-- Every fragment of the document is built. -/
  built : ∀ fragment ∈ d.fragments, (lib.built? fragment.name).isSome
  /-- What is recorded in a fragment is one of the document. -/
  recorded : ∀ b ∈ lib.built, ∀ n, b.field.Records n → ∃ fragment ∈ d.fragments, fragment.name = n

theorem complete_ofDocument {schema : Schema} {d : Document} {config : Config}
    (h : ofDocument schema d config = .ok lib) :
    lib.Complete d := by
  have hholds := holds_ofDocument h
  refine ⟨fun fragment hf ↦ (hholds.built fragment hf).resolve_left List.not_mem_nil,
    fun b hb n hn ↦ ?_⟩
  obtain ⟨c, hc⟩ :=
    Option.isSome_iff_exists.mp (hholds.closed b hb n (Field.mem_spreads_iff_records.mpr hn))
  obtain ⟨fragment, hf, -⟩ := hholds.sound.exists_fragment hc
  exact ⟨fragment, Document.mem_of_fragment? hf, Document.name_of_fragment? hf⟩

theorem Complete.closed {d : Document} (h : lib.Complete d) : lib.Closed := by
  intro b hb n hn
  obtain ⟨fragment, hf, rfl⟩ := h.recorded b hb n (Field.mem_spreads_iff_records.mp hn)
  exact h.built fragment hf

/-- The fragments that a field uses can be found in a complete library. -/
theorem Complete.exists_usedFragments {d : Document} (h : lib.Complete d)
    (hf : ∀ n, f.Records n → ∃ fragment ∈ d.fragments, fragment.name = n) :
    ∃ names, lib.usedFragments f = .ok names := by
  refine FailsOnly.exists_ok (failsOnly_usedFragments h.closed fun n hn ↦ ?_)
  obtain ⟨fragment, hfragment, rfl⟩ := hf n (Field.mem_spreads_iff_records.mp hn)
  exact h.built fragment hfragment

end FragmentLibrary

/-- **The fragments that a field uses are all that can be reached from it.** The library of a
document is complete. In a complete library, whatever circles its fragments make, the fragments used
by a field can be found if the field records fragments of the document. They are those that one gets
to from the field in one step or more, in ascending order and each once. -/
theorem usedFragments_eq_reached (d : Document) (lib : FragmentLibrary) :
    (∀ schema config, FragmentLibrary.ofDocument schema d config = .ok lib → lib.Complete d) ∧
      (lib.Complete d →
        ∀ f : Field, (∀ n, f.Records n → ∃ fragment ∈ d.fragments, fragment.name = n) →
        ∃ names, lib.usedFragments f = .ok names ∧ names.toList.Pairwise (· < ·) ∧
          ∀ n, n ∈ names.toList ↔ lib.Reaches f n) := by
  refine ⟨fun schema config h ↦ FragmentLibrary.complete_ofDocument h, fun hlib f hf ↦ ?_⟩
  obtain ⟨names, hnames⟩ := hlib.exists_usedFragments hf
  refine ⟨names, hnames, ?_, fun n ↦ FragmentLibrary.mem_usedFragments_iff_reaches hnames⟩
  exact names.ascending.imp compareOfLessAndEq_eq_lt.mp

namespace Sample

/-- A field of one shape, with fields and with fragments that are spread there. -/
def visiting (fields : List Field) (fragments : List Name) : Field :=
  { Field.typename with fieldSets := [⟨{"Animal"}, .ofList ["Cat", "Dog"], fields, fragments⟩] }

/-- A library of two fragments that spread each other, one of them further down. -/
def hosts : FragmentLibrary where
  built := [⟨"Host", visiting [] ["Guest"], ⟨⟨.fragmentInterface "Host", []⟩, []⟩⟩,
    ⟨"Guest", visiting [visiting [] ["Host"]] [], ⟨⟨.fragmentInterface "Guest", []⟩, []⟩⟩]
  implementations := []

end Sample

open Sample in
/-- A guest leads to a host and from there back to a guest, in a library with a circle. The library
of a document has none, and there company leads to a name. -/
theorem usedFragments_eq_reached_hosts :
    (∃ lib b names, FragmentLibrary.ofDocument schema diamond {} = .ok lib ∧
      lib.built? "Company" = some b ∧
      lib.usedFragments b.field = .ok names ∧ "Named" ∈ names.toList) ∧
    hosts.Complete circular ∧ ∃ names, hosts.usedFragments (visiting [] ["Guest"]) = .ok names ∧
      names.toList.Pairwise (· < ·) ∧ "Host" ∈ names.toList ∧ "Guest" ∈ names.toList := by
  refine ⟨?_, ?_⟩
  · obtain ⟨lib, hlib, hcheck⟩ := Error.exists_of_any
      (x := FragmentLibrary.ofDocument schema diamond {})
      (p := fun lib ↦ (lib.built? "Company").any fun b ↦ "Named" ∈ b.field.spreads)
      (by decide +kernel)
    simp only [Option.any_eq_true, decide_eq_true_eq] at hcheck
    obtain ⟨b, hb, hnamed⟩ := hcheck
    obtain ⟨hcomplete, hexact⟩ := usedFragments_eq_reached diamond lib
    have hrecorded := (hcomplete schema {} hlib).recorded b (List.mem_of_find?_eq_some hb)
    obtain ⟨names, hnames, -, hmem⟩ := hexact (hcomplete schema {} hlib) b.field hrecorded
    exact ⟨lib, b, names, hlib, hb, hnames,
      (hmem "Named").mpr (.recorded (Field.mem_spreads_iff_records.mp hnamed))⟩
  · have hspreads : ∀ b ∈ hosts.built, ∀ n ∈ b.field.spreads, ∃ fragment ∈ circular.fragments,
        fragment.name = n := by
      decide +kernel
    have hcomplete : hosts.Complete circular :=
      ⟨by decide, fun b hb n hn ↦ hspreads b hb n (Field.mem_spreads_iff_records.mpr hn)⟩
    have hguest : (visiting [] ["Guest"]).Records "Guest" :=
      Field.mem_spreads_iff_records.mp (by decide +kernel)
    have hhost : (visiting [visiting [] ["Host"]] []).Records "Host" :=
      Field.mem_spreads_iff_records.mp (by decide +kernel)
    have hreach : hosts.Reaches (visiting [] ["Guest"]) "Guest" := .recorded hguest
    obtain ⟨names, hnames, hascending, hmem⟩ :=
      (usedFragments_eq_reached circular hosts).2 hcomplete (visiting [] ["Guest"])
        (hcomplete.recorded _ List.mem_cons_self)
    exact ⟨hcomplete, names, hnames, hascending, (hmem "Host").mpr (.further hreach rfl hhost),
      (hmem "Guest").mpr hreach⟩

end ResponseModels
