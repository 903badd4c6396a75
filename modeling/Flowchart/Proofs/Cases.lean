import Flowchart.Proofs.RoundTrip
import Flowchart.Suite

/-!
# Cases read back

What is read from a text are cases with names and with counts that fit (`Case.Complete`),
whatever the text left out or wrote as a number. The document of such a case lands in one
shape again: it has no list `testCases`, so it is a case by itself
(`Complete.listOfDocument?_document`), and the list of several makes a suite
(`listOfDocument?_suite`). Their lines are strings by then, and strings are read back
whatever is in them.

The other half is where the cases of a text come from: `Holds` tells which parts of a
document are its cases, and `ReadAt` how the one at a place is named.
-/

namespace Flowchart

namespace Document

theorem isPlain_iff {document : Document} {n : Nat} :
    document.isPlain n = true ↔ document.isReadable = true ∧ document.depth ≤ n := by
  rw [isPlain, Bool.and_eq_true, decide_eq_true_eq]

/-- An array needs one level more than its items. -/
theorem isPlain_array {items : List Document} {n : Nat}
    (h : ∀ item ∈ items, item.isPlain n = true) : (array items).isPlain (n + 1) = true := by
  induction items with
  | nil => exact isPlain_iff.mpr ⟨rfl, Nat.le_add_left 1 n⟩
  | cons item items ih =>
      have hitem := isPlain_iff.mp (h item (by simp))
      have hrest := ih fun other hmem => h other (by simp [hmem])
      rw [isPlain_iff, isReadable, depth] at hrest ⊢
      rw [itemsReadable, itemsDepth, hitem.1, hrest.1]
      exact ⟨rfl, Nat.succ_le_succ (Nat.max_le.mpr ⟨hitem.2, Nat.le_of_succ_le_succ hrest.2⟩)⟩

/-- An object needs one level more than the values of its fields. -/
theorem isPlain_object {fields : List (String × Document)} {n : Nat}
    (h : ∀ field ∈ fields, field.2.isPlain n = true) : (object fields).isPlain (n + 1) = true := by
  induction fields with
  | nil => exact isPlain_iff.mpr ⟨rfl, Nat.le_add_left 1 n⟩
  | cons field fields ih =>
      have hfield := isPlain_iff.mp (h field (by simp))
      have hrest := ih fun other hmem => h other (by simp [hmem])
      rw [isPlain_iff, isReadable, depth] at hrest ⊢
      rw [fieldsReadable, fieldsDepth, hfield.1, hrest.1]
      exact ⟨rfl, Nat.succ_le_succ (Nat.max_le.mpr ⟨hfield.2, Nat.le_of_succ_le_succ hrest.2⟩)⟩

theorem isPlain_mono {document : Document} {n m : Nat} (h : document.isPlain n = true)
    (hle : n ≤ m) : document.isPlain m = true :=
  isPlain_iff.mpr ⟨(isPlain_iff.mp h).1, Nat.le_trans (isPlain_iff.mp h).2 hle⟩

/-! ## Fields that were read -/

theorem lt_of_natBelow? {limit n : Nat} {document : Document}
    (h : natBelow? limit document = some n) : n < limit := by
  unfold natBelow? at h
  split at h
  next m =>
    obtain ⟨⟨-, hlt⟩, hn⟩ := Option.ite_none_right_eq_some.mp h
    exact Option.some.inj hn ▸ hlt
  next => exact absurd h (by simp)

/-- A value that may be `null` or missing was read if it is there. -/
theorem decode_of_mem {α : Type} {decode : Document → Option α} {field : Option Document}
    {value : Option α} {a : α} (h : defaulted? none (optional? decode) field = some value)
    (ha : a ∈ value) : ∃ document, decode document = some a := by
  obtain rfl := Option.mem_def.mp ha
  cases field with
  | none => exact absurd (Option.some.inj h) (by simp)
  | some document =>
      rw [defaulted?] at h
      unfold optional? at h
      split at h
      · exact absurd (Option.some.inj h) (by simp)
      · obtain ⟨b, hb, heq⟩ := Option.map_eq_some_iff.mp h
        exact ⟨document, hb.trans heq⟩

section Fields

variable {name : String} {names : List String} {value : Option Document}
  {values : List (Option Document)}

/-- A known field of an object is the only one of its name. -/
theorem filter_of_fields? {entries : List (String × Document)}
    (h : (object entries).fields? (name :: names) = some (value :: values)) :
    entries.filter (·.1 = name) = (value.map fun document => (name, document)).toList := by
  have hvalue := (List.cons.inj (mapM_eq_some_iff.mp h)).1
  dsimp only at hvalue
  -- no entry has the name, or one has, or the record is refused
  split at hvalue
  next hnone => rw [hnone, ← Option.some.inj hvalue]; rfl
  next entry hentry =>
    have hmem : entry ∈ entries.filter (·.1 = name) := by simp [hentry]
    have hname : entry.1 = name := of_decide_eq_true (List.mem_filter.mp hmem).2
    rw [hentry, ← Option.some.inj hvalue, ← hname]
    rfl
  next => exact absurd hvalue (by simp)

theorem find?_of_fields? {entries : List (String × Document)}
    (h : (object entries).fields? (name :: names) = some (value :: values)) :
    (entries.find? (·.1 = name)).map Prod.snd = value := by
  rw [← List.head?_filter, filter_of_fields? h]
  cases value <;> rfl

/-- The first field of an array is its first item. -/
theorem head?_of_fields? {items : List Document}
    (h : (array items).fields? (name :: names) = some (value :: values)) :
    items.head? = value := by
  obtain ⟨-, hvalues⟩ := Option.ite_none_right_eq_some.mp h
  rw [List.length_cons, List.range_succ_eq_map, List.map_cons] at hvalues
  rw [List.head?_eq_getElem?]
  exact (List.cons.inj (Option.some.inj hvalues)).1

end Fields

end Document

namespace Case

/-! ## The document of a case -/

/-- Cases that have a name and whose count fits a document. -/
structure Complete (c : Case) : Prop where
  named : c.name ≠ ""
  fits : ∀ n ∈ c.maxSteps, n < Limits.countLimit

/-- The document with the list of the cases. -/
def suite (cases : List Case) : Document :=
  .object [("testCases", .array (cases.map document))]

/-- Both texts of the document are read as these cases. -/
def ReadsBack (document : Document) (cases : List Case) : Prop :=
  listOfText document.compactText = .ok cases ∧ listOfText document.indentedText = .ok cases

/-- The document of lines is an array of strings. -/
theorem list?_lines (lines : List String) :
    Document.list? line? (.array (lines.map .str)) = some lines := by
  have hline : ∀ line, line? (.str line) = some line := fun _ => rfl
  exact Document.list?_map hline lines

/-- A case is written as an object of strings, arrays of strings, and a count. -/
theorem exists_fields (c : Case) (p : Document → Prop) (hstr : ∀ text, p (.str text))
    (hlines : ∀ lines : List String, p (.array (lines.map .str)))
    (hcount : ∀ n ∈ c.maxSteps, p (.nat n)) :
    ∃ fields, c.document = .object fields ∧ ∀ field ∈ fields, p field.2 := by
  refine ⟨_, rfl, fun field hmem => ?_⟩
  rcases List.mem_append.mp hmem with hmem | hmem
  · simp only [List.mem_cons, List.not_mem_nil, or_false] at hmem
    rcases hmem with rfl | rfl | rfl
    · exact hstr c.name
    · exact hlines c.input
    · exact hlines c.expected
  · obtain ⟨n, hn, rfl⟩ := Option.map_eq_some_iff.mp (Option.mem_toList.mp hmem)
    exact hcount n hn

theorem isPlain_document (c : Case) : c.document.isPlain 2 = true := by
  have hlines : ∀ lines : List String, (Document.array (lines.map .str)).isPlain 1 = true := by
    refine fun lines => Document.isPlain_array fun item hmem => ?_
    obtain ⟨line, -, rfl⟩ := List.mem_map.mp hmem
    rfl
  obtain ⟨fields, hfields, hplain⟩ := c.exists_fields (fun value => value.isPlain 1 = true)
    (fun _ => rfl) hlines (fun _ _ => rfl)
  rw [hfields]
  exact Document.isPlain_object hplain

theorem isPlain_suite (cases : List Case) : (suite cases).isPlain 4 = true := by
  refine Document.isPlain_object (List.forall_mem_singleton.mpr ?_)
  refine Document.isPlain_array fun item hmem => ?_
  obtain ⟨c, -, rfl⟩ := List.mem_map.mp hmem
  exact c.isPlain_document

/-- A case has no list of cases in it. -/
theorem ofSuite?_document (c : Case) : ofSuite? c.document = none := by
  obtain ⟨name, input, expected, maxSteps⟩ := c
  cases maxSteps <;> rfl

namespace Complete

variable {c : Case} (hc : c.Complete)
include hc

theorem lossless_document : c.document.Lossless := by
  have hlines : ∀ lines : List String, (Document.array (lines.map .str)).Lossless := by
    refine fun lines => .array fun item hmem => ?_
    obtain ⟨line, -, rfl⟩ := List.mem_map.mp hmem
    exact .str line
  obtain ⟨fields, hfields, hlossless⟩ := c.exists_fields Document.Lossless .str hlines
    (fun n hn => Document.lossless_nat (hc.fits n hn))
  rw [hfields]
  exact .object hlossless

theorem ofDocument?_document : ofDocument? c.document = some c := by
  obtain ⟨name, input, expected, maxSteps⟩ := c
  cases maxSteps with
  | none =>
      simp [ofDocument?, document, Document.fields?, Document.defaulted?, Document.required?,
        Document.str?, list?_lines]
  | some n =>
      have hn : n < Limits.countLimit := hc.fits n rfl
      simp [ofDocument?, document, Document.fields?, Document.defaulted?, Document.required?,
        Document.str?, list?_lines, Document.optional?, Document.natBelow?, Document.nat, hn]

/-- The document of a case is taken for a case by itself. -/
theorem listOfDocument?_document : listOfDocument? c.document = some [c] := by
  rw [listOfDocument?, if_pos (Document.isPlain_mono c.isPlain_document (by decide)),
    ofSuite?_document, hc.ofDocument?_document]
  rfl

/-- A case with a name keeps it. -/
theorem named_eq (place : Nat) : c.named place = c := by
  rw [Case.named, if_neg (by simpa using hc.named)]

end Complete

section Suite

variable {cases : List Case} (hcases : ∀ c ∈ cases, c.Complete)
include hcases

theorem lossless_suite : (suite cases).Lossless := by
  refine .object (List.forall_mem_singleton.mpr ?_)
  refine .array fun item hmem => ?_
  obtain ⟨c, hc, rfl⟩ := List.mem_map.mp hmem
  exact (hcases c hc).lossless_document

theorem listOfDocument?_suite : listOfDocument? (suite cases) = some cases := by
  have hlist : (cases.map document).mapM ofDocument? = some cases := by
    rw [mapM_eq_some_iff, List.map_map]
    exact List.map_congr_left fun c hc => (hcases c hc).ofDocument?_document
  have hsuite : ofSuite? (suite cases) = some cases := by
    simp [ofSuite?, suite, Document.fields?, Document.required?, Document.list?, hlist]
  rw [listOfDocument?, if_pos (Document.isPlain_mono (isPlain_suite cases) (by decide)), hsuite]

/-- Cases with names stay as they are. -/
theorem mapIdx_named : cases.mapIdx (fun i c => c.named (i + 1)) = cases := by
  rw [List.mapIdx_eq_iff]
  intro i
  cases hi : cases[i]? with
  | none => rfl
  | some c => rw [Option.map_some, (hcases c (List.mem_of_getElem? hi)).named_eq]

/-- A document that the cases are taken from is read back as the cases. -/
theorem readsBack_of_listOfDocument? {document : Document} (hlossless : document.Lossless)
    (hlist : listOfDocument? document = some cases) : ReadsBack document cases := by
  constructor
  · rw [listOfText, Document.ofText?_compactText hlossless, Option.bind_some, hlist]
    exact congrArg Except.ok (mapIdx_named hcases)
  · rw [listOfText, Document.ofText?_indentedText hlossless, Option.bind_some, hlist]
    exact congrArg Except.ok (mapIdx_named hcases)

end Suite

/-! ## Where the cases of a text come from -/

/-- The documents of the cases in a document: the items of its list `testCases`, or where
these make no suite the document by itself. -/
inductive Holds : Document → List Document → Prop where
  | suite {entries : List (String × Document)} {items : List Document} :
      entries.filter (·.1 = "testCases") = [("testCases", .array items)] →
      Holds (.object entries) items
  | single {document : Document} : ofSuite? document = none → Holds document [document]

/-- The name that is written in the document of a case, empty if there is none. It is a field
of an object, or else the first item of an array. -/
def writtenName : Document → String
  | .object fields => ((fields.find? (·.1 = "name")).bind fun field => field.2.str?).getD ""
  | .array items => (items.head?.bind Document.str?).getD ""
  | _ => ""

/-- The case at a place, read from a document: it has the name that is written there, or one
for its place where that is missing or empty, and all else as it is written. -/
structure ReadAt (place : Nat) (item : Document) (c : Case) : Prop where
  name : c.name = if writtenName item = "" then "case-" ++ toString place else writtenName item
  rest : ofDocument? item = some { c with name := writtenName item }

/-- What was read of a case was read of its four fields. -/
theorem fields_of_ofDocument? {item : Document} {c : Case} (h : ofDocument? item = some c) :
    ∃ name input expected maxSteps,
      item.fields? ["name", "input", "expectedOutput", "maxSteps"]
        = some [name, input, expected, maxSteps] ∧
      Document.defaulted? "" Document.str? name = some c.name ∧
      Document.defaulted? none (Document.optional? (Document.natBelow? Limits.countLimit)) maxSteps
        = some c.maxSteps := by
  obtain ⟨fields, hfields, h⟩ := Option.bind_eq_some_iff.mp h
  split at h
  next name input expected maxSteps =>
    obtain ⟨ownName, hname, h⟩ := Option.bind_eq_some_iff.mp h
    obtain ⟨ownInput, -, h⟩ := Option.bind_eq_some_iff.mp h
    obtain ⟨ownExpected, -, h⟩ := Option.bind_eq_some_iff.mp h
    obtain ⟨ownSteps, hsteps, h⟩ := Option.bind_eq_some_iff.mp h
    obtain rfl := Option.some.inj h
    exact ⟨name, input, expected, maxSteps, hfields, hname, hsteps⟩
  next => exact absurd h (by simp)

/-- A count that was read fits. -/
theorem fits_of_ofDocument? {item : Document} {c : Case} (h : ofDocument? item = some c) :
    ∀ n ∈ c.maxSteps, n < Limits.countLimit := by
  obtain ⟨-, -, -, maxSteps, -, -, hsteps⟩ := fields_of_ofDocument? h
  intro n hn
  obtain ⟨document, hread⟩ := Document.decode_of_mem hsteps hn
  exact Document.lt_of_natBelow? hread

/-- The name that was read is the one that was written. -/
theorem writtenName_of_ofDocument? {item : Document} {c : Case} (h : ofDocument? item = some c) :
    writtenName item = c.name := by
  obtain ⟨name, input, expected, maxSteps, hfields, hname, -⟩ := fields_of_ofDocument? h
  have hread : (name.bind Document.str?).getD "" = c.name := by
    cases name with
    | none => exact Option.some.inj hname
    | some document => rw [Option.bind_some, show document.str? = some c.name from hname]; rfl
  cases item with
  | object entries =>
      rw [← Document.find?_of_fields? hfields, Option.bind_map] at hread
      exact hread
  | array items =>
      rw [← Document.head?_of_fields? hfields] at hread
      exact hread
  | _ => exact absurd hfields (by simp [Document.fields?])

/-- A case that was read is taken under its name or under one for its place. -/
theorem readAt_named {item : Document} {c : Case} (h : ofDocument? item = some c) (place : Nat) :
    ReadAt place item (c.named place) := by
  have hname := writtenName_of_ofDocument? h
  have hrest : ofDocument? item = some { c with name := writtenName item } := by rw [h, hname]
  unfold named
  split
  next hempty => exact ⟨by rw [hname, if_pos (by simpa using hempty)], hrest⟩
  next hnamed => exact ⟨by rw [hname, if_neg (by simpa using hnamed)], hrest⟩

theorem ReadAt.complete {place : Nat} {item : Document} {c : Case} (h : ReadAt place item c) :
    c.Complete where
  named := by
    rw [h.name]
    split
    · simp
    · assumption
  fits := fun n hn => fits_of_ofDocument? h.rest n hn

/-- A suite was read of the items of its list. -/
theorem items_of_ofSuite? {document : Document} {cases : List Case}
    (h : ofSuite? document = some cases) :
    ∃ items, Holds document items ∧ items.map ofDocument? = cases.map some := by
  cases document with
  | object entries =>
      obtain ⟨fields, hfields, h⟩ := Option.bind_eq_some_iff.mp h
      split at h
      next field =>
        obtain ⟨list, rfl, hlist⟩ := Option.bind_eq_some_iff.mp h
        cases list with
        | array items =>
            exact ⟨items, .suite (Document.filter_of_fields? hfields), mapM_eq_some_iff.mp hlist⟩
        | _ => exact absurd hlist (by simp [Document.list?])
      next => exact absurd h (by simp)
  | _ => exact absurd h (by simp [ofSuite?])

/-- The cases of a document were read of the documents in it, one of each. -/
theorem items_of_listOfDocument? {document : Document} {cases : List Case}
    (h : listOfDocument? document = some cases) :
    ∃ items, Holds document items ∧ items.map ofDocument? = cases.map some := by
  rw [listOfDocument?] at h
  obtain ⟨-, h⟩ := Option.ite_none_right_eq_some.mp h
  split at h
  next suite hsuite =>
    obtain rfl := Option.some.inj h
    exact items_of_ofSuite? hsuite
  next hsuite =>
    obtain ⟨c, hc, rfl⟩ := Option.map_eq_some_iff.mp h
    exact ⟨[document], .single hsuite, by rw [List.map_singleton, hc]; rfl⟩

/-- The cases of a text stand in it one after the other, each read at its place. -/
theorem readAt_of_listOfText {text : String} {cases : List Case} (h : listOfText text = .ok cases) :
    ∃ document items, Document.ofText? text = some document ∧ Holds document items ∧
      items.length = cases.length ∧
      ∀ i item c, items[i]? = some item → cases[i]? = some c → ReadAt (i + 1) item c := by
  rw [listOfText] at h
  split at h
  next own hown =>
    obtain ⟨document, htext, hlist⟩ := Option.bind_eq_some_iff.mp hown
    obtain ⟨items, hholds, hitems⟩ := items_of_listOfDocument? hlist
    obtain rfl := Except.ok.inj h
    have hlength := congrArg List.length hitems
    rw [List.length_map, List.length_map] at hlength
    refine ⟨document, items, htext, hholds, by rw [hlength, List.length_mapIdx], ?_⟩
    intro i item c hitem hc
    rw [List.getElem?_mapIdx] at hc
    obtain ⟨read, hread, rfl⟩ := Option.map_eq_some_iff.mp hc
    have hdecoded := congrArg (·[i]?) hitems
    rw [List.getElem?_map, List.getElem?_map, hitem, hread] at hdecoded
    exact readAt_named (Option.some.inj hdecoded) (i + 1)
  next => exact absurd h (by simp)

/-- **Cases survive being written and read again.** The cases of a text are read of the parts
of its document that hold them, in their order, and have the names that are written there or
else names for their places. Each of them is the one case of its own document, in either
written form, and all of them are the cases of the document that lists them. -/
theorem readsBack_of_listOfText {text : String} {cases : List Case}
    (h : listOfText text = .ok cases) :
    (∃ document items, Document.ofText? text = some document ∧ Holds document items ∧
      items.length = cases.length ∧
      ∀ i item c, items[i]? = some item → cases[i]? = some c → ReadAt (i + 1) item c) ∧
    (∀ c ∈ cases, c.name ≠ "" ∧ ReadsBack c.document [c]) ∧
    ReadsBack (suite cases) cases := by
  have hread := readAt_of_listOfText h
  have hcomplete : ∀ c ∈ cases, c.Complete := by
    -- there are as many items as cases, so each case was read of the item at its place
    obtain ⟨document, items, -, -, hlength, hat⟩ := hread
    intro c hmem
    obtain ⟨i, hi, hc⟩ := List.mem_iff_getElem.mp hmem
    exact (hat i _ c (List.getElem?_eq_getElem (hlength ▸ hi)) (by
      rw [List.getElem?_eq_getElem hi, hc])).complete
  refine ⟨hread, fun c hmem => ?_, ?_⟩
  · have hc := hcomplete c hmem
    exact ⟨hc.named, readsBack_of_listOfDocument? (List.forall_mem_singleton.mpr hc)
      hc.lossless_document hc.listOfDocument?_document⟩
  · exact readsBack_of_listOfDocument? hcomplete (lossless_suite hcomplete)
      (listOfDocument?_suite hcomplete)

/-- A suite of which one case has no name, one has an empty one, and one is an array. -/
def oddCasesText : String :=
  "\x7b\"testCases\": [\x7b\"expectedOutput\": [7, true, \"\\\"\\u0000\\n\"]\x7d, "
    ++ "\x7b\"name\": \"\", \"expectedOutput\": [], \"maxSteps\": 18446744073709551615\x7d, "
    ++ "[\"größe 😀\", [\"-0\"], []]]\x7d"

def oddCases : List Case :=
  [⟨"case-1", [], ["7", "true", "\"\x00\n"], none⟩,
    ⟨"case-2", [], [], some 18446744073709551615⟩,
    ⟨"größe 😀", ["-0"], [], none⟩]

theorem readsBack_of_listOfText_oddCases :
    listOfText oddCasesText = .ok oddCases ∧
      (∀ c ∈ oddCases, c.name ≠ "" ∧ ReadsBack c.document [c]) ∧
      ReadsBack (suite oddCases) oddCases := by
  have hread : listOfText oddCasesText = .ok oddCases := by decide +kernel
  exact ⟨hread, (readsBack_of_listOfText hread).2⟩

end Case

end Flowchart
