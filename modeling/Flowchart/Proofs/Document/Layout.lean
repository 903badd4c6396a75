import Flowchart.Proofs.Document.Grammar

/-!
# Both forms are read back

The layouts of the writer are among those that the grammar allows. Between two parts there
is a comma and then the same blanks each time: none in the compact form, a line break and
the indentation in the other one. What follows a colon are blanks as well. So a document
whose numbers are integers is read back from either of its texts (`ofText?_compactText`,
`ofText?_indentedText`).
-/

namespace Flowchart.Document

/-- Documents whose numbers are integers that fit. -/
inductive Lossless : Document → Prop where
  | null : Lossless null
  | bool (b : Bool) : Lossless (bool b)
  | integer {n : Int} : Fits n → Lossless (number (.int n))
  | str (text : String) : Lossless (str text)
  | array {items : List Document} : (∀ item ∈ items, Lossless item) → Lossless (array items)
  | object {fields : List (String × Document)} :
      (∀ field ∈ fields, Lossless field.2) → Lossless (object fields)

theorem spaces_newLine (level : Nat) : Spaces (newLine level) := by
  intro c hc
  rcases List.mem_cons.mp hc with rfl | hc
  · decide
  · rw [List.eq_of_mem_replicate hc]
    decide

theorem spaces_nil : Spaces [] := fun _ hc => absurd hc (by simp)

theorem spaces_blank : Spaces [' '] := by simp [Spaces, isSpace]

section Parts

variable {before after : List Char} (hbefore : Spaces before) (hafter : Spaces after)
include hbefore hafter

/-- The items of an array with the same blanks before each, up to the closing bracket. -/
theorem writesItems_separated {write : Document → List Char} {item : Document}
    {items : List Document} (h : ∀ other ∈ item :: items, Writes other (write other)) :
    WritesItems (item :: items)
      (before ++ (separated (',' :: before) ((item :: items).map write)
        ++ (after ++ [']']))) := by
  have hitem := h item List.mem_cons_self
  induction items generalizing item with
  | nil =>
      have hlast := WritesItems.last hitem hbefore hafter
      simpa [separated, List.intercalate] using hlast
  | cons next items ih =>
      have hrest := ih (fun other hmem => h other (List.mem_cons_of_mem _ hmem))
        (h next (by simp))
      have hcons := WritesItems.cons hitem hbefore spaces_nil hrest
      simpa [separated, List.intercalate_cons_cons] using hcons

/-- The fields of an object with the same blanks before each and after each colon, up to the
closing brace. -/
theorem writesFields_separated {gap : List Char} (hgap : Spaces gap)
    {write : Document → List Char} {field : String × Document} {fields : List (String × Document)}
    (h : ∀ other ∈ field :: fields, Writes other.2 (write other.2)) :
    WritesFields (field :: fields)
      (before ++ (separated (',' :: before)
        ((field :: fields).map fun other => quote other.1 ++ ':' :: (gap ++ write other.2))
        ++ (after ++ [closeBrace]))) := by
  have hfield := h field List.mem_cons_self
  induction fields generalizing field with
  | nil =>
      have hlast : WritesFields [field] _ :=
        .last hfield hbefore spaces_nil hgap hafter
      simpa [separated, List.intercalate] using hlast
  | cons next fields ih =>
      have hrest := ih (fun other hmem => h other (List.mem_cons_of_mem _ hmem))
        (h next (by simp))
      have hcons : WritesFields (field :: next :: fields) _ :=
        .cons hfield hbefore spaces_nil hgap spaces_nil hrest
      simpa [separated, List.intercalate_cons_cons] using hcons

end Parts

/-! ## The parts of the two forms -/

theorem compactItems_eq_map (items : List Document) : compactItems items = items.map compact := by
  induction items with
  | nil => rfl
  | cons item items ih => rw [compactItems, ih, List.map_cons]

theorem compactFields_eq_map (fields : List (String × Document)) :
    compactFields fields
      = fields.map fun field => quote field.1 ++ ':' :: ([] ++ compact field.2) := by
  induction fields with
  | nil => rfl
  | cons field fields ih => rw [compactFields, ih, List.map_cons, List.nil_append]

theorem indentedItems_eq_map (level : Nat) (items : List Document) :
    indentedItems level items = items.map (indented level) := by
  induction items with
  | nil => rfl
  | cons item items ih => rw [indentedItems, ih, List.map_cons]

theorem indentedFields_eq_map (level : Nat) (fields : List (String × Document)) :
    indentedFields level fields
      = fields.map fun field => quote field.1 ++ ':' :: ([' '] ++ indented level field.2) := by
  induction fields with
  | nil => rfl
  | cons field fields ih => rw [indentedFields, ih, List.map_cons, List.singleton_append]

/-- The compact form writes the document. -/
theorem Lossless.writes_compact {document : Document} (h : Lossless document) :
    Writes document (compact document) := by
  induction h with
  | null => exact .null
  | bool b => cases b <;> exact .bool _
  | integer hn => exact .integer hn
  | str text => exact .str text
  | @array items _ ih =>
      rw [compact, compactItems_eq_map]
      cases items with
      | nil => exact .noItems spaces_nil
      | cons item items => exact .items (writesItems_separated spaces_nil spaces_nil ih)
  | @object fields _ ih =>
      rw [compact, compactFields_eq_map]
      cases fields with
      | nil => exact .noFields spaces_nil
      | cons field fields =>
          exact .fields (writesFields_separated spaces_nil spaces_nil spaces_nil ih)

/-- The indented form writes the document, at every level. -/
theorem Lossless.writes_indented {document : Document} (h : Lossless document) (level : Nat) :
    Writes document (indented level document) := by
  induction h generalizing level with
  | null => exact .null
  | bool b => cases b <;> exact .bool _
  | integer hn => exact .integer hn
  | str text => exact .str text
  | @array items _ ih =>
      rw [indented, indentedItems_eq_map]
      cases items with
      | nil => exact .noItems spaces_nil
      | cons item items =>
          have hitems := writesItems_separated (spaces_newLine (level + 1)) (spaces_newLine level)
            fun other hmem => ih other hmem (level + 1)
          simpa [block] using Writes.items hitems
  | @object fields _ ih =>
      rw [indented, indentedFields_eq_map]
      cases fields with
      | nil => exact .noFields spaces_nil
      | cons field fields =>
          have hfields := writesFields_separated (spaces_newLine (level + 1))
            (spaces_newLine level) spaces_blank fun other hmem => ih other hmem (level + 1)
          simpa [block, openBrace, closeBrace] using Writes.fields hfields

/-- What the document writes is read back as the document. -/
theorem ofText?_of_writes {document : Document} {text : List Char} (h : Writes document text) :
    ofText? (String.ofList text) = some document := by
  have hread := ofChars?_of_writes h spaces_nil spaces_nil
  rw [List.append_nil, List.nil_append] at hread
  rw [ofText?, String.toList_ofList, hread]

/-- **A document is read back from its compact text**, if its numbers are integers. -/
theorem ofText?_compactText {document : Document} (h : Lossless document) :
    ofText? document.compactText = some document :=
  ofText?_of_writes h.writes_compact

/-- **A document is read back from its indented text**, if its numbers are integers. -/
theorem ofText?_indentedText {document : Document} (h : Lossless document) :
    ofText? document.indentedText = some document :=
  ofText?_of_writes (h.writes_indented 0)

end Flowchart.Document
