import Flowchart.Document.Decode
import Flowchart.Proofs.Document.Tokens

/-!
# The grammar of documents

`Writes` is the grammar of documents as far as documents are written: which texts write
which document, with any blanks around the tokens inside. What is written is read, whatever
the layout (`ofChars?_of_writes`). Doubles are left out: their texts are read by two
roundings, and so not always as themselves.

The readers of values, items and fields call each other with one call less to go. A text of
some length never needs more than twice as many calls, and that is the invariant (`Reads`):
an array or an object spends a bracket on the call for its parts, and each part a comma or
the closing bracket on the next.
-/

namespace Flowchart.Document

/-- Blanks only. -/
def Spaces (text : List Char) : Prop :=
  ∀ c ∈ text, isSpace c = true

mutual

/-- The texts that write a document. Blanks may stand around every token inside. -/
inductive Writes : Document → List Char → Prop where
  | null : Writes null "null".toList
  | bool (b : Bool) : Writes (bool b) (if b then "true".toList else "false".toList)
  | integer {n : Int} : Fits n → Writes (number (.int n)) (integer n)
  | str (text : String) : Writes (str text) (quote text)
  | noItems {blanks : List Char} : Spaces blanks → Writes (array []) ('[' :: blanks ++ [']'])
  | items {items : List Document} {text : List Char} :
      WritesItems items text → Writes (array items) ('[' :: text)
  | noFields {blanks : List Char} :
      Spaces blanks → Writes (object []) (openBrace :: blanks ++ [closeBrace])
  | fields {fields : List (String × Document)} {text : List Char} :
      WritesFields fields text → Writes (object fields) (openBrace :: text)

/-- The texts that write the items of an array up to its closing bracket. -/
inductive WritesItems : List Document → List Char → Prop where
  | last {item : Document} {text before after : List Char} :
      Writes item text → Spaces before → Spaces after →
      WritesItems [item] (before ++ (text ++ (after ++ [']'])))
  | cons {item : Document} {items : List Document} {text before after more : List Char} :
      Writes item text → Spaces before → Spaces after → WritesItems items more →
      WritesItems (item :: items) (before ++ (text ++ (after ++ ',' :: more)))

/-- The texts that write the fields of an object up to its closing brace. -/
inductive WritesFields : List (String × Document) → List Char → Prop where
  | last {name : String} {value : Document} {text before gap middle after : List Char} :
      Writes value text → Spaces before → Spaces gap → Spaces middle → Spaces after →
      WritesFields [(name, value)]
        (before ++ (quote name ++ (gap ++ ':' :: (middle ++ (text ++ (after ++ [closeBrace]))))))
  | cons {name : String} {value : Document} {fields : List (String × Document)}
      {text before gap middle after more : List Char} :
      Writes value text → Spaces before → Spaces gap → Spaces middle → Spaces after →
      WritesFields fields more →
      WritesFields ((name, value) :: fields)
        (before ++ (quote name ++ (gap ++ ':' :: (middle ++ (text ++ (after ++ ',' :: more))))))

end

theorem skipSpace_append {blanks rest : List Char} (h : Spaces blanks)
    (hrest : ∀ c ∈ rest.head?, isSpace c = false) : skipSpace (blanks ++ rest) = rest :=
  (Text.takeWhile_run h hrest).2

theorem skipSpace_append_cons {blanks : List Char} (h : Spaces blanks) {c : Char}
    (hc : isSpace c = false) (rest : List Char) : skipSpace (blanks ++ c :: rest) = c :: rest :=
  skipSpace_append h (by simpa using hc)

theorem skipSpace_cons {c : Char} (h : isSpace c = false) (rest : List Char) :
    skipSpace (c :: rest) = c :: rest := by
  simp [skipSpace, h]

theorem skipSpace_skipSpace (text : List Char) : skipSpace (skipSpace text) = skipSpace text := by
  have hhead := List.head?_dropWhile_not isSpace text
  unfold skipSpace
  cases hd : text.dropWhile isSpace with
  | nil => rfl
  | cons c rest =>
      rw [hd] at hhead
      exact skipSpace_cons (by simpa using hhead) rest

/-! ## One call of the reader -/

section Calls

variable {fuel : Nat} {rest : List Char}

/-- A value that begins with neither a letter, a quote nor a bracket is an object or a number. -/
theorem cutValue?_other {c : Char} (hc : c ∉ ['n', 't', 'f', '"', '[']) :
    cutValue? (fuel + 1) (c :: rest) =
      if c = openBrace then
        match skipSpace rest with
        | d :: more =>
          if d = closeBrace then some (object [], more)
          else (cutFields? fuel (d :: more)).map ofFields
        | [] => none
      else (cutNumeral? (c :: rest)).map fun cut => (cut.1.document, cut.2) := by
  simp only [List.mem_cons, List.not_mem_nil, or_false, not_or] at hc
  obtain ⟨hn, ht, hf, hquote, hbracket⟩ := hc
  rewrite [cutValue?]
  · rfl
  · exact fun _ heq => absurd heq hn
  · exact fun _ heq => absurd heq ht
  · exact fun _ heq => absurd heq hf
  · exact hquote
  · exact hbracket

/-- A value that begins with a sign or a digit is a number. -/
theorem cutValue?_number {c : Char} (hc : startsNumber c = true) :
    cutValue? (fuel + 1) (c :: rest)
      = (cutNumeral? (c :: rest)).map fun cut => (cut.1.document, cut.2) := by
  have hbrace : c ∉ [openBrace] := not_mem_of_startsNumber hc (by decide)
  rw [cutValue?_other (not_mem_of_startsNumber hc (by decide)), if_neg (by simpa using hbrace)]

/-- A value that begins with a quote is a string. -/
theorem cutValue?_quote (text : String) :
    cutValue? (fuel + 1) (quote text ++ rest) = some (str text, rest) := by
  have happend : quote text ++ rest = '"' :: (text.toList.flatMap escape ++ '"' :: rest) := by
    simp [quote]
  rw [happend, cutValue?, cutUnits?_flatMap_escape, Option.map_some, stringOfUnits?_map]

theorem cutItems?_skipSpace (text : List Char) :
    cutItems? fuel (skipSpace text) = cutItems? fuel text := by
  cases fuel with
  | zero => rfl
  | succ fuel => rw [cutItems?, cutItems?, skipSpace_skipSpace]

theorem cutFields?_skipSpace (text : List Char) :
    cutFields? fuel (skipSpace text) = cutFields? fuel text := by
  cases fuel with
  | zero => rfl
  | succ fuel => rw [cutFields?, cutFields?, skipSpace_skipSpace]

/-- An array with items is what follows its bracket. -/
theorem cutValue?_bracket (h : ∀ c ∈ (skipSpace rest).head?, c ≠ ']') :
    cutValue? (fuel + 1) ('[' :: rest) = (cutItems? fuel rest).map ofItems := by
  rw [cutValue?]
  split
  · next more heq => exact absurd rfl (h ']' (by rw [heq]; rfl))
  · rw [cutItems?_skipSpace]

/-- An array without items. -/
theorem cutValue?_noItems {blanks : List Char} (h : Spaces blanks) :
    cutValue? (fuel + 1) ('[' :: (blanks ++ ']' :: rest)) = some (array [], rest) := by
  rw [cutValue?, skipSpace_append_cons h (by decide)]
  rfl

/-- An object with fields is what follows its brace. -/
theorem cutValue?_brace {c : Char} {more : List Char} (h : skipSpace rest = c :: more)
    (hc : c ≠ closeBrace) :
    cutValue? (fuel + 1) (openBrace :: rest) = (cutFields? fuel rest).map ofFields := by
  rw [← cutFields?_skipSpace rest, cutValue?_other (by decide), if_pos rfl, h]
  dsimp only
  rw [if_neg hc]

/-- An object without fields. -/
theorem cutValue?_noFields {blanks : List Char} (h : Spaces blanks) :
    cutValue? (fuel + 1) (openBrace :: (blanks ++ closeBrace :: rest)) = some (object [], rest) := by
  rw [cutValue?_other (by decide), if_pos rfl, skipSpace_append_cons h (by decide)]
  dsimp only
  rw [if_pos rfl]

end Calls

/-! ## All calls -/

/-- With so much fuel the reader reads what is written, whatever comes after it. -/
structure Reads (fuel : Nat) : Prop where
  value : ∀ {document text}, Writes document text → 2 * text.length ≤ fuel →
    ∀ rest, Ends rest → cutValue? fuel (text ++ rest) = some (document, rest)
  items : ∀ {items text}, WritesItems items text → 2 * text.length ≤ fuel →
    ∀ rest, cutItems? fuel (text ++ rest) = some (items, rest)
  fields : ∀ {fields text}, WritesFields fields text → 2 * text.length ≤ fuel →
    ∀ rest, cutFields? fuel (text ++ rest)
      = some (fields.map fun field => (some field.1, field.2), rest)

/-- A written document begins with a token. -/
theorem Writes.head {document : Document} {text : List Char} (h : Writes document text) :
    ∃ c more, text = c :: more ∧ isSpace c = false ∧ c ≠ ']' := by
  cases h with
  | bool b => cases b <;> exact ⟨_, _, rfl, by decide⟩
  | @integer n _ =>
      obtain ⟨c, run, heq, hc⟩ := integer_head n
      have hspace : c ∉ [' ', '\t', '\n', '\r'] := not_mem_of_startsNumber hc (by decide)
      have hbracket : c ∉ [']'] := not_mem_of_startsNumber hc (by decide)
      exact ⟨c, run, heq, by simpa [isSpace, and_assoc] using hspace, by simpa using hbracket⟩
  | _ => exact ⟨_, _, rfl, by decide⟩

theorem Writes.skipSpace_append {document : Document} {text blanks : List Char}
    (h : Writes document text) (hblanks : Spaces blanks) (rest : List Char) :
    skipSpace (blanks ++ (text ++ rest)) = text ++ rest := by
  obtain ⟨c, more, rfl, hspace, -⟩ := h.head
  refine Document.skipSpace_append hblanks ?_
  simpa using hspace

/-- The items of an array do not begin with its closing bracket. -/
theorem WritesItems.head {items : List Document} {text : List Char} (h : WritesItems items text)
    (rest : List Char) : ∀ c ∈ (skipSpace (text ++ rest)).head?, c ≠ ']' := by
  have hitem {item : Document} {text before : List Char} (hw : Writes item text)
      (hbefore : Spaces before) (more : List Char) :
      ∀ c ∈ (skipSpace (before ++ (text ++ more) ++ rest)).head?, c ≠ ']' := by
    rw [List.append_assoc, List.append_assoc, hw.skipSpace_append hbefore]
    obtain ⟨c, run, rfl, -, hc⟩ := hw.head
    simpa using hc
  cases h with
  | last hw hbefore _ => exact hitem hw hbefore _
  | cons hw hbefore _ _ => exact hitem hw hbefore _

/-- The fields of an object begin with the quote of a name. -/
theorem WritesFields.head {fields : List (String × Document)} {text : List Char}
    (h : WritesFields fields text) (rest : List Char) :
    ∃ more, skipSpace (text ++ rest) = '"' :: more := by
  have hfield {name : String} {before : List Char} (hbefore : Spaces before) (more : List Char) :
      ∃ beyond, skipSpace (before ++ (quote name ++ more) ++ rest) = '"' :: beyond := by
    rw [List.append_assoc, Document.skipSpace_append hbefore (by simp [quote, isSpace])]
    exact ⟨_, rfl⟩
  cases h with
  | last _ hbefore _ _ => exact hfield hbefore _
  | cons _ hbefore _ _ _ => exact hfield hbefore _

/-- The closing character of a value's surroundings, after blanks. -/
theorem ends_append {blanks rest : List Char} (hblanks : Spaces blanks) {c : Char}
    (hc : c = ',' ∨ c = ']' ∨ c = closeBrace) : Ends (blanks ++ c :: rest) := by
  cases blanks with
  | nil =>
      intro d hd
      obtain rfl := Option.some.inj hd
      exact .inr hc
  | cons d more =>
      intro e he
      obtain rfl := Option.some.inj he
      exact .inl (hblanks _ List.mem_cons_self)

theorem reads_zero : Reads 0 := by
  constructor
  case value =>
    intro document text hw hlen rest _
    obtain ⟨c, more, rfl, -, -⟩ := hw.head
    exact absurd hlen (by simp)
  case items =>
    intro items text hw hlen rest
    cases hw <;> simp only [List.length_append, List.length_cons] at hlen <;> omega
  case fields =>
    intro fields text hw hlen rest
    cases hw <;> simp only [List.length_append, List.length_cons] at hlen <;> omega

/-- Fields with names make an object. -/
theorem ofFields_map (fields : List (String × Document)) (rest : List Char) :
    ofFields (fields.map fun field => (some field.1, field.2), rest) = (object fields, rest) := by
  have hnamed : (fields.map fun field => (some field.1, field.2)).mapM
      (fun field : Option String × Document => field.1.map fun name => (name, field.2))
        = some fields := mapM_eq_some_iff.mpr (by simp)
  simp only [ofFields, hnamed]

/-- One call of the reader reads a written document when the calls inside do. -/
theorem Reads.value_succ {fuel : Nat} (h : Reads fuel) {document : Document}
    {text rest : List Char} (hw : Writes document text) (hlen : 2 * text.length ≤ fuel + 1)
    (hrest : Ends rest) : cutValue? (fuel + 1) (text ++ rest) = some (document, rest) := by
  cases hw with
  | null => rfl
  | bool b => cases b <;> rfl
  | @integer n hn =>
      obtain ⟨c, run, heq, hc⟩ := integer_head n
      have hcut := cutNumeral?_integer n hrest
      rw [heq, List.cons_append] at hcut ⊢
      rw [cutValue?_number hc, hcut, Option.map_some, document_ofInt hn]
  | str text => exact cutValue?_quote text
  | @noItems blanks hblanks =>
      simp only [List.cons_append, List.append_assoc, List.nil_append]
      exact cutValue?_noItems hblanks
  | @items items text hitems =>
      rw [List.cons_append, cutValue?_bracket (hitems.head rest),
        h.items hitems (by rw [List.length_cons] at hlen; omega) rest]
      rfl
  | @noFields blanks hblanks =>
      simp only [List.cons_append, List.append_assoc, List.nil_append]
      exact cutValue?_noFields hblanks
  | @fields fields text hfields =>
      obtain ⟨more, hhead⟩ := hfields.head rest
      rw [List.cons_append, cutValue?_brace hhead (by decide),
        h.fields hfields (by rw [List.length_cons] at hlen; omega) rest, Option.map_some,
        ofFields_map]

theorem Reads.items_succ {fuel : Nat} (h : Reads fuel) {items : List Document}
    {text : List Char} (hw : WritesItems items text) (hlen : 2 * text.length ≤ fuel + 1)
    (rest : List Char) : cutItems? (fuel + 1) (text ++ rest) = some (items, rest) := by
  cases hw with
  | @last item text before after hitem hbefore hafter =>
      simp only [List.length_append, List.length_singleton] at hlen
      have hvalue := h.value hitem (by omega) (after ++ ']' :: rest)
        (ends_append hafter (by simp))
      simp only [List.append_assoc, List.singleton_append]
      rw [cutItems?, hitem.skipSpace_append hbefore, hvalue]
      simp only [skipSpace_append_cons hafter (by decide : isSpace ']' = false)]
  | @cons item items text before after more hitem hbefore hafter hitems =>
      simp only [List.length_append, List.length_cons] at hlen
      have hvalue := h.value hitem (by omega) (after ++ ',' :: (more ++ rest))
        (ends_append hafter (by simp))
      simp only [List.append_assoc, List.cons_append]
      rw [cutItems?, hitem.skipSpace_append hbefore, hvalue]
      simp only [skipSpace_append_cons hafter (by decide : isSpace ',' = false),
        h.items hitems (by omega) rest]
      rfl

/-- Up to its value a field is read in the same way wherever it stands. -/
theorem Reads.field {fuel : Nat} (h : Reads fuel) {name : String} {value : Document}
    {text before gap middle after rest : List Char} {c : Char} (hvalue : Writes value text)
    (hbefore : Spaces before) (hgap : Spaces gap) (hmiddle : Spaces middle) (hafter : Spaces after)
    (hlen : 2 * text.length ≤ fuel) (hc : c = ',' ∨ c = closeBrace) :
    cutFields? (fuel + 1)
        (before ++ (quote name ++ (gap ++ ':' :: (middle ++ (text ++ (after ++ c :: rest))))))
      = if c = ',' then (cutFields? fuel rest).map (itemAhead (some name, value))
        else some ([(some name, value)], rest) := by
  have hends : Ends (after ++ c :: rest) := ends_append hafter (hc.imp_right .inr)
  have hspace : isSpace c = false := by rcases hc with rfl | rfl <;> decide
  have hquote : quote name ++ (gap ++ ':' :: (middle ++ (text ++ (after ++ c :: rest))))
      = '"' :: (name.toList.flatMap escape
        ++ '"' :: (gap ++ ':' :: (middle ++ (text ++ (after ++ c :: rest))))) := by
    simp [quote]
  rw [hquote, cutFields?, skipSpace_append_cons hbefore (by decide)]
  simp only [cutUnits?_flatMap_escape, stringOfUnits?_map]
  rw [skipSpace_append_cons hgap (by decide)]
  simp only [hvalue.skipSpace_append hmiddle, h.value hvalue hlen _ hends]
  rw [skipSpace_append_cons hafter hspace]
  rcases hc with rfl | rfl <;> rfl

theorem Reads.fields_succ {fuel : Nat} (h : Reads fuel) {fields : List (String × Document)}
    {text : List Char} (hw : WritesFields fields text) (hlen : 2 * text.length ≤ fuel + 1)
    (rest : List Char) :
    cutFields? (fuel + 1) (text ++ rest)
      = some (fields.map fun field => (some field.1, field.2), rest) := by
  cases hw with
  | @last name value text before gap middle after hvalue hbefore hgap hmiddle hafter =>
      simp only [List.length_append, List.length_cons] at hlen
      simp only [List.append_assoc, List.cons_append, List.nil_append]
      rw [h.field hvalue hbefore hgap hmiddle hafter (by omega) (.inr rfl), if_neg (by decide)]
      rfl
  | @cons name value fields text before gap middle after more hvalue hbefore hgap hmiddle hafter
      hfields =>
      simp only [List.length_append, List.length_cons] at hlen
      simp only [List.append_assoc, List.cons_append]
      rw [h.field hvalue hbefore hgap hmiddle hafter (by omega) (.inl rfl), if_pos rfl,
        h.fields hfields (by omega) rest]
      rfl

theorem reads (fuel : Nat) : Reads fuel := by
  induction fuel with
  | zero => exact reads_zero
  | succ fuel ih =>
      exact ⟨fun hw hlen _ hrest => ih.value_succ hw hlen hrest, ih.items_succ, ih.fields_succ⟩

/-- **What is written is read.** A text that writes a document, with blanks around it, is
read as this document. -/
theorem ofChars?_of_writes {document : Document} {text before after : List Char}
    (h : Writes document text) (hbefore : Spaces before) (hafter : Spaces after) :
    ofChars? (before ++ (text ++ after)) = some document := by
  have hends : Ends after := fun c hc => .inl (hafter c (List.mem_of_mem_head? hc))
  have hnil : skipSpace (after ++ []) = [] := skipSpace_append hafter (by simp)
  rw [List.append_nil] at hnil
  rw [ofChars?, h.skipSpace_append hbefore, (reads _).value h (by simp; omega) _ hends]
  simp only [hnil]
  rfl

end Flowchart.Document
