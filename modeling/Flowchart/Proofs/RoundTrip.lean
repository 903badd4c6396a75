import Flowchart.Diagram.Encoding
import Flowchart.Proofs.Assembly
import Flowchart.Proofs.Document.Layout

/-!
# Diagrams read back

The document of a diagram says all there is to it. Each part is decoded from its own
document (`ofDocument?_document`), the blocks come back by ascending identifier and go to
the same places, and the text is read as the document that it writes. What is left to go
wrong are the links: a diagram with dangling links can be written, and reading it fails with
what validation says of it (`Diagram.ofText_text`).
-/

namespace Flowchart

namespace Document

theorem list?_map {α : Type} {decode : Document → Option α} {encode : α → Document}
    (h : ∀ a, decode (encode a) = some a) (items : List α) :
    list? decode (array (items.map encode)) = some items :=
  mapM_eq_some_iff.mpr (by simp [h])

theorem lossless_nat {n : Nat} (h : n < wordLimit) : Lossless (nat n) :=
  .integer ⟨by omega, by exact_mod_cast h⟩

end Document

namespace Variable

theorem ofDocument?_document (v : Variable) : ofDocument? v.document = some v := by
  simp [ofDocument?, document, Document.fields?, Document.required?, Document.str?, type?,
    DataType.ofName?_name]

theorem lossless_document (v : Variable) : v.document.Lossless := by
  refine .object fun field hmem => ?_
  simp only [List.mem_cons, List.not_mem_nil, or_false] at hmem
  rcases hmem with rfl | rfl <;> exact .str _

end Variable

namespace Block

theorem id?_idDocument (id : BlockId) : id? (idDocument id) = some id := by
  have hlt : id.toNat < UInt32.size := id.toNat_lt
  simp [id?, idDocument, Document.natBelow?, Document.nat, hlt]

theorem lossless_idDocument (id : BlockId) : (idDocument id).Lossless :=
  Document.lossless_nat (Nat.lt_trans id.toNat_lt (by decide))

theorem optional?_idDocument (id : BlockId) :
    Document.optional? id? (idDocument id) = some (some id) := by
  show (id? (idDocument id)).map some = _
  rw [id?_idDocument, Option.map_some]

/-- No field of a block is called like its kind. -/
theorem ne_type_of_mem_fields {block : Block} {field : String × Document}
    (h : field ∈ block.fields) : field.1 ≠ "type" := by
  have hnames : ∀ name ∈ block.fields.map Prod.fst, name ≠ "type" := by
    cases block with
    | stop id next => cases next <;> simp [fields]
    | _ => simp [fields]
  exact hnames _ (List.mem_map_of_mem h)

/-- A block is made again of its kind and its fields. -/
theorem ofRecord?_fields (block : Block) :
    ofRecord? block.kind (.object block.fields) = some block := by
  cases block with
  | stop id next =>
      cases next <;>
        simp [fields, kind, ofRecord?, Document.fields?, Document.required?, Document.defaulted?,
          id?_idDocument, optional?_idDocument]
  | _ =>
      simp [fields, kind, ofRecord?, Document.fields?, Document.required?, id?_idDocument,
        Document.str?]

theorem isPlain_document (block : Block) : block.document.isPlain depthLimit = true := by
  cases block with
  | stop id next => cases next <;> rfl
  | _ => rfl

theorem ofDocument?_document (block : Block) : ofDocument? block.document = some block := by
  have hkind : ((("type", .str block.kind) :: block.fields).filter (·.1 = "type")
      : List (String × Document)) = [("type", .str block.kind)] := by
    rw [List.filter_cons_of_pos (by simp), List.filter_eq_nil_iff.mpr]
    intro field hmem
    simpa using ne_type_of_mem_fields hmem
  have hfields : ((("type", .str block.kind) :: block.fields).filter (·.1 ≠ "type")
      : List (String × Document)) = block.fields := by
    rw [List.filter_cons_of_neg (by simp), List.filter_eq_self.mpr]
    intro field hmem
    simpa using ne_type_of_mem_fields hmem
  unfold ofDocument?
  rw [if_pos block.isPlain_document, document]
  dsimp only
  rw [hkind, hfields]
  exact block.ofRecord?_fields

theorem lossless_document (block : Block) : block.document.Lossless := by
  have hfields : ∀ field ∈ block.fields, field.2.Lossless := by
    cases block with
    | stop id next => cases next <;> simp [fields, lossless_idDocument]
    | _ => simp [fields, lossless_idDocument, Document.Lossless.str]
  exact .object (List.forall_mem_cons.mpr ⟨.str _, hfields⟩)

end Block

namespace Diagram

theorem parts?_document (d : Diagram) :
    parts? d.document = some (d.declared, d.blockList, d.threads) := by
  have hdeclared := Document.list?_map Variable.ofDocument?_document d.declared
  have hblocks := Document.list?_map Block.ofDocument?_document d.blockList
  have hthreads := Document.list?_map Block.id?_idDocument d.threads
  simp [parts?, document, Document.fields?, Document.defaulted?, hdeclared, hblocks, hthreads]

theorem lossless_document (d : Diagram) : d.document.Lossless := by
  have hlist {α : Type} {encode : α → Document} (h : ∀ a, (encode a).Lossless) (items : List α) :
      (Document.array (items.map encode)).Lossless := by
    refine .array fun item hmem => ?_
    obtain ⟨a, -, rfl⟩ := List.mem_map.mp hmem
    exact h a
  refine .object fun field hmem => ?_
  simp only [List.mem_cons, List.not_mem_nil, or_false] at hmem
  rcases hmem with rfl | rfl | rfl
  · exact hlist Variable.lossless_document _
  · exact hlist Block.lossless_document _
  · exact hlist Block.lossless_idDocument _

/-- Validation fails with the links that dangle. -/
theorem error_of_validate {d : Diagram} {e : Error} (h : d.validate = .error e) :
    ∃ links, e = .invalidDiagram (.unresolvedLinks links) := by
  unfold validate at h
  split at h
  · exact absurd h (by simp)
  · exact ⟨_, (Except.error.inj h).symm⟩

/-- **A diagram is read back from its text**, and refused only for the links that validation
refuses. Its text tells nothing but its parts: neither another diagram with the same ones
nor another order of its blocks makes a difference. -/
theorem ofText_text (d : Diagram) :
    ofText d.text = d.validate.map (fun _ => d) ∧
      (∀ e, d.validate = .error e → ∃ links, e = .invalidDiagram (.unresolvedLinks links)) ∧
      (∀ d' : Diagram, d'.declared = d.declared → d'.threads = d.threads →
        (∀ id, d'.block? id = d.block? id) → d'.text = d.text) ∧
      ∀ declared blocks blocks' threads, ofParts declared blocks threads = .ok d →
        blocks.Perm blocks' →
          ofParts declared blocks' threads = .ok d := by
  refine ⟨?_, fun e => error_of_validate, ?_, ?_⟩
  · rw [ofText, text, Document.ofText?_indentedText d.lossless_document, Option.bind_some,
      parts?_document]
    simp only [ofParts_self]
    cases d.validate <;> rfl
  · intro d' hdeclared hthreads hblock
    rw [ext_block? hdeclared hthreads hblock]
  · exact fun _ _ _ _ h hperm => ofParts_of_perm hperm h

/-- Names and texts that need escapes, and a last block that may lead nowhere. -/
def oddNames (next : Option BlockId) : Diagram where
  declared := [⟨"\"\\", .str⟩, ⟨"\x00\n", .int⟩, ⟨"größe 😀", .double⟩]
  blocks := ⟨[(0, .stop 0 next), (7, .print 7 0 "\"a\tb\""), (4294967295, .loop 4294967295 "/" 7 0)],
    by simp⟩
  threads := [4294967295, 7, 7]
  names_nodup := by decide
  id_of_mem := by simp [Block.id]

theorem ofText_text_oddNames :
    ofText (oddNames (some 7)).text = .ok (oddNames (some 7)) ∧
      (oddNames (some 8)).validate = .error (.invalidDiagram (.unresolvedLinks ["0 -> 8"])) ∧
      ofText (oddNames (some 8)).text
        = .error (.invalidDiagram (.unresolvedLinks ["0 -> 8"])) ∧
      ofParts (oddNames (some 7)).declared (oddNames (some 7)).blockList.reverse
        (oddNames (some 7)).threads = .ok (oddNames (some 7)) := by
  have hlinked : (oddNames (some 7)).validate = .ok () := by rfl
  have hdangles : (oddNames (some 8)).validate
      = .error (.invalidDiagram (.unresolvedLinks ["0 -> 8"])) := by rfl
  obtain ⟨hread, -, -, hrelisted⟩ := ofText_text (oddNames (some 7))
  have hrefused := (ofText_text (oddNames (some 8))).1
  rw [hlinked] at hread
  rw [hdangles] at hrefused
  exact ⟨hread, hdangles, hrefused,
    hrelisted _ _ _ _ (ofParts_self _) (List.reverse_perm _).symm⟩

end Diagram

end Flowchart
