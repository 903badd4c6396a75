import Flowchart.Diagram.Basic
import Flowchart.Proofs.Environment

/-!
# Diagrams from their parts

A diagram keeps its blocks by ascending identifier, so it has forgotten in which order they
were listed. What `Diagram.ofParts` makes of a list of blocks can be told by its members
alone (`get?_of_addBlocks`, `exists_addBlocks`). Hence the same blocks in another order make
the same diagram (`ofParts_of_perm`), and every diagram is made of the parts that it lists
(`ofParts_self`).
-/

namespace Flowchart.Diagram

/-- Diagrams with the same declarations, entries and blocks are equal. -/
theorem ext_block? {d d' : Diagram} (hdeclared : d.declared = d'.declared)
    (hthreads : d.threads = d'.threads) (hblock : ∀ id, d.block? id = d'.block? id) : d = d' := by
  have hblocks : d.blocks = d'.blocks := Table.ext_get? hblock
  cases d
  cases d'
  simp_all

theorem block?_eq_some_iff {d : Diagram} {id : BlockId} {block : Block} :
    d.block? id = some block ↔ block ∈ d.blockList ∧ block.id = id := by
  unfold blockList block?
  rw [List.mem_map, ← Table.mem_entries]
  constructor
  · intro hmem
    exact ⟨⟨_, hmem, rfl⟩, d.id_of_mem _ hmem⟩
  · rintro ⟨⟨entry, hmem, rfl⟩, rfl⟩
    rw [d.id_of_mem entry hmem]
    exact hmem

/-! ## Blocks under their identifiers -/

/-- What a list of blocks adds to an index that it can be added to. -/
theorem get?_of_addBlocks {index index' : Index} {blocks : List Block}
    (h : addBlocks index blocks = .ok index') :
    (blocks.map Block.id).Nodup ∧ (∀ block ∈ blocks, index.1.contains block.id = false) ∧
      ∀ id block, index'.1.get? id = some block ↔
        block ∈ blocks ∧ block.id = id ∨ index.1.get? id = some block := by
  induction blocks generalizing index with
  | nil =>
      obtain rfl := Except.ok.inj h
      simp
  | cons first blocks ih =>
      rw [addBlocks] at h
      split at h
      · exact absurd h (by simp)
      next hfresh =>
      obtain ⟨hnodup, hapart, hlookup⟩ := ih h
      have hinsert : ∀ id, (index.1.insert first.id first).get? id
          = if id = first.id then some first else index.1.get? id :=
        fun id => Table.get?_insert _ _ _ _
      have hapart' : ∀ block ∈ blocks, block.id ≠ first.id ∧ index.1.contains block.id = false := by
        intro block hmem
        have hnot := hapart block hmem
        rw [Table.contains, hinsert] at hnot
        by_cases heq : block.id = first.id
        · rw [if_pos heq] at hnot
          exact absurd hnot (by simp)
        · rw [if_neg heq] at hnot
          exact ⟨heq, hnot⟩
      refine ⟨?_, ?_, ?_⟩
      · refine List.nodup_cons.mpr ⟨fun hmem => ?_, hnodup⟩
        obtain ⟨block, hblock, heq⟩ := List.mem_map.mp hmem
        exact (hapart' block hblock).1 heq
      · intro block hmem
        rcases List.mem_cons.mp hmem with rfl | hmem
        · exact Bool.eq_false_iff.mpr hfresh
        · exact (hapart' block hmem).2
      · intro id block
        rw [hlookup, hinsert, List.mem_cons]
        have hnone : index.1.get? first.id = none := by
          simpa [Table.contains] using hfresh
        by_cases heq : id = first.id
        · subst heq
          rw [if_pos rfl, hnone]
          grind
        · rw [if_neg heq]
          grind

/-- A list of blocks with identifiers of their own can be added. -/
theorem exists_addBlocks (index : Index) {blocks : List Block}
    (hnodup : (blocks.map Block.id).Nodup)
    (hfresh : ∀ block ∈ blocks, index.1.contains block.id = false) :
    ∃ index', addBlocks index blocks = .ok index' := by
  induction blocks generalizing index with
  | nil => exact ⟨index, rfl⟩
  | cons first blocks ih =>
      obtain ⟨hhead, hrest⟩ := List.nodup_cons.mp hnodup
      rw [addBlocks, if_neg (by simp [hfresh first List.mem_cons_self])]
      refine ih _ hrest fun block hmem => ?_
      rw [Table.contains, Table.get?_insert, if_neg]
      · exact hfresh block (List.mem_cons_of_mem _ hmem)
      · intro heq
        exact hhead (heq ▸ List.mem_map_of_mem hmem)

/-! ## All parts -/

theorem repeatedName?_of_nodup {seen names : List String} (hnodup : names.Nodup)
    (hfresh : ∀ name ∈ names, name ∉ seen) : repeatedName? seen names = none := by
  induction names generalizing seen with
  | nil => rfl
  | cons name names ih =>
      obtain ⟨hhead, hrest⟩ := List.nodup_cons.mp hnodup
      rw [repeatedName?, if_neg (hfresh name List.mem_cons_self)]
      refine ih hrest fun other hmem hseen => ?_
      rcases List.mem_cons.mp hseen with rfl | hseen
      · exact hhead hmem
      · exact hfresh other (List.mem_cons_of_mem _ hmem) hseen

/-- The parts that make a diagram: its declarations, its entries, and its blocks in any
order. -/
theorem ofParts_eq_ok_iff {declared : List Variable} {blocks : List Block}
    {threads : List BlockId} {d : Diagram} :
    ofParts declared blocks threads = .ok d ↔
      d.declared = declared ∧ d.threads = threads ∧ (blocks.map Block.id).Nodup ∧
        ∀ id block, d.block? id = some block ↔ block ∈ blocks ∧ block.id = id := by
  constructor
  · intro h
    unfold ofParts at h
    split at h
    · exact absurd h (by simp)
    split at h
    · exact absurd h (by simp)
    next index hindex =>
    obtain rfl := Except.ok.inj h
    obtain ⟨hnodup, -, hlookup⟩ := get?_of_addBlocks hindex
    refine ⟨rfl, rfl, hnodup, fun id block => ?_⟩
    show index.1.get? id = some block ↔ _
    rw [hlookup, Table.get?_empty]
    simp
  · rintro ⟨rfl, rfl, hnodup, hlookup⟩
    obtain ⟨index, hindex⟩ :=
      exists_addBlocks ⟨Table.empty, by simp [Table.empty]⟩ hnodup fun _ _ => rfl
    have hrepeated : repeatedName? [] (d.declared.map (·.name)) = none :=
      repeatedName?_of_nodup d.names_nodup (by simp)
    unfold ofParts
    split
    · next name hname => rw [hrepeated] at hname; exact absurd hname (by simp)
    rw [hindex]
    refine congrArg Except.ok (ext_block? rfl rfl fun id => ?_)
    refine Option.ext fun block => ?_
    rw [hlookup]
    refine ((get?_of_addBlocks hindex).2.2 id block).trans ?_
    rw [Table.get?_empty]
    simp

/-- The order in which blocks are listed leaves no trace. -/
theorem ofParts_of_perm {declared : List Variable} {blocks blocks' : List Block}
    {threads : List BlockId} {d : Diagram} (hperm : blocks.Perm blocks')
    (h : ofParts declared blocks threads = .ok d) : ofParts declared blocks' threads = .ok d := by
  obtain ⟨hdeclared, hthreads, hnodup, hlookup⟩ := ofParts_eq_ok_iff.mp h
  refine ofParts_eq_ok_iff.mpr ⟨hdeclared, hthreads, (hperm.map _).nodup_iff.mp hnodup, ?_⟩
  intro id block
  rw [hlookup, hperm.mem_iff]

/-- A diagram is made of the parts that it lists. -/
theorem ofParts_self (d : Diagram) : ofParts d.declared d.blockList d.threads = .ok d := by
  refine ofParts_eq_ok_iff.mpr ⟨rfl, rfl, ?_, fun id block => d.block?_eq_some_iff⟩
  -- the identifiers ascend with the keys of the table
  have hkeys : d.blockList.map Block.id = d.blocks.keys := by
    rw [blockList, Table.keys, List.map_map]
    exact List.map_congr_left d.id_of_mem
  rw [hkeys, Table.keys]
  refine (List.pairwise_map.mpr d.blocks.ascending).imp ?_
  rintro a b hlt rfl
  exact Table.Ordered.irrefl _ hlt

end Flowchart.Diagram
