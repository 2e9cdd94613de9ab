import CTree.Proofs.BlessingConvergence
import CTree.Proofs.LosslessParse

/-!
# A check and a comparison of documents

A check compares the tree of the input, which was never written, with the tree that
the expected document is read as. `Source.equalDocuments` compares two documents.
Where the tree of the input can be written, both come to the same. Where it cannot,
no document is that of the input, and the check is an error whatever it finds.
-/
namespace CTree.Source
open CTree.Tree (maxDepth)

variable {source text document : String} {tree old : Tree} {layout : Json.Layout}

theorem toDocument_eq_ok_iff :
    toDocument layout source = .ok document ↔
      ∃ tree, toTree source = .ok tree ∧ encode layout tree = .ok document := by
  rw [toDocument]
  cases toTree source <;> simp [bind, Except.bind]

theorem equalDocuments_of_decode (hold : decode text = .ok old)
    (hdocument : decode document = .ok tree) :
    equalDocuments text document = .ok (decide (old = tree)) := by
  rw [equalDocuments, hold, hdocument]
  rfl

theorem equalDocuments_of_error {e : Error} (h : decode text = .error e) :
    equalDocuments text document = .error e := by
  rw [equalDocuments, h]
  rfl

end CTree.Source

namespace CTree.Fixture
open CTree.Store
open CTree.Tree (maxDepth)

variable {fixture : Fixture} {store : Store} {source text : String} {tree old : Tree} {e : Error}

/-! ## What a check reads -/

theorem readTree_of_content {path : Path}
    (h : store.content path = .ok (.file source.toUTF8)) :
    store.readTree path = Source.toTree source := by
  rw [readTree, readSource_of_content h]
  rfl

theorem readExpected_of_content (h : store.content fixture.expected = .ok (.file text.toUTF8)) :
    fixture.readExpected store = (Source.decode text).mapError (.notTree fixture.expected) := by
  have hhas : fixture.hasExpected store = true := isFile_iff.2 ⟨_, h⟩
  rw [readExpected, if_pos hhas, readSource_of_content h]
  rfl

/-! ## What a check comes to -/

theorem check_of_readTree_error (h : store.readTree fixture.input = .error e) :
    fixture.check store = .errored e := by
  rw [check, compare, h]
  rfl

theorem check_of_readExpected_error (htree : store.readTree fixture.input = .ok tree)
    (h : fixture.readExpected store = .error e) : fixture.check store = .errored e := by
  rw [check, compare, htree, h]
  rfl

/-- Two trees that can be written pass if they are the same, and are both reported if not. -/
theorem check_of_trees (htree : store.readTree fixture.input = .ok tree)
    (hold : fixture.readExpected store = .ok old) (hdepth : tree.depth ≤ maxDepth)
    (holddepth : old.depth ≤ maxDepth) :
    fixture.check store =
      if old = tree then .passed
      else .failed (old.toJson.render .pretty) (tree.toJson.render .pretty) := by
  have hencode : Source.encode .pretty tree = .ok (tree.toJson.render .pretty) :=
    Source.encode_eq_ok_iff.2 ⟨hdepth, rfl⟩
  have hencode' : Source.encode .pretty old = .ok (old.toJson.render .pretty) :=
    Source.encode_eq_ok_iff.2 ⟨holddepth, rfl⟩
  rw [check, compare, htree, hold]
  by_cases h : old = tree
  · simp only [bind, Except.bind, if_pos h]
    rfl
  · simp only [bind, Except.bind, if_neg h, hencode, hencode']
    rfl

/-- A document that is read is never that of a tree which cannot be written. -/
theorem check_of_deep (htree : store.readTree fixture.input = .ok tree)
    (hold : fixture.readExpected store = .ok old) (hdeep : maxDepth < tree.depth)
    (holddepth : old.depth ≤ maxDepth) :
    fixture.check store = .errored (.tooDeep tree.depth) := by
  have hencode : Source.encode .pretty tree = .error (.tooDeep tree.depth) :=
    Source.encode_eq_error_iff.2 ⟨hdeep, rfl⟩
  have hencode' : Source.encode .pretty old = .ok (old.toJson.render .pretty) :=
    Source.encode_eq_ok_iff.2 ⟨holddepth, rfl⟩
  have hne : old ≠ tree := by
    rintro rfl
    omega
  rw [check, compare, htree, hold]
  simp only [bind, Except.bind, if_neg hne, hencode, hencode']

theorem exists_decode_of_readExpected (h : fixture.readExpected store = .ok old) :
    ∃ text, Source.decode text = .ok old := by
  rw [readExpected] at h
  split at h
  · cases hsource : store.readSource fixture.expected with
    | error e => rw [hsource] at h; cases h
    | ok text =>
      rw [hsource] at h
      cases hdecode : Source.decode text with
      | error e => simp [hdecode, bind, Except.bind, Except.mapError] at h
      | ok tree =>
        obtain rfl : tree = old := by simpa [hdecode, bind, Except.bind, Except.mapError] using h
        exact ⟨text, hdecode⟩
  · cases h

/-- An expected tree comes from a document, so it can be written. -/
theorem depth_of_readExpected (h : fixture.readExpected store = .ok old) :
    old.depth ≤ maxDepth := by
  obtain ⟨text, hdecode⟩ := exists_decode_of_readExpected h
  exact (Source.decode_eq_ok_iff.1 hdecode).2.2

/-- An input without a document is an error, whatever is expected. -/
theorem check_of_no_document (hinput : store.content fixture.input = .ok (.file source.toUTF8))
    (h : ∀ tree, Source.toTree source = .ok tree → maxDepth < tree.depth) :
    ∃ e, fixture.check store = .errored e := by
  have hread := readTree_of_content hinput
  cases htree : Source.toTree source with
  | error e => exact ⟨e, check_of_readTree_error (hread.trans htree)⟩
  | ok tree =>
    cases hexpected : fixture.readExpected store with
    | error e => exact ⟨e, check_of_readExpected_error (hread.trans htree) hexpected⟩
    | ok old =>
      exact ⟨_, check_of_deep (hread.trans htree) hexpected (h tree htree)
        (depth_of_readExpected hexpected)⟩

/-- Where the input has a document, the check says what a comparison of the expected document
with it says, and its documents are those of two trees that differ. -/
theorem check_of_document_pair {layout : Json.Layout}
    (hinput : store.content fixture.input = .ok (.file source.toUTF8))
    (hexpected : store.content fixture.expected = .ok (.file text.toUTF8))
    (htree : Source.toTree source = .ok tree) (hdepth : tree.depth ≤ maxDepth) :
    ∃ document, Source.toDocument layout source = .ok document ∧
      (fixture.check store = .passed ↔ Source.equalDocuments text document = .ok true) ∧
      ((∃ expected actual, fixture.check store = .failed expected actual) ↔
        Source.equalDocuments text document = .ok false) ∧
      ((∃ e, fixture.check store = .errored e ∧ e.diagnostic.kind = .decode) ↔
        ∃ e, Source.equalDocuments text document = .error e) ∧
      ∀ expected actual, fixture.check store = .failed expected actual →
        ∃ old, Source.decode text = .ok old ∧ Source.decode expected = .ok old ∧
          Source.decode actual = .ok tree ∧ old ≠ tree := by
  have hencode : ∀ layout, Source.encode layout tree = .ok (tree.toJson.render layout) :=
    fun layout => Source.encode_eq_ok_iff.2 ⟨hdepth, rfl⟩
  have hdocument := Source.decode_encode htree (hencode layout)
  have hread : store.readTree fixture.input = .ok tree := by
    rw [readTree_of_content hinput, htree]
  have hreadExpected := readExpected_of_content hexpected
  refine ⟨_, Source.toDocument_eq_ok_iff.2 ⟨tree, htree, hencode layout⟩, ?_⟩
  cases hdecode : Source.decode text with
  | error e =>
    rw [hdecode] at hreadExpected
    rw [check_of_readExpected_error hread hreadExpected, Source.equalDocuments_of_error hdecode]
    refine ⟨by simp, by simp, ?_, by simp⟩
    exact ⟨fun _ => ⟨e, rfl⟩, fun _ => ⟨_, rfl, rfl⟩⟩
  | ok old =>
    rw [hdecode] at hreadExpected
    obtain ⟨-, hwell, holddepth⟩ := Source.decode_eq_ok_iff.1 hdecode
    rw [check_of_trees hread hreadExpected hdepth holddepth,
      Source.equalDocuments_of_decode hdecode hdocument]
    by_cases heq : old = tree
    · simp [heq]
    · simp only [if_neg heq]
      refine ⟨by simp [heq], by simp [heq], by simp, fun expected actual h => ?_⟩
      cases h
      exact ⟨old, rfl, Source.decode_render hwell holddepth .pretty,
        Source.decode_encode htree (hencode .pretty), heq⟩

/-- A check of a fixture whose files hold these texts says what a comparison of the expected
document with that of the input says, in either layout. If the input has no document,
because it is not in the grammar or its tree is too deep, the check is an error. -/
theorem check_agrees (hinput : store.content fixture.input = .ok (.file source.toUTF8))
    (hexpected : store.content fixture.expected = .ok (.file text.toUTF8)) :
    (∀ tree, Source.toTree source = .ok tree → tree.depth ≤ maxDepth → ∀ layout,
      ∃ document, Source.toDocument layout source = .ok document ∧
        (fixture.check store = .passed ↔ Source.equalDocuments text document = .ok true) ∧
        ((∃ expected actual, fixture.check store = .failed expected actual) ↔
          Source.equalDocuments text document = .ok false) ∧
        ((∃ e, fixture.check store = .errored e ∧ e.diagnostic.kind = .decode) ↔
          ∃ e, Source.equalDocuments text document = .error e) ∧
        ∀ expected actual, fixture.check store = .failed expected actual →
          ∃ old, Source.decode text = .ok old ∧ Source.decode expected = .ok old ∧
            Source.decode actual = .ok tree ∧ old ≠ tree) ∧
    ((∀ tree, Source.toTree source = .ok tree → maxDepth < tree.depth) →
      ∃ e, fixture.check store = .errored e) :=
  ⟨fun _ htree hdepth _ => check_of_document_pair hinput hexpected htree hdepth,
    check_of_no_document hinput⟩

/-- A store with one input, and the document of another one. -/
def outdated : Store :=
  (do
    let store ← Store.empty.putFile ["a.in"] ";".toUTF8
    store.putFile ["a.out"] "\"x\"".toUTF8).toOption.getD .empty

theorem check_agrees_outdated :
    outdated.content (ofInput ⟨"/a.in"⟩).input = .ok (.file ";".toUTF8) ∧
    outdated.content (ofInput ⟨"/a.in"⟩).expected = .ok (.file "\"x\"".toUTF8) ∧
    ∃ tree, Source.toTree ";" = .ok tree ∧ tree.depth ≤ maxDepth ∧
      ∃ expected actual, (ofInput ⟨"/a.in"⟩).check outdated = .failed expected actual ∧
        Source.decode expected = .ok (.leaf "x") ∧ Source.decode actual = .ok tree := by
  have hinput : outdated.content (ofInput ⟨"/a.in"⟩).input = .ok (.file ";".toUTF8) := rfl
  have hexpected : outdated.content (ofInput ⟨"/a.in"⟩).expected =
      .ok (.file "\"x\"".toUTF8) := rfl
  have hdecode : Source.decode "\"x\"" = .ok (.leaf "x") :=
    Source.eq_ok_of_toOption (by decide +kernel)
  have hshape : (Source.toTree ";").toOption.map Tree.depth = some 3 := by decide +kernel
  obtain ⟨tree, htree, hdepth⟩ := Parse.exists_ok_of_map hshape
  have hlimit : tree.depth ≤ maxDepth := by rw [hdepth]; decide
  have hne : Tree.leaf "x" ≠ tree := by
    rintro rfl
    cases hdepth
  obtain ⟨document, hdocument, -, hfailed, -, hreported⟩ :=
    (check_agrees hinput hexpected).1 tree htree hlimit .compact
  obtain ⟨tree', htree', hencode⟩ := Source.toDocument_eq_ok_iff.1 hdocument
  cases htree.symm.trans htree'
  have hdiffer : Source.equalDocuments "\"x\"" document = .ok false := by
    rw [Source.equalDocuments_of_decode hdecode (Source.decode_encode htree hencode),
      decide_eq_false hne]
  obtain ⟨expected, actual, hcheck⟩ := hfailed.2 hdiffer
  obtain ⟨old, hold, hold', hactual, -⟩ := hreported _ _ hcheck
  cases hdecode.symm.trans hold
  exact ⟨hinput, hexpected, tree, htree, hlimit, expected, actual, hcheck, hold', hactual⟩

end CTree.Fixture
