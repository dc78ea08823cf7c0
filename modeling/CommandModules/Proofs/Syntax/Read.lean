/-
  Command modules — trees of texts without errors.

  * `SyntaxTree.IsRead`: the tree was read from a text without errors;
  * `IsRead.isWritten`: its types are written, and so are their methods;
  * `IsRead.declared_ordered`: each declaration is known by its offset.
-/
import CommandModules.Proofs.Located.Declared
import CommandModules.Proofs.Taken.Unit

namespace CommandModules

namespace SyntaxTree

/-- The tree was read from a text without errors. -/
def IsRead (t : SyntaxTree) : Prop :=
  (∃ id path text, t = .parse id path text) ∧ t.errors = []

variable {t : SyntaxTree}

/-- The types of a text without errors are written, and so are their methods. -/
theorem IsRead.isWritten (h : t.IsRead) {d : TypeDeclaration} (hd : d ∈ t.root.types) :
    d.IsWritten ∧ ∀ m ∈ d.methods, m.IsWritten := by
  obtain ⟨⟨id, path, text, rfl⟩, he⟩ := h
  rw [← typeDeclarations_eq, typeDeclarations] at hd
  obtain ⟨n, hn, hnd⟩ := List.mem_filterMap.1 hd
  cases n with
  | type t =>
    cases hnd
    exact nodes_isWritten he hn
  | _ => cases hnd

/-- What a text without errors declares begins at offsets that grow. -/
theorem IsRead.declared_ordered (h : t.IsRead) :
    (t.root.declared.map Declaration.offset).Pairwise (· < ·) := by
  obtain ⟨⟨id, path, text, rfl⟩, -⟩ := h
  exact SyntaxTree.declared_ordered id path text

end SyntaxTree

end CommandModules
