/-
  Command modules — the paths of namespaces.

  * `SyntaxTree.nodes_isWorded`: the names of namespaces in a text consist of words;
  * `SymbolTable.HasWords`: so do the paths of the namespaces of a table, although a word
    in them may be reserved;
  * `Compilation.hasWords`, `Compilation.isClosed`: this holds of every compilation of
    texts, and with each namespace those around it are there.
-/
import CommandModules.Proofs.Compilation.Table
import CommandModules.Proofs.Safe.Unit

namespace CommandModules

open Relation

/-! ## Names of namespaces -/

namespace Node

/-- The names of namespaces, types and delegates in the node are words, and its using
    directives have names. -/
def IsWorded : Node → Prop
  | unit u => (∀ v ∈ u.usings, v.name.segments ≠ []) ∧ ∀ d ∈ u.members, d.IsWorded
  | namespace_ n => (Declaration.namespace_ n).IsWorded
  | type t => (Member.type t).IsWorded
  | delegate d => (Member.delegate d).IsWorded
  | _ => True

theorem isWorded_ofDeclaration {d : Declaration} (h : d.IsWorded) : (ofDeclaration d).IsWorded := by
  cases h with
  | namespace_ hn hu hm => exact .namespace_ hn hu hm
  | type h => exact h
  | delegate h => exact h

theorem isWorded_ofMember {m : Member} (h : m.IsWorded) : (ofMember m).IsWorded := by
  cases m with
  | type t => exact h
  | delegate d => exact h
  | _ => exact ⟨⟩

theorem IsWorded.children {n : Node} (h : n.IsWorded) : ∀ m ∈ n.children, m.IsWorded := by
  intro m hm
  cases n with
  | unit u =>
    simp only [Node.children, List.mem_append, List.mem_map] at hm
    obtain (⟨_, -, rfl⟩ | ⟨_, -, rfl⟩) | ⟨d, hd, rfl⟩ := hm
    exacts [⟨⟩, ⟨⟩, isWorded_ofDeclaration (h.2 d hd)]
  | namespace_ n =>
    simp only [Node.children, List.mem_append, List.mem_map] at hm
    obtain ⟨_, -, rfl⟩ | ⟨d, hd, rfl⟩ := hm
    · exact ⟨⟩
    · cases h with
      | namespace_ _ _ hmembers => exact isWorded_ofDeclaration (hmembers d hd)
  | type t =>
    simp only [Node.children, List.mem_append, List.mem_map] at hm
    cases h with
    | type _ hmembers =>
      obtain ((((⟨_, -, rfl⟩ | ⟨_, -, rfl⟩) | ⟨_, -, rfl⟩) | ⟨_, -, rfl⟩) | ⟨_, -, rfl⟩) |
        ⟨x, hx, rfl⟩ := hm
      exacts [⟨⟩, ⟨⟩, ⟨⟩, ⟨⟩, ⟨⟩, isWorded_ofMember (hmembers x hx)]
    | other h => exact absurd rfl (h t)
  | _ =>
    cases m with
    | unit | namespace_ | type | delegate => simp [Node.children] at hm
    | _ => exact ⟨⟩

end Node

/-- The tree was read from a text. -/
def SyntaxTree.IsParsed (t : SyntaxTree) : Prop :=
  ∃ id path text, t = .parse id path text

theorem SyntaxTree.IsParsed.nodes_isWorded {t : SyntaxTree} (h : t.IsParsed) :
    ∀ n ∈ t.nodes, n.IsWorded := by
  obtain ⟨id, path, text, rfl⟩ := h
  exact nodes_forall (fun _ h => h.children) (parse_isWorded id path text)

/-- The identifiers in the name of a namespace are words. -/
theorem SyntaxTree.IsParsed.areWorded {t : SyntaxTree} (h : t.IsParsed) {d : NamespaceDeclaration}
    (hd : Node.namespace_ d ∈ t.nodes) : AreWorded d.name.segments := by
  cases h.nodes_isWorded _ hd with
  | namespace_ h => exact h

theorem AreWorded.path {n : Name} (h : AreWorded n.segments) :
    ∀ q ∈ n.path, hasWordChars q = true := by
  intro q hq
  obtain ⟨s, hs, rfl⟩ := List.mem_map.1 hq
  exact (h s hs).hasWordChars_value

/-! ## Names of types -/

mutual

theorem TypeDeclaration.fullNames_worded {path : List String} {outer? : Option FullName} :
    (t : TypeDeclaration) → (Member.type t).IsWorded →
      ∀ n ∈ t.fullNames path outer?, IsWord n.part.name (wordKind n.part.name)
  | ⟨_, _, _, _, _, _, _, _, members, _⟩, h => by
    cases h with
    | type hname hmembers =>
      refine List.forall_mem_cons.2 ⟨?_, Member.allFullNames_worded members hmembers⟩
      rw [FullName.part_inside]
      exact hname.value
    | other h => exact absurd rfl (h _)

theorem Member.fullNames_worded {path : List String} {outer : FullName} :
    (m : Member) → m.IsWorded →
      ∀ n ∈ m.fullNames path outer, IsWord n.part.name (wordKind n.part.name)
  | .type t, h => TypeDeclaration.fullNames_worded t h
  | .delegate d, h => by
    cases h with
    | delegate hname => exact List.forall_mem_singleton.2 hname.value
    | other _ h => exact absurd rfl (h d)
  | .method _, _ | .constructor _, _ | .field _, _ | .property _, _ | .event _, _
  | .enumMember _, _ | .special _, _ => List.forall_mem_nil _

theorem Member.allFullNames_worded {path : List String} {outer : FullName} :
    (ms : List Member) → (∀ m ∈ ms, m.IsWorded) →
      ∀ n ∈ Member.allFullNames path outer ms, IsWord n.part.name (wordKind n.part.name)
  | [], _ => List.forall_mem_nil _
  | m :: ms, h => List.forall_mem_append.2 ⟨m.fullNames_worded (h m List.mem_cons_self),
      Member.allFullNames_worded ms fun m hm => h m (List.mem_cons_of_mem _ hm)⟩

end

mutual

theorem NamespaceDeclaration.fullNames_worded {path : List String} :
    (d : NamespaceDeclaration) → (Declaration.namespace_ d).IsWorded →
      ∀ n ∈ d.fullNames path, IsWord n.part.name (wordKind n.part.name)
  | ⟨_, _, _, members, _⟩, h => by
    cases h with
    | namespace_ _ _ hmembers => exact Declaration.allFullNames_worded members hmembers

theorem Declaration.fullNames_worded {path : List String} :
    (d : Declaration) → d.IsWorded →
      ∀ n ∈ d.fullNames path, IsWord n.part.name (wordKind n.part.name)
  | .namespace_ n, h => NamespaceDeclaration.fullNames_worded n h
  | .type t, h => by
    cases h with
    | type h => exact TypeDeclaration.fullNames_worded t h
  | .delegate d, h => by
    cases h with
    | delegate h =>
      cases h with
      | delegate hname => exact List.forall_mem_singleton.2 hname.value
      | other _ h => exact absurd rfl (h d)

theorem Declaration.allFullNames_worded {path : List String} :
    (ds : List Declaration) → (∀ d ∈ ds, d.IsWorded) →
      ∀ n ∈ Declaration.allFullNames path ds, IsWord n.part.name (wordKind n.part.name)
  | [], _ => List.forall_mem_nil _
  | d :: ds, h => List.forall_mem_append.2 ⟨d.fullNames_worded (h d List.mem_cons_self),
      Declaration.allFullNames_worded ds fun d hd => h d (List.mem_cons_of_mem _ hd)⟩

end

/-- **What a text declares is named by words.** -/
theorem SyntaxTree.IsParsed.fullNames_worded {t : SyntaxTree} (h : t.IsParsed) :
    ∀ n ∈ t.fullNames, IsWord n.part.name (wordKind n.part.name) := by
  obtain ⟨id, path, text, rfl⟩ := h
  exact Declaration.allFullNames_worded _ (parse_isWorded id path text).2

/-! ## Paths in a table -/

namespace SymbolTable

/-- The paths of the namespaces consist of words, which may be reserved. -/
def HasWords (t : SymbolTable) : Prop :=
  ∀ p ∈ t.namespaces.paths, ∀ q ∈ p, hasWordChars q = true

variable {all : List SyntaxTree} {t t' : SymbolTable} {id : TypeId} {d : NewType}

theorem hasWords_empty : empty.HasWords := by
  simp [HasWords, empty, Namespaces.empty, Namespaces.paths]

theorem isClosed_empty : empty.namespaces.IsClosed := by
  simp [Namespaces.IsClosed, empty, Namespaces.empty, Namespaces.paths]

/-- Each step keeps the paths made of words. -/
theorem Step.hasWords (h : Step all t t') (hall : ∀ tree ∈ all, tree.IsParsed) (ht : t.HasWords) :
    t'.HasWords := by
  cases h with
  | declare hd => rwa [HasWords, paths_of_declare hd]
  | enterNamespace hn htree hd =>
    refine Namespaces.createPath_forall ht hn fun p hp name hname => ?_
    refine List.forall_mem_append.2 ⟨hp, List.forall_mem_singleton.2 ?_⟩
    exact ((hall _ htree).areWorded hd).path name hname
  | addGlobalUsing => rwa [HasWords, Namespaces.paths_addGlobalUsing]
  | contribute => exact ht

/-- Each step keeps it that the namespaces around a namespace are there. -/
theorem Step.isClosed (h : Step all t t') (ht : t.namespaces.IsClosed) : t'.namespaces.IsClosed := by
  cases h with
  | declare hd => exact ht.of_paths (paths_of_declare hd)
  | enterNamespace hn => exact ht.createPath hn
  | addGlobalUsing => exact ht.of_paths (Namespaces.paths_addGlobalUsing _ _)
  | contribute => exact ht

/-- Each step keeps the paths different. -/
theorem Step.nodup_paths (h : Step all t t') (ht : t.namespaces.paths.Nodup) :
    t'.namespaces.paths.Nodup := by
  cases h with
  | declare hd => rwa [paths_of_declare hd]
  | enterNamespace hn => exact Namespaces.nodup_createPath ht hn
  | addGlobalUsing => rwa [Namespaces.paths_addGlobalUsing]
  | contribute => exact ht

end SymbolTable

namespace Compilation

variable (c : Compilation)

/-- **Paths of namespaces consist of words.** -/
theorem hasWords (h : ∀ tree ∈ c.trees, tree.IsParsed) : c.table.HasWords :=
  c.table_induction SymbolTable.hasWords_empty fun _ _ hs => hs.hasWords h

/-- **With each namespace those around it are there.** -/
theorem isClosed : c.table.namespaces.IsClosed :=
  c.table_induction SymbolTable.isClosed_empty fun _ _ hs => hs.isClosed

/-- **No two namespaces have the same path.** -/
theorem nodup_paths : c.table.namespaces.paths.Nodup :=
  c.table_induction (List.pairwise_singleton _ _) fun _ _ hs => hs.nodup_paths

end Compilation

end CommandModules
