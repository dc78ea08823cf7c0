/-
  Command modules — compilations of trees that are declared alike.

  * `SymbolTable.Restates`: the tables differ in the places of declarations alone;
  * `PendingBases.Restates.bind`, `SymbolTable.Restates.contribute`: lists of bases that are the
    same but for their places are bound to the same types, with the same complaints;
  * `Compilation.Restates`: the sources are declared alike, and the references are the same;
    `Compilation.Restates.symbols_eq`: so are the symbols, and what is wrong with them.
-/
import CommandModules.Proofs.Compilation.Bases
import CommandModules.Proofs.Compilation.Wrapped

namespace CommandModules

/-! ## Lists of trees -/

/-- **Trees that are declared alike** lead to the same outcome one after the other. -/
theorem declareTrees_restates {ts us : List (SyntaxTree × Origin)}
    (h : List.Forall₂ (fun t u => t.2 = u.2 ∧ t.1.Restates u.1) ts us) {table table' : SymbolTable}
    (htable : table.bare = table'.bare) (n n' : Nat) :
    (declareTrees table n ts).1.bare = (declareTrees table' n' us).1.bare ∧
      List.Forall₂ (fun f f' => f.1 = f'.1 ∧ f.2.Restates f'.2) (declareTrees table n ts).2
        (declareTrees table' n' us).2 := by
  induction h generalizing table table' n n' with
  | nil => exact ⟨htable, .nil⟩
  | @cons t u ts us htu _ ih =>
    obtain ⟨t, origin⟩ := t
    obtain ⟨u, origin'⟩ := u
    obtain ⟨rfl, hr⟩ : origin = origin' ∧ _ := htu
    obtain ⟨hfirst, hfound⟩ := hr table table' n n' origin htable
    obtain ⟨htables, hfounds⟩ := ih hfirst (n + 1) (n' + 1)
    exact ⟨htables, .cons ⟨rfl, hfound⟩ hfounds⟩

/-! ## Tables -/

/-- The symbol without the places of its declarations. -/
def TypeSymbol.unplaced (s : TypeSymbol) : TypeSymbol :=
  { s with declarations := [] }

/-- The tables differ in the places of declarations alone. -/
structure SymbolTable.Restates (t u : SymbolTable) : Prop where
  bare_eq : t.bare = u.bare
  symbol : ∀ id, (t.get? id).map TypeSymbol.unplaced = (u.get? id).map TypeSymbol.unplaced

/-- Before bases are bound, nothing but places can differ. -/
theorem SymbolTable.IsUnbound.restates {t u : SymbolTable} (ht : t.IsUnbound) (hu : u.IsUnbound)
    (h : t.bare = u.bare) : t.Restates u := by
  have hbare {t : SymbolTable} (ht : t.IsUnbound) (id : TypeId) :
      (t.get? id).map TypeSymbol.unplaced = (t.get? id).map TypeSymbol.bare := by
    cases hs : t.get? id with
    | none => rfl
    | some s =>
      obtain ⟨hbase, hinterfaces⟩ := ht id s hs
      rw [Option.map_some, Option.map_some, TypeSymbol.unplaced, TypeSymbol.bare, ← hbase,
        ← hinterfaces]
  refine ⟨h, fun id => ?_⟩
  rw [hbare ht, hbare hu, ← get?_bare, ← get?_bare, h]

theorem SymbolTable.Restates.symbols {t u : SymbolTable} (h : t.Restates u) :
    t.symbols.map TypeSymbol.unplaced = u.symbols.map TypeSymbol.unplaced := by
  obtain ⟨-, -, horder⟩ := SymbolTable.mk.inj h.bare_eq
  rw [SymbolTable.symbols, SymbolTable.symbols, List.map_filterMap, List.map_filterMap, horder,
    funext h.symbol]

/-! ## Lists of bases -/

/-- The lists belong to the same type and refer to the same types, and what is wrong with them
    is the same but for its places. -/
structure BoundBases.Restates (b b' : BoundBases) : Prop where
  type : b.type = b'.type
  kind : b.kind = b'.kind
  refs : b.refs = b'.refs
  diagnostics : b.diagnostics.map Diagnostic.unplaced = b'.diagnostics.map Diagnostic.unplaced

section
variable {t t' : SymbolTable} {b b' : BoundBases}

theorem bindBase_restates (h : t.bare = t'.bare) (scope : Scope) (path : String)
    {type type' : TypeSyntax} (htype : type.wording = type'.wording) :
    (t.bindBase scope path type).1 = (t'.bindBase scope path type').1 ∧
      (t.bindBase scope path type).2.map Diagnostic.unplaced =
        (t'.bindBase scope path type').2.map Diagnostic.unplaced := by
  obtain ⟨hform, htext⟩ := Prod.mk.inj htype
  have hname : erase type.name? = erase type'.name? := by rw [← name?_erase, hform, name?_erase]
  unfold SymbolTable.bindBase
  generalize type.name? = name?, type'.name? = name?' at hname
  cases name? <;> cases name?' <;> simp only [erase_none, erase_some, reduceCtorEq,
    Option.some.injEq] at hname
  · dsimp only
    rw [htext]
    exact ⟨rfl, rfl⟩
  rename_i name name'
  have hsimple : name.simpleName = name'.simpleName := by
    rw [← simpleName_erase, hname, simpleName_erase]
  have harity : name.lastArity = name'.lastArity := by
    rw [← lastArity_erase, hname, lastArity_erase]
  have hqualified (meanings : List (Nat × TypeId)) :
      meanings.map (fun m => t.qualifiedName m.2) = meanings.map fun m => t'.qualifiedName m.2 :=
    List.map_congr_left fun m _ => by
      rw [← SymbolTable.qualifiedName_bare, h, SymbolTable.qualifiedName_bare]
  dsimp only
  rw [← SymbolTable.resolveName_bare, h, SymbolTable.resolveName_bare, parts_eq_of_erase hname,
    isGlobal_eq_of_erase hname, hsimple, harity, htext]
  split
  · exact ⟨rfl, rfl⟩
  · refine ⟨rfl, ?_⟩
    rw [ambiguousBase, ambiguousBase, htext, hqualified]
    rfl
  · exact ⟨rfl, rfl⟩

/-- **Lists that are the same but for their places** are bound alike. -/
theorem PendingBases.Restates.bind {p p' : PendingBases} {g g' : GlobalUsings}
    (hp : p.Restates p') (hg : g.table.bare = g'.table.bare) (haliases : g.aliases = g'.aliases) :
    (p.bind g).Restates (p'.bind g') := by
  have hscope : p.scope g = p'.scope g' :=
    PendingBases.scope_eq_of_bare hg haliases hp.namespace_ hp.containing hp.usings
  have hbases : List.Forall₂ (fun x y : TypeSyntax => x.wording = y.wording) p.declaration.bases
      p'.declaration.bases := by
    have h := hp.bases
    rwa [← List.forall₂_eq_eq_eq, List.forall₂_map_left_iff, List.forall₂_map_right_iff] at h
  have hbound := hbases.imp fun _ _ h => bindBase_restates hg (p'.scope g') p'.path h
  refine ⟨hp.type, hp.kind, ?_, ?_⟩
  · simp only [PendingBases.bind, hscope, hp.path, List.map_map]
    rw [← List.forall₂_eq_eq_eq, List.forall₂_map_left_iff, List.forall₂_map_right_iff]
    exact hbound.imp fun _ _ h => h.1
  · simp only [PendingBases.bind, hscope, hp.path, List.map_flatMap, List.flatMap_map]
    exact flatMap_eq_of_forall₂ hbound fun _ _ h => h.2

namespace BoundBases.Restates

theorem base?_eq (hb : b.Restates b') (h : t.bare = t'.bare) : b.base? t = b'.base? t' := by
  have hclass : t.isBaseClass = t'.isBaseClass :=
    funext fun r => by rw [← SymbolTable.isBaseClass_bare, h, SymbolTable.isBaseClass_bare]
  rw [BoundBases.base?, BoundBases.base?, hb.kind, hb.refs, hclass]

theorem interfaces_eq (hb : b.Restates b') (h : t.bare = t'.bare) :
    b.interfaces t = b'.interfaces t' := by
  rw [BoundBases.interfaces, BoundBases.interfaces, hb.base?_eq h, hb.refs]

end BoundBases.Restates

theorem map_eq_map_of_map_eq {α β γ : Type} {f : α → β} {g g' : α → γ} {a? b? : Option α}
    (h : a?.map f = b?.map f) (hg : ∀ a b, f a = f b → g a = g' b) : a?.map g = b?.map g' := by
  cases a? <;> cases b? <;> simp only [Option.map_some, Option.map_none, reduceCtorEq,
    Option.some.injEq] at h ⊢
  exact hg _ _ h

/-- The bases of one list are added alike. -/
theorem SymbolTable.Restates.contribute (h : t.Restates t') (hb : b.Restates b') :
    (t.contribute b).Restates (t'.contribute b') := by
  refine ⟨?_, fun id => ?_⟩
  · rw [SymbolTable.contribute, SymbolTable.contribute, hb.type]
    exact modify_bare h.bare_eq fun _ _ hs => hs
  · have hid := h.symbol id
    rw [SymbolTable.contribute, SymbolTable.contribute, get?_modify, get?_modify, hb.type,
      hb.base?_eq h.bare_eq, hb.interfaces_eq h.bare_eq, Option.map_map, Option.map_map]
    refine map_eq_map_of_map_eq hid fun s s' hs => ?_
    dsimp only [Function.comp]
    split
    · exact congrArg (fun s : TypeSymbol => { s with
        base? := (b'.base? t').or s.base?
        interfaces := appendMissing s.interfaces (b'.interfaces t') }) hs
    · exact hs

theorem SymbolTable.Restates.contributions (h : t.Restates t') {bs bs' : List BoundBases}
    (hbs : List.Forall₂ BoundBases.Restates bs bs') :
    (bs.foldl SymbolTable.contribute t).Restates (bs'.foldl SymbolTable.contribute t') := by
  induction hbs generalizing t t' with
  | nil => exact h
  | cons hb _ ih => exact ih (h.contribute hb)

end

/-! ## Compilations -/

namespace Compilation

/-- The sources are declared alike, and the references are the same. -/
structure Restates (c c' : Compilation) : Prop where
  sources : List.Forall₂ SyntaxTree.Restates c.sources c'.sources
  references : c.references = c'.references

namespace Restates

variable {c c' : Compilation} (h : c.Restates c')
include h

theorem declaring : c.declaring.1.bare = c'.declaring.1.bare ∧
    List.Forall₂ (fun f f' => f.1 = f'.1 ∧ f.2.Restates f'.2) c.declaring.2 c'.declaring.2 := by
  refine declareTrees_restates ?_ rfl 0 0
  rw [numberedTrees, numberedTrees, h.references]
  refine List.rel_append ?_ (List.forall₂_same.2 fun e _ => ⟨rfl, SyntaxTree.Restates.refl e.1⟩)
  rw [List.forall₂_map_left_iff, List.forall₂_map_right_iff]
  exact h.sources.imp fun _ _ ht => ⟨rfl, ht⟩

theorem globalUsings : erase c.globalUsings = erase c'.globalUsings := by
  show (effectiveUsings _).map erase = (effectiveUsings _).map erase
  rw [effectiveUsings, effectiveUsings, List.map_flatMap, List.map_flatMap]
  refine flatMap_eq_of_forall₂ h.declaring.2 fun f f' ⟨ho, hf⟩ => ?_
  rw [← ho]
  cases f.1 with
  | source => exact hf.globalUsings
  | metadata => rfl

/-- The same namespaces are imported everywhere, and the same aliases are known. -/
theorem globals : c.globals.table.Restates c'.globals.table ∧
    c.globals.aliases = c'.globals.aliases := by
  have hunbound (c : Compilation) (id : TypeId) : c.declaring.1.base? id = none := by
    cases hs : c.declaring.1.get? id with
    | none => rw [SymbolTable.base?, hs, Option.bind_none]
    | some s => rw [SymbolTable.base?, hs, Option.bind_some, (c.declaring_isUnbound id s hs).1]
  have hrespells : c.declaring.1.Respells c'.declaring.1 := by
    refine ⟨h.declaring.1, fun id => ?_⟩
    rw [hunbound, hunbound]
    exact .none
  obtain ⟨htable, haliases⟩ := GlobalUsings.of_respells hrespells h.globalUsings
  refine ⟨⟨htable.bare_eq, fun id => ?_⟩, haliases⟩
  rw [c.globals_get?, c'.globals_get?]
  exact (c.declaring_isUnbound.restates c'.declaring_isUnbound h.declaring.1).symbol id

/-- All lists of bases are bound alike. -/
theorem bases : List.Forall₂ BoundBases.Restates c.binding.bases c'.binding.bases := by
  obtain ⟨htable, haliases⟩ := h.globals
  have hpending : List.Forall₂ PendingBases.Restates c.pending c'.pending :=
    List.rel_flatMap h.declaring.2 fun _ _ hf => hf.2.pending
  exact List.rel_map (fun _ _ hp => hp.bind htable.bare_eq haliases) hpending

theorem table : c.table.Restates c'.table := by
  rw [c.table_eq, c'.table_eq]
  exact h.globals.1.contributions h.bases

/-- What is wrong with declarations and bases is the same, places aside. -/
theorem diagnostics : c.symbols.diagnostics.map Diagnostic.unplaced =
    c'.symbols.diagnostics.map Diagnostic.unplaced := by
  rw [symbols_diagnostics_eq, symbols_diagnostics_eq, List.map_append, List.map_append,
    Binding.diagnostics, Binding.diagnostics]
  simp only [List.map_flatMap]
  rw [flatMap_eq_of_forall₂ h.declaring.2 fun _ _ hf => hf.2.diagnostics,
    flatMap_eq_of_forall₂ h.bases fun _ _ hb => hb.diagnostics]

/-- **The symbols are the same in the same order**, places aside, and so is what is wrong with
    them. -/
theorem symbols_eq : c.table.namespaces = c'.table.namespaces ∧
    c.table.symbols.map TypeSymbol.unplaced = c'.table.symbols.map TypeSymbol.unplaced ∧
      c.symbols.diagnostics.map Diagnostic.unplaced =
        c'.symbols.diagnostics.map Diagnostic.unplaced :=
  ⟨SymbolTable.namespaces_eq_of_bare h.table.bare_eq, h.table.symbols, h.diagnostics⟩

end Restates

end Compilation

end CommandModules
