/-
  Command modules — modifiers and the accessibility they spell.

  A declaration carries a set of modifiers.  Four of them, alone or in pairs,
  spell its accessibility; any other combination of the four spells none, and
  then `file` stands for `internal`.

  * `Modifiers` is a set of modifiers, one bit for each;
  * `contains_union` and `contains_singleton` describe the set operations by
    membership;
  * `Modifiers.accessibility?` reads the accessibility off the set.
-/
namespace CommandModules

/-- A word that may stand before a declaration and modifies it. -/
inductive Modifier where
  | public_ | private_ | protected_ | internal | file
  | abstract | sealed | static | partial_ | virtual | override
  | readonly | const | new | extern_ | unsafe_ | volatile | async | required
  | ref | out | in_ | params | this | scoped_
deriving DecidableEq, Repr

namespace Modifier

/-- The modifier as it is written. -/
def keyword : Modifier → String
  | public_ => "public"
  | private_ => "private"
  | protected_ => "protected"
  | internal => "internal"
  | file => "file"
  | abstract => "abstract"
  | sealed => "sealed"
  | static => "static"
  | partial_ => "partial"
  | virtual => "virtual"
  | override => "override"
  | readonly => "readonly"
  | const => "const"
  | new => "new"
  | extern_ => "extern"
  | unsafe_ => "unsafe"
  | volatile => "volatile"
  | async => "async"
  | required => "required"
  | ref => "ref"
  | out => "out"
  | in_ => "in"
  | params => "params"
  | this => "this"
  | scoped_ => "scoped"

/-- All modifiers, in the order of their bits. -/
def all : List Modifier :=
  [public_, private_, protected_, internal, file, abstract, sealed, static, partial_, virtual,
    override, readonly, const, new, extern_, unsafe_, volatile, async, required, ref, out, in_,
    params, this, scoped_]

/-- The number of the modifier's bit. -/
def bit (m : Modifier) : Nat :=
  all.idxOf m

/-- The modifier written as `word`. -/
def ofKeyword? (word : String) : Option Modifier :=
  all.find? fun m => m.keyword == word

end Modifier

/-- Declared accessibility, as written or as implied by the place of the
    declaration. -/
inductive Accessibility where
  /-- none could be determined -/
  | notApplicable
  | private_
  /-- `private protected` -/
  | protectedAndInternal
  | protected_
  | internal
  /-- `protected internal` -/
  | protectedOrInternal
  | public_
deriving DecidableEq, Repr, Inhabited

namespace Accessibility

/-- Is it `public`? -/
def isPublic (a : Accessibility) : Bool :=
  a == public_

/-- The accessibility as it is shown. -/
def text : Accessibility → String
  | notApplicable => "not applicable"
  | private_ => "private"
  | protectedAndInternal => "private protected"
  | protected_ => "protected"
  | internal => "internal"
  | protectedOrInternal => "protected internal"
  | public_ => "public"

end Accessibility

/-- A set of modifiers: bit `m.bit` is set when `m` is a member. -/
structure Modifiers where
  bits : BitVec 25
deriving DecidableEq, Repr

namespace Modifiers

/-- No modifiers. -/
def none : Modifiers := ⟨0⟩

instance : Inhabited Modifiers := ⟨none⟩

/-- Is `m` a member? -/
def contains (s : Modifiers) (m : Modifier) : Bool :=
  s.bits.getLsbD m.bit

/-- The set with the one member `m`. -/
def singleton (m : Modifier) : Modifiers :=
  ⟨BitVec.twoPow 25 m.bit⟩

/-- The members of both sets. -/
def union (s t : Modifiers) : Modifiers :=
  ⟨s.bits ||| t.bits⟩

/-- The set of the modifiers in a list. -/
def ofList (ms : List Modifier) : Modifiers :=
  ms.foldl (fun s m => s.union (singleton m)) none

@[simp] theorem contains_none (m : Modifier) : none.contains m = false := by
  simp [contains, none]

@[simp] theorem contains_union (s t : Modifiers) (m : Modifier) :
    (s.union t).contains m = (s.contains m || t.contains m) := by
  simp [contains, union]

@[simp] theorem contains_singleton (m n : Modifier) :
    (singleton m).contains n = decide (m = n) := by
  revert m n; intro m n; cases m <;> cases n <;> decide

/-- The accessibility these modifiers spell, if any. -/
def accessibility? (s : Modifiers) : Option Accessibility :=
  match s.contains .public_, s.contains .private_, s.contains .protected_, s.contains .internal with
  | true, false, false, false => some .public_
  | false, false, true, true => some .protectedOrInternal
  | false, true, true, false => some .protectedAndInternal
  | false, false, true, false => some .protected_
  | false, false, false, true => some .internal
  | false, true, false, false => some .private_
  | _, _, _, _ => if s.contains .file then some .internal else Option.none

end Modifiers

end CommandModules
