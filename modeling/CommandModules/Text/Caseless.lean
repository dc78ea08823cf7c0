/-
  Command modules — comparing texts without regard to ASCII case.

  Option keys, option values and the names of generated sources are compared
  this way.  Characters outside ASCII are their own lower case.
-/
namespace CommandModules.Text

/-- The text with the letters `A` to `Z` in lower case. -/
def lower (s : String) : String :=
  String.ofList (s.toList.map Char.toLower)

/-- Are the texts equal up to ASCII case? -/
def eqCaseless (a b : String) : Bool :=
  lower a == lower b

theorem eqCaseless_iff {a b : String} : eqCaseless a b = true ↔ lower a = lower b :=
  beq_iff_eq

theorem eqCaseless_refl (a : String) : eqCaseless a a = true := by
  simp [eqCaseless]

theorem eqCaseless_comm (a b : String) : eqCaseless a b = eqCaseless b a := by
  simp [eqCaseless, Bool.beq_comm]

end CommandModules.Text
