/-
  Command modules — layouts that spell tokens.

  * `SpellsLines ls ts`: the lines `ls` spell the tokens `ts`, one line after the
    other;
  * `Layout.Spell ls ts`: so do the lines of the layouts `ls`, at any depth;
  * `tokenize_render`: a layout that spells tokens is read as these tokens,
    whatever blanks it is indented with.
-/
import CommandModules.Proofs.Token.Words
import CommandModules.Text.Layout

namespace CommandModules

open Text

/-- The lines spell the tokens. -/
inductive SpellsLines : List (Nat × String) → List Token → Prop
  | nil : SpellsLines [] []
  | cons {depth line ls ts us} : Spells line.toList ts → SpellsLines ls us →
      SpellsLines ((depth, line) :: ls) (ts ++ us)

namespace SpellsLines

variable {ls ms : List (Nat × String)} {ts us : List Token}

theorem append (h : SpellsLines ls ts) (h' : SpellsLines ms us) :
    SpellsLines (ls ++ ms) (ts ++ us) := by
  induction h with
  | nil => exact h'
  | cons hl _ ih => exact List.append_assoc .. ▸ .cons hl ih

/-- Lines are read as the tokens that they spell. -/
theorem reads {unit : String} (hu : ∀ c ∈ unit.toList, isBlank c = true) (h : SpellsLines ls ts)
    (ws : List Char) (hw : ∀ c ∈ ws, isBlank c = true) : ∃ rest,
      Reads (ws ++ (String.join (ls.map (Layout.lineText unit))).toList) ts rest ∧
        skipGap rest = ⟨[], none⟩ := by
  induction h generalizing ws with
  | nil => exact ⟨ws, by simpa using .nil ws, skipGap_only_trivia (.blanks hw)⟩
  | @cons depth line ls ts us hl h ih =>
    obtain ⟨rest, hr, hg⟩ := ih ['\n'] (List.forall_mem_singleton.2 rfl)
    refine ⟨rest, ?_, hg⟩
    have htext : ws ++ (String.join (((depth, line) :: ls).map (Layout.lineText unit))).toList =
        (ws ++ (List.replicate depth unit).flatMap String.toList) ++ (line.toList ++ ('\n' ::
          (String.join (ls.map (Layout.lineText unit))).toList)) := by
      have hne : line.isEmpty = false := by simpa using hl.text_ne_nil
      simp [Layout.lineText, hne]
    have hs : Stops ('\n' :: (String.join (ls.map (Layout.lineText unit))).toList) :=
      .cons (by decide)
    rw [htext]
    refine (Reads.trivia (.blanks fun c hc => ?_) (hl.begins _ hs) (hl.reads _ hs) hl.ne_nil).trans hr
    rcases List.mem_append.1 hc with hc | hc
    · exact hw c hc
    · obtain ⟨u, hu', hc⟩ := List.mem_flatMap.1 hc
      exact hu c (List.eq_of_mem_replicate hu' ▸ hc)

end SpellsLines

namespace Layout

/-- The lines of the layouts spell the tokens. -/
def Spell (ls : List Layout) (ts : List Token) : Prop :=
  ∀ depth, SpellsLines (linesOfAll depth ls) ts

namespace Spell

variable {ls ms body : List Layout} {line opening closing : String} {ts us os bs cs : List Token}

theorem nil : Spell [] [] :=
  fun _ => .nil

theorem cons_line (h : Spells line.toList ts) (hl : Spell ls us) :
    Spell (.line line :: ls) (ts ++ us) :=
  fun depth => .cons h (hl depth)

theorem one (h : Spells line.toList ts) : Spell [.line line] ts :=
  List.append_nil ts ▸ cons_line h nil

theorem append (h : Spell ls ts) (h' : Spell ms us) : Spell (ls ++ ms) (ts ++ us) := by
  intro depth
  have happend : linesOfAll depth (ls ++ ms) = linesOfAll depth ls ++ linesOfAll depth ms := by
    clear h
    induction ls with
    | nil => rfl
    | cons l ls ih => simp [linesOfAll, ih]
  rw [happend]
  exact (h depth).append (h' depth)

theorem cons_block (ho : Spells opening.toList os) (hb : Spell body bs)
    (hc : Spells closing.toList cs) (hl : Spell ls us) :
    Spell (.block opening closing body :: ls) (os ++ bs ++ cs ++ us) := by
  intro depth
  have hopen : SpellsLines ((depth, opening) :: linesOfAll (depth + 1) body) (os ++ bs) :=
    .cons ho (hb (depth + 1))
  have hclose : SpellsLines ((depth, closing) :: linesOfAll depth ls) (cs ++ us) :=
    .cons hc (hl depth)
  simpa [linesOfAll, lines] using hopen.append hclose

end Spell

/-- **A layout that spells tokens is read as these tokens.** -/
theorem tokenize_render {unit : String} {ls : List Layout} {ts : List Token}
    (hu : ∀ c ∈ unit.toList, isBlank c = true) (h : Spell ls ts) :
    erase (tokenize (render unit ls)).body = ts ∧ (tokenize (render unit ls)).errors = [] := by
  obtain ⟨rest, hr, hg⟩ := (h 0).reads hu [] nofun
  exact tokenize_of_reads hr hg

end Layout

end CommandModules
