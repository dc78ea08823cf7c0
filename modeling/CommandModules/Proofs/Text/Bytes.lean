/-
  Command modules — bytes, lines and columns of a text.

  * `bytes` is the length of a text in UTF-8;
  * `Position.start_after`: the place behind a text is given by its bytes, its
    line feeds and its last line;
  * `Position.toNat_one_add`: a counter of 32 bits is exact up to its last number;
  * `Span.sliceChars?_of_append`: a span that begins behind `pre` and is as long
    as `mid` covers `mid`.
-/
import Mathlib.Data.List.Induction
import CommandModules.Text.Position

namespace CommandModules

namespace Text

/-- The number of bytes of a text. -/
def bytes : List Char → Nat
  | [] => 0
  | c :: cs => c.utf8Size + bytes cs

@[simp] theorem bytes_nil : bytes [] = 0 := rfl

@[simp] theorem bytes_cons (c : Char) (cs : List Char) : bytes (c :: cs) = c.utf8Size + bytes cs :=
  rfl

@[simp] theorem bytes_append (cs ds : List Char) : bytes (cs ++ ds) = bytes cs + bytes ds := by
  induction cs with
  | nil => simp
  | cons c cs ih => rw [List.cons_append, bytes_cons, bytes_cons, ih, Nat.add_assoc]

theorem bytes_pos {cs : List Char} (h : cs ≠ []) : 0 < bytes cs := by
  obtain ⟨c, cs, rfl⟩ := List.exists_cons_of_ne_nil h
  have := c.utf8Size_pos
  rw [bytes_cons]; omega

theorem utf8ByteSize_ofList (cs : List Char) : (String.ofList cs).utf8ByteSize = bytes cs := by
  induction cs with
  | nil => rfl
  | cons c cs ih =>
    rw [bytes_cons, ← ih, ← String.utf8ByteSize_singleton, ← String.utf8ByteSize_append]
    congr 1
    simp

theorem bytes_toList (s : String) : bytes s.toList = s.utf8ByteSize := by
  rw [← utf8ByteSize_ofList, String.ofList_toList]

/-- The characters behind the last line feed. -/
def lastLine (cs : List Char) : List Char :=
  (cs.reverse.takeWhile (· ≠ '\n')).reverse

@[simp] theorem lastLine_nil : lastLine [] = [] := rfl

theorem lastLine_concat (cs : List Char) (c : Char) :
    lastLine (cs ++ [c]) = if c = '\n' then [] else lastLine cs ++ [c] := by
  by_cases h : c = '\n' <;> simp [lastLine, h]

theorem lastLine_eq_self {cs : List Char} (h : '\n' ∉ cs) : lastLine cs = cs := by
  induction cs using List.reverseRecOn with
  | nil => rfl
  | append_singleton cs c ih =>
    obtain ⟨hcs, hc⟩ : '\n' ∉ cs ∧ c ≠ '\n' := by simpa [eq_comm] using h
    rw [lastLine_concat, if_neg hc, ih hcs]

theorem bytes_lastLine_le (cs : List Char) : bytes (lastLine cs) ≤ bytes cs := by
  have hsuffix : lastLine cs <:+ cs := List.reverse_prefix.1 (by
    rw [lastLine, List.reverse_reverse]
    exact List.takeWhile_prefix _)
  obtain ⟨front, hcs⟩ := hsuffix
  have := congrArg bytes hcs
  rw [bytes_append] at this
  omega

/-- Each character takes at least one byte. -/
theorem count_le_bytes (c : Char) (cs : List Char) : cs.count c ≤ bytes cs := by
  have hlength : cs.length ≤ bytes cs := by
    induction cs with
    | nil => exact Nat.le_refl _
    | cons d cs ih =>
      have := d.utf8Size_pos
      rw [List.length_cons, bytes_cons]
      omega
  exact Nat.le_trans List.count_le_length hlength

/-! ## Cutting at bytes -/

theorem splitAtByte?_bytes (cs ds : List Char) : splitAtByte? (bytes cs) (cs ++ ds) = some (cs, ds) := by
  induction cs with
  | nil => cases ds <;> simp [splitAtByte?]
  | cons c cs ih =>
    have := c.utf8Size_pos
    rw [List.cons_append, splitAtByte?, bytes_cons, if_neg (by omega), if_pos (by omega),
      Nat.add_sub_cancel_left, ih]
    rfl

end Text

open Text

/-! ## Places -/

namespace Position

/-- A counter that begins with one, behind `n` steps. -/
theorem toNat_one_add (n : Nat) : (1 + UInt32.ofNat n).toNat = (1 + n) % UInt32.size := by
  rw [UInt32.toNat_add, UInt32.toNat_ofNat', UInt32.toNat_one, Nat.add_mod_mod]

/-- **The place behind a text.** -/
theorem start_after (cs : List Char) :
    start.after cs = ⟨bytes cs, 1 + .ofNat (cs.count '\n'), 1 + .ofNat (bytes (lastLine cs))⟩ := by
  induction cs using List.reverseRecOn with
  | nil => rfl
  | append_singleton cs c ih =>
    rw [after_append, ih, lastLine_concat]
    by_cases h : c = '\n' <;> simp [next, h, UInt32.ofNat_add, UInt32.add_assoc]

end Position

/-! ## Spans -/

namespace Span

theorem sliceChars?_eq (s : Span) (cs : List Char) :
    s.sliceChars? cs = between? s.offset s.stop cs := by
  simp [sliceChars?, between?, stop]

theorem sliceChars?_of_append {s : Span} {pre mid post : List Char} (ho : s.offset = bytes pre)
    (hl : s.length = bytes mid) : s.sliceChars? (pre ++ (mid ++ post)) = some mid := by
  simp [sliceChars?, ho, hl, splitAtByte?_bytes]

theorem slice?_of_append {s : Span} {source : String} {pre mid post : List Char}
    (hs : source.toList = pre ++ (mid ++ post)) (ho : s.offset = bytes pre)
    (hl : s.length = bytes mid) : s.slice? source = some (String.ofList mid) := by
  simp [slice?, hs, sliceChars?_of_append ho hl]

end Span

end CommandModules
