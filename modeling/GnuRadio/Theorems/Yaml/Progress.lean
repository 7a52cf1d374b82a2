import GnuRadio.Theorems.Yaml.Text

/-! How far each function of the parser moves the cursor: within a line, or on to later lines. -/

namespace GnuRadio.Yaml

open Fallible ParseContext

variable {F : Type} {ctx ctx' ctx'' : ParseContext} {n fuel lineIndent : Nat}

/-- The cursor stays in its line. -/
structure SameLine (ctx ctx' : ParseContext) : Prop where
  lines : ctx'.lines = ctx.lines
  lineIdx : ctx'.lineIdx = ctx.lineIdx

/-- The cursor moves to no earlier line, and not out of the document. -/
structure Onward (ctx ctx' : ParseContext) : Prop where
  lines : ctx'.lines = ctx.lines
  lineIdx : ctx.lineIdx ≤ ctx'.lineIdx
  within : ctx.lineIdx ≤ ctx.lines.length → ctx'.lineIdx ≤ ctx.lines.length

namespace SameLine

theorem refl (ctx : ParseContext) : SameLine ctx ctx := ⟨rfl, rfl⟩

theorem trans (h : SameLine ctx ctx') (h' : SameLine ctx' ctx'') : SameLine ctx ctx'' :=
  ⟨h'.lines.trans h.lines, h'.lineIdx.trans h.lineIdx⟩

theorem onward (h : SameLine ctx ctx') : Onward ctx ctx' :=
  ⟨h.lines, h.lineIdx.ge, fun hle => h.lineIdx.le.trans hle⟩

theorem currentLine (h : SameLine ctx ctx') : ctx'.currentLine = ctx.currentLine := by
  rw [ParseContext.currentLine, ParseContext.currentLine, h.lines, h.lineIdx]

theorem currentIndent (h : SameLine ctx ctx') (indentChars : Bytes) :
    ctx'.currentIndent indentChars = ctx.currentIndent indentChars := by
  rw [ParseContext.currentIndent, ParseContext.currentIndent, h.currentLine]

theorem lt_iff (h : SameLine ctx ctx') : ctx'.lineIdx < ctx'.lines.length ↔ ctx.lineIdx < ctx.lines.length := by
  rw [h.lines, h.lineIdx]

end SameLine

namespace Onward

theorem refl (ctx : ParseContext) : Onward ctx ctx := ⟨rfl, le_rfl, id⟩

theorem trans (h : Onward ctx ctx') (h' : Onward ctx' ctx'') : Onward ctx ctx'' :=
  ⟨h'.lines.trans h.lines, h.lineIdx.trans h'.lineIdx, fun hle => by
    have hle' := h'.within (by rw [h.lines]; exact h.within hle)
    rwa [h.lines] at hle'⟩

end Onward

/-! ### Steps of the cursor -/

theorem sameLine_consume (ctx : ParseContext) (n : Nat) : SameLine ctx (ctx.consume n) := ⟨rfl, rfl⟩

theorem sameLine_consumeSpaces (ctx : ParseContext) : SameLine ctx ctx.consumeSpaces := sameLine_consume ctx _

theorem skipToNextLine_of_lt (h : ctx.lineIdx < ctx.lines.length) : ctx.skipToNextLine = ⟨ctx.lines, ctx.lineIdx + 1, 0⟩ :=
  if_pos h

theorem onward_skipToNextLine (ctx : ParseContext) : Onward ctx ctx.skipToNextLine := by
  by_cases h : ctx.lineIdx < ctx.lines.length
  · rw [skipToNextLine_of_lt h]
    exact ⟨rfl, Nat.le_succ _, fun _ => h⟩
  · rw [skipToNextLine, if_neg h]
    exact .refl ctx

theorem onward_consumeLines (n : Nat) (ctx : ParseContext) : Onward ctx (consumeLines n ctx) := by
  induction n generalizing ctx with
  | zero => exact .refl ctx
  | succ n ih =>
    rw [consumeLines]
    split
    · exact .refl ctx
    · split
      · exact (sameLine_consumeSpaces ctx).onward
      · exact ((sameLine_consumeSpaces ctx).onward.trans (onward_skipToNextLine _)).trans (ih _)

theorem onward_consumeWhitespaceAndComments (ctx : ParseContext) : Onward ctx ctx.consumeWhitespaceAndComments :=
  onward_consumeLines _ ctx

/-- There is text in the rest of the line. -/
def TextAhead (ctx : ParseContext) : Prop := ctx.consumeSpaces.remainingLine.head?.any (· ≠ '#') = true

instance (ctx : ParseContext) : Decidable (TextAhead ctx) := inferInstanceAs (Decidable (_ = true))

theorem currentLine_of_le (h : ctx.lines.length ≤ ctx.lineIdx) : ctx.currentLine = [] := by
  rw [currentLine, List.getD_eq_getElem?_getD, List.getElem?_eq_none h, Option.getD_none]

theorem remainingLine_eq (ctx : ParseContext) : ctx.remainingLine = ctx.currentLine.drop ctx.columnIdx := by
  unfold remainingLine
  split
  · next h =>
    rw [atEndOfLine, Bool.or_eq_true, atEndOfDocument, decide_eq_true_iff, decide_eq_true_iff] at h
    rcases h with h | h
    · rw [currentLine_of_le h.ge, List.drop_nil]
    · rw [h, List.drop_length]
  · rfl

theorem remainingLine_consume (ctx : ParseContext) (n : Nat) : (ctx.consume n).remainingLine = ctx.remainingLine.drop n := by
  rw [remainingLine_eq, remainingLine_eq, List.drop_drop]
  rfl

theorem remainingLine_consumeSpaces (ctx : ParseContext) :
    ctx.consumeSpaces.remainingLine = ctx.remainingLine.dropWhile (· = ' ') := by
  have hsplit : ctx.remainingLine = ctx.remainingLine.takeWhile (· = ' ') ++ ctx.remainingLine.dropWhile (· = ' ') :=
    List.takeWhile_append_dropWhile.symm
  rw [consumeSpaces, remainingLine_consume]
  calc ctx.remainingLine.drop (ctx.remainingLine.takeWhile (· = ' ')).length
      = (ctx.remainingLine.takeWhile (· = ' ') ++ ctx.remainingLine.dropWhile (· = ' ')).drop
          (ctx.remainingLine.takeWhile (· = ' ')).length := by rw [← hsplit]
    _ = ctx.remainingLine.dropWhile (· = ' ') := List.drop_left

theorem consumeSpaces_consumeSpaces (ctx : ParseContext) : ctx.consumeSpaces.consumeSpaces = ctx.consumeSpaces := by
  have hnone : (ctx.remainingLine.dropWhile (· = ' ')).takeWhile (fun c => decide (c = ' ')) = [] := by
    rw [List.takeWhile_eq_nil_iff]
    intro hlength
    have hnot := List.dropWhile_get_zero_not (fun c => decide (c = ' ')) ctx.remainingLine hlength
    simpa using hnot
  conv_lhs => rw [consumeSpaces, remainingLine_consumeSpaces, hnone]
  rfl

theorem TextAhead.lt (h : TextAhead ctx) : ctx.lineIdx < ctx.lines.length := by
  by_contra hnot
  rw [TextAhead, remainingLine_eq, (sameLine_consumeSpaces ctx).currentLine, currentLine_of_le (Nat.not_lt.mp hnot),
    List.drop_nil] at h
  cases h

theorem textAhead_consumeSpaces : TextAhead ctx.consumeSpaces ↔ TextAhead ctx := by
  rw [TextAhead, TextAhead, consumeSpaces_consumeSpaces]

/-- Text is not passed. -/
theorem consumeWhitespaceAndComments_of_textAhead (h : TextAhead ctx) :
    ctx.consumeWhitespaceAndComments = ctx.consumeSpaces := by
  rw [consumeWhitespaceAndComments_of_lt h.lt]
  exact if_pos h

section
variable {floats : FloatFormat F} {value : Value F}

end

end GnuRadio.Yaml
