import GnuRadio.Theorems.Yaml.Progress

/-! Where the values of keys and list items end, and when the rest of a line is left to the map or list around it. -/

namespace GnuRadio.Yaml

open Fallible ParseContext

/-! ### Values in the line of their key -/

/-- The value starts in the line of its key or dash. -/
def ValueSpan.StartsOnLine (span : ValueSpan) : Prop := TextAhead span.before

/-- When the value starts in the line of its key or dash, nothing of the line is left behind it. -/
def ValueSpan.Contained (span : ValueSpan) : Prop := span.StartsOnLine → span.before.lineIdx < span.after.lineIdx

/-- In the line of its key or dash starts a block list, or a block map while the line is indented no deeper than the key. -/
def ValueSpan.Inline (span : ValueSpan) : Prop :=
  span.StartsOnLine ∧
    ((peekToFindValueType span.before span.lineIndent = .list ∧ span.before.consumeSpaces.startsWith ['['] = false) ∨
      (peekToFindValueType span.before span.lineIndent = .map ∧ span.before.consumeSpaces.startsWith ['{'] = false ∧
        indentAtMost (span.before.currentIndent [' ', '-']) span.lineIndent = true))

instance (span : ValueSpan) : Decidable span.StartsOnLine := inferInstanceAs (Decidable (TextAhead _))

instance (span : ValueSpan) : Decidable span.Inline := inferInstanceAs (Decidable (_ ∧ _))

/-! ### What a call does -/

variable {F : Type} {floats : FloatFormat F} {ctx : ParseContext} {fuel lineIndent : Nat} {parent : Int}

/-- Why a loop over lines ends: the document does, or the line is no deeper than the one above. -/
def LoopEnds (indentChars : Bytes) (parent : Int) (ctx ctx' : ParseContext) : Prop :=
  (ctx.atEndOfDocument = true ∧ ctx' = ctx) ∨
    (ctx' = ctx.consumeWhitespaceAndComments ∧ (ctx'.atEndOfDocument = true ∨
      ∃ lineIndent : Nat, ctx'.currentIndent indentChars = some lineIndent ∧ (lineIndent : Int) ≤ parent))

section
variable {parsed : Parsed (ValueMap F)}

end

section
variable {parsed : Parsed (Value F)} {typeTag : Option TypeTag}

end

/-! ### Moving on -/

theorem LoopEnds.onward {indentChars : Bytes} {ctx' : ParseContext} (h : LoopEnds indentChars parent ctx ctx') :
    Onward ctx ctx' := by
  obtain ⟨-, rfl⟩ | ⟨rfl, -⟩ := h
  · exact .refl _
  · exact onward_consumeWhitespaceAndComments ctx

section
variable {parsed : Parsed (Value F)} {type : ValueType} {tag : Option TypeTag}

theorem not_atEndOfDocument (h : TextAhead ctx) : ctx.atEndOfDocument = false := by
  rw [atEndOfDocument, decide_eq_false_iff_not]
  exact h.lt.ne

/-- In front of text a loop ends at the line. -/
theorem LoopEnds.same {indentChars : Bytes} {ctx' : ParseContext} (h : LoopEnds indentChars parent ctx ctx')
    (htext : TextAhead ctx) : SameLine ctx ctx' := by
  obtain ⟨hend, -⟩ | ⟨rfl, -⟩ := h
  · rw [not_atEndOfDocument htext] at hend
    cases hend
  · rw [consumeWhitespaceAndComments_of_textAhead htext]
    exact sameLine_consumeSpaces ctx

/-- It does so for the indentation only. -/
theorem LoopEnds.indentAtMost {indentChars : Bytes} {ctx' : ParseContext} (h : LoopEnds indentChars parent ctx ctx')
    (htext : TextAhead ctx) : indentAtMost (ctx.currentIndent indentChars) parent = true := by
  obtain ⟨hend, -⟩ | ⟨rfl, hend⟩ := h
  · rw [not_atEndOfDocument htext] at hend
    cases hend
  · rw [consumeWhitespaceAndComments_of_textAhead htext] at hend
    obtain hend | ⟨n, hindent, hle⟩ := hend
    · rw [not_atEndOfDocument (textAhead_consumeSpaces.mpr htext)] at hend
      cases hend
    · rw [(sameLine_consumeSpaces ctx).currentIndent] at hindent
      rw [hindent]
      exact decide_eq_true hle

/-- There is a first byte that is no space. -/
theorem TextAhead.currentIndent (htext : TextAhead ctx) : ∃ n, ctx.currentIndent [' '] = some n := by
  rw [← Option.isSome_iff_exists, ParseContext.currentIndent, List.findIdx?_isSome]
  rw [TextAhead, remainingLine_consumeSpaces] at htext
  obtain ⟨c, hc, -⟩ := Option.any_eq_true _ _ |>.mp htext
  have hmem : c ∈ ctx.currentLine := by
    rw [remainingLine_eq] at hc
    exact List.mem_of_mem_drop ((List.dropWhile_suffix _).mem (List.mem_of_mem_head? hc))
  have hne : c ≠ ' ' := by
    have hnot := List.head?_dropWhile_not (fun c => decide (c = ' ')) ctx.remainingLine
    rw [hc] at hnot
    simpa using hnot
  exact List.any_eq_true.mpr ⟨c, hmem, by simpa using hne⟩

end

/-! ### Every value of a document -/

/-- No value is inline exactly when all are contained. -/
def Agree (spans : List ValueSpan) : Prop := (∀ span ∈ spans, span.Contained) ↔ ∀ span ∈ spans, ¬ span.Inline

theorem Agree.append {spans spans' : List ValueSpan} (h : Agree spans) (h' : Agree spans') : Agree (spans ++ spans') := by
  rw [Agree] at h h' ⊢
  rw [List.forall_mem_append, List.forall_mem_append, h, h']

end GnuRadio.Yaml
