import GnuRadio.Library.Fallible
import Mathlib.Data.List.DropRight
import GnuRadio.Yaml.Parser

/-! Escapes and quotes: what the writer escapes, the reader resolves, and it finds the quote that closes the text. -/

namespace GnuRadio.Yaml

open Fallible

variable {c : Char} {s raw result : Bytes} {quoted : Bool} {i : Nat}

/-! ### Bytes -/

theorem isprint_of_not_iscntrl (h : isprint c = true) : iscntrl c = false := by
  simp only [isprint, iscntrl, Bool.and_eq_true, decide_eq_true_eq, Bool.or_eq_false_iff, decide_eq_false_iff_not] at h ⊢
  omega

/-- The only space that is printed is the blank. -/
theorem isspace_of_isprint (h : isprint c = true) : isspace c = decide (c = ' ') := by
  simp only [isprint, isspace, Bool.and_eq_true, decide_eq_true_eq] at h ⊢
  have hnot : ¬ (9 ≤ c.toNat ∧ c.toNat ≤ 13) := by omega
  simp [hnot]

/-! ### Resolving escapes -/

theorem resolveYamlEscapes_cons (hc : c ≠ '\\') (rest : Bytes) :
    resolveYamlEscapes quoted i (c :: rest) = (resolveYamlEscapes quoted (i + 1) rest).map (c :: ·) := by
  cases rest with
  | nil => rfl
  | cons c' rest =>
    rw [resolveYamlEscapes]
    all_goals simp [hc]

theorem resolveYamlEscapes_byte {byte : Char} (hx : c ≠ 'x') (hu : c ≠ 'u') (h : escapedByte quoted c = some byte)
    (rest : Bytes) :
    resolveYamlEscapes quoted i ('\\' :: c :: rest) = (resolveYamlEscapes quoted (i + 2) rest).map (byte :: ·) := by
  rw [resolveYamlEscapes]
  · rw [h]
  all_goals simp [hx, hu]

theorem resolveYamlEscapes_hex {high low byte : Char} (h : parseByteFromHex high low = some byte) (rest : Bytes) :
    resolveYamlEscapes quoted i ('\\' :: 'x' :: high :: low :: rest) =
      (resolveYamlEscapes quoted (i + 4) rest).map (byte :: ·) := by
  rw [resolveYamlEscapes, h]

theorem parseByteFromHex_hexDigit : ∀ n < 128,
    parseByteFromHex (hexDigit (n / 16)) (hexDigit (n % 16)) = some (Char.ofNat n) := by
  decide

/-- The three spellings of a byte in a quoted string. -/
theorem escapeChar_cases (c : Char) :
    (∃ e, escapeChar true c = ['\\', e] ∧ escapedByte true e = some c ∧ e ≠ 'x' ∧ e ≠ 'u') ∨
    (∃ high low, escapeChar true c = ['\\', 'x', high, low] ∧ parseByteFromHex high low = some c ∧
      high ≠ '\\' ∧ high ≠ '"' ∧ low ≠ '\\' ∧ low ≠ '"') ∨
    (escapeChar true c = [c] ∧ c ≠ '\\' ∧ c ≠ '"') := by
  have hdigit : ∀ n < 16, hexDigit n ≠ '\\' ∧ hexDigit n ≠ '"' := by decide
  unfold escapeChar
  split
  · next h => exact Or.inl ⟨'"', rfl, by rw [h.1]; rfl, by decide, by decide⟩
  · next hquote =>
    split
    · next h => exact Or.inl ⟨'n', rfl, by rw [h.1]; rfl, by decide, by decide⟩
    · split
      · next h => exact Or.inl ⟨'\\', rfl, by rw [h.1]; rfl, by decide, by decide⟩
      · next hslash =>
        split
        · next h => exact Or.inl ⟨'t', rfl, by rw [h.1]; rfl, by decide, by decide⟩
        · split
          · next h => exact Or.inl ⟨'r', rfl, by rw [h.1]; rfl, by decide, by decide⟩
          · split
            · next h =>
              have hc : c = Char.ofNat 8 := by rw [← h, Char.ofNat_toNat]
              exact Or.inl ⟨'b', rfl, by rw [hc]; rfl, by decide, by decide⟩
            · split
              · next h =>
                have hlt : c.toNat < 128 := by
                  have hcntrl := h.1
                  simp only [iscntrl, Bool.or_eq_true, decide_eq_true_eq] at hcntrl
                  omega
                have hbyte := parseByteFromHex_hexDigit c.toNat hlt
                rw [Char.ofNat_toNat] at hbyte
                obtain ⟨hhigh, hhigh'⟩ := hdigit (c.toNat / 16) (by omega)
                obtain ⟨hlow, hlow'⟩ := hdigit (c.toNat % 16) (by omega)
                exact Or.inr (Or.inl ⟨_, _, rfl, hbyte, hhigh, hhigh', hlow, hlow'⟩)
              · exact Or.inr (Or.inr ⟨rfl, fun hc => hslash ⟨hc, rfl⟩, fun hc => hquote ⟨hc, rfl⟩⟩)

/-- What is escaped for a quoted string is resolved. -/
theorem resolveYamlEscapes_escapeString (s : Bytes) (i : Nat) :
    resolveYamlEscapes true i (escapeString s true) = .ok s := by
  induction s generalizing i with
  | nil => rfl
  | cons c s ih =>
    have hcons : escapeString (c :: s) true = escapeChar true c ++ escapeString s true := List.flatMap_cons
    rw [hcons]
    obtain ⟨e, heq, hbyte, hx, hu⟩ | ⟨high, low, heq, hbyte, -⟩ | ⟨heq, hc, -⟩ := escapeChar_cases c
    · rw [heq, List.cons_append, List.cons_append, List.nil_append, resolveYamlEscapes_byte hx hu hbyte, ih]
      rfl
    · rw [heq, List.cons_append, List.cons_append, List.cons_append, List.cons_append, List.nil_append,
        resolveYamlEscapes_hex hbyte, ih]
      rfl
    · rw [heq, List.cons_append, List.nil_append, resolveYamlEscapes_cons hc, ih]
      rfl

/-! ### Closing quotes -/

theorem closingQuote_escapeChar (c : Char) (i : Nat) (rest : Bytes) :
    closingQuote '"' i false (escapeChar true c ++ rest) =
      closingQuote '"' (i + (escapeChar true c).length) false rest := by
  obtain ⟨e, heq, -⟩ | ⟨high, low, heq, -, hhigh, hhigh', hlow, hlow'⟩ | ⟨heq, hc, hc'⟩ := escapeChar_cases c
  · rw [heq]
    rfl
  · rw [heq]
    simp [closingQuote, hhigh, hhigh', hlow, hlow', Nat.add_assoc]
  · rw [heq]
    simp [closingQuote, hc, hc']

/-- The quote behind an escaped text closes it. -/
theorem closingQuote_escapeString (s rest : Bytes) (i : Nat) :
    closingQuote '"' i false (escapeString s true ++ '"' :: rest) = some (i + (escapeString s true).length) := by
  induction s generalizing i with
  | nil => rfl
  | cons c s ih =>
    have hcons : escapeString (c :: s) true = escapeChar true c ++ escapeString s true := List.flatMap_cons
    rw [hcons, List.append_assoc, closingQuote_escapeChar, ih, List.length_append, Nat.add_assoc]

theorem findString_quoted (s rest extraDelimiters : Bytes) :
    findString ('"' :: escapeString s true ++ '"' :: rest) extraDelimiters = some (1, (escapeString s true).length) := by
  have hclose : findClosingQuote ('"' :: escapeString s true ++ '"' :: rest) '"' =
      some (1 + (escapeString s true).length) := closingQuote_escapeString s rest 1
  have hquote : findString ('"' :: escapeString s true ++ '"' :: rest) extraDelimiters =
      (findClosingQuote ('"' :: escapeString s true ++ '"' :: rest) '"').map fun closePos => (1, closePos - 1) := rfl
  rw [hquote, hclose, Option.map_some, Nat.add_sub_cancel_left]

/-! ### What a text resolves to -/

/-- How a text resolves, escape by escape. -/
inductive Resolves (quoted : Bool) : Bytes → Bytes → Prop
  | nil : Resolves quoted [] []
  | cons (c : Char) {rest result : Bytes} (h : Resolves quoted rest result) : Resolves quoted (c :: rest) (c :: result)
  | byte {c byte : Char} {rest result : Bytes} (hc : escapedByte quoted c = some byte) (h : Resolves quoted rest result) :
      Resolves quoted ('\\' :: c :: rest) (byte :: result)
  | hex {high low byte : Char} {rest result : Bytes} (hc : parseByteFromHex high low = some byte)
      (h : Resolves quoted rest result) : Resolves quoted ('\\' :: 'x' :: high :: low :: rest) (byte :: result)

theorem resolves (h : resolveYamlEscapes quoted i raw = .ok result) : Resolves quoted raw result := by
  fun_induction resolveYamlEscapes quoted i raw generalizing result with
  | case1 =>
    cases h
    exact .nil
  | case2 i c =>
    cases h
    exact .cons c .nil
  | case3 => cases h
  | case4 i high low rest byte hbyte ih =>
    obtain ⟨r, hr, rfl⟩ := map_eq_ok h
    exact .hex hbyte (ih hr)
  | case5 i high low rest hnone ih =>
    obtain ⟨r, hr, rfl⟩ := map_eq_ok h
    exact .cons _ (.cons _ (ih hr))
  | case6 i c rest _ _ byte hbyte ih =>
    obtain ⟨r, hr, rfl⟩ := map_eq_ok h
    exact .byte hbyte (ih hr)
  | case7 i c rest _ _ hnone ih =>
    obtain ⟨r, hr, rfl⟩ := map_eq_ok h
    exact .cons _ (.cons _ (ih hr))
  | case8 i c c' rest _ _ _ ih =>
    obtain ⟨r, hr, rfl⟩ := map_eq_ok h
    exact .cons _ (ih hr)

/-- No escape is shorter than its byte. -/
theorem Resolves.length_le (h : Resolves quoted raw result) : result.length ≤ raw.length := by
  induction h with
  | nil => exact le_rfl
  | cons c _ ih => exact Nat.succ_le_succ ih
  | byte _ _ ih =>
    simp only [List.length_cons]
    omega
  | hex _ _ ih =>
    simp only [List.length_cons]
    omega

theorem hexValue_lt {n : Nat} (h : hexValue c = some n) : n < 16 := by
  simp only [hexValue, Char.le_def, UInt32.le_iff_toNat_le, Char.toNat] at h
  split at h
  · next hc =>
    cases h
    exact Nat.lt_of_le_of_lt (Nat.sub_le_sub_right hc.2 _) (by decide)
  · split at h
    · next hc =>
      cases h
      have hle := Nat.sub_le_sub_right hc.2 97
      exact Nat.lt_of_le_of_lt (Nat.add_le_add_right hle 10) (by decide)
    · split at h
      · next hc =>
        cases h
        have hle := Nat.sub_le_sub_right hc.2 65
        exact Nat.lt_of_le_of_lt (Nat.add_le_add_right hle 10) (by decide)
      · cases h

/-- A colon stays, or goes with a hex digit into a control character. -/
theorem Resolves.colon (h : Resolves quoted raw result) (hcolon : ':' ∈ raw) :
    ∃ c ∈ result, c = ':' ∨ isprint c = false := by
  induction h with
  | nil => cases hcolon
  | cons c _ ih =>
    rcases List.mem_cons.mp hcolon with rfl | hrest
    · exact ⟨':', .head _, Or.inl rfl⟩
    · obtain ⟨c', hc', hor⟩ := ih hrest
      exact ⟨c', .tail _ hc', hor⟩
  | @byte c byte rest result hc _ ih =>
    have hne : ':' ≠ c := by
      rintro rfl
      cases quoted <;> cases hc
    have hrest : ':' ∈ rest := by simpa [hne] using hcolon
    obtain ⟨c', hc', hor⟩ := ih hrest
    exact ⟨c', .tail _ hc', hor⟩
  | @hex high low byte rest result hc _ ih =>
    have hhigh : ':' ≠ high := by
      rintro rfl
      cases hc
    have hcase : ':' = low ∨ ':' ∈ rest := by simpa [hhigh] using hcolon
    rcases hcase with rfl | hrest
    · refine ⟨byte, .head _, Or.inr ?_⟩
      obtain ⟨n, hn, rfl⟩ := Option.map_eq_some_iff.mp hc
      have hsmall : ∀ n < 16, isprint (Char.ofNat n) = false := by decide
      exact hsmall n (hexValue_lt hn)
    · obtain ⟨c', hc', hor⟩ := ih hrest
      exact ⟨c', .tail _ hc', hor⟩

/-! ### Trimming -/

/-- The part of a text behind its leading spaces. -/
theorem exists_spaces (sv : Bytes) : ∃ n tail, sv = List.replicate n ' ' ++ tail ∧ tail.head? ≠ some ' ' := by
  induction sv with
  | nil => exact ⟨0, [], rfl, by simp⟩
  | cons c sv ih =>
    by_cases hc : c = ' '
    · obtain ⟨n, tail, rfl, htail⟩ := ih
      exact ⟨n + 1, tail, by rw [hc, List.replicate_succ, List.cons_append], htail⟩
    · exact ⟨0, c :: sv, rfl, by simpa using hc⟩

theorem trim_eq (sv : Bytes) : trim sv = (sv.dropWhile isspace).rdropWhile isspace := rfl

theorem trim_length_le (sv : Bytes) : (trim sv).length ≤ sv.length :=
  (List.rdropWhile_prefix isspace (sv.dropWhile isspace)).length_le.trans (List.dropWhile_suffix isspace).length_le

theorem dropWhile_eq_self_iff {p : Char → Bool} {sv : Bytes} :
    sv.dropWhile p = sv ↔ ∀ c ∈ sv.head?, p c = false := by
  cases sv with
  | nil => simp
  | cons c sv =>
    cases hc : p c with
    | false => simp [hc]
    | true =>
      refine iff_of_false (fun h => ?_) fun h => ?_
      · rw [List.dropWhile_cons_of_pos hc] at h
        have hle := (List.dropWhile_suffix p (l := sv)).length_le
        rw [h] at hle
        exact Nat.not_succ_le_self _ hle
      · have hfalse := h c rfl
        rw [hc] at hfalse
        cases hfalse

theorem rdropWhile_eq_self_iff {p : Char → Bool} {sv : Bytes} :
    sv.rdropWhile p = sv ↔ ∀ c ∈ sv.getLast?, p c = false := by
  rw [List.rdropWhile_eq_self_iff]
  constructor
  · intro h c hc
    have hne : sv ≠ [] := by
      rintro rfl
      cases hc
    rw [List.getLast?_eq_some_getLast hne] at hc
    cases hc
    simpa using h hne
  · intro h hne
    simpa using h _ (List.getLast?_eq_some_getLast hne)

/-- A text stays exactly when it has no space at an end. -/
theorem trim_eq_self_iff {sv : Bytes} :
    trim sv = sv ↔ (∀ c ∈ sv.head?, isspace c = false) ∧ ∀ c ∈ sv.getLast?, isspace c = false := by
  rw [trim_eq, ← dropWhile_eq_self_iff, ← rdropWhile_eq_self_iff]
  constructor
  · intro h
    have hdrop : sv.dropWhile isspace = sv := by
      have hle := (List.rdropWhile_prefix isspace (sv.dropWhile isspace)).length_le
      rw [h] at hle
      exact (List.dropWhile_suffix isspace).eq_of_length_le hle
    exact ⟨hdrop, by rwa [hdrop] at h⟩
  · rintro ⟨hdrop, hrdrop⟩
    rw [hdrop, hrdrop]

end GnuRadio.Yaml

/-! The cursor in front of a text: what the steps of the parser do to it. -/

namespace GnuRadio.Yaml

/-- The cursor in front of `text`, with `left` on its left in the line and the other lines above and below. -/
def cursor (above : List Bytes) (left text : Bytes) (below : List Bytes) : ParseContext :=
  ⟨above ++ (left ++ text) :: below, above.length, left.length⟩

namespace ParseContext

variable {above below : List Bytes} {left text rest : Bytes}

@[simp] theorem cursor_currentLine : (cursor above left text below).currentLine = left ++ text := by
  simp [cursor, currentLine]

@[simp] theorem cursor_atEndOfDocument : (cursor above left text below).atEndOfDocument = false := by
  simp [cursor, atEndOfDocument]

@[simp] theorem cursor_atEndOfLine : (cursor above left text below).atEndOfLine = decide (text = []) := by
  simp [atEndOfLine, cursor_currentLine, cursor_atEndOfDocument]
  simp [cursor]

@[simp] theorem cursor_remainingLine : (cursor above left text below).remainingLine = text := by
  unfold remainingLine
  rw [cursor_atEndOfLine, cursor_currentLine]
  split
  · next h => simpa using h.symm
  · exact List.drop_left

theorem cursor_consume (text rest : Bytes) :
    (cursor above left (text ++ rest) below).consume text.length = cursor above (left ++ text) rest below := by
  simp [cursor, consume]

theorem cursor_consume_cons (c : Char) (rest : Bytes) :
    (cursor above left (c :: rest) below).consume 1 = cursor above (left ++ [c]) rest below :=
  cursor_consume [c] rest

theorem cursor_startsWith (sv : Bytes) :
    (cursor above left text below).startsWith sv = (!decide (text = []) && sv.isPrefixOf text) := by
  rw [startsWith, cursor_atEndOfLine, cursor_remainingLine]

theorem cursor_startsWith_cons (c : Char) :
    (cursor above left text below).startsWith [c] = text.head?.any (· = c) := by
  rw [cursor_startsWith]
  cases text with
  | nil => rfl
  | cons c' text =>
    have hstarts : [c].isPrefixOf (c' :: text) = decide (c' = c) := by
      rw [Bool.eq_iff_iff, decide_eq_true_iff, List.isPrefixOf_iff_prefix, List.cons_prefix_cons]
      exact ⟨fun h => h.1.symm, fun h => ⟨h.symm, List.nil_prefix⟩⟩
    simp [hstarts]

theorem cursor_startsWith_ne {c : Char} {sv : Bytes} (h : text.head? ≠ some c) :
    (cursor above left text below).startsWith (c :: sv) = false := by
  rw [cursor_startsWith]
  cases text with
  | nil => rfl
  | cons c' text =>
    have hne : c ≠ c' := fun heq => h (by rw [heq]; rfl)
    simp [List.isPrefixOf, hne]

theorem cursor_startsWithToken (c : Char) (htext : rest.head?.all isspace = true) :
    (cursor above left (c :: rest) below).startsWithToken [c] = true := by
  rw [startsWithToken, cursor_startsWith_cons, cursor_remainingLine]
  simpa using htext

/-- Spaces are passed. -/
theorem cursor_consumeSpaces (n : Nat) (htext : text.head? ≠ some ' ') :
    (cursor above left (List.replicate n ' ' ++ text) below).consumeSpaces =
      cursor above (left ++ List.replicate n ' ') text below := by
  have htake : ((List.replicate n ' ' ++ text).takeWhile (· = ' ')).length = n := by
    have hnone : text.takeWhile (fun c => decide (c = ' ')) = [] := by
      cases text with
      | nil => rfl
      | cons c text => simpa using htext
    rw [List.takeWhile_append_of_pos (by simp), hnone]
    simp
  rw [consumeSpaces, cursor_remainingLine, htake]
  have hconsume := @cursor_consume above below left (List.replicate n ' ') text
  rwa [List.length_replicate] at hconsume

theorem cursor_consumeSpaces_none (htext : text.head? ≠ some ' ') :
    (cursor above left text below).consumeSpaces = cursor above left text below := by
  have h := @cursor_consumeSpaces above below left _ 0 htext
  simpa using h

end ParseContext

end GnuRadio.Yaml

/-! The lines of a text, and the steps of the cursor from line to line. -/

namespace GnuRadio.Yaml

/-! ### Lines and texts -/

/-- The text of the lines, each with its newline. -/
def joinLines (lines : List Bytes) : Bytes := lines.flatMap (· ++ ['\n'])

@[simp] theorem joinLines_nil : joinLines [] = [] := rfl

@[simp] theorem joinLines_cons (line : Bytes) (lines : List Bytes) :
    joinLines (line :: lines) = line ++ '\n' :: joinLines lines := by
  simp [joinLines]

@[simp] theorem joinLines_append (lines lines' : List Bytes) :
    joinLines (lines ++ lines') = joinLines lines ++ joinLines lines' := by
  simp [joinLines]

/-- A text is some lines and what is behind the last newline. -/
theorem exists_lines (s : Bytes) :
    ∃ lines last, s = joinLines lines ++ last ∧ '\n' ∉ last ∧ ∀ line ∈ lines, '\n' ∉ line := by
  induction s with
  | nil => exact ⟨[], [], rfl, by simp, by simp⟩
  | cons c s ih =>
    obtain ⟨lines, last, rfl, hlast, hlines⟩ := ih
    by_cases hc : c = '\n'
    · exact ⟨[] :: lines, last, by simp [hc], hlast, by simpa using hlines⟩
    · have hne : ¬ '\n' = c := fun h => hc h.symm
      cases lines with
      | nil => exact ⟨[], c :: last, rfl, by simp [hne, hlast], by simp⟩
      | cons line lines =>
        have hline := hlines line (.head _)
        refine ⟨(c :: line) :: lines, last, by simp, hlast, ?_⟩
        simpa [hne, hline] using fun line' h => hlines line' (List.mem_cons_of_mem _ h)

theorem splitOnP_lines {lines : List Bytes} {last : Bytes} (hlast : '\n' ∉ last) (hlines : ∀ line ∈ lines, '\n' ∉ line) :
    (joinLines lines ++ last).splitOnP (fun c => decide (c = '\n')) = lines ++ [last] := by
  have hnone : ∀ {line : Bytes}, '\n' ∉ line → ∀ c ∈ line, decide (c = '\n') = false := by
    intro line hline c hc
    rw [decide_eq_false_iff_not]
    rintro rfl
    exact hline hc
  induction lines with
  | nil => exact List.splitOnP_eq_singleton (hnone hlast)
  | cons line lines ih =>
    obtain ⟨hline, hrest⟩ := List.forall_mem_cons.mp hlines
    rw [joinLines_cons, List.append_assoc, List.cons_append,
      List.splitOnP_append_cons_of_forall_mem (hnone hline) '\n' rfl, ih hrest, List.cons_append]

theorem split_lines {lines : List Bytes} {last : Bytes} (hlast : '\n' ∉ last) (hlines : ∀ line ∈ lines, '\n' ∉ line) :
    split '\n' (joinLines lines ++ last) = if last = [] then lines else lines ++ [last] := by
  unfold split
  rw [splitOnP_lines hlast hlines]
  simp

theorem documentLines_joinLines {lines : List Bytes} (h : ∀ line ∈ lines, '\n' ∉ line)
    (hreturn : ∀ line ∈ lines, line.getLast? ≠ some '\r') : documentLines (joinLines lines) = lines := by
  have hsplit : split '\n' (joinLines lines) = lines := by
    have hlines := @split_lines _ [] (by simp) h
    simpa using hlines
  rw [documentLines, hsplit]
  conv_rhs => rw [← List.map_id lines]
  exact List.map_congr_left fun line hline => if_neg (hreturn line hline)

/-! ### The cursor -/

namespace ParseContext

variable {above below : List Bytes} {left text line : Bytes} {ctx : ParseContext}

/-- Spaces and lines without text, one line at a time. -/
theorem consumeWhitespaceAndComments_of_lt (h : ctx.lineIdx < ctx.lines.length) :
    ctx.consumeWhitespaceAndComments =
      if ctx.consumeSpaces.remainingLine.head?.any (· ≠ '#') then ctx.consumeSpaces
      else ctx.consumeSpaces.skipToNextLine.consumeWhitespaceAndComments := by
  have hnot : ctx.atEndOfDocument = false := by
    rw [atEndOfDocument, decide_eq_false_iff_not]
    omega
  obtain ⟨n, hn⟩ : ∃ n, ctx.lines.length - ctx.lineIdx = n + 1 := ⟨ctx.lines.length - ctx.lineIdx - 1, by omega⟩
  have hnext : ctx.consumeSpaces.skipToNextLine.lines.length - ctx.consumeSpaces.skipToNextLine.lineIdx = n := by
    have hskip : ctx.consumeSpaces.skipToNextLine = ⟨ctx.lines, ctx.lineIdx + 1, 0⟩ := if_pos h
    rw [hskip]
    simp only
    omega
  rw [consumeWhitespaceAndComments, consumeWhitespaceAndComments, hn, hnext, consumeLines, hnot]
  simp only [Bool.false_eq_true, if_false]

theorem cursor_lt : (cursor above left text below).lineIdx < (cursor above left text below).lines.length := by
  simp [cursor]

/-- The cursor at the beginning of a line, or behind the last one. -/
def atLine (above below : List Bytes) : ParseContext := ⟨above ++ below, above.length, 0⟩

theorem atLine_cons : atLine above (line :: below) = cursor above [] line below := rfl

theorem atLine_nil : atLine above [] = ⟨above, above.length, 0⟩ := by rw [atLine, List.append_nil]

@[simp] theorem atLine_nil_atEndOfDocument : (atLine above []).atEndOfDocument = true := by
  rw [atLine_nil]
  exact decide_eq_true rfl

theorem cursor_skipToNextLine :
    (cursor above left text below).skipToNextLine = atLine (above ++ [left ++ text]) below := by
  rw [skipToNextLine, if_pos cursor_lt]
  simp [cursor, atLine]

/-- Text stays. -/
theorem cursor_consumeWhitespaceAndComments {c : Char} (n : Nat) (hspace : c ≠ ' ') (hhash : c ≠ '#') :
    (cursor above left (List.replicate n ' ' ++ c :: text) below).consumeWhitespaceAndComments =
      cursor above (left ++ List.replicate n ' ') (c :: text) below := by
  rw [consumeWhitespaceAndComments_of_lt cursor_lt, cursor_consumeSpaces n (by simpa using hspace), cursor_remainingLine,
    if_pos (by simpa using hhash)]

theorem cursor_consumeWhitespaceAndComments_stay {c : Char} (hspace : c ≠ ' ') (hhash : c ≠ '#') :
    (cursor above left (c :: text) below).consumeWhitespaceAndComments = cursor above left (c :: text) below := by
  have h := @cursor_consumeWhitespaceAndComments above below left text c 0 hspace hhash
  simpa using h

/-- A line without text is passed. -/
theorem cursor_consumeWhitespaceAndComments_blank (n : Nat) :
    (cursor above left (List.replicate n ' ') (line :: below)).consumeWhitespaceAndComments =
      (cursor (above ++ [left ++ List.replicate n ' ']) [] line below).consumeWhitespaceAndComments := by
  have hspaces := @cursor_consumeSpaces above (line :: below) left [] n (by simp)
  rw [List.append_nil] at hspaces
  rw [consumeWhitespaceAndComments_of_lt cursor_lt, hspaces, cursor_remainingLine, if_neg (by simp), cursor_skipToNextLine,
    List.append_nil, atLine_cons]

theorem cursor_currentIndent {indentChars : Bytes} (n : Nat) {c : Char} (hspace : ' ' ∈ indentChars) (hc : c ∉ indentChars)
    (h : left ++ text = List.replicate n ' ' ++ c :: line) :
    (cursor above left text below).currentIndent indentChars = some n := by
  rw [currentIndent, cursor_currentLine, h, List.findIdx?_append]
  have hnone : (List.replicate n ' ').findIdx? (fun c => decide (c ∉ indentChars)) = none := by
    rw [List.findIdx?_eq_none_iff]
    intro c hc
    rw [List.eq_of_mem_replicate hc]
    simpa using hspace
  rw [hnone, List.findIdx?_cons]
  simp [hc]

end ParseContext

/-- The numbers of a document in which no text is one. -/
def noFloats : FloatFormat Unit := ⟨(), (), (), fun _ _ => .error ("std::invalid_argument", "stod")⟩

end GnuRadio.Yaml
