import GnuRadio.Theorems.Yaml.Text

/-! The strings that the parser reads back as the writer writes them. -/

namespace GnuRadio.Yaml

open Fallible ParseContext

variable {s raw result line : Bytes} {above below : List Bytes} {left : Bytes}

/-- The text has an escape that a block literal resolves, or rejects. -/
def hasEscape : Bytes → Bool
  | '\\' :: 'u' :: _ => true
  | '\\' :: 'x' :: high :: low :: rest => (hexValue high).isSome || hasEscape (high :: low :: rest)
  | '\\' :: c :: rest => c = '0' || hasEscape rest
  | _ :: rest => hasEscape rest
  | [] => false

/-- A string that is written with quotes, or one whose lines have no escapes and are not made of spaces. -/
def Survives (s : Bytes) : Prop :=
  isMultiline s = false ∨ ∀ line ∈ getlines s, (line.all (· = ' ') = true → line = []) ∧ hasEscape line = false

instance (s : Bytes) : Decidable (Survives s) := inferInstanceAs (Decidable (_ ∨ _))

/-! ### Lines of a block literal -/

theorem Resolves.eq_of_length {quoted : Bool} (h : Resolves quoted raw result) (hlength : result.length = raw.length) :
    result = raw := by
  induction h with
  | nil => rfl
  | cons c _ ih => rw [ih (Nat.succ.inj hlength)]
  | byte _ h _ | hex _ h _ =>
    have hle := h.length_le
    simp only [List.length_cons] at hlength
    omega

theorem escapedByte_multiline (c : Char) : escapedByte false c = if c = '0' then some (Char.ofNat 0) else none := rfl

theorem hasEscape_cons {c : Char} (hc : c ≠ '\\') (rest : Bytes) : hasEscape (c :: rest) = hasEscape rest := by
  rw [hasEscape]
  all_goals simp [hc]

theorem resolve_of_not_hasEscape (i : Nat) (h : hasEscape raw = false) : resolveYamlEscapes false i raw = .ok raw := by
  fun_induction resolveYamlEscapes false i raw with
  | case1 => rfl
  | case2 => rfl
  | case3 => cases h
  | case4 i high low rest byte hbyte ih =>
    obtain ⟨n, hn, -⟩ := Option.map_eq_some_iff.mp hbyte
    simp [hasEscape, hn] at h
  | case5 i high low rest hnone ih =>
    rw [hasEscape, Bool.or_eq_false_iff] at h
    rw [ih h.2]
    rfl
  | case6 i c rest hu hx byte hbyte ih =>
    rw [escapedByte_multiline] at hbyte
    split at hbyte
    · next hc =>
      rw [hasEscape] at h
      · simp [hc] at h
      all_goals assumption
    · cases hbyte
  | case7 i c rest hu hx hnone ih =>
    rw [hasEscape, Bool.or_eq_false_iff] at h
    · rw [ih h.2]
      rfl
    all_goals assumption
  | case8 i c c' rest hu hx hslash ih =>
    rw [hasEscape_cons hslash] at h
    rw [ih h]
    rfl

/-- An escape is longer than its byte. -/
theorem shorter_of_hasEscape {i : Nat} (hresolve : resolveYamlEscapes false i raw = .ok result) (h : hasEscape raw = true) :
    result.length < raw.length := by
  fun_induction resolveYamlEscapes false i raw generalizing result with
  | case1 => cases h
  | case2 i c =>
    by_cases hc : c = '\\'
    · rw [hc] at h
      cases h
    · rw [hasEscape_cons hc] at h
      cases h
  | case3 => cases hresolve
  | case4 i high low rest byte hbyte ih =>
    obtain ⟨r, hr, rfl⟩ := map_eq_ok hresolve
    have hle := (resolves hr).length_le
    simp only [List.length_cons]
    omega
  | case5 i high low rest hnone ih =>
    have hhigh : hexValue high = none := Option.map_eq_none_iff.mp hnone
    obtain ⟨r, hr, rfl⟩ := map_eq_ok hresolve
    rw [hasEscape, hhigh, Option.isSome_none, Bool.false_or] at h
    exact Nat.succ_lt_succ (Nat.succ_lt_succ (ih hr h))
  | case6 i c rest hu hx byte hbyte ih =>
    obtain ⟨r, hr, rfl⟩ := map_eq_ok hresolve
    have hle := (resolves hr).length_le
    simp only [List.length_cons]
    omega
  | case7 i c rest hu hx hnone ih =>
    obtain ⟨r, hr, rfl⟩ := map_eq_ok hresolve
    have hc : c ≠ '0' := by
      rintro rfl
      cases hnone
    rw [hasEscape, decide_eq_false hc, Bool.false_or] at h
    · exact Nat.succ_lt_succ (Nat.succ_lt_succ (ih hr h))
    all_goals assumption
  | case8 i c c' rest hu hx hslash ih =>
    obtain ⟨r, hr, rfl⟩ := map_eq_ok hresolve
    rw [hasEscape_cons hslash] at h
    exact Nat.succ_lt_succ (ih hr h)

/-- What a line of a block literal is read as. -/
def resolveLine (line : Bytes) : Except ValueParseError Bytes :=
  if line.all (· = ' ') then .ok [] else resolveYamlEscapes_multiline line

theorem resolveLine_length_le (h : resolveLine line = .ok result) : result.length ≤ line.length := by
  unfold resolveLine at h
  split at h
  · cases h
    exact Nat.zero_le _
  · exact (resolves h).length_le

theorem resolveLine_eq_of_length (h : resolveLine line = .ok result) (hlength : result.length = line.length) :
    result = line := by
  unfold resolveLine at h
  split at h
  · cases h
    exact (List.eq_nil_of_length_eq_zero hlength.symm).symm
  · exact (resolves h).eq_of_length hlength

/-- A line is read as it is exactly when it has no escapes and is not made of spaces. -/
theorem resolveLine_eq_self_iff :
    resolveLine line = .ok line ↔ (line.all (· = ' ') = true → line = []) ∧ hasEscape line = false := by
  unfold resolveLine
  split
  · next hblank =>
    constructor
    · intro h
      have hnil : [] = line := Except.ok.inj h
      exact ⟨fun _ => hnil.symm, hnil ▸ rfl⟩
    · rintro ⟨h, -⟩
      rw [h hblank]
  · next htext =>
    constructor
    · intro h
      refine ⟨fun hblank => absurd hblank htext, ?_⟩
      rw [← Bool.not_eq_true]
      exact fun hescape => Nat.lt_irrefl _ (shorter_of_hasEscape h hescape)
    · exact fun h => resolve_of_not_hasEscape 0 h.2

/-- The lines as they are read. -/
abbrev ResolvedLines : List Bytes → List Bytes → Prop := List.Forall₂ fun line result => resolveLine line = .ok result

theorem ResolvedLines.length_le {lines results : List Bytes} (h : ResolvedLines lines results) :
    (joinLines results).length ≤ (joinLines lines).length := by
  induction h with
  | nil => exact le_rfl
  | cons hline _ ih =>
    have hle := resolveLine_length_le hline
    simp only [joinLines_cons, List.length_append, List.length_cons]
    omega

theorem ResolvedLines.eq_of_length {lines results : List Bytes} (h : ResolvedLines lines results)
    (hlength : (joinLines results).length = (joinLines lines).length) : results = lines := by
  induction h with
  | nil => rfl
  | cons hline hrest ih =>
    have hle := resolveLine_length_le hline
    have hle' := ResolvedLines.length_le hrest
    simp only [joinLines_cons, List.length_append, List.length_cons] at hlength
    rw [resolveLine_eq_of_length hline (by omega), ih (by omega)]

theorem resolvedLines_self_iff {lines : List Bytes} :
    ResolvedLines lines lines ↔ ∀ line ∈ lines, (line.all (· = ' ') = true → line = []) ∧ hasEscape line = false := by
  rw [ResolvedLines, List.forall₂_same]
  simp only [resolveLine_eq_self_iff]

/-! ### The loop over the lines -/

/-- A line of a block literal, `k` deep. -/
def indented (k : Nat) (line : Bytes) : Bytes := List.replicate k ' ' ++ line

theorem currentIndent_blank {k : Nat} (h : line.all (· = ' ') = true) :
    (cursor above [] (indented k line) below).currentIndent [' '] = none := by
  have hline : ∀ c ∈ line, c = ' ' := by simpa using h
  rw [currentIndent, cursor_currentLine, List.findIdx?_eq_none_iff]
  intro c hc
  have hspace : c = ' ' := by
    rcases List.mem_append.mp hc with hc | hc
    · cases hc
    · rcases List.mem_append.mp hc with hc | hc
      · exact List.eq_of_mem_replicate hc
      · exact hline c hc
  simp [hspace]

theorem currentIndent_text {k : Nat} (h : ¬ line.all (· = ' ') = true) :
    ∃ n, (cursor above [] (indented k line) below).currentIndent [' '] = some n ∧ k ≤ n := by
  obtain ⟨n, tail, rfl, htail⟩ := exists_spaces line
  cases tail with
  | nil => exact absurd (by simp) h
  | cons c tail =>
    have hc : c ≠ ' ' := by simpa using htail
    have htext : [] ++ indented k (List.replicate n ' ' ++ c :: tail) = List.replicate (k + n) ' ' ++ c :: tail := by
      rw [indented, List.nil_append, ← List.append_assoc, List.replicate_append_replicate]
    exact ⟨k + n, cursor_currentIndent (k + n) (by simp) (by simpa using hc) htext, Nat.le_add_right k n⟩

theorem cursor_consume_indented (k : Nat) (line : Bytes) :
    (cursor above [] (indented k line) below).consume k = cursor above (List.replicate k ' ') line below := by
  have hspaces := @cursor_consume above below [] (List.replicate k ' ') line
  rwa [List.length_replicate] at hspaces

/-- A line that is read. -/
theorem literalLines_ok {k n : Nat} {first : Bool} (h : resolveLine line = .ok result) :
    ∃ first', literalLines '|' k (n + 1) first (cursor above [] (indented k line) below) =
      (literalLines '|' k n first' (atLine (above ++ [indented k line]) below)).map fun p => (result ++ '\n' :: p.1, p.2) := by
  unfold resolveLine at h
  split at h
  · next hblank =>
    cases h
    refine ⟨first, ?_⟩
    rw [literalLines, cursor_atEndOfDocument, if_neg Bool.false_ne_true, currentIndent_blank hblank, cursor_skipToNextLine]
    rfl
  · next htext =>
    obtain ⟨m, hindent, hle⟩ := @currentIndent_text _ above below k htext
    have hline : (cursor above (List.replicate k ' ') line below).consume line.length =
        cursor above (indented k line) [] below := by
      have htext := @cursor_consume above below (List.replicate k ' ') line []
      rwa [List.append_nil] at htext
    refine ⟨false, ?_⟩
    rw [literalLines, cursor_atEndOfDocument, if_neg Bool.false_ne_true, hindent]
    dsimp only
    rw [if_neg (Nat.not_lt.mpr hle), cursor_consume_indented, cursor_remainingLine, h]
    dsimp only
    rw [hline, cursor_skipToNextLine, List.append_nil]
    simp

/-- A line that is rejected. -/
theorem literalLines_error {k n : Nat} {first : Bool} {error : ValueParseError} (h : resolveLine line = .error error) :
    ∃ error', literalLines '|' k (n + 1) first (cursor above [] (indented k line) below) = .error error' := by
  unfold resolveLine at h
  split at h
  · cases h
  · next htext =>
    obtain ⟨m, hindent, hle⟩ := @currentIndent_text _ above below k htext
    refine ⟨(cursor above (List.replicate k ' ') line below).makeErrorAt error, ?_⟩
    rw [literalLines, cursor_atEndOfDocument, if_neg Bool.false_ne_true, hindent]
    dsimp only
    rw [if_neg (Nat.not_lt.mpr hle), cursor_consume_indented, cursor_remainingLine, h]

/-- The lines of a block literal are read one by one, up to the line that ends it. -/
theorem literalLines_eq_ok_iff {k m : Nat} {first : Bool} {lines : List Bytes} {text : Bytes} {ctx : ParseContext}
    (hend : ∀ first above, literalLines '|' k m first (atLine above below) = .ok ([], atLine above below)) :
    literalLines '|' k (lines.length + m) first (atLine above (lines.map (indented k) ++ below)) = .ok (text, ctx) ↔
      ∃ results, ResolvedLines lines results ∧ text = joinLines results ∧
        ctx = atLine (above ++ lines.map (indented k)) below := by
  induction lines generalizing first above text with
  | nil =>
    rw [List.length_nil, Nat.zero_add, List.map_nil, List.nil_append, List.append_nil, hend]
    constructor
    · intro h
      cases h
      exact ⟨[], .nil, rfl, rfl⟩
    · rintro ⟨results, hresults, rfl, rfl⟩
      cases hresults
      rfl
  | cons line lines ih =>
    have habove : above ++ (line :: lines).map (indented k) = above ++ [indented k line] ++ lines.map (indented k) := by simp
    rw [List.length_cons, Nat.add_right_comm, List.map_cons, List.cons_append, atLine_cons, ← List.map_cons, habove]
    cases hline : resolveLine line with
    | error error =>
      obtain ⟨error', herror⟩ := @literalLines_error _ above (lines.map (indented k) ++ below) k (lines.length + m) first _ hline
      rw [herror]
      refine iff_of_false (by simp) ?_
      rintro ⟨results, hresults, -⟩
      cases hresults with
      | cons hok _ =>
        rw [hline] at hok
        cases hok
    | ok result =>
      obtain ⟨first', hstep⟩ := @literalLines_ok _ _ above (lines.map (indented k) ++ below) k (lines.length + m) first hline
      rw [hstep]
      constructor
      · intro h
        obtain ⟨⟨text', ctx'⟩, hrest, heq⟩ := map_eq_ok h
        cases heq
        obtain ⟨results, hresults, rfl, rfl⟩ := ih.mp hrest
        exact ⟨result :: results, .cons hline hresults, (joinLines_cons result results).symm, rfl⟩
      · rintro ⟨results, hresults, rfl, rfl⟩
        cases hresults with
        | @cons _ result' _ results hok hrest =>
          rw [hline] at hok
          cases hok
          rw [ih.mpr ⟨results, hrest, rfl, rfl⟩, joinLines_cons]
          rfl

/-! ### The text of a string -/

/-- The text of a string in the line of its key. -/
def stringHead (s : Bytes) : Bytes :=
  if isMultiline s then (if s.getLast? = some '\n' then ['|'] else ['|', '-'])
  else '"' :: escapeString s true ++ ['"']

/-- The lines of a string below the line of its key. -/
def stringLines (level : Nat) (s : Bytes) : List Bytes :=
  if isMultiline s then (getlines s).map (indented (2 * level + 2)) else []

theorem escapeChar_isprint {c : Char} (h : isprint c = true) : escapeChar false c = [c] := by
  have hcntrl := isprint_of_not_iscntrl h
  have hback : c.toNat ≠ 8 := by
    simp only [isprint, Bool.and_eq_true, decide_eq_true_eq] at h
    omega
  simp [escapeChar, hcntrl, hback]

theorem escapeString_isprint (h : ∀ c ∈ line, isprint c = true) : escapeString line false = line := by
  induction line with
  | nil => rfl
  | cons c line ih =>
    obtain ⟨hc, hline⟩ := List.forall_mem_cons.mp h
    have hcons : escapeString (c :: line) false = escapeChar false c ++ escapeString line false := List.flatMap_cons
    rw [hcons, escapeChar_isprint hc, ih hline, List.singleton_append]

/-- A string is its lines, but for a last newline. -/
theorem getlines_spec (s : Bytes) :
    (∀ line ∈ getlines s, '\n' ∉ line) ∧
      if s = [] ∨ s.getLast? = some '\n' then joinLines (getlines s) = s else joinLines (getlines s) = s ++ ['\n'] := by
  obtain ⟨lines, last, rfl, hlast, hlines⟩ := exists_lines s
  rw [getlines, split_lines hlast hlines]
  by_cases hnil : last = []
  · subst hnil
    rw [if_pos rfl, List.append_nil]
    refine ⟨hlines, ?_⟩
    rw [if_pos]
    rcases List.eq_nil_or_concat lines with rfl | ⟨lines, line, rfl⟩
    · exact Or.inl rfl
    · exact Or.inr (by simp)
  · have hend : ¬ (joinLines lines ++ last = [] ∨ (joinLines lines ++ last).getLast? = some '\n') := by
      rintro (h | h)
      · exact hnil (List.append_eq_nil_iff.mp h).2
      · rw [List.getLast?_append_of_ne_nil _ hnil] at h
        exact hlast (List.mem_of_mem_getLast? h)
    rw [if_neg hnil, if_neg hend]
    refine ⟨?_, by simp⟩
    intro line hline
    rcases List.mem_append.mp hline with h | h
    · exact hlines line h
    · rwa [List.mem_singleton.mp h]

theorem mem_joinLines {c : Char} {lines : List Bytes} : c ∈ joinLines lines ↔ ∃ line ∈ lines, c ∈ line ∨ c = '\n' := by
  simp [joinLines]

/-- The bytes of the lines of a string are bytes of the string. -/
theorem mem_of_mem_getlines {c : Char} (hline : line ∈ getlines s) (hc : c ∈ line) : c ∈ s := by
  obtain ⟨hnone, hjoin⟩ := getlines_spec s
  have hmem : c ∈ joinLines (getlines s) := mem_joinLines.mpr ⟨line, hline, Or.inl hc⟩
  split at hjoin
  · rwa [hjoin] at hmem
  · rw [hjoin, List.mem_append, List.mem_singleton] at hmem
    exact hmem.resolve_right fun h => hnone line hline (h ▸ hc)

theorem serializeString_eq (level : Nat) (s : Bytes) :
    serializeString .auto s level (isMultiline s) = joinLines (stringHead s :: stringLines level s) := by
  unfold serializeString stringHead stringLines
  cases hmulti : isMultiline s with
  | false => simp
  | true =>
    have hprint : ∀ line ∈ getlines s, escapeString line false = line := by
      intro line hline
      refine escapeString_isprint fun c hc => ?_
      rw [isMultiline, Bool.and_eq_true, List.all_eq_true] at hmulti
      have hor := hmulti.2 c (mem_of_mem_getlines hline hc)
      rw [Bool.or_eq_true, decide_eq_true_iff] at hor
      exact hor.resolve_right fun h => (getlines_spec s).1 line hline (h ▸ hc)
    have hlines : (getlines s).flatMap (fun line => indentation (level + 1) ++ escapeString line false ++ ['\n']) =
        joinLines ((getlines s).map (indented (2 * level + 2))) := by
      rw [joinLines, List.flatMap_map]
      refine List.flatMap_congr fun line hline => ?_
      rw [hprint line hline]
      rfl
    simp only [if_true, joinLines_cons, hlines]

/-! ### Trailing newlines -/

theorem chompText_keep (text : Bytes) : chompText '|' true text = text := rfl

theorem chompText_strip (text : Bytes) : chompText '|' false text = text.rdropWhile (· = '\n') := rfl

theorem chompText_strip_newline (text : Bytes) : chompText '|' false (text ++ ['\n']) = chompText '|' false text := by
  rw [chompText_strip, chompText_strip, List.rdropWhile_concat_pos _ _ _ (by decide)]

theorem chompText_strip_length_le (text : Bytes) : (chompText '|' false text).length ≤ text.length := by
  rw [chompText_strip]
  exact (List.rdropWhile_prefix _ _).length_le

theorem chompText_strip_self (h : s.getLast? ≠ some '\n') : chompText '|' false s = s := by
  rw [chompText_strip, rdropWhile_eq_self_iff]
  intro c hc
  rw [decide_eq_false_iff_not]
  rintro rfl
  exact h hc

/-- The lines make the string exactly when each of them is read as it is. -/
theorem chompText_resolved_iff (hne : s ≠ []) :
    (∃ results, ResolvedLines (getlines s) results ∧ chompText '|' (s.getLast? = some '\n') (joinLines results) = s) ↔
      ∀ line ∈ getlines s, (line.all (· = ' ') = true → line = []) ∧ hasEscape line = false := by
  obtain ⟨-, hjoin⟩ := getlines_spec s
  rw [← resolvedLines_self_iff]
  by_cases hlast : s.getLast? = some '\n'
  · rw [if_pos (Or.inr hlast)] at hjoin
    rw [decide_eq_true hlast]
    constructor
    · rintro ⟨results, hresults, htext⟩
      rw [chompText_keep] at htext
      have hsame := hresults.eq_of_length (by rw [htext, hjoin])
      rwa [hsame] at hresults
    · exact fun h => ⟨getlines s, h, by rw [chompText_keep, hjoin]⟩
  · rw [if_neg (not_or.mpr ⟨hne, hlast⟩)] at hjoin
    rw [decide_eq_false hlast]
    constructor
    · rintro ⟨results, hresults, htext⟩
      have hle := hresults.length_le
      have hlength : s.length + 1 ≤ (joinLines results).length := by
        rcases List.eq_nil_or_concat results with rfl | ⟨results', result, rfl⟩
        · exact absurd htext.symm hne
        · rw [List.concat_eq_append, joinLines_append, joinLines_cons, joinLines_nil] at htext ⊢
          have hshort := chompText_strip_length_le (joinLines results' ++ result)
          rw [← chompText_strip_newline, List.append_assoc, htext] at hshort
          simp only [List.length_append, List.length_cons, List.length_nil] at hshort ⊢
          omega
      rw [hjoin, List.length_append, List.length_singleton] at hle
      have hsame := hresults.eq_of_length (by
        rw [hjoin, List.length_append, List.length_singleton]
        omega)
      rwa [hsame] at hresults
    · intro h
      refine ⟨getlines s, h, ?_⟩
      rw [hjoin, chompText_strip_newline, chompText_strip_self hlast]

/-! ### Reading a string -/

section
variable {F : Type} (floats : FloatFormat F)

theorem parseScalar_quoted (s : Bytes) (level : Nat) :
    parseScalar floats (cursor above left ('"' :: escapeString s true ++ ['"']) below) none level =
      .ok (.string s, atLine (above ++ [left ++ ('"' :: escapeString s true ++ ['"'])]) below) := by
  have hcomments : (cursor above left ('"' :: escapeString s true ++ ['"']) below).consumeWhitespaceAndComments =
      cursor above left ('"' :: escapeString s true ++ ['"']) below :=
    cursor_consumeWhitespaceAndComments_stay (by decide) (by decide)
  have hfind := findString_quoted s [] []
  have hconsume : (cursor above left ('"' :: escapeString s true ++ ['"']) below).consume 1 =
      cursor above (left ++ ['"']) (escapeString s true ++ ['"']) below := cursor_consume_cons _ _
  have hbehind : (cursor above (left ++ ['"']) (escapeString s true ++ ['"']) below).consume
      (1 + (escapeString s true).length) = cursor above (left ++ ('"' :: escapeString s true ++ ['"'])) [] below := by
    have h := @cursor_consume above below (left ++ ['"']) (escapeString s true ++ ['"']) []
    rw [List.append_nil, List.length_append, List.length_singleton, Nat.add_comm] at h
    rw [h]
    simp
  have hplain : parsePlainScalar floats (cursor above left ('"' :: escapeString s true ++ ['"']) below) none [] =
      .ok (.string s, cursor above (left ++ ('"' :: escapeString s true ++ ['"'])) [] below) := by
    unfold parsePlainScalar parseNextString
    dsimp only
    rw [cursor_remainingLine, hfind]
    dsimp only
    rw [hconsume, cursor_remainingLine, List.take_left, if_pos Nat.one_pos, resolveYamlEscapes_quoted,
      resolveYamlEscapes_escapeString, hbehind]
    rfl
  have hspaces : (cursor above (left ++ ('"' :: escapeString s true ++ ['"'])) [] below).consumeSpaces =
      cursor above (left ++ ('"' :: escapeString s true ++ ['"'])) [] below := cursor_consumeSpaces_none (by simp)
  unfold parseScalar
  dsimp only
  rw [hcomments, cursor_atEndOfDocument, cursor_startsWith_cons, cursor_startsWith_cons, hplain, if_neg Bool.false_ne_true,
    if_neg fun h => Nat.lt_irrefl _ h.1, if_neg (by simp), if_neg (by simp)]
  dsimp only [Bind.bind, Except.bind]
  rw [hspaces, cursor_atEndOfLine, if_neg (by simp), cursor_skipToNextLine, List.append_nil]

/-- A block literal is read from the line below its indicator on. -/
theorem parseScalar_block (dash : Bytes) (hdash : dash = [] ∨ dash = ['-']) (level : Nat) :
    parseScalar floats (cursor above left ('|' :: dash) below) none level =
      (literalLines '|' (level + 2) below.length true (atLine (above ++ [left ++ '|' :: dash]) below)).map
        fun p => (.string (chompText '|' (dash = []) p.1), p.2.consumeSpaces) := by
  have hcomments : (cursor above left ('|' :: dash) below).consumeWhitespaceAndComments =
      cursor above left ('|' :: dash) below := cursor_consumeWhitespaceAndComments_stay (by decide) (by decide)
  have hbehind : (if (!(cursor above (left ++ ['|']) dash below).startsWith ['-']) = true
      then cursor above (left ++ ['|']) dash below else (cursor above (left ++ ['|']) dash below).consume 1).consumeSpaces =
        cursor above (left ++ '|' :: dash) [] below := by
    rw [cursor_startsWith_cons]
    rcases hdash with rfl | rfl
    · exact cursor_consumeSpaces_none (by simp)
    · have h := @cursor_consume_cons above below (left ++ ['|']) '-' []
      simp only [List.head?_cons, Option.any_some, decide_true, Bool.not_true, Bool.false_eq_true, if_false]
      rw [h, cursor_consumeSpaces_none (by simp), List.append_assoc]
      rfl
  have hdashed : (!(cursor above (left ++ ['|']) dash below).startsWith ['-']) = decide (dash = []) := by
    rw [cursor_startsWith_cons]
    rcases hdash with rfl | rfl <;> rfl
  have hlength : (atLine (above ++ [left ++ '|' :: dash]) below).lines.length -
      (atLine (above ++ [left ++ '|' :: dash]) below).lineIdx = below.length := by
    simp only [atLine, List.length_append]
    omega
  unfold parseScalar
  dsimp only
  rw [hcomments, cursor_atEndOfDocument, cursor_startsWith_cons, if_neg Bool.false_ne_true,
    if_neg fun h => Nat.lt_irrefl _ h.1, if_pos ⟨Or.inr rfl, by simp⟩, cursor_consume_cons]
  unfold parseBlockScalar
  dsimp only
  rw [hbehind, cursor_remainingLine, if_neg (by simp [findString]), cursor_skipToNextLine, List.append_nil, hlength, hdashed]

/-- What is below a text ends it: nothing, or a line with text that is no deeper than its key. -/
def Outdented (level : Nat) (below : List Bytes) : Prop :=
  ∀ line ∈ below.head?, ∃ n c rest, n ≤ level ∧ c ≠ ' ' ∧ line = List.replicate n ' ' ++ c :: rest

theorem literalLines_outdented {level : Nat} (h : Outdented level below) (m : Nat) (first : Bool) (above : List Bytes) :
    literalLines '|' (level + 2) m first (atLine above below) = .ok ([], atLine above below) := by
  cases m with
  | zero => rfl
  | succ m =>
    cases below with
    | nil => rw [literalLines, atLine_nil_atEndOfDocument, if_pos rfl]
    | cons line below =>
      obtain ⟨n, c, rest, hn, hc, hline⟩ := h line rfl
      have hindent : (cursor above [] line below).currentIndent [' '] = some n :=
        cursor_currentIndent n (by simp) (by simpa using hc) hline
      rw [literalLines, atLine_cons, cursor_atEndOfDocument, if_neg Bool.false_ne_true, hindent]
      exact if_pos (by omega)

/-- The cursor behind a string. -/
def behindString (above : List Bytes) (left : Bytes) (level : Nat) (s : Bytes) (below : List Bytes) : ParseContext :=
  let next := atLine (above ++ (left ++ stringHead s) :: stringLines level s) below
  if isMultiline s then next.consumeSpaces else next

/-- What a string is read as: itself, or its lines as they are resolved. -/
theorem parseScalar_string_iff (s : Bytes) (level : Nat) (hbelow : Outdented (2 * level) below) (value : Value F)
    (ctx : ParseContext) :
    parseScalar floats (cursor above left (stringHead s) (stringLines level s ++ below)) none (2 * level) = .ok (value, ctx) ↔
      ctx = behindString above left level s below ∧
        if isMultiline s then
          ∃ results, ResolvedLines (getlines s) results ∧
            value = .string (chompText '|' (s.getLast? = some '\n') (joinLines results))
        else value = .string s := by
  cases hmulti : isMultiline s with
  | false =>
    have hhead : stringHead s = '"' :: escapeString s true ++ ['"'] := by simp [stringHead, hmulti]
    have hlines : stringLines level s = [] := by simp [stringLines, hmulti]
    have hbehind : behindString above left level s below = atLine (above ++ [left ++ stringHead s]) below := by
      simp [behindString, hlines, hmulti]
    rw [hbehind, hlines, hhead, List.nil_append, parseScalar_quoted, if_neg Bool.false_ne_true]
    constructor
    · intro h
      cases h
      exact ⟨rfl, rfl⟩
    · rintro ⟨rfl, rfl⟩
      rfl
  | true =>
    obtain ⟨dash, hdash, hhead, hchomp⟩ : ∃ dash, (dash = [] ∨ dash = ['-']) ∧ stringHead s = '|' :: dash ∧
        decide (dash = []) = decide (s.getLast? = some '\n') := by
      by_cases hlast : s.getLast? = some '\n'
      · exact ⟨[], Or.inl rfl, by simp [stringHead, hmulti, hlast], by simp [hlast]⟩
      · exact ⟨['-'], Or.inr rfl, by simp [stringHead, hmulti, hlast], by simp [hlast]⟩
    have hlines : stringLines level s = (getlines s).map (indented (2 * level + 2)) := by simp [stringLines, hmulti]
    have hbehind : behindString above left level s below =
        (atLine (above ++ [left ++ stringHead s] ++ stringLines level s) below).consumeSpaces := by
      simp [behindString, hmulti]
    have hread : ∀ text ctx', literalLines '|' (2 * level + 2) (stringLines level s ++ below).length true
        (atLine (above ++ [left ++ stringHead s]) (stringLines level s ++ below)) = .ok (text, ctx') ↔
          ∃ results, ResolvedLines (getlines s) results ∧ text = joinLines results ∧
            ctx' = atLine (above ++ [left ++ stringHead s] ++ stringLines level s) below := by
      intro text ctx'
      rw [hlines, List.length_append, List.length_map]
      exact literalLines_eq_ok_iff (literalLines_outdented hbelow _)
    rw [hbehind, if_pos rfl]
    conv_lhs => rw [hhead, parseScalar_block floats dash hdash, ← hhead, hchomp]
    constructor
    · intro h
      obtain ⟨⟨text, ctx'⟩, htext, heq⟩ := map_eq_ok h
      cases heq
      obtain ⟨results, hresults, rfl, rfl⟩ := (hread text ctx').mp htext
      exact ⟨rfl, results, hresults, rfl⟩
    · rintro ⟨rfl, results, hresults, rfl⟩
      rw [(hread _ _).mpr ⟨results, hresults, rfl, rfl⟩]
      rfl

end

end GnuRadio.Yaml
