import GnuRadio.Theorems.Yaml.Documents

/-! Nested maps with strings are read back exactly when their strings survive. -/

namespace GnuRadio.Yaml

open Fallible ParseContext

variable {F : Type} {above below : List Bytes} {left key s : Bytes} {level fuel : Nat} {ctx : ParseContext}

/-! ### Peeking at what is written -/

theorem stringHead_cases (s : Bytes) :
    stringHead s = ['|'] ∨ stringHead s = ['|', '-'] ∨ stringHead s = '"' :: escapeString s true ++ ['"'] := by
  unfold stringHead
  split
  · split
    · exact Or.inl rfl
    · exact Or.inr (Or.inl rfl)
  · exact Or.inr (Or.inr rfl)

/-- The text of a string is no key. -/
theorem parseKey_stringHead (s : Bytes) :
    (parseKey (cursor above left (stringHead s) below) []).isOk = false := by
  rcases stringHead_cases s with h | h | h
  · have hstay : (cursor above left ['|'] below).consumeSpaces = cursor above left ['|'] below :=
      cursor_consumeSpaces_none (by simp)
    rw [h, parseKey, hstay, cursor_startsWith_ne (by simp), if_neg Bool.false_ne_true, cursor_remainingLine]
    rfl
  · have hstay : (cursor above left ['|', '-'] below).consumeSpaces = cursor above left ['|', '-'] below :=
      cursor_consumeSpaces_none (by simp)
    rw [h, parseKey, hstay, cursor_startsWith_ne (by simp), if_neg Bool.false_ne_true, cursor_remainingLine]
    rfl
  · have hstay : (cursor above left ('"' :: escapeString s true ++ ['"']) below).consumeSpaces =
        cursor above left ('"' :: escapeString s true ++ ['"']) below := cursor_consumeSpaces_none (by simp)
    have hbehind : (cursor above left ('"' :: escapeString s true ++ ['"']) below).consume
        (2 * 1 + (escapeString s true).length) = cursor above (left ++ ('"' :: escapeString s true ++ ['"'])) [] below := by
      have hconsume := @cursor_consume above below left ('"' :: escapeString s true ++ ['"']) []
      have hlength : ('"' :: escapeString s true ++ ['"']).length = 2 * 1 + (escapeString s true).length := by
        simp only [List.length_append, List.length_cons, List.length_nil]
        omega
      rwa [List.append_nil, hlength] at hconsume
    have hspaces : (cursor above (left ++ ('"' :: escapeString s true ++ ['"'])) [] below).consumeSpaces =
        cursor above (left ++ ('"' :: escapeString s true ++ ['"'])) [] below := cursor_consumeSpaces_none (by simp)
    have hinner : (('"' :: escapeString s true ++ ['"']).drop 1).take (escapeString s true).length = escapeString s true :=
      List.take_left
    rw [h, parseKey, hstay]
    dsimp only
    rw [cursor_startsWith_ne (by simp), if_neg Bool.false_ne_true, cursor_remainingLine, findString_quoted]
    dsimp only
    rw [if_pos Nat.one_pos, hinner, resolveYamlEscapes_quoted, resolveYamlEscapes_escapeString]
    dsimp only
    rw [hbehind, hspaces, startsWithToken, cursor_startsWith_ne (by simp), Bool.false_and, if_neg Bool.false_ne_true]
    rfl

theorem stringHead_cons (s : Bytes) : ∃ c tail, stringHead s = c :: tail ∧ c ≠ ' ' ∧ c ≠ '#' ∧ c ≠ '[' ∧ c ≠ '{' ∧ c ≠ '-' ∧ c ≠ '!' := by
  rcases stringHead_cases s with h | h | h
  · exact ⟨'|', [], h, by decide⟩
  · exact ⟨'|', ['-'], h, by decide⟩
  · exact ⟨'"', _, h, by decide⟩

theorem peek_string (s : Bytes) (lineIndent : Nat) :
    peekToFindValueType (cursor above left (stringHead s) below) lineIndent = .scalar := by
  have hkey := @parseKey_stringHead above below left s
  obtain ⟨c, tail, htext, hspace, hhash, hbracket, hbrace, hdash, -⟩ := stringHead_cons s
  rw [htext] at hkey ⊢
  have hdashes : ¬ ((cursor above left (c :: tail) below).startsWith ['['] = true ∨
      (cursor above left (c :: tail) below).startsWith ['-', ' '] = true ∨
        (cursor above left (c :: tail) below).remainingLine = ['-']) := by
    rw [cursor_startsWith_ne (by simpa using hbracket), cursor_startsWith_ne (by simpa using hdash), cursor_remainingLine]
    simp [hdash]
  unfold peekToFindValueType
  dsimp only
  rw [cursor_consumeWhitespaceAndComments_stay hspace hhash, cursor_atEndOfDocument, if_neg Bool.false_ne_true,
    if_neg fun h => Nat.lt_irrefl _ h.1, if_neg hdashes, cursor_startsWith_ne (by simpa using hbrace),
    if_neg Bool.false_ne_true, hkey, if_neg Bool.false_ne_true]

theorem peek_emptyMap (lineIndent : Nat) :
    peekToFindValueType (cursor above left ['{', '}'] below) lineIndent = .map := by
  unfold peekToFindValueType
  dsimp only
  rw [cursor_consumeWhitespaceAndComments_stay (by decide) (by decide), cursor_atEndOfDocument, if_neg Bool.false_ne_true,
    if_neg fun h => Nat.lt_irrefl _ h.1, cursor_startsWith_ne (by simp), cursor_startsWith_ne (by simp),
    cursor_remainingLine, if_neg (by simp), cursor_startsWith_cons, if_pos (by simp)]

/-- A map that starts below its key. -/
theorem peek_map {n lineIndent : Nat} (hkey : Nests key) (hdeeper : lineIndent < n) (text : Bytes) :
    (cursor above left [] ((List.replicate n ' ' ++ (serializeKey key ++ text)) :: below)).consumeWhitespaceAndComments =
        cursor (above ++ [left]) (List.replicate n ' ') (serializeKey key ++ text) below ∧
      peekToFindValueType (cursor above left [] ((List.replicate n ' ' ++ (serializeKey key ++ text)) :: below)) lineIndent =
        .map := by
  have hread := @parseKey_serializeKey (above ++ [left]) below (List.replicate n ' ') _ hkey.1 0 text
  rw [List.replicate_zero, List.nil_append, List.append_nil] at hread
  obtain ⟨c, tail, htext, hc⟩ := hkey.start text
  rw [htext] at hread ⊢
  have hcomments : (cursor above left [] ((List.replicate n ' ' ++ c :: tail) :: below)).consumeWhitespaceAndComments =
      cursor (above ++ [left]) (List.replicate n ' ') (c :: tail) below := by
    have hblank := @cursor_consumeWhitespaceAndComments_blank above below left (List.replicate n ' ' ++ c :: tail) 0
    rw [List.replicate_zero, List.append_nil] at hblank
    rw [hblank, cursor_consumeWhitespaceAndComments n hc.notSpace hc.notHash, List.nil_append]
  have hindent : indentAtMost ((cursor (above ++ [left]) (List.replicate n ' ') (c :: tail) below).currentIndent [' '])
      lineIndent = false := by
    rw [currentIndent_text_of_start hc (Or.inr rfl), indentAtMost, Option.any_some, decide_eq_false_iff_not]
    omega
  refine ⟨hcomments, ?_⟩
  unfold peekToFindValueType
  dsimp only
  rw [hcomments, cursor_atEndOfDocument, if_neg Bool.false_ne_true, hindent, if_neg fun h => Bool.false_ne_true h.2,
    cursor_startsWith_ne (by simpa using hc.notBracket), cursor_startsWith_ne (by simpa using hc.notDash),
    cursor_remainingLine, if_neg (by simp [hc.notDash]), cursor_startsWith_ne (by simpa using hc.notBrace),
    if_neg Bool.false_ne_true, hread]
  rfl

/-! ### What is read -/

theorem mapM_resolveLine_iff {lines results : List Bytes} :
    lines.mapM (fun line => (resolveLine line).toOption) = some results ↔ ResolvedLines lines results := by
  induction lines generalizing results with
  | nil =>
    rw [List.mapM_nil]
    constructor
    · intro h
      cases h
      exact .nil
    · intro h
      cases h
      rfl
  | cons line lines ih =>
    rw [List.mapM_cons, ResolvedLines, List.forall₂_cons_left_iff]
    simp only [Option.bind_eq_bind, Option.bind_eq_some_iff, Option.pure_def, Option.some.injEq, toOption_eq_some_iff, ih]
    constructor
    · rintro ⟨result, hline, results, hrest, rfl⟩
      exact ⟨result, results, hline, hrest, rfl⟩
    · rintro ⟨result, results, hline, hrest, rfl⟩
      exact ⟨result, hline, results, hrest, rfl⟩

/-- What the parser makes of a text whose value is `expected`, when it reads up to the lines `below`. -/
def Outcome {α : Type} (result : Except Failure (Parsed α)) (expected : Option α) (above below : List Bytes) : Prop :=
  (∀ value, expected = some value → ∃ ctx spans, result = .ok ⟨value, ctx, spans⟩ ∧ Rests ctx above below) ∧
    (expected = none → ∃ failure, result = .error failure)

theorem behindString_rests (above : List Bytes) (left : Bytes) (level : Nat) (s : Bytes) (below : List Bytes) :
    Rests (behindString above left level s below) (above ++ (left ++ stringHead s) :: stringLines level s) below := by
  unfold behindString
  dsimp only
  split
  · exact Or.inr rfl
  · exact Or.inl rfl

theorem EndsBelow.outdented {n : Nat} (h : EndsBelow n below) : Outdented n below := by
  intro line hline
  obtain ⟨m, c, rest, hm, hc, rfl⟩ := h line hline
  exact ⟨m, c, rest, by omega, hc.notSpace, rfl⟩

section
variable (floats : FloatFormat F)

theorem parseScalar_string (s : Bytes) (hbelow : Outdented (2 * level) below) :
    (∀ result, readString s = some result →
      parseScalar floats (cursor above left (stringHead s) (stringLines level s ++ below)) none (2 * level) =
        .ok (.string result, behindString above left level s below)) ∧
    (readString s = none →
      ∃ error, parseScalar floats (cursor above left (stringHead s) (stringLines level s ++ below)) none (2 * level) =
        .error error) := by
  have hiff := @parseScalar_string_iff above _ left _ floats s level hbelow
  unfold readString
  cases hmulti : isMultiline s with
  | false =>
    rw [hmulti] at hiff
    refine ⟨fun result h => ?_, nofun⟩
    cases h
    exact (hiff _ _).mpr ⟨rfl, rfl⟩
  | true =>
    rw [hmulti] at hiff
    constructor
    · intro result h
      obtain ⟨results, hresults, rfl⟩ := Option.map_eq_some_iff.mp h
      exact (hiff _ _).mpr ⟨rfl, results, mapM_resolveLine_iff.mp hresults, rfl⟩
    · intro h
      have hnone := Option.map_eq_none_iff.mp h
      cases hparse : parseScalar floats (cursor above left (stringHead s) (stringLines level s ++ below)) none (2 * level) with
      | error error => exact ⟨error, rfl⟩
      | ok read =>
        obtain ⟨value, ctx⟩ := read
        obtain ⟨-, results, hresults, -⟩ := (hiff value ctx).mp hparse
        rw [mapM_resolveLine_iff.mpr hresults] at hnone
        cases hnone

/-- What the parser makes of a value behind its key. -/
def ReadsValue (value : Value F) : Prop :=
  ∀ fuel level above left below, fuelOf value + 1 ≤ fuel → EndsBelow (2 * level : Nat) below →
    Outcome
      (parseValue floats fuel
        (peekToFindValueType (cursor above left (valueText value) (valueLines level value ++ below)) (2 * level)) none
        (2 * level) (cursor above left (valueText value) (valueLines level value ++ below)))
      (readValue value) (above ++ (left ++ valueText value) :: valueLines level value) below

theorem readsValue_string (s : Bytes) : ReadsValue floats (.string s) := by
  intro fuel level above left below hfuel hbelow
  obtain ⟨fuel, rfl⟩ : ∃ n, fuel = n + 1 := ⟨fuel - 1, by omega⟩
  obtain ⟨hok, herror⟩ := @parseScalar_string _ above _ left _ floats s hbelow.outdented
  have hparse : ∀ lineIndent ctx, parseValue floats (fuel + 1) .scalar none lineIndent ctx =
      (((parseScalar floats ctx none lineIndent).map fun read => (⟨read.1, read.2, []⟩ : Parsed (Value F))).mapError .parse) >>=
        fun parsed => .ok { parsed with spans := ⟨lineIndent, ctx, parsed.ctx⟩ :: parsed.spans } := fun _ _ => rfl
  rw [readValue, valueText, valueLines, peek_string, hparse]
  constructor
  · intro value hvalue
    obtain ⟨result, hresult, rfl⟩ := Option.map_eq_some_iff.mp hvalue
    rw [hok result hresult]
    exact ⟨_, _, rfl, behindString_rests above left level s below⟩
  · intro hnone
    obtain ⟨error, hparse⟩ := herror (Option.map_eq_none_iff.mp hnone)
    rw [hparse]
    exact ⟨.parse error, rfl⟩

theorem parseValue_map {lineIndent : Nat} (fuel : Nat) (ctx : ParseContext) :
    parseValue floats (fuel + 1) .map none lineIndent ctx =
      ((parseMap floats fuel ctx lineIndent).map fun parsed =>
        (⟨.map parsed.value, parsed.ctx, parsed.spans⟩ : Parsed (Value F))) >>=
        fun parsed => .ok { parsed with spans := ⟨lineIndent, ctx, parsed.ctx⟩ :: parsed.spans } := rfl

theorem readsValue_emptyMap : ReadsValue floats (.map []) := by
  intro fuel level above left below hfuel hbelow
  rw [fuelOf, fuelOfEntries] at hfuel
  obtain ⟨fuel, rfl⟩ : ∃ n, fuel = n + 3 := ⟨fuel - 3, by omega⟩
  have hbrace : (cursor above (left ++ ['{']) ['}'] below).startsWith ['}'] = true := by
    rw [cursor_startsWith_cons]
    rfl
  have hflow : ∀ startLineIdx parent, parseFlow floats (fuel + 1) .map startLineIdx none parent []
      (cursor above (left ++ ['{']) ['}'] below) = .ok (.map [], cursor above (left ++ ['{'] ++ ['}']) [] below) := by
    intro startLineIdx parent
    rw [parseFlow, cursor_atEndOfDocument, if_neg Bool.false_ne_true]
    dsimp only
    rw [cursor_consumeWhitespaceAndComments_stay (by decide) (by decide), cursor_atEndOfDocument, if_neg Bool.false_ne_true,
      FlowType.closingChar, hbrace, if_pos rfl, cursor_consume_cons]
    rfl
  have hmap : ∀ parent, parseMap floats (fuel + 2) (cursor above left ['{', '}'] below) parent =
      .ok ⟨[], atLine (above ++ [left ++ ['{', '}']]) below, []⟩ := by
    intro parent
    rw [parseMap]
    dsimp only
    rw [cursor_consumeWhitespaceAndComments_stay (by decide) (by decide), cursor_startsWith_cons, if_pos (by simp),
      cursor_consume_cons, hflow]
    dsimp only [Bind.bind, Except.bind]
    rw [cursor_skipToNextLine]
    simp
  rw [readValue, readEntries, valueText, valueLines, entriesLines, List.nil_append, peek_emptyMap, parseValue_map, hmap]
  refine ⟨fun value hvalue => ?_, fun hnone => by cases hnone⟩
  cases hvalue
  exact ⟨_, _, rfl, Or.inl rfl⟩

/-! ### Entries -/

theorem insertOrAssign_of_not_mem {entries : ValueMap F} (h : key ∉ entries.map (·.1)) (value : Value F) :
    entries.insertOrAssign key value = entries ++ [(key, value)] := by
  induction entries with
  | nil => rfl
  | cons entry entries ih =>
    obtain ⟨key', value'⟩ := entry
    rw [List.map_cons, List.mem_cons, not_or] at h
    rw [ValueMap.insertOrAssign, if_neg fun heq => h.1 heq.symm, ih h.2, List.cons_append]

/-- The lines behind a value begin with a key that is no deeper. -/
theorem endsBelow_entries {parent : Int} {entries : ValueMap F} (hparent : parent < (2 * level : Nat))
    (hkeys : ∀ entry ∈ entries, Nests entry.1) (hbelow : EndsBelow parent below) :
    EndsBelow (2 * level : Nat) (entriesLines level entries ++ below) := by
  intro line hline
  cases entries with
  | nil =>
    rw [entriesLines, List.nil_append] at hline
    obtain ⟨n, c, rest, hn, hc, rfl⟩ := hbelow line hline
    exact ⟨n, c, rest, by omega, hc, rfl⟩
  | cons entry entries =>
    obtain ⟨key, value⟩ := entry
    rw [entriesLines, List.cons_append, List.head?_cons, Option.mem_some_iff] at hline
    obtain ⟨c, tail, htext, hc⟩ := (hkeys (key, value) (.head _)).start (valueHead value)
    refine ⟨2 * level, c, tail, Int.le_refl _, hc, ?_⟩
    rw [← hline, List.append_assoc, htext]
    rfl

theorem valueText_head (value : Value F) : (valueText value).head? ≠ some ' ' ∧ (valueText value).head? ≠ some '!' := by
  unfold valueText
  split
  · next s =>
    obtain ⟨c, tail, htext, hspace, -, -, -, -, htag⟩ := stringHead_cons s
    rw [htext]
    simp [hspace, htag]
  · simp
  · simp

/-- The entries of a map are read one by one. -/
theorem mapLines_outcome {entries : ValueMap F} (hkeys : ∀ entry ∈ entries, Nests entry.1)
    (hvalues : ∀ entry ∈ entries, ReadsValue floats entry.2) {parent : Int} (hparent : parent < (2 * level : Nat))
    (hbelow : EndsBelow parent below) {acc : ValueMap F} (hnodup : (acc.map (·.1) ++ entries.map (·.1)).Nodup)
    (hfuel : fuelOfEntries entries ≤ fuel) {firstLine : Bool} (hrest : Rests ctx above (entriesLines level entries ++ below)) :
    Outcome (mapLines floats fuel firstLine parent acc ctx) ((readEntries entries).map (acc ++ ·))
      (above ++ entriesLines level entries) below := by
  induction entries generalizing acc fuel ctx above firstLine with
  | nil =>
    obtain ⟨fuel, rfl⟩ : ∃ n, fuel = n + 1 := ⟨fuel - 1, by rw [fuelOfEntries] at hfuel; omega⟩
    rw [entriesLines, List.nil_append] at hrest
    obtain ⟨ctx', hend, hrest'⟩ : ∃ ctx', mapLines floats (fuel + 1) firstLine parent acc ctx = .ok ⟨acc, ctx', []⟩ ∧
        Rests ctx' above below := mapLines_end floats hrest hbelow
    rw [hend, readEntries, entriesLines, List.append_nil]
    refine ⟨fun value hvalue => ?_, fun hnone => by cases hnone⟩
    obtain rfl : acc = value := by simpa using hvalue
    exact ⟨ctx', [], rfl, hrest'⟩
  | cons entry entries ih =>
    obtain ⟨key, value⟩ := entry
    rw [fuelOfEntries] at hfuel
    obtain ⟨fuel, rfl⟩ : ∃ n, fuel = n + 2 := ⟨fuel - 2, by omega⟩
    obtain ⟨hkey, hkeys'⟩ := List.forall_mem_cons.mp hkeys
    obtain ⟨hvalue, hvalues'⟩ := List.forall_mem_cons.mp hvalues
    obtain ⟨c, tail, htext, hc⟩ := hkey.start (valueHead value)
    rw [entriesLines, List.append_assoc, htext, List.cons_append, List.append_assoc] at hrest
    have hspace := (valueText_head value).1
    have htag := (valueText_head value).2
    have hbelow' : EndsBelow (2 * level : Nat) (entriesLines level entries ++ below) :=
      endsBelow_entries hparent hkeys' hbelow
    have hfuel' : fuelOf value + 1 ≤ fuel := by omega
    have hparse := hvalue fuel level above (indentation level ++ serializeKey key ++ List.replicate (valueSpaces value) ' ')
      (entriesLines level entries ++ below) hfuel' hbelow'
    have habove : above ++ entriesLines level ((key, value) :: entries) =
        above ++ (indentation level ++ serializeKey key ++ List.replicate (valueSpaces value) ' ' ++ valueText value) ::
          valueLines level value ++ entriesLines level entries := by
      simp [entriesLines, valueHead]
    have hindent : List.replicate (2 * level) ' ' = indentation level := rfl
    rw [mapLines_entry floats hrest hc hparent, ← htext, valueHead, hindent, parseEntry_key floats hkey.1 hspace htag,
      readEntries, habove]
    cases hread : readValue value with
    | none =>
      obtain ⟨failure, herror⟩ := hparse.2 hread
      rw [herror]
      exact ⟨fun value hvalue => (by cases hvalue), fun _ => ⟨failure, rfl⟩⟩
    | some value' =>
      obtain ⟨ctx', spans, hok, hrest'⟩ := hparse.1 value' hread
      have hnew : key ∉ acc.map (·.1) := by
        rw [List.map_cons, List.nodup_append] at hnodup
        exact fun hmem => hnodup.2.2 key hmem key (.head _) rfl
      have hnodup' : ((acc ++ [(key, value')]).map (·.1) ++ entries.map (·.1)).Nodup := by
        simpa using hnodup
      have hloop : Outcome (mapLines floats (fuel + 1) false parent (acc ++ [(key, value')]) ctx')
          ((readEntries entries).map (acc ++ [(key, value')] ++ ·)) _ below := ih hkeys' hvalues' hnodup' (by omega) hrest'
      rw [hok]
      dsimp only [Except.map, Bind.bind, Except.bind]
      rw [insertOrAssign_of_not_mem hnew]
      cases hreads : readEntries entries with
      | none =>
        rw [hreads] at hloop
        obtain ⟨failure, herror⟩ := hloop.2 rfl
        rw [herror]
        exact ⟨fun value hvalue => (by cases hvalue), fun _ => ⟨failure, rfl⟩⟩
      | some entries' =>
        rw [hreads] at hloop
        obtain ⟨ctx'', spans', hloops, hrest''⟩ := hloop.1 _ rfl
        rw [hloops]
        refine ⟨fun value hvalue => ?_, fun hnone => by cases hnone⟩
        cases hvalue
        exact ⟨ctx'', spans ++ spans', by simp, hrest''⟩

variable {keyPriority : List Bytes}

theorem nodup_keys {entries : ValueMap F}
    (h : entries.Pairwise fun entry entry' => writtenBefore keyPriority entry.1 entry'.1 = true ∧ entry.1 ≠ entry'.1) :
    (entries.map (·.1)).Nodup :=
  List.pairwise_map.mpr (h.imp fun h => h.2)

theorem Writable.readsValue {value : Value F} (h : Writable keyPriority value) :
    ReadsValue floats value := by
  induction h with
  | string s => exact readsValue_string floats s
  | @map entries sorted keys values ih =>
    cases entries with
    | nil => exact readsValue_emptyMap floats
    | cons entry entries =>
      obtain ⟨key, value⟩ := entry
      intro fuel level above left below hfuel hbelow
      rw [fuelOf] at hfuel
      obtain ⟨fuel, rfl⟩ : ∃ n, fuel = n + 2 := ⟨fuel - 2, by omega⟩
      have hkey : Nests key := keys (key, value) (.head _)
      obtain ⟨more, hmore⟩ : ∃ more, entriesLines (level + 1) ((key, value) :: entries) ++ below =
          (List.replicate (2 * (level + 1)) ' ' ++ (serializeKey key ++ valueHead value)) :: more :=
        ⟨valueLines (level + 1) value ++ entriesLines (level + 1) entries ++ below, by simp [entriesLines, indentation]⟩
      obtain ⟨hcomments, hpeek⟩ := @peek_map above more left _ _ (2 * level) hkey
        (by omega : 2 * level < 2 * (level + 1)) (valueHead value)
      obtain ⟨c, tail, htext, hc⟩ := hkey.start (valueHead value)
      have hspaces : (cursor (above ++ [left]) [] (List.replicate (2 * (level + 1)) ' ' ++ c :: tail) more).consumeSpaces =
          cursor (above ++ [left]) (List.replicate (2 * (level + 1)) ' ') (c :: tail) more :=
        cursor_consumeSpaces _ (by simpa using hc.notSpace)
      have hrest : Rests (cursor (above ++ [left]) (List.replicate (2 * (level + 1)) ' ') (c :: tail) more) (above ++ [left])
          (entriesLines (level + 1) ((key, value) :: entries) ++ below) := by
        rw [hmore, htext]
        exact Or.inr (by rw [atLine_cons, hspaces])
      have hloop : Outcome (mapLines floats fuel true (2 * level : Nat) []
          (cursor (above ++ [left]) (List.replicate (2 * (level + 1)) ' ') (c :: tail) more))
          ((readEntries ((key, value) :: entries)).map ([] ++ ·))
          (above ++ [left] ++ entriesLines (level + 1) ((key, value) :: entries)) below :=
        mapLines_outcome floats keys ih (by omega) hbelow (by simpa using nodup_keys sorted) (by omega) hrest
      have hparse : parseMap floats (fuel + 1)
          (cursor above left [] (entriesLines (level + 1) ((key, value) :: entries) ++ below)) (2 * level : Nat) =
            mapLines floats fuel true (2 * level : Nat) []
              (cursor (above ++ [left]) (List.replicate (2 * (level + 1)) ' ') (c :: tail) more) := by
        rw [parseMap, hmore]
        dsimp only
        rw [hcomments, htext, cursor_startsWith_ne (by simpa using hc.notBrace), if_neg Bool.false_ne_true]
      have hhead : valueText (.map ((key, value) :: entries) : Value F) = [] := rfl
      rw [hhead, valueLines, readValue, hmore, hpeek, ← hmore, parseValue_map, hparse, List.append_nil]
      constructor
      · intro read hread
        obtain ⟨entries', hentries, rfl⟩ := Option.map_eq_some_iff.mp hread
        obtain ⟨ctx', spans, hok, hrest'⟩ := hloop.1 entries' (by simp [hentries])
        rw [hok]
        exact ⟨ctx', _, rfl, by simpa using hrest'⟩
      · intro hnone
        obtain ⟨failure, herror⟩ := hloop.2 (by simpa using hnone)
        rw [herror]
        exact ⟨failure, rfl⟩

end

/-! ### Strings that survive -/

theorem readString_iff (s : Bytes) : readString s = some s ↔ Survives s := by
  unfold readString Survives
  cases hmulti : isMultiline s with
  | false => exact iff_of_true rfl (Or.inl rfl)
  | true =>
    have hne : s ≠ [] := by
      rintro rfl
      cases hmulti
    rw [if_pos rfl, or_iff_right (by simp), ← chompText_resolved_iff hne, Option.map_eq_some_iff]
    simp only [mapM_resolveLine_iff]

theorem readEntries_iff {entries : ValueMap F}
    (ih : ∀ entry ∈ entries, (readValue entry.2 = some entry.2 ↔ ∀ s ∈ stringsOf entry.2, Survives s)) :
    readEntries entries = some entries ↔ ∀ s ∈ stringsOfEntries entries, Survives s := by
  induction entries with
  | nil => exact iff_of_true rfl (by simp [stringsOfEntries])
  | cons entry entries ih' =>
    obtain ⟨key, value⟩ := entry
    obtain ⟨hvalue, hentries⟩ := List.forall_mem_cons.mp ih
    rw [readEntries, stringsOfEntries, List.forall_mem_append, ← hvalue, ← ih' hentries, Option.bind_eq_some_iff]
    constructor
    · rintro ⟨value', hread, hrest⟩
      obtain ⟨entries', hreads, heq⟩ := Option.map_eq_some_iff.mp hrest
      cases heq
      exact ⟨hread, hreads⟩
    · rintro ⟨hread, hreads⟩
      exact ⟨value, hread, by rw [hreads]; rfl⟩

theorem Writable.readValue_iff {value : Value F} (h : Writable keyPriority value) :
    readValue value = some value ↔ ∀ s ∈ stringsOf value, Survives s := by
  induction h with
  | string s =>
    rw [readValue, stringsOf, List.forall_mem_singleton, ← readString_iff, Option.map_eq_some_iff]
    simp
  | map sorted keys values ih =>
    rw [readValue, stringsOf, ← readEntries_iff ih, Option.map_eq_some_iff]
    simp

/-! ### Documents -/

/-- A byte that ends no line. -/
def InLine (c : Char) : Prop := c ≠ '\n' ∧ c ≠ '\r'

instance (c : Char) : Decidable (InLine c) := inferInstanceAs (Decidable (_ ∧ _))

theorem inLine_of_isprint {c : Char} (h : isprint c = true) : InLine c := by
  constructor
  · rintro rfl
    cases h
  · rintro rfl
    cases h

theorem inLine_escapeChar (b : Char) : ∀ c ∈ escapeChar true b, InLine c := by
  have hdigit : ∀ n < 16, InLine (hexDigit n) := by decide
  have hpair : ∀ e, InLine e → ∀ c ∈ ['\\', e], InLine c := by
    intro e he c hc
    rcases List.mem_pair.mp hc with rfl | rfl
    · decide
    · exact he
  unfold escapeChar
  split
  · exact hpair '"' (by decide)
  · split
    · exact hpair 'n' (by decide)
    · next hnewline =>
      split
      · exact hpair '\\' (by decide)
      · split
        · exact hpair 't' (by decide)
        · split
          · exact hpair 'r' (by decide)
          · next hreturn =>
            split
            · exact hpair 'b' (by decide)
            · split
              · next hcntrl =>
                have hlt : b.toNat < 128 := by
                  have h := hcntrl.1
                  simp only [iscntrl, Bool.or_eq_true, decide_eq_true_eq] at h
                  omega
                have hhigh := hdigit (b.toNat / 16) (by omega)
                have hlow := hdigit (b.toNat % 16) (by omega)
                simp only [List.mem_cons, List.not_mem_nil, or_false]
                rintro c (rfl | rfl | rfl | rfl)
                · decide
                · decide
                · exact hhigh
                · exact hlow
              · intro c hc
                rw [List.mem_singleton.mp hc]
                exact ⟨fun h => hnewline ⟨h, rfl⟩, fun h => hreturn ⟨h, rfl⟩⟩

theorem inLine_quoted (s : Bytes) : ∀ c ∈ '"' :: escapeString s true ++ ['"'], InLine c := by
  intro c hc
  rcases List.mem_append.mp hc with hc | hc
  · rcases List.mem_cons.mp hc with rfl | hc
    · decide
    · obtain ⟨b, -, hb⟩ := List.mem_flatMap.mp hc
      exact inLine_escapeChar b c hb
  · rw [List.mem_singleton.mp hc]
    decide

theorem inLine_spaces {n : Nat} : ∀ c ∈ List.replicate n ' ', InLine c := by
  intro c hc
  rw [List.eq_of_mem_replicate hc]
  decide

theorem inLine_serializeKey (key : Bytes) : ∀ c ∈ serializeKey key, InLine c := by
  intro c hc
  rcases List.mem_append.mp hc with hc | hc
  · unfold keyText at hc
    split at hc
    · exact inLine_quoted key c hc
    · next hkey =>
      rw [not_or, Bool.not_eq_true', Bool.not_eq_false] at hkey
      exact inLine_of_isprint (List.all_eq_true.mp hkey.2 c hc)
  · rcases List.mem_pair.mp hc with rfl | rfl <;> decide

theorem inLine_stringHead (s : Bytes) : ∀ c ∈ stringHead s, InLine c := by
  intro c hc
  rcases stringHead_cases s with h | h | h <;> rw [h] at hc
  · rw [List.mem_singleton.mp hc]
    decide
  · rcases List.mem_pair.mp hc with rfl | rfl <;> decide
  · exact inLine_quoted s c hc

theorem inLine_stringLines (level : Nat) (s : Bytes) : ∀ line ∈ stringLines level s, ∀ c ∈ line, InLine c := by
  unfold stringLines
  split
  · next hmulti =>
    intro line hline c hc
    obtain ⟨raw, hraw, rfl⟩ := List.mem_map.mp hline
    rcases List.mem_append.mp hc with hc | hc
    · exact inLine_spaces c hc
    · rw [isMultiline, Bool.and_eq_true, List.all_eq_true] at hmulti
      have hor := hmulti.2 c (mem_of_mem_getlines hraw hc)
      rw [Bool.or_eq_true, decide_eq_true_iff] at hor
      refine inLine_of_isprint (hor.resolve_right ?_)
      rintro rfl
      exact (getlines_spec s).1 raw hraw hc
  · intro line hline
    cases hline

theorem inLine_valueHead (value : Value F) : ∀ c ∈ valueHead value, InLine c := by
  intro c hc
  rcases List.mem_append.mp hc with hc | hc
  · exact inLine_spaces c hc
  · unfold valueText at hc
    split at hc
    · exact inLine_stringHead _ c hc
    · rcases List.mem_pair.mp hc with rfl | rfl <;> decide
    · cases hc

theorem inLine_entriesLines {entries : ValueMap F} {level : Nat}
    (ih : ∀ entry ∈ entries, ∀ level, ∀ line ∈ valueLines level entry.2, ∀ c ∈ line, InLine c) :
    ∀ line ∈ entriesLines level entries, ∀ c ∈ line, InLine c := by
  induction entries with
  | nil => simp [entriesLines]
  | cons entry entries ih' =>
    obtain ⟨key, value⟩ := entry
    obtain ⟨hvalue, hentries⟩ := List.forall_mem_cons.mp ih
    rw [entriesLines, List.forall_mem_cons]
    refine ⟨fun c hc => ?_, List.forall_mem_append.mpr ⟨hvalue level, ih' hentries⟩⟩
    rcases List.mem_append.mp hc with hc | hc
    · rcases List.mem_append.mp hc with hc | hc
      · exact inLine_spaces c hc
      · exact inLine_serializeKey key c hc
    · exact inLine_valueHead value c hc

theorem Writable.inLine {value : Value F} (h : Writable keyPriority value) (level : Nat) :
    ∀ line ∈ valueLines level value, ∀ c ∈ line, InLine c := by
  induction h generalizing level with
  | string s => exact inLine_stringLines level s
  | map sorted keys values ih =>
    rw [valueLines]
    exact inLine_entriesLines ih

section
variable (floats : FloatFormat F) (texts : FloatText F) {keyPriority : List Bytes} {entries : ValueMap F}

/-- The lines of the document that is written. -/
theorem documentLines_serialize (h : Writable keyPriority (.map entries)) (hne : entries ≠ []) :
    documentLines (serialize texts keyPriority .auto entries) = [] :: entriesLines 0 entries := by
  cases h with
  | map sorted keys values =>
    have htext : serialize texts keyPriority .auto entries = joinLines ([] :: entriesLines 0 entries) := by
      have hwrite : (serializeEntries texts keyPriority .auto 0 entries).flatMap (·.2) = joinLines (entriesLines 0 entries) :=
        serializeEntries_lines texts fun entry hentry => (values entry hentry).lines texts
      cases entries with
      | nil => exact absurd rfl hne
      | cons entry entries =>
        rw [serialize, if_neg (by simp), serializeValue, if_neg (by simp), sortEntries_serializeEntries texts sorted, hwrite]
        simp
    have hline : ∀ line ∈ [] :: entriesLines 0 entries, ∀ c ∈ line, InLine c := by
      rw [List.forall_mem_cons]
      exact ⟨by simp, inLine_entriesLines fun entry hentry => (values entry hentry).inLine⟩
    rw [htext]
    exact documentLines_joinLines (fun line h hmem => (hline line h _ hmem).1 rfl)
      fun line h hlast => (hline line h _ (List.mem_of_mem_getLast? hlast)).2 rfl

/-- What the parser makes of the document that is written. -/
theorem deserialize_serialize (h : Writable keyPriority (.map entries)) {fuel : Nat}
    (hfuel : fuelOf (.map entries : Value F) ≤ fuel) :
    (∀ read, readEntries entries = some read → ∃ ctx spans,
      deserialize floats fuel (serialize texts keyPriority .auto entries) = .ok ⟨read, ctx, spans⟩) ∧
    (readEntries entries = none → ∃ failure,
      deserialize floats fuel (serialize texts keyPriority .auto entries) = .error failure) := by
  rw [fuelOf] at hfuel
  obtain ⟨fuel, rfl⟩ : ∃ n, fuel = n + 1 := ⟨fuel - 1, by omega⟩
  cases entries with
  | nil =>
    obtain ⟨fuel, rfl⟩ : ∃ n, fuel = n + 1 := ⟨fuel - 1, by rw [fuelOfEntries] at hfuel; omega⟩
    refine ⟨fun read hread => ?_, nofun⟩
    cases hread
    exact ⟨⟨[], 0, 0⟩, [], rfl⟩
  | cons entry entries =>
    have hlines := documentLines_serialize texts h (List.cons_ne_nil entry entries)
    cases h with
    | map sorted keys values =>
      obtain ⟨key, value⟩ := entry
      have hkey : Nests key := keys (key, value) (.head _)
      obtain ⟨c, tail, htext, hc⟩ := hkey.start (valueHead value)
      obtain ⟨more, hmore⟩ : ∃ more, entriesLines 0 ((key, value) :: entries) = (c :: tail) :: more :=
        ⟨valueLines 0 value ++ entriesLines 0 entries, by rw [← htext, entriesLines]; rfl⟩
      have hfirst : (ParseContext.mk ([] :: (c :: tail) :: more) 0 0).consumeWhitespaceAndComments =
          cursor [[]] [] (c :: tail) more := by
        have hblank := @cursor_consumeWhitespaceAndComments_blank [] more [] (c :: tail) 0
        exact hblank.trans (cursor_consumeWhitespaceAndComments_stay hc.notSpace hc.notHash)
      have hloop : Outcome (mapLines floats fuel true (-1) [] (cursor [[]] [] (c :: tail) more))
          ((readEntries ((key, value) :: entries)).map ([] ++ ·)) ([[]] ++ entriesLines 0 ((key, value) :: entries)) [] :=
        mapLines_outcome floats keys (fun entry hentry => (values entry hentry).readsValue floats) (by decide)
          (by rintro line ⟨⟩) (by simpa using nodup_keys sorted) (by omega) (Or.inl (by rw [List.append_nil, hmore]; rfl))
      have hparse : deserialize floats (fuel + 1) (serialize texts keyPriority .auto ((key, value) :: entries)) =
          mapLines floats fuel true (-1) [] (cursor [[]] [] (c :: tail) more) := by
        unfold deserialize
        dsimp only
        rw [hlines, hmore, hfirst, cursor_startsWith_ne (by simpa using hc.notDash), if_neg Bool.false_ne_true, parseMap]
        dsimp only
        rw [cursor_consumeWhitespaceAndComments_stay hc.notSpace hc.notHash,
          cursor_startsWith_ne (by simpa using hc.notBrace), if_neg Bool.false_ne_true]
      rw [hparse]
      constructor
      · intro read hread
        obtain ⟨ctx, spans, hok, -⟩ := hloop.1 read (by simp [hread])
        exact ⟨ctx, spans, hok⟩
      · intro hnone
        exact hloop.2 (by simp [hnone])

/-- A document of nested maps with strings is read back exactly when its strings survive. -/
theorem deserialize_serialize_iff (h : Writable keyPriority (.map entries)) (fuel : Nat)
    (hfuel : fuelOf (.map entries : Value F) ≤ fuel) :
    (deserialize floats fuel (serialize texts keyPriority .auto entries)).map (·.value) = .ok entries ↔
      ∀ s ∈ stringsOf (.map entries : Value F), Survives s := by
  obtain ⟨hok, herror⟩ := deserialize_serialize floats texts h hfuel
  have hread : readValue (.map entries : Value F) = some (.map entries) ↔ readEntries entries = some entries := by
    rw [readValue, Option.map_eq_some_iff]
    simp
  rw [← h.readValue_iff, hread]
  cases hentries : readEntries entries with
  | none =>
    obtain ⟨failure, hparse⟩ := herror hentries
    rw [hparse]
    exact iff_of_false (by nofun) (by nofun)
  | some read =>
    obtain ⟨ctx, spans, hparse⟩ := hok read hentries
    rw [hparse]
    exact ⟨fun h => congrArg _ (Except.ok.inj h), fun h => congrArg _ (Option.some.inj h)⟩

end

/-! ### Two documents -/

section

def noTexts : FloatText Unit := ⟨fun _ => true, fun _ => false, fun _ => false, fun _ _ => []⟩

theorem nests_letter {c : Char} (h : isprint c = true ∧ c ∉ [':', '#', '-', '"', '\'', ' ', '[', '{']) : Nests [c] := by
  obtain ⟨hprint, hnot⟩ := h
  simp only [List.mem_cons, List.not_mem_nil, or_false, not_or] at hnot
  obtain ⟨hcolon, hhash, hdash, hquote, hquote', hspace, hbracket, hbrace⟩ := hnot
  have htext : keyText [c] = [c] := by
    rw [keyText, if_neg]
    simp [hprint, Ne.symm hcolon]
  refine ⟨Or.inr ⟨by simp [Ne.symm hhash], by simp [hdash, hquote, hquote', hspace], by simp [hspace]⟩, ?_⟩
  rw [htext]
  simp [hbracket, hbrace]

/-- `a` has a map with a string of two lines in `b`. -/
def twoLines : ValueMap Unit := [(['a'], .map [(['b'], .string ['x', '\n', ' ', 'y', '\n'])])]

theorem twoLines_writable : Writable [] (.map twoLines) := by
  have hinner : Writable [] (.map [(['b'], .string ['x', '\n', ' ', 'y', '\n'])] : Value Unit) :=
    .map (List.pairwise_singleton _ _) (List.forall_mem_singleton.mpr (nests_letter (by decide)))
      (List.forall_mem_singleton.mpr (.string _))
  exact .map (List.pairwise_singleton _ _) (List.forall_mem_singleton.mpr (nests_letter (by decide)))
    (List.forall_mem_singleton.mpr hinner)

theorem twoLines_readBack :
    (deserialize noFloats 12 (serialize noTexts [] .auto twoLines)).map (·.value) = .ok twoLines :=
  (deserialize_serialize_iff noFloats noTexts twoLines_writable 12 (by decide)).mpr (by decide)

/-- A line with a backslash and a zero comes back as a line with the byte zero. -/
theorem escapedZero_lost :
    ¬ ∀ (s : Bytes) (fuel : Nat), fuelOf (.map [(['k'], .string s)] : Value Unit) ≤ fuel →
      (deserialize noFloats fuel (serialize noTexts [] .auto [(['k'], .string s)])).map (·.value) = .ok [(['k'], .string s)] := by
  intro h
  have hwritable : Writable [] (.map [(['k'], .string ['\\', '0', '\n'])] : Value Unit) :=
    .map (List.pairwise_singleton _ _) (List.forall_mem_singleton.mpr (nests_letter (by decide)))
      (List.forall_mem_singleton.mpr (.string _))
  have hread : readEntries [(['k'], .string ['\\', '0', '\n'])] = some [(['k'], (.string [Char.ofNat 0, '\n'] : Value Unit))] := rfl
  obtain ⟨ctx, spans, hok⟩ := (deserialize_serialize noFloats noTexts hwritable le_rfl).1 _ hread
  have hsame := h ['\\', '0', '\n'] _ le_rfl
  rw [hok] at hsame
  have hvalue := Except.ok.inj hsame
  simp at hvalue

end

end GnuRadio.Yaml
