import GnuRadio.Theorems.Yaml.Text

/-! The keys that the parser reads back as the writer spells them. -/

namespace GnuRadio.Yaml

open ParseContext

variable {above below : List Bytes} {left key rest : Bytes}

/-- A key that is written with quotes, or one that has neither a hash nor a space at an end and begins with no dash and
    no quote. -/
def ReadsBack (key : Bytes) : Prop :=
  (':' ∈ key ∨ key.all isprint = false) ∨
    ('#' ∉ key ∧ (∀ c ∈ key.head?, c ≠ '-' ∧ c ≠ '"' ∧ c ≠ '\'' ∧ c ≠ ' ') ∧ ∀ c ∈ key.getLast?, c ≠ ' ')

/-- The cursor behind the colon of a key. -/
def behindKey (above : List Bytes) (left key rest : Bytes) (below : List Bytes) : ParseContext :=
  cursor above (left ++ keyText key ++ [':']) (' ' :: rest) below

/-! ### Keys with quotes -/

theorem parseKey_quoted (n : Nat) (hkey : ':' ∈ key ∨ key.all isprint = false) (rest extraDelimiters : Bytes) :
    parseKey (cursor above left (List.replicate n ' ' ++ (serializeKey key ++ rest)) below) extraDelimiters =
      .ok (key, behindKey above (left ++ List.replicate n ' ') key rest below) := by
  have htext : keyText key = '"' :: escapeString key true ++ ['"'] := by
    rw [keyText, if_pos (by simpa using hkey)]
  have hline : serializeKey key ++ rest = '"' :: escapeString key true ++ '"' :: ':' :: ' ' :: rest := by
    simp [serializeKey, htext]
  have hhead : (serializeKey key ++ rest).head? ≠ some ' ' := by simp [hline]
  have hfind : findString (serializeKey key ++ rest) extraDelimiters = some (1, (escapeString key true).length) := by
    rw [hline]
    exact findString_quoted key (':' :: ' ' :: rest) extraDelimiters
  have hinner : ((serializeKey key ++ rest).drop 1).take (escapeString key true).length = escapeString key true := by
    rw [hline]
    exact List.take_left
  have hconsume : (cursor above (left ++ List.replicate n ' ') (serializeKey key ++ rest) below).consume
      (2 * 1 + (escapeString key true).length) =
        cursor above (left ++ List.replicate n ' ' ++ keyText key) (':' :: ' ' :: rest) below := by
    have hlength : 2 * 1 + (escapeString key true).length = (keyText key).length := by
      rw [htext, List.length_append, List.length_cons]
      simp only [List.length_cons, List.length_nil]
      omega
    have htail : serializeKey key ++ rest = keyText key ++ ':' :: ' ' :: rest := by simp [serializeKey]
    rw [hlength, htail, cursor_consume]
  unfold parseKey
  dsimp only
  rw [cursor_consumeSpaces n hhead, cursor_startsWith_cons, cursor_remainingLine]
  rw [if_neg (by simp [hline]), hfind]
  dsimp only
  rw [if_pos Nat.one_pos, hinner, resolveYamlEscapes_quoted, resolveYamlEscapes_escapeString]
  dsimp only
  rw [hconsume, cursor_consumeSpaces_none (by simp), cursor_startsWithToken ':' rfl, if_pos rfl,
    cursor_consume_cons]
  rfl

/-! ### Keys without quotes -/

theorem keyColon_of_not_mem {i : Nat} {key : Bytes} (h : ':' ∉ key) (rest : Bytes) :
    keyColon i (key ++ ':' :: ' ' :: rest) = some (i + key.length) := by
  induction key generalizing i with
  | nil => rfl
  | cons c key ih =>
    obtain ⟨hc, hkey⟩ : ':' ≠ c ∧ ':' ∉ key := by simpa using h
    rw [List.cons_append, keyColon, if_neg fun hcolon => hc hcolon.1.symm, ih hkey, List.length_cons]
    congr 1
    omega

theorem find_hash_lt_iff (key rest : Bytes) :
    (find '#' (key ++ ':' :: rest)).any (· < key.length) = true ↔ '#' ∈ key := by
  induction key with
  | nil => simp
  | cons c key ih =>
    unfold find at ih ⊢
    rw [List.cons_append, List.findIdx?_cons]
    by_cases hc : c = '#'
    · simp [hc]
    · have hne : ¬ '#' = c := fun h => hc h.symm
      rw [if_neg (by simpa using hc), List.mem_cons, or_iff_right hne, ← ih, Option.any_map]
      simp only [List.length_cons, Nat.add_lt_add_iff_right]

theorem findString_plain {sv : Bytes} (h : ∀ c ∈ sv.head?, c ≠ '"' ∧ c ≠ '\'') : ∃ length, findString sv [] = some (0, length) := by
  cases sv with
  | nil => exact ⟨0, rfl⟩
  | cons c sv =>
    have hc := h c rfl
    have hnone : (c :: sv).findIdx? (fun c => decide (c ∈ ([] : Bytes))) = none := List.findIdx?_eq_none_iff.mpr (by simp)
    refine ⟨(find '#' (c :: sv)).getD (c :: sv).length, ?_⟩
    rw [findString, if_neg (not_or.mpr hc), hnone]

/-- What a key is read as that is written without quotes, when it begins with no space, dash or quote. -/
theorem parseKey_plain (hcolon : ':' ∉ key) (n : Nat)
    (hhead : ∀ c ∈ key.head?, c ≠ '-' ∧ c ≠ '"' ∧ c ≠ '\'' ∧ c ≠ ' ') (rest : Bytes) :
    parseKey (cursor above left (List.replicate n ' ' ++ (key ++ ':' :: ' ' :: rest)) below) [] =
      if '#' ∈ key then
        .error ((cursor above (left ++ List.replicate n ' ') (key ++ ':' :: ' ' :: rest) below).makeError
          "Could not find key/value separator ':'")
      else .ok (trim key, cursor above (left ++ List.replicate n ' ' ++ key ++ [':']) (' ' :: rest) below) := by
  have hfirst : ∀ c ∈ (key ++ ':' :: ' ' :: rest).head?, c ≠ '-' ∧ c ≠ '"' ∧ c ≠ '\'' ∧ c ≠ ' ' := by
    cases key with
    | nil =>
      intro c hc
      cases hc
      decide
    | cons c key => exact hhead
  have hspace : (key ++ ':' :: ' ' :: rest).head? ≠ some ' ' := fun h => (hfirst ' ' h).2.2.2 rfl
  have hdash : ¬ ((key ++ ':' :: ' ' :: rest).head?.any (· = '-')) = true := by
    rw [Option.any_eq_true]
    rintro ⟨c, hc, hdash⟩
    exact (hfirst c hc).1 (by simpa using hdash)
  obtain ⟨length, hfind⟩ := findString_plain fun c hc => ⟨(hfirst c hc).2.1, (hfirst c hc).2.2.1⟩
  unfold parseKey
  dsimp only
  rw [cursor_consumeSpaces n hspace, cursor_startsWith_cons, cursor_remainingLine, if_neg hdash, hfind]
  dsimp only
  rw [if_neg (Nat.lt_irrefl 0), keyColon_of_not_mem hcolon, Nat.zero_add]
  dsimp only
  by_cases hhash : '#' ∈ key
  · rw [if_pos hhash, if_pos ((find_hash_lt_iff key _).mpr hhash)]
  · have hconsume : (cursor above (left ++ List.replicate n ' ') (key ++ ':' :: ' ' :: rest) below).consume (key.length + 1) =
        cursor above (left ++ List.replicate n ' ' ++ key ++ [':']) (' ' :: rest) below := by
      have h := @cursor_consume above below (left ++ List.replicate n ' ') (key ++ [':'])
        (' ' :: rest)
      simpa using h
    rw [if_neg hhash, if_neg fun h => hhash ((find_hash_lt_iff key _).mp h), List.take_left, hconsume]

/-! ### Every key -/

theorem parseKey_dash (n : Nat) (text extraDelimiters : Bytes) :
    parseKey (cursor above left (List.replicate n ' ' ++ '-' :: text) below) extraDelimiters =
      .error ((cursor above (left ++ List.replicate n ' ') ('-' :: text) below).makeError "Unexpected list item in map") := by
  unfold parseKey
  dsimp only
  rw [cursor_consumeSpaces n (by simp), cursor_startsWith_cons, if_pos (by simp)]

/-- What is read up to a quote behind the first byte of a text with a colon is no key without quotes. -/
theorem resolve_ne {inner : Bytes} (hcolon : ':' ∉ key) (hprint : key.all isprint = true) (hlonger : inner.length < key.length)
    (rest : Bytes) (length : Nat) : resolveYamlEscapes_quoted ((inner ++ ':' :: rest).take length) ≠ .ok key := by
  intro hresolve
  have hresolved := resolves hresolve
  by_cases hlength : length ≤ inner.length
  · have hle := hresolved.length_le
    rw [List.length_take] at hle
    have hshort := hle.trans (min_le_left _ _)
    omega
  · have hmem : ':' ∈ (inner ++ ':' :: rest).take length := by
      rw [List.take_append]
      refine List.mem_append_right _ ?_
      obtain ⟨k, hk⟩ : ∃ k, length - inner.length = k + 1 := ⟨length - inner.length - 1, by omega⟩
      rw [hk, List.take_succ_cons]
      exact .head _
    obtain ⟨c, hc, rfl | hnot⟩ := hresolved.colon hmem
    · exact hcolon hc
    · have htrue := List.all_eq_true.mp hprint c hc
      rw [hnot] at htrue
      cases htrue

theorem parseKey_quote_ne {quote : Char} {inner : Bytes} {ctx : ParseContext} (hquote : quote = '"' ∨ quote = '\'')
    (hcolon : ':' ∉ key) (hprint : key.all isprint = true) (hlonger : inner.length < key.length) (n : Nat) (rest : Bytes) :
    parseKey (cursor above left (List.replicate n ' ' ++ quote :: (inner ++ ':' :: rest)) below) [] ≠ .ok (key, ctx) := by
  have hspace : (quote :: (inner ++ ':' :: rest)).head? ≠ some ' ' := by
    rcases hquote with rfl | rfl <;> simp
  have hdash : ¬ ((quote :: (inner ++ ':' :: rest)).head?.any (· = '-')) = true := by
    rcases hquote with rfl | rfl <;> simp
  have hfind : findString (quote :: (inner ++ ':' :: rest)) [] =
      (findClosingQuote (quote :: (inner ++ ':' :: rest)) quote).map fun closePos => (1, closePos - 1) := by
    rw [findString, if_pos hquote]
  unfold parseKey
  dsimp only
  rw [cursor_consumeSpaces n hspace, cursor_startsWith_cons, cursor_remainingLine, if_neg hdash, hfind]
  cases findClosingQuote (quote :: (inner ++ ':' :: rest)) quote with
  | none => simp
  | some closePos =>
    simp only [Option.map_some, Nat.one_pos, if_true, List.drop_succ_cons, List.drop_zero]
    have hne := resolve_ne hcolon hprint hlonger rest (closePos - 1)
    cases hresolve : resolveYamlEscapes_quoted ((inner ++ ':' :: rest).take (closePos - 1)) with
    | error error => simp
    | ok read =>
      have hread : read ≠ key := fun heq => hne (heq ▸ hresolve)
      dsimp only
      split
      · simp [hread]
      · simp

/-- A key without quotes that has no hash, no space at an end and no dash or quote in front. -/
theorem parseKey_unquoted (hkey : ¬ (':' ∈ key ∨ key.all isprint = false))
    (h : '#' ∉ key ∧ (∀ c ∈ key.head?, c ≠ '-' ∧ c ≠ '"' ∧ c ≠ '\'' ∧ c ≠ ' ') ∧ ∀ c ∈ key.getLast?, c ≠ ' ') (n : Nat)
    (rest : Bytes) :
    parseKey (cursor above left (List.replicate n ' ' ++ (key ++ ':' :: ' ' :: rest)) below) [] =
      .ok (key, cursor above (left ++ List.replicate n ' ' ++ key ++ [':']) (' ' :: rest) below) := by
  obtain ⟨hcolon, hprint⟩ := not_or.mp hkey
  rw [Bool.not_eq_false] at hprint
  obtain ⟨hhash, hhead, hlast⟩ := h
  have hspace : ∀ c ∈ key, c ≠ ' ' → isspace c = false := fun c hc hne => by
    rw [isspace_of_isprint (List.all_eq_true.mp hprint c hc)]
    exact decide_eq_false hne
  have htrim : trim key = key := trim_eq_self_iff.mpr
    ⟨fun c hc => hspace c (List.mem_of_mem_head? hc) (hhead c hc).2.2.2,
      fun c hc => hspace c (List.mem_of_mem_getLast? hc) (hlast c hc)⟩
  rw [parseKey_plain hcolon n hhead, if_neg hhash, htrim]

theorem keyText_unquoted (hkey : ¬ (':' ∈ key ∨ key.all isprint = false)) : keyText key = key := by
  rw [keyText, if_neg (by simpa using hkey)]

/-- A key that reads back. -/
theorem parseKey_serializeKey (hkey : ReadsBack key) (n : Nat) (rest : Bytes) :
    parseKey (cursor above left (List.replicate n ' ' ++ (serializeKey key ++ rest)) below) [] =
      .ok (key, behindKey above (left ++ List.replicate n ' ') key rest below) := by
  by_cases hquoted : ':' ∈ key ∨ key.all isprint = false
  · exact parseKey_quoted n hquoted rest []
  · have htext := keyText_unquoted hquoted
    have hline : serializeKey key ++ rest = key ++ ':' :: ' ' :: rest := by simp [serializeKey, htext]
    rw [hline, behindKey, htext]
    exact parseKey_unquoted hquoted (hkey.resolve_left hquoted) n rest

/-- The key is read back, with the rest of the line behind its colon, exactly when it has quotes or needs none. -/
theorem parseKey_serializeKey_iff (above below : List Bytes) (left key rest : Bytes) (n : Nat) :
    parseKey (cursor above left (List.replicate n ' ' ++ (serializeKey key ++ rest)) below) [] =
      .ok (key, behindKey above (left ++ List.replicate n ' ') key rest below) ↔ ReadsBack key := by
  by_cases hkey : ':' ∈ key ∨ key.all isprint = false
  · exact iff_of_true (parseKey_quoted n hkey rest []) (Or.inl hkey)
  · obtain ⟨hcolon, hprint⟩ := not_or.mp hkey
    rw [Bool.not_eq_false] at hprint
    have htext := keyText_unquoted hkey
    have hline : serializeKey key ++ rest = key ++ ':' :: ' ' :: rest := by simp [serializeKey, htext]
    rw [ReadsBack, or_iff_right hkey, hline, behindKey, htext]
    constructor
    · intro h
      obtain ⟨m, tail, rfl, htail⟩ := exists_spaces key
      have hspaces : List.replicate n ' ' ++ (List.replicate m ' ' ++ tail ++ ':' :: ' ' :: rest) =
          List.replicate (n + m) ' ' ++ (tail ++ ':' :: ' ' :: rest) := by
        rw [List.append_assoc, ← List.append_assoc, List.replicate_append_replicate]
      rw [hspaces] at h
      have hfirst : ∀ c ∈ tail.head?, c ≠ '-' ∧ c ≠ '"' ∧ c ≠ '\'' ∧ c ≠ ' ' := by
        intro c hc
        obtain ⟨inner, rfl⟩ := List.head?_eq_some_iff.mp hc
        have hlonger : inner.length < (List.replicate m ' ' ++ c :: inner).length := by
          rw [List.length_append, List.length_cons]
          omega
        refine ⟨?_, ?_, ?_, ?_⟩
        · rintro rfl
          rw [List.cons_append, parseKey_dash] at h
          cases h
        · rintro rfl
          exact parseKey_quote_ne (Or.inl rfl) hcolon hprint hlonger _ _ h
        · rintro rfl
          exact parseKey_quote_ne (Or.inr rfl) hcolon hprint hlonger _ _ h
        · rintro rfl
          exact htail rfl
      have htailcolon : ':' ∉ tail := fun hmem => hcolon (List.mem_append_right _ hmem)
      rw [parseKey_plain htailcolon _ hfirst] at h
      by_cases hhash : '#' ∈ tail
      · rw [if_pos hhash] at h
        cases h
      · rw [if_neg hhash] at h
        have hread : trim tail = List.replicate m ' ' ++ tail := (Prod.mk.inj (Except.ok.inj h)).1
        obtain rfl : m = 0 := by
          have hle := trim_length_le tail
          rw [hread, List.length_append, List.length_replicate] at hle
          omega
        rw [List.replicate_zero, List.nil_append] at hread ⊢
        obtain ⟨-, hlast⟩ := trim_eq_self_iff.mp hread
        refine ⟨hhash, hfirst, fun c hc => ?_⟩
        rintro rfl
        exact absurd (hlast ' ' hc) (by decide)
    · exact fun h => parseKey_unquoted hkey h n rest

/-- The key `a#b` is written without quotes, and its hash begins a comment. -/
theorem hashKey_rejected :
    ¬ ∀ above below left key rest n,
      parseKey (cursor above left (List.replicate n ' ' ++ (serializeKey key ++ rest)) below) [] =
        .ok (key, behindKey above (left ++ List.replicate n ' ') key rest below) := by
  intro h
  have hread := h [] [] [] ['a', '#', 'b'] ['1'] 0
  revert hread
  decide

end GnuRadio.Yaml
