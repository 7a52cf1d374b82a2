import GnuRadio.Theorems.Yaml.Keys
import GnuRadio.Theorems.Yaml.Strings

/-! Documents of nested maps with strings: what the writer writes, line by line, and what the parser makes of it. -/

namespace GnuRadio.Yaml

open ParseContext

variable {F : Type} {above below : List Bytes} {left key text : Bytes} {level : Nat}

/-! ### Lines of a document -/

/-- A key that is read back in the first line of a map, too. -/
def Nests (key : Bytes) : Prop := ReadsBack key ∧ ∀ c ∈ (keyText key).head?, c ≠ '[' ∧ c ≠ '{'

/-- Maps of strings and of such maps, with the entries in the order in which they are written. -/
inductive Writable (keyPriority : List Bytes) : Value F → Prop
  | string (s : Bytes) : Writable keyPriority (.string s)
  | map {entries : ValueMap F}
      (sorted : entries.Pairwise fun entry entry' => writtenBefore keyPriority entry.1 entry'.1 = true ∧ entry.1 ≠ entry'.1)
      (keys : ∀ entry ∈ entries, Nests entry.1) (values : ∀ entry ∈ entries, Writable keyPriority entry.2) :
      Writable keyPriority (.map entries)

/-- The text of a value in the line of its key. -/
def valueText : Value F → Bytes
  | .string s => stringHead s
  | .map [] => ['{', '}']
  | _ => []

/-- The spaces in front of it. -/
def valueSpaces : Value F → Nat
  | .string _ | .map [] => 1
  | _ => 0

def valueHead (value : Value F) : Bytes := List.replicate (valueSpaces value) ' ' ++ valueText value

mutual

/-- The lines below the key of a value. -/
def valueLines (level : Nat) : Value F → List Bytes
  | .string s => stringLines level s
  | .map entries => entriesLines (level + 1) entries
  | _ => []

def entriesLines (level : Nat) : List (Bytes × Value F) → List Bytes
  | [] => []
  | (key, value) :: rest =>
    (indentation level ++ serializeKey key ++ valueHead value) :: (valueLines level value ++ entriesLines level rest)

end

section
variable {keyPriority : List Bytes} (texts : FloatText F) {entries : ValueMap F} {value : Value F}

theorem map_fst_serializeEntries (entries : ValueMap F) :
    (serializeEntries texts keyPriority .auto level entries).map (·.1) = entries.map (·.1) := by
  induction entries with
  | nil => rw [serializeEntries]; rfl
  | cons entry entries ih =>
    obtain ⟨key, value⟩ := entry
    rw [serializeEntries, List.map_cons, ih, List.map_cons]

/-- The entries are written as they are sorted. -/
theorem sortEntries_serializeEntries
    (h : entries.Pairwise fun entry entry' => writtenBefore keyPriority entry.1 entry'.1 = true ∧ entry.1 ≠ entry'.1) :
    sortEntries keyPriority (serializeEntries texts keyPriority .auto level entries) =
      serializeEntries texts keyPriority .auto level entries := by
  refine List.mergeSort_of_pairwise ?_
  have hkeys : (entries.map (·.1)).Pairwise fun key key' => writtenBefore keyPriority key key' = true :=
    List.pairwise_map.mpr (h.imp fun h => h.1)
  rw [← @map_fst_serializeEntries _ level keyPriority texts] at hkeys
  exact List.pairwise_map.mp hkeys

theorem serializeEntries_lines
    (ih : ∀ entry ∈ entries, ∀ level, serializeValue texts keyPriority .auto (level + 1) entry.2 =
      joinLines (valueHead entry.2 :: valueLines level entry.2)) :
    (serializeEntries texts keyPriority .auto level entries).flatMap (·.2) = joinLines (entriesLines level entries) := by
  induction entries with
  | nil => simp [serializeEntries, entriesLines]
  | cons entry entries ih' =>
    obtain ⟨key, value⟩ := entry
    obtain ⟨hvalue, hrest⟩ := List.forall_mem_cons.mp ih
    rw [serializeEntries, entriesLines, List.flatMap_cons, ih' hrest, hvalue level]
    simp

/-- What is written for a value. -/
theorem Writable.lines (h : Writable keyPriority value) (level : Nat) :
    serializeValue texts keyPriority .auto (level + 1) value = joinLines (valueHead value :: valueLines level value) := by
  induction h generalizing level with
  | string s =>
    rw [serializeValue, Nat.add_sub_cancel, serializeString_eq, valueLines]
    rfl
  | @map entries sorted keys values ih =>
    cases entries with
    | nil => rfl
    | cons entry entries =>
      have hhead : valueHead (.map (entry :: entries) : Value F) = [] := rfl
      rw [serializeValue, sortEntries_serializeEntries texts sorted, serializeEntries_lines texts ih, hhead, valueLines,
        joinLines_cons]
      rfl

end

/-! ### What a document is read as -/

/-- What a string is read as, none when it is rejected. -/
def readString (s : Bytes) : Option Bytes :=
  if isMultiline s then
    ((getlines s).mapM fun line => (resolveLine line).toOption).map fun results =>
      chompText '|' (s.getLast? = some '\n') (joinLines results)
  else some s

mutual

def readValue : Value F → Option (Value F)
  | .string s => (readString s).map .string
  | .map entries => (readEntries entries).map .map
  | value => some value

def readEntries : List (Bytes × Value F) → Option (ValueMap F)
  | [] => some []
  | (key, value) :: rest => (readValue value).bind fun value => (readEntries rest).map ((key, value) :: ·)

end

mutual

/-- The strings in a value. -/
def stringsOf : Value F → List Bytes
  | .string s => [s]
  | .map entries => stringsOfEntries entries
  | _ => []

def stringsOfEntries : List (Bytes × Value F) → List Bytes
  | [] => []
  | (_, value) :: rest => stringsOf value ++ stringsOfEntries rest

end

mutual

/-- The fuel that the parser takes for a value. -/
def fuelOf : Value F → Nat
  | .map entries => fuelOfEntries entries + 1
  | _ => 0

def fuelOfEntries : List (Bytes × Value F) → Nat
  | [] => 1
  | (_, value) :: rest => fuelOf value + fuelOfEntries rest + 3

end

/-! ### Keys and cursors -/

theorem isIgnorableLine_text (n : Nat) {c : Char} (hprint : isprint c = true) (hspace : c ≠ ' ') (hhash : c ≠ '#')
    (text : Bytes) : isIgnorableLine (List.replicate n ' ' ++ c :: text) = false := by
  have hc : (isspace c || iscntrl c) = false := by
    rw [isspace_of_isprint hprint, isprint_of_not_iscntrl hprint, decide_eq_false hspace, Bool.or_false]
  have hdrop : (List.replicate n ' ' ++ c :: text).dropWhile (fun c => isspace c || iscntrl c) = c :: text := by
    rw [List.dropWhile_append_of_pos (by simp [isspace]), List.dropWhile_cons_of_neg (by simp [hc])]
  rw [isIgnorableLine, hdrop]
  simpa using hhash

/-- How the text of a key begins. -/
structure KeyStart (c : Char) : Prop where
  prints : isprint c = true
  notSpace : c ≠ ' '
  notHash : c ≠ '#'
  notDash : c ≠ '-'
  notBracket : c ≠ '['
  notBrace : c ≠ '{'

theorem Nests.start (h : Nests key) (rest : Bytes) : ∃ c tail, serializeKey key ++ rest = c :: tail ∧ KeyStart c := by
  obtain ⟨hreads, hflow⟩ := h
  by_cases hkey : ':' ∈ key ∨ key.all isprint = false
  · have htext : keyText key = '"' :: escapeString key true ++ ['"'] := by
      rw [keyText, if_pos (by simpa using hkey)]
    exact ⟨'"', escapeString key true ++ ['"', ':', ' '] ++ rest, by simp [serializeKey, htext], by decide, by decide, by decide,
      by decide, by decide, by decide⟩
  · have htext := keyText_unquoted hkey
    rw [htext] at hflow
    obtain ⟨hhash, hhead, -⟩ := hreads.resolve_left hkey
    have hprint : ∀ c ∈ key, isprint c = true := by
      rw [← List.all_eq_true, ← Bool.not_eq_false]
      exact (not_or.mp hkey).2
    cases key with
    | nil => exact ⟨':', ' ' :: rest, by simp [serializeKey, htext], by decide, by decide, by decide, by decide, by decide, by decide⟩
    | cons c key =>
      have hc := hhead c rfl
      exact ⟨c, key ++ [':', ' '] ++ rest, by simp [serializeKey, htext], hprint c (.head _), hc.2.2.2,
        fun h => hhash (h ▸ (.head _)), hc.1, (hflow c rfl).1, (hflow c rfl).2⟩

/-- The cursor is at the beginning of the line, or behind its spaces. -/
def Rests (ctx : ParseContext) (above below : List Bytes) : Prop :=
  ctx = atLine above below ∨ ctx = (atLine above below).consumeSpaces

/-- The first text below is a key that is no deeper than `level`. -/
def EndsBelow (level : Int) (below : List Bytes) : Prop :=
  ∀ line ∈ below.head?, ∃ (n : Nat) (c : Char) (rest : Bytes), (n : Int) ≤ level ∧ KeyStart c ∧ line = List.replicate n ' ' ++ c :: rest

variable {ctx : ParseContext} {c : Char} {n fuel : Nat}

theorem Rests.stays (hrest : Rests ctx above ((List.replicate n ' ' ++ c :: text) :: below)) (hc : KeyStart c) :
    ctx.atEndOfDocument = false ∧ ctx.startsWith ['-', '-', '-'] = false ∧
      ctx.consumeWhitespaceAndComments = cursor above (List.replicate n ' ') (c :: text) below := by
  have hspaces : (cursor above [] (List.replicate n ' ' ++ c :: text) below).consumeSpaces =
      cursor above (List.replicate n ' ') (c :: text) below := cursor_consumeSpaces n (by simpa using hc.notSpace)
  rcases hrest with rfl | rfl
  · have hhead : (List.replicate n ' ' ++ c :: text).head? ≠ some '-' := by
      cases n with
      | zero => simpa using hc.notDash
      | succ n => simp [List.replicate_succ]
    rw [atLine_cons]
    exact ⟨cursor_atEndOfDocument, cursor_startsWith_ne hhead,
      cursor_consumeWhitespaceAndComments n hc.notSpace hc.notHash⟩
  · rw [atLine_cons, hspaces]
    exact ⟨cursor_atEndOfDocument, cursor_startsWith_ne (by simpa using hc.notDash),
      cursor_consumeWhitespaceAndComments_stay hc.notSpace hc.notHash⟩

theorem currentIndent_text_of_start {indentChars : Bytes} (hc : KeyStart c) (h : indentChars = [' ', '-'] ∨ indentChars = [' ']) :
    (cursor above (List.replicate n ' ') (c :: text) below).currentIndent indentChars = some n := by
  rcases h with rfl | rfl
  · exact cursor_currentIndent n (by simp) (by simp [hc.notSpace, hc.notDash]) rfl
  · exact cursor_currentIndent n (by simp) (by simp [hc.notSpace]) rfl

section
variable (floats : FloatFormat F) {parent : Int} {acc : ValueMap F} {firstLine : Bool}

/-- The loop at a line with a key. -/
theorem mapLines_entry (hrest : Rests ctx above ((List.replicate n ' ' ++ c :: text) :: below)) (hc : KeyStart c)
    (hparent : parent < n) :
    mapLines floats (fuel + 1) firstLine parent acc ctx =
      parseEntry floats fuel n (cursor above (List.replicate n ' ') (c :: text) below) >>= fun entry =>
        mapLines floats fuel false parent (acc.insertOrAssign entry.1 entry.2.value) entry.2.ctx >>= fun rest =>
          .ok { rest with spans := entry.2.spans ++ rest.spans } := by
  obtain ⟨hend, hdashes, hcomments⟩ := hrest.stays hc
  have hindent : (cursor above (List.replicate n ' ') (c :: text) below).currentIndent
      (if firstLine then [' ', '-'] else [' ']) = some n :=
    currentIndent_text_of_start hc (by cases firstLine <;> simp)
  rw [mapLines, hend, if_neg Bool.false_ne_true, hdashes, if_neg Bool.false_ne_true, hcomments]
  dsimp only
  rw [cursor_atEndOfDocument, if_neg Bool.false_ne_true, cursor_currentLine,
    isIgnorableLine_text n hc.prints hc.notSpace hc.notHash, if_neg Bool.false_ne_true, hindent]
  exact if_neg (Int.not_le.mpr hparent)

/-- The loop behind the last key. -/
theorem mapLines_end (hrest : Rests ctx above below) (hbelow : EndsBelow parent below) :
    ∃ ctx', mapLines floats (fuel + 1) firstLine parent acc ctx = .ok ⟨acc, ctx', []⟩ ∧ Rests ctx' above below := by
  cases below with
  | nil =>
    have hend : ctx.atEndOfDocument = true := by
      rcases hrest with rfl | rfl
      · exact atLine_nil_atEndOfDocument
      · rw [atLine_nil]
        exact decide_eq_true rfl
    refine ⟨ctx, ?_, hrest⟩
    rw [mapLines, hend, if_pos rfl]
  | cons line below =>
    obtain ⟨n, c, rest, hn, hc, rfl⟩ := hbelow line rfl
    obtain ⟨hend, hdashes, hcomments⟩ := hrest.stays hc
    have hindent : (cursor above (List.replicate n ' ') (c :: rest) below).currentIndent
        (if firstLine then [' ', '-'] else [' ']) = some n :=
      currentIndent_text_of_start hc (by cases firstLine <;> simp)
    refine ⟨cursor above (List.replicate n ' ') (c :: rest) below, ?_, Or.inr ?_⟩
    · rw [mapLines, hend, if_neg Bool.false_ne_true, hdashes, if_neg Bool.false_ne_true, hcomments]
      dsimp only
      rw [cursor_atEndOfDocument, if_neg Bool.false_ne_true, cursor_currentLine,
        isIgnorableLine_text n hc.prints hc.notSpace hc.notHash, if_neg Bool.false_ne_true, hindent]
      exact if_pos hn
    · have hspaces : (cursor above [] (List.replicate n ' ' ++ c :: rest) below).consumeSpaces =
          cursor above (List.replicate n ' ') (c :: rest) below := cursor_consumeSpaces n (by simpa using hc.notSpace)
      rw [atLine_cons, hspaces]

/-- A key and its value. -/
theorem parseEntry_key {lineIndent : Nat} (hkey : ReadsBack key) (hspace : text.head? ≠ some ' ') (htag : text.head? ≠ some '!') :
    parseEntry floats (fuel + 1) lineIndent (cursor above left (serializeKey key ++ (List.replicate n ' ' ++ text)) below) =
      (parseValue floats fuel
        (peekToFindValueType (cursor above (left ++ serializeKey key ++ List.replicate n ' ') text below) lineIndent) none
        lineIndent (cursor above (left ++ serializeKey key ++ List.replicate n ' ') text below)).map fun value => (key, value) := by
  have hread : parseKey (cursor above left (serializeKey key ++ (List.replicate n ' ' ++ text)) below) [] =
      .ok (key, behindKey above left key (List.replicate n ' ' ++ text) below) := by
    have h := @parseKey_serializeKey above below left _ hkey 0 (List.replicate n ' ' ++ text)
    simpa using h
  have hspaces : (behindKey above left key (List.replicate n ' ' ++ text) below).consumeSpaces =
      cursor above (left ++ serializeKey key ++ List.replicate n ' ') text below := by
    have h := @cursor_consumeSpaces above below (left ++ keyText key ++ [':']) _ (n + 1) hspace
    rw [List.replicate_succ, List.cons_append] at h
    rw [behindKey, h]
    simp [serializeKey]
  have hstay : (cursor above (left ++ serializeKey key ++ List.replicate n ' ') text below).consumeSpaces =
      cursor above (left ++ serializeKey key ++ List.replicate n ' ') text below := cursor_consumeSpaces_none hspace
  have hnotag : parseTag (cursor above (left ++ serializeKey key ++ List.replicate n ' ') text below) =
      .ok (none, cursor above (left ++ serializeKey key ++ List.replicate n ' ') text below) := by
    rw [parseTag, cursor_startsWith_ne htag, if_neg Bool.false_ne_true]
  rw [parseEntry, hread]
  dsimp only [Except.mapError, Bind.bind, Except.bind]
  rw [hspaces, hnotag]
  dsimp only [Except.mapError]
  rw [hstay, if_neg (by simp)]
  cases parseValue floats fuel _ none lineIndent _ <;> rfl

end

end GnuRadio.Yaml
