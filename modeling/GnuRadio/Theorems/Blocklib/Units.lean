import Mathlib.Data.List.Nodup
import GnuRadio.Blocklib.Generator
import GnuRadio.Library.Fallible
import GnuRadio.Theorems.Pmt.Conversion

/-! The units of the block registrations: which registrations they hold, and when their files and symbols have names of
    their own. -/

namespace GnuRadio.Blocklib

variable {stem : Text} {pending : List Registration} {split : Bool} {maxPerTu : Nat}

/-! ### Names -/

variable {α : Type}

/-- Texts that end with a character and something without it are equal part by part. -/
theorem append_cons_inj {c : α} {xs ys us vs : List α} (hxs : c ∉ us) (hys : c ∉ vs) :
    xs ++ c :: us = ys ++ c :: vs ↔ xs = ys ∧ us = vs := by
  constructor
  · intro h
    induction xs generalizing ys with
    | nil =>
      cases ys with
      | nil => exact ⟨rfl, (List.cons.inj h).2⟩
      | cons y ys =>
        obtain ⟨-, h⟩ := List.cons.inj h
        exact absurd (h ▸ List.mem_append_right ys (.head _)) hxs
    | cons x xs ih =>
      cases ys with
      | nil =>
        obtain ⟨-, h⟩ := List.cons.inj h
        exact absurd (h.symm ▸ List.mem_append_right xs (.head _)) hys
      | cons y ys =>
        obtain ⟨rfl, hrest⟩ := List.cons.inj h
        obtain ⟨rfl, heq⟩ := ih hrest
        exact ⟨rfl, heq⟩
  · rintro ⟨rfl, rfl⟩
    rfl

theorem decimal_inj {m n : Nat} (h : decimal m = decimal n) : m = n := by
  rw [← Pmt.decimal_toDigits m, ← Pmt.decimal_toDigits n]
  exact congrArg Pmt.decimal h

theorem isDigit_of_mem_decimal {n : Nat} {c : Char} (h : c ∈ decimal n) : c.isDigit = true :=
  Nat.isDigit_of_mem_toDigits (by decide) (by decide) h

theorem underscore_not_mem_decimal (n : Nat) : '_' ∉ decimal n := fun h =>
  absurd (isDigit_of_mem_decimal h) (by decide)

/-- Names that end with a number after an underscore. -/
theorem numbered_inj {a b : Text} {m n : Nat} : a ++ '_' :: decimal m = b ++ '_' :: decimal n ↔ a = b ∧ m = n := by
  rw [append_cons_inj (underscore_not_mem_decimal m) (underscore_not_mem_decimal n)]
  exact and_congr_right' ⟨decimal_inj, congrArg decimal⟩

/-- Which file of a header it is: the definition unit of a registration, or a file of the registration unit with two
    numbers, of which the second counts within a macro. -/
inductive FileKey
  | definition (index : Nat)
  | source (unit : Nat × Nat)
  | declarations (unit : Nat × Nat)
  | calls (unit : Nat × Nat)
deriving DecidableEq

/-- The name of a registration unit. -/
def nameOf (stem : Text) (split : Bool) (unit : Nat × Nat) : Text :=
  if split then stem ++ '_' :: decimal unit.1 ++ '_' :: decimal unit.2 else stem ++ '_' :: decimal unit.1

/-- Without `split` the second number is zero. -/
def IsUnit (split : Bool) (unit : Nat × Nat) : Prop := split = false → unit.2 = 0

namespace FileKey

def name (stem : Text) (split : Bool) : FileKey → Text
  | .definition index => stem ++ "_block_".toList ++ decimal index ++ ".cpp".toList
  | .source unit => nameOf stem split unit ++ ".cpp".toList
  | .declarations unit => nameOf stem split unit ++ "_declarations.hpp.in".toList
  | .calls unit => nameOf stem split unit ++ "_raw_calls.hpp.in".toList

def IsKey (split : Bool) : FileKey → Prop
  | .definition _ => True
  | .source unit | .declarations unit | .calls unit => IsUnit split unit

end FileKey

theorem nameOf_inj {stem' : Text} {unit unit' : Nat × Nat} (h : nameOf stem split unit = nameOf stem' split unit')
    (hu : IsUnit split unit) (hu' : IsUnit split unit') : stem = stem' ∧ unit = unit' := by
  cases split with
  | false =>
    obtain ⟨hstem, hnumber⟩ := numbered_inj.mp h
    exact ⟨hstem, Prod.ext hnumber ((hu rfl).trans (hu' rfl).symm)⟩
  | true =>
    obtain ⟨h, hlocal⟩ := numbered_inj.mp h
    obtain ⟨hstem, hnumber⟩ := numbered_inj.mp h
    exact ⟨hstem, Prod.ext hnumber hlocal⟩

theorem definition_eq (stem : Text) (index : Nat) :
    stem ++ "_block_".toList ++ decimal index = (stem ++ "_block".toList) ++ '_' :: decimal index := by
  simp

theorem nameOf_eq_definition {stem' : Text} {unit : Nat × Nat} {index : Nat} :
    nameOf stem split unit = stem' ++ "_block_".toList ++ decimal index ↔
      split = false ∧ stem = stem' ++ "_block".toList ∧ unit.1 = index := by
  rw [definition_eq]
  cases split with
  | false => exact numbered_inj.trans ⟨fun h => ⟨rfl, h⟩, fun h => h.2⟩
  | true =>
    refine ⟨fun h => ?_, fun h => absurd h.1 (by decide)⟩
    obtain ⟨h, -⟩ := numbered_inj.mp h
    have hblock : stem' ++ "_block".toList = stem' ++ '_' :: "block".toList := rfl
    rw [hblock, append_cons_inj (underscore_not_mem_decimal _) (by decide)] at h
    have : 'b' ∈ decimal unit.1 := by
      rw [h.2]
      decide
    exact absurd (isDigit_of_mem_decimal this) (by decide)

theorem ne_of_not_suffix {xs ys us vs : List α} (hlen : us.length ≤ vs.length) (h : ¬ us <:+ vs) :
    xs ++ us ≠ ys ++ vs := fun heq =>
  h (List.suffix_of_suffix_length_le ⟨xs, heq⟩ (List.suffix_append ys vs) hlen)

/-- Two files of headers have one name only if they are the same file, or the two units of a stem with `_block`. -/
theorem FileKey.name_eq {stem' : Text} {key key' : FileKey} (h : key.name stem split = key'.name stem' split)
    (hkey : key.IsKey split) (hkey' : key'.IsKey split) :
    (stem = stem' ∧ key = key') ∨ (split = false ∧ (stem = stem' ++ "_block".toList ∨ stem' = stem ++ "_block".toList)) := by
  have hcpp (x y : Text) : (x ++ ".cpp".toList ≠ y ++ "_declarations.hpp.in".toList) ∧
      (x ++ ".cpp".toList ≠ y ++ "_raw_calls.hpp.in".toList) ∧
      x ++ "_raw_calls.hpp.in".toList ≠ y ++ "_declarations.hpp.in".toList :=
    ⟨ne_of_not_suffix (by decide) (by decide), ne_of_not_suffix (by decide) (by decide),
      ne_of_not_suffix (by decide) (by decide)⟩
  cases key with
  | definition i =>
    cases key' with
    | definition j =>
      have hname := List.append_cancel_right h
      rw [definition_eq, definition_eq] at hname
      obtain ⟨hstem, rfl⟩ := numbered_inj.mp hname
      exact .inl ⟨List.append_cancel_right hstem, rfl⟩
    | source unit =>
      obtain ⟨hsplit, hstem, -⟩ := nameOf_eq_definition.mp (List.append_cancel_right h).symm
      exact .inr ⟨hsplit, .inr hstem⟩
    | declarations unit => exact absurd h (hcpp _ _).1
    | calls unit => exact absurd h (hcpp _ _).2.1
  | source unit =>
    cases key' with
    | definition j =>
      obtain ⟨hsplit, hstem, -⟩ := nameOf_eq_definition.mp (List.append_cancel_right h)
      exact .inr ⟨hsplit, .inl hstem⟩
    | source unit' =>
      obtain ⟨hstem, rfl⟩ := nameOf_inj (List.append_cancel_right h) hkey hkey'
      exact .inl ⟨hstem, rfl⟩
    | declarations unit' => exact absurd h (hcpp _ _).1
    | calls unit' => exact absurd h (hcpp _ _).2.1
  | declarations unit =>
    cases key' with
    | definition j | source unit' => exact absurd h.symm (hcpp _ _).1
    | declarations unit' =>
      obtain ⟨hstem, rfl⟩ := nameOf_inj (List.append_cancel_right h) hkey hkey'
      exact .inl ⟨hstem, rfl⟩
    | calls unit' => exact absurd h.symm (hcpp _ _).2.2
  | calls unit =>
    cases key' with
    | definition j | source unit' => exact absurd h.symm (hcpp _ _).2.1
    | declarations unit' => exact absurd h (hcpp _ _).2.2
    | calls unit' =>
      obtain ⟨hstem, rfl⟩ := nameOf_inj (List.append_cancel_right h) hkey hkey'
      exact .inl ⟨hstem, rfl⟩

/-! ### Grouping -/

/-- What the grouping of registrations gives: each of them in one unit, and names by distinct numbers, the first of them
    zero. -/
structure Groups (stem : Text) (split : Bool) (n : Nat) (units : List TranslationUnit) : Prop where
  members : units.flatMap (·.members) = List.range n
  names : ∃ keys : List (Nat × Nat), units.map (·.name) = keys.map (nameOf stem split) ∧ keys.Nodup ∧
    (∀ key ∈ keys, IsUnit split key) ∧ (0 < n → split = false → (0, 0) ∈ keys)

/-- The registrations before a chunk. -/
def chunkStart (total chunkCount chunk : Nat) : Nat := chunk * (total / chunkCount) + min chunk (total % chunkCount)

theorem chunkStart_succ (total chunkCount chunk : Nat) : chunkStart total chunkCount (chunk + 1) =
    chunkStart total chunkCount chunk + (total / chunkCount + (if chunk < total % chunkCount then 1 else 0)) := by
  rw [chunkStart, chunkStart, Nat.succ_mul]
  split <;> omega

theorem chunkStart_all {total chunkCount : Nat} (h : 0 < chunkCount) : chunkStart total chunkCount chunkCount = total := by
  have hmod := Nat.mod_lt total h
  have hdiv := Nat.div_add_mod total chunkCount
  rw [chunkStart, Nat.min_eq_right (Nat.le_of_lt hmod), hdiv]

theorem chunks_members (stem : Text) (total : Nat) {chunkCount chunk left : Nat} (hleft : chunk + left = chunkCount) :
    ∃ n, (chunks stem total chunkCount chunk (chunkStart total chunkCount chunk) left).flatMap (·.members) =
        List.range' (chunkStart total chunkCount chunk) n ∧
      chunkStart total chunkCount chunk + n = chunkStart total chunkCount chunkCount := by
  induction left generalizing chunk with
  | zero =>
    rw [Nat.add_zero] at hleft
    rw [hleft]
    exact ⟨0, rfl, Nat.add_zero _⟩
  | succ left ih =>
    obtain ⟨n, hn, hsum⟩ := @ih (chunk + 1) (by omega)
    have hnext := chunkStart_succ total chunkCount chunk
    refine ⟨total / chunkCount + (if chunk < total % chunkCount then 1 else 0) + n, ?_, by omega⟩
    rw [chunks, List.flatMap_cons, ← hnext, hn, hnext]
    exact List.range'_append_1

theorem chunks_names {total chunkCount chunk next left : Nat} :
    (chunks stem total chunkCount chunk next left).map (·.name) =
      ((List.range' chunk left).map fun chunk => (chunk, 0)).map (nameOf stem false) := by
  induction left generalizing chunk next with
  | zero => rfl
  | succ left ih =>
    rw [chunks, List.map_cons, ih]
    rfl

theorem chunks_size {total chunkCount chunk next left : Nat} : ∀ unit ∈ chunks stem total chunkCount chunk next left,
    unit.members.length = total / chunkCount ∨ total % chunkCount ≠ 0 ∧ unit.members.length = total / chunkCount + 1 := by
  induction left generalizing chunk next with
  | zero => exact fun unit h => nomatch h
  | succ left ih =>
    intro unit h
    rcases List.mem_cons.mp h with rfl | h
    · rw [List.length_range']
      split
      · exact .inr ⟨by omega, rfl⟩
      · exact .inl rfl
    · exact ih unit h

/-- The size of a chunk is within the limit. -/
theorem chunk_le {total : Nat} (hmax : 0 < maxPerTu) (htotal : 0 < total) :
    0 < (total + maxPerTu - 1) / maxPerTu ∧ total / ((total + maxPerTu - 1) / maxPerTu) ≤ maxPerTu ∧
    (total % ((total + maxPerTu - 1) / maxPerTu) ≠ 0 → total / ((total + maxPerTu - 1) / maxPerTu) + 1 ≤ maxPerTu) := by
  have hcount : 0 < (total + maxPerTu - 1) / maxPerTu := Nat.div_pos (by omega) hmax
  have hcover : total ≤ (total + maxPerTu - 1) / maxPerTu * maxPerTu := by
    have := Nat.div_add_mod (total + maxPerTu - 1) maxPerTu
    have := Nat.mod_lt (total + maxPerTu - 1) hmax
    rw [Nat.mul_comm]
    omega
  generalize (total + maxPerTu - 1) / maxPerTu = count at hcount hcover
  refine ⟨hcount, Nat.div_le_of_le_mul hcover, fun hmod => ?_⟩
  refine Nat.div_lt_of_lt_mul (Nat.lt_of_le_of_ne hcover ?_)
  rintro rfl
  exact hmod (Nat.mul_mod_right _ _)

theorem groups_chunks (hmax : 0 < maxPerTu) (hpending : pending ≠ []) :
    Groups stem false pending.length (registrationUnits stem pending false maxPerTu) := by
  have htotal := List.length_pos_of_ne_nil hpending
  obtain ⟨hcount, -⟩ := chunk_le hmax htotal
  rw [registrationUnits, if_pos ⟨hmax, hpending⟩]
  generalize (pending.length + maxPerTu - 1) / maxPerTu = count at hcount
  have hstart : chunkStart pending.length count 0 = 0 := by
    rw [chunkStart, Nat.zero_mul, Nat.zero_min]
  constructor
  · obtain ⟨n, hn, hsum⟩ := chunks_members stem pending.length (Nat.zero_add count)
    rw [hstart] at hn hsum
    rw [chunkStart_all hcount, Nat.zero_add] at hsum
    rw [hn, hsum, List.range_eq_range']
  · refine ⟨_, chunks_names, ?_, ?_, ?_⟩
    · exact List.Nodup.map (fun a b h => congrArg Prod.fst h) (List.nodup_range' 1 Nat.one_pos)
    · intro key hkey _
      obtain ⟨chunk, -, rfl⟩ := List.mem_map.mp hkey
      rfl
    · exact fun _ _ => List.mem_map.mpr ⟨0, List.mem_range'_1.mpr ⟨Nat.le_refl 0, by omega⟩, rfl⟩

/-- The macro indices of the registrations grow, and the first one follows the one before them or is zero. -/
def Follows (previous : Option Nat) : List Registration → Prop
  | [] => True
  | entry :: entries => (∀ m ∈ previous, m ≤ entry.macroIndex) ∧ (previous = none → entry.macroIndex = 0) ∧
      Follows (some entry.macroIndex) entries

theorem modify_concat (l : List α) (a : α) (g : α → α) : (l ++ [a]).modify l.length g = l ++ [g a] := by
  induction l with
  | nil => rfl
  | cons b l ih => rw [List.cons_append, List.length_cons, List.modify_succ_cons, ih, List.cons_append]

/-- What holds of the units in the loop over the registrations: the numbers of their names come before those to come. -/
structure Grouping (stem : Text) (split : Bool) (units : List TranslationUnit) (index localIndex : Nat)
    (previous : Option Nat) (keys : List (Nat × Nat)) : Prop where
  members : units.flatMap (·.members) = List.range index
  names : units.map (·.name) = keys.map (nameOf stem split)
  nodup : keys.Nodup
  isUnit : ∀ key ∈ keys, IsUnit split key
  before : ∀ m ∈ previous, ∀ key ∈ keys, key.1 < m ∨ key.1 = m ∧ key.2 ≤ localIndex
  start : previous = none → keys = []
  first : previous ≠ none → split = false → (0, 0) ∈ keys
  index : 0 < index → previous ≠ none

variable {previous : Option Nat} {units : List TranslationUnit} {keys : List (Nat × Nat)}

theorem Grouping.append {index localIndex macroIndex : Nat} (h : Grouping stem split units index localIndex previous keys) (number : Nat)
    (hnumber : IsUnit split (macroIndex, number)) (hnew : (macroIndex, number) ∉ keys)
    (hbefore : ∀ key ∈ keys, key.1 < macroIndex ∨ key.1 = macroIndex ∧ key.2 ≤ number)
    (hfirst : previous = none → macroIndex = 0) :
    Grouping stem split (units ++ [⟨nameOf stem split (macroIndex, number), [index]⟩]) (index + 1) number
      (some macroIndex) (keys ++ [(macroIndex, number)]) where
  members := by
    rw [List.flatMap_append, h.members, List.flatMap_singleton, List.range_succ]
  names := by
    rw [List.map_append, List.map_append, h.names]
    rfl
  nodup := by
    refine List.nodup_append.mpr ⟨h.nodup, List.nodup_singleton _, fun a ha b hb => ?_⟩
    rintro rfl
    rw [List.mem_singleton.mp hb] at ha
    exact hnew ha
  isUnit key hkey := by
    rcases List.mem_append.mp hkey with hkey | hkey
    · exact h.isUnit key hkey
    · rw [List.mem_singleton.mp hkey]
      exact hnumber
  before m hm key hkey := by
    cases hm
    rcases List.mem_append.mp hkey with hkey | hkey
    · exact hbefore key hkey
    · rw [List.mem_singleton.mp hkey]
      exact .inr ⟨rfl, Nat.le_refl _⟩
  start := nofun
  first := by
    intro _ hsplit
    cases hprevious : previous with
    | none =>
      have hzero := hnumber hsplit
      refine List.mem_append_right _ ?_
      rw [hfirst hprevious, show number = 0 from hzero]
      exact List.mem_singleton_self _
    | some m => exact List.mem_append_left _ (h.first (by rw [hprevious]; exact Option.some_ne_none m) hsplit)
  index := fun _ => Option.some_ne_none _

theorem Grouping.step {index localIndex : Nat} {entry : Registration} (h : Grouping stem split units index localIndex previous keys)
    (hle : ∀ m ∈ previous, m ≤ entry.macroIndex) (hfirst : previous = none → entry.macroIndex = 0) :
    let current := if previous = some entry.macroIndex then localIndex + 1 else 0
    ∃ keys', Grouping stem split (addRegistration stem split units index entry.macroIndex current) (index + 1) current
      (some entry.macroIndex) keys' := by
  intro current
  by_cases hsame : previous = some entry.macroIndex
  · have hcurrent : current = localIndex + 1 := if_pos hsame
    rw [hcurrent]
    cases split with
    | true =>
      refine ⟨_, h.append (localIndex + 1) (nofun) (fun hmem => ?_) (fun key hkey => ?_) hfirst⟩
      · rcases h.before _ hsame _ hmem with hlt | ⟨-, hle⟩
        · exact Nat.lt_irrefl _ hlt
        · exact Nat.not_succ_le_self _ hle
      · rcases h.before _ hsame key hkey with hlt | ⟨heq, hle⟩
        · exact .inl hlt
        · exact .inr ⟨heq, Nat.le_succ_of_le hle⟩
    | false =>
      -- the registration joins the unit of its macro
      rw [addRegistration, if_neg Bool.false_ne_true, if_neg (Nat.succ_ne_zero _)]
      have hne : units ≠ [] := by
        rintro rfl
        have hkeys : keys = [] := List.map_eq_nil_iff.mp h.names.symm
        have := h.first (by rw [hsame]; exact Option.some_ne_none _) rfl
        rw [hkeys] at this
        cases this
      obtain ⟨before, last, rfl⟩ : ∃ before last, units = before ++ [last] :=
        ⟨units.dropLast, units.getLast hne, (List.dropLast_append_getLast hne).symm⟩
      have hmodify : (before ++ [last]).modify ((before ++ [last]).length - 1)
          (fun unit => { unit with members := unit.members ++ [index] }) =
          before ++ [{ last with members := last.members ++ [index] }] := by
        rw [List.length_append, List.length_singleton, Nat.add_sub_cancel, modify_concat]
      rw [hmodify]
      refine ⟨keys, ?_, ?_, h.nodup, h.isUnit, ?_, (nofun), fun _ => h.first ?_, fun _ => Option.some_ne_none _⟩
      · rw [List.range_succ, ← h.members, List.flatMap_append, List.flatMap_append, List.flatMap_singleton,
          List.flatMap_singleton, List.append_assoc]
      · rw [← h.names, List.map_append, List.map_append]
        rfl
      · intro m hm key hkey
        cases hm
        rcases h.before _ hsame key hkey with hlt | ⟨heq, hle⟩
        · exact .inl hlt
        · exact .inr ⟨heq, Nat.le_succ_of_le hle⟩
      · rw [hsame]
        exact Option.some_ne_none _
  · have hcurrent : current = 0 := if_neg hsame
    have hlt (key : Nat × Nat) (hkey : key ∈ keys) : key.1 < entry.macroIndex := by
      cases hprevious : previous with
      | none =>
        rw [h.start hprevious] at hkey
        cases hkey
      | some m =>
        have hm := hle m hprevious
        have hne : m ≠ entry.macroIndex := fun heq => hsame (heq ▸ hprevious)
        rcases h.before m hprevious key hkey with hlt | ⟨heq, -⟩ <;> omega
    have hadd : addRegistration stem split units index entry.macroIndex 0 =
        units ++ [⟨nameOf stem split (entry.macroIndex, 0), [index]⟩] := by
      cases split <;> rfl
    rw [hcurrent, hadd]
    exact ⟨_, h.append 0 (fun _ => rfl) (fun hmem => Nat.lt_irrefl _ (hlt _ hmem))
      (fun key hkey => .inl (hlt key hkey)) hfirst⟩

theorem groupFrom_groups {index localIndex : Nat} {entries : List Registration} (h : Grouping stem split units index localIndex previous keys)
    (hfollows : Follows previous entries) :
    Groups stem split (index + entries.length) (groupFrom stem split units index localIndex previous entries) := by
  induction entries generalizing units index localIndex previous keys with
  | nil => exact ⟨h.members, keys, h.names, h.nodup, h.isUnit, fun hlt hsplit => h.first (h.index hlt) hsplit⟩
  | cons entry entries ih =>
    obtain ⟨hle, hfirst, hfollows⟩ := hfollows
    obtain ⟨keys', h'⟩ := h.step hle hfirst
    have := ih h' hfollows
    rw [Nat.add_right_comm, Nat.add_assoc] at this
    exact this

theorem groups_registrationUnits (hfollows : Follows none pending) (hexclusive : split = true → maxPerTu = 0) :
    Groups stem split pending.length (registrationUnits stem pending split maxPerTu) := by
  by_cases hchunks : 0 < maxPerTu ∧ pending ≠ []
  · cases split with
    | true => exact absurd (hexclusive rfl) (Nat.ne_of_gt hchunks.1)
    | false => exact groups_chunks hchunks.1 hchunks.2
  · rw [registrationUnits, if_neg hchunks]
    have start : Grouping stem split [] 0 0 none [] :=
      ⟨rfl, rfl, .nil, nofun, (nofun), fun _ => rfl,
        fun h => absurd rfl h, fun h => absurd h (Nat.lt_irrefl 0)⟩
    have := groupFrom_groups start hfollows
    rwa [Nat.zero_add] at this

/-! ### Expansion -/

theorem foldl_product (groups : List (List α)) (combinations : List (List α)) (values : List α) :
    values ∈ groups.foldl (fun combinations group => combinations.flatMap fun chosen => group.map fun value => chosen ++ [value])
        combinations ↔
      ∃ chosen ∈ combinations, ∃ rest, List.Forall₂ (· ∈ ·) rest groups ∧ values = chosen ++ rest := by
  induction groups generalizing combinations with
  | nil =>
    refine ⟨fun h => ⟨values, h, [], .nil, (List.append_nil _).symm⟩, ?_⟩
    rintro ⟨chosen, hchosen, rest, hrest, rfl⟩
    cases hrest
    rw [List.append_nil]
    exact hchosen
  | cons group groups ih =>
    rw [List.foldl_cons, ih]
    constructor
    · rintro ⟨chosen, hchosen, rest, hrest, rfl⟩
      obtain ⟨before, hbefore, hchosen⟩ := List.mem_flatMap.mp hchosen
      obtain ⟨value, hvalue, rfl⟩ := List.mem_map.mp hchosen
      exact ⟨before, hbefore, value :: rest, .cons hvalue hrest, by rw [List.append_assoc]; rfl⟩
    · rintro ⟨chosen, hchosen, rest, hrest, rfl⟩
      cases hrest with
      | cons hvalue hrest =>
        exact ⟨_, List.mem_flatMap.mpr ⟨chosen, hchosen, List.mem_map_of_mem hvalue⟩, _, hrest, by rw [List.append_assoc]; rfl⟩

/-- A pack is expanded by one value of each group, in every way. -/
theorem mem_cartesianProduct {groups : List (List α)} {values : List α} :
    values ∈ cartesianProduct groups ↔ List.Forall₂ (· ∈ ·) values groups := by
  rw [cartesianProduct, foldl_product]
  constructor
  · rintro ⟨chosen, hchosen, rest, hrest, rfl⟩
    rw [List.mem_singleton.mp hchosen]
    exact hrest
  · exact fun h => ⟨[], List.mem_singleton_self _, values, h, rfl⟩

/-- Every group that is read has a value. -/
theorem groups_ne_nil {body : Text} {marker : Marker} (h : parseMarker body = .ok marker) : ∀ group ∈ marker.groups, group ≠ [] := by
  rw [parseMarker] at h
  obtain ⟨parts, -, h⟩ := Fallible.bind_eq_ok h
  simp only at h
  split at h
  · cases h
  · obtain ⟨groups, -, h⟩ := Fallible.bind_eq_ok h
    cases h
    intro group hgroup
    exact of_decide_eq_true (List.mem_filter.mp hgroup).2

theorem registrations_ne_nil {marker : Marker} (h : ∀ group ∈ marker.groups, group ≠ []) (line macroIndex : Nat) :
    marker.registrations line macroIndex ≠ [] := by
  have hchoice : ∃ values, List.Forall₂ (· ∈ ·) values marker.groups := by
    generalize marker.groups = groups at h
    induction groups with
    | nil => exact ⟨[], .nil⟩
    | cons group groups ih =>
      obtain ⟨values, hvalues⟩ := ih fun g hg => h g (.tail _ hg)
      obtain ⟨value, hvalue⟩ := List.exists_mem_of_ne_nil group (h group (.head _))
      exact ⟨value :: values, .cons hvalue hvalues⟩
  obtain ⟨values, hvalues⟩ := hchoice
  exact List.ne_nil_of_mem (List.mem_map_of_mem (mem_cartesianProduct.mpr hvalues))

theorem markerOf_groups {header raw : Text} {line : Nat} {marker : Marker} (h : markerOf header line raw = .ok (some marker)) :
    ∀ group ∈ marker.groups, group ≠ [] := by
  rw [markerOf] at h
  split at h
  · cases h
  · split at h
    · cases h
    · split at h
      · cases h
      · split at h
        · obtain ⟨m, hm, hmarker⟩ := Fallible.map_eq_ok h
          cases hmarker
          exact groups_ne_nil (Fallible.mapError_eq_ok hm)
        · cases h

theorem Follows.append {macroIndex : Nat} {entries rest : List Registration}
    (hentries : ∀ entry ∈ entries, entry.macroIndex = macroIndex) (hle : ∀ m ∈ previous, m ≤ macroIndex)
    (hnone : previous = none → macroIndex = 0) (hne : previous = some macroIndex ∨ entries ≠ [])
    (hrest : Follows (some macroIndex) rest) : Follows previous (entries ++ rest) := by
  induction entries generalizing previous with
  | nil =>
    rw [hne.resolve_right fun h => h rfl]
    exact hrest
  | cons entry entries ih =>
    have heq := hentries entry (.head _)
    refine ⟨fun m hm => heq ▸ hle m hm, fun h => heq ▸ hnone h, ?_⟩
    rw [heq]
    exact ih (fun e he => hentries e (.tail _ he)) (fun m hm => by cases hm; exact Nat.le_refl _)
      (nofun) (.inl rfl)

theorem follows_registrationsFrom {header : Text} {lineNumber macroCount : Nat} {lines : List Text}
    (h : registrationsFrom header lineNumber macroCount lines = .ok pending) (hle : ∀ m ∈ previous, m ≤ macroCount)
    (hnone : previous = none → macroCount = 0) : Follows previous pending := by
  induction lines generalizing pending lineNumber macroCount previous with
  | nil =>
    cases h
    trivial
  | cons raw lines ih =>
    rw [registrationsFrom] at h
    obtain ⟨marker, hmarker, h⟩ := Fallible.bind_eq_ok h
    cases marker with
    | none => exact ih h hle hnone
    | some marker =>
      obtain ⟨rest, hrest, h⟩ := Fallible.bind_eq_ok h
      cases h
      refine Follows.append (?_ : ∀ entry ∈ (_ : List Registration), entry.macroIndex = macroCount) hle hnone
        (.inr (registrations_ne_nil (markerOf_groups hmarker) lineNumber macroCount))
        (ih hrest (fun m hm => by cases hm; exact Nat.le_succ _) nofun)
      intro entry hentry
      obtain ⟨values, -, rfl⟩ := List.mem_map.mp hentry
      rfl

theorem follows_pending (r : Run) : Follows none r.pending := by
  rw [Run.pending]
  cases h : registrationsOf r.2.path r.2.content with
  | error e => trivial
  | ok pending => exact follows_registrationsFrom h (nofun) fun _ => rfl

/-! ### Runs -/

namespace Run

variable (r : Run)

theorem written_eq : r.written = filesOf r.1.module r.1.options r.2 r.pending := by
  rw [written, generate, pending]
  cases registrationsOf r.2.path r.2.content with
  | error e =>
    show [] = filesOf r.1.module r.1.options r.2 []
    rw [filesOf, registrationUnits, if_neg fun h => h.2 rfl]
    rfl
  | ok pending => rfl

theorem groups : Groups r.2.stem r.1.options.split r.pending.length r.units :=
  groups_registrationUnits (follows_pending r) r.1.options.exclusive

theorem map_definitionFiles {β : Type} {g : Text × Source → β} {f : Nat → β} (module : Text) (options : Options) (header : Header)
    (pending : List Registration)
    (h : ∀ (index : Nat) (entry : Registration), pending[index]? = some entry →
      g (header.stem ++ "_block_".toList ++ decimal index ++ ".cpp".toList,
        .definition options header.path entry.line (factorySymbol module header index) (registrationSymbol module header index)
          entry.blockType entry.finalName) = f index) :
    (definitionFiles module options header pending).map g = (List.range pending.length).map f := by
  refine List.ext_getElem (by simp [definitionFiles]) fun i hi _ => ?_
  simp only [definitionFiles, List.length_map, List.length_mapIdx] at hi
  simp only [definitionFiles, List.getElem_map, List.getElem_mapIdx, List.getElem_range]
  exact h i pending[i] (List.getElem?_eq_getElem hi)

/-- The names of the files that a run writes. -/
theorem names_written : ∃ keys : List FileKey, r.written.map (·.1) = keys.map (FileKey.name r.2.stem r.1.options.split) ∧
    keys.Nodup ∧ (∀ key ∈ keys, key.IsKey r.1.options.split) ∧ (keys ≠ [] → r.pending ≠ []) ∧
    (r.pending ≠ [] → .definition 0 ∈ keys ∧ (r.1.options.split = false → .source (0, 0) ∈ keys)) := by
  obtain ⟨hmembers, units, hnames, hnodup, hunit, hfirst⟩ := r.groups
  refine ⟨(List.range r.pending.length).map .definition ++
    units.flatMap fun unit => [.source unit, .declarations unit, .calls unit], ?_, ?_, ?_, ?_, ?_⟩
  · rw [written_eq, filesOf, List.map_append, List.map_append, map_definitionFiles (f := fun index => FileKey.name r.2.stem
      r.1.options.split (.definition index)) _ _ _ _ fun _ _ _ => rfl, List.map_map]
    congr 1
    have hfiles (l : List TranslationUnit) : (l.flatMap (unitFiles r.1.module r.1.options r.2 r.pending)).map (·.1) =
        (l.map (·.name)).flatMap fun name =>
          [name ++ ".cpp".toList, name ++ "_declarations.hpp.in".toList, name ++ "_raw_calls.hpp.in".toList] := by
      rw [List.map_flatMap, List.flatMap_map]
      rfl
    rw [hfiles, show registrationUnits r.2.stem r.pending r.1.options.split r.1.options.maxPerTu = r.units from rfl, hnames,
      List.flatMap_map, List.map_flatMap]
    rfl
  · refine List.nodup_append.mpr ⟨List.Nodup.map (fun _ _ h => FileKey.definition.inj h) List.nodup_range, ?_, ?_⟩
    · refine List.nodup_flatMap.mpr ⟨fun unit _ => by simp, hnodup.imp fun hne => ?_⟩
      refine List.disjoint_left.mpr ?_
      intro key hkey hkey'
      simp only [List.mem_cons, List.not_mem_nil, or_false] at hkey hkey'
      rcases hkey with rfl | rfl | rfl
      · exact hne (FileKey.source.inj (hkey'.resolve_right (by simp)))
      · exact hne (FileKey.declarations.inj ((hkey'.resolve_left (by simp)).resolve_right (by simp)))
      · exact hne (FileKey.calls.inj ((hkey'.resolve_left (by simp)).resolve_left (by simp)))
    · intro a ha b hb
      obtain ⟨index, -, rfl⟩ := List.mem_map.mp ha
      obtain ⟨unit, -, hb⟩ := List.mem_flatMap.mp hb
      rintro rfl
      simp at hb
  · intro key hkey
    rcases List.mem_append.mp hkey with hkey | hkey
    · obtain ⟨index, -, rfl⟩ := List.mem_map.mp hkey
      trivial
    · obtain ⟨unit, hu, hkey⟩ := List.mem_flatMap.mp hkey
      have := hunit unit hu
      simp only [List.mem_cons, List.not_mem_nil, or_false] at hkey
      rcases hkey with rfl | rfl | rfl <;> exact this
  · intro hne hnil
    have hunits : r.units = [] := by
      rw [Run.units, hnil, registrationUnits, if_neg fun h => h.2 rfl]
      rfl
    rw [hunits] at hnames
    rw [List.map_eq_nil_iff.mp hnames.symm, hnil] at hne
    exact hne rfl
  · intro hne
    have hpos := List.length_pos_of_ne_nil hne
    refine ⟨List.mem_append_left _ (List.mem_map.mpr ⟨0, List.mem_range.mpr hpos, rfl⟩), fun hsplit => ?_⟩
    exact List.mem_append_right _ (List.mem_flatMap.mpr ⟨(0, 0), hfirst hpos hsplit, .head _⟩)

theorem paths_written {r : Run} {keys : List FileKey}
    (h : r.written.map (·.1) = keys.map (FileKey.name r.2.stem r.1.options.split)) :
    r.written.map (fun file => (r.1.module, file.1)) =
      keys.map fun key => (r.1.module, FileKey.name r.2.stem r.1.options.split key) := by
  rw [show (fun file : Text × Source => (r.1.module, file.1)) = (r.1.module, ·) ∘ (·.1) from rfl, ← List.map_map, h, List.map_map]
  rfl

theorem nodup_paths : (r.written.map fun file => (r.1.module, file.1)).Nodup := by
  obtain ⟨keys, hnames, hnodup, hkeys, -⟩ := r.names_written
  rw [paths_written hnames]
  refine List.Nodup.map_on (fun key hkey key' hkey' heq => ?_) hnodup
  rcases FileKey.name_eq (Prod.ext_iff.mp heq).2 (hkeys key hkey) (hkeys key' hkey') with ⟨-, h⟩ | ⟨-, h⟩
  · exact h
  · have := congrArg List.length (h.elim id id)
    rw [List.length_append] at this
    exact absurd this (by simp)

theorem factories_written : r.written.flatMap (·.2.factories) = (List.range r.pending.length).map (factorySymbol r.1.module r.2) := by
  have hunits (l : List TranslationUnit) :
      (l.flatMap (unitFiles r.1.module r.1.options r.2 r.pending)).flatMap (fun file => file.2.factories) = [] := by
    rw [List.flatMap_assoc]
    exact List.flatMap_eq_nil_iff.mpr fun unit _ => rfl
  rw [written_eq, filesOf, List.flatMap_append, hunits, List.append_nil, List.flatMap_def,
    map_definitionFiles (f := fun index => [factorySymbol r.1.module r.2 index]) _ _ _ _ fun _ _ _ => rfl, ← List.flatMap_def,
    List.map_eq_flatMap]

/-- Each registration has its definition unit. -/
theorem exists_definition {member : Nat} {entry : Registration} (h : r.pending[member]? = some entry) :
    ∃ file ∈ r.written, registrationSymbol r.1.module r.2 member ∈ file.2.defines := by
  obtain ⟨hlt, -⟩ := List.getElem?_eq_some_iff.mp h
  rw [written_eq, filesOf]
  refine ⟨_, List.mem_append_left _ (List.mem_mapIdx.mpr ⟨member, hlt, rfl⟩), ?_⟩
  exact .tail _ (List.mem_singleton_self _)

theorem declared_written : ∀ file ∈ r.written, ∀ symbol ∈ file.2.declares, ∃ file' ∈ r.written, symbol ∈ file'.2.defines := by
  intro file hfile symbol hsymbol
  rw [written_eq, filesOf] at hfile
  rcases List.mem_append.mp hfile with hfile | hfile
  · obtain ⟨index, hlt, rfl⟩ := List.mem_mapIdx.mp hfile
    cases hsymbol
  · obtain ⟨unit, hunit, hfile⟩ := List.mem_flatMap.mp hfile
    have hinit : ∃ file' ∈ r.written, initSymbol r.1.module unit ∈ file'.2.defines := by
      rw [written_eq, filesOf]
      exact ⟨_, List.mem_append_right _ (List.mem_flatMap.mpr ⟨unit, hunit, .head _⟩), List.mem_singleton_self _⟩
    simp only [unitFiles, List.mem_cons, List.not_mem_nil, or_false] at hfile
    rcases hfile with rfl | rfl | rfl
    · obtain ⟨entry, hentry, rfl⟩ := List.mem_map.mp hsymbol
      obtain ⟨member, -, hmember⟩ := List.mem_filterMap.mp hentry
      obtain ⟨entry, hpending, rfl⟩ := Option.map_eq_some_iff.mp hmember
      exact r.exists_definition hpending
    · rw [List.mem_singleton.mp hsymbol]
      exact hinit
    · rw [List.mem_singleton.mp hsymbol]
      exact hinit

theorem sizes_units (hmax : 0 < r.1.options.maxPerTu) : ∀ u ∈ r.units, u.members.length ≤ r.1.options.maxPerTu ∧
    ∀ v ∈ r.units, u.members.length ≤ v.members.length + 1 := by
  intro u hu
  by_cases hpending : r.pending = []
  · have hunits : r.units = [] := by
      rw [Run.units, hpending, registrationUnits, if_neg fun h => h.2 rfl]
      rfl
    rw [hunits] at hu
    cases hu
  · obtain ⟨-, hle, hle'⟩ := chunk_le hmax (List.length_pos_of_ne_nil hpending)
    rw [units, registrationUnits, if_pos ⟨hmax, hpending⟩] at *
    have hsize := chunks_size u hu
    refine ⟨?_, fun v hv => ?_⟩
    · rcases hsize with h | ⟨hmod, h⟩
      · rw [h]
        exact hle
      · rw [h]
        exact hle' hmod
    · have hsize' := chunks_size v hv
      omega

end Run

theorem mem_runs {b : Build} {r : Run} (h : r ∈ b.runs) : r.1 ∈ b.libraries ∧ r.2 ∈ r.1.headers := by
  obtain ⟨library, hlibrary, h⟩ := List.mem_flatMap.mp h
  obtain ⟨header, hheader, rfl⟩ := List.mem_map.mp h
  exact ⟨hlibrary, hheader⟩

/-- The runs for one module are of one library. -/
theorem library_eq {b : Build} {r r' : Run} (h : r ∈ b.runs) (h' : r' ∈ b.runs) (hmodule : r.1.module = r'.1.module) : r.1 = r'.1 :=
  List.inj_on_of_nodup_map b.modules (mem_runs h).1 (mem_runs h').1 hmodule

theorem symbol_inj {start module module' stem stem' : Text} {i j : Nat} :
    start ++ module ++ '_' :: stem ++ '_' :: decimal i = start ++ module' ++ '_' :: stem' ++ '_' :: decimal j ↔
      module ++ '_' :: stem = module' ++ '_' :: stem' ∧ i = j := by
  rw [numbered_inj, List.append_assoc, List.append_assoc, List.append_right_inj]

theorem factorySymbol_inj {module module' : Text} {header header' : Header} {i j : Nat} :
    factorySymbol module header i = factorySymbol module' header' j ↔
      module ++ '_' :: header.stem = module' ++ '_' :: header'.stem ∧ i = j := symbol_inj

/-- Headers stay apart if and only if their files and factories do. -/
theorem apart_iff {b : Build} {r r' : Run} (h : r ∈ b.runs) (h' : r' ∈ b.runs) :
    r.Apart r' ↔
      List.Disjoint (r.written.map fun file => (r.1.module, file.1)) (r'.written.map fun file => (r'.1.module, file.1)) ∧
      List.Disjoint (r.written.flatMap (·.2.factories)) (r'.written.flatMap (·.2.factories)) := by
  obtain ⟨keys, hnames, -, hkeys, hne, hfirst⟩ := r.names_written
  obtain ⟨keys', hnames', -, hkeys', hne', hfirst'⟩ := r'.names_written
  rw [Run.paths_written hnames, Run.paths_written hnames', Run.factories_written, Run.factories_written, List.disjoint_left, List.disjoint_left]
  constructor
  · intro hapart
    refine ⟨fun file hfile hfile' => ?_, fun symbol hsymbol hsymbol' => ?_⟩
    · obtain ⟨key, hkey, rfl⟩ := List.mem_map.mp hfile
      obtain ⟨key', hkey', heq⟩ := List.mem_map.mp hfile'
      obtain ⟨hmodule, hname⟩ := Prod.ext_iff.mp heq
      have hlibrary := library_eq h' h hmodule
      obtain ⟨hsymbols, hblock⟩ := hapart (hne (List.ne_nil_of_mem hkey)) (hne' (List.ne_nil_of_mem hkey'))
      rw [hlibrary] at hname hkeys'
      rcases FileKey.name_eq hname (hkeys' key' hkey') (hkeys key hkey) with ⟨hstem, -⟩ | ⟨hsplit, hstem⟩
      · exact hsymbols (by rw [hlibrary, hstem])
      · obtain ⟨hne₁, hne₂⟩ := hblock hmodule.symm hsplit
        exact hstem.elim hne₂ hne₁
    · obtain ⟨i, hi, rfl⟩ := List.mem_map.mp hsymbol
      obtain ⟨j, hj, heq⟩ := List.mem_map.mp hsymbol'
      have hpos {r : Run} {i : Nat} (hi : i ∈ List.range r.pending.length) : r.pending ≠ [] :=
        List.ne_nil_of_length_pos (Nat.lt_of_le_of_lt (Nat.zero_le i) (List.mem_range.mp hi))
      exact (hapart (hpos hi) (hpos hj)).1 (factorySymbol_inj.mp heq).1.symm
  · rintro ⟨hfiles, hsymbols⟩ hpending hpending'
    refine ⟨fun heq => ?_, fun hmodule hsplit => ⟨fun hstem => ?_, fun hstem => ?_⟩⟩
    · refine hsymbols (List.mem_map.mpr ⟨0, List.mem_range.mpr (List.length_pos_of_ne_nil hpending), rfl⟩)
        (List.mem_map.mpr ⟨0, List.mem_range.mpr (List.length_pos_of_ne_nil hpending'), ?_⟩)
      exact factorySymbol_inj.mpr ⟨heq.symm, rfl⟩
    · refine hfiles (List.mem_map_of_mem ((hfirst hpending).2 hsplit)) (List.mem_map.mpr ⟨_, (hfirst' hpending').1, ?_⟩)
      refine Prod.ext hmodule.symm (congrArg (· ++ ".cpp".toList) ?_)
      exact ((@nameOf_eq_definition _ _ _ _ 0).mpr ⟨hsplit, hstem, rfl⟩).symm
    · have hlibrary := library_eq h h' hmodule
      refine hfiles (List.mem_map_of_mem (hfirst hpending).1) (List.mem_map.mpr ⟨_, (hfirst' hpending').2 (hlibrary ▸ hsplit), ?_⟩)
      refine Prod.ext hmodule.symm (congrArg (· ++ ".cpp".toList) ?_)
      exact nameOf_eq_definition.mpr ⟨hlibrary ▸ hsplit, hstem, rfl⟩

/-- The registrations land in one unit each, and the files and symbols of different headers have different names, if and
    only if the headers with registrations have names that stay apart. -/
theorem landsOnce_iff (b : Build) : b.LandsOnce ↔ b.runs.Pairwise Run.Apart := by
  have hsymbols (r : Run) : (r.written.flatMap (·.2.factories)).Nodup := by
    rw [r.factories_written]
    exact List.Nodup.map (fun i j h => (factorySymbol_inj.mp h).2) List.nodup_range
  constructor
  · intro hlands
    have h₁ := (List.nodup_flatMap.mp hlands.files).2
    have h₂ := (List.nodup_flatMap.mp hlands.symbols).2
    exact (h₁.and h₂).imp_of_mem fun hr hr' h => (apart_iff hr hr').mpr h
  · intro hapart
    have := hapart.imp_of_mem fun hr hr' h => (apart_iff hr hr').mp h
    exact ⟨fun r _ => r.groups.members, List.nodup_flatMap.mpr ⟨fun r _ => r.nodup_paths, this.imp fun h => h.1⟩,
      List.nodup_flatMap.mpr ⟨fun r _ => hsymbols r, this.imp fun h => h.2⟩, fun r _ => r.declared_written,
      fun r _ => r.sizes_units⟩

def sixteen : Options where
  generator := "parse_registrations.py".toList
  split := false
  maxPerTu := 16
  registryHeader := none
  registryInstance := "gr::globalBlockRegistry".toList
  exclusive h := nomatch h

/-- A library with the headers `Foo.hpp` and `Foo_block.hpp`, each with one block. -/
def fooAndFooBlock : Build where
  libraries := [⟨"Lib".toList, sixteen, [⟨"Foo.hpp".toList, "GR_REGISTER_BLOCK(Foo)".toList⟩,
    ⟨"Foo_block.hpp".toList, "GR_REGISTER_BLOCK(Bar)".toList⟩]⟩]
  modules := by decide

/-- Both write `Foo_block_0.cpp`, one as a definition unit and one as a registration unit. -/
theorem fooAndFooBlock_overwrites : ¬ fooAndFooBlock.LandsOnce := fun h => absurd h.files (by decide)

end GnuRadio.Blocklib
