import GnuRadio.Tools.GraphDoc

/-! The names of the blocks of one level stand for the same blocks in the reader of a document and in the importer. -/

namespace GnuRadio.GraphDoc

open Function
open Yaml (Bytes)
open Importer (LoadedBlocks)

variable {B : Type} {blocks : List B} {block : B} {held : AList fun _ : Bytes => B} {at_ : Bytes → Option Nat}
  {names : BlockNames} {created : LoadedBlocks B} {name key : Bytes}

/-- The positions of the held blocks in the list of all. -/
def Points (at_ : Bytes → Option Nat) (held : AList fun _ : Bytes => B) (blocks : List B) : Prop :=
  ∀ key, held.lookup key = (at_ key).bind (blocks[·]?) ∧ ∀ position, at_ key = some position → position < blocks.length

theorem Points.keep (h : Points at_ held blocks) (block : B) : Points at_ held (blocks ++ [block]) := by
  intro key
  obtain ⟨hlookup, hlt⟩ := h key
  cases hkey : at_ key with
  | none => exact ⟨by rw [hlookup, hkey]; rfl, nofun⟩
  | some position =>
    have hposition := hlt position hkey
    refine ⟨?_, ?_⟩
    · rw [hlookup, hkey, Option.bind_some, Option.bind_some, List.getElem?_append_left hposition]
    · rintro _ ⟨⟩
      rw [List.length_append]
      omega

theorem Points.insert (h : Points at_ held blocks) (key : Bytes) (block : B) :
    Points (update at_ key (some blocks.length)) (held.insert key block) (blocks ++ [block]) := by
  intro other
  by_cases hother : other = key
  · subst hother
    rw [update_self, AList.lookup_insert]
    exact ⟨by simp, fun position hposition => by cases hposition; simp⟩
  · rw [update_of_ne hother, AList.lookup_insert_ne hother]
    exact h.keep block other

/-- The names are those of the blocks made so far. -/
structure Answers (names : BlockNames) (created : LoadedBlocks B) (blocks : List B) : Prop where
  unique : Points names.byUniqueName created.byUniqueName blocks
  name : Points names.byName created.byName blocks
  shared : ∀ key, key ∈ created.ambiguousNames ↔ names.sharedNames key = true

theorem BlockNames.add_eq (uniqueName name : Bytes) (position : Nat) : names.add ((uniqueName, name), position) =
    ⟨if uniqueName = [] then names.byUniqueName else update names.byUniqueName uniqueName (some position),
      if name = [] ∨ (names.byName name).isSome then names.byName else update names.byName name (some position),
      if name ≠ [] ∧ (names.byName name).isSome then update names.sharedNames name true else names.sharedNames⟩ := by
  by_cases hunique : uniqueName = [] <;> by_cases hname : name = [] <;> by_cases hheld : (names.byName name).isSome <;>
    simp [BlockNames.add, hunique, hname, hheld]

theorem Answers.add (h : Answers names created blocks) (uniqueName name : Bytes) (block : B) :
    Answers (names.add ((uniqueName, name), blocks.length)) (created.add uniqueName name block) (blocks ++ [block]) := by
  have hmem : name ∈ created.byName ↔ (names.byName name).isSome := by
    obtain ⟨hlookup, hlt⟩ := h.name name
    rw [← AList.lookup_isSome, hlookup]
    cases hname : names.byName name with
    | none => rfl
    | some position => simp [List.getElem?_eq_getElem (hlt position hname)]
  rw [BlockNames.add_eq]
  refine ⟨?_, ?_, fun key => ?_⟩ <;> simp only [LoadedBlocks.add, hmem]
  · split_ifs
    · exact h.unique.keep block
    · exact h.unique.insert uniqueName block
  · split_ifs
    · exact h.name.keep block
    · exact h.name.insert name block
  · split_ifs
    · by_cases hkey : key = name
      · simp [hkey]
      · simp [hkey, h.shared]
    · exact h.shared key

theorem answers (entries : List ((Bytes × Bytes) × B)) : Answers (namesOf (entries.map Prod.fst))
    (entries.foldl (fun created e => created.add e.1.1 e.1.2 e.2) {}) (entries.map Prod.snd) := by
  induction entries using List.reverseRecOn with
  | nil => exact ⟨fun _ => ⟨rfl, nofun⟩, fun _ => ⟨rfl, nofun⟩, fun _ => by simp [namesOf]⟩
  | append_singleton entries e ih =>
    have := ih.add e.1.1 e.1.2 e.2
    simpa [namesOf, List.zipIdx_append] using this

theorem Answers.find (h : Answers names created blocks) (key : Bytes) :
    (∃ position block, names.find key = .ok position ∧ blocks[position]? = some block ∧ created.find key = .ok block) ∨
      (∃ reason, names.find key = .error reason) ∧ ∃ refusal, created.find key = .error refusal := by
  unfold BlockNames.find LoadedBlocks.find
  rw [(h.unique key).1, (h.name key).1]
  have held {at_ : Bytes → Option Nat} {position : Nat} (hkey : at_ key = some position)
      (hlt : ∀ position, at_ key = some position → position < blocks.length) : ∃ block, blocks[position]? = some block :=
    ⟨_, List.getElem?_eq_getElem (hlt position hkey)⟩
  cases hunique : names.byUniqueName key with
  | some position =>
    obtain ⟨block, hblock⟩ := held hunique (h.unique key).2
    exact .inl ⟨position, block, rfl, hblock, by rw [Option.bind_some, hblock]⟩
  | none =>
    rw [Option.bind_none]
    dsimp only
    by_cases hshared : names.sharedNames key = true
    · rw [if_pos hshared, if_pos (by simpa using (h.shared key).mpr hshared)]
      exact .inr ⟨⟨_, rfl⟩, _, rfl⟩
    · rw [if_neg hshared, if_neg (by simpa using mt (h.shared key).mp hshared)]
      cases hname : names.byName key with
      | some position =>
        obtain ⟨block, hblock⟩ := held hname (h.name key).2
        exact .inl ⟨position, block, rfl, hblock, by rw [Option.bind_some, hblock]⟩
      | none => exact .inr ⟨⟨_, rfl⟩, _, rfl⟩

/-- A name stands for the block at the same position in both, or for none in either. -/
theorem find_samePosition (entries : List ((Bytes × Bytes) × B)) (key : Bytes) :
    let names := namesOf (entries.map Prod.fst)
    let created : LoadedBlocks B := entries.foldl (fun created e => created.add e.1.1 e.1.2 e.2) {}
    (∃ position e, names.find key = .ok position ∧ entries[position]? = some e ∧ created.find key = .ok e.2) ∨
      (∃ reason, names.find key = .error reason) ∧ ∃ refusal, created.find key = .error refusal := by
  refine ((answers entries).find key).imp_left ?_
  rintro ⟨position, block, hposition, hblock, hcreated⟩
  rw [List.getElem?_map] at hblock
  obtain ⟨e, he, rfl⟩ := Option.map_eq_some_iff.mp hblock
  exact ⟨position, e, hposition, he, hcreated⟩

theorem find_lt {names : List (Bytes × Bytes)} {position : Nat} (h : (namesOf names).find key = .ok position) :
    position < names.length := by
  have hanswers := answers (names.map (·, ()))
  rw [show (names.map (·, ())).map Prod.fst = names by simp [Function.comp_def]] at hanswers
  obtain ⟨position', _, hposition, hblock, -⟩ | ⟨⟨reason, hreason⟩, -⟩ := hanswers.find key
  · cases h.symm.trans hposition
    simpa using (List.getElem?_eq_some_iff.mp hblock).1
  · cases h.symm.trans hreason

end GnuRadio.GraphDoc
