import GnuRadio.BlockRegistry

/-! When a registry makes the block that it names, and tells the version that was recorded for it. Each entry of a registry
    leads to its factory by its alias, and the recorded versions agree with the history, and so it is of the entries that
    were taken out. -/

namespace GnuRadio.BlockRegistry

open Function

open PluginLoader (Entries Map RecordedAbiVersion Registry TypeHandler)
open Transition (System)

variable {F ι : Type} {e e' : Entries F} {recorded recorded' : Map (Option Nat)} {name aliasName : String} {factory : F}
  {abiVersion : Option Nat}

/-- Entries that agree with their history, and whose aliases lead to their factories. -/
structure Coherent (e : Entries F) (recorded : Map (Option Nat)) : Prop where
  held : ∀ key, (recorded.lookup key).isSome = (e.handlers.lookup key).isSome
  keys : ∀ key version, e.abiVersions.lookup key = some version → (e.handlers.lookup key).isSome
  leads : ∀ n handler, e.handlers.lookup n = some handler → handler.aliasName ≠ "" →
    ∃ handler', e.handlers.lookup handler.aliasName = some handler' ∧ handler'.createFunction = handler.createFunction
  version : ∀ key handler v, e.handlers.lookup key = some handler → recorded.lookup key = some (some v) →
    e.abiVersions.lookup key = some ⟨handler.createFunction, v⟩
  unversioned : ∀ key handler, e.handlers.lookup key = some handler → recorded.lookup key = some none →
    ∀ version, e.abiVersions.lookup key = some version → version.createFunction ≠ handler.createFunction

theorem coherent_empty : Coherent (F := F) {} ∅ := by
  constructor <;> simp [AList.lookup_empty]

/-! ### What the promises need -/

variable {r : Registry F} {handler : TypeHandler F}

theorem typeName_eq (h : r.entries.handlers.lookup name = some handler) :
    typeName r name = if handler.aliasName ≠ "" then handler.aliasName else name := by
  unfold typeName
  rw [h]

theorem create_eq (h : r.entries.handlers.lookup name = some handler) :
    create r name = some handler.createFunction := by
  unfold create
  rw [h]
  rfl

theorem Coherent.roundTrips (h : Coherent r.entries recorded) : RoundTrips r := by
  intro name handler hname
  rw [typeName_eq hname]
  split
  · rename_i halias
    obtain ⟨handler', hlookup, hfactory⟩ := h.leads name handler hname halias
    rw [create_eq hlookup, hfactory]
  · exact create_eq hname

theorem Coherent.versioned [DecidableEq F] (h : Coherent r.entries recorded) : Versioned r recorded := by
  intro key
  have hheld := h.held key
  unfold Registry.abiVersion
  cases hkey : r.entries.handlers.lookup key with
  | none =>
    rw [hkey, Option.isSome_none, Option.isSome_eq_false_iff, Option.isNone_iff_eq_none] at hheld
    rw [hheld]
    rfl
  | some handler =>
    rw [hkey, Option.isSome_some, Option.isSome_iff_exists] at hheld
    obtain ⟨version, hversion⟩ := hheld
    rw [hversion]
    cases version with
    | some v =>
      rw [h.version key handler v hkey hversion]
      simp
    | none =>
      cases hrec : r.entries.abiVersions.lookup key with
      | none => rfl
      | some rec =>
        have := h.unversioned key handler hkey hversion rec hrec
        simp [this]

/-! ### Insertions -/

section Insertions

variable (r : Registry F) (key : String)

theorem mem_keysOf : key ∈ keysOf name aliasName ↔ key = name ∨ aliasName ≠ "" ∧ key = aliasName := by
  unfold keysOf
  split
  · rename_i h
    simp [h]
  · rename_i h
    simp [h]

theorem lookup_handlers_insert :
    (r.insert name aliasName factory abiVersion).entries.handlers.lookup key =
      if aliasName ≠ "" ∧ key = aliasName then some ⟨"", factory⟩
      else if key = name then some ⟨aliasName, factory⟩ else r.entries.handlers.lookup key := by
  unfold Registry.insert
  split
  · rename_i h
    simp only [Registry.assign, AList.lookup_insert_eq, h, ne_eq, not_true_eq_false, false_and, if_false]
  · rename_i h
    simp only [Registry.assign, AList.lookup_insert_eq, h, ne_eq, not_false_eq_true, true_and]

theorem lookup_abiVersions_insert :
    (r.insert name aliasName factory abiVersion).entries.abiVersions.lookup key =
      match abiVersion with
      | some v => if key ∈ keysOf name aliasName then some ⟨factory, v⟩ else r.entries.abiVersions.lookup key
      | none => r.entries.abiVersions.lookup key := by
  unfold Registry.insert
  cases abiVersion with
  | none => split <;> rfl
  | some v =>
    simp only [mem_keysOf]
    split
    · rename_i h
      simp [Registry.assign, AList.lookup_insert_eq, h]
    · rename_i h
      by_cases hk : key = aliasName
      · simp [Registry.assign, AList.lookup_insert_eq, h, hk]
      · simp [Registry.assign, AList.lookup_insert_eq, h, hk]

theorem lookup_logInsert :
    (logInsert recorded name aliasName abiVersion).lookup key =
      if key ∈ keysOf name aliasName then some abiVersion else recorded.lookup key := by
  unfold logInsert
  simp only [mem_keysOf]
  split
  · rename_i h
    simp [AList.lookup_insert_eq, h]
  · rename_i h
    by_cases hk : key = aliasName
    · simp [AList.lookup_insert_eq, h, hk]
    · simp [AList.lookup_insert_eq, h, hk]

end Insertions

/-- An insertion that fits keeps the entries coherent. -/
theorem Coherent.insert (h : Coherent r.entries recorded)
    (hfits : InsertFits r.entries name aliasName factory abiVersion) :
    Coherent (r.insert name aliasName factory abiVersion).entries (logInsert recorded name aliasName abiVersion) := by
  obtain ⟨hkeep, hnone⟩ := hfits
  -- a key that is written has the factory, and the others have what they had
  have hwritten : ∀ key ∈ keysOf name aliasName, ∃ handler,
      (r.insert name aliasName factory abiVersion).entries.handlers.lookup key = some handler ∧
        handler.createFunction = factory ∧ (handler.aliasName ≠ "" → handler.aliasName ∈ keysOf name aliasName) := by
    intro key hkey
    rw [lookup_handlers_insert]
    split
    · exact ⟨_, rfl, rfl, fun hne => absurd rfl hne⟩
    · rename_i hnot
      rcases (mem_keysOf key).mp hkey with rfl | halias
      · rw [if_pos rfl]
        exact ⟨_, rfl, rfl, fun hne => (mem_keysOf _).mpr (.inr ⟨hne, rfl⟩)⟩
      · exact absurd halias hnot
  have hother : ∀ key, key ∉ keysOf name aliasName →
      (r.insert name aliasName factory abiVersion).entries.handlers.lookup key = r.entries.handlers.lookup key := by
    intro key hkey
    rw [mem_keysOf, not_or] at hkey
    rw [lookup_handlers_insert, if_neg hkey.2, if_neg hkey.1]
  refine ⟨fun key => ?_, fun key version hversion => ?_, fun n handler hn hne => ?_, fun key handler v hk hr => ?_,
    fun key handler hk hr version hversion => ?_⟩
  · rw [lookup_logInsert]
    split
    · rename_i hkey
      obtain ⟨handler, hlookup, -⟩ := hwritten key hkey
      rw [hlookup]
      rfl
    · rename_i hkey
      rw [hother key hkey]
      exact h.held key
  · by_cases hkey : key ∈ keysOf name aliasName
    · obtain ⟨handler, hlookup, -⟩ := hwritten key hkey
      rw [hlookup]
      rfl
    · rw [hother key hkey]
      rw [lookup_abiVersions_insert] at hversion
      cases abiVersion with
      | none => exact h.keys key version hversion
      | some v => exact h.keys key version (by simpa only [if_neg hkey] using hversion)
  · by_cases hkey : n ∈ keysOf name aliasName
    · obtain ⟨handler', hlookup, hfactory, halias⟩ := hwritten n hkey
      rw [hn, Option.some.injEq] at hlookup
      subst hlookup
      obtain ⟨leader, hleader, hleads, -⟩ := hwritten _ (halias hne)
      exact ⟨leader, hleader, hleads.trans hfactory.symm⟩
    · rw [hother n hkey] at hn
      by_cases halias : handler.aliasName ∈ keysOf name aliasName
      · obtain ⟨leader, hleader, hleads, -⟩ := hwritten _ halias
        exact ⟨leader, hleader, hleads.trans (hkeep n handler hn hkey hne halias).symm⟩
      · rw [hother _ halias]
        exact h.leads n handler hn hne
  · rw [lookup_logInsert] at hr
    rw [lookup_abiVersions_insert]
    split at hr
    · rename_i hkey
      obtain ⟨handler', hlookup, hfactory, -⟩ := hwritten key hkey
      rw [hk, Option.some.injEq] at hlookup
      subst hlookup
      cases hr
      simp only [if_pos hkey, hfactory]
    · rename_i hkey
      rw [hother key hkey] at hk
      have := h.version key handler v hk hr
      cases abiVersion with
      | none => exact this
      | some v' => simpa only [if_neg hkey] using this
  · rw [lookup_logInsert] at hr
    rw [lookup_abiVersions_insert] at hversion
    split at hr
    · rename_i hkey
      obtain ⟨handler', hlookup, hfactory, -⟩ := hwritten key hkey
      rw [hk, Option.some.injEq] at hlookup
      subst hlookup
      cases hr
      rw [hfactory]
      exact hnone rfl key hkey version hversion
    · rename_i hkey
      rw [hother key hkey] at hk
      cases abiVersion with
      | none => exact h.unversioned key handler hk hr version hversion
      | some v' => exact h.unversioned key handler hk hr version (by simpa only [if_neg hkey] using hversion)

/-! ### Entries put together -/

/-- A key of the entries that stay has its history there, and what it has no version of. -/
theorem Coherent.lookup_of_held {key : String} (h : Coherent e recorded)
    (hk : e.handlers.lookup key = some handler) : ∃ version, recorded.lookup key = some version := by
  rw [← Option.isSome_iff_exists, h.held, hk]
  rfl

theorem Coherent.lookup_of_not_held {key : String} (h : Coherent e recorded) (hk : e.handlers.lookup key = none) :
    recorded.lookup key = none ∧ e.abiVersions.lookup key = none := by
  constructor
  · have := h.held key
    rw [hk, Option.isSome_none, Option.isSome_eq_false_iff, Option.isNone_iff_eq_none] at this
    exact this
  · by_contra hne
    obtain ⟨version, hversion⟩ := Option.ne_none_iff_exists'.mp hne
    have := h.keys key version hversion
    rw [hk] at this
    cases this

/-- Two coherent sets of entries that fit are coherent together. -/
theorem Coherent.union {added : Entries F} {addedRecorded : Map (Option Nat)} (h : Coherent e recorded)
    (hadded : Coherent added addedRecorded) (hfits : UnionFits e added) :
    Coherent ⟨e.handlers ∪ added.handlers, e.abiVersions ∪ added.abiVersions⟩ (recorded ∪ addedRecorded) := by
  obtain ⟨haliases, hversions⟩ := hfits
  refine ⟨fun key => ?_, fun key version hversion => ?_, fun n handler hn hne => ?_, fun key handler v hk hr => ?_,
    fun key handler hk hr version hversion => ?_⟩
  · rw [AList.lookup_union, AList.lookup_union, Option.isSome_or, Option.isSome_or, h.held, hadded.held]
  · rw [AList.lookup_union] at hversion ⊢
    rw [Option.isSome_or, Bool.or_eq_true]
    rcases Option.or_eq_some_iff.mp hversion with hv | ⟨-, hv⟩
    · exact .inl (h.keys key version hv)
    · exact .inr (hadded.keys key version hv)
  · rw [AList.lookup_union] at hn ⊢
    rcases Option.or_eq_some_iff.mp hn with hn | ⟨hnone, hn⟩
    · obtain ⟨leader, hleader, hleads⟩ := h.leads n handler hn hne
      exact ⟨leader, by rw [hleader, Option.some_or], hleads⟩
    · cases hheld : e.handlers.lookup handler.aliasName with
      | some held => exact ⟨held, Option.some_or, haliases n handler hnone hn hne held hheld⟩
      | none =>
        obtain ⟨leader, hleader, hleads⟩ := hadded.leads n handler hn hne
        exact ⟨leader, by rw [hleader, Option.none_or], hleads⟩
  · rw [AList.lookup_union] at hk hr ⊢
    rcases Option.or_eq_some_iff.mp hk with hk | ⟨hnone, hk⟩
    · obtain ⟨version, hversion⟩ := h.lookup_of_held hk
      rw [hversion, Option.some_or, Option.some.injEq] at hr
      rw [h.version key handler v hk (hversion.trans (congrArg some hr)), Option.some_or]
    · obtain ⟨hrec, habi⟩ := h.lookup_of_not_held hnone
      rw [hrec, Option.none_or] at hr
      rw [habi, Option.none_or]
      exact hadded.version key handler v hk hr
  · rw [AList.lookup_union] at hk hr hversion
    rcases Option.or_eq_some_iff.mp hk with hk | ⟨hnone, hk⟩
    · obtain ⟨version', hversion'⟩ := h.lookup_of_held hk
      rw [hversion', Option.some_or, Option.some.injEq] at hr
      rcases Option.or_eq_some_iff.mp hversion with hv | ⟨hnone, hv⟩
      · exact h.unversioned key handler hk (hversion'.trans (congrArg some hr)) version hv
      · exact hversions key handler hk hnone version hv
    · obtain ⟨hrec, habi⟩ := h.lookup_of_not_held hnone
      rw [hrec, Option.none_or] at hr
      rw [habi, Option.none_or] at hversion
      exact hadded.unversioned key handler hk hr version hversion

/-! ### Runs -/

section Runs

variable [DecidableEq ι] {s t : State F ι}

/-- Every registry, and what was taken out of one, is coherent. -/
structure Inv (s : State F ι) : Prop where
  registries : ∀ i, Coherent (s.registries i).1.entries (s.registries i).2
  taken : ∀ l ∈ s.taken, Coherent l.entries l.recorded

theorem Inv.update (h : Inv s) {i : ι} {r : Registry F} (hr : Coherent r.entries recorded) :
    ∀ j, Coherent (update s.registries i (r, recorded) j).1.entries
      (update s.registries i (r, recorded) j).2 := by
  intro j
  by_cases hj : j = i
  · subst hj
    rwa [update_self]
  · rw [update_of_ne hj]
    exact h.registries j

theorem Inv.step {a : Act F ι} (h : Inv s) (hok : Fits s a) (hs : step s a = some t) : Inv t := by
  cases a with
  | insert i name aliasName factory abiVersion =>
    cases hs
    exact ⟨h.update ((h.registries i).insert hok), h.taken⟩
  | takeEntries i =>
    cases hs
    refine ⟨h.update coherent_empty, fun l hl => ?_⟩
    rcases List.mem_append.mp hl with hl | hl
    · exact h.taken l hl
    · rw [List.mem_singleton.mp hl]
      exact h.registries i
  | restoreEntries i k keepRegistered =>
    obtain ⟨taken, htaken, rfl⟩ := Option.map_eq_some_iff.mp hs
    have hcoherent := h.taken taken (List.mem_of_getElem? htaken)
    refine ⟨h.update ?_, fun l hl => h.taken l (List.mem_of_mem_eraseIdx hl)⟩
    cases keepRegistered with
    | false => exact hcoherent
    | true => exact (h.registries i).union hcoherent (hok rfl taken (by rw [htaken]; exact List.mem_singleton_self _))
  | merge i j =>
    by_cases hij : i = j
    · simp only [BlockRegistry.step, if_pos hij] at hs
      cases hs
      exact h
    · simp only [BlockRegistry.step, if_neg hij] at hs
      cases hs
      exact ⟨h.update ((h.registries i).union (h.registries j) (hok hij)), h.taken⟩

theorem inv (h : (system F ι).Reach Fits s) : Inv s := by
  refine h.invariant ?_ ?_
  · rintro s rfl
    exact ⟨fun i => coherent_empty, fun l hl => nomatch hl⟩
  · intro s a t hinv hok hs
    exact hinv.step hok hs

/-- In a run whose steps fit, the name that is saved for a block makes that block again, and the version of a key is the one
    that was recorded with its factory. -/
theorem saved_names_make_their_blocks [DecidableEq F] (h : (system F ι).Reach Fits s) (i : ι) :
    RoundTrips (s.registries i).1 ∧ Versioned (s.registries i).1 (s.registries i).2 :=
  ⟨((inv h).registries i).roundTrips, ((inv h).registries i).versioned⟩

end Runs

/-- One type with an alias. -/
def scaleInserted : Registry Nat := ({} : Registry Nat).insert "Scale<float>" "Scale<float32>" 1 (some 10)

theorem saved_names_scaleInserted : RoundTrips scaleInserted := by
  have hfits : Fits (⟨fun _ => ({}, ∅), []⟩ : State Nat Unit) (.insert () "Scale<float>" "Scale<float32>" 1 (some 10)) := by
    refine ⟨fun n handler hn => ?_, fun hnone => ?_⟩
    · cases hn
    · cases hnone
  have hreach : (system Nat Unit).Reach Fits _ := .step (.start rfl) hfits rfl
  have hroundTrips := (saved_names_make_their_blocks hreach ()).1
  exact hroundTrips

/-- Two types with one alias. -/
def aliasTaken : List (Act Nat Unit) := [.insert () "A" "X" 1 (some 10), .insert () "B" "X" 2 (some 10)]

/-- The name saved for a block of the first type makes one of the second. -/
theorem aliasTaken_makes_another :
    ¬∀ s : State Nat Unit, (system Nat Unit).Reachable s → ∀ i,
      RoundTrips (s.registries i).1 ∧ Versioned (s.registries i).1 (s.registries i).2 := by
  intro h
  have hreach := (system Nat Unit).reachable_get aliasTaken rfl (by decide)
  obtain ⟨hroundTrips, -⟩ := h _ hreach ()
  have := hroundTrips "A" ⟨"X", 1⟩ (by decide)
  revert this
  decide

end GnuRadio.BlockRegistry
