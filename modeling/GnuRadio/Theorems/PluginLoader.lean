import GnuRadio.PluginLoader

/-! What a scan of plugin directories leaves in the registries and in the loader's lists. Setting the entries
    aside and putting them back is registering over them, or not registering at all, whatever the file's
    initializers do. Every opened file goes to one list, by what opening it showed. -/

namespace GnuRadio.PluginLoader

variable {F : Type}

/-! ### Registering over entries that were set aside -/

namespace Registry

variable {aside direct before : Registry F}

/-- `direct` holds what `aside` registered over the entries that were taken. -/
structure Over (aside direct : Registry F) (taken : Entries F) : Prop where
  handlers : ∀ key, direct.entries.handlers.lookup key =
    (aside.entries.handlers.lookup key).or (taken.handlers.lookup key)
  abiVersions : ∀ key, direct.entries.abiVersions.lookup key =
    (aside.entries.abiVersions.lookup key).or (taken.abiVersions.lookup key)

/-- Two registries hold the same entries. -/
structure Same (r r' : Registry F) : Prop where
  handlers : ∀ key, r.entries.handlers.lookup key = r'.entries.handlers.lookup key
  abiVersions : ∀ key, r.entries.abiVersions.lookup key = r'.entries.abiVersions.lookup key

theorem Same.refl (r : Registry F) : Same r r := ⟨fun _ => rfl, fun _ => rfl⟩

theorem lookup_insert_or {β : Type} {s s' t : Map β} (h : ∀ key, s'.lookup key = (s.lookup key).or (t.lookup key))
    (key' : String) (b : β) (key : String) :
    (s'.insert key' b).lookup key = ((s.insert key' b).lookup key).or (t.lookup key) := by
  rw [AList.lookup_insert_eq, AList.lookup_insert_eq]
  split
  · rfl
  · exact h key

variable {taken : Entries F}

theorem Over.assign (h : Over aside direct taken) (key aliasName : String) (factory : F)
    (abiVersion : Option Nat) :
    Over (aside.assign key aliasName factory abiVersion) (direct.assign key aliasName factory abiVersion) taken := by
  refine ⟨lookup_insert_or h.handlers key _, ?_⟩
  cases abiVersion with
  | none => exact h.abiVersions
  | some version => exact lookup_insert_or h.abiVersions key _

theorem Over.insert (h : Over aside direct taken) (name aliasName : String) (factory : F)
    (abiVersion : Option Nat) :
    Over (aside.insert name aliasName factory abiVersion) (direct.insert name aliasName factory abiVersion) taken := by
  unfold Registry.insert
  split
  · exact h.assign ..
  · exact (h.assign ..).assign ..

theorem over_takeEntries (h : Same before direct) : Over before.takeEntries direct before.entries :=
  ⟨fun key => (h.handlers key).symm, fun key => (h.abiVersions key).symm⟩

theorem Over.restore_true (h : Over aside direct taken) :
    Same (aside.restoreEntries taken true) direct :=
  ⟨fun key => (AList.lookup_union ..).trans (h.handlers key).symm,
    fun key => (AList.lookup_union ..).trans (h.abiVersions key).symm⟩

theorem restore_false (h : Same before direct) : Same (aside.restoreEntries before.entries false) direct :=
  ⟨h.handlers, h.abiVersions⟩

end Registry

namespace Registries

variable {aside direct before : Registries F}

/-- Registries that are reached in the same ways, each beside the other. -/
inductive Beside (P : Registry F → Registry F → Registry F → Prop) :
    Option (Registry F) → Option (Registry F) → Option (Registry F) → Prop
  | none : Beside P none none none
  | some {a b c : Registry F} (h : P a b c) : Beside P (some a) (some b) (some c)

structure Over (aside direct before : Registries F) : Prop where
  handed : Beside (fun aside direct before => aside.Over direct before.entries) aside.handed direct.handed before.handed
  global : aside.global.Over direct.global before.global.entries

structure Same (r r' : Registries F) : Prop where
  handed : Beside (fun r r' _ => r.Same r') r.handed r'.handed r.handed
  global : r.global.Same r'.global

theorem Same.refl (r : Registries F) : Same r r := by
  obtain ⟨handed, global⟩ := r
  refine ⟨?_, .refl global⟩
  cases handed with
  | none => exact .none
  | some r => exact .some (.refl r)

theorem Over.insert (h : Over aside direct before) (target : Target) (name aliasName : String) (factory : F)
    (abiVersion : Option Nat) :
    Over (aside.insert target name aliasName factory abiVersion) (direct.insert target name aliasName factory abiVersion)
      before := by
  obtain ⟨handed, global⟩ := aside
  obtain ⟨handed', global'⟩ := direct
  obtain ⟨handed'', global''⟩ := before
  obtain ⟨hhanded, hglobal⟩ := h
  cases hhanded with
  | none => cases target <;> exact ⟨.none, hglobal.insert ..⟩
  | some hr =>
    cases target with
    | handed => exact ⟨.some (hr.insert ..), hglobal⟩
    | global => exact ⟨.some hr, hglobal.insert ..⟩

theorem over_takeEntries (h : Same before direct) : Over before.takeEntries direct before := by
  obtain ⟨handed, global⟩ := before
  obtain ⟨handed', global'⟩ := direct
  obtain ⟨hhanded, hglobal⟩ := h
  refine ⟨?_, Registry.over_takeEntries hglobal⟩
  cases hhanded with
  | none => exact .none
  | some hr => exact .some (Registry.over_takeEntries hr)

theorem Over.restore_true (h : Over aside direct before) : Same (aside.restoreEntries before true) direct := by
  obtain ⟨handed, global⟩ := aside
  obtain ⟨handed', global'⟩ := direct
  obtain ⟨handed'', global''⟩ := before
  obtain ⟨hhanded, hglobal⟩ := h
  refine ⟨?_, hglobal.restore_true⟩
  cases hhanded with
  | none => exact .none
  | some hr => exact .some hr.restore_true

/-- Whatever was registered meanwhile, the entries that come back are those before. -/
theorem Over.restore_false {direct' : Registries F} (h : Over aside direct' before) (hsame : Same before direct) :
    Same (aside.restoreEntries before false) direct := by
  obtain ⟨handed, global⟩ := aside
  obtain ⟨handed', global'⟩ := direct
  obtain ⟨handed'', global''⟩ := before
  obtain ⟨_, _⟩ := direct'
  obtain ⟨hhanded, hglobal⟩ := h
  obtain ⟨shanded, sglobal⟩ := hsame
  refine ⟨?_, Registry.restore_false sglobal⟩
  cases shanded with
  | none =>
    cases hhanded
    exact .none
  | some hs =>
    cases hhanded
    exact .some (Registry.restore_false hs)

end Registries

namespace Registered

variable {aside direct before : Registered F}

structure Over (aside direct before : Registered F) : Prop where
  blocks : aside.blocks.Over direct.blocks before.blocks
  schedulers : aside.schedulers.Over direct.schedulers before.schedulers
  listings : aside.deviceListings.listings = direct.deviceListings.listings
  kept : before.deviceListings.listings <+: aside.deviceListings.listings

/-- The same entries in the same registries, and the same device listings. -/
structure Same (r r' : Registered F) : Prop where
  blocks : r.blocks.Same r'.blocks
  schedulers : r.schedulers.Same r'.schedulers
  listings : r.deviceListings.listings = r'.deviceListings.listings

theorem Same.refl (r : Registered F) : Same r r := ⟨.refl _, .refl _, rfl⟩

theorem Over.register (h : Over aside direct before) (initializer : Initializer F) :
    Over (aside.register initializer) (direct.register initializer) before := by
  cases initializer with
  | block target name aliasName factory abiVersion => exact ⟨h.blocks.insert .., h.schedulers, h.listings, h.kept⟩
  | scheduler target name aliasName factory abiVersion =>
    exact ⟨h.blocks, h.schedulers.insert .., h.listings, h.kept⟩
  | deviceListing listing =>
    refine ⟨h.blocks, h.schedulers, ?_, ?_⟩
    · simp only [Registered.register, DeviceListingRegistry.add, h.listings]
    · simp only [Registered.register, DeviceListingRegistry.add]
      split
      · exact h.kept
      · exact h.kept.trans (List.prefix_append ..)

theorem Over.run (h : Over aside direct before) (initializers : List (Initializer F)) :
    Over (aside.run initializers) (direct.run initializers) before := by
  induction initializers generalizing aside direct with
  | nil => exact h
  | cons initializer initializers ih => exact ih (h.register initializer)

theorem over_setAside (h : Same before direct) : Over before.setAside direct before :=
  ⟨Registries.over_takeEntries h.blocks, Registries.over_takeEntries h.schedulers, h.listings, List.prefix_refl _⟩

/-- Entries that are kept are those that registering directly gives. -/
theorem restore_true (h : Same before direct) (initializers : List (Initializer F)) :
    Same ((before.setAside.run initializers).restore before true) (direct.run initializers) := by
  have hover := (over_setAside h).run initializers
  exact ⟨hover.blocks.restore_true, hover.schedulers.restore_true, hover.listings⟩

/-- Entries that are dropped leave those before. -/
theorem restore_false (h : Same before direct) (initializers : List (Initializer F)) :
    Same ((before.setAside.run initializers).restore before false) direct := by
  have hover := (over_setAside h).run initializers
  exact ⟨hover.blocks.restore_false h.blocks, hover.schedulers.restore_false h.schedulers,
    (List.prefix_iff_eq_take.mp hover.kept).symm.trans h.listings⟩

end Registered

/-! ### Counting registrations -/

theorem Registry.generation_insert (r : Registry F) (name aliasName : String) (factory : F) (abiVersion : Option Nat) :
    r.generation < (r.insert name aliasName factory abiVersion).generation := by
  unfold Registry.insert
  split
  · exact Nat.lt_succ_self _
  · exact Nat.lt_succ_of_lt (Nat.lt_succ_self _)

theorem Registries.generation_insert (r : Registries F) (target : Target) (name aliasName : String) (factory : F)
    (abiVersion : Option Nat) : r.generation < (r.insert target name aliasName factory abiVersion).generation := by
  obtain ⟨handed, global⟩ := r
  have hglobal := global.generation_insert name aliasName factory abiVersion
  cases handed with
  | none =>
    cases target <;>
      simpa only [Registries.insert, Registries.generation, Registries.reachable, Option.toList_none, List.nil_append,
        List.map_cons, List.map_nil, List.sum_cons, List.sum_nil, Nat.add_zero] using hglobal
  | some handed =>
    have hhanded := handed.generation_insert name aliasName factory abiVersion
    cases target <;>
      simp only [Registries.insert, Registries.generation, Registries.reachable, Option.toList_some, List.singleton_append,
        List.map_cons, List.map_nil, List.sum_cons, List.sum_nil] <;> omega

theorem Registries.generation_takeEntries (r : Registries F) : r.takeEntries.generation = r.generation := by
  obtain ⟨handed, global⟩ := r
  cases handed <;> rfl

namespace Registered

variable {before r : Registered F}

/-- A load counts no registration between two states. -/
def Unchanged (before r : Registered F) : Prop :=
  r.blocks.generation - before.blocks.generation = 0 ∧ r.schedulers.generation - before.schedulers.generation = 0 ∧
    r.deviceListings.nOffered = before.deviceListings.nOffered

/-- The counts never fall. -/
structure Counts (before r : Registered F) : Prop where
  blocks : before.blocks.generation ≤ r.blocks.generation
  schedulers : before.schedulers.generation ≤ r.schedulers.generation
  listings : before.deviceListings.nOffered ≤ r.deviceListings.nOffered

theorem Counts.refl (r : Registered F) : Counts r r := ⟨Nat.le_refl _, Nat.le_refl _, Nat.le_refl _⟩

theorem Counts.trans {r s t : Registered F} (h : Counts r s) (h' : Counts s t) : Counts r t :=
  ⟨Nat.le_trans h.blocks h'.blocks, Nat.le_trans h.schedulers h'.schedulers, Nat.le_trans h.listings h'.listings⟩

theorem counts_setAside (r : Registered F) : Counts r r.setAside :=
  ⟨Nat.le_of_eq (Registries.generation_takeEntries _).symm, Nat.le_of_eq (Registries.generation_takeEntries _).symm,
    Nat.le_refl _⟩

/-- Every initializer counts. -/
theorem Counts.register (h : Counts before r) (initializer : Initializer F) :
    Counts before (r.register initializer) ∧ ¬ Unchanged before (r.register initializer) := by
  obtain ⟨hblocks, hschedulers, hlistings⟩ := h
  cases initializer with
  | block target name aliasName factory abiVersion =>
    have hlt := Nat.lt_of_le_of_lt hblocks (r.blocks.generation_insert target name aliasName factory abiVersion)
    exact ⟨⟨Nat.le_of_lt hlt, hschedulers, hlistings⟩, fun h => absurd h.1 (Nat.sub_ne_zero_of_lt hlt)⟩
  | scheduler target name aliasName factory abiVersion =>
    have hlt := Nat.lt_of_le_of_lt hschedulers (r.schedulers.generation_insert target name aliasName factory abiVersion)
    exact ⟨⟨hblocks, Nat.le_of_lt hlt, hlistings⟩, fun h => absurd h.2.1 (Nat.sub_ne_zero_of_lt hlt)⟩
  | deviceListing listing =>
    have hlt := Nat.lt_succ_of_le hlistings
    exact ⟨⟨hblocks, hschedulers, Nat.le_of_lt hlt⟩, fun h => absurd h.2.2 (Nat.ne_of_gt hlt)⟩

theorem Counts.unchanged {r s : Registered F} (h : Counts before r) (hrs : Counts r s) (hs : Unchanged before s) :
    Unchanged before r := by
  obtain ⟨hb, hsch, hl⟩ := hs
  have := hrs.blocks
  have := hrs.schedulers
  have := h.listings
  have := hrs.listings
  exact ⟨by omega, by omega, by omega⟩

theorem counts_run (r : Registered F) (initializers : List (Initializer F)) : Counts r (r.run initializers) := by
  induction initializers generalizing r with
  | nil => exact .refl r
  | cons initializer initializers ih => exact ((Counts.refl r).register initializer).1.trans (ih _)

/-- A load counts a registration exactly when an initializer runs. -/
theorem unchanged_run_iff (before : Registered F) (initializers : List (Initializer F)) :
    Unchanged before (before.setAside.run initializers) ↔ initializers = [] := by
  cases initializers with
  | nil =>
    refine ⟨fun _ => rfl, fun _ => ⟨?_, ?_, rfl⟩⟩
    · exact Nat.sub_eq_zero_of_le (Nat.le_of_eq (Registries.generation_takeEntries _))
    · exact Nat.sub_eq_zero_of_le (Nat.le_of_eq (Registries.generation_takeEntries _))
  | cons initializer initializers =>
    refine ⟨fun h => ?_, nofun⟩
    obtain ⟨hcounts, hchanged⟩ := before.counts_setAside.register initializer
    exact absurd (hcounts.unchanged (counts_run _ initializers) h) hchanged

end Registered

/-! ### What becomes of a file -/

/-- The lists of a loader. -/
inductive Verdict
  | plugin
  | blockLibrary
  | ordinary
  | failed
deriving DecidableEq, Repr

/-- Files whose registrations stay. -/
def Verdict.admits : Verdict → Bool
  | .plugin => true
  | .blockLibrary => true
  | _ => false

/-- The files of a list. -/
def Loader.files (l : Loader) : Verdict → List String
  | .plugin => l.pluginHandlers.map Prod.fst
  | .blockLibrary => l.blockLibraries.map BlockLibrary.file
  | .ordinary => l.ordinaryLibraries
  | .failed => l.failedPlugins.keys

namespace Opened

/-- Where a file belongs, by what opening it showed. -/
def verdict (o : Opened F) : Verdict :=
  if o.library.handle.isNone || o.refused then .failed
  else if o.library.exportsMake && o.library.exportsFree && o.library.made.isSome then
    if o.library.made.map Instance.abiVersion = some currentAbiVersion ∧ o.foreignScheduler = false then .plugin
    else .failed
  else if o.library.initializers ≠ [] then if o.foreignScheduler then .failed else .blockLibrary
  else if o.library.exportsMake then .failed
  else .ordinary

/-- A file that exports `gr_plugin_make` is a whole plugin, or registers nothing that the host takes. -/
def Whole (o : Opened F) : Prop :=
  o.library.exportsMake = true → o.library.handle.isSome → o.refused = false →
    (o.library.exportsFree = true ∧ o.library.made.isSome) ∨ o.library.initializers = [] ∨ o.foreignScheduler = true

theorem whole_iff (o : Opened F) :
    o.Whole ↔ (o.library.exportsMake = true → o.verdict ≠ .blockLibrary) := by
  unfold Whole verdict
  cases o.library.handle <;> cases o.refused <;> cases o.library.exportsMake <;> cases o.library.exportsFree <;>
    cases o.library.made <;> cases o.foreignScheduler <;> simp
  all_goals split <;> simp

end Opened

variable [DecidableEq F]

/-- Where the scan puts a file, by the handler it got. -/
def PluginHandler.decided (h : PluginHandler) (registers foreignScheduler : Bool) : Verdict :=
  if h.made.isSome then if foreignScheduler then .failed else .plugin
  else if h.isLoaded && registers then if foreignScheduler then .failed else .blockLibrary
  else if h.isLoaded && !h.hasPluginEntryPoint then .ordinary
  else .failed

omit [DecidableEq F] in
/-- The handler of a file decides what opening it showed. -/
theorem decided_ofLibrary (o : Opened F) (refusals : Refusals)
    (hrefused : o.refused = (o.library.handle.bind refusals).isSome) :
    (PluginHandler.ofLibrary o.file o.library refusals).1.decided (decide (o.library.initializers ≠ []))
      o.foreignScheduler = o.verdict := by
  unfold PluginHandler.ofLibrary Opened.verdict PluginHandler.decided
  rw [hrefused]
  cases hhandle : o.library.handle with
  | none => rfl
  | some handle =>
    cases hr : refusals handle with
    | some refusal => simp [hr, PluginHandler.isLoaded]
    | none =>
      cases hmake : o.library.exportsMake
      · simp [hr, PluginHandler.isLoaded, PluginHandler.hasPluginEntryPoint]
      · cases hfree : o.library.exportsFree
        · simp [hr, PluginHandler.isLoaded, PluginHandler.hasPluginEntryPoint]
        · cases hmade : o.library.made with
          | none => simp [hr, PluginHandler.isLoaded, PluginHandler.hasPluginEntryPoint]
          | some made =>
            by_cases habi : made.abiVersion = currentAbiVersion
            · cases o.foreignScheduler <;> simp [hr, habi]
            · simp [hr, habi, PluginHandler.refuse, PluginHandler.releaseInstance, PluginHandler.isLoaded]

/-- What a loader records of a file. -/
structure Records (l l' : Loader) (file : String) (v : Verdict) : Prop where
  files : ∀ w, (l'.files w).Perm (if w = v then file :: l.files w else l.files w)
  loaded : l'.loadedPluginFiles = file :: l.loadedPluginFiles

omit [DecidableEq F] in
variable {file : String}

theorem records_failed {l : Loader} (hfresh : file ∉ l.files .failed) (status : String) :
    Records l ({ l with loadedPluginFiles := file :: l.loadedPluginFiles }.fail file status) file .failed := by
  refine ⟨fun w => ?_, rfl⟩
  cases w with
  | failed =>
    have hkeys : (l.failedPlugins.insert file status).keys = file :: l.failedPlugins.keys := by
      rw [AList.keys_insert]
      exact congrArg _ (List.erase_of_not_mem hfresh)
    exact .of_eq hkeys
  | plugin | blockLibrary | ordinary => exact .refl _

theorem perm_append_singleton (file : String) (files : List String) : (files ++ [file]).Perm (file :: files) :=
  List.perm_append_comm

theorem load_eq (s : State F) (hfresh : file ∉ s.loader.files .failed) (library : Library F) :
    ∃ v, v = (PluginHandler.ofLibrary file library s.refusals).1.decided (decide (library.initializers ≠ []))
        (s.registered.setAside.run library.initializers).schedulerAbiMismatch.isSome ∧
      Records s.loader (load s file library).loader file v ∧
      (load s file library).registered =
        (s.registered.setAside.run library.initializers).restore s.registered v.admits := by
  have hcount := Registered.unchanged_run_iff s.registered library.initializers
  refine ⟨_, rfl, ?_⟩
  simp only [load, PluginHandler.decided]
  generalize PluginHandler.ofLibrary file library s.refusals = handled at *
  obtain ⟨handler, refusals⟩ := handled
  generalize s.registered.setAside.run library.initializers = registered at *
  simp only
  cases hmade : handler.made with
  | some made =>
    cases hmismatch : registered.schedulerAbiMismatch with
    | some mismatch => exact ⟨records_failed hfresh _, rfl⟩
    | none =>
      refine ⟨⟨fun w => ?_, rfl⟩, rfl⟩
      cases w with
      | plugin => exact .trans (.of_eq List.map_append) (perm_append_singleton ..)
      | blockLibrary | ordinary | failed => exact .refl _
  | none =>
    have hregisters : (registered.blocks.generation - s.registered.blocks.generation ≠ 0 ∨
        registered.schedulers.generation - s.registered.schedulers.generation ≠ 0 ∨
        registered.deviceListings.nOffered ≠ s.registered.deviceListings.nOffered) ↔ library.initializers ≠ [] := by
      refine Iff.trans ?_ (not_congr hcount)
      unfold Registered.Unchanged
      omega
    simp only [Option.isSome_none, Bool.false_eq_true, if_false, Bool.and_eq_true, decide_eq_true_eq]
    by_cases hlibrary : handler.isLoaded = true ∧ library.initializers ≠ []
    · rw [if_pos hlibrary, if_pos ⟨hlibrary.1, hregisters.mpr hlibrary.2⟩]
      cases hmismatch : registered.schedulerAbiMismatch with
      | some mismatch => exact ⟨records_failed hfresh _, rfl⟩
      | none =>
        refine ⟨⟨fun w => ?_, rfl⟩, rfl⟩
        cases w with
        | blockLibrary => exact .trans (.of_eq List.map_append) (perm_append_singleton ..)
        | plugin | ordinary | failed => exact .refl _
    · rw [if_neg hlibrary, if_neg fun h => hlibrary ⟨h.1, hregisters.mp h.2⟩]
      by_cases hordinary : handler.isLoaded = true ∧ (!handler.hasPluginEntryPoint) = true
      · rw [if_pos hordinary, if_pos hordinary]
        refine ⟨⟨fun w => ?_, rfl⟩, rfl⟩
        cases w with
        | ordinary => exact perm_append_singleton ..
        | plugin | blockLibrary | failed => exact .refl _
      · rw [if_neg hordinary, if_neg hordinary]
        exact ⟨records_failed hfresh _, rfl⟩

/-! ### Runs -/

omit [DecidableEq F] in
/-- The registrations of the admitted files, in the order in which they were loaded. -/
def admitted (registered : Registered F) (es : List (Opened F)) : Registered F :=
  es.foldl (fun r o => if o.verdict.admits then r.run o.library.initializers else r) registered

/-- A loader that opened some files, in a process that had registered something before. -/
structure Ledger (registered : Registered F) (es : List (Opened F)) (s : State F) : Prop where
  files : ∀ v, (s.loader.files v).Perm ((es.filter fun o => o.verdict = v).map Opened.file)
  loaded : s.loader.loadedPluginFiles = (es.map Opened.file).reverse
  nodup : (es.map Opened.file).Nodup
  registered : s.registered.Same (admitted registered es)

variable {registered : Registered F} {refusals : Refusals} {es : List (Opened F)} {s : State F}

omit [DecidableEq F] in
theorem Ledger.mem_loaded (h : Ledger registered es s) :
    file ∈ s.loader.loadedPluginFiles ↔ ∃ o ∈ es, o.file = file := by
  rw [h.loaded, List.mem_reverse, List.mem_map]

omit [DecidableEq F] in
theorem Ledger.mem_files (h : Ledger registered es s) {v : Verdict} :
    file ∈ s.loader.files v ↔ ∃ o ∈ es, o.verdict = v ∧ o.file = file := by
  rw [(h.files v).mem_iff, List.mem_map]
  simp only [List.mem_filter, decide_eq_true_eq, and_assoc]

/-- A file that is opened is new, and goes to the list of its verdict. -/
theorem Ledger.load (h : Ledger registered es s) (hnew : file ∉ s.loader.loadedPluginFiles)
    (library : Library F) :
    Ledger registered
      (es ++
        [{ file
           library
           refused := (library.handle.bind s.refusals).isSome
           foreignScheduler := (s.registered.setAside.run library.initializers).schedulerAbiMismatch.isSome }])
      (load s file library) := by
  have hfresh : file ∉ s.loader.files .failed := fun hmem => by
    obtain ⟨o, ho, -, hfile⟩ := h.mem_files.mp hmem
    exact hnew (h.mem_loaded.mpr ⟨o, ho, hfile⟩)
  generalize ho : ({
      file
      library
      refused := (library.handle.bind s.refusals).isSome
      foreignScheduler := (s.registered.setAside.run library.initializers).schedulerAbiMismatch.isSome } : Opened F) = o
  obtain ⟨v, hv, hrecords, hregistered⟩ := load_eq s hfresh library
  have hverdict : v = o.verdict := by
    have hdecided := decided_ofLibrary o s.refusals (by subst ho; rfl)
    subst ho
    exact hv.trans hdecided
  have hfile : o.file = file := ho ▸ rfl
  have hlibrary : o.library = library := ho ▸ rfl
  refine ⟨fun w => ?_, ?_, ?_, ?_⟩
  · refine (hrecords.files w).trans ?_
    rw [List.filter_append, List.map_append]
    by_cases hw : w = v
    · rw [if_pos hw, List.filter_cons_of_pos (by rw [hw, hverdict]; exact decide_eq_true rfl), List.filter_nil,
        List.map_singleton, hfile]
      exact ((h.files w).cons file).trans (perm_append_singleton ..).symm
    · rw [if_neg hw, List.filter_cons_of_neg (by rw [decide_eq_true_eq, ← hverdict]; exact Ne.symm hw), List.filter_nil,
        List.map_nil, List.append_nil]
      exact h.files w
  · rw [hrecords.loaded, h.loaded, List.map_append, List.reverse_append, List.map_singleton, hfile]
    rfl
  · rw [List.map_append, List.map_singleton, hfile, List.nodup_append]
    refine ⟨h.nodup, List.nodup_singleton _, fun a ha b hb => ?_⟩
    rw [List.mem_singleton] at hb
    subst hb
    rintro rfl
    exact hnew (h.mem_loaded.mpr (List.mem_map.mp ha))
  · rw [hregistered, admitted, List.foldl_append, List.foldl_cons, List.foldl_nil, hverdict, hlibrary]
    cases o.verdict.admits with
    | true => exact Registered.restore_true h.registered library.initializers
    | false => exact Registered.restore_false h.registered library.initializers

/-- A directory entry that is not opened changes no list. -/
theorem Ledger.scan (h : Ledger registered es s) (a : DirEntry × Library F) :
    Ledger registered (es ++ opened s a) (scan s a.1 a.2) := by
  by_cases hopens : opens s.loader a.1 = true
  · have hnew : a.1.path ∉ s.loader.loadedPluginFiles := by
      simp only [opens, Bool.and_eq_true, Bool.not_eq_true', decide_eq_false_iff_not] at hopens
      exact hopens.2
    rw [opened, if_pos hopens, PluginLoader.scan, if_pos hopens]
    exact h.load hnew a.2
  · rw [opened, if_neg hopens, List.append_nil, PluginLoader.scan, if_neg hopens]
    split
    · exact h
    · split
      · have hfiles (v : Verdict) : Loader.files { s.loader with skippedFiles := s.loader.skippedFiles ++ [a.1.path] } v =
            s.loader.files v := by cases v <;> rfl
        exact ⟨fun v => hfiles v ▸ h.files v, h.loaded, h.nodup, h.registered⟩
      · exact h

theorem ledger_of_trace (h : (system registered refusals).Trace (fun _ _ => True) opened es s) :
    Ledger registered es s := by
  induction h with
  | start hs =>
    subst hs
    exact ⟨fun v => by cases v <;> exact .refl _, rfl, List.nodup_nil, .refl _⟩
  | step _ _ hs ih =>
    cases hs
    exact ih.scan _

omit [DecidableEq F] in
/-- A file is in the list of its verdict once, and in no other. -/
theorem Ledger.count_files (h : Ledger registered es s) {o : Opened F} (ho : o ∈ es) (v : Verdict) :
    (s.loader.files v).count o.file = if v = o.verdict then 1 else 0 := by
  have hinj := List.inj_on_of_nodup_map h.nodup
  have hnodup : (s.loader.files v).Nodup :=
    (h.files v).nodup_iff.mpr (h.nodup.sublist (List.filter_sublist.map _))
  by_cases hv : v = o.verdict
  · rw [if_pos hv]
    exact List.count_eq_one_of_mem hnodup (h.mem_files.mpr ⟨o, ho, hv.symm, rfl⟩)
  · rw [if_neg hv, List.count_eq_zero]
    intro hmem
    obtain ⟨o', ho', hv', hfile⟩ := h.mem_files.mp hmem
    rw [hinj ho' ho hfile] at hv'
    exact hv hv'.symm

/-- Every file that a loader opens is in exactly one of its lists, and every library file that it meets is opened; the
    registries and the device listings hold what they held and what the admitted files register, in load order; and a
    file with `gr_plugin_make` is no block library, unless it registered something without being a whole plugin. -/
theorem refused_leaves_no_trace (h : (system registered refusals).Trace (fun _ _ => True) opened es s) :
    (∀ o ∈ es, ∀ v, (s.loader.files v).count o.file = if v = o.verdict then 1 else 0) ∧
    (∀ v, ∀ file ∈ s.loader.files v, ∃ o ∈ es, o.file = file) ∧
    (∀ (entry : DirEntry) (library : Library F), entry.isRegularFile = true → entry.extension ∈ kLibraryExtensions →
      ∃ o ∈ es ++ opened s (entry, library), o.file = entry.path) ∧
    s.registered.Same (admitted registered es) ∧
    ((∀ o ∈ es, o.library.exportsMake = true → o.file ∉ s.loader.files .blockLibrary) ↔ ∀ o ∈ es, o.Whole) := by
  have hl := ledger_of_trace h
  refine ⟨fun o ho v => hl.count_files ho v, fun v file hfile => ?_, fun entry library hregular hextension => ?_,
    hl.registered, forall₂_congr fun o ho => ?_⟩
  · obtain ⟨o, ho, -, hf⟩ := hl.mem_files.mp hfile
    exact ⟨o, ho, hf⟩
  · by_cases hloaded : entry.path ∈ s.loader.loadedPluginFiles
    · obtain ⟨o, ho, hfile⟩ := hl.mem_loaded.mp hloaded
      exact ⟨o, List.mem_append_left _ ho, hfile⟩
    · have hopens : opens s.loader entry = true := by
        simp only [opens, hregular, hextension, hloaded, decide_true, decide_false, Bool.and_self, Bool.not_false]
      rw [opened, if_pos hopens]
      exact ⟨_, List.mem_append_right _ (List.mem_singleton_self _), rfl⟩
  · rw [Opened.whole_iff]
    refine imp_congr_right fun _ => ?_
    rw [← List.count_eq_zero, hl.count_files ho]
    split
    · next hv => simp [hv]
    · next hv => simp [Ne.symm hv]

section Examples

def soFile (path : String) : DirEntry := { path, filename := path, extension := ".so", isRegularFile := true }

/-- A loader in a process that has loaded nothing. -/
def freshProcess : Transition.System (State Nat) (DirEntry × Library Nat) := system {} fun _ => none

/-- A plugin, a block library, a library that registers nothing, a plugin whose scheduler has no version, and the block
    library once more. -/
def pluginDirectory : List (DirEntry × Library Nat) :=
  [(soFile "plugin.so", { handle := some 1, exportsMake := true, exportsFree := true, made := some { abiVersion := 10 } }),
    (soFile "blocks.so", { handle := some 2, initializers := [.block .global "Doubler" "gain" 20 (some 10)] }),
    (soFile "ordinary.so", { handle := some 3 }),
    (soFile "foreign.so",
      { handle := some 4
        initializers := [.block .global "Doubler" "" 40 (some 10), .scheduler .global "Simple" "" 41 none]
        exportsMake := true
        exportsFree := true
        made := some { abiVersion := 10 } }),
    (soFile "blocks.so", { handle := some 2 })]

theorem refused_leaves_no_trace_pluginDirectory :
    ∃ s, freshProcess.run {} pluginDirectory = some s ∧
      (∀ v, s.loader.files v =
        match v with
        | .plugin => ["plugin.so"]
        | .blockLibrary => ["blocks.so"]
        | .ordinary => ["ordinary.so"]
        | .failed => ["foreign.so"]) ∧
      s.registered.Same (Registered.run {} [.block .global "Doubler" "gain" 20 (some 10)]) := by
  have htrace : freshProcess.Trace (fun _ _ => True) opened _ _ :=
    freshProcess.trace_get pluginDirectory rfl (Transition.System.meets_true _ _) rfl
  exact ⟨_, rfl, fun v => by cases v <;> decide, (refused_leaves_no_trace htrace).2.2.2.1⟩

/-- A plugin without `gr_plugin_free` that registers a block. -/
def halfPlugin : Library Nat :=
  { handle := some 1, initializers := [.block .global "Doubler" "" 20 (some 10)], exportsMake := true }

/-- It is admitted as a block library. -/
theorem halfPlugin_admitted :
    (scan (F := Nat) {} (soFile "half.so") halfPlugin).loader.files .blockLibrary = ["half.so"] ∧
      halfPlugin.exportsMake = true ∧
      (scan (F := Nat) {} (soFile "half.so") halfPlugin).loader.files .failed = [] := by decide

end Examples

end GnuRadio.PluginLoader
