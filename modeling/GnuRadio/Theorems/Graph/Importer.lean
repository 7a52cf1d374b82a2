import GnuRadio.Graph.Importer
import GnuRadio.Library.Fallible

/-! The settings of a caller are those of an edited document: a load with them does what a load of the document does
    in which they are written into the entries they name. -/

namespace GnuRadio.Importer

open Yaml

variable {F : Type}

/-! ### Fields -/

theorem lookup_insertOrAssign (map : ValueMap F) (key field : Bytes) (value : Value F) :
    (map.insertOrAssign key value).lookup field = if field = key then some value else map.lookup field := by
  induction map with
  | nil =>
    rw [ValueMap.insertOrAssign, List.lookup_cons]
    by_cases h : field = key
    · rw [if_pos h, h, beq_self_eq_true]
    · rw [if_neg h, beq_eq_false_iff_ne.mpr h]
  | cons entry map ih =>
    obtain ⟨key', value'⟩ := entry
    rw [ValueMap.insertOrAssign]
    by_cases h : key' = key
    · subst h
      rw [if_pos rfl, List.lookup_cons, List.lookup_cons]
      by_cases h : field = key'
      · rw [if_pos h, h, beq_self_eq_true]
      · rw [if_neg h, beq_eq_false_iff_ne.mpr h]
    · rw [if_neg h, List.lookup_cons, List.lookup_cons, ih]
      by_cases hfield : field = key'
      · rw [hfield]
        simp only [beq_self_eq_true, if_neg h]
      · rw [beq_eq_false_iff_ne.mpr hfield]

theorem get?_insertOrAssign (map : ValueMap F) (key field : String) (value : Value F) :
    get? (map.insertOrAssign key.toList value) field = if field = key then some value else get? map field := by
  rw [get?, lookup_insertOrAssign]
  by_cases h : field = key
  · rw [if_pos h, if_pos (congrArg String.toList h)]
  · rw [if_neg h, if_neg fun heq => h (String.toList_inj.mp heq), get?]

theorem mergedParameters_snoc (fromFile overrides : ValueMap F) (entry : Bytes × Value F) :
    mergedParameters fromFile (some (overrides ++ [entry])) =
      (mergedParameters fromFile (some overrides)).insertOrAssign entry.1 entry.2 := by
  rw [mergedParameters, mergedParameters, Option.getD_some, Option.getD_some, List.foldl_append]
  rfl

/-- The override's value, where it has one. -/
theorem lookup_mergedParameters (fromFile overrides : ValueMap F) (key : Bytes) :
    (mergedParameters fromFile (some overrides)).lookup key =
      ((mergedParameters [] (some overrides)).lookup key).or (fromFile.lookup key) := by
  induction overrides using List.reverseRecOn with
  | nil => rfl
  | append_singleton overrides entry ih =>
    rw [mergedParameters_snoc, mergedParameters_snoc, lookup_insertOrAssign, lookup_insertOrAssign, ih]
    split
    · exact (Option.some_or).symm
    · rfl

theorem lookup_parametersOf (map : ValueMap F) (key : Bytes) : (parametersOf map).lookup key = map.lookup key := by
  rw [parametersOf, Finmap.dlookup_list_toFinmap]
  induction map with
  | nil => rfl
  | cons entry map ih =>
    rw [List.map_cons, List.lookup_cons]
    by_cases h : key = entry.1
    · subst h
      rw [List.dlookup_cons_eq, beq_self_eq_true]
    · rw [List.dlookup_cons_ne _ _ h, ih, beq_eq_false_iff_ne.mpr h]

theorem parametersOf_congr {map map' : ValueMap F} (h : ∀ key, map.lookup key = map'.lookup key) :
    parametersOf map = parametersOf map' :=
  Finmap.ext_lookup fun key => by rw [lookup_parametersOf, lookup_parametersOf, h]

/-! ### Edited documents -/

/-- The values of `settings` in place of those of the same keys. -/
def replaceIn (settings map : ValueMap F) : ValueMap F :=
  map.map fun entry => (entry.1, ((mergedParameters [] (some settings)).lookup entry.1).getD entry.2)

/-- A `parameters` field that is not a map takes no keys. -/
def withParameters (settings grcBlock : ValueMap F) : ValueMap F :=
  match get? grcBlock "parameters" with
  | none => grcBlock.insertOrAssign "parameters".toList (.map (mergedParameters [] (some settings)))
  | some (.map parameters) =>
    grcBlock.insertOrAssign "parameters".toList (.map (mergedParameters parameters (some settings)))
  | some _ => grcBlock

def withSchedulerParameters (settings grcBlock : ValueMap F) : ValueMap F :=
  match get? grcBlock "scheduler" with
  | some (.map scheduler) =>
    match get? scheduler "parameters" with
    | some (.map parameters) =>
      let scheduler := ValueMap.insertOrAssign "parameters".toList (.map (replaceIn settings parameters)) scheduler
      grcBlock.insertOrAssign "scheduler".toList (.map scheduler)
    | _ => grcBlock
  | _ => grcBlock

/-- The entry with `settings` in its parameters, and in place of the same keys of its scheduler's. -/
def withSettings (settings grcBlock : ValueMap F) : ValueMap F :=
  withSchedulerParameters settings (withParameters settings grcBlock)

/-- Whether a key names a block. -/
def names (key : Bytes) : Value F → Bool
  | .map grcBlock => (readBlockIdentity grcBlock).toOption.any (·.carries key)
  | _ => false

section
variable (carriedBy : Bytes → Value F → Bool)

/-- The override whose key is carried by a block. -/
def takenBy (overrides : BlockSettings F) (block : Value F) : Option (Bytes × ValueMap F) :=
  overrides.find? fun override => carriedBy override.1 block

def edited (overrides : BlockSettings F) : Value F → Value F
  | .map grcBlock =>
    match takenBy carriedBy overrides (.map grcBlock) with
    | some override => .map (withSettings override.2 grcBlock)
    | none => .map grcBlock
  | value => value

/-- The document with every override in the entry it names. -/
def editedDocument (overrides : BlockSettings F) (yaml : ValueMap F) : ValueMap F :=
  match get? yaml "blocks" with
  | some (.list blocks) => yaml.insertOrAssign "blocks".toList (.list (blocks.map (edited carriedBy overrides)))
  | _ => yaml

/-- Each key is carried by one block, and no two keys by the same. -/
structure Resolvable (blocks : List (Value F)) (overrides : BlockSettings F) : Prop where
  one : ∀ override ∈ overrides, blocks.countP (carriedBy override.1) = 1
  apart : overrides.Pairwise fun override override' =>
    ∀ block ∈ blocks, carriedBy override.1 block = true → carriedBy override'.1 block = false

end

theorem get?_withParameters {field : String} (h : field ≠ "parameters") (settings grcBlock : ValueMap F) :
    get? (withParameters settings grcBlock) field = get? grcBlock field := by
  rw [withParameters]
  split
  · rw [get?_insertOrAssign, if_neg h]
  · rw [get?_insertOrAssign, if_neg h]
  · rfl

theorem get?_withSchedulerParameters {field : String} (h : field ≠ "scheduler") (settings grcBlock : ValueMap F) :
    get? (withSchedulerParameters settings grcBlock) field = get? grcBlock field := by
  rw [withSchedulerParameters]
  split
  · split
    · rw [get?_insertOrAssign, if_neg h]
    · rfl
  · rfl

theorem get?_withSettings {field : String} (hparameters : field ≠ "parameters") (hscheduler : field ≠ "scheduler")
    (settings grcBlock : ValueMap F) : get? (withSettings settings grcBlock) field = get? grcBlock field := by
  rw [withSettings, get?_withSchedulerParameters hscheduler, get?_withParameters hparameters]

/-! ### Entries -/

theorem readEntryParameters_withSettings (settings grcBlock : ValueMap F) (identity : BlockIdentity) :
    readEntryParameters (withSettings settings grcBlock) identity =
      (readEntryParameters grcBlock identity).map fun parameters => mergedParameters parameters (some settings) := by
  rw [readEntryParameters, withSettings, get?_withSchedulerParameters (by decide), withParameters, readEntryParameters]
  cases h : get? grcBlock "parameters" with
  | none =>
    rw [get?_insertOrAssign, if_pos rfl]
    rfl
  | some value =>
    cases value with
    | map parameters =>
      rw [get?_insertOrAssign, if_pos rfl]
      rfl
    | _ =>
      rw [h]
      rfl

theorem getSubProperty_withSettings (grcBlock : ValueMap F) {settings : ValueMap F} (hname : "name".toList ∉ settings.map (·.1)) :
    (getSubProperty (withSettings settings grcBlock) "parameters" "name").toOption =
      (getSubProperty grcBlock "parameters" "name").toOption := by
  have hlookup : (mergedParameters [] (some settings)).lookup "name".toList = none := by
    induction settings using List.reverseRecOn with
    | nil => rfl
    | append_singleton settings entry ih =>
      rw [List.map_append, List.mem_append, not_or] at hname
      rw [mergedParameters_snoc, lookup_insertOrAssign, if_neg fun heq => hname.2 (List.mem_singleton.mpr heq), ih hname.1]
  have hget : ∀ parameters : ValueMap F, get? (mergedParameters parameters (some settings)) "name" = get? parameters "name" := by
    intro parameters
    rw [get?, lookup_mergedParameters, hlookup, Option.none_or, get?]
  rw [getSubProperty, withSettings, get?_withSchedulerParameters (by decide), withParameters, getSubProperty]
  cases h : get? grcBlock "parameters" with
  | none =>
    rw [get?_insertOrAssign, if_pos rfl]
    simp only [getProperty, hget]
    rfl
  | some value =>
    cases value with
    | map parameters =>
      rw [get?_insertOrAssign, if_pos rfl]
      simp only [getProperty, hget]
    | _ =>
      rw [h]

/-- What an entry says of its block before the block is made. -/
theorem readBlockIdentity_withSettings {settings grcBlock : ValueMap F} (hname : "name".toList ∉ settings.map (·.1))
    {identity : BlockIdentity} (h : readBlockIdentity grcBlock = .ok identity) :
    readBlockIdentity (withSettings settings grcBlock) = .ok identity := by
  have hsub := getSubProperty_withSettings grcBlock hname
  have hfield : ∀ field, field ≠ "parameters" → field ≠ "scheduler" →
      getProperty (withSettings settings grcBlock) field = getProperty grcBlock field := fun field hp hs => by
    rw [getProperty, get?_withSettings hp hs, getProperty]
  rw [readBlockIdentity] at h ⊢
  rw [hfield "id" (by decide) (by decide), hfield "unique_name" (by decide) (by decide), hfield "name" (by decide) (by decide)]
  obtain ⟨type, htype, h⟩ := Fallible.bind_eq_ok h
  rw [htype]
  refine Eq.trans ?_ h
  dsimp only [Bind.bind, Except.bind]
  cases hold : getSubProperty grcBlock "parameters" "name" with
  | ok name =>
    rw [hold] at hsub
    rw [Fallible.toOption_eq_some_iff.mp hsub]
  | error error =>
    cases hnew : getSubProperty (withSettings settings grcBlock) "parameters" "name" with
    | ok name =>
      rw [hold, hnew] at hsub
      cases hsub
    | error error' =>
      rw [hold] at h
      by_cases hsubgraph : type = "SUBGRAPH".toList
      · simp only [if_pos hsubgraph]
      · simp only [if_neg hsubgraph] at h
        cases h

theorem lookup_replaceIn (settings map : ValueMap F) (key : Bytes) :
    (mergedParameters [] (some (replaceIn settings map))).lookup key =
      ((mergedParameters [] (some map)).lookup key).map ((mergedParameters [] (some settings)).lookup key).getD := by
  induction map using List.reverseRecOn with
  | nil => rfl
  | append_singleton map entry ih =>
    rw [replaceIn] at ih
    rw [replaceIn, List.map_append, List.map_singleton, mergedParameters_snoc, mergedParameters_snoc, lookup_insertOrAssign,
      lookup_insertOrAssign, ih]
    split
    · next heq => rw [heq, Option.map_some]
    · rfl

/-- Merging the scheduler's parameters first or last comes to the same, as an override stands in both. -/
theorem lookup_replaceIn_merged (fromFile settings scheduler : ValueMap F) (key : Bytes) :
    (mergedParameters (mergedParameters fromFile (some settings)) (some (replaceIn settings scheduler))).lookup key =
      (mergedParameters (mergedParameters fromFile (some scheduler)) (some settings)).lookup key := by
  rw [lookup_mergedParameters (mergedParameters fromFile (some settings)), lookup_mergedParameters fromFile settings,
    lookup_mergedParameters (mergedParameters fromFile (some scheduler)), lookup_mergedParameters fromFile scheduler,
    lookup_replaceIn]
  cases (mergedParameters [] (some settings)).lookup key with
  | none | some given =>
    cases (mergedParameters [] (some scheduler)).lookup key with
    | none => rfl
    | some value => rfl

theorem filter_replaceIn (settings map : ValueMap F) (p : Bytes → Bool) :
    (replaceIn settings map).filter (fun entry => p entry.1) = replaceIn settings (map.filter fun entry => p entry.1) := by
  rw [replaceIn, List.filter_map]
  rfl

/-- What the loader reads of the scheduler's field: the parameters with the override in place. -/
theorem schedulerParams_withSettings (settings : ValueMap F) {grcBlock scheduler : ValueMap F} (h : get? grcBlock "scheduler" = some (.map scheduler)) :
    ∃ scheduler', get? (withSettings settings grcBlock) "scheduler" = some (.map scheduler') ∧
      getProperty scheduler' "id" = getProperty scheduler "id" ∧
      (map? scheduler' "parameters").getD [] = replaceIn settings ((map? scheduler "parameters").getD []) := by
  rw [withSettings, withSchedulerParameters, get?_withParameters (by decide), h]
  simp only [map?]
  cases hp : get? scheduler "parameters" with
  | none => exact ⟨scheduler, (get?_withParameters (by decide) _ _).trans h, rfl, by rw [hp]; rfl⟩
  | some value =>
    cases value with
    | map parameters =>
      refine ⟨_, by rw [get?_insertOrAssign, if_pos rfl], ?_, ?_⟩
      · rw [getProperty, get?_insertOrAssign, if_neg (by decide), getProperty]
      · rw [get?_insertOrAssign, if_pos rfl]
        rfl
    | _ => exact ⟨scheduler, (get?_withParameters (by decide) _ _).trans h, rfl, by rw [hp]; rfl⟩

theorem get?_scheduler_withSettings {settings grcBlock : ValueMap F} (h : ∀ scheduler, get? grcBlock "scheduler" ≠ some (.map scheduler)) :
    get? (withSettings settings grcBlock) "scheduler" = get? grcBlock "scheduler" := by
  rw [withSettings, withSchedulerParameters, get?_withParameters (by decide)]
  split
  · next scheduler hs => exact absurd hs (h scheduler)
  · exact get?_withParameters (by decide) _ _

theorem readScheduler_withSettings (settings grcBlock fromFile : ValueMap F) (identity : BlockIdentity) :
    (readScheduler (withSettings settings grcBlock) identity (mergedParameters fromFile (some settings))).map
        (fun read => (read.1, parametersOf (mergedParameters read.2 none))) =
      (readScheduler grcBlock identity fromFile).map fun read => (read.1, parametersOf (mergedParameters read.2 (some settings))) := by
  rw [readScheduler, readScheduler]
  split
  · cases h : get? grcBlock "scheduler" with
    | none =>
      rw [get?_scheduler_withSettings (fun _ heq => by rw [h] at heq; cases heq), h]
      rfl
    | some value =>
      cases value with
      | map scheduler =>
        obtain ⟨scheduler', hget, hid, hparams⟩ := schedulerParams_withSettings settings h
        rw [hget]
        simp only [hid, hparams]
        cases hread : getProperty scheduler "id" with
        | error error => rfl
        | ok schedulerId =>
          refine congrArg Except.ok (Prod.ext rfl (parametersOf_congr fun key => ?_))
          have hfilter := filter_replaceIn settings ((map? scheduler "parameters").getD []) (· ≠ "name".toList)
          refine Eq.trans ?_ (lookup_replaceIn_merged fromFile settings _ key)
          rw [← hfilter]
          rfl
      | _ =>
        rw [get?_scheduler_withSettings (fun _ heq => by rw [h] at heq; cases heq), h]
        rfl
  · rfl

/-- The parameters that the constructor, the check of the keys and the settings get. -/
theorem blockParameters_withSettings (settings grcBlock : ValueMap F) (identity : BlockIdentity) :
    blockParameters (withSettings settings grcBlock) identity none = blockParameters grcBlock identity (some settings) := by
  rw [blockParameters, readEntryParameters_withSettings, blockParameters]
  cases readEntryParameters grcBlock identity with
  | error refusal => rfl
  | ok fromFile =>
    have h := readScheduler_withSettings settings grcBlock fromFile identity
    show (readScheduler _ _ _ >>= _) = (readScheduler _ _ _ >>= _)
    cases hnew : readScheduler (withSettings settings grcBlock) identity (mergedParameters fromFile (some settings)) with
    | error refusal =>
      cases hold : readScheduler grcBlock identity fromFile with
      | error refusal' =>
        rw [hnew, hold] at h
        exact h
      | ok read =>
        rw [hnew, hold] at h
        cases h
    | ok read' =>
      cases hold : readScheduler grcBlock identity fromFile with
      | error refusal' =>
        rw [hnew, hold] at h
        cases h
      | ok read =>
        rw [hnew, hold] at h
        exact h

section
variable {σ B G : Type} (loader : Components F σ B G)

theorem loadBlock_withSettings (nested : G → ValueMap F → Load σ (LoadedBlocks B)) (resultGraph : G) (createdBlocks : LoadedBlocks B)
    {settings grcBlock : ValueMap F} (hname : "name".toList ∉ settings.map (·.1)) {identity : BlockIdentity}
    (hidentity : readBlockIdentity grcBlock = .ok identity) :
    loadBlock loader nested resultGraph createdBlocks (.map (withSettings settings grcBlock), none) =
      loadBlock loader nested resultGraph createdBlocks (.map grcBlock, some settings) := by
  have hsettings : ∀ block parameters identity, loadEntrySettings loader block (withSettings settings grcBlock) parameters identity =
      loadEntrySettings loader block grcBlock parameters identity := fun block parameters identity => by
    simp only [loadEntrySettings, get?_withSettings (show "ctx_parameters" ≠ "parameters" by decide) (by decide),
      get?_withSettings (show "tag_couplings" ≠ "parameters" by decide) (by decide)]
  have hmeta : ∀ block, restoreMetaInformation loader block (withSettings settings grcBlock) =
      restoreMetaInformation loader block grcBlock := fun block => by
    simp only [restoreMetaInformation, map?, get?_withSettings (show "meta_information" ≠ "parameters" by decide) (by decide)]
  have hgraph : ∀ identity block, loadGraph loader nested (withSettings settings grcBlock) identity block =
      loadGraph loader nested grcBlock identity block := fun identity block => by
    simp only [loadGraph, get?_withSettings (show "graph" ≠ "parameters" by decide) (by decide)]
  simp only [loadBlock, hidentity, readBlockIdentity_withSettings hname hidentity, blockParameters_withSettings, hsettings,
    hmeta, hgraph]

end

/-! ### Keys -/

section
variable {blocks : List (Value F)} {identities : List (Nat × BlockIdentity)} {start : Nat}

theorem length_carriers (h : readIdentities start blocks = .ok identities) (key : Bytes) :
    (identities.filter fun block => block.2.carries key).length = blocks.countP (names key) := by
  induction blocks generalizing start identities with
  | nil =>
    cases h
    rfl
  | cons block blocks ih =>
    cases block with
    | map grcBlock =>
      rw [readIdentities] at h
      obtain ⟨identity, hidentity, h⟩ := Fallible.bind_eq_ok h
      obtain ⟨rest, hrest, h⟩ := Fallible.bind_eq_ok h
      cases h
      have hnames : names key (.map grcBlock) = identity.carries key := by
        rw [names, hidentity]
        rfl
      rw [List.countP_cons, ← ih hrest, hnames, List.filter_cons]
      cases identity.carries key with
      | false => rfl
      | true => rfl
    | _ => exact (ih h).trans (List.countP_cons_of_neg (by simp only [names]; decide)).symm

theorem block_of_identity (h : readIdentities start blocks = .ok identities) {carrier : Nat × BlockIdentity} (hmem : carrier ∈ identities) :
    ∃ i block, carrier.1 = start + i ∧ blocks[i]? = some block ∧ ∀ key, names key block = carrier.2.carries key := by
  induction blocks generalizing start identities with
  | nil =>
    cases h
    cases hmem
  | cons block blocks ih =>
    have hrest : ∀ identities, readIdentities (start + 1) blocks = .ok identities → carrier ∈ identities →
        ∃ i block', carrier.1 = start + i ∧ (block :: blocks)[i]? = some block' ∧ ∀ key, names key block' = carrier.2.carries key := by
      intro identities h hmem
      obtain ⟨i, block', hi, hblock, hnames⟩ := ih h hmem
      exact ⟨i + 1, block', by omega, by rw [List.getElem?_cons_succ]; exact hblock, hnames⟩
    cases block with
    | map grcBlock =>
      rw [readIdentities] at h
      obtain ⟨identity, hidentity, h⟩ := Fallible.bind_eq_ok h
      obtain ⟨rest, hread, h⟩ := Fallible.bind_eq_ok h
      cases h
      rcases List.mem_cons.mp hmem with rfl | hmem
      · refine ⟨0, .map grcBlock, rfl, rfl, fun key => ?_⟩
        rw [names, hidentity]
        rfl
      · exact hrest _ hread hmem
    | _ => exact hrest _ h hmem

theorem eq_of_countP_eq_one {α : Type} {p : α → Bool} {l : List α} (h : l.countP p = 1) {i j : Nat} {a b : α} (hi : l[i]? = some a)
    (hj : l[j]? = some b) (ha : p a = true) (hb : p b = true) : i = j := by
  have hnone : ∀ {l : List α} {k : Nat} {c : α}, l.countP p = 0 → l[k]? = some c → ¬ p c = true :=
    fun hzero hk => List.countP_eq_zero.mp hzero _ (List.mem_of_getElem? hk)
  induction l generalizing i j with
  | nil => cases hi
  | cons x l ih =>
    by_cases hx : p x = true
    · rw [List.countP_cons_of_pos hx, Nat.succ_inj] at h
      cases i with
      | zero =>
        cases j with
        | zero => rfl
        | succ j => exact absurd hb (hnone h hj)
      | succ i => exact absurd ha (hnone h hi)
    · rw [List.countP_cons_of_neg hx] at h
      cases i with
      | zero =>
        cases hi
        exact absurd ha hx
      | succ i =>
        cases j with
        | zero =>
          cases hj
          exact absurd hb hx
        | succ j => exact congrArg Nat.succ (ih h hi hj)

theorem takenBy_snoc (settled : BlockSettings F) (override : Bytes × ValueMap F) (block : Value F) :
    takenBy names (settled ++ [override]) block = (takenBy names settled block).or (if names override.1 block then some override else none) := by
  rw [takenBy, List.find?_append, List.find?_singleton]
  rfl

theorem takenBy_eq_none {settled : BlockSettings F} {block : Value F} :
    takenBy names settled block = none ↔ ∀ override ∈ settled, names override.1 block = false := by
  rw [takenBy, List.find?_eq_none]
  exact forall₂_congr fun _ _ => Bool.eq_false_iff.symm

/-- No block has both keys. -/
def Apart (blocks : List (Value F)) (override override' : Bytes × ValueMap F) : Prop :=
  ∀ block ∈ blocks, names override.1 block = true → names override'.1 block = false

/-- One override: its key names one block, which no key before it names. -/
theorem resolveOverride_eq_ok_iff (h : readIdentities 0 blocks = .ok identities) (done : BlockSettings F)
    (override : Bytes × ValueMap F) {settled : List (Option (Bytes × ValueMap F))} :
    resolveOverride identities (blocks.map (takenBy names done)) override = .ok settled ↔
      blocks.countP (names override.1) = 1 ∧ (∀ before ∈ done, Apart blocks before override) ∧
        settled = blocks.map (takenBy names (done ++ [override])) := by
  have hlength := length_carriers h override.1
  rw [resolveOverride]
  split
  · next hnil =>
    rw [hnil] at hlength
    exact ⟨nofun, fun h => absurd (hlength.trans h.1) (by decide)⟩
  · next carrier hone =>
    rw [hone] at hlength
    have hmem : carrier ∈ identities.filter fun block => block.2.carries override.1 := hone ▸ List.mem_singleton_self _
    obtain ⟨hmem, hcarries⟩ := List.mem_filter.mp hmem
    obtain ⟨i, block, hi, hblock, hnames⟩ := block_of_identity h hmem
    rw [Nat.zero_add] at hi
    have hnamed : names override.1 block = true := (hnames _).trans hcarries
    have htaken : ((blocks.map (takenBy names done))[carrier.1]?).join = takenBy names done block := by
      rw [hi, List.getElem?_map, hblock]
      rfl
    have hapart : takenBy names done block = none ↔ ∀ before ∈ done, Apart blocks before override := by
      rw [takenBy_eq_none]
      refine forall₂_congr fun before _ => ⟨fun hfalse block' hmem' htrue => ?_, fun hap => ?_⟩
      · obtain ⟨j, hj⟩ := List.getElem?_of_mem hmem'
        refine Bool.eq_false_iff.mpr fun hnamed' => ?_
        obtain rfl := eq_of_countP_eq_one hlength.symm hblock hj hnamed hnamed'
        rw [hblock, Option.some.injEq] at hj
        rw [hj, htrue] at hfalse
        cases hfalse
      · refine Bool.eq_false_iff.mpr fun htrue => ?_
        have := hap block (List.mem_of_getElem? hblock) htrue
        rw [hnamed] at this
        cases this
    rw [htaken]
    split
    · next key value hsome =>
      refine ⟨nofun, fun h => ?_⟩
      rw [hapart.mpr h.2.1] at hsome
      cases hsome
    · next hnone =>
      have hset : (blocks.map (takenBy names done)).set carrier.1 (some override) = blocks.map (takenBy names (done ++ [override])) := by
        refine List.ext_getElem? fun j => ?_
        rw [hi, List.getElem?_set, List.getElem?_map, List.getElem?_map]
        by_cases hj : i = j
        · subst hj
          have hlt := (List.getElem?_eq_some_iff.mp hblock).1
          rw [if_pos rfl, List.length_map, if_pos hlt, hblock, Option.map_some, takenBy_snoc, hnone, hnamed]
          rfl
        · rw [if_neg hj]
          cases hb : blocks[j]? with
          | none => rfl
          | some block' =>
            have hother : ¬ names override.1 block' = true := fun h =>
              hj (eq_of_countP_eq_one hlength.symm hblock hb hnamed h)
            rw [Option.map_some, Option.map_some, takenBy_snoc, if_neg hother, Option.or_none]
      rw [hset]
      exact ⟨fun h => ⟨hlength.symm, hapart.mp hnone, (Except.ok.inj h).symm⟩, fun h => by rw [h.2.2]⟩
  · next carriers hnil hone =>
    refine ⟨nofun, fun h => ?_⟩
    obtain ⟨carrier, hc⟩ := List.length_eq_one_iff.mp (hlength.trans h.1)
    exact absurd hc (hone carrier)

variable {overrides : BlockSettings F}

theorem foldlM_resolveOverride_eq_ok_iff (h : readIdentities 0 blocks = .ok identities)
    (done : BlockSettings F) {settled : List (Option (Bytes × ValueMap F))} :
    overrides.foldlM (resolveOverride identities) (blocks.map (takenBy names done)) = .ok settled ↔
      (∀ override ∈ overrides, blocks.countP (names override.1) = 1) ∧
        (∀ before ∈ done, ∀ override ∈ overrides, Apart blocks before override) ∧ overrides.Pairwise (Apart blocks) ∧
        settled = blocks.map (takenBy names (done ++ overrides)) := by
  induction overrides generalizing done with
  | nil =>
    rw [List.foldlM_nil, List.append_nil]
    exact ⟨fun h => ⟨nofun, nofun, .nil, (Except.ok.inj h).symm⟩,
      fun h => h.2.2.2 ▸ rfl⟩
  | cons override overrides ih =>
    rw [List.foldlM_cons]
    constructor
    · intro hfold
      obtain ⟨first, hfirst, hrest⟩ := Fallible.bind_eq_ok hfold
      obtain ⟨hone, hapart, rfl⟩ := (resolveOverride_eq_ok_iff h done override).mp hfirst
      obtain ⟨hones, haparts, hpairwise, hsettled⟩ := (ih _).mp hrest
      refine ⟨List.forall_mem_cons.mpr ⟨hone, hones⟩, fun before hb => List.forall_mem_cons.mpr ⟨hapart before hb, ?_⟩, ?_, ?_⟩
      · exact haparts before (List.mem_append_left _ hb)
      · exact List.pairwise_cons.mpr ⟨haparts override (List.mem_append_right _ (List.mem_singleton_self _)), hpairwise⟩
      · rw [hsettled, List.append_assoc, List.singleton_append]
    · rintro ⟨hones, haparts, hpairwise, hsettled⟩
      obtain ⟨hone, hones⟩ := List.forall_mem_cons.mp hones
      obtain ⟨hapart, hpairwise⟩ := List.pairwise_cons.mp hpairwise
      rw [(resolveOverride_eq_ok_iff h done override).mpr
        ⟨hone, fun before hb => haparts before hb override (.head _), rfl⟩]
      refine (ih _).mpr ⟨hones, fun before hb => ?_, hpairwise, ?_⟩
      · rcases List.mem_append.mp hb with hb | hb
        · exact fun other hother => haparts before hb other (.tail _ hother)
        · rw [List.mem_singleton.mp hb]
          exact hapart
      · rw [hsettled, List.append_assoc, List.singleton_append]

theorem map_takenBy_nil : blocks.map (takenBy names []) = List.replicate blocks.length none :=
  List.map_const'

/-- The settings that each block takes. -/
theorem resolveBlockSettings_eq_ok_iff (h : readIdentities 0 blocks = .ok identities)
    {settings : List (Option (ValueMap F))} :
    resolveBlockSettings blocks overrides = .ok settings ↔
      Resolvable names blocks overrides ∧ settings = blocks.map fun block => (takenBy names overrides block).map (·.2) := by
  have hmap : (blocks.map fun block => (takenBy names overrides block).map (·.2)) = (blocks.map (takenBy names overrides)).map (Option.map (·.2)) := by
    rw [List.map_map]
    rfl
  rw [resolveBlockSettings, hmap]
  split
  · next hempty =>
    obtain rfl := List.isEmpty_iff.mp hempty
    rw [map_takenBy_nil, List.map_replicate]
    exact ⟨fun h => ⟨⟨nofun, .nil⟩, (Except.ok.inj h).symm⟩, fun h => h.2 ▸ rfl⟩
  · rw [h, ← map_takenBy_nil]
    show (overrides.foldlM (resolveOverride identities) (blocks.map (takenBy names [])) >>= _) = _ ↔ _
    constructor
    · intro hfold
      obtain ⟨settled, hsettled, heq⟩ := Fallible.bind_eq_ok hfold
      obtain ⟨hones, -, hpairwise, rfl⟩ := (foldlM_resolveOverride_eq_ok_iff h []).mp hsettled
      exact ⟨⟨hones, hpairwise⟩, (Except.ok.inj heq).symm⟩
    · rintro ⟨⟨hones, hpairwise⟩, rfl⟩
      rw [(foldlM_resolveOverride_eq_ok_iff h []).mpr ⟨hones, nofun, hpairwise, rfl⟩]
      rfl

/-- Overrides that do not resolve are refused by a computation that has no effect. -/
theorem resolveBlockSettings_refuses (h : ¬ Resolvable names blocks overrides) :
    ∃ refusal, resolveBlockSettings blocks overrides = .error refusal := by
  cases hresolve : resolveBlockSettings blocks overrides with
  | error refusal => exact ⟨refusal, rfl⟩
  | ok settings =>
    cases hread : readIdentities 0 blocks with
    | ok identities => exact absurd ((resolveBlockSettings_eq_ok_iff hread).mp hresolve).1 h
    | error error =>
      rw [resolveBlockSettings, hread] at hresolve
      split at hresolve
      · next hempty =>
        obtain rfl := List.isEmpty_iff.mp hempty
        exact absurd ⟨nofun, .nil⟩ h
      · cases hresolve

end

/-! ### Loads -/

section
variable {σ α β : Type}

/-- What a load comes to, and the state it leaves. -/
def outcome (load : Load σ α) (s : σ) : Except Refusal α × σ := (ExceptT.run load).run s

theorem outcome_bind (load : Load σ α) (next : α → Load σ β) (s : σ) :
    outcome (load >>= next) s =
      match outcome load s with
      | (.ok a, s') => outcome (next a) s'
      | (.error refusal, s') => (.error refusal, s') := by
  rw [outcome, ExceptT.run_bind, StateT.run_bind, outcome]
  show (match (ExceptT.run load).run s with | (r, s') => _) = _
  cases (ExceptT.run load).run s with
  | mk r s' =>
    cases r with
    | error refusal => rfl
    | ok a => rfl

theorem lift_ok_bind (a : α) (next : α → Load σ β) : ((liftM (Except.ok a : Except Refusal α) : Load σ α) >>= next) = next a := rfl

def Refuses (load : Load σ α) : Prop := ∀ s, ∃ refusal, (outcome load s).1 = .error refusal

theorem refuses_lift_error (refusal : Refusal) : Refuses (liftM (Except.error refusal : Except Refusal α) : Load σ α) :=
  fun _ => ⟨refusal, rfl⟩

theorem Refuses.bind {load : Load σ α} (h : Refuses load) (next : α → Load σ β) : Refuses (load >>= next) := by
  intro s
  obtain ⟨refusal, hrefusal⟩ := h s
  rw [outcome_bind]
  cases hout : outcome load s with
  | mk r s' =>
    rw [hout] at hrefusal
    cases hrefusal
    exact ⟨refusal, rfl⟩

theorem Refuses.after (load : Load σ α) {next : α → Load σ β} (h : ∀ a, Refuses (next a)) : Refuses (load >>= next) := by
  intro s
  rw [outcome_bind]
  cases outcome load s with
  | mk r s' =>
    cases r with
    | error refusal => exact ⟨refusal, rfl⟩
    | ok a => exact h a s'

/-- A loop refuses when its body does at one item. -/
theorem refuses_foldlM {f : β → α → Load σ β} {items : List α} {item : α} (hmem : item ∈ items) (h : ∀ b, Refuses (f b item))
    (b : β) : Refuses (items.foldlM f b) := by
  induction items generalizing b with
  | nil => cases hmem
  | cons head items ih =>
    rw [List.foldlM_cons]
    rcases List.mem_cons.mp hmem with rfl | hmem
    · exact (h b).bind _
    · exact Refuses.after _ fun b' => ih hmem b'

theorem foldlM_congr {f g : β → α → Load σ β} {items : List α} (h : ∀ b, ∀ item ∈ items, f b item = g b item) (b : β) :
    items.foldlM f b = items.foldlM g b := by
  induction items generalizing b with
  | nil => rfl
  | cons item items ih =>
    rw [List.foldlM_cons, List.foldlM_cons, h b item (.head _)]
    exact bind_congr fun b' => ih (fun b item hmem => h b item (.tail _ hmem)) b'

end

section
variable {σ B G : Type} (loader : Components F σ B G) {blocks : List (Value F)} {overrides : BlockSettings F} {yaml : ValueMap F}

/-- The block of an edited entry, and that of the entry with its override. -/
theorem loadBlock_edited (hname : ∀ override ∈ overrides, "name".toList ∉ override.2.map (·.1))
    (nested : G → ValueMap F → Load σ (LoadedBlocks B)) (resultGraph : G) (createdBlocks : LoadedBlocks B) (block : Value F) :
    loadBlock loader nested resultGraph createdBlocks (edited names overrides block, none) =
      loadBlock loader nested resultGraph createdBlocks (block, (takenBy names overrides block).map (·.2)) := by
  cases block with
  | map grcBlock =>
    rw [edited]
    cases htaken : takenBy names overrides (.map grcBlock) with
    | none => rfl
    | some override =>
      have hnames := List.find?_some htaken
      rw [names] at hnames
      cases hidentity : readBlockIdentity grcBlock with
      | error error =>
        rw [hidentity] at hnames
        cases hnames
      | ok identity =>
        exact loadBlock_withSettings loader nested resultGraph createdBlocks (hname override (List.mem_of_find?_eq_some htaken)) hidentity
  | _ => rfl

theorem listOrEmpty_editedDocument {field : String} (overrides : BlockSettings F) (yaml : ValueMap F) :
    listOrEmpty (editedDocument names overrides yaml) field =
      if field = "blocks" then (listOrEmpty yaml field).map (edited names overrides) else listOrEmpty yaml field := by
  rw [editedDocument]
  split
  · next blocks h =>
    rw [listOrEmpty, get?_insertOrAssign, listOrEmpty]
    by_cases hfield : field = "blocks"
    · rw [if_pos hfield, if_pos hfield, hfield, h]
    · rw [if_neg hfield, if_neg hfield]
  · next h =>
    by_cases hfield : field = "blocks"
    · rw [if_pos hfield, hfield, listOrEmpty]
      split
      · next items hitems => exact absurd hitems (h items)
      · rfl
    · rw [if_neg hfield]

theorem zip_map_self {α β : Type} (g : α → β) (l : List α) : l.zip (l.map g) = l.map fun a => (a, g a) := by
  have : (l.map fun a => a).zip (l.map g) = _ := List.zip_map'
  rwa [List.map_id'] at this

/-- The loop over the blocks of the edited document is that over the blocks with their overrides. -/
theorem loadBlocks_edited (hname : ∀ override ∈ overrides, "name".toList ∉ override.2.map (·.1))
    (nested : G → ValueMap F → Load σ (LoadedBlocks B)) (resultGraph : G) (createdBlocks : LoadedBlocks B) :
    ((blocks.map (edited names overrides)).zip (List.replicate blocks.length none)).foldlM (loadBlock loader nested resultGraph) createdBlocks =
      (blocks.zip (blocks.map fun block => (takenBy names overrides block).map (·.2))).foldlM (loadBlock loader nested resultGraph)
        createdBlocks := by
  have hedited : (blocks.map (edited names overrides)).zip (List.replicate blocks.length none) =
      blocks.map fun block => (edited names overrides block, (none : Option (ValueMap F))) := by
    rw [← List.map_const', List.zip_map']
  rw [hedited, zip_map_self, List.foldlM_map, List.foldlM_map]
  exact foldlM_congr (fun createdBlocks block _ => loadBlock_edited loader hname nested resultGraph createdBlocks block) createdBlocks

variable {error : FieldError}

theorem exists_unreadable {start : Nat} (h : readIdentities start blocks = .error error) :
    ∃ grcBlock error', .map grcBlock ∈ blocks ∧ readBlockIdentity grcBlock = .error error' := by
  induction blocks generalizing start error with
  | nil => cases h
  | cons block blocks ih =>
    have hrest : ∀ {error}, readIdentities (start + 1) blocks = .error error →
        ∃ grcBlock error', .map grcBlock ∈ block :: blocks ∧ readBlockIdentity grcBlock = .error error' := fun h => by
      obtain ⟨grcBlock, error', hmem, herror⟩ := ih h
      exact ⟨grcBlock, error', .tail _ hmem, herror⟩
    cases block with
    | map grcBlock =>
      cases hidentity : readBlockIdentity grcBlock with
      | error error' => exact ⟨grcBlock, error', .head _, hidentity⟩
      | ok identity =>
        cases hread : readIdentities (start + 1) blocks with
        | error error' => exact hrest hread
        | ok identities =>
          rw [readIdentities, hidentity, hread] at h
          cases h
    | _ => exact hrest h

/-! ### Levels -/

theorem levels_le_of_get? {entries : ValueMap F} {key : String} {value : Value F} (hkey : key = "blocks" ∨ key = "graph")
    (h : get? entries key = some value) : levels value ≤ levelsOfEntries entries := by
  rw [get?] at h
  induction entries with
  | nil => cases h
  | cons entry entries ih =>
    obtain ⟨key', value'⟩ := entry
    rw [levelsOfEntries]
    rw [List.lookup_cons] at h
    by_cases heq : key.toList = key'
    · rw [heq, beq_self_eq_true] at h
      cases h
      refine le_trans ?_ (le_max_left _ _)
      rw [if_pos]
      rcases hkey with rfl | rfl
      · exact .inl heq.symm
      · exact .inr heq.symm
    · rw [beq_eq_false_iff_ne.mpr heq] at h
      exact le_trans (ih h) (le_max_right _ _)

theorem levels_le_of_mem {items : List (Value F)} {item : Value F} (h : item ∈ items) : levels item ≤ levelsOfItems items := by
  induction items with
  | nil => cases h
  | cons head items ih =>
    rw [levelsOfItems]
    rcases List.mem_cons.mp h with rfl | h
    · exact le_max_left _ _
    · exact le_trans (ih h) (le_max_right _ _)

/-- A graph in a block of a document has fewer levels than the document. -/
theorem levels_nested {grcBlock graphData : ValueMap F} (hblock : .map grcBlock ∈ listOrEmpty yaml "blocks")
    (hgraph : get? grcBlock "graph" = some (.map graphData)) : levelsOfEntries graphData < levelsOfEntries yaml := by
  rw [listOrEmpty] at hblock
  split at hblock
  · next items hitems =>
    have hdocument := levels_le_of_get? (.inl rfl) hitems
    have hentry := levels_le_of_mem hblock
    have hinner := levels_le_of_get? (.inr rfl) hgraph
    simp only [levels] at hdocument hentry hinner
    omega
  · cases hblock

theorem loadBlock_congr {nested nested' : G → ValueMap F → Load σ (LoadedBlocks B)} {block : Value F}
    (h : ∀ grcBlock graphData, block = .map grcBlock → get? grcBlock "graph" = some (.map graphData) →
      ∀ graph, nested graph graphData = nested' graph graphData)
    (resultGraph : G) (createdBlocks : LoadedBlocks B) (given : Option (ValueMap F)) :
    loadBlock loader nested resultGraph createdBlocks (block, given) =
      loadBlock loader nested' resultGraph createdBlocks (block, given) := by
  cases block with
  | map grcBlock =>
    have hgraph : ∀ identity wrapper, loadGraph loader nested grcBlock identity wrapper = loadGraph loader nested' grcBlock identity wrapper := by
      intro identity wrapper
      rw [loadGraph, loadGraph]
      split
      · rfl
      · next graphData hdata => simp only [h grcBlock graphData rfl hdata]
      · rfl
    simp only [loadBlock, hgraph]
  | _ => rfl

/-- More fuel than levels changes nothing. -/
theorem loadGraphFromMap_fuel {fuel fuel' : Nat} (h : levelsOfEntries yaml < fuel) (h' : levelsOfEntries yaml < fuel')
    (resultGraph : G) (overrides : BlockSettings F) :
    loadGraphFromMap loader fuel resultGraph yaml overrides = loadGraphFromMap loader fuel' resultGraph yaml overrides := by
  induction fuel generalizing fuel' yaml resultGraph overrides with
  | zero => exact absurd h (Nat.not_lt_zero _)
  | succ fuel ih =>
    cases fuel' with
    | zero => exact absurd h' (Nat.not_lt_zero _)
    | succ fuel' =>
      rw [loadGraphFromMap, loadGraphFromMap]
      refine bind_congr fun settings => ?_
      have hblocks : ∀ createdBlocks, ((listOrEmpty yaml "blocks").zip settings).foldlM
          (loadBlock loader (fun graph graphData => loadGraphFromMap loader fuel graph graphData []) resultGraph) createdBlocks =
          ((listOrEmpty yaml "blocks").zip settings).foldlM
            (loadBlock loader (fun graph graphData => loadGraphFromMap loader fuel' graph graphData []) resultGraph) createdBlocks := by
        refine foldlM_congr fun createdBlocks entry hentry => ?_
        obtain ⟨block, given⟩ := entry
        refine loadBlock_congr loader (fun grcBlock graphData hblock hgraph graph => ?_) resultGraph createdBlocks given
        have hmem := (List.of_mem_zip hentry).1
        have hlt := levels_nested (hblock ▸ hmem) hgraph
        exact ih (by omega) (by omega) graph []
      simp only [hblocks]

/-! ### Documents -/

/-- An entry that says too little of its block is refused, sooner or later. -/
theorem refuses_unreadable {grcBlock : ValueMap F} (hmem : .map grcBlock ∈ listOrEmpty yaml "blocks")
    (herror : readBlockIdentity grcBlock = .error error) (fuel : Nat) (resultGraph : G) :
    Refuses (loadGraphFromMap loader (fuel + 1) resultGraph yaml []) := by
  have hresolve : resolveBlockSettings (listOrEmpty yaml "blocks") [] = .ok ((listOrEmpty yaml "blocks").map fun _ => none) := by
    rw [List.map_const']
    rfl
  have hbody : ∀ nested createdBlocks, Refuses (loadBlock loader nested resultGraph createdBlocks (.map grcBlock, none)) := by
    intro nested createdBlocks
    rw [loadBlock, herror]
    exact (refuses_lift_error _).bind _
  have hentry : (.map grcBlock, none) ∈ (listOrEmpty yaml "blocks").map fun block => (block, (none : Option (ValueMap F))) :=
    List.mem_map_of_mem hmem
  rw [loadGraphFromMap, hresolve, lift_ok_bind, zip_map_self]
  exact (refuses_foldlM hentry (hbody _) {}).bind _

/-- A load with overrides that resolve is the load of the edited document. -/
theorem loadGraphFromMap_edited (hname : ∀ override ∈ overrides, "name".toList ∉ override.2.map (·.1))
    {identities : List (Nat × BlockIdentity)} (h : readIdentities 0 (listOrEmpty yaml "blocks") = .ok identities)
    (hresolvable : Resolvable names (listOrEmpty yaml "blocks") overrides) (fuel : Nat) (resultGraph : G) :
    loadGraphFromMap loader (fuel + 1) resultGraph yaml overrides =
      loadGraphFromMap loader (fuel + 1) resultGraph (editedDocument names overrides yaml) [] := by
  have hnone : resolveBlockSettings ((listOrEmpty yaml "blocks").map (edited names overrides)) ([] : BlockSettings F) =
      .ok (List.replicate (listOrEmpty yaml "blocks").length none) := by
    rw [← List.length_map (edited names overrides)]
    rfl
  rw [loadGraphFromMap, loadGraphFromMap, (resolveBlockSettings_eq_ok_iff h).mpr ⟨hresolvable, rfl⟩, lift_ok_bind,
    listOrEmpty_editedDocument, if_pos rfl, listOrEmpty_editedDocument, if_neg (by decide), hnone, lift_ok_bind]
  simp only [loadBlocks_edited loader hname]

/-- The same graph, or a refusal in both cases. -/
def SameResult {α : Type} (load load' : Load σ α) : Prop := load = load' ∨ Refuses load ∧ Refuses load'

theorem mem_editedDocument_of_unreadable {grcBlock : ValueMap F}
    (hmem : .map grcBlock ∈ listOrEmpty yaml "blocks") (herror : readBlockIdentity grcBlock = .error error)
    (overrides : BlockSettings F) : .map grcBlock ∈ listOrEmpty (editedDocument names overrides yaml) "blocks" := by
  have htaken : takenBy names overrides (.map grcBlock) = none := takenBy_eq_none.mpr fun override _ => by
    rw [names, herror]
    rfl
  rw [listOrEmpty_editedDocument, if_pos rfl]
  refine List.mem_map.mpr ⟨.map grcBlock, hmem, ?_⟩
  rw [edited, htaken]

theorem loadDocument_eq {fuel : Nat} (h : levelsOfEntries yaml < fuel) (overrides : BlockSettings F) :
    loadDocument loader yaml overrides =
      ((liftM loader.makeGraph : Load σ G) >>= fun resultGraph =>
        loadGraphFromMap loader fuel resultGraph yaml overrides >>= fun _ => pure resultGraph) := by
  rw [loadDocument]
  refine bind_congr fun resultGraph => ?_
  rw [loadGraphFromMap_fuel loader (Nat.lt_succ_self _) h]

theorem loadDocument_edited (hname : ∀ override ∈ overrides, "name".toList ∉ override.2.map (·.1))
    (hresolvable : Resolvable names (listOrEmpty yaml "blocks") overrides) :
    SameResult (loadDocument loader yaml overrides) (loadDocument loader (editedDocument names overrides yaml) []) := by
  have hfuel : ∃ fuel, levelsOfEntries yaml < fuel + 1 ∧ levelsOfEntries (editedDocument names overrides yaml) < fuel + 1 :=
    ⟨max (levelsOfEntries yaml) (levelsOfEntries (editedDocument names overrides yaml)), by omega, by omega⟩
  obtain ⟨fuel, hlt, hlt'⟩ := hfuel
  rw [loadDocument_eq loader hlt, loadDocument_eq loader hlt']
  cases hread : readIdentities 0 (listOrEmpty yaml "blocks") with
  | ok identities =>
    exact .inl (bind_congr fun resultGraph => by rw [loadGraphFromMap_edited loader hname hread hresolvable])
  | error error =>
    obtain ⟨grcBlock, error', hmem, herror⟩ := exists_unreadable hread
    refine .inr ⟨Refuses.after _ fun resultGraph => Refuses.bind ?_ _, Refuses.after _ fun resultGraph => Refuses.bind ?_ _⟩
    · cases overrides with
      | nil => exact refuses_unreadable loader hmem herror fuel resultGraph
      | cons override overrides =>
        rw [loadGraphFromMap, resolveBlockSettings, hread]
        exact (refuses_lift_error _).bind _
    · exact refuses_unreadable loader (mem_editedDocument_of_unreadable hmem herror overrides) herror fuel resultGraph

/-- Overrides that do not resolve: nothing but the empty graph has been made. -/
theorem loadDocument_refuses (h : ¬ Resolvable names (listOrEmpty yaml "blocks") overrides) (s : σ) :
    ∃ refusal, outcome (loadDocument loader yaml overrides) s = (.error refusal, (loader.makeGraph.run s).2) := by
  obtain ⟨refusal, hrefusal⟩ := resolveBlockSettings_refuses h
  refine ⟨refusal, ?_⟩
  rw [loadDocument, outcome_bind]
  show outcome (loadGraphFromMap _ _ _ _ _ >>= _) _ = _
  rw [loadGraphFromMap, hrefusal]
  rfl

/-- A field of an entry. -/
def entryField? (field : String) : Value F → Option (Value F)
  | .map grcBlock => get? grcBlock field
  | _ => none

/-- An edit stays in the parameters of an entry and of its scheduler: a nested graph keeps every block. -/
theorem entryField?_edited {field : String} (hparameters : field ≠ "parameters") (hscheduler : field ≠ "scheduler")
    (overrides : BlockSettings F) (block : Value F) : entryField? field (edited names overrides block) = entryField? field block := by
  cases block with
  | map grcBlock =>
    rw [edited]
    cases takenBy names overrides (.map grcBlock) with
    | none => rfl
    | some override => exact get?_withSettings hparameters hscheduler override.2 grcBlock
  | _ => rfl

theorem loadGrc_eq {floats : FloatFormat F} {fuel : Nat} {yamlSrc : Bytes} {parsed : Parsed (ValueMap F)}
    (h : deserialize floats fuel yamlSrc = .ok parsed) (overrides : BlockSettings F) :
    loadGrc loader floats fuel yamlSrc overrides = loadDocument loader parsed.value overrides := by
  rw [loadGrc, h]

/-- The settings of a caller are refused before a block is made, or they are those of the edited document. -/
theorem loadGrc_edited {floats : FloatFormat F} {fuel fuel' : Nat} {yamlSrc editedSrc : Bytes} {parsed parsed' : Parsed (ValueMap F)}
    (hparsed : deserialize floats fuel yamlSrc = .ok parsed) (hparsed' : deserialize floats fuel' editedSrc = .ok parsed')
    (hedited : parsed'.value = editedDocument names overrides parsed.value)
    (hname : ∀ override ∈ overrides, "name".toList ∉ override.2.map (·.1)) :
    (¬ Resolvable names (listOrEmpty parsed.value "blocks") overrides → ∀ s, ∃ refusal,
      outcome (loadGrc loader floats fuel yamlSrc overrides) s = (.error refusal, (loader.makeGraph.run s).2)) ∧
    (Resolvable names (listOrEmpty parsed.value "blocks") overrides →
      SameResult (loadGrc loader floats fuel yamlSrc overrides) (loadGrc loader floats fuel' editedSrc [])) ∧
    ∀ field, field ≠ "parameters" → field ≠ "scheduler" → ∀ block ∈ listOrEmpty parsed.value "blocks",
      entryField? field (edited names overrides block) = entryField? field block := by
  rw [loadGrc_eq loader hparsed, loadGrc_eq loader hparsed', hedited]
  refine ⟨fun h s => loadDocument_refuses loader h s, fun h => loadDocument_edited loader hname h, ?_⟩
  exact fun field hparameters hscheduler block _ => entryField?_edited hparameters hscheduler overrides block

end

/-! ### Equal documents -/

section
variable [DecidableEq F]

mutual

/-- Whether two values agree, entry by entry. -/
def same : Value F → Value F → Bool
  | .null, .null => true
  | .bool b, .bool b' => b = b'
  | .int type n, .int type' n' => type = type' && n = n'
  | .float type x, .float type' x' => type = type' && x = x'
  | .complex type re im, .complex type' re' im' => type = type' && re = re' && im = im'
  | .string s, .string s' => s = s'
  | .map entries, .map entries' => sameEntries entries entries'
  | .list items, .list items' => sameItems items items'
  | .tensor type items, .tensor type' items' => type = type' && sameItems items items'
  | _, _ => false

def sameEntries : List (Bytes × Value F) → List (Bytes × Value F) → Bool
  | [], [] => true
  | (key, value) :: entries, (key', value') :: entries' => key = key' && same value value' && sameEntries entries entries'
  | _, _ => false

def sameItems : List (Value F) → List (Value F) → Bool
  | [], [] => true
  | value :: items, value' :: items' => same value value' && sameItems items items'
  | _, _ => false

end

mutual

theorem eq_of_same {value value' : Value F} (h : same value value' = true) : value = value' := by
  cases value <;> cases value' <;> simp only [same, Bool.and_eq_true, decide_eq_true_eq, reduceCtorEq] at h
  case null.null => rfl
  case map.map => rw [eq_of_sameEntries h]
  case list.list => rw [eq_of_sameItems h]
  case tensor.tensor => rw [h.1, eq_of_sameItems h.2]
  case bool.bool | string.string => rw [h]
  case int.int | float.float => rw [h.1, h.2]
  case complex.complex => rw [h.1.1, h.1.2, h.2]

theorem eq_of_sameEntries {entries entries' : List (Bytes × Value F)} (h : sameEntries entries entries' = true) : entries = entries' := by
  match entries, entries', h with
  | [], [], _ => rfl
  | (key, value) :: entries, (key', value') :: entries', h =>
    simp only [sameEntries, Bool.and_eq_true, decide_eq_true_eq] at h
    rw [h.1.1, eq_of_same h.1.2, eq_of_sameEntries h.2]

theorem eq_of_sameItems {items items' : List (Value F)} (h : sameItems items items' = true) : items = items' := by
  match items, items', h with
  | [], [], _ => rfl
  | value :: items, value' :: items', h =>
    rw [sameItems, Bool.and_eq_true] at h
    rw [eq_of_same h.1, eq_of_sameItems h.2]

end

end

/-! ### Examples -/

def noNumbers : FloatFormat Unit := ⟨(), (), (), fun _ _ => .error ("", "")⟩

/-- Every block has the settings `name` and `unit`, and nothing is refused. -/
def lenient : Components Unit Unit Unit Unit where
  makeGraph := pure ()
  instantiateOrError _ _ := pure (some ())
  instantiateScheduler _ _ := pure (some ())
  makeSubgraph _ := pure ()
  graph _ := pure ()
  setInitBlockParameters _ _ := pure ()
  writableMembers _ := pure {"name".toList, "unit".toList}
  readableMembers _ := pure {"name".toList, "unit".toList}
  typeName _ := pure []
  uniqueName _ := pure []
  setName _ _ := pure ()
  loadParametersFromPropertyMap _ _ _ := pure ()
  setTagCouplings _ _ := pure ()
  activateContext _ := pure true
  applyStagedParameters _ := pure true
  tryEmplaceMetaInformation _ _ _ := pure ()
  addBlock _ _ := pure ()
  exportPort _ _ _ _ _ := pure ()
  hasSameInput _ _ _ := pure false
  connect _ _ _ _ := pure ()

def unitOf (name : Bytes) : BlockSettings Unit := [(name, [("unit".toList, .string "V".toList)])]

def plainSrc : Bytes := "blocks:\n  - id: a\n    parameters:\n      name: b\n".toList

def plainEdited : Bytes := "blocks:\n  - id: a\n    parameters:\n      name: b\n      unit: V\n".toList

theorem exists_of_any {ε α : Type} {x : Except ε α} {p : α → Bool} (h : x.toOption.any p = true) : ∃ a, x = .ok a ∧ p a = true := by
  cases x with
  | error e => cases h
  | ok a => exact ⟨a, rfl, h⟩

theorem unitOf_edited :
    SameResult (loadGrc lenient noNumbers 40 plainSrc (unitOf ['b'])) (loadGrc lenient noNumbers 40 plainEdited []) := by
  have hread : (deserialize noNumbers 40 plainSrc).toOption.any (fun parsed =>
      (deserialize noNumbers 40 plainEdited).toOption.any fun parsed' =>
        sameEntries parsed'.value (editedDocument names (unitOf ['b']) parsed.value) &&
          (listOrEmpty parsed.value "blocks").countP (names ['b']) = 1) = true := by decide +kernel
  obtain ⟨parsed, hparsed, hread⟩ := exists_of_any hread
  obtain ⟨parsed', hparsed', hread⟩ := exists_of_any hread
  obtain ⟨hsame, hone⟩ := Bool.and_eq_true_iff.mp hread
  refine (loadGrc_edited lenient hparsed hparsed' (eq_of_sameEntries hsame) (by decide)).2.1 ⟨?_, List.pairwise_singleton _ _⟩
  exact List.forall_mem_singleton.mpr (of_decide_eq_true hone)

/-- Whether a block has the key as its `unique_name` or its name, be it empty. -/
def hasName (key : Bytes) : Value F → Bool
  | .map grcBlock =>
    (readBlockIdentity grcBlock).toOption.any fun identity =>
      (getProperty grcBlock "unique_name").toOption = some key || identity.name = key
  | _ => false

def unnamedSrc : Bytes := "blocks:\n  - id: a\n    parameters:\n      name: \"\"\n".toList

def unnamedEdited : Bytes := "blocks:\n  - id: a\n    parameters:\n      name: \"\"\n      unit: V\n".toList

/-- The empty key is refused where one block has an empty name, and the edited document is loaded. -/
theorem emptyKey_refused :
    ¬ ∀ (σ B G : Type) (loader : Components Unit σ B G) (overrides : BlockSettings Unit) (fuel : Nat) (yamlSrc editedSrc : Bytes)
      (parsed parsed' : Parsed (ValueMap Unit)), deserialize noNumbers fuel yamlSrc = .ok parsed →
      deserialize noNumbers fuel editedSrc = .ok parsed' → parsed'.value = editedDocument hasName overrides parsed.value →
      (∀ override ∈ overrides, "name".toList ∉ override.2.map (·.1)) →
      Resolvable hasName (listOrEmpty parsed.value "blocks") overrides →
      SameResult (loadGrc loader noNumbers fuel yamlSrc overrides) (loadGrc loader noNumbers fuel editedSrc []) := by
  intro h
  have hread : (deserialize noNumbers 40 unnamedSrc).toOption.any (fun parsed =>
      (deserialize noNumbers 40 unnamedEdited).toOption.any fun parsed' =>
        sameEntries parsed'.value (editedDocument hasName (unitOf []) parsed.value) &&
          (listOrEmpty parsed.value "blocks").countP (hasName []) = 1) = true := by decide +kernel
  obtain ⟨parsed, hparsed, hread⟩ := exists_of_any hread
  obtain ⟨parsed', hparsed', hread⟩ := exists_of_any hread
  obtain ⟨hsame, hone⟩ := Bool.and_eq_true_iff.mp hread
  have hresult := h Unit Unit Unit lenient (unitOf []) 40 unnamedSrc unnamedEdited parsed parsed' hparsed hparsed'
    (eq_of_sameEntries hsame) (by decide) ⟨List.forall_mem_singleton.mpr (of_decide_eq_true hone), List.pairwise_singleton _ _⟩
  have hrefused : (outcome (loadGrc lenient noNumbers 40 unnamedSrc (unitOf [])) ()).1.isOk = false := by decide +kernel
  have hloaded : (outcome (loadGrc lenient noNumbers 40 unnamedEdited []) ()).1.isOk = true := by decide +kernel
  rcases hresult with heq | ⟨-, hrefuses⟩
  · rw [heq, hloaded] at hrefused
    cases hrefused
  · obtain ⟨refusal, hrefusal⟩ := hrefuses ()
    rw [hrefusal] at hloaded
    cases hloaded

end GnuRadio.Importer
