import GnuRadio.Library.Fallible
import GnuRadio.Theorems.Pmt.Equality
import GnuRadio.Tools.GraphDoc

/-! The document of a graph keeps every entry of its input: in a field of a level or of a block, or as it stands. -/

namespace GnuRadio.GraphDoc

open Fallible
open Yaml (Bytes Value ValueMap)
open Importer (get? map?)

variable {F ρ : Type}

/-! ### What is kept -/

/-- No map has two entries of one key. -/
inductive Distinct : Value F → Prop
  | map {entries : ValueMap F} (nodup : (entries.map Prod.fst).Nodup) (values : ∀ entry ∈ entries, Distinct entry.2) :
    Distinct (.map entries)
  | list {items : List (Value F)} (values : ∀ item ∈ items, Distinct item) : Distinct (.list items)
  | other {value : Value F} (hmap : ∀ entries, value ≠ .map entries) (hlist : ∀ items, value ≠ .list items) : Distinct value

/-- The entry of a key, that fills fields of a record. -/
structure Row (F ρ : Type) where
  key : String
  renders : Value F → Bool
  fills : ρ → Value F → Prop
  /-- What is left below the key. -/
  leaves : Value F → List NamedText := fun _ => []

def Row.entry? (row : Row F ρ) (map : ValueMap F) : Option (Value F) := (get? map row.key).filter row.renders

def Filled (rows : List (Row F ρ)) (map : ValueMap F) (record : ρ) : Prop :=
  ∀ row ∈ rows, ∀ value, row.entry? map = some value → row.fills record value

def unrendered (rows : List (Row F ρ)) (map : ValueMap F) : ValueMap F :=
  map.filter fun entry => !rows.any fun row => row.key.toList = entry.1 && row.renders entry.2

/-- What is left of a map whose path is `pre`. -/
def left (texts : Texts F) (pre : Bytes) (rows : List (Row F ρ)) (map : ValueMap F) : List NamedText :=
  (unrendered rows map).map (listed texts pre) ++ rows.flatMap fun row => (row.entry? map).elim [] row.leaves

def isString : Value F → Bool
  | .string _ => true
  | _ => false

def isMap : Value F → Bool
  | .map _ => true
  | _ => false

def isList : Value F → Bool
  | .list _ => true
  | _ => false

def map! : Value F → ValueMap F
  | .map entries => entries
  | _ => []

def items : Value F → List (Value F)
  | .list items => items
  | _ => []

section
variable (texts : Texts F)

def contextRows : List (Row F NamedText) := [
  { key := "context", renders := fun _ => true
    fills context value := ∃ label, value = .string label ∧ label ++ " @ ".toList <+: context.name },
  { key := "time", renders := fun _ => true
    fills context value := ∃ time, value = .int .uint64 time ∧ " @ ".toList ++ (toString time).toList <:+ context.name },
  { key := "parameters", renders := fun _ => true
    fills context value := ∃ parameters, value = .map parameters ∧ context.value = mapLines texts parameters }]

def contextLeft (context : Value F × Nat) : List NamedText :=
  left texts (indexed "ctx_parameters" context.2 ++ ".".toList) (contextRows texts) (map! context.1)

def schedulerRows : List (Row F Block) := [
  { key := "id", renders := fun _ => true, fills block value := value = .string block.schedulerId },
  { key := "parameters", renders := isMap
    fills block value := ∃ parameters, value = .map parameters ∧
      block.schedulerParameters.Perm (parameters.map (listed texts [])) }]

/-- `kept` is what the level of a nested graph keeps. -/
def blockRows (kept : ValueMap F → Level → Prop) (entry : ValueMap F) : List (Row F Block) :=
  let subgraph : Bool := string? entry "id" = some "SUBGRAPH".toList
  let parameterName := (map? entry "parameters").bind (string? · "name")
  [{ key := "id", renders := fun _ => true, fills block value := value = .string block.type },
    { key := "unique_name", renders := isString, fills block value := value = .string block.uniqueName },
    { key := "parameters", renders := isMap
      fills block value := ∃ parameters, value = .map parameters ∧ block.parameters = mapLines texts parameters ∧
        ∀ name ∈ parameterName, block.name = name },
    { key := "name", renders := fun value => subgraph && parameterName.isNone && isString value
      fills block value := value = .string block.name },
    { key := "block_category", renders := isString, fills block value := value = .string block.category },
    { key := "meta_information", renders := isMap
      fills block value := ∃ entries, value = .map entries ∧ block.metaInformation = mapLines texts entries },
    { key := "ctx_parameters", renders := fun _ => !subgraph
      fills block value := ∃ contexts, value = .list contexts ∧
        List.Forall₂ (fun item context => isMap item ∧ Filled (contextRows texts) (map! item) context) contexts block.contexts
      leaves value := (items value).zipIdx.flatMap (contextLeft texts) },
    { key := "scheduler", renders := fun _ => subgraph
      fills block value := isMap value ∧ Filled (schedulerRows texts) (map! value) block
      leaves value := left texts "scheduler.".toList (schedulerRows texts) (map! value) },
    { key := "graph", renders := fun _ => subgraph
      fills block value := ∃ graph level, value = .map graph ∧ block.interior = some level ∧ kept graph level }]

def BlockKept (kept : ValueMap F → Level → Prop) (entry : ValueMap F) (block : Block) : Prop :=
  Filled (blockRows texts kept entry) entry block ∧
    block.uninterpretedKeys.Perm (left texts [] (blockRows texts kept entry) entry)

/-- The elements of a connection. -/
def ConnectionKept (fields : List (Value F)) (connection : Connection) : Prop :=
  ∃ sourcePort destinationPort rest,
    fields = .string connection.sourceBlock :: sourcePort :: .string connection.destinationBlock :: destinationPort :: rest ∧
    connectionPortText sourcePort = .ok connection.sourcePort ∧
    connectionPortText destinationPort = .ok connection.destinationPort ∧
    ∀ size ∈ rest.head?, connection.minBufferSize = valueText texts size

def connectionLeft (connection : Value F × Nat) : List NamedText :=
  ((items connection.1).zipIdx.drop 5).map fun (value, field) =>
    ⟨indexed "connections" connection.2 ++ ("[" ++ toString field ++ "]").toList, valueText texts value⟩

def levelRows (kept : ValueMap F → Level → Prop) (kind : LevelKind) : List (Row F Level) := [
  { key := "blocks", renders := isList
    fills level value := List.Forall₂ (BlockKept texts kept) (((items value).filter isMap).map map!) level.blocks
    leaves value := ((items value).zipIdx.filter (!isMap ·.1)).map fun (item, index) =>
      ⟨indexed "blocks" index, valueText texts item⟩ },
  { key := "connections", renders := isList
    fills level value :=
      List.Forall₂ (fun item connection => isList item ∧ ConnectionKept texts (items item) connection) (items value)
        level.connections
    leaves value := (items value).zipIdx.flatMap (connectionLeft texts) },
  { key := "exported_ports", renders := fun value => kind = .subgraph && isList value
    fills level value := items value = level.exportedPorts.map fun port =>
      .list [.string port.block, .string port.direction, .string port.internalName, .string port.exportedName] },
  { key := "definition_metadata", renders := isMap
    fills level value := level.metadata.Perm ((map! value).map (listed texts [])) }]

/-- Every entry is in a field of the level or listed. The depth is the number of levels. -/
def LevelKept : Nat → LevelKind → ValueMap F → Level → Prop
  | 0, _, _, _ => False
  | depth + 1, kind, map, level =>
    Filled (levelRows texts (LevelKept depth .subgraph) kind) map level ∧
      level.uninterpretedKeys.Perm (left texts [] (levelRows texts (LevelKept depth .subgraph) kind) map)

end

/-! ### Maps -/

variable {texts : Texts F} {map : ValueMap F} {key : String} {value : Value F} {rows : List (Row F ρ)} {record : ρ}

@[simp]
theorem distinct_map : Distinct (.map map) ↔ (map.map Prod.fst).Nodup ∧ ∀ entry ∈ map, Distinct entry.2 := by
  refine ⟨fun h => ?_, fun h => .map h.1 h.2⟩
  cases h with
  | map hnodup hvalues => exact ⟨hnodup, hvalues⟩
  | other hmap => exact absurd rfl (hmap map)

@[simp]
theorem distinct_list {items : List (Value F)} : Distinct (.list items) ↔ ∀ item ∈ items, Distinct item := by
  refine ⟨fun h => ?_, .list⟩
  cases h with
  | list hitems => exact hitems
  | other _ hlist => exact absurd rfl (hlist items)

@[simp]
theorem distinct_string (text : Bytes) : Distinct (.string text : Value F) := .other nofun nofun

theorem Distinct.nodup (h : Distinct (.map map)) : (map.map Prod.fst).Nodup := (distinct_map.mp h).1

theorem Distinct.get? (h : Distinct (.map map)) (hvalue : get? map key = some value) : Distinct value :=
  (distinct_map.mp h).2 _ (Pmt.mem_of_lookup hvalue)

theorem entry?_eq_some {row : Row F ρ} : row.entry? map = some value ↔ get? map row.key = some value ∧ row.renders value :=
  Option.filter_eq_some_iff

theorem isString_iff : isString value ↔ ∃ s, value = .string s := by
  cases value <;> simp [isString]

theorem isMap_iff : isMap value ↔ ∃ entries, value = .map entries := by
  cases value <;> simp [isMap]

theorem string?_eq_some {text : Bytes} : string? map key = some text ↔ get? map key = some (.string text) := by
  unfold string?
  split <;> simp_all

theorem map?_eq_some {entries : ValueMap F} : map? map key = some entries ↔ get? map key = some (.map entries) := by
  unfold map?
  split <;> simp_all

theorem list?_eq_some {items : List (Value F)} : list? map key = some items ↔ get? map key = some (.list items) := by
  unfold list?
  split <;> simp_all

theorem isSome_string? (h : get? map key = some value) : (string? map key).isSome = isString value := by
  rw [string?, h]
  cases value <;> rfl

theorem isSome_map? (h : get? map key = some value) : (map? map key).isSome = isMap value := by
  rw [map?, h]
  cases value <;> rfl

theorem isSome_list? (h : get? map key = some value) : (list? map key).isSome = isList value := by
  rw [list?, h]
  cases value <;> rfl

theorem getD_list? (h : get? map key = some value) : (list? map key).getD [] = items value := by
  rw [list?, h]
  cases value <;> rfl

theorem elim_list {f : List (Value F) → List NamedText} (hf : f [] = []) :
    ((get? map key).filter isList).elim [] (fun value => f (items value)) = f ((list? map key).getD []) := by
  cases h : get? map key with
  | none => rw [list?, h]; exact hf.symm
  | some value =>
    rw [getD_list? h]
    cases value with
    | list items => rfl
    | _ => exact hf.symm

theorem Distinct.list? (h : Distinct (.map map)) (hvalue : value ∈ (list? map key).getD []) : Distinct value := by
  cases hkey : GraphDoc.list? map key with
  | none =>
    rw [hkey] at hvalue
    cases hvalue
  | some items =>
    rw [hkey] at hvalue
    exact distinct_list.mp (h.get? (list?_eq_some.mp hkey)) _ hvalue

theorem requiredString_eq_ok {text : Bytes} (h : requiredString texts map key = .ok text) :
    get? map key = some (.string text) := by
  unfold requiredString at h
  split at h
  · cases h
  · next text' htext =>
    cases h
    exact htext
  · cases h

theorem sortByName_perm (entries : List NamedText) : (sortByName entries).Perm entries := List.mergeSort_perm entries _

/-- The keys that are read are those that the rows render. -/
theorem unreadKeysOf_eq (read : List (String × Bool)) (rows : List (Row F ρ)) (hnodup : (map.map Prod.fst).Nodup)
    (h : List.Forall₂ (fun r row => r.1 = row.key ∧ ∀ value, get? map row.key = some value → r.2 = row.renders value)
      read rows) :
    unreadKeysOf map ((read.filter (·.2)).map (·.1)) = unrendered rows map := by
  refine List.filter_congr fun entry hentry => congrArg _ ?_
  induction h with
  | nil => rfl
  | @cons r row read rows hr _ ih =>
    rw [List.any_cons, ← ih]
    by_cases hkey : row.key.toList = entry.1
    · have hvalue : get? map row.key = some entry.2 := by
        rw [Importer.get?, hkey]
        exact (Pmt.lookup_eq_some_iff hnodup).mpr hentry
      cases hrenders : row.renders entry.2 <;> simp [hr.2 _ hvalue, hrenders, hkey, hr.1]
    · cases hread : r.2 <;> simp [hread, hkey, hr.1, Ne.symm hkey]

theorem flatMap_of_forall₂ {α β γ : Type} {f : α → List γ} {xs : List α} {ys : List (β × List γ)}
    (h : List.Forall₂ (fun x y => y.2 = f x) xs ys) : ys.flatMap (·.2) = xs.flatMap f := by
  induction h with
  | nil => rfl
  | cons hxy _ ih => rw [List.flatMap_cons, List.flatMap_cons, hxy, ih]

theorem filled_cons {row : Row F ρ} : Filled (row :: rows) map record ↔
    (∀ value, row.entry? map = some value → row.fills record value) ∧ Filled rows map record :=
  List.forall_mem_cons

theorem filled_nil : Filled ([] : List (Row F ρ)) map record := nofun

theorem elim_nil (value : Option (Value F)) : value.elim [] (fun _ => ([] : List NamedText)) = [] := by
  cases value <;> rfl

/-! ### Blocks -/

variable {name type : Bytes}

theorem readContext_kept {context : Value F × Nat} {r : NamedText × List NamedText}
    (h : readContext texts name type context = .ok r) (hcontext : Distinct context.1) :
    (isMap context.1 ∧ Filled (contextRows texts) (map! context.1) r.1) ∧ r.2 = contextLeft texts context := by
  obtain ⟨value, index⟩ := context
  cases value with
  | map entry =>
    simp only [readContext] at h
    split at h
    · next label time parameters hlabel htime hparameters =>
      cases h
      refine ⟨⟨rfl, ?_⟩, ?_⟩
      · simp only [Filled, contextRows, List.forall_mem_cons, entry?_eq_some]
        refine ⟨fun value hvalue => ?_, fun value hvalue => ?_, fun value hvalue => ?_, nofun⟩
        · cases hlabel.symm.trans hvalue.1
          exact ⟨label, rfl, (toString time).toList, by simp⟩
        · cases htime.symm.trans hvalue.1
          exact ⟨time, rfl, label, by simp⟩
        · cases hparameters.symm.trans hvalue.1
          exact ⟨parameters, rfl, rfl⟩
      · have hunread := unreadKeysOf_eq [("context", true), ("time", true), ("parameters", true)] (contextRows texts)
          hcontext.nodup (.cons ⟨rfl, fun _ _ => rfl⟩ (.cons ⟨rfl, fun _ _ => rfl⟩ (.cons ⟨rfl, fun _ _ => rfl⟩ .nil)))
        refine (congrArg _ hunread).trans ?_
        simp only [contextLeft, left, contextRows, List.flatMap_cons, List.flatMap_nil, elim_nil, List.append_nil, map!]
    · cases h
  | _ => cases h

variable {subgraph : Bool}

theorem readContexts_kept {contexts : List (NamedText × List NamedText)}
    (h : readContexts texts subgraph name type map = .ok contexts) (hmap : Distinct (.map map)) :
    (∀ value, (get? map "ctx_parameters").filter (fun _ => !subgraph) = some value → ∃ items, value = .list items ∧
      List.Forall₂ (fun item context => isMap item ∧ Filled (contextRows texts) (map! item) context) items
        (contexts.map Prod.fst)) ∧
      contexts.flatMap Prod.snd = ((get? map "ctx_parameters").filter fun _ => !subgraph).elim [] fun value =>
        (items value).zipIdx.flatMap (contextLeft texts) := by
  unfold readContexts at h
  cases subgraph with
  | true =>
    cases hvalue : get? map "ctx_parameters" <;> rw [hvalue] at h <;> cases h <;> exact ⟨fun _ => nofun, rfl⟩
  | false =>
    cases hvalue : get? map "ctx_parameters" with
    | none =>
      rw [hvalue] at h
      cases h
      exact ⟨fun _ => nofun, rfl⟩
    | some value =>
      rw [hvalue] at h
      cases value with
      | list items =>
        have hread := Pmt.forall₂_of_mem (mapM_eq_ok_iff.mp h) fun context hcontext r _ hr =>
          readContext_kept hr (distinct_list.mp (hmap.get? hvalue) _ (List.fst_mem_of_mem_zipIdx hcontext))
        refine ⟨fun value hvalue => ⟨items, (Option.some.inj hvalue).symm, ?_⟩, ?_⟩
        · rw [List.forall₂_map_right_iff, ← List.zipIdx_map_fst 0 items, List.forall₂_map_left_iff]
          exact hread.imp fun _ _ h => h.1
        · exact flatMap_of_forall₂ (hread.imp fun _ _ h => h.2)
      | _ => cases h

theorem readScheduler_kept {r : Bytes × List NamedText × List NamedText} (block : Block)
    (h : readScheduler texts subgraph map = .ok r) (hmap : Distinct (.map map))
    (hid : block.schedulerId = r.1) (hparameters : block.schedulerParameters = r.2.1) :
    (∀ value, (get? map "scheduler").filter (fun _ => subgraph) = some value →
      isMap value ∧ Filled (schedulerRows texts) (map! value) block) ∧
      r.2.2 = ((get? map "scheduler").filter fun _ => subgraph).elim [] fun value =>
        left texts "scheduler.".toList (schedulerRows texts) (map! value) := by
  unfold readScheduler at h
  cases subgraph with
  | false =>
    cases hvalue : get? map "scheduler" <;> rw [hvalue] at h <;> cases h <;> exact ⟨fun _ => nofun, rfl⟩
  | true =>
    cases hvalue : get? map "scheduler" with
    | none =>
      rw [hvalue] at h
      cases h
      exact ⟨fun _ => nofun, rfl⟩
    | some value =>
      rw [hvalue] at h
      cases value with
      | map scheduler =>
        obtain ⟨schedulerId, hschedulerId, h⟩ := bind_eq_ok h
        have hschedulerId := requiredString_eq_ok hschedulerId
        have hnodup := (hmap.get? hvalue).nodup
        have hunread := unreadKeysOf_eq [("id", true), ("parameters", (map? scheduler "parameters").isSome)]
          (schedulerRows texts) hnodup
          (.cons ⟨rfl, fun _ _ => rfl⟩ (.cons ⟨rfl, fun _ h => isSome_map? h⟩ .nil))
        have hleft : left texts "scheduler.".toList (schedulerRows texts) scheduler =
            (unrendered (schedulerRows texts) scheduler).map (listed texts "scheduler.".toList) := by
          simp only [left, schedulerRows, List.flatMap_cons, List.flatMap_nil, elim_nil, List.append_nil]
        suffices hr : r.1 = schedulerId ∧
            (∀ parameters, map? scheduler "parameters" = some parameters → r.2.1 = sortedEntriesOf texts parameters) ∧
            r.2.2 = (unrendered (schedulerRows texts) scheduler).map (listed texts "scheduler.".toList) by
          refine ⟨?_, hr.2.2.trans hleft.symm⟩
          rintro _ ⟨⟩
          refine ⟨rfl, ?_⟩
          simp only [Filled, schedulerRows, List.forall_mem_cons, entry?_eq_some]
          refine ⟨fun value hvalue => ?_, fun value hvalue => ?_, nofun⟩
          · cases hschedulerId.symm.trans hvalue.1
            rw [hid, hr.1]
          · obtain ⟨parameters, rfl⟩ := isMap_iff.mp hvalue.2
            refine ⟨parameters, rfl, ?_⟩
            rw [hparameters, hr.2.1 parameters (map?_eq_some.mpr hvalue.1)]
            exact sortByName_perm _
        cases hparameters : map? scheduler "parameters" with
        | none =>
          rw [hparameters] at h hunread
          cases h
          exact ⟨rfl, fun _ => nofun, congrArg _ hunread⟩
        | some parameters =>
          rw [hparameters] at h hunread
          cases h
          refine ⟨rfl, ?_, congrArg _ hunread⟩
          rintro _ ⟨⟩
          rfl
      | _ => cases h

theorem readName_kept {r : Bytes × Bool} (h : readName texts subgraph map = .ok r) :
    (∀ name ∈ (map? map "parameters").bind (string? · "name"), r.1 = name) ∧
      ∀ value, get? map "name" = some value →
        r.2 = (subgraph && ((map? map "parameters").bind (string? · "name")).isNone && isString value) ∧
        (r.2 = true → value = .string r.1) := by
  unfold readName at h
  cases subgraph with
  | false =>
    rw [if_neg Bool.false_ne_true] at h
    split at h
    · cases h
    · next parameters hparameters =>
      obtain ⟨name, hname, rfl⟩ := map_eq_ok h
      rw [map?_eq_some.mpr hparameters, Option.bind_some, string?_eq_some.mpr (requiredString_eq_ok hname)]
      exact ⟨fun _ h => Option.some.inj h, fun _ _ => ⟨rfl, nofun⟩⟩
    · cases h
  | true =>
    rw [if_pos rfl] at h
    split at h
    · next name hname =>
      cases h
      rw [hname]
      exact ⟨fun _ h => Option.some.inj h, fun _ _ => ⟨rfl, nofun⟩⟩
    · next name hparameter hname =>
      cases h
      rw [hparameter]
      refine ⟨fun _ => nofun, fun value hvalue => ?_⟩
      cases (string?_eq_some.mp hname).symm.trans hvalue
      exact ⟨rfl, fun _ => rfl⟩
    · next hparameter hname =>
      cases h
      rw [hparameter]
      refine ⟨fun _ => nofun, fun value hvalue => ⟨?_, nofun⟩⟩
      rw [← isSome_string? hvalue, hname]
      rfl

variable {nested : ValueMap F → Except Bytes Level}

theorem readInterior_kept
    {interior : Option Level} (h : readInterior nested subgraph name type map = .ok interior) :
    ∀ value, (get? map "graph").filter (fun _ => subgraph) = some value →
      ∃ graph level, value = .map graph ∧ interior = some level ∧ nested graph = .ok level := by
  intro value hvalue
  obtain ⟨hgraph, rfl⟩ := Option.filter_eq_some_iff.mp hvalue
  unfold readInterior at h
  rw [hgraph] at h
  cases value with
  | map graph =>
    obtain ⟨level, hlevel, rfl⟩ := map_eq_ok h
    exact ⟨graph, level, rfl, rfl, hlevel⟩
  | _ => cases h

theorem readBlock_kept {kept : ValueMap F → Level → Prop} {block : Block}
    (hnested : ∀ graph level, nested graph = .ok level → Distinct (.map graph) → kept graph level)
    (h : readBlock texts nested map = .ok block) (hmap : Distinct (.map map)) : BlockKept texts kept map block := by
  unfold readBlock at h
  obtain ⟨type, htype, h⟩ := bind_eq_ok h
  obtain ⟨name, hname, h⟩ := bind_eq_ok h
  obtain ⟨contexts, hcontexts, h⟩ := bind_eq_ok h
  obtain ⟨scheduler, hscheduler, h⟩ := bind_eq_ok h
  obtain ⟨interior, hinterior, h⟩ := bind_eq_ok h
  have htype' := requiredString_eq_ok htype
  have hsubgraph : decide (string? map "id" = some "SUBGRAPH".toList) = decide (type = "SUBGRAPH".toList) := by
    rw [string?_eq_some.mpr htype']
    exact decide_eq_decide.mpr Option.some_inj
  generalize decide (type = "SUBGRAPH".toList) = subgraph at *
  cases h
  obtain ⟨hparameterName, hnameRead⟩ := readName_kept hname
  obtain ⟨hcontextsFilled, hcontextsLeft⟩ := readContexts_kept hcontexts hmap
  have hschedulerLeft := (readScheduler_kept ⟨type, name.1, [], [], scheduler.1, [], [], [], scheduler.2.1, [], none⟩
    hscheduler hmap rfl rfl).2
  have hunread := unreadKeysOf_eq [("id", true),
      ("unique_name", (string? map "unique_name").isSome), ("parameters", (map? map "parameters").isSome), ("name", name.2),
      ("block_category", (string? map "block_category").isSome), ("meta_information", (map? map "meta_information").isSome),
      ("ctx_parameters", !subgraph), ("scheduler", subgraph), ("graph", subgraph)] (blockRows texts kept map) hmap.nodup (by
    unfold blockRows
    rw [hsubgraph]
    exact .cons ⟨rfl, fun _ _ => rfl⟩ (.cons ⟨rfl, fun _ h => isSome_string? h⟩ (.cons ⟨rfl, fun _ h => isSome_map? h⟩
      (.cons ⟨rfl, fun value h => (hnameRead value h).1⟩ (.cons ⟨rfl, fun _ h => isSome_string? h⟩
      (.cons ⟨rfl, fun _ h => isSome_map? h⟩ (.cons ⟨rfl, fun _ _ => rfl⟩ (.cons ⟨rfl, fun _ _ => rfl⟩
      (.cons ⟨rfl, fun _ _ => rfl⟩ .nil)))))))))
  constructor
  · unfold blockRows
    rw [hsubgraph]
    simp only [filled_cons, entry?_eq_some]
    refine ⟨fun value hvalue => ?id, fun value hvalue => ?unique, fun value hvalue => ?parameters, fun value hvalue => ?name,
      fun value hvalue => ?category, fun value hvalue => ?metaInformation, fun value hvalue => ?contexts,
      fun value hvalue => ?scheduler, fun value hvalue => ?graph, filled_nil⟩
    case id => exact Option.some.inj (hvalue.1.symm.trans htype')
    case unique | category =>
      obtain ⟨text, rfl⟩ := isString_iff.mp hvalue.2
      rw [string?_eq_some.mpr hvalue.1]
      rfl
    case parameters =>
      obtain ⟨parameters, rfl⟩ := isMap_iff.mp hvalue.2
      rw [map?_eq_some.mpr hvalue.1] at hparameterName ⊢
      exact ⟨parameters, rfl, rfl, hparameterName⟩
    case name =>
      obtain ⟨hflag, hfilled⟩ := hnameRead value hvalue.1
      exact hfilled (hflag.trans hvalue.2)
    case metaInformation =>
      obtain ⟨entries, rfl⟩ := isMap_iff.mp hvalue.2
      rw [map?_eq_some.mpr hvalue.1]
      exact ⟨entries, rfl, rfl⟩
    case contexts => exact hcontextsFilled value (Option.filter_eq_some_iff.mpr hvalue)
    case scheduler =>
      exact (readScheduler_kept _ hscheduler hmap rfl rfl).1 value (Option.filter_eq_some_iff.mpr hvalue)
    case graph =>
      obtain ⟨graph, level, rfl, hlevel, hnested'⟩ := readInterior_kept hinterior value (Option.filter_eq_some_iff.mpr hvalue)
      exact ⟨graph, level, rfl, hlevel, hnested graph level hnested' (hmap.get? hvalue.1)⟩
  · refine (sortByName_perm _).trans ?_
    rw [hunread, left]
    refine List.Perm.append_left _ (.of_eq ?_)
    rw [hcontextsLeft, hschedulerLeft]
    unfold blockRows
    rw [hsubgraph]
    simp only [List.flatMap_cons, List.flatMap_nil, elim_nil, List.append_nil, List.nil_append, Row.entry?]

/-! ### Levels -/

theorem connectionBlockText_eq_ok {text : Bytes} (h : connectionBlockText value = .ok text) : value = .string text := by
  unfold connectionBlockText at h
  split at h
  · cases h
    rfl
  · cases h

theorem readConnection_kept {names : BlockNames} {item : Value F × Nat} {r : Connection × List NamedText}
    (h : readConnection texts names item = .ok r) :
    (isList item.1 ∧ ConnectionKept texts (items item.1) r.1) ∧ r.2 = connectionLeft texts item := by
  unfold readConnection at h
  split at h
  · next source sourcePort destination destinationPort rest index =>
    obtain ⟨sourceBlock, hsource, h⟩ := bind_eq_ok h
    obtain ⟨sourcePortText, hsourcePort, h⟩ := bind_eq_ok h
    obtain ⟨destinationBlock, hdestination, h⟩ := bind_eq_ok h
    obtain ⟨destinationPortText, hdestinationPort, h⟩ := bind_eq_ok h
    obtain ⟨-, -, h⟩ := bind_eq_ok h
    obtain ⟨-, -, h⟩ := bind_eq_ok h
    cases h
    cases connectionBlockText_eq_ok hsource
    cases connectionBlockText_eq_ok hdestination
    refine ⟨⟨rfl, sourcePort, destinationPort, rest, rfl, hsourcePort, hdestinationPort, fun size hsize => ?_⟩, rfl⟩
    rw [hsize]
    rfl
  · cases h
  · cases h

theorem readExportedPort_kept {names : BlockNames} {item : Value F × Nat} {port : ExportedPort}
    (h : readExportedPort names item = .ok port) :
    item.1 = .list [.string port.block, .string port.direction, .string port.internalName, .string port.exportedName] := by
  unfold readExportedPort at h
  split at h
  · obtain ⟨-, -, h⟩ := bind_eq_ok h
    cases h
    rfl
  all_goals cases h

theorem readEntries_kept (kept : ValueMap F → Level → Prop)
    {list : List (Value F × Nat)} {entries : List (Block ⊕ NamedText)}
    (hnested : ∀ graph level, nested graph = .ok level → Distinct (.map graph) → kept graph level)
    (h : List.Forall₂ (fun item entry => readEntry texts nested item = .ok entry) list entries)
    (hlist : ∀ item ∈ list, Distinct item.1) :
    List.Forall₂ (BlockKept texts kept) (((list.map Prod.fst).filter isMap).map map!) (entries.filterMap Sum.getLeft?) ∧
      entries.filterMap Sum.getRight? = (list.filter (!isMap ·.1)).map fun (item, index) =>
        ⟨indexed "blocks" index, valueText texts item⟩ := by
  induction h with
  | nil => exact ⟨.nil, rfl⟩
  | @cons item entry list entries hitem _ ih =>
    obtain ⟨hblocks, hleft⟩ := ih fun item hitem => hlist item (.tail _ hitem)
    obtain ⟨value, index⟩ := item
    cases value with
    | map map =>
      obtain ⟨block, hblock, rfl⟩ := map_eq_ok hitem
      exact ⟨.cons (readBlock_kept hnested hblock (hlist _ (.head _))) hblocks, hleft⟩
    | _ =>
      cases hitem
      exact ⟨hblocks, congrArg (List.cons _) hleft⟩

theorem readLevel_kept {depth : Nat} {kind : LevelKind} {level : Level} (h : readLevel texts depth kind map = .ok level)
    (hmap : Distinct (.map map)) : LevelKept texts depth kind map level := by
  induction depth generalizing kind map level with
  | zero => cases h
  | succ depth ih =>
    unfold readLevel at h
    obtain ⟨entries, hentries, h⟩ := bind_eq_ok h
    obtain ⟨connections, hconnections, h⟩ := bind_eq_ok h
    obtain ⟨ports, hports, h⟩ := bind_eq_ok h
    cases h
    have hread := unreadKeysOf_eq
      [("blocks", (list? map "blocks").isSome), ("connections", (list? map "connections").isSome),
        ("exported_ports", (if kind = .subgraph then list? map "exported_ports" else none).isSome),
        ("definition_metadata", (map? map "definition_metadata").isSome)]
      (levelRows texts (LevelKept texts depth .subgraph) kind) hmap.nodup
      (.cons ⟨rfl, fun _ h => isSome_list? h⟩ (.cons ⟨rfl, fun _ h => isSome_list? h⟩ (.cons ⟨rfl, fun _ h => by
        cases kind with
        | root => rfl
        | subgraph => exact isSome_list? h⟩ (.cons ⟨rfl, fun _ h => isSome_map? h⟩ .nil))))
    obtain ⟨hblocks, hblocksLeft⟩ := readEntries_kept (LevelKept texts depth .subgraph) (fun _ _ h hgraph => ih h hgraph)
      (mapM_eq_ok_iff.mp hentries) fun item hitem => hmap.list? (List.fst_mem_of_mem_zipIdx hitem)
    rw [List.zipIdx_map_fst] at hblocks
    have hconnections' := (mapM_eq_ok_iff.mp hconnections).imp fun _ _ h => readConnection_kept h
    have hports' := (mapM_eq_ok_iff.mp hports).imp fun _ _ h => readExportedPort_kept h
    constructor
    · simp only [levelRows, filled_cons, entry?_eq_some]
      refine ⟨fun value hvalue => ?blocks, fun value hvalue => ?connections, fun value hvalue => ?ports,
        fun value hvalue => ?metadata, filled_nil⟩
      case blocks => rwa [getD_list? hvalue.1] at hblocks
      case connections =>
        rw [List.forall₂_map_right_iff, ← List.zipIdx_map_fst 0 (items value), List.forall₂_map_left_iff, ← getD_list? hvalue.1]
        exact hconnections'.imp fun _ _ h => h.1
      case ports =>
        obtain ⟨hkind, -⟩ := Bool.and_eq_true_iff.mp hvalue.2
        rw [if_pos (of_decide_eq_true hkind), getD_list? hvalue.1] at hports'
        rw [← List.forall₂_eq_eq_eq, List.forall₂_map_right_iff, ← List.zipIdx_map_fst 0 (items value),
          List.forall₂_map_left_iff]
        exact hports'
      case metadata =>
        obtain ⟨entries, rfl⟩ := isMap_iff.mp hvalue.2
        rw [map?_eq_some.mpr hvalue.1]
        exact sortByName_perm _
    · refine (sortByName_perm _).trans ?_
      rw [hread, left]
      refine List.Perm.append_left _ (.of_eq ?_)
      simp only [levelRows, List.flatMap_cons, List.flatMap_nil, elim_nil, List.append_nil, Row.entry?]
      rw [hblocksLeft, flatMap_of_forall₂ (hconnections'.imp fun _ _ h => h.2)]
      exact congrArg₂ _ (elim_list (f := fun items => (items.zipIdx.filter (!isMap ·.1)).map fun (item, index) =>
        ⟨indexed "blocks" index, valueText texts item⟩) rfl).symm
        (elim_list (f := fun items => items.zipIdx.flatMap (connectionLeft texts)) rfl).symm

/-- A subgraph, connected with a block. -/
def connectedSubgraph : ValueMap Unit := [
  ("blocks".toList, .list [
    .map [("id".toList, .string "SUBGRAPH".toList), ("name".toList, .string "s".toList),
      ("graph".toList, .map [("comment".toList, .map [])])],
    .map [("id".toList, .string "sink".toList), ("parameters".toList, .map [("name".toList, .string "a".toList)])]]),
  ("connections".toList, .list [.list [.string "s".toList, .string "out".toList, .string "a".toList, .string "in".toList]]),
  ("exported_ports".toList, .map [])]

theorem readLevel_kept_connected : ∃ level,
    readLevel ⟨fun _ => [], fun _ => [], "std::string"⟩ 2 .root connectedSubgraph = .ok level ∧
    LevelKept ⟨fun _ => [], fun _ => [], "std::string"⟩ 2 .root connectedSubgraph level := by
  have h : ∃ level, readLevel ⟨fun _ => [], fun _ => [], "std::string"⟩ 2 .root connectedSubgraph = .ok level := ⟨_, rfl⟩
  obtain ⟨level, h⟩ := h
  exact ⟨level, h, readLevel_kept h (by simp [connectedSubgraph])⟩

end GnuRadio.GraphDoc
