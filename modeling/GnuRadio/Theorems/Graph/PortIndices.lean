import GnuRadio.Graph.FeedbackLoops

/-! What a `PortDefinition` names, in the two ways the code reads it: `dynamicInputPort()` finds the port, and
    `absolutePortIndex()` counts the ports before it, to which `primePort()` then counts among the stream ports alone. -/

namespace GnuRadio.Graph

open DynamicPorts (baseNameAndOffset)

variable {π : Type} {ports : DynamicPorts π} {definition : PortDefinition} {entry : PortOrCollection π} {p : π} {i k n : Nat}

/-! ### Lists -/

theorem getElem?_filter_take {l : List π} {f : π → Bool} (hk : l[k]? = some p) (hp : f p = true) :
    (l.filter f)[((l.take k).filter f).length]? = some p := by
  have hsplit : l.filter f = (l.take k).filter f ++ (l.drop k).filter f := by
    rw [← List.filter_append, List.take_append_drop]
  have hdrop : l.drop k = p :: l.drop (k + 1) := by
    obtain ⟨hlt, rfl⟩ := List.getElem?_eq_some_iff.mp hk
    exact List.drop_eq_getElem_cons hlt
  rw [hsplit, List.getElem?_append_right (Nat.le_refl _), Nat.sub_self, hdrop, List.filter_cons_of_pos hp]
  rfl

/-- An element keeps its place in a filtered list exactly when all before it are kept. -/
theorem getElem?_filter_eq_some_iff {l : List π} {f : π → Bool} (hn : l.Nodup) (hk : l[k]? = some p) (hp : f p = true) :
    (l.filter f)[k]? = some p ↔ ∀ q ∈ l.take k, f q = true := by
  obtain ⟨hlt, -⟩ := List.getElem?_eq_some_iff.mp hk
  have htake : (l.take k).length = k := List.length_take_of_le (Nat.le_of_lt hlt)
  have hplace := getElem?_filter_take hk hp
  rw [← List.length_filter_eq_length_iff, htake]
  constructor
  · intro hsame
    obtain ⟨hlt, hget⟩ := List.getElem?_eq_some_iff.mp hsame
    obtain ⟨hlt', hget'⟩ := List.getElem?_eq_some_iff.mp hplace
    exact ((hn.filter f).getElem_inj_iff.mp (hget'.trans hget.symm))
  · intro hall
    rwa [hall] at hplace

/-! ### What the entries hold -/

theorem countPortsPrior_eq (hi : ports[i]? = some entry) :
    ports.countPortsPrior i = some (DynamicPorts.all (ports.take i)).length := by
  obtain ⟨hlt, -⟩ := List.getElem?_eq_some_iff.mp hi
  exact if_pos hlt

/-- A port's place among all of them: those of the entries before its own, and its place there. -/
theorem getElem?_all (hi : ports[i]? = some entry) (hp : entry.ports[n]? = some p) :
    ports.all[(DynamicPorts.all (ports.take i)).length + n]? = some p := by
  obtain ⟨hlt, hget⟩ := List.getElem?_eq_some_iff.mp hi
  have hsplit : ports.all = DynamicPorts.all (ports.take i) ++ (entry.ports ++ DynamicPorts.all (ports.drop (i + 1))) := by
    conv_lhs => rw [← List.take_append_drop i ports, List.drop_eq_getElem_cons hlt, hget]
    simp [DynamicPorts.all]
  obtain ⟨hlt, -⟩ := List.getElem?_eq_some_iff.mp hp
  rw [hsplit, List.getElem?_append_right (Nat.le_add_right _ _), Nat.add_sub_cancel_left,
    List.getElem?_append_left hlt, hp]

theorem holds_iff (hcollection : entry.isPort = false) : entry.holds n ↔ n < entry.ports.length := by
  cases entry with
  | port => cases hcollection
  | collection name ps => simp [PortOrCollection.holds, PortOrCollection.size, PortOrCollection.ports]

theorem splitAtHash_of_none {text : String} (h : (splitAtHash text).2 = none) : (splitAtHash text).1 = text := by
  have hdrop : text.toList.dropWhile (· ≠ '#') = [] := by
    cases hdrop : text.toList.dropWhile (· ≠ '#') with
    | nil => rfl
    | cons c rest =>
      rw [splitAtHash, hdrop] at h
      cases h
  have htake : text.toList.takeWhile (· ≠ '#') = text.toList := by
    conv_rhs => rw [← List.takeWhile_append_dropWhile (p := (· ≠ '#')) (l := text.toList), hdrop, List.append_nil]
  simp only [splitAtHash, htake, String.ofList_toList]

section Names
variable (hn : (ports.map PortOrCollection.portName).Nodup)
include hn

theorem eq_of_portName {other : PortOrCollection π} (he : entry ∈ ports) (ho : other ∈ ports)
    (hname : entry.portName = other.portName) : entry = other :=
  List.inj_on_of_nodup_map hn he ho hname

theorem findSome?_eq_some_iff {α : Type} {f : PortOrCollection π → Option α} (name : String) {x : α}
    (hf : ∀ e y, f e = some y → e.portName = name) : ports.findSome? f = some x ↔ ∃ e ∈ ports, f e = some x := by
  constructor
  · exact List.exists_of_findSome?_eq_some
  · rintro ⟨e, he, hx⟩
    obtain ⟨y, hy⟩ := Option.isSome_iff_exists.mp
      (List.findSome?_isSome_iff.mpr ⟨e, he, Option.isSome_iff_exists.mpr ⟨x, hx⟩⟩)
    obtain ⟨e', he', hy'⟩ := List.exists_of_findSome?_eq_some hy
    obtain rfl := eq_of_portName hn he he' ((hf _ _ hx).trans (hf _ _ hy').symm)
    rw [hy, ← hy', hx]

theorem indexOf_eq (hi : ports[i]? = some entry) : ports.indexOf entry.portName = some i := by
  obtain ⟨hlt, hget⟩ := List.getElem?_eq_some_iff.mp hi
  refine List.findIdx?_eq_some_iff_getElem.mpr ⟨hlt, by simp [hget], ?_⟩
  intro j hj
  have hjlt : j < ports.length := Nat.lt_trans hj hlt
  simp only [decide_eq_true_eq]
  intro hsame
  have hnames : (ports.map PortOrCollection.portName)[j]? = (ports.map PortOrCollection.portName)[i]? := by
    simp [hjlt, hsame, hi]
  exact Nat.ne_of_lt hj ((List.getElem?_inj (by rwa [List.length_map]) hn).mp hnames)

/-- `dynamicInputPort()` finds what the definition names. -/
theorem resolve_eq_some_iff : ports.resolve definition = some p ↔ Names ports definition p := by
  cases definition with
  | index topLevel subIndex =>
    simp only [DynamicPorts.resolve, DynamicPorts.byIndex]
    cases subIndex with
    | none | some sub =>
      cases hentry : ports[topLevel]? with
      | none => simp [Names, hentry]
      | some entry => cases entry <;> simp [Names, hentry]
  | name text =>
    simp only [DynamicPorts.resolve, DynamicPorts.fromName, Names]
    rcases hsplit : splitAtHash text with ⟨base, _ | tail⟩
    · dsimp only
      rw [findSome?_eq_some_iff hn text]
      · constructor
        · rintro ⟨e, he, hp⟩
          cases e with
          | port portName q =>
            obtain ⟨rfl, hq⟩ := Option.ite_none_right_eq_some.mp hp
            cases hq
            exact .inl ⟨rfl, he⟩
          | collection => cases hp
        · rintro (⟨-, he⟩ | ⟨_, _, _, htail, -⟩)
          · exact ⟨_, he, if_pos rfl⟩
          · cases htail
      · intro e q hq
        cases e with
        | port portName q' => exact (Option.ite_none_right_eq_some.mp hq).1
        | collection => cases hq
    · simp only [Option.bind_eq_bind, Option.bind_eq_some_iff, indexBehindHash, Option.map_eq_some_iff]
      constructor
      · rintro ⟨⟨index, rest⟩, hindex, members, hfind, hget⟩
        obtain ⟨e, he, hps⟩ := List.exists_of_findSome?_eq_some hfind
        cases e with
        | port => cases hps
        | collection name ps =>
          obtain ⟨hname, hmembers⟩ := Option.ite_none_right_eq_some.mp hps
          cases hname
          cases hmembers
          exact .inr ⟨tail, index, _, rfl, ⟨_, hindex, rfl⟩, he, hget⟩
      · rintro (⟨htail, -⟩ | ⟨_, _, ps, htail, ⟨⟨index, rest⟩, hindex, rfl⟩, he, hget⟩)
        · cases htail
        · cases htail
          refine ⟨_, hindex, ps, ?_, hget⟩
          rw [findSome?_eq_some_iff hn base]
          · exact ⟨_, he, if_pos rfl⟩
          · intro e ps' hps
            cases e with
            | port => cases hps
            | collection name => exact (Option.ite_none_right_eq_some.mp hps).1

/-! ### Where the index leads -/

theorem absolutePortIndex_of_names (hone : Unambiguous ports definition) (hp : Names ports definition p) :
    ∃ k, ports.absolutePortIndex definition = some k ∧ ports.all[k]? = some p := by
  cases definition with
  | index topLevel subIndex =>
    cases subIndex with
    | none =>
      obtain ⟨name, hentry⟩ := hp
      have hplace := getElem?_all (n := 0) hentry rfl
      refine ⟨_, ?_, hplace⟩
      cases topLevel with
      | zero => rfl
      | succ topLevel => exact countPortsPrior_eq hentry
    | some sub =>
      obtain ⟨name, ps, hentry, hp⟩ := hp
      have hplace := getElem?_all hentry hp
      refine ⟨_, ?_, hplace⟩
      have hlt : sub < ps.length := (List.getElem?_eq_some_iff.mp hp).1
      have hholds : PortOrCollection.holds (.collection name ps) sub = true := (holds_iff rfl).mpr hlt
      simp [DynamicPorts.absolutePortIndex, hentry, hholds, countPortsPrior_eq hentry]
  | name text =>
    have hresolve : ports.fromName text = some p := (resolve_eq_some_iff hn).mpr hp
    rcases hp with ⟨hnone, hmem⟩ | ⟨tail, index, ps, htail, hindex, hmem, hp⟩
    · obtain ⟨i, hi⟩ := List.getElem?_of_mem hmem
      have hplace := getElem?_all (n := 0) hi rfl
      have hbase : baseNameAndOffset text = (text, some 0) := by
        rw [baseNameAndOffset, ← Prod.eta (splitAtHash text), hnone, splitAtHash_of_none hnone]
      have hindex : ports.indexOf text = some i := indexOf_eq hn hi
      refine ⟨_, ?_, hplace⟩
      simp [DynamicPorts.absolutePortIndex, hresolve, hbase, hindex, hi, PortOrCollection.holds,
        PortOrCollection.size, countPortsPrior_eq hi]
    · obtain ⟨i, hi⟩ := List.getElem?_of_mem hmem
      have hplace := getElem?_all hi hp
      have hlt : index < ps.length := (List.getElem?_eq_some_iff.mp hp).1
      obtain ⟨⟨number, rest⟩, hchars, rfl⟩ := Option.map_eq_some_iff.mp hindex
      obtain rfl := hone tail _ rest ps htail hchars hmem hlt
      have hbase : baseNameAndOffset text = ((splitAtHash text).1, some number) := by
        rw [baseNameAndOffset, ← Prod.eta (splitAtHash text), htail]
        simp [hchars]
      have hindex : ports.indexOf (splitAtHash text).1 = some i := indexOf_eq hn hi
      have hholds : PortOrCollection.holds (.collection (splitAtHash text).1 ps) number = true := (holds_iff rfl).mpr hlt
      refine ⟨_, ?_, hplace⟩
      simp [DynamicPorts.absolutePortIndex, hresolve, hbase, hindex, hi, hholds, countPortsPrior_eq hi]

/-- Read in one way, a definition that names nothing has no index. -/
theorem absolutePortIndex_eq_none (hone : Unambiguous ports definition) (hp : ∀ p, ¬ Names ports definition p) :
    ports.absolutePortIndex definition = none := by
  cases definition with
  | index topLevel subIndex =>
    cases subIndex with
    | none =>
      have hout : ¬ (topLevel = 0 ∨ topLevel < ports.length) := by
        intro hin
        obtain ⟨entry, hentry, hsingle⟩ := (Option.any_eq_true ..).mp (hone hin)
        cases entry with
        | port name p => exact hp p ⟨name, hentry⟩
        | collection => cases hsingle
      obtain ⟨hzero, hlt⟩ := not_or.mp hout
      simp [DynamicPorts.absolutePortIndex, DynamicPorts.countPortsPrior, hzero, hlt]
    | some sub =>
      cases hentry : ports[topLevel]? with
      | none => simp [DynamicPorts.absolutePortIndex, hentry]
      | some entry =>
        cases entry with
        | port name p => exact absurd (by simp [hentry, PortOrCollection.isPort]) hone
        | collection name ps =>
          have hout : PortOrCollection.holds (.collection name ps) sub = false := by
            rw [← Bool.not_eq_true, holds_iff rfl]
            intro hlt
            exact hp _ ⟨name, ps, hentry, List.getElem?_eq_getElem hlt⟩
          simp [DynamicPorts.absolutePortIndex, hentry, hout]
  | name text =>
    have hresolve : ports.fromName text = none := by
      rw [← Option.not_isSome_iff_eq_none, Option.isSome_iff_exists]
      rintro ⟨p, hresolve⟩
      have hnames : Names ports (.name text) p := (resolve_eq_some_iff hn).mp hresolve
      exact hp p hnames
    simp [DynamicPorts.absolutePortIndex, hresolve]

/-- A definition read in two ways has an index and names nothing, or names a port and has no index. -/
theorem not_resolves_of_ambiguous (hone : ¬ Unambiguous ports definition) :
    ¬ ((ports.resolve definition).isSome ↔ (ports.absolutePortIndex definition).isSome) := by
  cases definition with
  | index topLevel subIndex =>
    cases subIndex with
    | none =>
      obtain ⟨hin, hsingle⟩ := Classical.not_imp.mp hone
      have hresolve : ports.resolve (.index topLevel none) = none := by
        simp only [DynamicPorts.resolve, DynamicPorts.byIndex]
        cases hentry : ports[topLevel]? with
        | none => rfl
        | some entry =>
          cases entry with
          | port => exact absurd (by simp [hentry, PortOrCollection.isPort]) hsingle
          | collection => rfl
      have hindex : (ports.absolutePortIndex (.index topLevel none)).isSome := by
        rcases hin with rfl | hlt
        · rfl
        · simp only [DynamicPorts.absolutePortIndex, DynamicPorts.countPortsPrior, if_pos hlt]
          split <;> rfl
      simp [hresolve, hindex]
    | some sub =>
      obtain ⟨entry, hentry, hsingle⟩ := (Option.any_eq_true ..).mp (Classical.not_not.mp hone)
      cases entry with
      | collection => cases hsingle
      | port name p =>
        simp [DynamicPorts.resolve, DynamicPorts.byIndex, DynamicPorts.absolutePortIndex, hentry,
          PortOrCollection.holds, PortOrCollection.size, countPortsPrior_eq hentry]
  | name text =>
    simp only [Unambiguous, not_forall] at hone
    obtain ⟨tail, index, rest, ps, htail, hchars, hmem, hlt, hrest⟩ := hone
    have hnames : Names ports (.name text) _ :=
      .inr ⟨tail, index, ps, htail, by rw [indexBehindHash, hchars]; rfl, hmem, List.getElem?_eq_getElem hlt⟩
    have hresolve := (resolve_eq_some_iff hn).mpr hnames
    have hbase : (baseNameAndOffset text).2 = none := by
      rw [baseNameAndOffset, ← Prod.eta (splitAtHash text), htail]
      simp [hchars, hrest]
    have hindex : ports.absolutePortIndex (.name text) = none := by
      simp [DynamicPorts.absolutePortIndex, hbase]
    simp [hresolve, hindex]

end Names

/-- Exactly these definitions resolve to one port in both readings. -/
theorem resolvesToOne_iff [DecidableEq π] (isStream : π → Bool) (table : PortTable π) (definition : PortDefinition) :
    ResolvesToOne isStream table.entries definition ↔
      Unambiguous table.entries definition ∧
      ∀ p, Names table.entries definition p → CountsAlike isStream table.entries p := by
  have hn := table.names_nodup
  by_cases hone : Unambiguous table.entries definition
  case neg => exact iff_of_false (fun h => not_resolves_of_ambiguous hn hone h.1) fun h => hone h.1
  case pos =>
    simp only [ResolvesToOne, hone, true_and]
    by_cases hnames : ∃ p, Names table.entries definition p
    · obtain ⟨p, hp⟩ := hnames
      obtain ⟨k, hk, hplace⟩ := absolutePortIndex_of_names hn hone hp
      have hresolve := (resolve_eq_some_iff hn).mpr hp
      have hidx : table.entries.all.idxOf p = k := by
        obtain ⟨hlt, rfl⟩ := List.getElem?_eq_some_iff.mp hplace
        exact table.ports_nodup.idxOf_getElem k hlt
      have hlength : (portsBefore table.entries p).length = k := by
        rw [portsBefore, hidx]
        exact List.length_take_of_le (Nat.le_of_lt (List.getElem?_eq_some_iff.mp hplace).1)
      have hcount : primedPort isStream table.entries k = (if isStream p then some p else none) ↔
          CountsAlike isStream table.entries p := by
        rw [CountsAlike]
        cases hstream : isStream p with
        | true =>
          simp only [if_true, primedPort, streamPorts, portsBefore, hidx]
          exact getElem?_filter_eq_some_iff table.ports_nodup hplace hstream
        | false =>
          simp only [Bool.false_eq_true, if_false, primedPort, hlength]
          exact List.getElem?_eq_none_iff
      constructor
      · rintro ⟨-, hprimed⟩ q hq
        obtain rfl : p = q := Option.some.inj (hresolve.symm.trans ((resolve_eq_some_iff hn).mpr hq))
        exact hcount.mp (hprimed p k hresolve hk)
      · intro hcounts
        refine ⟨by simp [hresolve, hk], ?_⟩
        intro q i hq hi
        obtain rfl : p = q := Option.some.inj (hresolve.symm.trans hq)
        obtain rfl : k = i := Option.some.inj (hk.symm.trans hi)
        exact hcount.mpr (hcounts p hp)
    · have hnone := not_exists.mp hnames
      have hindex := absolutePortIndex_eq_none hn hone hnone
      have hresolve : table.entries.resolve definition = none := by
        rw [← Option.not_isSome_iff_eq_none, Option.isSome_iff_exists]
        rintro ⟨p, hp⟩
        exact hnone p ((resolve_eq_some_iff hn).mp hp)
      simp [hindex, hresolve, hnone]

/-- A message port declared before two stream ports. -/
def controlled : PortTable (Bool × Nat) where
  entries := [.port "control" (false, 0), .port "in" (true, 1), .port "gain" (true, 2)]
  names_nodup := by decide
  ports_nodup := by decide

/-- The first stream port is named, and the other one is primed. -/
theorem primes_other : ¬ ∀ (table : PortTable (Bool × Nat)) (definition : PortDefinition),
    ResolvesToOne Prod.fst table.entries definition := fun h =>
  absurd ((h controlled (.index 1 none)).2 (true, 1) 1 rfl rfl) (by decide)

end GnuRadio.Graph
