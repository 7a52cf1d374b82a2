import GnuRadio.Graph.ExportedPorts
import Mathlib.Data.List.Perm.Basic

/-! The three containers of the exported ports agree as long as no un-export finds another port of the same exported name
    first, and no block is removed while it exports a port. -/

namespace GnuRadio.ExportedPorts

open Function

variable {π : Type} {w : GraphWrapper π}

/-! ### Lists -/

section Lists

variable {α β γ : Type} {l : List α} {m : List β} {p : α → Bool} {q : β → Bool} {f : α → γ} {g : β → γ} {a : α} {b : β}

/-- The place of the first of a kind, where it is erased and where it is replaced. -/
theorem exists_split (h : l.find? p = some a) :
    p a = true ∧ ∃ before after, l = before ++ a :: after ∧ l.eraseP p = before ++ after ∧
      ∀ b, l.set (l.findIdx p) b = before ++ b :: after := by
  obtain ⟨hp, before, after, rfl, hbefore⟩ := List.find?_eq_some_iff_append.mp h
  have hnot : ∀ b ∈ before, ¬ p b = true := fun b hb hpb => by simpa [hpb] using hbefore b hb
  refine ⟨hp, before, after, rfl, ?_, fun b => ?_⟩
  · rw [List.eraseP_append_right _ hnot, List.eraseP_cons_of_pos hp]
  · have hidx : (before ++ a :: after).findIdx p = before.length := by
      rw [List.findIdx_append, List.findIdx_eq_length_of_false fun b hb => eq_false_of_ne_true (hnot b hb),
        if_neg (Nat.lt_irrefl _), List.findIdx_cons, hp, cond_true, Nat.zero_add]
    rw [hidx, List.set_append_right _ _ (Nat.le_refl _), Nat.sub_self, List.set_cons_zero]

theorem perm_cons_eraseP (h : l.find? p = some a) : l.Perm (a :: l.eraseP p) := by
  obtain ⟨-, before, after, hl, herase, -⟩ := exists_split h
  rw [herase, hl]
  exact List.perm_middle

theorem perm_eraseP_iff (h : (l.map f).Perm (m.map g)) (ha : l.find? p = some a) (hb : m.find? q = some b) :
    ((l.eraseP p).map f).Perm ((m.eraseP q).map g) ↔ f a = g b := by
  have hl : (l.map f).Perm (f a :: (l.eraseP p).map f) := (perm_cons_eraseP ha).map f
  have hm : (m.map g).Perm (g b :: (m.eraseP q).map g) := (perm_cons_eraseP hb).map g
  have hboth := (hl.symm.trans h).trans hm
  constructor
  · intro herase
    have htail : ([f a] ++ (l.eraseP p).map f).Perm ([g b] ++ (l.eraseP p).map f) := hboth.trans (herase.symm.cons (g b))
    exact List.singleton_perm_singleton.mp ((List.perm_append_right_iff _).mp htail)
  · intro heq
    rw [heq] at hboth
    exact hboth.cons_inv

end Lists

/-! ### The containers agree -/

def PortNameMapper.toExportedPort (direction : PortDirection) (entry : PortNameMapper) : ExportedPort :=
  ⟨entry.blockName, direction, entry.internalName⟩

/-- The name of a wrapper's port, and the port that it wraps or that the graph has for it. -/
def DynamicPort.toPair (port : DynamicPort π) : String × Except Error π := (port.name, .ok port.port)

def GraphWrapper.target (w : GraphWrapper π) (direction : PortDirection) (entry : PortNameMapper) :
    String × Except Error π :=
  (entry.exportedName, w.findPortInBlock entry.blockName direction entry.internalName)

/-- Each exported port has one entry in the multimap and one in `_exportedPorts`, and one port of the wrapper, which has
    its exported name and wraps that port of a block in the graph. -/
structure Consistent (w : GraphWrapper π) : Prop where
  distinct : ∀ d, ((w.exportedPortsForBlock d).map (PortNameMapper.toExportedPort d)).Nodup
  recorded : ∀ d, (w.exportedPorts.filter (·.direction = d)).Perm
    ((w.exportedPortsForBlock d).map (PortNameMapper.toExportedPort d))
  wrapped : ∀ d, ((w.dynamicPorts d).map DynamicPort.toPair).Perm ((w.exportedPortsForBlock d).map (w.target d))

/-- No two blocks of the graph have one unique name. -/
def Named (w : GraphWrapper π) : Prop := (w.blocks.map Block.uniqueName).Nodup

variable {d : PortDirection} {blockName portName exportedName : String} {entry : PortNameMapper} {port : π}

namespace Consistent

/-- The port of an entry is a port of a block in the graph. -/
theorem target_ok (h : Consistent w) (he : entry ∈ w.exportedPortsForBlock d) :
    ∃ port, w.findPortInBlock entry.blockName d entry.internalName = .ok port ∧
      ⟨entry.exportedName, port⟩ ∈ w.dynamicPorts d := by
  have hmem : w.target d entry ∈ (w.dynamicPorts d).map DynamicPort.toPair :=
    (h.wrapped d).mem_iff.mpr (List.mem_map_of_mem he)
  obtain ⟨⟨name, port⟩, hport, heq⟩ := List.mem_map.mp hmem
  obtain ⟨hname, hfind⟩ := Prod.mk.inj heq
  cases hname
  exact ⟨port, hfind.symm, hport⟩

theorem mem_exportedPorts (h : Consistent w) (he : entry ∈ w.exportedPortsForBlock d) :
    entry.toExportedPort d ∈ w.exportedPorts :=
  (List.mem_filter.mp ((h.recorded d).mem_iff.mpr (List.mem_map_of_mem he))).1

theorem exists_entry (h : Consistent w) {e : ExportedPort} (he : e ∈ w.exportedPorts) :
    ∃ entry ∈ w.exportedPortsForBlock e.direction, entry.toExportedPort e.direction = e :=
  List.mem_map.mp ((h.recorded e.direction).mem_iff.mp (List.mem_filter.mpr ⟨he, decide_eq_true rfl⟩))

/-- The containers agree on other blocks in which every exported port is where it was. -/
theorem withBlocks (h : Consistent w) {blocks : List (Block π)}
    (hsame : ∀ d, ∀ entry ∈ w.exportedPortsForBlock d, ({ w with blocks } : GraphWrapper π).findBlock entry.blockName =
      w.findBlock entry.blockName) :
    Consistent { w with blocks } := by
  refine ⟨h.distinct, h.recorded, fun d => ?_⟩
  have htarget : (w.exportedPortsForBlock d).map (({ w with blocks } : GraphWrapper π).target d) =
      (w.exportedPortsForBlock d).map (w.target d) := by
    refine List.map_congr_left fun entry he => ?_
    simp only [GraphWrapper.target, GraphWrapper.findPortInBlock, hsame d entry he]
  exact htarget.symm ▸ h.wrapped d

end Consistent

namespace GraphWrapper

theorem isFor_iff : isFor blockName portName entry = true ↔ entry.toExportedPort d = ⟨blockName, d, portName⟩ := by
  simp only [isFor, PortNameMapper.toExportedPort, Bool.and_eq_true, beq_iff_eq, ExportedPort.mk.injEq, true_and]

theorem mem_of_findExportedPortInfo (h : w.findExportedPortInfo blockName d portName = some entry) :
    entry ∈ w.exportedPortsForBlock d ∧ entry.blockName = blockName ∧ entry.internalName = portName := by
  have hfor := List.find?_some h
  simp only [isFor, Bool.and_eq_true, beq_iff_eq] at hfor
  exact ⟨List.mem_of_find?_eq_some h, hfor⟩

end GraphWrapper

open GraphWrapper

namespace Consistent

/-! ### Export and un-export -/

theorem emplace (h : Consistent w) (hnone : w.findExportedPortInfo blockName d portName = none)
    (hport : w.findPortInBlock blockName d portName = .ok port) :
    Consistent (w.emplace blockName d portName exportedName port) := by
  have hnew : (⟨blockName, d, portName⟩ : ExportedPort) ∉ (w.exportedPortsForBlock d).map (PortNameMapper.toExportedPort d) := by
    intro hmem
    obtain ⟨entry, he, heq⟩ := List.mem_map.mp hmem
    exact List.find?_eq_none.mp hnone entry he (isFor_iff.mpr heq)
  refine ⟨fun d' => ?_, fun d' => ?_, fun d' => ?_⟩ <;> rcases eq_or_ne d' d with rfl | hd
  · simp only [GraphWrapper.emplace, setExportedPortsForBlock, setDynamicPorts, update_self, List.map_append,
      List.map_singleton]
    exact (List.perm_append_singleton _ _).nodup_iff.mpr (List.nodup_cons.mpr ⟨hnew, h.distinct d'⟩)
  · simp only [GraphWrapper.emplace, setExportedPortsForBlock, setDynamicPorts, update_of_ne hd]
    exact h.distinct d'
  · simp only [GraphWrapper.emplace, setExportedPortsForBlock, setDynamicPorts, update_self, List.map_append,
      List.filter_append, List.map_singleton, List.filter_singleton, decide_true, cond_true]
    exact (h.recorded d').append_right _
  · simp only [GraphWrapper.emplace, setExportedPortsForBlock, setDynamicPorts, update_of_ne hd,
      List.filter_append, List.filter_singleton, decide_eq_false hd.symm, cond_false, List.append_nil]
    exact h.recorded d'
  · simp only [GraphWrapper.emplace, setExportedPortsForBlock, setDynamicPorts, update_self, List.map_append]
    refine (h.wrapped d').append (List.Perm.of_eq ?_)
    simp only [List.map_singleton, DynamicPort.toPair, target]
    rw [← hport]
    rfl
  · simp only [GraphWrapper.emplace, setExportedPortsForBlock, setDynamicPorts, update_of_ne hd]
    exact h.wrapped d'

theorem eraseP_map (entries : List PortNameMapper) :
    (entries.eraseP (isFor blockName portName)).map (PortNameMapper.toExportedPort d) =
      (entries.map (PortNameMapper.toExportedPort d)).erase ⟨blockName, d, portName⟩ := by
  rw [List.erase_eq_eraseP, List.eraseP_map]
  congr 2
  funext entry
  rw [Bool.eq_iff_iff, Function.comp_apply, isFor_iff (d := d), beq_iff_eq, eq_comm]

/-- The containers agree after an un-export if and only if it erases the wrapper's port of the entry. -/
theorem erase_iff (h : Consistent w) (hinfo : w.findExportedPortInfo blockName d portName = some entry)
    (hport : w.findPortInBlock blockName d portName = .ok port) {first : DynamicPort π}
    (hfirst : (w.dynamicPorts d).find? (·.name == entry.exportedName) = some first) :
    Consistent ((w.eraseEntries blockName d portName).erasePort d entry.exportedName) ↔
      first = ⟨entry.exportedName, port⟩ := by
  obtain ⟨hmem, rfl, rfl⟩ := mem_of_findExportedPortInfo hinfo
  have hwrapped := perm_eraseP_iff (h.wrapped d) hfirst hinfo
  have hpair : first.toPair = w.target d entry ↔ first = ⟨entry.exportedName, port⟩ := by
    obtain ⟨name, port'⟩ := first
    simp only [DynamicPort.toPair, target, hport, Prod.mk.injEq, Except.ok.injEq, DynamicPort.mk.injEq]
  rw [hpair] at hwrapped
  constructor
  · intro hc
    have hc := hc.wrapped d
    simp only [erasePort, eraseEntries, setExportedPortsForBlock, setDynamicPorts, update_self] at hc
    exact hwrapped.mp hc
  · intro heq
    refine ⟨fun d' => ?_, fun d' => ?_, fun d' => ?_⟩ <;> rcases eq_or_ne d' d with rfl | hd
    · simp only [erasePort, eraseEntries, setExportedPortsForBlock, setDynamicPorts, update_self]
      exact (h.distinct d').sublist (List.eraseP_sublist.map _)
    · simp only [erasePort, eraseEntries, setExportedPortsForBlock, setDynamicPorts, update_of_ne hd]
      exact h.distinct d'
    · simp only [erasePort, eraseEntries, setExportedPortsForBlock, setDynamicPorts, update_self]
      rw [eraseP_map, (h.distinct d').erase_eq_filter, List.filter_comm]
      refine (List.Perm.of_eq (List.filter_congr fun x _ => ?_)).trans ((h.recorded d').filter _)
      rw [Bool.eq_iff_iff, decide_eq_true_eq, bne_iff_ne]
    · simp only [erasePort, eraseEntries, setExportedPortsForBlock, setDynamicPorts, update_of_ne hd]
      refine (List.Perm.of_eq ?_).trans (h.recorded d')
      rw [List.filter_filter]
      refine List.filter_congr fun x _ => ?_
      by_cases hx : x.direction = d'
      · have hne : x ≠ ⟨entry.blockName, d, entry.internalName⟩ := fun heq => hd (hx.symm.trans (congrArg _ heq))
        rw [decide_eq_true hx, decide_eq_true hne, Bool.and_self]
      · rw [decide_eq_false hx, Bool.false_and]
    · simp only [erasePort, eraseEntries, setExportedPortsForBlock, setDynamicPorts, update_self]
      exact hwrapped.mpr heq
    · simp only [erasePort, eraseEntries, setExportedPortsForBlock, setDynamicPorts, update_of_ne hd]
      exact h.wrapped d'

end Consistent

/-! ### Calls -/

namespace GraphWrapper

/-- What a call of `exportPort` does: it is refused and changes nothing, it exports, or it un-exports. -/
theorem exportPort_cases (w : GraphWrapper π) (exportFlag : Bool) (blockName : String) (d : PortDirection)
    (portName exportedName : String) :
    (∃ error, w.exportPort exportFlag blockName d portName exportedName = (.error error, w) ∧
      ∀ entry port, exportFlag = false → w.findExportedPortInfo blockName d portName = some entry →
        w.findPortInBlock blockName d portName ≠ .ok port) ∨
    (∃ port, exportFlag = true ∧ w.findExportedPortInfo blockName d portName = none ∧
      w.findPortInBlock blockName d portName = .ok port ∧
      w.exportPort exportFlag blockName d portName exportedName =
        (.ok (), w.emplace blockName d portName exportedName port)) ∨
    (∃ entry port, exportFlag = false ∧ w.findExportedPortInfo blockName d portName = some entry ∧
      w.findPortInBlock blockName d portName = .ok port ∧
      w.exportPort exportFlag blockName d portName exportedName =
        if (w.dynamicPorts d).any (·.name == entry.exportedName) then
          (.ok (), (w.eraseEntries blockName d portName).erasePort d entry.exportedName)
        else (.error .portNotExported, w.eraseEntries blockName d portName)) := by
  unfold exportPort
  dsimp only
  split
  · rename_i hflag
    refine .inl ⟨_, rfl, fun entry port hfalse hinfo => ?_⟩
    rw [hfalse, hinfo] at hflag
    cases hflag
  · rename_i hflag
    cases hport : w.findPortInBlock blockName d portName with
    | error error => exact .inl ⟨error, rfl, fun _ _ _ _ hok => by cases hok⟩
    | ok port =>
      cases hinfo : w.findExportedPortInfo blockName d portName with
      | none =>
        rw [hinfo] at hflag
        exact .inr (.inl ⟨port, eq_true_of_ne_false (Ne.symm hflag), rfl, rfl, rfl⟩)
      | some entry =>
        rw [hinfo] at hflag
        exact .inr (.inr ⟨entry, port, eq_false_of_ne_true (Ne.symm hflag), rfl, rfl, rfl⟩)

theorem removeBlockByName_cases (w : GraphWrapper π) (uniqueName : String) :
    (w.findBlock uniqueName = none ∧ w.removeBlockByName uniqueName = (.error .blockNotFound, w)) ∨
    ∃ block, w.findBlock uniqueName = some block ∧
      w.removeBlockByName uniqueName = (.ok (), { w with blocks := w.blocks.eraseP (·.uniqueName == uniqueName) }) := by
  unfold removeBlockByName
  cases hfind : w.findBlock uniqueName with
  | none => exact .inl ⟨rfl, rfl⟩
  | some block => exact .inr ⟨block, rfl, rfl⟩

theorem replaceBlock_cases (w : GraphWrapper π) (uniqueName : String) (newBlock : Option (Block π)) :
    (∃ error, w.replaceBlock uniqueName newBlock = (.error error, w)) ∨
    ∃ block new, newBlock = some new ∧ w.findBlock uniqueName = some block ∧
      (∀ exported ∈ w.exportedPorts, exported.blockName ≠ uniqueName) ∧
      w.replaceBlock uniqueName newBlock =
        (.ok (), { w with blocks := w.blocks.set (w.blocks.findIdx (·.uniqueName == uniqueName)) new }) := by
  unfold replaceBlock
  cases hfind : w.findBlock uniqueName with
  | none => exact .inl ⟨_, rfl⟩
  | some block =>
    cases hexports : w.exportedPorts.any (·.blockName == uniqueName) with
    | true => exact .inl ⟨_, rfl⟩
    | false =>
      cases newBlock with
      | none => exact .inl ⟨_, rfl⟩
      | some new =>
        refine .inr ⟨block, new, rfl, rfl, fun exported hmem heq => ?_, rfl⟩
        exact List.any_eq_false.mp hexports exported hmem (beq_iff_eq.mpr heq)

end GraphWrapper

/-- The call un-exports no port that another port of its direction hides, which carries the same exported name and was
    exported before, and it removes no block that exports a port. -/
def Call.finds (w : GraphWrapper π) : Call π → Prop
  | .exportPort false blockName d portName _ =>
    ∀ entry port, w.findExportedPortInfo blockName d portName = some entry →
      w.findPortInBlock blockName d portName = .ok port →
      (w.dynamicPorts d).find? (·.name == entry.exportedName) = some ⟨entry.exportedName, port⟩
  | .removeBlockByName uniqueName =>
    (w.findBlock uniqueName).isSome → ∀ exported ∈ w.exportedPorts, exported.blockName ≠ uniqueName
  | _ => True

namespace Consistent

/-- The block of an exported port is in the graph. -/
theorem findBlock_isSome (h : Consistent w) (he : entry ∈ w.exportedPortsForBlock d) :
    (w.findBlock entry.blockName).isSome := by
  obtain ⟨port, hport, -⟩ := h.target_ok he
  unfold findPortInBlock at hport
  cases hfind : w.findBlock entry.blockName with
  | none =>
    rw [hfind] at hport
    cases hport
  | some block => rfl

theorem any_of_find {first : DynamicPort π} (h : (w.dynamicPorts d).find? (·.name == exportedName) = some first) :
    (w.dynamicPorts d).any (·.name == exportedName) = true :=
  List.any_eq_true.mpr ⟨first, List.mem_of_find?_eq_some h, List.find?_some (p := fun p : DynamicPort π => p.name == _) h⟩

theorem find_dynamicPort (h : Consistent w) (he : entry ∈ w.exportedPortsForBlock d) :
    ∃ first, (w.dynamicPorts d).find? (·.name == entry.exportedName) = some first := by
  obtain ⟨port, -, hmem⟩ := h.target_ok he
  exact Option.isSome_iff_exists.mp (List.find?_isSome.mpr ⟨_, hmem, beq_self_eq_true _⟩)

theorem removeBlockByName_iff (h : Consistent w) (hn : Named w) {uniqueName : String}
    (hfound : (w.findBlock uniqueName).isSome) :
    Consistent { w with blocks := w.blocks.eraseP (·.uniqueName == uniqueName) } ↔
      ∀ exported ∈ w.exportedPorts, exported.blockName ≠ uniqueName := by
  obtain ⟨block, hblock⟩ := Option.isSome_iff_exists.mp hfound
  obtain ⟨hname, before, after, hblocks, herase, -⟩ := exists_split hblock
  rw [herase]
  constructor
  · intro hc exported hmem hexported
    obtain ⟨entry, he, heq⟩ := h.exists_entry hmem
    have hentry : entry.blockName = uniqueName := (congrArg ExportedPort.blockName heq).trans hexported
    obtain ⟨b, hb, hbname⟩ := List.find?_isSome.mp (findBlock_isSome hc (d := exported.direction) he)
    have hnodup : (w.blocks.map Block.uniqueName).Nodup := hn
    rw [hblocks, List.map_append, List.map_cons, List.perm_middle.nodup_iff, List.nodup_cons, ← List.map_append] at hnodup
    refine hnodup.1 (List.mem_map.mpr ⟨b, hb, ?_⟩)
    rw [beq_iff_eq.mp hbname, beq_iff_eq.mp hname, hentry]
  · intro hnone
    refine h.withBlocks fun d entry he => ?_
    have hne : entry.blockName ≠ uniqueName := hnone _ (h.mem_exportedPorts he)
    have hskip : (block.uniqueName == entry.blockName) = false := by
      rw [beq_iff_eq.mp hname, beq_eq_false_iff_ne]
      exact hne.symm
    rw [GraphWrapper.findBlock, GraphWrapper.findBlock, hblocks, List.find?_append, List.find?_append,
      List.find?_cons_of_neg (by rw [hskip]; exact Bool.false_ne_true)]

/-- A replaced block exports nothing, and the new one has a name of its own. -/
theorem replaceBlock (h : Consistent w) {uniqueName : String} {block newBlock : Block π}
    (hblock : w.findBlock uniqueName = some block) (hexports : ∀ exported ∈ w.exportedPorts, exported.blockName ≠ uniqueName)
    (hnew : newBlock.uniqueName ∉ w.blocks.map Block.uniqueName) :
    Consistent { w with blocks := w.blocks.set (w.blocks.findIdx (·.uniqueName == uniqueName)) newBlock } := by
  obtain ⟨hname, before, after, hblocks, -, hset⟩ := exists_split hblock
  rw [hset]
  refine h.withBlocks fun d entry he => ?_
  have hold : (block.uniqueName == entry.blockName) = false := by
    rw [beq_iff_eq.mp hname, beq_eq_false_iff_ne]
    exact (hexports _ (h.mem_exportedPorts he)).symm
  have hskip : (newBlock.uniqueName == entry.blockName) = false := by
    obtain ⟨b, hb, hbname⟩ := List.find?_isSome.mp (h.findBlock_isSome he)
    rw [beq_eq_false_iff_ne]
    rintro heq
    exact hnew (List.mem_map.mpr ⟨b, hb, (beq_iff_eq.mp hbname).trans heq.symm⟩)
  rw [GraphWrapper.findBlock, GraphWrapper.findBlock, hblocks, List.find?_append, List.find?_append,
    List.find?_cons_of_neg (by rw [hskip]; exact Bool.false_ne_true),
    List.find?_cons_of_neg (by rw [hold]; exact Bool.false_ne_true)]

theorem addBlock (h : Consistent w) (block : Block π) : Consistent { w with blocks := w.blocks ++ [block] } := by
  refine h.withBlocks fun d entry he => ?_
  obtain ⟨b, hb⟩ := Option.isSome_iff_exists.mp (h.findBlock_isSome he)
  rw [hb, GraphWrapper.findBlock, List.find?_append, show w.blocks.find? (·.uniqueName == entry.blockName) = some b from hb,
    Option.some_or]

/-- An export never breaks the agreement, and an un-export keeps it if and only if it finds the port it looks for. -/
theorem exportPort_iff (h : Consistent w) (exportFlag : Bool) (blockName : String) (d : PortDirection)
    (portName exportedName : String) :
    Consistent (w.exportPort exportFlag blockName d portName exportedName).2 ↔
      Call.finds w (.exportPort exportFlag blockName d portName exportedName) := by
  obtain ⟨error, heq, hnot⟩ | ⟨port, rfl, hnone, hport, heq⟩ | ⟨entry, port, rfl, hinfo, hport, heq⟩ :=
    w.exportPort_cases exportFlag blockName d portName exportedName
  · rw [heq]
    refine iff_of_true h ?_
    cases exportFlag with
    | true => trivial
    | false => exact fun entry port hinfo hport => absurd hport (hnot entry port rfl hinfo)
  · rw [heq]
    exact iff_of_true (h.emplace hnone hport) trivial
  · obtain ⟨first, hfirst⟩ := h.find_dynamicPort (mem_of_findExportedPortInfo hinfo).1
    rw [heq, if_pos (any_of_find hfirst)]
    refine (h.erase_iff hinfo hport hfirst).trans ⟨fun hfound entry' port' hinfo' hport' => ?_, fun hfinds => ?_⟩
    · cases hinfo.symm.trans hinfo'
      cases hport.symm.trans hport'
      rw [hfirst, hfound]
    · exact Option.some.inj (hfirst.symm.trans (hfinds entry port hinfo hport))

theorem load (h : Consistent w) (entries : List FileEntry) : Consistent (w.load entries).2 := by
  induction entries generalizing w with
  | nil => exact h
  | cons entry entries ih =>
    have hstep := (h.exportPort_iff true entry.blockName entry.direction entry.portName entry.exportedName).mpr trivial
    unfold GraphWrapper.load
    split
    · rename_i w' heq
      rw [heq] at hstep
      exact ih hstep
    · rename_i error w' heq
      rw [heq] at hstep
      exact hstep

/-! ### Steps -/

theorem call_iff (h : Consistent w) (hn : Named w) {call : Call π}
    (hnew : ∀ block, call.newBlock = some block → block.uniqueName ∉ w.blocks.map Block.uniqueName) :
    Consistent (w.call call).2 ↔ call.finds w := by
  cases call with
  | exportPort exportFlag blockName d portName exportedName =>
    exact h.exportPort_iff exportFlag blockName d portName exportedName
  | removeBlockByName uniqueName =>
    show Consistent (w.removeBlockByName uniqueName).2 ↔
      ((w.findBlock uniqueName).isSome → ∀ exported ∈ w.exportedPorts, exported.blockName ≠ uniqueName)
    obtain ⟨hnone, heq⟩ | ⟨block, hblock, heq⟩ := w.removeBlockByName_cases uniqueName
    · rw [heq, hnone]
      exact iff_of_true h fun hsome => absurd hsome Bool.false_ne_true
    · have hfound : (w.findBlock uniqueName).isSome := Option.isSome_iff_exists.mpr ⟨block, hblock⟩
      rw [heq, h.removeBlockByName_iff hn hfound]
      exact ⟨fun hnone _ => hnone, fun hnone => hnone hfound⟩
  | replaceBlock uniqueName newBlock =>
    refine iff_of_true ?_ trivial
    rw [GraphWrapper.call]
    obtain ⟨error, heq⟩ | ⟨block, new, rfl, hblock, hexports, heq⟩ := w.replaceBlock_cases uniqueName newBlock
    · rw [heq]
      exact h
    · rw [heq]
      exact h.replaceBlock hblock hexports (hnew new rfl)
  | addBlock block => exact iff_of_true (h.addBlock block) trivial
  | load entries => exact iff_of_true (h.load entries) trivial

/-- A call that returns an error changes nothing. -/
theorem call_error (h : Consistent w) {call : Call π} {error : Error} (hload : ∀ entries, call ≠ .load entries)
    (herror : (w.call call).1 = .error error) : (w.call call).2 = w := by
  cases call with
  | exportPort exportFlag blockName d portName exportedName =>
    rw [GraphWrapper.call] at herror ⊢
    obtain ⟨error', heq, -⟩ | ⟨port, -, -, -, heq⟩ | ⟨entry, port, -, hinfo, -, heq⟩ :=
      w.exportPort_cases exportFlag blockName d portName exportedName
    · rw [heq]
    · rw [heq] at herror
      cases herror
    · obtain ⟨first, hfirst⟩ := h.find_dynamicPort (mem_of_findExportedPortInfo hinfo).1
      rw [heq, if_pos (any_of_find hfirst)] at herror
      cases herror
  | removeBlockByName uniqueName =>
    rw [GraphWrapper.call] at herror ⊢
    obtain ⟨-, heq⟩ | ⟨block, -, heq⟩ := w.removeBlockByName_cases uniqueName
    · rw [heq]
    · rw [heq] at herror
      cases herror
  | replaceBlock uniqueName newBlock =>
    rw [GraphWrapper.call] at herror ⊢
    obtain ⟨error, heq⟩ | ⟨block, new, -, -, -, heq⟩ := w.replaceBlock_cases uniqueName newBlock
    · rw [heq]
    · rw [heq] at herror
      cases herror
  | addBlock block => cases herror
  | load entries => exact absurd rfl (hload entries)

end Consistent

theorem exportPort_blocks (exportFlag : Bool) (blockName : String) (d : PortDirection) (portName exportedName : String) :
    (w.exportPort exportFlag blockName d portName exportedName).2.blocks = w.blocks := by
  obtain ⟨error, heq, -⟩ | ⟨port, -, -, -, heq⟩ | ⟨entry, port, -, -, -, heq⟩ :=
    w.exportPort_cases exportFlag blockName d portName exportedName
  · rw [heq]
  · rw [heq]
    rfl
  · rw [heq]
    split <;> rfl

theorem load_blocks (entries : List FileEntry) : (w.load entries).2.blocks = w.blocks := by
  induction entries generalizing w with
  | nil => rfl
  | cons entry entries ih =>
    have hblocks := exportPort_blocks (w := w) true entry.blockName entry.direction entry.portName entry.exportedName
    unfold GraphWrapper.load
    split
    · rename_i w' heq
      rw [heq] at hblocks
      exact ih.trans hblocks
    · rename_i error w' heq
      rw [heq] at hblocks
      exact hblocks

theorem Named.call (hn : Named w) {call : Call π}
    (hnew : ∀ block, call.newBlock = some block → block.uniqueName ∉ w.blocks.map Block.uniqueName) :
    Named (w.call call).2 := by
  unfold Named at hn ⊢
  cases call with
  | exportPort exportFlag blockName d portName exportedName =>
    rw [GraphWrapper.call, exportPort_blocks]
    exact hn
  | removeBlockByName uniqueName =>
    rw [GraphWrapper.call]
    obtain ⟨-, heq⟩ | ⟨block, -, heq⟩ := w.removeBlockByName_cases uniqueName
    · rw [heq]
      exact hn
    · rw [heq]
      exact hn.sublist (List.eraseP_sublist.map _)
  | replaceBlock uniqueName newBlock =>
    rw [GraphWrapper.call]
    obtain ⟨error, heq⟩ | ⟨block, new, rfl, hblock, -, heq⟩ := w.replaceBlock_cases uniqueName newBlock
    · rw [heq]
      exact hn
    · obtain ⟨-, before, after, hblocks, -, hset⟩ := exists_split hblock
      have hfresh := hnew new rfl
      rw [hblocks, List.map_append, List.map_cons] at hn hfresh
      rw [List.perm_middle.nodup_iff, List.nodup_cons] at hn
      rw [heq, hset, List.map_append, List.map_cons, List.perm_middle.nodup_iff, List.nodup_cons]
      refine ⟨fun hmem => hfresh ?_, hn.2⟩
      rcases List.mem_append.mp hmem with hmem | hmem
      · exact List.mem_append_left _ hmem
      · exact List.mem_append_right _ (.tail _ hmem)
  | addBlock block =>
    rw [GraphWrapper.call, List.map_append, List.map_singleton]
    exact (List.perm_append_singleton _ _).nodup_iff.mpr (List.nodup_cons.mpr ⟨hnew block rfl, hn⟩)
  | load entries =>
    rw [GraphWrapper.call, load_blocks]
    exact hn

theorem consistent_of_start (h : (system π).start w) : Consistent w := by
  obtain ⟨-, hentries, hexported, hports⟩ := h
  refine ⟨fun d => ?_, fun d => ?_, fun d => ?_⟩
  · rw [hentries]
    exact List.nodup_nil
  · rw [hentries, hexported]
    exact .nil
  · rw [hentries, hports]
    exact .nil

theorem named_of_reach {ok : GraphWrapper π → Call π → Prop} (h : (system π).Reach ok w) : Named w :=
  h.invariant (fun _ hs => hs.1) fun _ _ _ hn _ ht => by
    obtain ⟨hnew, heq⟩ := Option.ite_none_right_eq_some.mp ht
    cases heq
    exact hn.call hnew

theorem consistent_of_reach (h : (system π).Reach (fun w call => call.finds w) w) : Consistent w := by
  induction h with
  | start hs => exact consistent_of_start hs
  | step h hok ht ih =>
    obtain ⟨hnew, heq⟩ := Option.ite_none_right_eq_some.mp ht
    cases heq
    exact (ih.call_iff (named_of_reach h) hnew).mpr hok

/-! ### Runs -/

/-- In every run whose un-exports find the port they look for and whose removals take no block that exports a port, the
    containers agree in every state. A call that returns an error changes nothing, an un-export takes away the wrapper's
    port of its entry and no other, and the next call keeps the agreement if and only if it meets the condition again. -/
theorem exports_agree (h : (system π).Reach (fun w call => call.finds w) w) :
    Consistent w ∧
    (∀ (call : Call π) (error : Error), (∀ entries, call ≠ .load entries) → (w.call call).1 = .error error →
      (w.call call).2 = w) ∧
    (∀ blockName d portName exportedName entry port, (Call.exportPort false blockName d portName exportedName).finds w →
      w.findExportedPortInfo blockName d portName = some entry → w.findPortInBlock blockName d portName = .ok port →
      ∃ before after, w.dynamicPorts d = before ++ ⟨entry.exportedName, port⟩ :: after ∧
        (w.exportPort false blockName d portName exportedName).1 = .ok () ∧
        (w.exportPort false blockName d portName exportedName).2.dynamicPorts =
          update w.dynamicPorts d (before ++ after)) ∧
    ∀ call t, (system π).step w call = some t → (Consistent t ↔ call.finds w) := by
  have hc := consistent_of_reach h
  refine ⟨hc, fun call error hload herror => hc.call_error hload herror, ?_, fun call t ht => ?_⟩
  · intro blockName d portName exportedName entry port hfinds hinfo hport
    have hfirst := hfinds entry port hinfo hport
    obtain ⟨-, before, after, hports, herase, -⟩ := exists_split hfirst
    obtain ⟨error, -, hnot⟩ | ⟨port', hfalse, -⟩ | ⟨entry', port', -, hinfo', hport', heq⟩ :=
      w.exportPort_cases false blockName d portName exportedName
    · exact absurd hport (hnot entry port rfl hinfo)
    · cases hfalse
    · cases hinfo.symm.trans hinfo'
      rw [heq, if_pos (Consistent.any_of_find hfirst)]
      refine ⟨before, after, hports, rfl, ?_⟩
      rw [← herase]
      rfl
  · obtain ⟨hnew, heq⟩ := Option.ite_none_right_eq_some.mp ht
    cases heq
    exact hc.call_iff (named_of_reach h) hnew

theorem step_eq (w : GraphWrapper π) (call : Call π) (h : call.newBlock = none) :
    (system π).step w call = some (w.call call).2 := by
  refine if_pos fun block hblock => ?_
  rw [h] at hblock
  cases hblock

/-- Two blocks with an output each. -/
def twoBlocks : GraphWrapper Nat where
  blocks := [⟨"a", [], [.port "out" 0]⟩, ⟨"b", [], [.port "out" 1]⟩]
  exportedPortsForBlock _ := []
  exportedPorts := []
  dynamicPorts _ := []

def exportedAs (first second : String) : GraphWrapper Nat :=
  ((twoBlocks.call (.exportPort true "a" .output "out" first)).2.call (.exportPort true "b" .output "out" second)).2

theorem reach_exportedAs (first second : String) :
    (system Nat).Reach (fun w call => call.finds w) (exportedAs first second) := by
  have hstart : (system Nat).start twoBlocks := ⟨by decide, rfl, rfl, rfl⟩
  have exports (w : GraphWrapper Nat) (blockName exportedName : String) :
      (Call.exportPort true blockName .output "out" exportedName).finds w := trivial
  exact .step (.step (.start hstart) (exports _ "a" first) (step_eq _ _ rfl)) (exports _ "b" second) (step_eq _ _ rfl)

/-- Under two names, the second port can be un-exported again. -/
theorem exports_agree_twoNames :
    Consistent ((exportedAs "x" "y").call (.exportPort false "b" .output "out" "")).2 := by
  refine ((exports_agree (reach_exportedAs "x" "y")).2.2.2 _ _ (step_eq _ _ rfl)).mpr fun entry port hinfo hport => ?_
  cases hinfo
  cases hport
  decide

/-- Under one name, the first port goes when the second is un-exported; and a block that is removed leaves its port. -/
theorem exports_disagree :
    (¬ Consistent ((exportedAs "x" "x").call (.exportPort false "b" .output "out" "")).2) ∧
    ¬ Consistent ((exportedAs "x" "y").call (.removeBlockByName "a")).2 := by
  have hstep (first : String) (call : Call Nat) (hnone : call.newBlock = none) :
      Consistent ((exportedAs "x" first).call call).2 ↔ call.finds (exportedAs "x" first) := by
    refine (consistent_of_reach (reach_exportedAs "x" first)).call_iff (named_of_reach (reach_exportedAs "x" first)) ?_
    rw [hnone]
    exact nofun
  refine ⟨(hstep "x" _ rfl).not.mpr fun hfinds => ?_, (hstep "y" _ rfl).not.mpr fun hfinds => ?_⟩
  · exact absurd (hfinds ⟨"b", "out", "x"⟩ 1 (by decide) rfl) (by decide)
  · exact absurd (hfinds (by decide) ⟨"a", .output, "out"⟩ (by decide)) (by decide)

end GnuRadio.ExportedPorts
