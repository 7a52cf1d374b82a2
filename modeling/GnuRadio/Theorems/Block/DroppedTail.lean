import GnuRadio.Block.DroppedTail

/-! What a block reports of the tail that it drops is what its inputs hold and no call was handed, as long as each
    connected input keeps its place among them.

    The spans of an input began at or before its read position, so those past it leave no gap: what they cover is one
    count, which a skip, a call and its consumption move as `nHandedPastRead` moves. -/

namespace GnuRadio.DroppedTail

variable {port : Input} {ports : List Input} {counts : List Nat} {spans : List Handed} {s t : State} {a : Act}

/-! ### One input -/

/-- Where the spans end that an input was handed. -/
def handedEnd (spans : List Span) : Nat := (spans.map fun span => span.start + span.size).foldr max 0

theorem handedEnd_le_iff {spans : List Span} {index : Nat} :
    handedEnd spans ≤ index ↔ ∀ span ∈ spans, span.start + span.size ≤ index := by
  induction spans with
  | nil => simp [handedEnd]
  | cons span spans ih =>
    have hcons : handedEnd (span :: spans) = max (span.start + span.size) (handedEnd spans) := rfl
    rw [hcons, max_le_iff, ih, List.forall_mem_cons]

theorem handedEnd_append (spans : List Span) (span : Span) :
    handedEnd (spans ++ [span]) = max (handedEnd spans) (span.start + span.size) := by
  refine le_antisymm (handedEnd_le_iff.mpr fun x hx => ?_) (max_le (handedEnd_le_iff.mpr fun x hx => ?_) ?_)
  · rcases List.mem_append.mp hx with hx | hx
    · exact (handedEnd_le_iff.mp le_rfl x hx).trans (le_max_left _ _)
    · rw [List.mem_singleton.mp hx]
      exact le_max_right _ _
  · exact handedEnd_le_iff.mp le_rfl x (List.mem_append_left _ hx)
  · exact handedEnd_le_iff.mp le_rfl span (List.mem_append_right _ (.head _))

theorem pastRead_eq (port : Input) : pastRead port = handedEnd port.spans - port.position := rfl

@[simp] theorem consume_isConnected (port : Input) (nSamples : Nat) :
    (port.consume nSamples).isConnected = port.isConnected := rfl

@[simp] theorem take_isConnected (port : Input) (span : Handed) : (port.take span).isConnected = port.isConnected := rfl

theorem pastRead_consume (port : Input) (nSamples : Nat) : pastRead (port.consume nSamples) = pastRead port - nSamples := by
  rw [pastRead_eq, pastRead_eq]
  exact (Nat.sub_sub ..).symm

theorem pastRead_take (port : Input) (span : Handed) :
    pastRead (port.take span) = max (span.size - span.nConsumed) (pastRead port - span.nConsumed) := by
  have hend : handedEnd (port.take span).spans = max (handedEnd port.spans) (port.position + span.size) :=
    handedEnd_append ..
  have hposition : (port.take span).position = port.position + span.nConsumed := rfl
  rw [pastRead_eq, hend, hposition, pastRead_eq]
  omega

/-- The spans of an input began at or before its read position. -/
def Behind (port : Input) : Prop := ∀ span ∈ port.spans, span.start ≤ port.position

theorem Behind.consume (h : Behind port) (nSamples : Nat) : Behind (port.consume nSamples) :=
  fun span hspan => (h span hspan).trans (Nat.le_add_right ..)

theorem Behind.take (h : Behind port) (span : Handed) : Behind (port.take span) := by
  intro x hx
  rcases List.mem_append.mp hx with hx | hx
  · exact (h x hx).trans (Nat.le_add_right ..)
  · rw [List.mem_singleton.mp hx]
    exact Nat.le_add_right ..

theorem length_filter_range' (first n m : Nat) :
    ((List.range' first n).filter fun index => decide (m ≤ index)).length = first + n - max first m := by
  induction n generalizing first with
  | zero =>
    rw [List.range'_zero, List.filter_nil, List.length_nil]
    omega
  | succ n ih =>
    rw [List.range'_succ, List.filter_cons]
    split
    · next h =>
      rw [List.length_cons, ih]
      have hm : m ≤ first := by simpa using h
      omega
    · next h =>
      rw [ih]
      have hm : ¬ m ≤ first := by simpa using h
      omega

/-- Past the read position the spans leave no gap. -/
theorem neverHanded_position (h : Behind port) : neverHanded port port.position = port.nHeld - pastRead port := by
  have hlength : port.endIndex - port.position = port.nHeld := Nat.add_sub_cancel_left ..
  have hfilter : (List.range' port.position port.nHeld).filter (fun index => port.spans.all fun span => !span.holds index) =
      (List.range' port.position port.nHeld).filter fun index => decide (handedEnd port.spans ≤ index) := by
    refine List.filter_congr fun index hindex => ?_
    have hposition : port.position ≤ index := (List.mem_range'_1.mp hindex).1
    rw [Bool.eq_iff_iff, decide_eq_true_iff, handedEnd_le_iff, List.all_eq_true]
    refine forall₂_congr fun span hspan => ?_
    have hstart := (h span hspan).trans hposition
    simp only [Span.holds, hstart, decide_true, Bool.true_and, Bool.not_eq_true', decide_eq_false_iff_not, Nat.not_lt]
  rw [neverHanded, hlength, hfilter, length_filter_range', pastRead_eq]
  omega

/-! ### The counts -/

theorem InPlace.skip (h : InPlace ports counts) (nSkip : Nat) :
    InPlace (ports.map fun port => port.consume (port.nPassed nSkip)) (lowerHandedPastRead nSkip ports counts) := by
  induction ports generalizing counts with
  | nil => trivial
  | cons port ports ih =>
    cases hconnected : port.isConnected with
    | false =>
      have htail : InPlace ports counts := by simpa [InPlace, hconnected] using h
      have hlower : lowerHandedPastRead nSkip (port :: ports) counts = lowerHandedPastRead nSkip ports counts := by
        cases counts with
        | nil => cases ports <;> rfl
        | cons count counts => simp [lowerHandedPastRead, hconnected]
      rw [hlower, List.map_cons, InPlace, if_neg (by simp [hconnected])]
      exact ih htail
    | true =>
      obtain ⟨hhead, htail⟩ : counts.headD 0 = pastRead port ∧ InPlace ports counts.tail := by
        simpa [InPlace, hconnected] using h
      rw [List.map_cons, InPlace, if_pos (by simp [hconnected]), pastRead_consume,
        ← hhead]
      have hrest := ih htail
      cases counts with
      | nil =>
        have hnil : lowerHandedPastRead nSkip ports [] = [] := by cases ports <;> rfl
        rw [List.tail_nil, hnil] at hrest
        exact ⟨(Nat.zero_sub _).symm, hrest⟩
      | cons count counts =>
        rw [lowerHandedPastRead, if_pos hconnected]
        exact ⟨rfl, hrest⟩

theorem InPlace.process (h : InPlace ports counts) (hfits : List.Forall₂ Input.Fits ports spans) :
    InPlace (ports.zipWith (fun port span => port.take span) spans) (keepHandedPastRead ports spans counts) := by
  induction hfits generalizing counts with
  | nil => trivial
  | @cons port span ports spans _ _ ih =>
    rw [List.zipWith_cons_cons, InPlace, take_isConnected, keepHandedPastRead]
    cases hconnected : port.isConnected with
    | false =>
      have htail : InPlace ports counts := by simpa [InPlace, hconnected] using h
      rw [if_neg Bool.false_ne_true, if_neg Bool.false_ne_true]
      exact ih htail
    | true =>
      obtain ⟨hhead, htail⟩ : counts.headD 0 = pastRead port ∧ InPlace ports counts.tail := by
        simpa [InPlace, hconnected] using h
      rw [if_pos rfl, if_pos rfl, pastRead_take, ← hhead]
      exact ⟨rfl, ih htail⟩

/-- A change of an input that moves neither its reader nor its spans keeps the places. -/
theorem InPlace.modify (h : InPlace ports counts) (input : Nat) {f : Input → Input}
    (hconnected : ∀ port, (f port).isConnected = port.isConnected) (hpast : ∀ port, pastRead (f port) = pastRead port) :
    InPlace (ports.modify input f) counts := by
  induction ports generalizing counts input with
  | nil => cases input <;> trivial
  | cons port ports ih =>
    cases input with
    | zero =>
      rw [List.modify_zero_cons, InPlace, hconnected, hpast]
      exact h
    | succ input =>
      rw [List.modify_succ_cons, InPlace]
      rw [InPlace] at h
      split
      · next hport =>
        rw [if_pos hport] at h
        exact ⟨h.1, ih h.2 input⟩
      · next hport =>
        rw [if_neg hport] at h
        exact ih h input

/-! ### The messages -/

theorem lookup_notifyDroppedTail_lt {place first : Nat} (h : place < first) (ports : List Input) (counts : List Nat) :
    (notifyDroppedTail first ports counts).lookup place = none := by
  induction ports generalizing first counts with
  | nil => rfl
  | cons port ports ih =>
    have hnext : place < first + 1 := Nat.lt_succ_of_lt h
    rw [notifyDroppedTail]
    split
    · split
      · rw [List.lookup_cons, beq_false_of_ne h.ne]
        exact ih hnext _
      · exact ih hnext _
    · exact ih hnext _

theorem lookup_notifyDroppedTail (h : InPlace ports counts) (first : Nat) {input : Nat} (hport : ports[input]? = some port)
    (hconnected : port.isConnected = true) :
    ((notifyDroppedTail first ports counts).lookup (first + input)).getD 0 = (port.nHeld - pastRead port) % 2 ^ 32 := by
  induction ports generalizing counts first input with
  | nil => cases hport
  | cons head ports ih =>
    rw [InPlace] at h
    rw [notifyDroppedTail]
    cases input with
    | zero =>
      cases hport
      rw [if_pos hconnected] at h ⊢
      rw [h.1]
      split
      · rw [Nat.add_zero, List.lookup_cons_self, Option.getD_some]
      · next hle =>
        rw [lookup_notifyDroppedTail_lt (Nat.lt_succ_self _), Nat.sub_eq_zero_of_le (Nat.le_of_not_lt hle)]
        rfl
    | succ input =>
      have hnext : first + (input + 1) = first + 1 + input := by omega
      have hne : first + 1 + input ≠ first := by omega
      rw [hnext]
      split
      · next hhead =>
        rw [if_pos hhead] at h
        split
        · rw [List.lookup_cons, beq_false_of_ne hne]
          exact ih h.2 (first + 1) hport
        · exact ih h.2 (first + 1) hport
      · next hhead =>
        rw [if_neg hhead] at h
        exact ih h (first + 1) hport

/-! ### Runs -/

structure Inv (s : State) : Prop where
  behind : ∀ port ∈ s.inputs, Behind port
  inPlace : InPlace s.inputs s.nHandedPastRead

theorem InPlace.start (h : ∀ port ∈ ports, port.spans = []) : InPlace ports [] := by
  induction ports with
  | nil => trivial
  | cons port ports ih =>
    obtain ⟨hport, hports⟩ := List.forall_mem_cons.mp h
    rw [InPlace]
    split
    · exact ⟨by rw [pastRead_eq, hport]; exact (Nat.zero_sub _).symm, ih hports⟩
    · exact ih hports

theorem behind_modify {input : Nat} {f : Input → Input} (h : ∀ port ∈ s.inputs, Behind port)
    (hf : ∀ port, Behind port → Behind (f port)) : ∀ port ∈ (s.modify input f).inputs, Behind port := by
  intro port hport
  obtain ⟨i, hi⟩ := List.mem_iff_getElem?.mp hport
  have hget : (s.modify input f).inputs[i]? = (fun port => if input = i then f port else port) <$> s.inputs[i]? :=
    List.getElem?_modify ..
  rw [hi] at hget
  obtain ⟨old, hold, heq⟩ := Option.map_eq_some_iff.mp hget.symm
  have hbehind := h old (List.mem_of_getElem? hold)
  rw [← heq]
  split
  · exact hf old hbehind
  · exact hbehind

theorem Inv.skip (h : Inv s) (nSkip : Nat) : Inv (s.skip nSkip) where
  behind := by
    intro port hport
    obtain ⟨old, hold, rfl⟩ := List.mem_map.mp hport
    exact (h.behind old hold).consume _
  inPlace := h.inPlace.skip nSkip

theorem Inv.process (h : Inv s) (hfits : List.Forall₂ Input.Fits s.inputs spans) : Inv (s.process spans) where
  behind := by
    intro port hport
    have hport : port ∈ s.inputs.zipWith (fun port span => port.take span) spans := hport
    rw [← List.map_uncurry_zip_eq_zipWith] at hport
    obtain ⟨⟨old, span⟩, hmem, rfl⟩ := List.mem_map.mp hport
    exact (h.behind old (List.of_mem_zip hmem).1).take span
  inPlace := h.inPlace.process hfits

theorem Inv.step (h : Inv s) (hok : KeepsPlaces s a) (hs : step s a = some t) : Inv t := by
  cases a with
  | arrive input nSamples | endOfStream input index =>
    cases hs
    exact ⟨behind_modify h.behind fun _ hport => hport, h.inPlace.modify input (fun _ => rfl) fun _ => rfl⟩
  | work call =>
    unfold DroppedTail.step at hs
    dsimp only at hs
    split at hs
    · split at hs
      · cases hs
        exact h.skip call.nSkip
      · split at hs
        · next hfits =>
          cases hs
          exact (h.skip call.nSkip).process hfits
        · cases hs
    · cases hs
  | disconnect input =>
    cases hs
    exact ⟨behind_modify h.behind fun _ hport => hport, hok⟩
  | reconnect input position =>
    cases hs
    exact ⟨behind_modify h.behind fun _ _ span hspan => (by cases hspan), hok⟩

theorem Inv.reach (h : system.Reach KeepsPlaces s) : Inv s :=
  h.invariant
    (fun _ hstart =>
      ⟨fun port hport span hspan => (by rw [(hstart.2 port hport).1] at hspan; cases hspan),
        hstart.1 ▸ InPlace.start fun port hport => (hstart.2 port hport).1⟩)
    fun _ _ _ h hok hs => h.step hok hs

/-- What is reported for a connected input is the number of the samples that it holds in front of its end and that were
    in no span. -/
theorem reported_eq (h : system.Reach KeepsPlaces s) {input : Nat} (hport : s.inputs[input]? = some port)
    (hconnected : port.isConnected = true) : s.reported input = neverHanded port port.position % 2 ^ 32 := by
  have hinv := Inv.reach h
  rw [neverHanded_position (hinv.behind port (List.mem_of_getElem? hport))]
  have hlookup := lookup_notifyDroppedTail hinv.inPlace 0 hport hconnected
  rw [Nat.zero_add] at hlookup
  exact hlookup

/-! ### Runs of two inputs -/

/-- A connected input that nothing has arrived at. -/
def fresh : Input where
  isSync := true
  isConnected := true
  first := 0
  position := 0
  arrived := 0
  eosTags := []
  spans := []

/-- The second input is handed more than it consumes, and is disconnected behind the first one. -/
def disconnectsLast : List Act :=
  [.arrive 0 5, .arrive 1 5, .work ⟨0, some [⟨3, 1⟩, ⟨4, 2⟩]⟩, .disconnect 1, .endOfStream 0 5]

def afterDisconnect : State := (system.run ⟨[fresh, fresh], []⟩ disconnectsLast).get (by decide)

theorem reported_afterDisconnect : system.Reach KeepsPlaces afterDisconnect ∧
    afterDisconnect.reported 0 = neverHanded ⟨true, true, 0, 1, 5, [5], [⟨0, 3⟩]⟩ 1 % 2 ^ 32 := by
  have hstart : system.start ⟨[fresh, fresh], []⟩ := ⟨rfl, by decide⟩
  have hreach : system.Reach KeepsPlaces afterDisconnect := system.reach_get disconnectsLast hstart (by decide) (by decide)
  exact ⟨hreach, reported_eq hreach (by decide) rfl⟩

/-- A call takes a chunk of one sample, and the next one skips a sample that no call was handed. -/
def strideOfTwo : List Act := [.arrive 0 2, .endOfStream 0 2, .work ⟨0, some [⟨1, 1⟩]⟩, .work ⟨1, none⟩]

def afterSkip : State := (system.run ⟨[fresh], []⟩ strideOfTwo).get (by decide)

/-- A skipped sample is not reported. -/
theorem strideOfTwo_unreported : ¬ ∀ s, system.Reachable s → ∀ input port, s.inputs[input]? = some port →
    port.isConnected = true → s.reported input = neverHanded port port.first % 2 ^ 32 := by
  intro h
  have hstart : system.start ⟨[fresh], []⟩ := ⟨rfl, by decide⟩
  have hreach : system.Reachable afterSkip := system.reachable_get strideOfTwo hstart (by decide)
  have hreported := h afterSkip hreach 0 ⟨true, true, 0, 2, 2, [2], [⟨0, 1⟩]⟩ (by decide) rfl
  revert hreported
  decide

end GnuRadio.DroppedTail
