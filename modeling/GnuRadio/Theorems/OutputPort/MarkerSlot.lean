import GnuRadio.Buffer.OutputPort

/-! The slot that an output port keeps back for the end-of-stream marker. A span holds every slot that was free when it
    was reserved and stops one short of them; the port's own calls ask for one more than they use. What the slowest
    reader frees comes on top. -/

namespace GnuRadio.OutputPort

variable {p q : Port} {w w' : Watch} {n k : Nat} {a : Act}

/-! ### The calls of the tag ring -/

theorem available_of_none (hr : p.readers.min? = none) : p.available = p.size := by
  simp only [Port.available, Port.minReaderCursor, hr, Option.getD_none, remainingCapacity, Nat.sub_self,
    Nat.lt_irrefl, false_or, Nat.sub_zero, Nat.le_zero]
  split
  · exact ‹p.size = 0›.symm
  · rfl

theorem available_of_some {m : Nat} (hr : p.readers.min? = some m) (hm : m ≤ p.reserveCursor) :
    p.available = m + p.size - p.reserveCursor := by
  simp only [Port.available, Port.minReaderCursor, hr, Option.getD_some, remainingCapacity]
  split <;> omega

/-- A span is alive, so a second reservation is refused and its release leaves all as it was. -/
theorem claim_of_live (h : 0 < p.tagWriter.instanceCount) (n : Nat) :
    p.claim n = ({ p with tagWriter := { p.tagWriter with instanceCount := p.tagWriter.instanceCount + 1 } },
      ⟨true, .processNone⟩) := by
  simp only [Port.claim, h, if_true]

theorem claim_of_free (h : p.tagWriter.instanceCount = 0) (hn : 0 < n) (hfree : n ≤ p.available) :
    p.claim n = ({ p with
      reserveCursor := p.reserveCursor + n
      tagWriter := ⟨none, p.reserveCursor, n, 1⟩ }, ⟨false, .processNone⟩) := by
  simp only [Port.claim, h, Nat.lt_irrefl, if_false, Nat.pos_iff_ne_zero.mp hn, Port.tryNext, Nat.not_lt.mpr hfree,
    Nat.add_sub_cancel, Nat.zero_add]

theorem claim_of_full (h : p.tagWriter.instanceCount = 0) (hfull : n = 0 ∨ p.available < n) :
    p.claim n = ({ p with
      tagWriter := { p.tagWriter with nRequestedSamplesToPublish := none, instanceCount := 1 } },
      ⟨false, .processNone⟩) := by
  simp only [Port.claim, h, Nat.lt_irrefl, if_false, Nat.zero_add, Port.tryNext]
  rcases hfull with rfl | hfull
  · rfl
  · rw [if_neg (by omega), if_pos hfull]

/-- The only span of a reservation publishes what was asked for, at most what it holds. -/
theorem releaseTags_publish (hcount : p.tagWriter.instanceCount = 1)
    (hrequest : p.tagWriter.nRequestedSamplesToPublish = none) (hn : n ≤ p.tagWriter.claimSize) :
    (p.publish ⟨false, .processNone⟩ n).releaseTags ⟨false, .processNone⟩ = { p with
      tagWriter := ⟨some 0, p.tagWriter.claimOffset + n, 0, 0⟩
      publishCursor := p.tagWriter.claimOffset + n
      reserveCursor := p.tagWriter.claimOffset + n } := by
  have hmin : min n p.tagWriter.claimSize = n := Nat.min_eq_left hn
  simp [Port.releaseTags, Port.publish, SegmentedBuffer.publish, hcount, hrequest, hmin,
    SegmentedBuffer.Writer.published]

theorem releaseTags_unrequested (hcount : p.tagWriter.instanceCount = 1)
    (hrequest : p.tagWriter.nRequestedSamplesToPublish = none) :
    p.releaseTags ⟨false, .processNone⟩ = { p with
      tagWriter := ⟨some 0, p.tagWriter.claimOffset, 0, 0⟩
      publishCursor := p.tagWriter.claimOffset
      reserveCursor := p.tagWriter.claimOffset } := by
  simp [Port.releaseTags, SegmentedBuffer.publish, hcount, hrequest, SegmentedBuffer.Writer.published]

theorem releaseTags_refused (policy : CircularBuffer.SpanReleasePolicy) :
    p.releaseTags ⟨true, policy⟩ =
      { p with tagWriter := { p.tagWriter with instanceCount := p.tagWriter.instanceCount - 1 } } := by
  simp [Port.releaseTags]

theorem publishSpan_last {span : OutputSpan} (htags : span.tags = ⟨false, .processNone⟩)
    (hlast : p.streamInstanceCount = 1) : p.publishSpan span =
      { p with nTagsDropped := p.nTagsDropped + span.tagsDropped }.publish ⟨false, .processNone⟩ span.tagsPublished := by
  rw [Port.publishSpan, if_pos hlast, htags]
  rfl

theorem isConnected_of_none (hr : p.readers = []) : p.isConnected = false := by
  simp only [Port.isConnected, hr, List.isEmpty_nil, Bool.not_true]

/-! ### Publishing into a span -/

section

variable {span span' : OutputSpan}

theorem publishTag_cases (size : Nat) (span : OutputSpan) :
    (span.isConnected = false ∧ span.publishTag size = span) ∨
    (span.isConnected = true ∧ size ≤ span.tagsPublished + 1 ∧
      span.publishTag size = { span with tagsDropped := span.tagsDropped + 1 }) ∨
    (span.isConnected = true ∧ span.tagsPublished + 1 < size ∧
      span.publishTag size = { span with tagsPublished := span.tagsPublished + 1 }) := by
  cases hconnected : span.isConnected with
  | false => exact .inl ⟨rfl, by simp [OutputSpan.publishTag, hconnected]⟩
  | true =>
    by_cases hfull : size ≤ span.tagsPublished + 1
    · exact .inr (.inl ⟨rfl, hfull, by simp [OutputSpan.publishTag, hconnected, hfull]⟩)
    · exact .inr (.inr ⟨rfl, Nat.lt_of_not_le hfull, by simp [OutputSpan.publishTag, hconnected, hfull]⟩)

theorem publishEoSTag_cases (size : Nat) (span : OutputSpan) :
    (span.isConnected = false ∧ span.publishEoSTag size = span) ∨
    (span.isConnected = true ∧ size ≤ span.tagsPublished ∧
      span.publishEoSTag size = { span with tagsDropped := span.tagsDropped + 1 }) ∨
    (span.isConnected = true ∧ span.tagsPublished < size ∧
      span.publishEoSTag size = { span with tagsPublished := span.tagsPublished + 1 }) := by
  cases hconnected : span.isConnected with
  | false => exact .inl ⟨rfl, by simp [OutputSpan.publishEoSTag, hconnected]⟩
  | true =>
    by_cases hfull : size ≤ span.tagsPublished
    · exact .inr (.inl ⟨rfl, hfull, by simp [OutputSpan.publishEoSTag, hconnected, hfull]⟩)
    · exact .inr (.inr ⟨rfl, Nat.lt_of_not_le hfull, by simp [OutputSpan.publishEoSTag, hconnected, hfull]⟩)

theorem spanSize_granted (hg : span.tags.isRefused = false) : p.spanSize span.tags = p.tagWriter.claimSize := by
  simp [Port.spanSize, hg]

theorem spanSize_refused (hr : span.tags.isRefused = true) : p.spanSize span.tags = 0 := by
  simp [Port.spanSize, hr]

/-- What the record of a step on a live span reads. -/
theorem see_span (w : Watch) (span' : OutputSpan) (hk : w.port.spans[k]? = some span) :
    refusedBy w.port { w.port with spans := w.port.spans.set k span' } k =
      (!span.tags.isRefused && span.isConnected && span.tagsPublished == span'.tagsPublished) ∧
    placedBy w.port { w.port with spans := w.port.spans.set k span' } k =
      (span.tagsPublished != span'.tagsPublished) := by
  obtain ⟨hlt, -⟩ := List.getElem?_eq_some_iff.mp hk
  have hset : (w.port.spans.set k span')[k]? = some span' := List.getElem?_set_self hlt
  simp [refusedBy, placedBy, Port.granted, hk, hset, bne]

end

/-! ### What every step keeps -/

/-- The spans alive: none, or the one that holds a reservation of `claimed` slots, of which it has used `used`, and
    after it the refused ones. -/
inductive Spans : List OutputSpan → Nat → Nat → Nat → Prop
  | none : Spans [] 0 0 0
  | held {span : OutputSpan} {rest : List OutputSpan} {claimed : Nat} (held : span.tags = ⟨false, .processNone⟩)
      (refused : ∀ other ∈ rest, other.tags.isRefused = true) (fits : span.tagsPublished ≤ claimed) :
      Spans (span :: rest) claimed span.tagsPublished span.tagsDropped

namespace Spans

variable {spans : List OutputSpan} {span span' : OutputSpan} {claimed used dropped : Nat}

theorem append (h : Spans spans claimed used dropped) (hs : spans ≠ []) (hr : span.tags.isRefused = true) :
    Spans (spans ++ [span]) claimed used dropped := by
  cases h with
  | none => exact absurd rfl hs
  | held held refused fits =>
    refine .held held ?_ fits
    intro other hother
    rcases List.mem_append.mp hother with hother | hother
    · exact refused other hother
    · rw [List.mem_singleton.mp hother]
      exact hr

/-- The span that is not refused is the first one. -/
theorem eq_of_granted (h : Spans spans claimed used dropped) (hk : spans[k]? = some span)
    (hg : span.tags.isRefused = false) :
    k = 0 ∧ span.tags = ⟨false, .processNone⟩ ∧ span.tagsPublished = used ∧ span.tagsDropped = dropped ∧
      used ≤ claimed := by
  cases h with
  | none => exact absurd hk (by simp)
  | held held refused fits =>
    cases k with
    | zero =>
      cases hk
      exact ⟨rfl, held, rfl, rfl, fits⟩
    | succ k =>
      have hr := refused span (List.mem_of_getElem? (by simpa using hk))
      rw [hg] at hr
      cases hr

theorem set_granted (h : Spans spans claimed used dropped) (hk : spans[k]? = some span)
    (hg : span.tags.isRefused = false) (htags : span'.tags = span.tags) (hle : span'.tagsPublished ≤ claimed) :
    Spans (spans.set k span') claimed span'.tagsPublished span'.tagsDropped := by
  obtain ⟨rfl, htags', -, -, -⟩ := h.eq_of_granted hk hg
  cases h with
  | none => exact absurd hk (by simp)
  | held _ refused _ => exact .held (htags.trans htags') refused hle

theorem set_refused (h : Spans spans claimed used dropped) (hk : spans[k]? = some span)
    (hr : span.tags.isRefused = true) (htags : span'.tags = span.tags) :
    Spans (spans.set k span') claimed used dropped := by
  cases h with
  | none => exact .none
  | held held refused fits =>
    cases k with
    | zero =>
      cases hk
      rw [held] at hr
      cases hr
    | succ k =>
      refine .held held ?_ fits
      intro other hother
      rcases List.mem_or_eq_of_mem_set hother with hother | rfl
      · exact refused other hother
      · rw [htags]
        exact hr

theorem eraseIdx (h : Spans spans claimed used dropped) (hk : spans[k]? = some span)
    (hr : span.tags.isRefused = true) : Spans (spans.eraseIdx k) claimed used dropped := by
  cases h with
  | none => exact .none
  | held held refused fits =>
    cases k with
    | zero =>
      cases hk
      rw [held] at hr
      cases hr
    | succ k => exact .held held (fun other hother => refused other (List.mem_of_mem_eraseIdx hother)) fits

end Spans

/-- The reservation starts at the publish cursor and ends where the slowest reader allows. While no marker has been
    published since that reader advanced, a slot is left in the reservation or behind it. -/
structure Sound (w : Watch) (used dropped : Nat) : Prop where
  spans : Spans w.port.spans w.port.tagWriter.claimSize used dropped
  offset : w.port.tagWriter.claimOffset = w.port.publishCursor
  reserved : w.port.reserveCursor = w.port.publishCursor + w.port.tagWriter.claimSize
  size_pos : 0 < w.port.size
  claimSize_le : w.port.tagWriter.claimSize ≤ w.port.size
  behind : ∀ r ∈ w.port.readers, r ≤ w.port.publishCursor
  fits : ∀ m, w.port.readers.min? = some m →
    w.port.publishCursor + w.port.tagWriter.claimSize ≤ m + w.port.size
  tagInstances : w.port.tagWriter.instanceCount = w.port.spans.length
  streamInstances : w.port.streamInstanceCount = w.port.spans.length
  request : w.port.spans ≠ [] → w.port.tagWriter.nRequestedSamplesToPublish = none
  unread : w.port.readers = [] → used = 0 ∧ ∀ span ∈ w.port.spans, span.isConnected = false
  free : w.marked = false → ∀ m, w.port.readers.min? = some m →
    used < w.port.tagWriter.claimSize ∨ w.port.publishCursor + w.port.tagWriter.claimSize < m + w.port.size
  fresh : w.fresh = true → w.port.spans ≠ [] → used < w.port.tagWriter.claimSize
  counts : w.port.nTagsDropped + dropped = w.nRefused + w.nRefusedMarkers

namespace Sound

variable {used dropped : Nat}

theorem le_publish (h : Sound w used dropped) {m : Nat} (hm : w.port.readers.min? = some m) :
    m ≤ w.port.publishCursor :=
  h.behind m (List.min?_mem hm)

theorem of_idle (h : Sound w used dropped) (hs : w.port.spans = []) :
    w.port.tagWriter.claimSize = 0 ∧ used = 0 ∧ dropped = 0 := by
  have hspans := h.spans
  rw [hs] at hspans
  generalize w.port.tagWriter.claimSize = claimed at hspans ⊢
  cases hspans
  exact ⟨rfl, rfl, rfl⟩

theorem instanceCount_of_idle (h : Sound w used dropped) (hs : w.port.spans = []) :
    w.port.tagWriter.instanceCount = 0 := by
  rw [h.tagInstances, hs, List.length_nil]

theorem instanceCount_of_live (h : Sound w used dropped) (hs : w.port.spans ≠ []) :
    0 < w.port.tagWriter.instanceCount := by
  rw [h.tagInstances]
  exact List.length_pos_of_ne_nil hs

theorem available_idle (h : Sound w used dropped) (hs : w.port.spans = []) {m : Nat}
    (hm : w.port.readers.min? = some m) : w.port.available = m + w.port.size - w.port.publishCursor := by
  obtain ⟨hclaim, -, -⟩ := h.of_idle hs
  have hreserved := h.reserved
  rw [hclaim, Nat.add_zero] at hreserved
  rw [available_of_some hm (hreserved ▸ h.le_publish hm), hreserved]

/-- Without a span alive a slot is free. -/
theorem available_pos (h : Sound w used dropped) (hs : w.port.spans = []) (hmarked : w.marked = false) :
    0 < w.port.available := by
  cases hm : w.port.readers.min? with
  | none =>
    rw [available_of_none hm]
    exact h.size_pos
  | some m =>
    obtain ⟨hclaim, hused, -⟩ := h.of_idle hs
    have hfree := h.free hmarked m hm
    rw [h.available_idle hs hm]
    omega

theorem available_le (h : Sound w used dropped) (hs : w.port.spans = []) : w.port.available ≤ w.port.size := by
  cases hm : w.port.readers.min? with
  | none => rw [available_of_none hm]
  | some m =>
    have := h.le_publish hm
    rw [h.available_idle hs hm]
    omega

/-! ### Reserving a span -/

/-- The first span takes what is free. -/
theorem reserve_idle (h : Sound w used dropped) (hs : w.port.spans = []) : w.port.reserve = { w.port with
    reserveCursor := w.port.publishCursor + w.port.available
    tagWriter := ⟨none, w.port.publishCursor, w.port.available, 1⟩
    streamInstanceCount := 1
    spans := [⟨⟨false, .processNone⟩, 0, 0, w.port.isConnected⟩] } := by
  have hcount := h.instanceCount_of_idle hs
  have hstream : w.port.streamInstanceCount = 0 := by rw [h.streamInstances, hs, List.length_nil]
  obtain ⟨hclaim, -, -⟩ := h.of_idle hs
  have hreserved : w.port.reserveCursor = w.port.publishCursor := by rw [h.reserved, hclaim, Nat.add_zero]
  have hoffset := h.offset
  by_cases hfree : 0 < w.port.available
  · simp only [Port.reserve, claim_of_free hcount hfree (Nat.le_refl _), hstream, hs, hreserved, Nat.zero_add,
      List.nil_append]
  · have hfull : w.port.available = 0 := Nat.eq_zero_of_not_pos hfree
    simp only [Port.reserve, hfull, claim_of_full hcount (.inl rfl), hstream, hs, hreserved, Nat.zero_add,
      List.nil_append, Nat.add_zero, hoffset, hclaim]

theorem reserve_live (h : Sound w used dropped) (hs : w.port.spans ≠ []) : w.port.reserve = { w.port with
    tagWriter := { w.port.tagWriter with instanceCount := w.port.tagWriter.instanceCount + 1 }
    streamInstanceCount := w.port.streamInstanceCount + 1
    spans := w.port.spans ++ [⟨⟨true, .processNone⟩, 0, 0, w.port.isConnected⟩] } := by
  simp only [Port.reserve, claim_of_live (h.instanceCount_of_live hs)]

theorem reserve (h : Sound w used dropped) :
    ∃ used' dropped', Sound (w.see w.port.reserve .reserve) used' dropped' := by
  by_cases hs : w.port.spans = []
  · obtain ⟨-, -, hdropped⟩ := h.of_idle hs
    refine ⟨0, 0, ?_⟩
    rw [h.reserve_idle hs]
    constructor
    case spans => exact .held rfl (by simp) (Nat.zero_le _)
    case offset | reserved | tagInstances | streamInstances => rfl
    case size_pos => exact h.size_pos
    case claimSize_le => exact h.available_le hs
    case behind => exact h.behind
    case fits =>
      intro m hm
      have := h.le_publish hm
      have := h.fits m hm
      have := h.available_idle hs hm
      simp only [Watch.see]
      omega
    case request => exact fun _ => rfl
    case unread =>
      intro hr
      refine ⟨rfl, ?_⟩
      intro span hspan
      rw [List.mem_singleton.mp hspan]
      exact isConnected_of_none (p := w.port) hr
    case free => exact fun hmarked m _ => .inl (h.available_pos hs hmarked)
    case fresh =>
      intro hfresh _
      simp only [Watch.see, hs, List.isEmpty_nil, if_true, Bool.not_eq_true'] at hfresh
      exact h.available_pos hs hfresh
    case counts => simpa [Watch.see, hdropped] using h.counts
  · refine ⟨used, dropped, ?_⟩
    rw [h.reserve_live hs]
    have hsee : w.port.spans.isEmpty = false := by simpa using hs
    simp only [Watch.see, hsee, Bool.false_eq_true, if_false]
    constructor
    case spans => exact h.spans.append hs rfl
    case offset => exact h.offset
    case reserved => exact h.reserved
    case size_pos => exact h.size_pos
    case claimSize_le => exact h.claimSize_le
    case behind => exact h.behind
    case fits => exact h.fits
    case tagInstances => simpa using h.tagInstances
    case streamInstances => simpa using h.streamInstances
    case request => exact fun _ => h.request hs
    case unread =>
      intro hr
      obtain ⟨hused, hspans⟩ := h.unread hr
      refine ⟨hused, ?_⟩
      intro span hspan
      rcases List.mem_append.mp hspan with hspan | hspan
      · exact hspans span hspan
      · rw [List.mem_singleton.mp hspan]
        exact isConnected_of_none hr
    case free => exact h.free
    case fresh => exact fun hfresh _ => h.fresh hfresh hs
    case counts => exact h.counts

/-! ### The spans change -/

section Span

variable {span span' : OutputSpan}

/-- The span that holds the reservation changes. -/
theorem set_granted (h : Sound w used dropped) (hk : w.port.spans[k]? = some span)
    (hg : span.tags.isRefused = false) {q : OutputSpan} (htags : q.tags = span.tags) (hconnected : q.isConnected = span.isConnected)
    (hle : q.tagsPublished ≤ w.port.tagWriter.claimSize)
    (hunread : span.isConnected = false → q.tagsPublished = span.tagsPublished)
    (hport : w'.port = { w.port with spans := w.port.spans.set k q })
    (hfree : w'.marked = false → w.marked = false ∧ (span.tagsPublished < w.port.tagWriter.claimSize →
      q.tagsPublished < w.port.tagWriter.claimSize))
    (hfresh : w'.fresh = true → w.fresh = true ∧ (span.tagsPublished < w.port.tagWriter.claimSize →
      q.tagsPublished < w.port.tagWriter.claimSize))
    (hcounts : w.nRefused + w.nRefusedMarkers + q.tagsDropped =
      w'.nRefused + w'.nRefusedMarkers + span.tagsDropped) :
    Sound w' q.tagsPublished q.tagsDropped := by
  obtain ⟨-, -, hused, hdropped, -⟩ := h.spans.eq_of_granted hk hg
  have hspans : w.port.spans ≠ [] := List.ne_nil_of_mem (List.mem_of_getElem? hk)
  constructor <;> rw [hport]
  case spans => exact h.spans.set_granted hk hg htags hle
  case offset => exact h.offset
  case reserved => exact h.reserved
  case size_pos => exact h.size_pos
  case claimSize_le => exact h.claimSize_le
  case behind => exact h.behind
  case fits => exact h.fits
  case tagInstances => simpa using h.tagInstances
  case streamInstances => simpa using h.streamInstances
  case request => exact fun _ => h.request hspans
  case unread =>
    intro hr
    obtain ⟨hnone, hspans⟩ := h.unread hr
    have hout := hspans span (List.mem_of_getElem? hk)
    refine ⟨by rw [hunread hout, hused, hnone], ?_⟩
    intro other hother
    rcases List.mem_or_eq_of_mem_set hother with hother | rfl
    · exact hspans other hother
    · rw [hconnected, hout]
  case free =>
    intro hmarked m hm
    obtain ⟨hmarked, hroom⟩ := hfree hmarked
    rcases h.free hmarked m hm with hlt | hlt
    · exact .inl (hroom (hused.symm ▸ hlt))
    · exact .inr hlt
  case fresh =>
    intro hfresh' _
    obtain ⟨hold, hroom⟩ := hfresh hfresh'
    exact hroom (hused.symm ▸ h.fresh hold hspans)
  case counts =>
    have := h.counts
    have := hdropped
    show w.port.nTagsDropped + _ = _
    omega

/-- A refused span changes. -/
theorem set_refused (h : Sound w used dropped) (hk : w.port.spans[k]? = some span)
    (hr : span.tags.isRefused = true) (htags : span'.tags = span.tags) (hconnected : span'.isConnected = span.isConnected) :
    Sound { w with port := { w.port with spans := w.port.spans.set k span' } } used dropped := by
  have hspans : w.port.spans ≠ [] := List.ne_nil_of_mem (List.mem_of_getElem? hk)
  refine { h with spans := h.spans.set_refused hk hr htags, tagInstances := ?_, streamInstances := ?_, request := ?_,
                  unread := ?_, fresh := ?_ }
  · simpa using h.tagInstances
  · simpa using h.streamInstances
  · exact fun _ => h.request hspans
  · intro hr
    obtain ⟨hnone, hout⟩ := h.unread hr
    refine ⟨hnone, ?_⟩
    intro other hother
    rcases List.mem_or_eq_of_mem_set hother with hother | rfl
    · exact hout other hother
    · rw [hconnected]
      exact hout span (List.mem_of_getElem? hk)
  · exact fun hfresh _ => h.fresh hfresh hspans

end Span

theorem publishTag (h : Sound w used dropped) (hs : w.port.step (.publishTag k) = some q) :
    ∃ used' dropped', Sound (w.see q (.publishTag k)) used' dropped' := by
  obtain ⟨span, hk, rfl⟩ := Option.map_eq_some_iff.mp hs
  obtain ⟨hrefused, -⟩ := see_span w (span.publishTag (w.port.spanSize span.tags)) hk
  cases hg : span.tags.isRefused with
  | true =>
    refine ⟨used, dropped, ?_⟩
    have htags : (span.publishTag (w.port.spanSize span.tags)).tags = span.tags ∧
        (span.publishTag (w.port.spanSize span.tags)).isConnected = span.isConnected := by
      rcases publishTag_cases (w.port.spanSize span.tags) span with ⟨-, h⟩ | ⟨-, -, h⟩ | ⟨-, -, h⟩ <;> rw [h] <;>
        exact ⟨rfl, rfl⟩
    have := h.set_refused hk hg htags.1 htags.2
    simpa [Watch.see, hrefused, hg] using this
  | false =>
    obtain ⟨-, -, hused, -, hle⟩ := h.spans.eq_of_granted hk hg
    rw [spanSize_granted hg] at hrefused ⊢
    rcases publishTag_cases w.port.tagWriter.claimSize span with ⟨hc, heq⟩ | ⟨hc, hfull, heq⟩ | ⟨hc, hroom, heq⟩
    · rw [heq] at hrefused ⊢
      refine ⟨_, _, h.set_granted hk hg rfl rfl (hused ▸ hle) (fun _ => rfl) rfl (fun hm => ⟨hm, id⟩)
        (fun hf => ⟨hf, id⟩) ?_⟩
      simp [Watch.see, hrefused, hc]
    · rw [heq] at hrefused ⊢
      refine ⟨_, _, h.set_granted hk hg (q := { span with tagsDropped := span.tagsDropped + 1 }) rfl rfl (hused ▸ hle)
        (fun _ => rfl) rfl (fun hm => ⟨hm, id⟩) (fun hf => ⟨hf, id⟩) ?_⟩
      simp only [Watch.see, hrefused]
      simp [hc, hg]
      omega
    · rw [heq] at hrefused ⊢
      refine ⟨_, _, h.set_granted hk hg (q := { span with tagsPublished := span.tagsPublished + 1 }) rfl rfl
        (Nat.le_of_lt hroom) (fun hout => ?_) rfl (fun hm => ⟨hm, fun _ => hroom⟩) (fun hf => ⟨hf, fun _ => hroom⟩) ?_⟩
      · rw [hc] at hout
        cases hout
      · simp only [Watch.see, hrefused]
        simp [hc, hg]

theorem publishEoSTag (h : Sound w used dropped) (hs : w.port.step (.publishEoSTag k) = some q) :
    ∃ used' dropped', Sound (w.see q (.publishEoSTag k)) used' dropped' := by
  obtain ⟨span, hk, rfl⟩ := Option.map_eq_some_iff.mp hs
  obtain ⟨hrefused, hplaced⟩ := see_span w (span.publishEoSTag (w.port.spanSize span.tags)) hk
  cases hg : span.tags.isRefused with
  | true =>
    refine ⟨used, dropped, ?_⟩
    have hsame : (span.publishEoSTag (w.port.spanSize span.tags)).tags = span.tags ∧
        (span.publishEoSTag (w.port.spanSize span.tags)).isConnected = span.isConnected ∧
        (span.publishEoSTag (w.port.spanSize span.tags)).tagsPublished = span.tagsPublished := by
      rcases publishEoSTag_cases (w.port.spanSize span.tags) span with ⟨-, h⟩ | ⟨-, -, h⟩ | ⟨-, hroom, h⟩
      · rw [h]
        exact ⟨rfl, rfl, rfl⟩
      · rw [h]
        exact ⟨rfl, rfl, rfl⟩
      · rw [spanSize_refused hg] at hroom
        exact absurd hroom (Nat.not_lt_zero _)
    have := h.set_refused hk hg hsame.1 hsame.2.1
    simpa [Watch.see, hrefused, hplaced, hg, hsame.2.2] using this
  | false =>
    obtain ⟨-, -, hused, -, hle⟩ := h.spans.eq_of_granted hk hg
    rw [spanSize_granted hg] at hrefused hplaced ⊢
    rcases publishEoSTag_cases w.port.tagWriter.claimSize span with ⟨hc, heq⟩ | ⟨hc, hfull, heq⟩ | ⟨hc, hroom, heq⟩
    · rw [heq] at hrefused hplaced ⊢
      refine ⟨_, _, h.set_granted hk hg rfl rfl (hused ▸ hle) (fun _ => rfl) rfl (fun hm => ⟨?_, id⟩)
        (fun hf => ⟨?_, id⟩) ?_⟩
      · simpa [Watch.see, hplaced] using hm
      · simpa [Watch.see, hplaced] using hf
      · simp [Watch.see, hrefused, hc]
    · rw [heq] at hrefused hplaced ⊢
      refine ⟨_, _, h.set_granted hk hg (q := { span with tagsDropped := span.tagsDropped + 1 }) rfl rfl (hused ▸ hle)
        (fun _ => rfl) rfl (fun hm => ⟨?_, id⟩) (fun hf => ⟨?_, id⟩) ?_⟩
      · simpa [Watch.see, hplaced] using hm
      · simpa [Watch.see, hplaced] using hf
      · simp only [Watch.see, hrefused]
        simp [hc, hg]
        omega
    · -- the marker is placed: nothing is promised until the slowest reader advances
      rw [heq] at hrefused hplaced ⊢
      refine ⟨_, _, h.set_granted hk hg (q := { span with tagsPublished := span.tagsPublished + 1 }) rfl rfl hroom
        (fun hout => ?_) rfl (fun hm => ?_) (fun hf => ?_) ?_⟩
      · rw [hc] at hout
        cases hout
      · simp [Watch.see, hplaced] at hm
      · simp [Watch.see, hplaced] at hf
      · simp only [Watch.see, hrefused]
        simp [hc, hg]

/-! ### Releasing a span -/

theorem release (h : Sound w used dropped) (hok : ReleasedLast w (.release k))
    (hs : w.port.step (.release k) = some q) : ∃ used' dropped', Sound (w.see q (.release k)) used' dropped' := by
  obtain ⟨span, hk, rfl⟩ := Option.map_eq_some_iff.mp hs
  have hspans : w.port.spans ≠ [] := List.ne_nil_of_mem (List.mem_of_getElem? hk)
  obtain ⟨hlt, -⟩ := List.getElem?_eq_some_iff.mp hk
  have hcount := h.tagInstances
  have hstream := h.streamInstances
  cases hg : span.tags.isRefused with
  | true =>
    -- the span that holds the reservation is alive, too
    have hmore : w.port.streamInstanceCount ≠ 1 := by
      intro hone
      rw [hstream] at hone
      obtain rfl : k = 0 := by omega
      have hhead := h.spans
      generalize w.port.spans = spans, w.port.tagWriter.claimSize = claimed at hhead hk
      cases hhead with
      | none => simp at hk
      | held held _ _ =>
        cases hk
        rw [held] at hg
        cases hg
    rcases htags : span.tags with ⟨isRefused, policy⟩
    rw [htags] at hg
    obtain rfl : isRefused = true := hg
    simp only [Port.publishSpan, if_neg hmore, htags, releaseTags_refused, Watch.see]
    refine ⟨used, dropped, { h with
      spans := h.spans.eraseIdx hk (by rw [htags]), tagInstances := ?_, streamInstances := ?_, request := ?_,
      unread := ?_, fresh := ?_ }⟩
    · rw [List.length_eraseIdx_of_lt hlt]
      show w.port.tagWriter.instanceCount - 1 = _
      rw [hcount]
    · rw [List.length_eraseIdx_of_lt hlt]
      show w.port.streamInstanceCount - 1 = _
      rw [hstream]
    · exact fun _ => h.request hspans
    · intro hr
      obtain ⟨hused, hout⟩ := h.unread hr
      exact ⟨hused, fun other hother => hout other (List.mem_of_mem_eraseIdx hother)⟩
    · exact fun hfresh _ => h.fresh hfresh hspans
  | false =>
    obtain ⟨rfl, htags, hused, hdropped, hle⟩ := h.spans.eq_of_granted hk hg
    have hgranted : w.port.granted 0 = true := by simp [Port.granted, hk, hg]
    have hone : w.port.spans.length = 1 := hok hgranted
    have hnil : w.port.spans.eraseIdx 0 = [] := by
      rw [← List.length_eq_zero_iff, List.length_eraseIdx_of_lt hlt, hone]
    have hstream : w.port.streamInstanceCount = 1 := hstream.trans hone
    have hfits := h.fits
    have hoffset := h.offset
    have hrequest := h.request hspans
    rw [publishSpan_last htags hstream, htags,
      releaseTags_publish (p := { w.port with nTagsDropped := w.port.nTagsDropped + span.tagsDropped })
        (hcount.trans hone) hrequest (hused ▸ hle)]
    simp only [hnil, hstream, hused, hdropped, hoffset, Watch.see]
    refine ⟨0, 0, ?_⟩
    constructor
    case spans => exact .none
    case offset | reserved | tagInstances | streamInstances => rfl
    case size_pos => exact h.size_pos
    case claimSize_le => exact Nat.zero_le _
    case behind =>
      intro r hr
      have := h.behind r hr
      dsimp only
      omega
    case fits =>
      intro m hm
      have := hfits m hm
      dsimp only
      omega
    case request => exact fun hs => absurd rfl hs
    case unread =>
      intro hr
      refine ⟨rfl, ?_⟩
      intro span hspan
      cases hspan
    case free =>
      -- what the span did not use, or what lay behind it, is free again
      intro hmarked m hm
      have := hfits m hm
      have := h.free hmarked m hm
      dsimp only
      omega
    case fresh => exact fun _ hs => absurd rfl hs
    case counts =>
      have := h.counts
      dsimp only
      omega

/-! ### The port's own calls -/

/-- Where the port publishes itself: it has no reader, or no span is alive and the slots are free, or neither. -/
theorem publishReserved_cases (h : Sound w used dropped) (hn : 0 < n) (refuse : Port → Port) {d e : Nat}
    (hrefuse : ∀ q, refuse q =
      { q with nTagsDropped := q.nTagsDropped + d, nEoSTagsLost := q.nEoSTagsLost + e }) :
    (w.port.isConnected = false ∧ w.port.publishReserved n refuse = w.port) ∨
    (w.port.isConnected = true ∧ w.port.spans = [] ∧ n ≤ w.port.available ∧ w.port.publishReserved n refuse =
      { w.port with
        tagWriter := ⟨some 0, w.port.publishCursor + 1, 0, 0⟩
        publishCursor := w.port.publishCursor + 1
        reserveCursor := w.port.publishCursor + 1 }) ∨
    (w.port.isConnected = true ∧ (w.port.spans = [] → w.port.available < n) ∧ ∃ request,
      (w.port.spans ≠ [] → request = w.port.tagWriter.nRequestedSamplesToPublish) ∧
      w.port.publishReserved n refuse = { w.port with
        tagWriter := { w.port.tagWriter with nRequestedSamplesToPublish := request }
        nTagsDropped := w.port.nTagsDropped + d
        nEoSTagsLost := w.port.nEoSTagsLost + e }) := by
  cases hconnected : w.port.isConnected with
  | false => exact .inl ⟨rfl, by simp only [Port.publishReserved, hconnected, Bool.false_eq_true, if_false]⟩
  | true =>
    refine .inr ?_
    by_cases hs : w.port.spans = []
    · have hcount := h.instanceCount_of_idle hs
      obtain ⟨hclaim, -, -⟩ := h.of_idle hs
      have hreserved : w.port.reserveCursor = w.port.publishCursor := by rw [h.reserved, hclaim, Nat.add_zero]
      have hoffset := h.offset
      by_cases hfree : n ≤ w.port.available
      · refine .inl ⟨rfl, hs, hfree, ?_⟩
        simp only [Port.publishReserved, hconnected, if_true, claim_of_free hcount hn hfree, Port.spanSize,
          Bool.false_eq_true, if_false, ne_eq, Nat.pos_iff_ne_zero.mp hn, not_false_eq_true]
        rw [releaseTags_publish rfl rfl hn]
        simp only [hreserved]
      · refine .inr ⟨rfl, fun _ => Nat.lt_of_not_le hfree, some 0, fun h => absurd hs h, ?_⟩
        simp only [Port.publishReserved, hconnected, if_true, claim_of_full hcount (.inr (Nat.lt_of_not_le hfree)),
          Port.spanSize, Bool.false_eq_true, if_false, hclaim, ne_eq, not_true_eq_false, hrefuse]
        rw [releaseTags_unrequested rfl rfl]
        simp only [hreserved, hoffset, hcount]
    · refine .inr ⟨rfl, fun h => absurd h hs, _, fun _ => rfl, ?_⟩
      simp only [Port.publishReserved, hconnected, if_true, claim_of_live (h.instanceCount_of_live hs), Port.spanSize,
        ne_eq, not_true_eq_false, if_false, hrefuse, releaseTags_refused, Nat.add_sub_cancel]

/-- A tag of the port's own goes into the slot behind the publish cursor. -/
theorem placed (h : Sound w used dropped) (hs : w.port.spans = []) (hn : 0 < n) (hfree : n ≤ w.port.available)
    (hconnected : w.port.isConnected = true) (hport : w'.port = { w.port with
      tagWriter := ⟨some 0, w.port.publishCursor + 1, 0, 0⟩
      publishCursor := w.port.publishCursor + 1
      reserveCursor := w.port.publishCursor + 1 })
    (hmarked : w'.marked = false → 1 < n) (hcounts : w'.nRefused + w'.nRefusedMarkers = w.nRefused + w.nRefusedMarkers) :
    Sound w' 0 0 := by
  obtain ⟨-, -, hdropped⟩ := h.of_idle hs
  constructor <;> rw [hport]
  case spans =>
    rw [hs]
    exact .none
  case reserved => rfl
  case size_pos => exact h.size_pos
  case claimSize_le => exact Nat.zero_le _
  case behind => exact fun r hr => Nat.le_succ_of_le (h.behind r hr)
  case fits =>
    intro m hm
    have := h.available_idle hs hm
    dsimp only
    omega
  case tagInstances => exact (List.length_eq_zero_iff.mpr hs).symm
  case streamInstances => exact h.streamInstances
  case request => exact fun h => absurd hs h
  case unread =>
    intro hr
    rw [isConnected_of_none (p := w.port) hr] at hconnected
    cases hconnected
  case free =>
    intro hw m hm
    have := hmarked hw
    have := h.available_idle hs hm
    dsimp only
    omega
  case fresh => exact fun _ h => absurd hs h
  case counts =>
    have := h.counts
    dsimp only
    omega

theorem refused (h : Sound w used dropped) {request : Option Nat} {lost kept : Nat}
    (hrequest : w.port.spans ≠ [] → request = w.port.tagWriter.nRequestedSamplesToPublish)
    (hport : w'.port = { w.port with
      tagWriter := { w.port.tagWriter with nRequestedSamplesToPublish := request }
      nTagsDropped := w.port.nTagsDropped + kept
      nEoSTagsLost := w.port.nEoSTagsLost + lost })
    (hmarked : w'.marked = w.marked) (hfresh : w'.fresh = w.fresh)
    (hcounts : w'.nRefused + w'.nRefusedMarkers = w.nRefused + w.nRefusedMarkers + kept) : Sound w' used dropped := by
  constructor <;> rw [hport]
  case spans => exact h.spans
  case offset => exact h.offset
  case reserved => exact h.reserved
  case size_pos => exact h.size_pos
  case claimSize_le => exact h.claimSize_le
  case behind => exact h.behind
  case fits => exact h.fits
  case tagInstances => exact h.tagInstances
  case streamInstances => exact h.streamInstances
  case request => exact fun hs => (hrequest hs).trans (h.request hs)
  case unread => exact h.unread
  case free => exact fun hm => h.free (hmarked ▸ hm)
  case fresh => exact fun hf => h.fresh (hfresh ▸ hf)
  case counts =>
    have := h.counts
    dsimp only
    omega

theorem portPublishTag (h : Sound w used dropped) :
    ∃ used' dropped', Sound (w.see w.port.publishTag .portPublishTag) used' dropped' := by
  have hcases := h.publishReserved_cases (n := 2) (d := 1) (e := 0) (by decide) Port.countDropped
    fun _ => rfl
  rw [Port.publishTag]
  rcases hcases with ⟨hc, heq⟩ | ⟨hc, hs, hfree, heq⟩ | ⟨hc, -, request, hrequest, heq⟩
  · rw [heq]
    refine ⟨used, dropped, ?_⟩
    simpa [Watch.see, hc] using h
  · rw [heq]
    exact ⟨0, 0, h.placed hs (by decide) hfree hc rfl (fun _ => by decide) (by simp [Watch.see])⟩
  · rw [heq]
    exact ⟨used, dropped, h.refused hrequest rfl rfl rfl (by simp [Watch.see, hc]; omega)⟩

theorem portPublishEoSTag (h : Sound w used dropped) :
    ∃ used' dropped', Sound (w.see w.port.publishEoSTag .portPublishEoSTag) used' dropped' := by
  have hcases := h.publishReserved_cases (n := 1) (d := 0) (e := 1) (by decide) Port.countLost
    fun _ => rfl
  rw [Port.publishEoSTag]
  rcases hcases with ⟨-, heq⟩ | ⟨hc, hs, hfree, heq⟩ | ⟨-, -, request, hrequest, heq⟩
  · rw [heq]
    refine ⟨used, dropped, ?_⟩
    simpa [Watch.see] using h
  · rw [heq]
    refine ⟨0, 0, h.placed hs (by decide) hfree hc rfl (fun hm => ?_) rfl⟩
    simp [Watch.see] at hm
  · rw [heq]
    exact ⟨used, dropped, h.refused hrequest rfl (by simp [Watch.see]) rfl rfl⟩

/-! ### Readers -/

theorem attach (h : Sound w used dropped) : Sound (w.see w.port.attach .attach) used dropped := by
  have hmin : ∀ m, (w.port.readers ++ [w.port.publishCursor]).min? = some m →
      w.port.readers.min? = some m ∨ w.port.readers = [] ∧ m = w.port.publishCursor := by
    intro m hm
    cases hr : w.port.readers.min? with
    | none =>
      have hnil := List.min?_eq_none_iff.mp hr
      rw [hnil] at hm
      exact .inr ⟨hnil, (Option.some.inj hm).symm⟩
    | some m' =>
      have hleast : (w.port.readers ++ [w.port.publishCursor]).min? = some m' := by
        refine List.min?_eq_some_iff.mpr ⟨List.mem_append_left _ (List.min?_mem hr), ?_⟩
        intro r hmem
        rcases List.mem_append.mp hmem with hmem | hmem
        · exact (List.min?_eq_some_iff.mp hr).2 r hmem
        · rw [List.mem_singleton.mp hmem]
          exact h.le_publish hr
      exact .inl (hleast.symm.trans hm)
  refine { h with behind := ?behind, fits := ?fits, unread := ?unread, free := ?free }
  case behind =>
    intro r hr
    rcases List.mem_append.mp hr with hr | hr
    · exact h.behind r hr
    · rw [List.mem_singleton.mp hr]
      exact Nat.le_refl _
  case fits =>
    intro m hm
    rcases hmin m hm with hm | ⟨-, rfl⟩
    · exact h.fits m hm
    · exact Nat.add_le_add_left h.claimSize_le _
  case unread => exact fun hr => absurd hr (by simp [Watch.see, Port.attach])
  case free =>
    intro hmarked m hm
    rcases hmin m hm with hm | ⟨hr, rfl⟩
    · exact h.free hmarked m hm
    · obtain ⟨hused, -⟩ := h.unread hr
      have := h.size_pos
      simp only [Watch.see, Port.attach]
      omega

theorem consume {r : Nat} (h : Sound w used dropped) (hs : w.port.step (.consume r n) = some q) :
    Sound (w.see q (.consume r n)) used dropped := by
  obtain ⟨position, hr, hs⟩ := Option.bind_eq_some_iff.mp hs
  split at hs
  case isFalse => cases hs
  case isTrue hle =>
    cases hs
    have hbehind : ∀ x ∈ w.port.readers.set r (position + n), x ≤ w.port.publishCursor := by
      intro x hx
      rcases List.mem_or_eq_of_mem_set hx with hx | rfl
      · exact h.behind x hx
      · exact hle
    -- the slowest reader does not fall back
    have hmin : ∀ m', (w.port.readers.set r (position + n)).min? = some m' →
        ∃ m, w.port.readers.min? = some m ∧ m ≤ m' := by
      intro m' hm'
      obtain ⟨m, hm⟩ := Option.isSome_iff_exists.mp
        (List.isSome_min?_of_mem (List.mem_of_getElem? hr))
      obtain ⟨-, hleast⟩ := List.min?_eq_some_iff.mp hm
      refine ⟨m, hm, ?_⟩
      rcases List.mem_or_eq_of_mem_set (List.min?_mem hm') with hx | rfl
      · exact hleast _ hx
      · exact Nat.le_add_right_of_le (hleast _ (List.mem_of_getElem? hr))
    refine { h with behind := hbehind, fits := ?fits, unread := ?unread, free := ?free }
    case fits =>
      intro m' hm'
      obtain ⟨m, hm, hmm'⟩ := hmin m' hm'
      have := h.fits m hm
      simp only [Watch.see]
      omega
    case unread =>
      intro hnil
      exact h.unread (by simpa [Watch.see] using hnil)
    case free =>
      intro hmarked m' hm'
      obtain ⟨m, hm, hmm'⟩ := hmin m' hm'
      simp only [Watch.see] at hmarked hm' ⊢
      rw [hm, hm'] at hmarked
      have hfits := h.fits m hm
      by_cases hsame : m = m'
      · subst hsame
        exact h.free (by simpa using hmarked) m hm
      · right
        omega

end Sound

/-! ### Runs -/

theorem Sound.step {used dropped : Nat} (h : Sound w used dropped) (hok : ReleasedLast w a)
    (hs : (watched n).step w a = some w') : ∃ used' dropped', Sound w' used' dropped' := by
  obtain ⟨q, hq, rfl⟩ := Option.map_eq_some_iff.mp hs
  cases a with
  | reserve =>
    cases hq
    exact h.reserve
  | publishTag k => exact h.publishTag hq
  | publishEoSTag k => exact h.publishEoSTag hq
  | release k => exact h.release hok hq
  | portPublishTag =>
    cases hq
    exact h.portPublishTag
  | portPublishEoSTag =>
    cases hq
    exact h.portPublishEoSTag
  | attach =>
    cases hq
    exact ⟨used, dropped, h.attach⟩
  | consume r n => exact ⟨used, dropped, h.consume hq⟩

theorem sound_new (streamBufferSize : Nat) : Sound (.new streamBufferSize) 0 0 where
  spans := .none
  offset := rfl
  reserved := rfl
  size_pos := Nat.succ_pos _
  claimSize_le := Nat.zero_le _
  behind := by simp [Watch.new, Port.new]
  fits := by simp [Watch.new, Port.new]
  tagInstances := rfl
  streamInstances := rfl
  request := fun h => absurd rfl h
  unread := fun _ => ⟨rfl, by simp [Watch.new, Port.new]⟩
  free := by simp [Watch.new, Port.new]
  fresh := nofun
  counts := rfl

theorem sound (h : (watched n).Reach ReleasedLast w) : ∃ used dropped, Sound w used dropped :=
  h.invariant (I := fun w => ∃ used dropped, Sound w used dropped) (fun _ hs => ⟨0, 0, hs ▸ sound_new n⟩)
    fun _ _ _ ⟨_, _, h⟩ hok hs => h.step hok hs

theorem Sound.pendingDrops {used dropped : Nat} (h : Sound w used dropped) : w.port.pendingDrops = dropped := by
  have hspans := h.spans
  unfold Port.pendingDrops
  generalize w.port.spans = spans, w.port.tagWriter.claimSize = claimed at hspans
  cases hspans with
  | none => rfl
  | held held refused _ =>
    have hrest := List.filter_eq_nil_iff (p := fun span : OutputSpan => !span.tags.isRefused).mpr
      fun other hother => by simpa using refused other hother
    simp [held, hrest]

/-- While no marker has been published since the slowest reader last advanced, the port's own call finds a slot. A span
    reserved at such a time, and without a marker of its own, has room for one. The counters hold the tags refused. -/
theorem markerSlot_free (streamBufferSize : Nat) (h : (watched streamBufferSize).Reach ReleasedLast w) :
    (w.marked = false → w.port.spans = [] →
      0 < w.port.available ∧ w.port.publishEoSTag.nEoSTagsLost = w.port.nEoSTagsLost) ∧
    (w.fresh = true → ∀ span ∈ w.port.spans, span.tags.isRefused = false →
      span.tagsPublished < w.port.spanSize span.tags ∧
      (span.publishEoSTag (w.port.spanSize span.tags)).tagsDropped = span.tagsDropped) ∧
    (w.nRefusedMarkers = 0 → w.port.nTagsDropped + w.port.pendingDrops = w.nRefused) := by
  obtain ⟨used, dropped, h⟩ := sound h
  refine ⟨?_, ?_, ?_⟩
  · intro hmarked hs
    have hfree := h.available_pos hs hmarked
    refine ⟨hfree, ?_⟩
    have hcases := h.publishReserved_cases (n := 1) (d := 0) (e := 1) (by decide) Port.countLost
      fun _ => rfl
    rw [Port.publishEoSTag]
    rcases hcases with ⟨-, heq⟩ | ⟨-, -, -, heq⟩ | ⟨-, hfull, -⟩
    · rw [heq]
    · rw [heq]
    · have := hfull hs
      omega
  · intro hfresh span hspan hg
    obtain ⟨k, hk⟩ := List.getElem?_of_mem hspan
    obtain ⟨-, -, hused, -, -⟩ := h.spans.eq_of_granted hk hg
    have hroom : span.tagsPublished < w.port.spanSize span.tags := by
      rw [spanSize_granted hg, hused]
      exact h.fresh hfresh (List.ne_nil_of_mem hspan)
    refine ⟨hroom, ?_⟩
    rcases publishEoSTag_cases (w.port.spanSize span.tags) span with ⟨-, heq⟩ | ⟨-, hfull, -⟩ | ⟨-, -, heq⟩
    · rw [heq]
    · exact absurd hfull (Nat.not_le.mpr hroom)
    · rw [heq]
  · intro hmarkers
    have hcounts := h.counts
    rw [hmarkers] at hcounts
    rw [h.pendingDrops]
    exact hcounts

/-- A reader, a span with room for one tag beside the marker, and two tags for it. -/
def flood : List Act := [.attach, .reserve, .publishTag 0, .publishTag 0]

def afterFlood : Watch := ((watched 1).run (.new 1) flood).get (by decide)

theorem markerSlot_free_flood :
    (∀ span ∈ afterFlood.port.spans, span.tagsPublished < afterFlood.port.spanSize span.tags) ∧
    afterFlood.port.nTagsDropped + afterFlood.port.pendingDrops = 1 := by
  obtain ⟨-, hspans, hcounts⟩ := markerSlot_free 1 ((watched 1).reach_get flood rfl (by decide) (by decide))
  refine ⟨?_, hcounts (by decide)⟩
  intro span hspan
  have hheld : ∀ span ∈ afterFlood.port.spans, span.tags.isRefused = false := by decide
  exact (hspans (by decide) span hspan (hheld span hspan)).1

/-- The marker lies before the slower of two readers, and the other one reads a tag. -/
def twoReaders : List Act := [.attach, .attach, .portPublishTag, .portPublishEoSTag]

/-- The marker goes into a span, and the reader reads a tag published before. -/
def markerInSpan : List Act := [.attach, .portPublishTag, .reserve, .publishEoSTag 0]

/-- A reader has just advanced, and there is no room for a marker. A span with room is alive, and the port's own marker
    is lost. -/
theorem markerSlot_taken :
    (∃ w w', (watched 1).Reachable w ∧ (watched 1).step w (.consume 0 1) = some w' ∧ w'.port.spans = [] ∧
      w'.port.available = 0 ∧ w'.port.publishEoSTag.nEoSTagsLost = 1) ∧
    (∃ w w', (watched 1).Reachable w ∧ (watched 1).step w (.consume 0 1) = some w' ∧ ∃ span ∈ w'.port.spans,
      span.tags.isRefused = false ∧ span.tagsPublished = w'.port.spanSize span.tags) ∧
    (∃ w, (watched 1).Reachable w ∧ w.marked = false ∧ (∃ span ∈ w.port.spans, span.tags.isRefused = false ∧
      span.tagsPublished < w.port.spanSize span.tags) ∧ w.port.publishEoSTag.nEoSTagsLost = 1) := by
  refine ⟨?_, ?_, ?_⟩
  · refine ⟨_, _, (watched 1).reachable_get twoReaders rfl (by decide), rfl, ?_⟩
    decide
  · refine ⟨_, _, (watched 1).reachable_get markerInSpan rfl (by decide), rfl, ?_⟩
    decide
  · refine ⟨_, (watched 1).reachable_get [.attach, .reserve] rfl (by decide), ?_⟩
    decide

end GnuRadio.OutputPort
