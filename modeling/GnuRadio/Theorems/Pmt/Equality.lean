import GnuRadio.Pmt.Value
import Mathlib.Data.List.Nodup
import Mathlib.Data.List.Perm.Subperm

/-! Equality of values is an equivalence, and equal values have equal hashes. Two maps are equal if one has the entries of
    the other in some order, and the hash of a map adds up what it makes of each entry. -/

namespace GnuRadio.Pmt

open Yaml (Bytes FloatType IntType)

/-! ### Lists -/

theorem isEqv_iff {α : Type} {r : α → α → Bool} {xs ys : List α} :
    xs.isEqv ys r = true ↔ List.Forall₂ (fun x y => r x y = true) xs ys := by
  induction xs generalizing ys with
  | nil => cases ys <;> simp [List.isEqv]
  | cons x xs ih =>
    cases ys with
    | nil => simp [List.isEqv]
    | cons y ys => rw [List.isEqv, Bool.and_eq_true, List.forall₂_cons, ih]

/-- What holds of related elements holds of lists of them. -/
theorem forall₂_of_mem {α β : Type} {r t : α → β → Prop} {xs : List α} {ys : List β} (h : List.Forall₂ r xs ys)
    (hrt : ∀ x ∈ xs, ∀ y ∈ ys, r x y → t x y) : List.Forall₂ t xs ys := by
  induction h with
  | nil => exact .nil
  | cons hxy _ ih =>
    refine .cons (hrt _ (.head _) _ (.head _) hxy) (ih fun x hx y hy => ?_)
    exact hrt x (.tail _ hx) y (.tail _ hy)

theorem exists_of_forall₂ {α β : Type} {r : α → β → Prop} {xs : List α} {ys : List β} (h : List.Forall₂ r xs ys) {y : β}
    (hy : y ∈ ys) : ∃ x ∈ xs, r x y := by
  induction h with
  | nil => cases hy
  | cons hxy _ ih =>
    rcases List.mem_cons.mp hy with rfl | hy
    · exact ⟨_, .head _, hxy⟩
    · obtain ⟨x, hx, hxy⟩ := ih hy
      exact ⟨x, .tail _ hx, hxy⟩

theorem forall₂_trans {α β γ : Type} {r : α → β → Prop} {t : β → γ → Prop} {u : α → γ → Prop} {xs : List α}
    {ys : List β} {zs : List γ} (h : List.Forall₂ r xs ys) (h' : List.Forall₂ t ys zs)
    (htrans : ∀ x ∈ xs, ∀ y z, r x y → t y z → u x z) : List.Forall₂ u xs zs := by
  induction h generalizing zs with
  | nil =>
    cases h'
    exact .nil
  | cons hxy _ ih =>
    cases h' with
    | cons hyz h' =>
      exact .cons (htrans _ (.head _) _ _ hxy hyz) (ih h' fun x hx => htrans x (.tail _ hx))

section
variable {κ β : Type} [BEq κ] [LawfulBEq κ] {entries entries' : List (κ × β)} {k : κ} {v : β}

/-- With one entry for a key, a lookup finds it. -/
theorem lookup_eq_some_iff (hn : (entries.map Prod.fst).Nodup) : entries.lookup k = some v ↔ (k, v) ∈ entries := by
  induction entries with
  | nil => simp
  | cons e entries ih =>
    obtain ⟨k', v'⟩ := e
    obtain ⟨hfresh, hn⟩ := List.nodup_cons.mp hn
    rw [List.lookup_cons, List.mem_cons]
    by_cases hk : k = k'
    · subst hk
      simp only [beq_self_eq_true, Option.some.injEq, Prod.mk.injEq, true_and]
      constructor
      · rintro rfl
        exact .inl rfl
      · rintro (rfl | hmem)
        · rfl
        · exact absurd (List.mem_map_of_mem (f := Prod.fst) hmem) hfresh
    · simp only [beq_false_of_ne hk, Prod.mk.injEq, hk, false_and, false_or]
      exact ih hn

theorem mem_of_lookup (h : entries.lookup k = some v) : (k, v) ∈ entries := by
  obtain ⟨l₁, l₂, rfl, -⟩ := List.lookup_eq_some_iff.mp h
  exact List.mem_append_right l₁ (.head _)

/-- As many entries, each with its own key, are all the entries. -/
theorem perm_of_lookup (hn : (entries.map Prod.fst).Nodup) (hn' : (entries'.map Prod.fst).Nodup)
    (hlen : entries.length = entries'.length) (f : κ × β → β)
    (hf : ∀ e ∈ entries, entries'.lookup e.1 = some (f e)) : (entries.map fun e => (e.1, f e)).Perm entries' := by
  have hkeys : ((entries.map fun e => (e.1, f e)).map Prod.fst).Nodup := by
    rw [List.map_map]
    exact hn
  have hsub : entries.map (fun e => (e.1, f e)) ⊆ entries' := by
    intro e he
    obtain ⟨e', he', rfl⟩ := List.mem_map.mp he
    exact (lookup_eq_some_iff hn').mp (hf e' he')
  refine ((List.Nodup.of_map _ hkeys).subperm hsub).perm_of_length_le ?_
  rw [List.length_map, hlen]

end

/-! ### Scalars -/

variable {std : StdHash}

theorem FloatNumber.equal_self {x : FloatNumber} (h : x ≠ .nan) : x.equal x = true := by
  rw [FloatNumber.equal_iff]
  cases x with
  | nan => exact absurd rfl h
  | zero | nonzero | infinite => exact ⟨_, rfl, rfl⟩

theorem FloatNumber.equal_trans {x y z : FloatNumber} (hxy : x.equal y = true) (hyz : y.equal z = true) :
    x.equal z = true := by
  obtain ⟨k, hx, hy⟩ := FloatNumber.equal_iff.mp hxy
  obtain ⟨l, hy', hz⟩ := FloatNumber.equal_iff.mp hyz
  cases hy.symm.trans hy'
  exact FloatNumber.equal_iff.mpr ⟨k, hx, hz⟩

theorem FloatNumber.hash_eq {x y : FloatNumber} (h : x.equal y = true) (t : FloatType) :
    std.floating t x = std.floating t y := by
  obtain ⟨k, hx, hy⟩ := FloatNumber.equal_iff.mp h
  exact std.floating_congr t x y (hx.trans hy.symm)

namespace Scalar

variable {x y z : Scalar}

theorem equal_self (h : x.NaNFree) : x.equal x = true := by
  cases x with
  | bool | integer | string => simp [Scalar.equal]
  | floating t x => simp [Scalar.equal, FloatNumber.equal_self h]
  | complex t re im => simp [Scalar.equal, FloatNumber.equal_self h.1, FloatNumber.equal_self h.2]

theorem equal_trans (hxy : x.equal y = true) (hyz : y.equal z = true) : x.equal z = true := by
  cases x <;> cases y <;> simp only [Scalar.equal, Bool.and_eq_true, beq_iff_eq, Bool.false_eq_true] at hxy <;>
    cases z <;> simp only [Scalar.equal, Bool.and_eq_true, beq_iff_eq, Bool.false_eq_true] at hyz ⊢
  case bool.bool.bool | string.string.string => exact hxy.trans hyz
  case integer.integer.integer => exact ⟨hxy.1.trans hyz.1, hxy.2.trans hyz.2⟩
  case floating.floating.floating => exact ⟨hxy.1.trans hyz.1, FloatNumber.equal_trans hxy.2 hyz.2⟩
  case complex.complex.complex =>
    exact ⟨⟨hxy.1.1.trans hyz.1.1, FloatNumber.equal_trans hxy.1.2 hyz.1.2⟩, FloatNumber.equal_trans hxy.2 hyz.2⟩

theorem hash_eq (h : x.equal y = true) : x.hash std = y.hash std := by
  cases x <;> cases y <;> simp only [Scalar.equal, Bool.and_eq_true, beq_iff_eq, Bool.false_eq_true] at h
  case bool.bool => rw [h]
  case integer.integer => rw [h.1, h.2]
  case floating.floating => rw [h.1, Scalar.hash, Scalar.hash, FloatNumber.hash_eq h.2]
  case complex.complex =>
    rw [h.1.1, Scalar.hash, Scalar.hash, FloatNumber.hash_eq h.1.2, FloatNumber.hash_eq h.2]
  case string.string => rw [h]

end Scalar

namespace Value

/-! ### Nesting -/

/-- To show something of every value, show it of one whose parts have it. -/
theorem induct {motive : Value → Prop} (monostate : motive .monostate) (scalar : ∀ x, motive (.scalar x))
    (tensor : ∀ t extents elements, motive (.tensor t extents elements))
    (tensorOfValues : ∀ extents elements, (∀ v ∈ elements, motive v) → motive (.tensorOfValues extents elements))
    (map : ∀ entries, (∀ e ∈ entries, motive e.2) → motive (.map entries)) (v : Value) : motive v := by
  refine @Value.rec motive (fun vs => ∀ v ∈ vs, motive v) (fun es => ∀ e ∈ es, motive e.2) (fun e => motive e.2)
    monostate scalar tensor tensorOfValues map ?_ ?_ ?_ ?_ ?_ v
  · exact fun v hv => nomatch hv
  · intro v vs hv hvs u hu
    rcases List.mem_cons.mp hu with rfl | hu
    · exact hv
    · exact hvs u hu
  · exact fun e he => nomatch he
  · intro e es he hes f hf
    rcases List.mem_cons.mp hf with rfl | hf
    · exact he
    · exact hes f hf
  · exact fun _ _ hv => hv

variable {a b c : Value} {elements elements' : List Value} {entries entries' : List (Bytes × Value)}

/-! ### What equals a value -/

theorem sameTags_of_scalar_equal {x y : Scalar} (h : x.equal y = true) : sameTags (.scalar x) (.scalar y) = true := by
  cases x <;> cases y <;> simp only [Scalar.equal, Bool.and_eq_true, beq_iff_eq, Bool.false_eq_true] at h
  case bool.bool => rfl
  case integer.integer => exact sameTags_iff.mpr ⟨congrArg ValueType.integer h.1, rfl⟩
  case floating.floating => exact sameTags_iff.mpr ⟨congrArg ValueType.floating h.1, rfl⟩
  case complex.complex => exact sameTags_iff.mpr ⟨congrArg ValueType.complex h.1.1, rfl⟩
  case string.string => rfl

theorem equal_scalar_iff {x : Scalar} : equal (.scalar x) b = true ↔ ∃ y, b = .scalar y ∧ x.equal y = true := by
  constructor
  · intro h
    cases b with
    | scalar y =>
      simp only [equal, Bool.and_eq_true] at h
      exact ⟨y, rfl, h.2⟩
    | monostate | tensor | tensorOfValues | map => simp [equal] at h
  · rintro ⟨y, rfl, h⟩
    simp only [equal, Bool.and_eq_true]
    exact ⟨sameTags_of_scalar_equal h, h⟩

theorem equal_tensor_iff {t : ValueType} {extents : List Nat} {xs : List Scalar} :
    equal (.tensor t extents xs) b = true ↔
      ∃ ys, b = .tensor t extents ys ∧ List.Forall₂ (fun x y => x.equal y = true) xs ys := by
  constructor
  · intro h
    cases b with
    | tensor t' extents' ys =>
      simp only [equal, Bool.and_eq_true, beq_iff_eq, sameTags_iff] at h
      obtain ⟨⟨htype, -⟩, rfl, helements⟩ := h
      obtain rfl : t = t' := htype
      exact ⟨ys, rfl, isEqv_iff.mp helements⟩
    | monostate | scalar | tensorOfValues | map => simp [equal] at h
  · rintro ⟨ys, rfl, h⟩
    simp only [equal, Bool.and_eq_true, beq_iff_eq, sameTags_iff]
    exact ⟨⟨rfl, rfl⟩, trivial, isEqv_iff.mpr h⟩

theorem equal_tensorOfValues_iff {extents : List Nat} :
    equal (.tensorOfValues extents elements) b = true ↔
      ∃ ws, b = .tensorOfValues extents ws ∧ List.Forall₂ (fun v w => equal v w = true) elements ws := by
  constructor
  · intro h
    cases b with
    | tensorOfValues extents' ws =>
      simp only [equal, Bool.and_eq_true, beq_iff_eq] at h
      obtain ⟨-, rfl, helements⟩ := h
      exact ⟨ws, rfl, equalElements_iff.mp helements⟩
    | monostate | scalar | tensor | map => simp [equal] at h
  · rintro ⟨ws, rfl, h⟩
    simp only [equal, Bool.and_eq_true, beq_iff_eq, sameTags_iff]
    exact ⟨⟨rfl, rfl⟩, trivial, equalElements_iff.mpr h⟩

theorem equal_map_iff :
    equal (.map entries) b = true ↔ ∃ es, b = .map es ∧ entries.length = es.length ∧
      ∀ e ∈ entries, ∃ w, es.lookup e.1 = some w ∧ equal e.2 w = true := by
  constructor
  · intro h
    cases b with
    | map es =>
      simp only [equal, Bool.and_eq_true, beq_iff_eq] at h
      exact ⟨es, rfl, h.2.1, equalEntries_iff.mp h.2.2⟩
    | monostate | scalar | tensor | tensorOfValues => simp [equal] at h
  · rintro ⟨es, rfl, hlen, h⟩
    simp only [equal, Bool.and_eq_true, beq_iff_eq, sameTags_iff]
    exact ⟨⟨rfl, rfl⟩, hlen, equalEntries_iff.mpr h⟩

theorem sameTags_of_equal (h : equal a b = true) : sameTags a b = true := by
  cases a <;> simp only [equal, Bool.and_eq_true] at h
  case monostate => exact h
  all_goals exact h.1

/-- The entries of a map are those of an equal one, in some order. -/
theorem exists_perm (hn : (entries.map Prod.fst).Nodup) (hn' : (entries'.map Prod.fst).Nodup)
    (hlen : entries.length = entries'.length)
    (h : ∀ e ∈ entries, ∃ w, entries'.lookup e.1 = some w ∧ equal e.2 w = true) :
    ∃ es, es.Perm entries' ∧ List.Forall₂ (fun e f : Bytes × Value => e.1 = f.1 ∧ equal e.2 f.2 = true) entries es := by
  have hfound (e : Bytes × Value) (he : e ∈ entries) :
      entries'.lookup e.1 = some ((entries'.lookup e.1).getD .monostate) ∧
        equal e.2 ((entries'.lookup e.1).getD .monostate) = true := by
    obtain ⟨w, hw, heq⟩ := h e he
    rw [hw]
    exact ⟨rfl, heq⟩
  refine ⟨_, perm_of_lookup hn hn' hlen (fun e => (entries'.lookup e.1).getD .monostate) fun e he => (hfound e he).1, ?_⟩
  rw [List.forall₂_map_right_iff, List.forall₂_same]
  exact fun e he => ⟨rfl, (hfound e he).2⟩

/-! ### Equality -/

theorem equal_self (h : a.Proper) : equal a a = true := by
  obtain ⟨hwell, hnan⟩ := h
  induction a using induct with
  | monostate => exact equal_monostate_iff.mpr rfl
  | scalar x => exact equal_scalar_iff.mpr ⟨x, rfl, Scalar.equal_self hnan⟩
  | tensor t extents xs =>
    exact equal_tensor_iff.mpr ⟨xs, rfl, List.forall₂_same.mpr fun x hx => Scalar.equal_self (hnan x hx)⟩
  | tensorOfValues extents vs ih =>
    refine equal_tensorOfValues_iff.mpr ⟨vs, rfl, List.forall₂_same.mpr fun v hv => ?_⟩
    exact ih v hv (wellFormedElements_iff.mp hwell v hv) (nanFreeElements_iff.mp hnan v hv)
  | map es ih =>
    obtain ⟨hn, hwell⟩ := hwell
    refine equal_map_iff.mpr ⟨es, rfl, rfl, fun e he => ⟨e.2, (lookup_eq_some_iff hn).mpr he, ?_⟩⟩
    exact ih e he (wellFormedEntries_iff.mp hwell e he) (nanFreeEntries_iff.mp hnan e he)

theorem equal_symm (ha : a.WellFormed) (hb : b.WellFormed) (h : equal a b = true) : equal b a = true := by
  induction a using induct generalizing b with
  | monostate =>
    obtain rfl := equal_monostate_iff.mp h
    exact h
  | scalar x =>
    obtain ⟨y, rfl, hxy⟩ := equal_scalar_iff.mp h
    exact equal_scalar_iff.mpr ⟨x, rfl, Scalar.equal_symm hxy⟩
  | tensor t extents xs =>
    obtain ⟨ys, rfl, hxy⟩ := equal_tensor_iff.mp h
    exact equal_tensor_iff.mpr ⟨xs, rfl, (hxy.imp fun _ _ hxy => Scalar.equal_symm hxy).flip⟩
  | tensorOfValues extents vs ih =>
    obtain ⟨ws, rfl, hvw⟩ := equal_tensorOfValues_iff.mp h
    have hvs := wellFormedElements_iff.mp ha
    have hws := wellFormedElements_iff.mp hb
    refine equal_tensorOfValues_iff.mpr ⟨vs, rfl, List.Forall₂.flip (forall₂_of_mem hvw fun v hv w hw hvw => ?_)⟩
    exact ih v hv (hvs v hv) (hws w hw) hvw
  | map es ih =>
    obtain ⟨fs, rfl, hlen, hfound⟩ := equal_map_iff.mp h
    obtain ⟨hn, hwell⟩ := ha
    obtain ⟨hn', hwell'⟩ := hb
    obtain ⟨fs', hperm, hpairs⟩ := exists_perm hn hn' hlen hfound
    refine equal_map_iff.mpr ⟨es, rfl, hlen.symm, fun f hf => ?_⟩
    -- the entry is paired with one of the same key
    obtain ⟨e, he, hkey, heq⟩ := exists_of_forall₂ hpairs (hperm.mem_iff.mpr hf)
    have hmem : (f.1, e.2) ∈ es := by
      rw [← hkey]
      exact he
    refine ⟨e.2, (lookup_eq_some_iff hn).mpr hmem, ?_⟩
    exact ih e he (wellFormedEntries_iff.mp hwell e he) (wellFormedEntries_iff.mp hwell' f hf) heq

theorem equal_trans (hab : equal a b = true) (hbc : equal b c = true) : equal a c = true := by
  induction a using induct generalizing b c with
  | monostate =>
    obtain rfl := equal_monostate_iff.mp hab
    exact hbc
  | scalar x =>
    obtain ⟨y, rfl, hxy⟩ := equal_scalar_iff.mp hab
    obtain ⟨z, rfl, hyz⟩ := equal_scalar_iff.mp hbc
    exact equal_scalar_iff.mpr ⟨z, rfl, Scalar.equal_trans hxy hyz⟩
  | tensor t extents xs =>
    obtain ⟨ys, rfl, hxy⟩ := equal_tensor_iff.mp hab
    obtain ⟨zs, rfl, hyz⟩ := equal_tensor_iff.mp hbc
    refine equal_tensor_iff.mpr ⟨zs, rfl, ?_⟩
    exact forall₂_trans hxy hyz fun _ _ _ _ hxy hyz => Scalar.equal_trans hxy hyz
  | tensorOfValues extents vs ih =>
    obtain ⟨ws, rfl, hvw⟩ := equal_tensorOfValues_iff.mp hab
    obtain ⟨us, rfl, hwu⟩ := equal_tensorOfValues_iff.mp hbc
    exact equal_tensorOfValues_iff.mpr ⟨us, rfl, forall₂_trans hvw hwu fun v hv _ _ hvw hwu => ih v hv hvw hwu⟩
  | map es ih =>
    obtain ⟨fs, rfl, hlen, hfound⟩ := equal_map_iff.mp hab
    obtain ⟨gs, rfl, hlen', hfound'⟩ := equal_map_iff.mp hbc
    refine equal_map_iff.mpr ⟨gs, rfl, hlen.trans hlen', fun e he => ?_⟩
    obtain ⟨w, hw, heq⟩ := hfound e he
    obtain ⟨u, hu, heq'⟩ := hfound' (e.1, w) (mem_of_lookup hw)
    exact ⟨u, hu, ih e he heq heq'⟩

/-! ### Hashes -/

theorem foldl_congr_of_forall₂ {α β : Type} {f : α → β → α} {xs ys : List β}
    (h : List.Forall₂ (fun x y => ∀ seed, f seed x = f seed y) xs ys) (seed : α) :
    xs.foldl f seed = ys.foldl f seed := by
  induction h generalizing seed with
  | nil => rfl
  | cons hxy _ ih => rw [List.foldl_cons, List.foldl_cons, hxy, ih]

theorem hashTags_eq (h : equal a b = true) : hashTags std a = hashTags std b := by
  obtain ⟨hvalue, hcontainer⟩ := sameTags_iff.mp (sameTags_of_equal h)
  rw [hashTags, hashTags, hvalue, hcontainer]

/-- Equal values have equal hashes. In a map the order of the entries does not count. -/
theorem hash_eq (ha : a.WellFormed) (hb : b.WellFormed) (h : equal a b = true) : hash std a = hash std b := by
  have htags : hashTags std a = hashTags std b := hashTags_eq h
  induction a using induct generalizing b with
  | monostate =>
    obtain rfl := equal_monostate_iff.mp h
    rfl
  | scalar x =>
    obtain ⟨y, rfl, hxy⟩ := equal_scalar_iff.mp h
    rw [hash, hash, htags, Scalar.hash_eq hxy]
  | tensor t extents xs =>
    obtain ⟨ys, rfl, hxy⟩ := equal_tensor_iff.mp h
    have hlen := hxy.length_eq
    have hfold (seed : UInt64) : xs.foldl (fun seed x => hashCombine seed (x.hash std)) seed =
        ys.foldl (fun seed x => hashCombine seed (x.hash std)) seed :=
      foldl_congr_of_forall₂ (hxy.imp fun _ _ hxy seed => by rw [Scalar.hash_eq hxy]) seed
    simp only [hash, htags, hashTensor, hlen, hfold]
  | tensorOfValues extents vs ih =>
    obtain ⟨ws, rfl, hvw⟩ := equal_tensorOfValues_iff.mp h
    have hvs := wellFormedElements_iff.mp ha
    have hws := wellFormedElements_iff.mp hb
    have hfold (seed : UInt64) : vs.foldl (fun seed v => hashCombine seed (hash std v)) seed =
        ws.foldl (fun seed v => hashCombine seed (hash std v)) seed := by
      refine foldl_congr_of_forall₂ (forall₂_of_mem hvw fun v hv w hw hvw seed => ?_) seed
      rw [ih v hv (hvs v hv) (hws w hw) hvw (hashTags_eq hvw)]
    rw [hash, hash, htags, hashElements_eq, hashElements_eq, hvw.length_eq, hfold]
  | map es ih =>
    obtain ⟨fs, rfl, hlen, hfound⟩ := equal_map_iff.mp h
    obtain ⟨hn, hwell⟩ := ha
    obtain ⟨hn', hwell'⟩ := hb
    obtain ⟨fs', hperm, hpairs⟩ := exists_perm hn hn' hlen hfound
    have hes := wellFormedEntries_iff.mp hwell
    have hfs := wellFormedEntries_iff.mp hwell'
    have hsame : es.map (fun e => hashCombine (std.string e.1) (hash std e.2)) =
        fs'.map fun e => hashCombine (std.string e.1) (hash std e.2) := by
      rw [← List.forall₂_eq_eq_eq, List.forall₂_map_left_iff, List.forall₂_map_right_iff]
      refine forall₂_of_mem hpairs fun e he f hf hpair => ?_
      obtain ⟨hkey, heq⟩ := hpair
      rw [hkey, ih e he (hes e he) (hfs f (hperm.mem_iff.mp hf)) heq (hashTags_eq heq)]
    -- the sum over the entries is the same in every order
    rw [hash, hash, htags, hashEntries_eq, hashEntries_eq, hsame, (hperm.map _).foldl_op_eq]

end Value

end GnuRadio.Pmt
