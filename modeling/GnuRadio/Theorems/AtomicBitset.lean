import GnuRadio.AtomicBitset
import Mathlib.Algebra.BigOperators.Group.List.Basic
import Mathlib.Algebra.Order.Ring.Nat
import Mathlib.Data.Nat.Bitwise

/-! When the range operations of the atomic bitset set their bits and no others, also next to each other. Every access sets
    the bits that its mask or its word holds to the value of its operation, so an operation is told by the bits of its
    accesses. -/

namespace GnuRadio.AtomicBitset

/-- Whether an access sets a bit. -/
def Access.sets : Access → Nat → Bool
  | .exchange wordIndex mask _, i => i / 64 = wordIndex && mask.getLsbD (i % 64)
  | .store wordIndex _, i => i / 64 = wordIndex

def Access.value : Access → Bool
  | .exchange _ _ value | .store _ value => value

variable {words words' : List Word} {access : Access} {accesses : List Access} {value : Bool}

/-! ### Masks -/

/-- The lowest bits of a word. -/
theorem getLsbD_low {n i : Nat} (hn : n < 64) : ((1#64 <<< n) - 1).getLsbD i = decide (i < n) := by
  have hpow : 2 ^ n < 2 ^ 64 := Nat.pow_lt_pow_right (by decide) hn
  have hone : 1 ≤ 2 ^ n := Nat.one_le_two_pow
  have hnat : ((1#64 <<< n) - 1).toNat = 2 ^ n - 1 := by
    rw [BitVec.toNat_sub, BitVec.toNat_shiftLeft, Nat.shiftLeft_eq]
    simp only [BitVec.toNat_ofNat]
    rw [Nat.mod_eq_of_lt (by decide : 1 < 2 ^ 64), Nat.one_mul, Nat.mod_eq_of_lt hpow]
    show (2 ^ 64 - 1 + 2 ^ n) % 2 ^ 64 = 2 ^ n - 1
    omega
  rw [← BitVec.testBit_toNat, hnat, Nat.testBit_two_pow_sub_one]

theorem Access.wordIndex_of_sets {i : Nat} (h : access.sets i = true) : i / 64 = access.wordIndex := by
  cases access with
  | exchange wordIndex mask value => exact of_decide_eq_true (Bool.and_eq_true_iff.mp h).1
  | store wordIndex value => exact of_decide_eq_true h

theorem sets_setBitsInWord {wordIndex begin_ end_ i : Nat} (hbegin : begin_ < end_) (hend : end_ ≤ 64) :
    (setBitsInWord wordIndex begin_ end_ value).sets i = true ↔ wordIndex * 64 + begin_ ≤ i ∧ i < wordIndex * 64 + end_ := by
  have hmod := Nat.mod_lt i (by decide : 0 < 64)
  have hdiv := Nat.div_add_mod i 64
  have hmask : (setBitsInWord wordIndex begin_ end_ value).sets i =
      (decide (i / 64 = wordIndex) && (decide (i % 64 < end_) && !decide (i % 64 < begin_))) := by
    rw [setBitsInWord, Access.sets]
    congr 1
    split
    next h =>
      rw [BitVec.getLsbD_not, getLsbD_low (Nat.lt_of_lt_of_le hbegin hend), h, decide_eq_true hmod]
    next h =>
      rw [BitVec.getLsbD_and, BitVec.getLsbD_not, getLsbD_low (Nat.lt_of_le_of_ne hend h),
        getLsbD_low (Nat.lt_of_lt_of_le hbegin hend)]
      simp [hmod]
  rw [hmask]
  simp only [Bool.and_eq_true, decide_eq_true_eq, Bool.not_eq_true', decide_eq_false_iff_not]
  constructor
  · rintro ⟨rfl, hlt, hle⟩
    omega
  · rintro ⟨hle, hlt⟩
    omega

theorem sets_store {wordIndex i : Nat} :
    (setFullWord wordIndex value).sets i = true ↔ wordIndex * 64 ≤ i ∧ i < (wordIndex + 1) * 64 := by
  rw [setFullWord, Access.sets, decide_eq_true_eq]
  omega

/-! ### Accesses -/

/-- What an access makes of the bits of its word. -/
theorem getLsbD_newBits {oldBits : Word} {i : Nat} (h : i / 64 = access.wordIndex) :
    (access.newBits oldBits).getLsbD (i % 64) = if access.sets i then access.value else oldBits.getLsbD (i % 64) := by
  have hmod := Nat.mod_lt i (by decide : 0 < 64)
  cases access with
  | exchange wordIndex mask value =>
    have hsets : (Access.exchange wordIndex mask value).sets i = mask.getLsbD (i % 64) := by
      rw [Access.sets, decide_eq_true (show i / 64 = wordIndex from h), Bool.true_and]
    rw [hsets, Access.newBits, Access.value]
    cases value with
    | true =>
      rw [if_pos rfl, BitVec.getLsbD_or]
      cases mask.getLsbD (i % 64) <;> simp
    | false =>
      rw [if_neg Bool.false_ne_true, BitVec.getLsbD_and, BitVec.getLsbD_not, decide_eq_true hmod]
      cases mask.getLsbD (i % 64) <;> simp
  | store wordIndex value =>
    have hsets : (Access.store wordIndex value).sets i = true := decide_eq_true h
    rw [hsets, Access.newBits, Access.value]
    cases value with
    | true =>
      rw [if_pos rfl, BitVec.getLsbD_allOnes, decide_eq_true hmod]
      rfl
    | false => simp

theorem test_set {word : Word} {i : Nat} (hfound : words[access.wordIndex]? = some word) :
    test (words.set access.wordIndex (access.newBits word)) i = if access.sets i then access.value else test words i := by
  by_cases hi : i / 64 = access.wordIndex
  · obtain ⟨hlt, -⟩ := List.getElem?_eq_some_iff.mp hfound
    rw [test, test, hi, List.getElem?_set_self hlt, hfound]
    exact getLsbD_newBits hi
  · have hsets : access.sets i = false := Bool.eq_false_iff.mpr fun h => hi (Access.wordIndex_of_sets h)
    rw [test, test, List.getElem?_set_ne fun h => hi h.symm, hsets]
    rfl

/-- Accesses of words of the array all take place. The bits that one of them sets get their value, the others stay. -/
theorem execute_eq (hwords : ∀ access ∈ accesses, access.wordIndex < words.length) (hvalue : ∀ access ∈ accesses, access.value = value) :
    ∃ words', execute words accesses = some words' ∧ words'.length = words.length ∧
      ∀ i, test words' i = if accesses.any (·.sets i) then value else test words i := by
  induction accesses generalizing words with
  | nil => exact ⟨words, rfl, rfl, fun i => rfl⟩
  | cons access accesses ih =>
    obtain ⟨hword, hwords⟩ := List.forall_mem_cons.mp hwords
    obtain ⟨hval, hvalue⟩ := List.forall_mem_cons.mp hvalue
    have hfound := List.getElem?_eq_getElem hword
    have hperform : perform words access = some (words.set access.wordIndex (access.newBits words[access.wordIndex])) := by
      rw [perform, hfound]
      rfl
    obtain ⟨words', hrun, hlength, htest⟩ := @ih (words.set access.wordIndex (access.newBits words[access.wordIndex]))
      (fun a ha => by rw [List.length_set]; exact hwords a ha) hvalue
    refine ⟨words', ?_, hlength.trans List.length_set, fun i => ?_⟩
    · rw [execute, List.foldlM_cons, hperform]
      exact hrun
    · rw [htest, test_set hfound, List.any_cons, hval]
      cases access.sets i <;> cases accesses.any (·.sets i) <;> rfl

/-! ### The range operation -/

theorem value_setRange {begin_ end_ : Nat} : ∀ access ∈ setRange begin_ end_ value, access.value = value := by
  intro access haccess
  rw [setRange] at haccess
  simp only at haccess
  split at haccess
  · cases haccess
  · split at haccess
    · rw [List.mem_singleton.mp haccess]
      rfl
    · rcases List.mem_append.mp haccess with haccess | haccess
      · rcases List.mem_append.mp haccess with haccess | haccess
        · split at haccess
          · rw [List.mem_singleton.mp haccess]
            rfl
          · cases haccess
        · split at haccess
          · rw [List.mem_singleton.mp haccess]
            rfl
          · cases haccess
      · obtain ⟨wordIndex, -, rfl⟩ := List.mem_map.mp haccess
        rfl

/-- The accesses of a range set the bits of the range. -/
theorem sets_setRange {begin_ end_ : Nat} (hle : begin_ ≤ end_) (i : Nat) :
    (setRange begin_ end_ value).any (·.sets i) = decide (begin_ ≤ i ∧ i < end_) := by
  have hbegin := Nat.div_add_mod begin_ 64
  have hend := Nat.div_add_mod end_ 64
  have hbeginOffset := Nat.mod_lt begin_ (by decide : 0 < 64)
  have hendOffset := Nat.mod_lt end_ (by decide : 0 < 64)
  rw [Bool.eq_iff_iff, List.any_eq_true, decide_eq_true_iff, setRange]
  simp only [bitsPerWord]
  split
  · next h =>
    subst h
    simp only [List.not_mem_nil, false_and, exists_false, false_iff]
    omega
  · next hne =>
    split
    · next hword =>
      simp only [List.mem_singleton, exists_eq_left]
      rw [sets_setBitsInWord (by omega) (by omega)]
      omega
    · next hword =>
      have hlt : begin_ / 64 < end_ / 64 := Nat.lt_of_le_of_ne (Nat.div_le_div_right hle) hword
      have hleading : (∃ access ∈ (if begin_ % 64 ≠ 0 then [setBitsInWord (begin_ / 64) (begin_ % 64) 64 value] else []),
          access.sets i = true) ↔ begin_ % 64 ≠ 0 ∧ begin_ ≤ i ∧ i < (begin_ / 64 + 1) * 64 := by
        split
        · next h =>
          simp only [List.mem_singleton, exists_eq_left]
          rw [sets_setBitsInWord hbeginOffset (Nat.le_refl 64)]
          omega
        · next h =>
          simp only [List.not_mem_nil, false_and, exists_false, false_iff]
          exact fun hi : begin_ % 64 ≠ 0 ∧ _ => h hi.1
      have htrailing : (∃ access ∈ (if end_ % 64 ≠ 0 then [setBitsInWord (end_ / 64) 0 (end_ % 64) value] else []),
          access.sets i = true) ↔ end_ / 64 * 64 ≤ i ∧ i < end_ := by
        split
        · next h =>
          simp only [List.mem_singleton, exists_eq_left]
          rw [sets_setBitsInWord (Nat.pos_of_ne_zero h) (Nat.le_of_lt hendOffset)]
          omega
        · next h =>
          simp only [List.not_mem_nil, false_and, exists_false, false_iff]
          omega
      have hfull (first : Nat) : (∃ access ∈ (List.range' first (end_ / 64 - first)).map (setFullWord · value),
          access.sets i = true) ↔ first * 64 ≤ i ∧ i < end_ / 64 * 64 := by
        constructor
        · rintro ⟨access, haccess, hsets⟩
          obtain ⟨wordIndex, hindex, rfl⟩ := List.mem_map.mp haccess
          have := List.mem_range'_1.mp hindex
          have := sets_store.mp hsets
          omega
        · rintro ⟨hfirst, hlast⟩
          refine ⟨_, List.mem_map.mpr ⟨i / 64, List.mem_range'_1.mpr ?_, rfl⟩, sets_store.mpr ?_⟩ <;> omega
      simp only [List.mem_append, or_and_right, exists_or]
      rw [hleading, htrailing, hfull]
      split <;> omega

theorem wordIndex_setRange {begin_ end_ : Nat} (hle : begin_ ≤ end_) {access : Access} (h : access ∈ setRange begin_ end_ value) :
    access.wordIndex * 64 < end_ := by
  have hbegin := Nat.div_add_mod begin_ 64
  have hend := Nat.div_add_mod end_ 64
  rw [setRange] at h
  simp only [bitsPerWord] at h
  split at h
  · cases h
  · next hne =>
    split at h
    · next hword =>
      rw [List.mem_singleton.mp h]
      show begin_ / 64 * 64 < end_
      omega
    · next hword =>
      have hlt : begin_ / 64 < end_ / 64 := Nat.lt_of_le_of_ne (Nat.div_le_div_right hle) hword
      rcases List.mem_append.mp h with h | h
      · rcases List.mem_append.mp h with h | h
        · split at h
          · rw [List.mem_singleton.mp h]
            show begin_ / 64 * 64 < end_
            omega
          · cases h
        · split at h
          · next hoffset =>
            rw [List.mem_singleton.mp h]
            show end_ / 64 * 64 < end_
            omega
          · cases h
      · obtain ⟨wordIndex, hindex, rfl⟩ := List.mem_map.mp h
        have := List.mem_range'_1.mp hindex
        show wordIndex * 64 < end_
        omega

/-- A bit of the bitset is in the array, where the size rounds up without a wrap. -/
theorem lt_wordCount {size wordIndex : Nat} (hsize : size ≤ 2 ^ 64 - 64) (h : wordIndex * 64 < size) : wordIndex < wordCount size := by
  have hmod : (size + 64 - 1) % 2 ^ 64 = size + 64 - 1 := Nat.mod_eq_of_lt (by omega)
  show wordIndex < (size + 64 - 1) % 2 ^ 64 / 64
  rw [hmod]
  omega

theorem setsRange_of_le {size : Nat} (hsize : size ≤ 2 ^ 64 - 64) : SetsRange size := by
  intro begin_ end_ value hle hend words hwords
  obtain ⟨words', hrun, hlength, htest⟩ := @execute_eq words (setRange begin_ end_ value) value
    (fun access haccess => by
      rw [hwords]
      exact lt_wordCount hsize (Nat.lt_of_lt_of_le (wordIndex_setRange hle haccess) hend)) value_setRange
  refine ⟨words', hrun, hlength, fun i => ?_⟩
  rw [htest, sets_setRange hle]
  by_cases h : begin_ ≤ i ∧ i < end_
  · rw [if_pos h, decide_eq_true h, if_pos rfl]
  · rw [if_neg h, decide_eq_false h]
    rfl

/-! ### Operations -/

namespace Operation

variable {operation : Operation} {size : Nat}

theorem value_accesses : ∀ access ∈ operation.accesses, access.value = operation.value := by
  cases operation with
  | bit bitPosition value =>
    intro access haccess
    rw [List.mem_singleton.mp haccess]
    rfl
  | range begin_ end_ value => exact value_setRange

theorem sets_accesses (hvalid : operation.Valid size) (i : Nat) :
    operation.accesses.any (·.sets i) = true ↔ operation.Sets i := by
  cases operation with
  | bit bitPosition value =>
    have hmod := Nat.mod_lt i (by decide : 0 < 64)
    have hmask : (1#64 <<< (bitPosition % 64)).getLsbD (i % 64) = decide (i % 64 = bitPosition % 64) := by
      have hposition := Nat.mod_lt bitPosition (by decide : 0 < 64)
      rw [← BitVec.twoPow_eq, BitVec.getLsbD_twoPow, decide_eq_true hposition, Bool.true_and]
      exact decide_eq_decide.mpr eq_comm
    show ((decide (i / 64 = bitPosition / 64) && (1#64 <<< (bitPosition % 64)).getLsbD (i % 64)) || false) = true ↔ i = bitPosition
    rw [hmask, Bool.or_false, Bool.and_eq_true, decide_eq_true_eq, decide_eq_true_eq]
    omega
  | range begin_ end_ value =>
    show (setRange begin_ end_ value).any (·.sets i) = true ↔ begin_ ≤ i ∧ i < end_
    rw [sets_setRange hvalid.1, decide_eq_true_iff]

theorem wordIndex_accesses (hvalid : operation.Valid size) {access : Access} (h : access ∈ operation.accesses) :
    access.wordIndex * 64 < size := by
  cases operation with
  | bit bitPosition value =>
    rw [List.mem_singleton.mp h]
    have : bitPosition < size := hvalid
    show bitPosition / 64 * 64 < size
    omega
  | range begin_ end_ value => exact Nat.lt_of_lt_of_le (wordIndex_setRange hvalid.1 h) hvalid.2

end Operation

/-! ### The steps of a thread -/

namespace Thread

variable {thread thread' : Thread}

/-- How far a loop is from its next exchange that writes: one step when it has read nothing, two when the word it has read
    is not the word any more. -/
def distance (words : List Word) (thread : Thread) : Nat :=
  match thread.accesses with
  | .exchange wordIndex _ _ :: _ =>
    match thread.oldBits with
    | none => 1
    | some oldBits => if words[wordIndex]? = some oldBits then 0 else 2
  | _ => 0

theorem distance_le (words : List Word) (thread : Thread) : thread.distance words ≤ 2 := by
  rw [distance]
  split
  · split
    · decide
    · split <;> decide
  · decide

/-- A step writes the word of the first access and is done with it, or it gets nearer to that. -/
theorem step_cases (h : thread.step words = some (words', thread')) :
    ∃ access rest word, thread.accesses = access :: rest ∧ words[access.wordIndex]? = some word ∧
      ((words' = words.set access.wordIndex (access.newBits word) ∧ thread'.accesses = rest) ∨
        (words' = words ∧ thread'.accesses = thread.accesses ∧ thread'.distance words < thread.distance words)) := by
  obtain ⟨accesses, oldBits⟩ := thread
  cases accesses with
  | nil => exact absurd h (by simp [step])
  | cons access rest =>
    obtain ⟨word, hword, h⟩ := Option.map_eq_some_iff.mp h
    refine ⟨access, rest, word, rfl, hword, ?_⟩
    cases access with
    | store wordIndex value =>
      cases h
      exact .inl ⟨rfl, rfl⟩
    | exchange wordIndex mask value =>
      cases oldBits with
      | none =>
        cases h
        refine .inr ⟨rfl, rfl, ?_⟩
        show (if words[wordIndex]? = some word then 0 else 2) < 1
        rw [if_pos (show words[wordIndex]? = some word from hword)]
        decide
      | some oldBits =>
        by_cases heq : word = oldBits
        · obtain ⟨rfl, rfl⟩ := Prod.mk.inj ((if_pos heq).symm.trans h)
          exact .inl ⟨by rw [heq], rfl⟩
        · obtain ⟨rfl, rfl⟩ := Prod.mk.inj ((if_neg heq).symm.trans h)
          refine .inr ⟨rfl, rfl, ?_⟩
          have hne : words[wordIndex]? ≠ some oldBits := fun h => heq (Option.some.inj (hword.symm.trans h))
          show 1 < if words[wordIndex]? = some oldBits then 0 else 2
          rw [if_neg hne]
          decide

theorem isSome_step {access : Access} {rest : List Access} (h : thread.accesses = access :: rest)
    (hword : access.wordIndex < words.length) : (thread.step words).isSome = true := by
  rw [step, h]
  show (Option.map _ _).isSome = true
  rw [Option.isSome_map, List.getElem?_eq_getElem hword]
  rfl

end Thread

/-! ### Runs -/

section
variable {words₀ : List Word} {operations : List Operation} {s t : State} {k : Nat}

theorem step_eq_some (h : (system words₀ operations).step s k = some t) :
    ∃ thread words thread', s.threads[k]? = some thread ∧ thread.step s.words = some (words, thread') ∧
      t = ⟨words, s.threads.set k thread'⟩ := by
  obtain ⟨thread, hthread, h⟩ := Option.bind_eq_some_iff.mp h
  obtain ⟨⟨words, thread'⟩, hstep, h⟩ := Option.bind_eq_some_iff.mp h
  exact ⟨thread, words, thread', hthread, hstep, (Option.some.inj h).symm⟩

/-- Every access left counts for more than all that one write can take the other loops back. -/
def State.left (s : State) : Nat :=
  (s.threads.map fun thread => thread.accesses.length * (2 * s.threads.length + 3) + thread.distance s.words).sum

theorem sum_set_le {α : Type} {f g : α → Nat} {a b : α} {c : Nat} {l : List α} (hle : ∀ x ∈ l, g x ≤ f x + c)
    (h : l[k]? = some a) : ((l.set k b).map g).sum + f a ≤ (l.map f).sum + g b + c * l.length := by
  induction l generalizing k with
  | nil => exact absurd h (by simp)
  | cons x l ih =>
    obtain ⟨hx, hl⟩ := List.forall_mem_cons.mp hle
    cases k with
    | zero =>
      obtain rfl : x = a := Option.some.inj h
      have hsum : (l.map g).sum ≤ (l.map f).sum + c * l.length := by
        clear ih hle h
        induction l with
        | nil => exact Nat.zero_le _
        | cons y l ih =>
          obtain ⟨hy, hl⟩ := List.forall_mem_cons.mp hl
          have := ih hl
          simp only [List.map_cons, List.sum_cons, List.length_cons, Nat.mul_add, Nat.mul_one]
          omega
      simp only [List.set_cons_zero, List.map_cons, List.sum_cons, List.length_cons, Nat.mul_add, Nat.mul_one]
      omega
    | succ k =>
      have := ih hl (show l[k]? = some a from h)
      simp only [List.set_cons_succ, List.map_cons, List.sum_cons, List.length_cons, Nat.mul_add, Nat.mul_one]
      omega

theorem left_step (h : (system words₀ operations).step s k = some t) : t.left < s.left := by
  obtain ⟨thread, words, thread', hthread, hstep, rfl⟩ := step_eq_some h
  obtain ⟨access, rest, word, haccesses, hword, hcases⟩ := Thread.step_cases hstep
  simp only [State.left, List.length_set]
  rcases hcases with ⟨-, hrest⟩ | ⟨rfl, hrest, hless⟩
  · have := @sum_set_le k _ (fun thread => thread.accesses.length * (2 * s.threads.length + 3) + thread.distance s.words)
      (fun thread => thread.accesses.length * (2 * s.threads.length + 3) + thread.distance words) thread thread' 2 s.threads
      (fun x _ => by
        have := Thread.distance_le words x
        show _ ≤ _ + _ + 2
        omega) hthread
    have hdistance := Thread.distance_le words thread'
    simp only [haccesses, hrest, List.length_cons, Nat.add_mul, Nat.one_mul] at this
    omega
  · have := @sum_set_le k _ (fun thread => thread.accesses.length * (2 * s.threads.length + 3) + thread.distance s.words)
      (fun thread => thread.accesses.length * (2 * s.threads.length + 3) + thread.distance s.words) thread thread' 0 s.threads
      (fun x _ => Nat.le_refl _) hthread
    simp only [hrest] at this
    omega

theorem length_run_le {labels : List Nat} (h : ((system words₀ operations).run s labels).isSome = true) : labels.length ≤ s.left := by
  induction labels generalizing s with
  | nil => exact Nat.zero_le _
  | cons k labels ih =>
    rw [Transition.System.run] at h
    cases hstep : (system words₀ operations).step s k with
    | none =>
      rw [hstep] at h
      cases h
    | some t =>
      rw [hstep] at h
      have := left_step hstep
      have := @ih t h
      rw [List.length_cons]
      omega

/-- What every run keeps: each thread has done the first accesses of its operation and their bits are set, and the bits of
    no operation are as they were. -/
structure Apart (words₀ : List Word) (operations : List Operation) (s : State) : Prop where
  words : s.words.length = words₀.length
  threads : s.threads.length = operations.length
  done : ∀ (k : Nat) (operation : Operation) (thread : Thread), operations[k]? = some operation → s.threads[k]? = some thread →
    ∃ done, operation.accesses = done ++ thread.accesses ∧
      ∀ i, done.any (·.sets i) = true → test s.words i = operation.value
  others : ∀ i, (∀ operation ∈ operations, ¬ operation.Sets i) → test s.words i = test words₀ i

variable {size : Nat} (hvalid : ∀ operation ∈ operations, operation.Valid size)
  (hapart : operations.Pairwise fun a b => ∀ i, ¬ (a.Sets i ∧ b.Sets i))
include hvalid hapart

omit hvalid hapart in
theorem apart_start (h : (system words₀ operations).start s) : Apart words₀ operations s := by
  obtain rfl : s = _ := h
  refine ⟨rfl, List.length_map _, fun k operation thread hop hthread => ?_, fun i _ => rfl⟩
  rw [List.getElem?_map, hop] at hthread
  cases hthread
  exact ⟨[], rfl, fun i hi => nomatch hi⟩

theorem apart_step (hs : Apart words₀ operations s) (h : (system words₀ operations).step s k = some t) : Apart words₀ operations t := by
  obtain ⟨thread, words, thread', hthread, hstep, rfl⟩ := step_eq_some h
  obtain ⟨access, rest, word, haccesses, hword, hcases⟩ := Thread.step_cases hstep
  obtain ⟨hklt, -⟩ := List.getElem?_eq_some_iff.mp hthread
  obtain ⟨own, hop⟩ : ∃ own, operations[k]? = some own := ⟨_, List.getElem?_eq_getElem (hs.threads ▸ hklt)⟩
  have hown := List.mem_of_getElem? hop
  obtain ⟨done, hdone, hset⟩ := hs.done k own thread hop hthread
  have hthreads : (s.threads.set k thread').length = operations.length := List.length_set.trans hs.threads
  rcases hcases with ⟨rfl, hrest⟩ | ⟨rfl, hrest, -⟩
  · have hmem : access ∈ own.accesses := by
      rw [hdone, haccesses]
      exact List.mem_append_right _ (.head _)
    -- the bits of the access are bits of the operation
    have hsets {i : Nat} (hi : access.sets i = true) : own.Sets i :=
      (Operation.sets_accesses (hvalid own hown) i).mp (List.any_eq_true.mpr ⟨access, hmem, hi⟩)
    refine ⟨List.length_set.trans hs.words, hthreads, fun j operation thread'' hj hj' => ?_, fun i hi => ?_⟩
    · rcases Nat.decEq k j with hne | heq
      · rw [List.getElem?_set_ne hne] at hj'
        obtain ⟨done', hdone', hset'⟩ := hs.done j operation thread'' hj hj'
        refine ⟨done', hdone', fun i hi => ?_⟩
        have hother : operation.Sets i := by
          refine (Operation.sets_accesses (hvalid _ (List.mem_of_getElem? hj)) i).mp ?_
          rw [hdone', List.any_append, hi, Bool.true_or]
        have hnot : access.sets i = false := by
          refine Bool.eq_false_iff.mpr fun hacc => ?_
          obtain ⟨hjlt, rfl⟩ := List.getElem?_eq_some_iff.mp hj
          obtain ⟨hklt', rfl⟩ := List.getElem?_eq_some_iff.mp hop
          rcases Nat.lt_or_gt_of_ne hne with hlt | hlt
          · exact List.pairwise_iff_getElem.mp hapart k j _ _ hlt i ⟨hsets hacc, hother⟩
          · exact List.pairwise_iff_getElem.mp hapart j k _ _ hlt i ⟨hother, hsets hacc⟩
        rw [test_set hword, hnot]
        exact hset' i hi
      · subst heq
        rw [List.getElem?_set_self hklt] at hj'
        cases hj'
        cases hop.symm.trans hj
        refine ⟨done ++ [access], by rw [hdone, haccesses, hrest, List.append_assoc]; rfl, fun i hi => ?_⟩
        rw [test_set hword]
        by_cases hacc : access.sets i = true
        · rw [if_pos hacc, Operation.value_accesses access hmem]
        · rw [if_neg hacc]
          rw [List.any_append, List.any_cons, List.any_nil, Bool.or_false, Bool.or_eq_true] at hi
          exact hset i (hi.resolve_right hacc)
    · have hnot : access.sets i = false :=
        Bool.eq_false_iff.mpr fun hacc => hi own hown (hsets hacc)
      rw [test_set hword, hnot]
      exact hs.others i hi
  · refine ⟨hs.words, hthreads, fun j operation thread'' hj hj' => ?_, hs.others⟩
    rcases Nat.decEq k j with hne | heq
    · rw [List.getElem?_set_ne hne] at hj'
      exact hs.done j operation thread'' hj hj'
    · subst heq
      rw [List.getElem?_set_self hklt] at hj'
      cases hj'
      cases hop.symm.trans hj
      exact ⟨done, by rw [hdone, hrest], hset⟩

theorem apart_reachable (h : (system words₀ operations).Reachable s) : Apart words₀ operations s :=
  h.invariant (fun _ => apart_start) fun _ _ _ hs _ => apart_step hvalid hapart hs

end

theorem keepsApart_of_le {size : Nat} (hsize : size ≤ 2 ^ 64 - 64) : KeepsApart size := by
  intro words operations hwords hvalid hapart
  refine ⟨⟨State.left ⟨words, operations.map fun operation => ⟨operation.accesses, none⟩⟩, fun s labels hs hrun => ?_⟩, fun s hs => ?_⟩
  · obtain rfl : s = _ := hs
    exact length_run_le hrun
  · have inv := apart_reachable hvalid hapart hs
    refine ⟨inv.threads, fun k thread hthread hne => ?_, fun k operation thread hop hthread hnil i hi => ?_, inv.others⟩
    · obtain ⟨access, rest, haccesses⟩ := List.exists_cons_of_ne_nil hne
      obtain ⟨hklt, -⟩ := List.getElem?_eq_some_iff.mp hthread
      obtain ⟨own, hop⟩ : ∃ own, operations[k]? = some own := ⟨_, List.getElem?_eq_getElem (inv.threads ▸ hklt)⟩
      obtain ⟨done, hdone, -⟩ := inv.done k own thread hop hthread
      have hmem : access ∈ own.accesses := by
        rw [hdone, haccesses]
        exact List.mem_append_right _ (.head _)
      have hword := lt_wordCount hsize (Operation.wordIndex_accesses (hvalid own (List.mem_of_getElem? hop)) hmem)
      have hstep := Thread.isSome_step haccesses (by rw [inv.words, hwords]; exact hword : access.wordIndex < s.words.length)
      obtain ⟨⟨words', thread'⟩, hstep⟩ := Option.isSome_iff_exists.mp hstep
      show (s.threads[k]?.bind _).isSome = true
      rw [hthread]
      show ((thread.step s.words).bind _).isSome = true
      rw [hstep]
      rfl
    · obtain ⟨done, hdone, hset⟩ := inv.done k operation thread hop hthread
      rw [hnil, List.append_nil] at hdone
      exact hset i (hdone ▸ (Operation.sets_accesses (hvalid _ (List.mem_of_getElem? hop)) i).mpr hi)

/-! ### Sizes -/

/-- A size whose rounding up wraps leaves the last bits without a word. -/
theorem not_setsRange {size : Nat} (hsize : 2 ^ 64 - 64 < size) : ¬ SetsRange size := by
  intro h
  obtain ⟨words', hrun, -⟩ := h (2 ^ 64 - 64) (2 ^ 64 - 63) true (by decide) (by omega) (List.replicate (wordCount size) 0)
    List.length_replicate
  have hcount : wordCount size ≤ 2 ^ 58 - 1 := by
    have := Nat.mod_lt (size + 64 - 1) (by decide : 0 < 2 ^ 64)
    show (size + 64 - 1) % 2 ^ 64 / 64 ≤ 2 ^ 58 - 1
    omega
  have haccesses : setRange (2 ^ 64 - 64) (2 ^ 64 - 63) true = [setBitsInWord (2 ^ 58 - 1) 0 1 true] := by decide
  have hnone : (List.replicate (wordCount size) (0 : Word))[2 ^ 58 - 1]? = none :=
    List.getElem?_eq_none (by rw [List.length_replicate]; exact hcount)
  rw [haccesses, execute, List.foldlM_cons, perform, show (setBitsInWord (2 ^ 58 - 1) 0 1 true).wordIndex = 2 ^ 58 - 1 from rfl,
    hnone] at hrun
  cases hrun

/-- The operations set their bits and no others, alone and next to each other, if and only if the size rounds up to a
    number of words in 64 bits. -/
theorem sets_own_bits_iff (size : Nat) : SetsRange size ∧ KeepsApart size ↔ size ≤ 2 ^ 64 - 64 := by
  constructor
  · intro h
    by_contra hlt
    exact not_setsRange (Nat.lt_of_not_le hlt) h.1
  · exact fun h => ⟨setsRange_of_le h, keepsApart_of_le h⟩

/-- A bitset of the largest size has no words. -/
theorem largest_not_setsRange : wordCount (2 ^ 64 - 1) = 0 ∧ ¬ (SetsRange (2 ^ 64 - 1) ∧ KeepsApart (2 ^ 64 - 1)) :=
  ⟨by decide, fun h => not_setsRange (by decide) h.1⟩

end GnuRadio.AtomicBitset
