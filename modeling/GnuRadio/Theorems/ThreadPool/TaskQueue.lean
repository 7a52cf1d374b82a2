import GnuRadio.ThreadPool.TaskQueue

/-! The tasks of a pool leave by priority where the narrowing of the declared priorities does not show. The queue holds the
    queued tasks in the order in which they should leave. -/

namespace GnuRadio.TaskQueue

open StableQueue (Next insert ordered ordered_concat insert_append mem_ordered pairwise_ordered next_of_ordered
  ordered_eq_nil)
open Transition (System)
open Transition.System (Accepts Trace)

variable {φ : Type}

/-! ### Narrowed priorities -/

theorem toInt32_eq (p : UInt32) : toInt32 p = if p.toNat < 2 ^ 31 then (p.toNat : Int) else p.toNat - 2 ^ 32 := by
  rw [toInt32, BitVec.toInt_eq_toNat_cond, UInt32.toNat_toBitVec]
  split <;> split <;> omega

variable {p : UInt32}

theorem toInt32_of_lt (h : p.toNat < 2 ^ 31) : toInt32 p = p.toNat := by rw [toInt32_eq, if_pos h]

theorem toInt32_of_le (h : 2 ^ 31 ≤ p.toNat) : toInt32 p = p.toNat - 2 ^ 32 := by
  rw [toInt32_eq, if_neg (not_lt.mpr h)]

theorem toInt32_neg (h : 2 ^ 31 ≤ p.toNat) : toInt32 p < 0 := by
  have := p.toNat_lt
  rw [toInt32_of_le h]
  omega

theorem toInt32_nonneg (h : p.toNat < 2 ^ 31) : 0 ≤ toInt32 p := by
  rw [toInt32_of_lt h]
  omega

theorem toInt32_eq_zero : toInt32 p = 0 ↔ p.toNat = 0 := by
  rcases Nat.lt_or_ge p.toNat (2 ^ 31) with h | h
  · rw [toInt32_of_lt h]
    omega
  · have := toInt32_neg h
    omega

variable {task : Task φ}

theorem declared_eq (h : task.priority = toInt32 p) : task.declared = p.toNat := by
  have := p.toNat_lt
  rw [Task.declared, h, toInt32_eq]
  split <;> omega

/-- The tasks of the queue and their calls, with the narrowed priorities. -/
def Narrowed (l : List (Call φ × Task φ)) : Prop := ∀ e ∈ l, e.2.priority = toInt32 e.1.priority

/-- The declared priority. -/
def key (e : Call φ × Task φ) : Nat := e.1.priority.toNat

variable {c l r : List (Call φ × Task φ)} {e : Call φ × Task φ}

theorem push_of_ne {tasks : List (Task φ)} {job : Task φ} (h : job.priority ≠ 0) :
    push tasks job = insert Task.priority tasks job := if_neg h

/-- A task is pushed between tasks of no lower narrowed priority and one of a lower one, or behind all. -/
theorem exists_push_eq (hc : Narrowed c) (he : e.2.priority = toInt32 e.1.priority) :
    ∃ l r, c = l ++ r ∧ push (c.map Prod.snd) e.2 = (l ++ e :: r).map Prod.snd ∧
      (key e = 0 ∧ r = [] ∨
        key e ≠ 0 ∧ (∀ y ∈ l, toInt32 e.1.priority ≤ toInt32 y.1.priority) ∧
          ∀ y ∈ r.head?, toInt32 y.1.priority < toInt32 e.1.priority) := by
  by_cases h0 : key e = 0
  · have hzero : e.2.priority = 0 := by
      rw [he]
      exact toInt32_eq_zero.mpr h0
    exact ⟨c, [], by simp, by simp [push, hzero], .inl ⟨h0, rfl⟩⟩
  · have hne : e.2.priority ≠ 0 := by
      rw [he]
      exact fun h => h0 (toInt32_eq_zero.mp h)
    obtain ⟨l, r, hlr, hins, hl, hr⟩ := StableQueue.exists_insert_eq Task.priority (c.map Prod.snd) e.2
    obtain ⟨l, r, rfl, rfl, rfl⟩ := List.map_eq_append_iff.mp hlr
    refine ⟨l, r, rfl, by rw [push_of_ne hne, hins]; simp, .inr ⟨h0, fun y hy => ?_, fun y hy => ?_⟩⟩
    · have := hl y.2 (List.mem_map_of_mem hy)
      rwa [he, hc y (List.mem_append_left r hy)] at this
    · have hmem : y ∈ r := List.mem_of_mem_head? hy
      have := hr y.2 (by rw [List.head?_map, Option.mem_def.mp hy]; rfl)
      rwa [he, hc y (List.mem_append_right l hmem)] at this

/-- Where the queue is in order and the pushed priority fits, the narrowed priorities lead to the right place. -/
theorem right_place (hsorted : (l ++ r).Pairwise (key · ≥ key ·)) (hfits : Fits (key e) ((l ++ r).map key))
    (hl : ∀ y ∈ l, toInt32 e.1.priority ≤ toInt32 y.1.priority)
    (hr : ∀ y ∈ r.head?, toInt32 y.1.priority < toInt32 e.1.priority) (h0 : key e ≠ 0) :
    (∀ y ∈ l, key e ≤ key y) ∧ ∀ y ∈ r.head?, key y < key e := by
  have hr' : ∀ y ∈ r.head?, y ∈ r := fun y hy => List.mem_of_mem_head? hy
  rcases hfits with h | ⟨hp, hall⟩ | ⟨hp, hbig⟩
  · exact absurd h h0
  · have hsmall : ∀ y ∈ l ++ r, toInt32 y.1.priority = key y :=
      fun y hy => toInt32_of_lt (hall _ (List.mem_map_of_mem hy))
    have he := toInt32_of_lt hp
    refine ⟨fun y hy => ?_, fun y hy => ?_⟩
    · have := hl y hy
      rw [he, hsmall y (List.mem_append_left r hy)] at this
      exact Int.ofNat_le.mp this
    · have := hr y hy
      rw [he, hsmall y (List.mem_append_right l (hr' y hy))] at this
      exact Int.ofNat_lt.mp this
  · have he := toInt32_of_le hp
    -- an entry of a lower narrowed priority has one that is narrowed too
    have hneg : ∀ y : Call φ × Task φ, toInt32 y.1.priority < toInt32 e.1.priority → 2 ^ 31 ≤ key y := by
      intro y hy
      by_contra hlt
      have h1 := toInt32_nonneg (p := y.1.priority) (not_le.mp hlt)
      have h2 := toInt32_neg hp
      omega
    have hlarge : ∀ y ∈ l, 2 ^ 31 ≤ key y := by
      intro y hy
      rcases hbig with hall | ⟨q, hq, hq31, hlt⟩
      · exact hall _ (List.mem_map_of_mem (List.mem_append_left r hy))
      · obtain ⟨x, hx, rfl⟩ := List.mem_map.mp hq
        rcases List.mem_append.mp hx with hx | hx
        · have := hl x hx
          rw [he, toInt32_of_le hq31] at this
          simp only [key] at hlt this
          omega
        · exact hq31.trans ((List.pairwise_append.mp hsorted).2.2 y hy x hx)
    refine ⟨fun y hy => ?_, fun y hy => ?_⟩
    · have := hl y hy
      rw [he, toInt32_of_le (hlarge y hy)] at this
      simp only [key]
      omega
    · have := hr y hy
      have hy31 := hneg y this
      rw [he, toInt32_of_le hy31] at this
      simp only [key]
      omega

/-! ### Runs -/

/-- The queue holds the queued tasks in order, every task has its narrowed priority, and the recycled objects are as new. -/
structure Holds (s : State φ) (q : List (Call φ × Task φ)) : Prop where
  queue : s.taskQueue = (ordered key q).map Prod.snd
  narrowed : Narrowed q
  created : Narrowed s.created
  recycled : ∀ task ∈ s.recycledTasks, task = .reset

variable {s t : State φ} {q : List (Call φ × Task φ)}

theorem Narrowed.eraseIdx (h : Narrowed c) (k : Nat) : Narrowed (c.eraseIdx k) :=
  fun e he => h e (List.mem_of_mem_eraseIdx he)

theorem Narrowed.concat (h : Narrowed c) (he : e.2.priority = toInt32 e.1.priority) : Narrowed (c ++ [e]) := by
  intro x hx
  rcases List.mem_append.mp hx with hx | hx
  · exact h x hx
  · rwa [List.mem_singleton.mp hx]

/-- A task made of a recycled object that is as new has what a task made afresh has. -/
theorem createTask_fst {recycledTasks : List (Task φ)} (h : ∀ task ∈ recycledTasks, task = .reset) (id : Nat)
    (call : Call φ) :
    (createTask recycledTasks id call).1 = ⟨id, some call.func, call.taskName, toInt32 call.priority, call.cpuID⟩ := by
  have htask : (getTaskImpl recycledTasks id call.func).1 = ⟨id, some call.func, "", 0, -1⟩ := by
    cases recycledTasks with
    | nil => rfl
    | cons task rest =>
      rw [h task (.head _)]
      rfl
  by_cases hname : call.taskName = ""
  · simp [createTask, htask, hname]
  · simp [createTask, htask, hname]

theorem createTask_snd_subset {recycledTasks : List (Task φ)} {id : Nat} {call : Call φ}
    (h : task ∈ (createTask recycledTasks id call).2) : task ∈ recycledTasks := by
  cases recycledTasks with
  | nil => exact h
  | cons a rest => exact List.mem_cons_of_mem a h

/-- A pop takes the task that leaves next. -/
theorem Holds.pop (h : Holds s q) :
    ∃ q', Allowed q (.pop (pop s.taskQueue).1) q' ∧
      Holds { s with taskQueue := (pop s.taskQueue).2, running := s.running ++ (pop s.taskQueue).1.toList } q' := by
  cases hord : ordered key q with
  | nil =>
    have hq := ordered_eq_nil.mp hord
    have hempty : s.taskQueue = [] := by rw [h.queue, hord, List.map_nil]
    subst hq
    rw [hempty]
    exact ⟨[], .popNone, ⟨rfl, h.narrowed, h.created, h.recycled⟩⟩
  | cons e c =>
    obtain ⟨l, r, rfl, hnext, hrest⟩ := next_of_ordered hord
    have hcons : s.taskQueue = e.2 :: c.map Prod.snd := by rw [h.queue, hord, List.map_cons]
    rw [hcons]
    refine ⟨l ++ r, .pop hnext, ⟨by rw [hrest]; rfl, fun x hx => h.narrowed x ?_, h.created, h.recycled⟩⟩
    rcases List.mem_append.mp hx with hx | hx
    · exact List.mem_append_left _ hx
    · exact List.mem_append_right _ (List.mem_cons_of_mem e hx)

/-- A push of a priority that fits puts the task where it belongs. -/
theorem Holds.push (h : Holds s q) {k : Nat} (he : s.created[k]? = some e)
    (hfits : Fits (key e) (s.taskQueue.map Task.declared)) :
    Holds { s with taskQueue := push s.taskQueue e.2, created := s.created.eraseIdx k } (q ++ [e]) := by
  have hpri : e.2.priority = toInt32 e.1.priority := h.created e (List.mem_of_getElem? he)
  have hnarrow : Narrowed (ordered key q) := fun x hx => h.narrowed x (mem_ordered.mp hx)
  have hdecl : s.taskQueue.map Task.declared = (ordered key q).map key := by
    rw [h.queue, List.map_map]
    exact List.map_congr_left fun x hx => declared_eq (hnarrow x hx)
  refine ⟨?_, h.narrowed.concat hpri, h.created.eraseIdx k, h.recycled⟩
  obtain ⟨l, r, hlr, hpush, hplace⟩ := exists_push_eq hnarrow hpri
  rw [hdecl, hlr] at hfits
  have hsorted := pairwise_ordered key q
  rw [hlr] at hsorted
  rw [ordered_concat, h.queue, hpush, hlr]
  rcases hplace with ⟨h0, rfl⟩ | ⟨h0, hl, hr⟩
  · rw [insert_append (fun y _ => by rw [h0]; exact Nat.zero_le _) (by simp)]
  · obtain ⟨hle, hlt⟩ := right_place hsorted hfits hl hr h0
    rw [insert_append hle hlt]

theorem step_allowed {a : Act φ} (h : Holds s q) (hok : Narrows s a) (hs : step s a = some t) :
    ∃ q', Accepts Allowed q (events s a) q' ∧ Holds t q' := by
  cases a with
  | create id call =>
    simp only [step] at hs
    cases hs
    have hnew := createTask_fst h.recycled id call
    refine ⟨q, ?_, ⟨h.queue, h.narrowed, h.created.concat ?_, fun task ht => h.recycled task (createTask_snd_subset ht)⟩⟩
    · by_cases hempty : s.recycledTasks = []
      · rw [events, if_pos hempty]
        exact rfl
      · rw [events, if_neg hempty]
        have hlt := hok.resolve_left hempty
        refine .single (.recycled ?_)
        rw [hnew]
        exact ⟨rfl, rfl, toInt32_of_lt hlt, rfl⟩
    · rw [hnew]
  | push k =>
    obtain ⟨e, he, rfl⟩ := Option.map_eq_some_iff.mp hs
    refine ⟨q ++ [e], ?_, h.push he (hok e (by simp [he]))⟩
    rw [events, he]
    exact .single .push
  | drop k =>
    simp only [step, Option.ite_none_right_eq_some, Option.some.injEq] at hs
    obtain ⟨-, rfl⟩ := hs
    exact ⟨q, rfl, ⟨h.queue, h.narrowed, h.created.eraseIdx k, h.recycled⟩⟩
  | pop =>
    simp only [step] at hs
    cases hs
    obtain ⟨q', hq', hholds⟩ := h.pop
    exact ⟨q', .single hq', hholds⟩
  | recycle k =>
    simp only [step, Option.ite_none_right_eq_some, Option.some.injEq] at hs
    obtain ⟨-, rfl⟩ := hs
    refine ⟨q, rfl, ⟨h.queue, h.narrowed, h.created, fun task ht => ?_⟩⟩
    rcases List.mem_append.mp (show task ∈ s.recycledTasks ++ [.reset] from ht) with ht | ht
    · exact h.recycled task ht
    · exact List.mem_singleton.mp ht

/-- In a run in which the narrowing of the priorities does not show, every pop gives a task of the greatest declared
    priority, of those the first that was pushed, and every recycled object has what its own call gave. -/
theorem tasks_leave_by_priority {es : List (Event φ)} {s : State φ} (h : (system φ).Trace Narrows events es s) :
    ∃ q, Accepts Allowed [] es q := by
  obtain ⟨q, hq, -⟩ := h.simulates (R := Holds) (f := [])
    (fun s hs => by
      cases hs
      exact ⟨rfl, fun e he => absurd he List.not_mem_nil, fun e he => absurd he List.not_mem_nil, by simp⟩)
    (fun s a t q hr hok hs => step_allowed hr hok hs)
  exact ⟨q, hq⟩

theorem Allowed.push_eq {call : Call φ} {q' : List (Call φ × Task φ)}
    (h : Allowed q (.push call task) q') : q' = q ++ [(call, task)] := by
  cases h
  rfl

theorem Allowed.pop_some {q' : List (Call φ × Task φ)} (h : Allowed q (.pop (some task)) q') :
    ∃ before call after, q = before ++ (call, task) :: after ∧ Next (·.1.priority.toNat) before (call, task) after := by
  cases h with
  | pop hnext => exact ⟨_, _, _, rfl, hnext⟩

/-- A task of priority 3, then a recycled one of priority 0 and one of priority 7, which leaves before it. -/
def recycledRun : List (Act Nat) :=
  [.create 1 ⟨0, "first", 3, 2⟩, .push 0, .pop, .recycle 0, .create 2 ⟨1, "", 0, -1⟩, .push 0, .create 3 ⟨2, "", 7, -1⟩,
    .push 0, .pop]

theorem recycledRun_allowed :
    ∃ q, Accepts Allowed [] ((system Nat).eventsOf events ⟨[], [], [], []⟩ recycledRun) q :=
  tasks_leave_by_priority ((system Nat).trace_get recycledRun rfl (by decide) (by decide))

/-- A task of priority 2³¹ and then one of priority 1. -/
def narrowedRun : List (Act Nat) :=
  [.create 1 ⟨0, "", 2 ^ 31, -1⟩, .push 0, .create 2 ⟨1, "", 1, -1⟩, .push 0, .pop]

/-- The task of priority 1 leaves first. -/
theorem narrowed_leaves_late :
    ¬∀ (es : List (Event Nat)) (s : State Nat), (system Nat).Trace (fun _ _ => True) events es s →
      ∃ q, Accepts Allowed [] es q := by
  intro h
  obtain ⟨q, hq⟩ := h _ _ ((system Nat).trace_get narrowedRun rfl (System.meets_true _ _) (by decide))
  obtain ⟨q₁, h₁, q₂, h₂, q₃, h₃, -⟩ := hq
  obtain rfl := h₁.push_eq
  obtain rfl := h₂.push_eq
  obtain ⟨before, call, after, heq, hnext⟩ := h₃.pop_some
  cases before with
  | nil => cases heq
  | cons e before =>
    obtain ⟨rfl, htail⟩ := List.cons.inj heq
    cases before with
    | nil =>
      have hcall := (Prod.mk.inj (List.cons.inj htail).1).1
      subst hcall
      exact absurd (hnext.lt _ (.head _)) (by decide)
    | cons f before => simp at htail

end GnuRadio.TaskQueue
