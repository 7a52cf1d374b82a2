import GnuRadio.Block.Subscriptions

/-! A property notifies each client once whose last accepted command about it is a `Subscribe`, and at most the cap of them. -/

namespace GnuRadio.Subscriptions

open Function

variable {D σ : Type} {handle : Handle D σ} {b : Block σ} {p : String} {messages : List (Message D)}

/-- `P` has held at a moment before `n`, and `Q` at none after that. -/
def Since (P Q : Nat → Prop) (n : Nat) : Prop := ∃ k < n, P k ∧ ∀ j < n, k < j → ¬ Q j

theorem since_succ {P Q : Nat → Prop} {n : Nat} : Since P Q (n + 1) ↔ P n ∨ Since P Q n ∧ ¬ Q n := by
  constructor
  · rintro ⟨k, hk, hp, hq⟩
    obtain hlt | rfl := Nat.lt_succ_iff_lt_or_eq.mp hk
    · exact .inr ⟨⟨k, hlt, hp, fun j hj => hq j (hj.trans n.lt_succ_self)⟩, hq n n.lt_succ_self hlt⟩
    · exact .inl hp
  · rintro (hp | ⟨⟨k, hk, hp, hq⟩, hlast⟩)
    · exact ⟨n, n.lt_succ_self, hp, fun j hj hnj => absurd hnj (by omega)⟩
    · refine ⟨k, hk.trans n.lt_succ_self, hp, fun j hj hkj => ?_⟩
      obtain hlt | rfl := Nat.lt_succ_iff_lt_or_eq.mp hj
      · exact hq j hlt hkj
      · exact hlast

/-- The message is a command about the property, and for this block. -/
def Commands (b : Block σ) (cmd : Command) (p : String) (message : Message D) : Prop :=
  message.serviceName ∈ ["", b.uniqueName, b.name] ∧ p ∈ subscribable ∧ message.endpoint = p ∧ message.cmd = cmd

/-- The message is a `Subscribe` that is not refused. -/
def Subscribes (b : Block σ) (p : String) (message : Message D) : Prop :=
  Commands b .subscribe p message ∧ message.clientRequestID ≠ "" ∧
    (message.clientRequestID ∈ b.propertySubscriptions p ∨ (b.propertySubscriptions p).card < kMaxSubscribersPerProperty)

theorem processMessage_cases (handle : Handle D σ) (b : Block σ) (p : String) (message : Message D) :
    let subscribers := (processMessage handle b message).1.propertySubscriptions p
    Subscribes b p message ∧ subscribers = insert message.clientRequestID (b.propertySubscriptions p) ∨
      Commands b .unsubscribe p message ∧ subscribers = (b.propertySubscriptions p).erase message.clientRequestID ∨
      ¬ Subscribes b p message ∧ ¬ Commands b .unsubscribe p message ∧ subscribers = b.propertySubscriptions p := by
  obtain ⟨cmd, serviceName, client, endpoint, data⟩ := message
  have hsub : ∀ q ∈ subscribable, q ∈ properties := fun q hq => List.mem_append_left _ hq
  unfold processMessage propertyCallback subscribe unsubscribe Subscribes Commands
  dsimp only
  by_cases hendpoint : endpoint = p
  · subst hendpoint
    split_ifs <;> simp_all
    all_goals grind
  · split_ifs <;> simp_all [update_of_ne (Ne.symm hendpoint)]

def after (handle : Handle D σ) (b : Block σ) (messages : List (Message D)) : Block σ :=
  messages.foldl (fun b message => (processMessage handle b message).1) b

/-- The message at `n` is the client's, and it is so for the block that it reaches. -/
def At (handle : Handle D σ) (b : Block σ) (messages : List (Message D)) (c : String) (P : Block σ → Message D → Prop)
    (n : Nat) : Prop :=
  ∃ m, messages[n]? = some m ∧ P (after handle b (messages.take n)) m ∧ m.clientRequestID = c

/-- The client's last command about the property that is not refused is a `Subscribe`. -/
def Listens (handle : Handle D σ) (b : Block σ) (p : String) (messages : List (Message D)) (c : String) (n : Nat) : Prop :=
  Since (At handle b messages c (Subscribes · p)) (At handle b messages c (Commands · .unsubscribe p)) n

theorem subscriptions_after (handle : Handle D σ) (hfresh : b.propertySubscriptions p = ∅) (n : Nat) (hn : n ≤ messages.length) :
    let subscribers := (after handle b (messages.take n)).propertySubscriptions p
    subscribers.card ≤ kMaxSubscribersPerProperty ∧ ∀ c, c ∈ subscribers ↔ Listens handle b p messages c n := by
  induction n with
  | zero => simp [after, hfresh, Listens, Since]
  | succ n ih =>
    obtain ⟨hcap, hmem⟩ := ih (Nat.le_of_succ_le hn)
    have hcases := processMessage_cases handle (after handle b (messages.take n)) p messages[n]
    have hnow c : Listens handle b p messages c (n + 1) ↔
        Subscribes (after handle b (messages.take n)) p messages[n] ∧ messages[n].clientRequestID = c ∨
          c ∈ (after handle b (messages.take n)).propertySubscriptions p ∧
            ¬ (Commands (after handle b (messages.take n)) .unsubscribe p messages[n] ∧ messages[n].clientRequestID = c) := by
      simp [Listens, since_succ, hmem, At, List.getElem?_eq_getElem hn]
    simp only [hnow]
    rw [List.take_succ_eq_append_getElem hn, after, List.foldl_concat, ← after]
    obtain ⟨hsub, heq⟩ | ⟨hun, heq⟩ | ⟨hsub, hun, heq⟩ := hcases
    · have hun : ¬ Commands (after handle b (messages.take n)) .unsubscribe p messages[n] := fun hun =>
        nomatch hsub.1.2.2.2.symm.trans hun.2.2.2
      rw [heq]
      refine ⟨?_, by simp [hsub, hun, eq_comm]⟩
      obtain hold | hroom := hsub.2.2
      · rwa [Finset.insert_eq_of_mem hold]
      · exact (Finset.card_insert_le ..).trans hroom
    · have hsub : ¬ Subscribes (after handle b (messages.take n)) p messages[n] := fun hsub =>
        nomatch hsub.1.2.2.2.symm.trans hun.2.2.2
      rw [heq]
      exact ⟨(Finset.card_le_card (Finset.erase_subset ..)).trans hcap, by simp [hsub, hun, and_comm, eq_comm]⟩
    · rw [heq]
      exact ⟨hcap, by simp [hsub, hun]⟩

/-- A notification goes once to each client that listens, and to no other. -/
theorem notified (hfresh : b.propertySubscriptions p = ∅) (messages : List (Message D)) (data : D) :
    let clients := (notifyListeners (after handle b messages) p data).map (·.clientRequestID)
    clients.Nodup ∧ clients.length ≤ kMaxSubscribersPerProperty ∧
      ∀ c, c ∈ clients ↔ Listens handle b p messages c messages.length := by
  obtain ⟨hcap, hmem⟩ := subscriptions_after handle hfresh messages.length le_rfl
  rw [List.take_length] at hcap hmem
  simpa [notifyListeners, Function.comp_def, ← hmem] using hcap

theorem notified_gui : "gui" ∈ (notifyListeners (after (fun (_ : Message Unit) name s => (.ok none, name, s))
    ⟨"a#1", "a", fun _ => ∅, ()⟩ [⟨.subscribe, "a", "gui", "Settings", .ok ()⟩]) "Settings" ()).map (·.clientRequestID) :=
  ((notified rfl _ ()).2.2 "gui").mpr
    ⟨0, Nat.one_pos, ⟨_, rfl, ⟨⟨by decide, by decide, rfl, rfl⟩, by decide, .inr (by decide)⟩, rfl⟩, fun j hj hlt => absurd hlt (Nat.not_lt.mpr (Nat.le_of_lt_succ hj))⟩

end GnuRadio.Subscriptions
