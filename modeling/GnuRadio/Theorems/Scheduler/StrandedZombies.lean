import GnuRadio.Theorems.Scheduler.Zombies

/-! A zombie that no worker has or will have stays on the list for the rest of the run. -/

namespace GnuRadio.Adoption

variable {n : Nat} {β : Type} [DecidableEq β] {s t : State n β} {z : β} {i : Fin n} {hash : β → Nat}
  {scheduled : β → Bool} {nPasses : Nat}

end GnuRadio.Adoption
