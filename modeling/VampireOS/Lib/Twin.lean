import VampireOS.Lib.Triple

/-!
# Two runs of stateful code

`Twin R m n` says that from states related by `R` the code `m` and the code `n` give the same answer
and leave related states. With `m = n` it says that the answer does not depend on what `R` leaves
open. `Alike P m n` says that `m` and `n` are one and the same run from a state with `P`.
-/

namespace VampireOS.Lib

variable {σ α β : Type}

def Twin (R : σ → σ → Prop) (m n : Act σ α) : Prop :=
  ∀ s t, R s t → (exec m s).1 = (exec n t).1 ∧ R (exec m s).2 (exec n t).2

namespace Twin

variable {R : σ → σ → Prop} {m n : Act σ α}

theorem pure {a : α} : Twin R (Pure.pure a) (Pure.pure a) := fun _ _ h => ⟨rfl, h⟩

theorem need {b : Bool} : Twin R (need b) (need b) := fun _ _ h => ⟨rfl, h⟩

theorem gets {f : σ → α} (hf : ∀ s t, R s t → f s = f t) : Twin R (gets f) (gets f) := fun s t h =>
  ⟨congrArg some (hf s t h), h⟩

theorem upd {f g : σ → σ} (hf : ∀ s t, R s t → R (f s) (g t)) : Twin R (upd f) (upd g) :=
  fun s t h => ⟨rfl, hf s t h⟩

theorem result (h : Twin R m n) : Twin R (result m) (result n) := fun s t hr =>
  ⟨congrArg some (h s t hr).1, (h s t hr).2⟩

theorem bind {f g : α → Act σ β} (hm : Twin R m n) (hf : ∀ a, Twin R (f a) (g a)) :
    Twin R (m >>= f) (n >>= g) := by
  intro s t h
  obtain ⟨h1, h2⟩ := hm s t h
  rw [exec_bind, exec_bind, ← h1]
  cases (exec m s).1 with
  | none => exact ⟨rfl, h2⟩
  | some a => exact hf a _ _ h2

/-- Each run goes on with what it read. -/
theorem read {f g : σ → α} {k l : α → Act σ β} (h : ∀ s t, R s t → Twin R (k (f s)) (l (g t))) :
    Twin R (Lib.gets f >>= k) (Lib.gets g >>= l) := fun s t hr => h s t hr s t hr

theorem ite {c : Prop} [Decidable c] {m' n' : Act σ α} (ht : c → Twin R m n) (hf : ¬ c → Twin R m' n') :
    Twin R (if c then m else m') (if c then n else n') := by
  split
  · exact ht ‹_›
  · exact hf ‹_›

end Twin

/-! ## The same run -/

/-- From a state with `P` the codes `m` and `n` run alike. -/
def Alike (P : σ → Prop) (m n : Act σ α) : Prop := ∀ s, P s → exec m s = exec n s

namespace Alike

variable {P : σ → Prop} {m n : Act σ α}

theorem refl : Alike P m m := fun _ _ => rfl

theorem result (h : Alike P m n) : Alike P (result m) (result n) := fun s hs => by
  rw [exec_result, exec_result, h s hs]

theorem attempt (h : Alike P m n) : Alike P (attempt m) (attempt n) := fun s hs => by
  rw [exec_attempt, exec_attempt, h s hs]

theorem ite {c : Prop} [Decidable c] {m' n' : Act σ α} (ht : Alike P m n) (hf : Alike P m' n') :
    Alike P (if c then m else m') (if c then n else n') := by
  split
  · exact ht
  · exact hf

/-- Only the first parts differ. -/
theorem first (h : Alike P m n) (f : α → Act σ β) : Alike P (m >>= f) (n >>= f) := fun s hs => by
  rw [exec_bind, exec_bind, h s hs]

/-- The second parts run alike from where the first can lead. -/
theorem bind {Q : α → σ → Prop} {E : σ → Prop} {f g : α → Act σ β} (h : Alike P m n) (hn : Triple P n Q E)
    (hf : ∀ a, Alike (Q a) (f a) (g a)) : Alike P (m >>= f) (n >>= g) := by
  intro s hs
  rw [exec_bind, exec_bind, h s hs]
  cases hx : (exec n s).1 with
  | none => rfl
  | some a => exact hf a _ ((hn s hs).1 a hx)

/-- The first part is the same. -/
theorem after {Q : α → σ → Prop} {E : σ → Prop} {f g : α → Act σ β} (hm : Triple P m Q E)
    (hf : ∀ a, Alike (Q a) (f a) (g a)) : Alike P (m >>= f) (m >>= g) := refl.bind hm hf

end Alike

end VampireOS.Lib
