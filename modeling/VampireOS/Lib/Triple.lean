import Mathlib.Tactic.Common

/-!
# Stateful code that can fail

A C function that returns -1 on failure keeps the changes it made before. `Act σ α` is such code over
the state `σ`: `exec m s` is the answer, `none` for failure, and the state it leaves. `Triple P m Q E`
says that from a state with `P` a success ends in `Q` and a failure in `E`; the rules below follow
the shape of the code.
-/

namespace VampireOS.Lib

variable {σ α β : Type}

def Act (σ α : Type) := σ → Option α × σ

/-- Run the code from a state. -/
def exec (m : Act σ α) (s : σ) : Option α × σ := m s

instance : Monad (Act σ) where
  pure a := fun s => (some a, s)
  bind m f := fun s => (exec m s).1.elim (none, (exec m s).2) fun a => exec (f a) (exec m s).2

/-- `return -1`. -/
def failed : Act σ α := fun s => (none, s)

/-- A call whose failure the caller looks at, or ignores. -/
def attempt (m : Act σ α) : Act σ Bool := fun s => (some (exec m s).1.isSome, (exec m s).2)

/-- A call whose answer the caller takes apart. -/
def result (m : Act σ α) : Act σ (Option α) := fun s => (some (exec m s).1, (exec m s).2)

/-- A value read off the state. -/
def gets (f : σ → α) : Act σ α := fun s => (some (f s), s)

/-- A change of the state. -/
def upd (f : σ → σ) : Act σ Unit := fun s => (some (), f s)

/-- Failure when the answer is `none`. -/
def orFailWith (a : Option α) : Act σ α := fun s => (a, s)

/-- Go on only if `b`. -/
def need (b : Bool) : Act σ Unit := fun s => (if b then some () else none, s)

@[simp] theorem exec_pure (a : α) (s : σ) : exec (pure a : Act σ α) s = (some a, s) := rfl

@[simp] theorem exec_failed (s : σ) : exec (failed : Act σ α) s = (none, s) := rfl

theorem exec_bind (m : Act σ α) (f : α → Act σ β) (s : σ) :
    exec (m >>= f) s = (exec m s).1.elim (none, (exec m s).2) fun a => exec (f a) (exec m s).2 := rfl

@[simp] theorem exec_gets (f : σ → α) (s : σ) : exec (gets f) s = (some (f s), s) := rfl

@[simp] theorem exec_upd (f : σ → σ) (s : σ) : exec (upd f) s = (some (), f s) := rfl

@[simp] theorem exec_attempt (m : Act σ α) (s : σ) :
    exec (attempt m) s = (some (exec m s).1.isSome, (exec m s).2) := rfl

@[simp] theorem exec_result (m : Act σ α) (s : σ) :
    exec (result m) s = (some (exec m s).1, (exec m s).2) := rfl

@[simp] theorem exec_orFailWith (a : Option α) (s : σ) : exec (orFailWith a : Act σ α) s = (a, s) := rfl

@[simp] theorem exec_need (b : Bool) (s : σ) :
    exec (need b : Act σ Unit) s = (if b then some () else none, s) := rfl

theorem exec_ite {c : Prop} [Decidable c] (m n : Act σ α) (s : σ) :
    exec (if c then m else n) s = if c then exec m s else exec n s := by
  split <;> rfl

theorem exec_bind_of {m : Act σ α} {f : α → Act σ β} {s s' : σ} {a : α} (h : exec m s = (some a, s')) :
    exec (m >>= f) s = exec (f a) s' := by
  rw [exec_bind, h]
  rfl

theorem exec_then {m : Act σ α} {f : α → Act σ β} {s s' : σ} {a : α} {P : σ → Prop}
    (h : exec m s = (some a, s')) (hp : P (exec (f a) s').2) : P (exec (m >>= f) s).2 := by
  rw [exec_bind_of h]
  exact hp

/-- A success passes through both parts. -/
theorem exec_bind_some {m : Act σ α} {f : α → Act σ β} {s : σ} {b : β} (h : (exec (m >>= f) s).1 = some b) :
    ∃ a s', exec m s = (some a, s') ∧ exec (m >>= f) s = exec (f a) s' := by
  rcases hx : exec m s with ⟨_ | a, s'⟩
  · rw [exec_bind, hx] at h
    cases h
  · exact ⟨a, s', rfl, exec_bind_of hx⟩

/-! ## Triples -/

def Triple (P : σ → Prop) (m : Act σ α) (Q : α → σ → Prop) (E : σ → Prop) : Prop :=
  ∀ s, P s → (∀ a, (exec m s).1 = some a → Q a (exec m s).2) ∧ ((exec m s).1 = none → E (exec m s).2)

namespace Triple

variable {P P' : σ → Prop} {Q Q' : α → σ → Prop} {E E' : σ → Prop} {m : Act σ α}

theorem conseq (h : Triple P m Q E) (hp : ∀ s, P' s → P s) (hq : ∀ a s, Q a s → Q' a s)
    (he : ∀ s, E s → E' s) :
    Triple P' m Q' E' := fun s hs =>
  ⟨fun a ha => hq a _ ((h s (hp s hs)).1 a ha), fun hn => he _ ((h s (hp s hs)).2 hn)⟩

theorem pure {a : α} : Triple (Q a) (Pure.pure a) Q E := fun s hs =>
  ⟨fun b hb => by cases hb; exact hs, nofun⟩

theorem pureAt {a : α} {s : σ} (h : Q a s) : Triple (fun s' => s' = s) (Pure.pure a) Q E :=
  Triple.pure.conseq (fun _ e => e ▸ h) (fun _ _ h => h) fun _ h => h

theorem failed : Triple E (failed : Act σ α) Q E := fun _ hs => ⟨nofun, fun _ => hs⟩

theorem bind {R : α → σ → Prop} {Q : β → σ → Prop} {f : α → Act σ β} (hm : Triple P m R E)
    (hf : ∀ a, Triple (R a) (f a) Q E) : Triple P (m >>= f) Q E := by
  intro s hs
  rw [exec_bind]
  rcases hx : exec m s with ⟨_ | a, s'⟩
  · exact ⟨nofun, fun _ => by simpa [hx] using (hm s hs).2 (by rw [hx])⟩
  · have hr := (hm s hs).1 a (by rw [hx])
    rw [hx] at hr
    exact hf a s' hr

theorem gets {f : σ → α} : Triple (fun s => Q (f s) s) (gets f) Q E := fun s hs =>
  ⟨fun a ha => by cases ha; exact hs, nofun⟩

theorem upd {f : σ → σ} {Q : Unit → σ → Prop} : Triple (fun s => Q () (f s)) (upd f) Q E := fun _ hs =>
  ⟨fun _ _ => hs, nofun⟩

theorem change {f : σ → σ} {Q : Unit → σ → Prop} (h : ∀ s, P s → Q () (f s)) : Triple P (Lib.upd f) Q E :=
  upd.conseq h (fun _ _ h => h) fun _ h => h

theorem attempt {Q : Bool → σ → Prop} (h : Triple P m (fun _ => Q true) (Q false)) :
    Triple P (attempt m) Q E := by
  intro s hs
  obtain ⟨h1, h2⟩ := h s hs
  rw [exec_attempt]
  refine ⟨fun b hb => ?_, nofun⟩
  rcases hx : (exec m s).1 with _ | a
  · rw [hx] at hb
    cases hb
    exact h2 hx
  · rw [hx] at hb
    cases hb
    exact h1 a hx

theorem result {Q : Option α → σ → Prop} (h : Triple P m (fun a => Q (some a)) (Q none)) :
    Triple P (result m) Q E := by
  intro s hs
  obtain ⟨h1, h2⟩ := h s hs
  rw [exec_result]
  refine ⟨fun b hb => ?_, nofun⟩
  cases hb
  cases hx : (exec m s).1 with
  | none => exact h2 hx
  | some a => exact h1 a hx

theorem orFailWith {a : Option α} : Triple (fun s => a.elim (E s) fun x => Q x s) (orFailWith a) Q E := by
  intro s hs
  cases a with
  | none => exact ⟨nofun, fun _ => hs⟩
  | some x => exact ⟨fun b hb => by cases hb; exact hs, nofun⟩

theorem need {b : Bool} {Q : Unit → σ → Prop} : Triple (fun s => if b then Q () s else E s) (need b) Q E := by
  intro s hs
  cases b with
  | false => exact ⟨nofun, fun _ => hs⟩
  | true => exact ⟨fun _ _ => hs, nofun⟩

theorem ite {c : Prop} [Decidable c] {m n : Act σ α} (ht : c → Triple P m Q E) (hf : ¬ c → Triple P n Q E) :
    Triple P (if c then m else n) Q E := by
  split
  · exact ht ‹_›
  · exact hf ‹_›

/-- A value read off a state with `P`. -/
theorem read {f : σ → α} {k : α → Act σ β} {Q : β → σ → Prop} (h : ∀ s, P s → Triple P (k (f s)) Q E) :
    Triple P (Lib.gets f >>= k) Q E := fun s hs => h s hs s hs

/-- A value read off a state, which the rest starts from. -/
theorem readAt {f : σ → α} {k : α → Act σ β} {Q : β → σ → Prop}
    (h : ∀ s, P s → Triple (fun s' => s' = s) (k (f s)) Q E) :
    Triple P (Lib.gets f >>= k) Q E := fun s hs => h s hs s rfl

theorem check {b : Bool} {k : Unit → Act σ β} {Q : β → σ → Prop} (hE : ∀ s, P s → E s)
    (h : b = true → Triple P (k ()) Q E) : Triple P (Lib.need b >>= k) Q E := by
  intro s hs
  cases b with
  | false => exact ⟨nofun, fun _ => hE s hs⟩
  | true => exact h rfl s hs

theorem take {a : Option α} {k : α → Act σ β} {Q : β → σ → Prop} (hE : ∀ s, P s → E s)
    (h : ∀ x, a = some x → Triple P (k x) Q E) : Triple P (Lib.orFailWith a >>= k) Q E := by
  intro s hs
  cases a with
  | none => exact ⟨nofun, fun _ => hE s hs⟩
  | some x => exact h x rfl s hs

end Triple

/-- Every outcome of `m` keeps the invariant. -/
def Stays (I : σ → Prop) (m : Act σ α) : Prop := Triple I m (fun _ => I) I

namespace Stays

variable {I : σ → Prop} {m : Act σ α}

theorem pure {a : α} : Stays I (Pure.pure a) := fun _ hs => ⟨fun _ _ => hs, nofun⟩

theorem failed : Stays I (failed : Act σ α) := fun _ hs => ⟨nofun, fun _ => hs⟩

theorem upd {f : σ → σ} (h : ∀ s, I s → I (f s)) : Stays I (upd f) := Triple.change h

theorem gets {f : σ → α} : Stays I (gets f) := fun _ hs => ⟨fun _ _ => hs, nofun⟩

theorem attempt (h : Stays I m) : Stays I (attempt m) := Triple.attempt h

theorem result (h : Stays I m) : Stays I (result m) := Triple.result h

theorem orFailWith {a : Option α} : Stays I (orFailWith a) := fun _ hs => ⟨fun _ _ => hs, fun _ => hs⟩

theorem need {b : Bool} : Stays I (need b) := fun _ hs => ⟨fun _ _ => hs, fun _ => hs⟩

theorem bind {f : α → Act σ β} (hm : Stays I m) (hf : ∀ a, Stays I (f a)) : Stays I (m >>= f) :=
  Triple.bind hm hf

theorem read {f : σ → α} {k : α → Act σ β} (h : ∀ s, I s → Stays I (k (f s))) : Stays I (Lib.gets f >>= k) :=
  Triple.read h

theorem take {a : Option α} {k : α → Act σ β} (h : ∀ x, a = some x → Stays I (k x)) :
    Stays I (Lib.orFailWith a >>= k) :=
  Triple.take (fun _ h => h) h

theorem check {b : Bool} {k : Unit → Act σ β} (h : b = true → Stays I (k ())) : Stays I (Lib.need b >>= k) :=
  Triple.check (fun _ h => h) h

theorem ite {c : Prop} [Decidable c] {m n : Act σ α} (ht : c → Stays I m) (hf : ¬ c → Stays I n) :
    Stays I (if c then m else n) := Triple.ite ht hf

theorem exec (h : Stays I m) {s : σ} (hs : I s) : I (exec m s).2 := by
  obtain ⟨h1, h2⟩ := h s hs
  cases hx : (Lib.exec m s).1 with
  | none => exact h2 hx
  | some a => exact h1 a hx

/-- The invariant holds after the first part, and the second keeps it. -/
theorem exec_bind {f : α → Act σ β} {s : σ} (hm : I (Lib.exec m s).2) (hf : ∀ a, Stays I (f a)) :
    I (Lib.exec (m >>= f) s).2 := by
  rw [Lib.exec_bind]
  cases hx : (Lib.exec m s).1 with
  | none => exact hm
  | some a => exact (hf a).exec hm

end Stays

/-! ## What every outcome leaves -/

/-- However `m` ends, the state it leaves is related to the one before. -/
def Keeps (R : σ → σ → Prop) (m : Act σ α) : Prop := ∀ s, R s (exec m s).2

namespace Keeps

variable {R : σ → σ → Prop} {m : Act σ α}

theorem mono {R' : σ → σ → Prop} (h : Keeps R m) (hr : ∀ s s', R s s' → R' s s') : Keeps R' m :=
  fun s => hr _ _ (h s)

theorem upd {f : σ → σ} (h : ∀ s, R s (f s)) : Keeps R (upd f) := h

theorem attempt (h : Keeps R m) : Keeps R (attempt m) := h

theorem result (h : Keeps R m) : Keeps R (result m) := h

section
variable [Std.Refl R]

theorem pure {a : α} : Keeps R (Pure.pure a) := fun s => Std.Refl.refl s

theorem failed : Keeps R (failed : Act σ α) := fun s => Std.Refl.refl s

theorem gets {f : σ → α} : Keeps R (gets f) := fun s => Std.Refl.refl s

theorem orFailWith {a : Option α} : Keeps R (orFailWith a) := fun s => Std.Refl.refl s

theorem need {b : Bool} : Keeps R (need b) := fun s => Std.Refl.refl s

end

theorem bind [IsTrans σ R] {f : α → Act σ β} (hm : Keeps R m) (hf : ∀ a, Keeps R (f a)) :
    Keeps R (m >>= f) := by
  intro s
  rw [exec_bind]
  rcases hx : exec m s with ⟨_ | a, s'⟩
  · simpa [hx] using hm s
  · have h1 := hm s
    rw [hx] at h1
    exact IsTrans.trans _ _ _ h1 (hf a s')

theorem ite {c : Prop} [Decidable c] {m n : Act σ α} (ht : c → Keeps R m) (hf : ¬ c → Keeps R n) :
    Keeps R (if c then m else n) := by
  split
  · exact ht ‹_›
  · exact hf ‹_›

/-- The outcome is looked at: a failure too goes on. -/
theorem elim {a : Option α} {m : Act σ β} {f : α → Act σ β} (hn : Keeps R m) (hf : ∀ x, Keeps R (f x)) :
    Keeps R (a.elim m f) := by
  cases a with
  | none => exact hn
  | some x => exact hf x

/-- Whatever the relation carries over. -/
theorem stays {I : σ → Prop} (h : Keeps R m) (hR : ∀ s s', R s s' → I s → I s') : Stays I m := fun s hs =>
  ⟨fun _ _ => hR _ _ (h s) hs, fun _ => hR _ _ (h s) hs⟩

end Keeps

end VampireOS.Lib
