import Mathlib.Data.List.Basic
import Mathlib.Tactic.Common

/-!
# Counted loops and runs

`loopTo body n s` is the C loop `for (i = 0; i < n; i++)` whose body may leave the enclosing
function: the flag is `false` once it has. `forTo` is the same loop without an early exit. Both
recurse on the bound, so an invariant indexed by the number of finished iterations follows by
one induction, done here once.
-/

namespace VampireOS.Lib

variable {σ : Type*}

/-- Iterations `0, …, n - 1` of `body`; the first one that answers `false` ends the loop. -/
def loopTo (body : Nat → σ → σ × Bool) : Nat → σ → σ × Bool
  | 0, s => (s, true)
  | n + 1, s =>
    match loopTo body n s with
    | (s', true) => body n s'
    | (s', false) => (s', false)

/-- Iterations `0, …, n - 1` of `body`. -/
def forTo (body : Nat → σ → σ) : Nat → σ → σ
  | 0, s => s
  | n + 1, s => body n (forTo body n s)

theorem loopTo_inv {f : Nat → σ → σ × Bool} {n : Nat} {s : σ} (I : Nat → σ → Prop) (X : σ → Prop)
    (h0 : I 0 s)
    (hs : ∀ i t, i < n → I i t →
      ((f i t).2 = true → I (i + 1) (f i t).1) ∧ ((f i t).2 = false → X (f i t).1)) :
    ((loopTo f n s).2 = true → I n (loopTo f n s).1) ∧
      ((loopTo f n s).2 = false → X (loopTo f n s).1) := by
  induction n with
  | zero => exact ⟨fun _ => h0, fun h => by simp [loopTo] at h⟩
  | succ n ih =>
    obtain ⟨ih1, ih2⟩ := ih (fun i t hi => hs i t (by omega))
    simp only [loopTo]
    rcases hr : loopTo f n s with ⟨s', b⟩
    rw [hr] at ih1 ih2
    cases b with
    | true => exact hs n s' (by omega) (ih1 rfl)
    | false => exact ⟨fun h => by simp at h, fun _ => ih2 rfl⟩

/-- What the invariant gives and every stop keeps holds after the loop. -/
theorem loopTo_keeps {f : Nat → σ → σ × Bool} {n : Nat} {s : σ} (I : Nat → σ → Prop) {X : σ → Prop}
    (h0 : I 0 s) (hn : ∀ t, I n t → X t)
    (hs : ∀ i t, i < n → I i t →
      ((f i t).2 = true → I (i + 1) (f i t).1) ∧ ((f i t).2 = false → X (f i t).1)) :
    X (loopTo f n s).1 := by
  obtain ⟨h1, h2⟩ := loopTo_inv I X h0 hs
  cases hb : (loopTo f n s).2 with
  | true => exact hn _ (h1 hb)
  | false => exact h2 hb

/-- A loop of which only iteration `k` does anything. -/
theorem loopTo_only {f : Nat → σ → σ × Bool} {n k : Nat} {s : σ} (P : σ → Prop) (hs : P s) (hk : k < n)
    (hP : P (f k s).1) (hf : ∀ t, P t → ∀ i < n, i ≠ k → f i t = (t, true)) : loopTo f n s = f k s := by
  have hle : ∀ i ≤ k, loopTo f i s = (s, true) := fun i hi => by
    induction i with
    | zero => rfl
    | succ i ih =>
      simp only [loopTo, ih (by omega)]
      exact hf s hs i (by omega) (by omega)
  have hgt : ∀ i, k < i → i ≤ n → loopTo f i s = f k s := fun i hi hn => by
    induction i with
    | zero => omega
    | succ i ih =>
      by_cases hik : i = k
      · subst hik
        simp only [loopTo, hle i (Nat.le_refl i)]
      · simp only [loopTo, ih (by omega) (by omega)]
        rcases hb : f k s with ⟨t, b⟩
        rw [hb] at hP
        cases b with
        | true => exact hf t hP i (by omega) hik
        | false => rfl
  exact hgt n hk (Nat.le_refl n)

theorem forTo_inv {f : Nat → σ → σ} {n : Nat} {s : σ} (I : Nat → σ → Prop) (h0 : I 0 s)
    (hs : ∀ i t, i < n → I i t → I (i + 1) (f i t)) : I n (forTo f n s) := by
  induction n with
  | zero => exact h0
  | succ n ih => exact hs n _ (by omega) (ih fun i t hi => hs i t (by omega))

/-- Loops over two views of one state: the body need only agree where the loop comes to. -/
theorem loopTo_map {τ : Type*} (e : σ → τ) {f : Nat → σ → σ × Bool} {g : Nat → τ → τ × Bool} {n : Nat} {s : σ}
    (h : ∀ i, i < n → ∀ t, loopTo f i s = (t, true) → g i (e t) = (e (f i t).1, (f i t).2)) :
    loopTo g n (e s) = (e (loopTo f n s).1, (loopTo f n s).2) := by
  induction n with
  | zero => rfl
  | succ n ih =>
    have ih := ih fun i hi => h i (by omega)
    simp only [loopTo]
    rcases hr : loopTo f n s with ⟨t, b⟩
    rw [hr] at ih
    rw [ih]
    cases b with
    | true => exact h n (by omega) t hr
    | false => rfl

theorem forTo_map {τ : Type*} (e : σ → τ) {f : Nat → σ → σ} {g : Nat → τ → τ} {n : Nat} {s : σ}
    (h : ∀ i, i < n → ∀ t, g i (e t) = e (f i t)) : forTo g n (e s) = e (forTo f n s) := by
  induction n with
  | zero => rfl
  | succ n ih =>
    simp only [forTo]
    rw [ih fun i hi => h i (by omega), h n (by omega)]

/-- A property that every step keeps holds after every run. -/
theorem foldl_inv {ε : Type*} {step : σ → ε → σ} (I : σ → Prop) (hs : ∀ s e, I s → I (step s e)) :
    ∀ (es : List ε) (s : σ), I s → I (es.foldl step s)
  | [], _, h => h
  | e :: es, s, h => foldl_inv I hs es (step s e) (hs s e h)

end VampireOS.Lib
