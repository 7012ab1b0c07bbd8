import Mathlib.Data.List.Basic
import Mathlib.Logic.Function.Basic
import Mathlib.Tactic.Common

/-!
# Ring buffers

A ring of capacity `N` keeps a queue in an array whose indices are taken modulo `N`: `head` is the
place of the oldest element and `len` the number of elements. `ring` is the queue that the array
stands for; `ringPut` is the loop that stores a block behind it.
-/

namespace VampireOS.Lib

variable {α : Type*} {N : Nat}

/-- The queue kept in `d`, oldest element first. -/
def ring (N : Nat) (d : Nat → α) (head len : Nat) : List α := (List.range len).map fun i => d ((head + i) % N)

/-- `for (i = 0; i < |xs|; i++) d[(tail + i) % N] = xs[i]`. -/
def ringPut (N : Nat) (d : Nat → α) (tail : Nat) : List α → Nat → α
  | [] => d
  | x :: xs => ringPut N (Function.update d (tail % N) x) (tail + 1) xs

@[simp] theorem ring_length (d : Nat → α) (head len : Nat) : (ring N d head len).length = len := by
  simp [ring]

@[simp] theorem ring_empty (d : Nat → α) (head : Nat) : ring N d head 0 = [] := rfl

theorem ring_succ (d : Nat → α) (head len : Nat) :
    ring N d head (len + 1) = ring N d head len ++ [d ((head + len) % N)] := by
  simp [ring, List.range_succ]

theorem ring_mod (d : Nat → α) (head len : Nat) : ring N d (head % N) len = ring N d head len := by
  simp [ring, Nat.mod_add_mod]

theorem ring_add (d : Nat → α) (head m n : Nat) :
    ring N d head (m + n) = ring N d head m ++ ring N d (head + m) n := by
  induction n with
  | zero => simp
  | succ n ih => rw [← Nat.add_assoc, ring_succ, ih, ring_succ, List.append_assoc, Nat.add_assoc]

/-- Taking `n` elements out of the queue moves the head. -/
theorem ring_split (d : Nat → α) (head : Nat) {n len : Nat} (h : n ≤ len) :
    ring N d head len = ring N d head n ++ ring N d ((head + n) % N) (len - n) := by
  rw [ring_mod, ← ring_add, Nat.add_sub_cancel' h]

/-- A store behind the queue is not seen by it. -/
theorem ring_update (d : Nat → α) (head : Nat) {len : Nat} (h : len < N) (x : α) :
    ring N (Function.update d ((head + len) % N) x) head len = ring N d head len := by
  unfold ring
  apply List.map_congr_left
  intro i hi
  have hi := List.mem_range.1 hi
  apply Function.update_of_ne
  intro he
  have h1 := Nat.div_add_mod (head + i) N
  have h2 := Nat.div_add_mod (head + len) N
  rw [he] at h1
  -- equal remainders and a difference below `N` force equal quotients
  have hq : (head + i) / N = (head + len) / N := by
    apply Nat.le_antisymm (Nat.div_le_div_right (by omega))
    by_contra hlt
    have : N * ((head + i) / N + 1) ≤ N * ((head + len) / N) := Nat.mul_le_mul_left N (by omega)
    rw [Nat.mul_add] at this
    omega
  rw [hq] at h1
  omega

/-- Storing a block that fits appends it to the queue. -/
theorem ring_put (head : Nat) (xs : List α) : ∀ (d : Nat → α) (len : Nat), len + xs.length ≤ N →
    ring N (ringPut N d (head + len) xs) head (len + xs.length) = ring N d head len ++ xs := by
  induction xs with
  | nil => intro d len _; simp [ringPut]
  | cons x xs ih =>
    intro d len h
    rw [List.length_cons] at h
    have hput := ih (Function.update d ((head + len) % N) x) (len + 1) (by omega)
    rw [ring_succ, ring_update d head (by omega), Function.update_self, List.append_assoc,
      List.singleton_append] at hput
    rw [ringPut, List.length_cons, ← hput, ← Nat.add_assoc head, Nat.add_right_comm len 1, Nat.add_assoc len]

theorem ringPut_mod (xs : List α) :
    ∀ (d : Nat → α) (tail : Nat), ringPut N d (tail % N) xs = ringPut N d tail xs := by
  induction xs with
  | nil => intro d tail; rfl
  | cons x xs ih =>
    intro d tail
    rw [ringPut, ringPut, Nat.mod_mod, ← ih _ (tail % N + 1), Nat.mod_add_mod, ih]

end VampireOS.Lib
