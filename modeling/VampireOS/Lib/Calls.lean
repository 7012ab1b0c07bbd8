import Mathlib.Tactic.Common

/-!
# Programs that make system calls

A `Prog C A α` is a user program: it returns, or makes a call `c : C` and goes on with the answer. What the
calls do is a relation `ans c k s a s'`, which sees the continuation `k` too (the child of a fork runs
it). `Reaches` is a run; `Holds pre ans post p s` says that on every run of `p` from `s` each call is made
in a state with `pre` and each return in one with `post`.
-/

namespace VampireOS.Lib

inductive Prog (C : Type) (A : C → Type) (α : Type) where
  | ret (a : α)
  | call (c : C) (k : A c → Prog C A α)

namespace Prog

variable {C : Type} {A : C → Type} {S α β : Type}

protected def bind : Prog C A α → (α → Prog C A β) → Prog C A β
  | ret a, f => f a
  | call c k, f => call c fun a => (k a).bind f

instance : Monad (Prog C A) where
  pure := ret
  bind := Prog.bind

@[simp] theorem pure_bind (a : α) (f : α → Prog C A β) : (pure a : Prog C A α) >>= f = f a := rfl
@[simp] theorem ret_bind (a : α) (f : α → Prog C A β) : (ret a : Prog C A α) >>= f = f a := rfl
@[simp] theorem call_bind (c : C) (k : A c → Prog C A α) (f : α → Prog C A β) :
    call c k >>= f = call c fun a => k a >>= f := rfl

protected theorem bind_ret (p : Prog C A α) : p.bind ret = p := by
  induction p with
  | ret a => rfl
  | call c k ih => exact congrArg (call c) (funext ih)

protected theorem bind_assoc {γ : Type} (p : Prog C A α) (f : α → Prog C A β) (g : β → Prog C A γ) :
    (p.bind f).bind g = p.bind fun a => (f a).bind g := by
  induction p with
  | ret a => rfl
  | call c k ih => exact congrArg (call c) (funext ih)

instance : LawfulMonad (Prog C A) := .mk' _ Prog.bind_ret (fun _ _ => rfl) Prog.bind_assoc

/-- One call and its answer. -/
def ask (c : C) : Prog C A (A c) := call c ret

@[simp] theorem ask_bind (c : C) (f : A c → Prog C A β) : ask c >>= f = call c f := rfl

variable (pre : C → S → Prop) (ans : (c : C) → (A c → Prog C A α) → S → A c → S → Prop) (post : α → S → Prop)

/-- A run: the program and the state after some calls. -/
inductive Reaches : Prog C A α → S → Prog C A α → S → Prop where
  | refl (p : Prog C A α) (s : S) : Reaches p s p s
  | call {c : C} {k : A c → Prog C A α} {a : A c} {p : Prog C A α} {s s' s'' : S}
      (h : ans c k s a s') (hr : Reaches (k a) s' p s'') : Reaches (.call c k) s p s''

def Holds : Prog C A α → S → Prop
  | .ret a, s => post a s
  | .call c k, s => pre c s ∧ ∀ a s', ans c k s a s' → Holds (k a) s'

variable {pre ans post}

theorem Holds.reaches {p p' : Prog C A α} {s s' : S} (h : Holds pre ans post p s)
    (hr : Reaches ans p s p' s') :
    Holds pre ans post p' s' := by
  induction hr with
  | refl p s => exact h
  | call ha hr ih => exact ih (h.2 _ _ ha)

theorem Holds.reaches_ret {p : Prog C A α} {a : α} {s s' : S} (h : Holds pre ans post p s)
    (hr : Reaches ans p s (.ret a) s') : post a s' := h.reaches hr

theorem Holds.reaches_call {p : Prog C A α} {c : C} {k : A c → Prog C A α} {s s' : S}
    (h : Holds pre ans post p s) (hr : Reaches ans p s (.call c k) s') : pre c s' :=
  (h.reaches hr).1

end Prog

end VampireOS.Lib
