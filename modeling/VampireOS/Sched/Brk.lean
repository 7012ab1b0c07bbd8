import VampireOS.Sched.Fork
import VampireOS.Sched.Mmap
import VampireOS.Memory.Heap

/-!
# The break (user.c:858-918, sched.c:1176-1225)

`HeapIs` ties the break to the pages: those of the heap window that are mapped are the ones below
`page_up(brk)`. `HeapLaw` says so of every living program, each on tables of its own; `heapStep` is one
call of the running task, a store it makes, or a switch to another task.
-/

namespace VampireOS

open Lib

namespace Kernel

/-- `A` with `v` in the pages `q` to `q + n - 1`. -/
def span (A : TaskMem) (q n : Nat) (v : Option UserPage) : TaskMem :=
  fun m => if q ≤ m ∧ m < q + n then v else A m

/-- A zeroed page. -/
def zeroed : UserPage := ⟨fun _ => 0, true⟩

section
variable {A : TaskMem} {q n i r : Nat} {v : Option UserPage}

theorem span_zero (A : TaskMem) (q : Nat) (v : Option UserPage) : span A q 0 v = A := by
  funext m
  exact if_neg (by omega)

theorem span_succ (A : TaskMem) (q i : Nat) (v : Option UserPage) :
    Function.update (span A q i v) (q + i) v = span A q (i + 1) v := by
  funext m
  unfold span
  by_cases hm : m = q + i
  · subst hm
    rw [Function.update_self, if_pos (by omega)]
  · rw [Function.update_of_ne hm]
    by_cases hin : q ≤ m ∧ m < q + i
    · rw [if_pos hin, if_pos (by omega)]
    · rw [if_neg hin, if_neg (by omega)]

/-- Taking the last page away again. -/
theorem span_pred (hfree : A (q + i) = none) :
    Function.update (span A q (i + 1) v) (q + i) none = span A q i v := by
  funext m
  unfold span
  by_cases hm : m = q + i
  · subst hm
    rw [Function.update_self, if_neg (by omega), hfree]
  · rw [Function.update_of_ne hm]
    by_cases hin : q ≤ m ∧ m < q + i
    · rw [if_pos hin, if_pos (by omega)]
    · rw [if_neg hin, if_neg (by omega)]

theorem vpn_page (h : q + i < userPages) :
    vpn (q * pageSize + i * pageSize) = q + i ∧ (q * pageSize + i * pageSize) % pageSize = 0 := by
  simp only [vpn, userPages, pageSize] at *
  omega

/-- From `k` to `k'` only the memory of task `r` has changed; it is `A` now. -/
structure HeapAs (r : Nat) (k k' : Kernel Space) (A : TaskMem) : Prop where
  only : OnlyMem k k'
  mem : Space.OnlyFor r k.mem k'.mem A

variable {k k1 : Kernel Space}

theorem HeapAs.unmap (h : HeapAs r k k1 A) (hr : r ∈ k.mem.roots) (hq : q + i < userPages)
    (hp : A (q + i) ≠ none) :
    (k1.memAsk (.unmap r (q * pageSize + i * pageSize))).isSome = true ∧
      HeapAs r k (k1.memDo (.unmap r (q * pageSize + i * pageSize)))
        (Function.update A (q + i) none) := by
  obtain ⟨e1, e2⟩ := vpn_page hq
  have hu := h.mem.unmap hr e2 (by rw [e1]; exact hq) (by rw [e1]; exact hp)
  rw [e1] at hu
  exact ⟨hu.1, h.only.trans (.memDo (.unmap _ _) rfl), hu.2⟩

theorem HeapAs.map (h : HeapAs r k k1 A) (hr : r ∈ k.mem.roots) (hq : q + i < userPages) :
    ((k1.memAsk (.map r (q * pageSize + i * pageSize) page2M)).isSome = true →
      HeapAs r k (k1.memDo (.map r (q * pageSize + i * pageSize) page2M))
        (Function.update A (q + i) (some zeroed))) ∧
      ((k1.memAsk (.map r (q * pageSize + i * pageSize) page2M)) = none →
        HeapAs r k (k1.memDo (.map r (q * pageSize + i * pageSize) page2M)) A) := by
  obtain ⟨e1, -⟩ := vpn_page hq
  refine ⟨fun hs => ⟨h.only.trans (.memDo (.map _ _ _) rfl), ?_⟩,
    fun hn => ⟨h.only.trans (.memDo (.map _ _ _) rfl), (h.mem.map hr).2 hn⟩⟩
  have h1 := (h.mem.map hr).1 hs
  rwa [e1] at h1

/-- **Growing**: all pages are mapped and zero, or none is. -/
theorem mapPages_spec (h : HeapAs r k k A) (hr : r ∈ k.mem.roots) (hq : q + n ≤ userPages)
    (hfree : ∀ j, j < n → A (q + j) = none) :
    ((mapPages r (q * pageSize) n k).2 = true →
      HeapAs r k (mapPages r (q * pageSize) n k).1 (span A q n (some zeroed))) ∧
      ((mapPages r (q * pageSize) n k).2 = false →
        HeapAs r k (mapPages r (q * pageSize) n k).1 A) := by
  refine loopTo_inv (fun i k1 => HeapAs r k k1 (span A q i (some zeroed))) (fun k1 => HeapAs r k k1 A)
    (by rw [span_zero]; exact h) fun i k1 hi h1 => ?_
  obtain ⟨m1, m2⟩ := h1.map hr (q := q) (i := i) (by omega)
  simp only
  split
  · rename_i hs
    refine ⟨fun _ => ?_, nofun⟩
    rw [← span_succ]
    exact m1 hs
  · rename_i hs
    refine ⟨nofun, fun _ => ?_⟩
    have hstart := m2 (Option.not_isSome_iff_eq_none.1 hs)
    -- the pages go back, last first
    have hrun :=
      forTo_inv (f := fun j k => k.memDo (.unmap r (q * pageSize + (i - 1 - j) * pageSize)))
        (n := i) (s := k1.memDo (.map r (q * pageSize + i * pageSize) page2M))
      (fun d k2 => HeapAs r k k2 (span A q (i - d) (some zeroed))) hstart ?_
    · rw [Nat.sub_self, span_zero] at hrun
      exact hrun
    · intro d k2 hd h2
      have hmapped : span A q (i - d) (some zeroed) (q + (i - 1 - d)) ≠ none := by
        unfold span
        rw [if_pos (by omega)]
        exact Option.some_ne_none _
      have := (h2.unmap hr (q := q) (i := i - 1 - d) (by omega) hmapped).2
      rw [show i - d = (i - 1 - d) + 1 by omega, span_pred (hfree _ (by omega))] at this
      rw [show i - (d + 1) = i - 1 - d by omega]
      exact this

/-- **Shrinking** never fails on pages that are mapped. -/
theorem unmapPages_spec (h : HeapAs r k k A) (hr : r ∈ k.mem.roots) (hq : q + n ≤ userPages)
    (hfull : ∀ j, j < n → A (q + j) ≠ none) :
    (unmapPages r (q * pageSize) n k).2 = true ∧ HeapAs r k (unmapPages r (q * pageSize) n k).1
    (span A q n none) := by
  have hrun := loopTo_inv (f := fun i k => (k.memDo (.unmap r (q * pageSize + i * pageSize)),
      (k.memAsk (.unmap r (q * pageSize + i * pageSize))).isSome)) (n := n) (s := k)
    (fun i k1 => HeapAs r k k1 (span A q i none)) (fun _ => False)
    (by rw [span_zero]; exact h) fun i k1 hi h1 => ?_
  · have hok := Bool.eq_true_of_not_eq_false hrun.2
    exact ⟨hok, hrun.1 hok⟩
  · have hmapped : span A q i none (q + i) ≠ none := by
      unfold span
      rw [if_neg (by omega)]
      exact hfull i hi
    obtain ⟨hs, hu⟩ := h1.unmap hr (by omega) hmapped
    rw [span_succ] at hu
    exact ⟨fun _ => hu, fun hf => by rw [hs] at hf; cases hf⟩

end


variable {k k' k'' : Kernel Space} {d n : Nat} {X : Set Nat}

/-- The fields that say where a task's heap is. -/
structure SameHeap (t t' : Task) : Prop where
  cr3 : t'.cr3 = t.cr3
  base : t'.userBase = t.userBase
  brk : t'.brk = t.brk
  dead : t'.state = .dead ↔ t.state = .dead

theorem SameHeap.refl (t : Task) : SameHeap t t := ⟨rfl, rfl, rfl, Iff.rfl⟩

theorem SameHeap.trans {t t' t'' : Task} (h : SameHeap t t') (h' : SameHeap t' t'') : SameHeap t t'' :=
  ⟨h'.cr3.trans h.cr3, h'.base.trans h.base, h'.brk.trans h.brk, h'.dead.trans h.dead⟩

/-- Work on the tasks of `X` and on the memory of `d`. -/
structure HeapFrame (d : Nat) (X : Set Nat) (k k' : Kernel Space) : Prop where
  mem : Space.Spares d k.mem k'.mem
  current : k'.current = k.current
  count : k'.taskCount = k.taskCount
  task : ∀ n, n ∉ X → SameHeap (k.tasks n) (k'.tasks n)

theorem HeapFrame.refl : HeapFrame d X k k := ⟨.refl, rfl, rfl, fun _ _ => .refl _⟩

theorem HeapFrame.trans (h : HeapFrame d X k k') (h' : HeapFrame d X k' k'') : HeapFrame d X k k'' :=
  ⟨h.mem.trans h'.mem, h'.current.trans h.current, h'.count.trans h.count,
    fun n hn => (h.task n hn).trans (h'.task n hn)⟩

theorem HeapFrame.forTo {f : Nat → Kernel Space → Kernel Space} (h : ∀ j k, HeapFrame d X k (f j k))
    (n : Nat) (k : Kernel Space) :
    HeapFrame d X k (forTo f n k) := by
  induction n with
  | zero => exact .refl
  | succ n ih => exact ih.trans (h n _)

/-! ## Descriptors -/

theorem HeapFrame.setFd (i j : Nat) (e : FdEntry) : HeapFrame d X k (k.setFd i j e) := by
  refine ⟨.refl, rfl, rfl, fun n _ => ?_⟩
  rw [setFd_tasks]
  simp only
  split
  · rename_i hn
    subst hn
    exact ⟨rfl, rfl, rfl, Iff.rfl⟩
  · exact .refl _

theorem HeapFrame.wake (p : Nat) : HeapFrame d X k (k.wakePipeWaiters p) := by
  refine ⟨.refl, rfl, rfl, fun n _ => ?_⟩
  rw [wakePipeWaiters_tasks]
  split
  · unfold wakeWaiter
    split
    · rename_i hw
      exact ⟨rfl, rfl, rfl, ⟨nofun, fun hd => by rw [hd] at hw; cases hw.1⟩⟩
    · exact .refl _
  · exact .refl _

theorem HeapFrame.freePipe (p : Nat) : HeapFrame d X k (k.freePipe p) := by
  unfold Kernel.freePipe
  split
  · exact ⟨.kfree _, rfl, rfl, fun _ _ => .refl _⟩
  · exact ⟨.refl, rfl, rfl, fun _ _ => .refl _⟩

theorem HeapFrame.dropEnd (kind : FdKind) (p : Nat) : HeapFrame d X k (k.dropEnd kind p) := by
  have h0 : HeapFrame d X k (k.modPipe p (minusRef kind)) := ⟨.refl, rfl, rfl, fun _ _ => .refl _⟩
  have h : HeapFrame d X k ((k.modPipe p (minusRef kind)).wakePipeWaiters p) := h0.trans (.wake p)
  unfold Kernel.dropEnd
  simp only
  split
  · exact h.trans (.freePipe p)
  · exact h

theorem HeapFrame.dropFd (i j : Nat) : HeapFrame d X k (k.dropFd i j) := by
  rcases dropFd_cases k i j with ⟨-, e⟩ | ⟨-, -, e⟩ | ⟨p, -, -, -, e⟩ <;> rw [e]
  · exact .refl
  · exact .setFd i j .empty
  · exact (HeapFrame.dropEnd _ p).trans (.setFd i j .empty)

theorem HeapFrame.clearFds (i : Nat) : HeapFrame d X k (k.clearFds i) := .forTo (fun j _ => .dropFd i j) _ _

theorem HeapFrame.linkFd (i j : Nat) (e : FdEntry) : HeapFrame d X k (k.linkFd i j e).1 := by
  unfold Kernel.linkFd
  split
  · exact .setFd i j e
  · cases k.pipeOf e with
    | none => exact .setFd i j _
    | some p => exact (HeapFrame.setFd i j e).trans ⟨.refl, rfl, rfl, fun _ _ => .refl _⟩

theorem HeapFrame.inheritFds (dst src : Nat) : HeapFrame d X k (k.inheritFds dst src) :=
  .forTo (fun j _ => .linkFd dst j _) _ _

/-! ## Slots -/

theorem HeapFrame.modTask {i : Nat} (hi : i ∈ X) (f : Task → Task) : HeapFrame d X k (k.modTask i f) := by
  refine ⟨.refl, rfl, rfl, fun n hn => ?_⟩
  have hne : n ≠ i := fun h => hn (h ▸ hi)
  rw [modTask_tasks, if_neg hne]
  exact .refl _

theorem HeapFrame.memDo {op : SpaceOp} (h : Space.Spares d k.mem (k.mem.step op).1) :
    HeapFrame d X k (k.memDo op) :=
  ⟨h, rfl, rfl, fun _ _ => .refl _⟩

theorem HeapFrame.freeTaskUser {i : Nat} (hi : i ∈ X) (hd : (k.tasks i).cr3 = 0 ∨ (k.tasks i).cr3 = d) :
    HeapFrame d X k (k.freeTaskUser i) ∧ ((k.freeTaskUser i).tasks i).cr3 = (k.tasks i).cr3 := by
  unfold Kernel.freeTaskUser
  split
  · exact ⟨.refl, rfl⟩
  · rename_i h0
    have hd := hd.resolve_left h0
    refine ⟨(HeapFrame.memDo (by rw [hd]; exact .teardown)).trans (.modTask hi _), ?_⟩
    rw [modTask_tasks, if_pos rfl]
    rfl

theorem HeapFrame.freeTaskKstack {i : Nat} (hi : i ∈ X) :
    HeapFrame d X k (k.freeTaskKstack i) ∧ ((k.freeTaskKstack i).tasks i).cr3 = (k.tasks i).cr3 := by
  unfold Kernel.freeTaskKstack
  split
  · exact ⟨.refl, rfl⟩
  · simp only
    split
    · refine ⟨(HeapFrame.memDo (.kfree _)).trans (.modTask hi _), ?_⟩
      rw [modTask_tasks, if_pos rfl]
      rfl
    · refine ⟨.modTask hi _, ?_⟩
      rw [modTask_tasks, if_pos rfl]

theorem HeapFrame.freeTaskPml4 {i : Nat} (hi : i ∈ X) (hd : (k.tasks i).cr3 = 0 ∨ (k.tasks i).cr3 = d) :
    HeapFrame d X k (k.freeTaskPml4 i) := by
  unfold Kernel.freeTaskPml4
  split
  · exact .refl
  · rename_i h0
    have hd := hd.resolve_left h0
    simp only
    split
    · exact (HeapFrame.memDo (by rw [hd]; exact .release)).trans (.modTask hi _)
    · exact .modTask hi _

/-- A slot is taken: other tasks are left alone. -/
theorem takeSlot_frame {i : Nat} (hi : i < k.taskCount) :
    HeapFrame (k.tasks i).cr3 {i} k (k.takeSlot i) := by
  unfold takeSlot
  rw [if_pos hi]
  obtain ⟨h1, e1⟩ := HeapFrame.freeTaskUser (k := k) (d := (k.tasks i).cr3) (X := {i}) rfl (.inr rfl)
  obtain ⟨h2, e2⟩ := HeapFrame.freeTaskKstack (k := k.freeTaskUser i) (d := (k.tasks i).cr3) (X := {i}) rfl
  exact h1.trans (h2.trans (.freeTaskPml4 rfl (.inr (e2.trans e1))))

/-! ## The break -/

/-- The number of pages below `page_up(a)`. -/
def pageNo (a : Nat) : Nat := (a + pageSize - 1) / pageSize

/-- The heap pages of a program at `base` that are mapped are those below `page_up(brk)`. -/
structure HeapIs (A : TaskMem) (base brk : Nat) : Prop where
  page : base % pageSize = 0
  room : base + (2 + userHeapPages) * pageSize ≤ userPages * pageSize
  lo : base + 2 * pageSize ≤ brk
  hi : brk ≤ base + 2 * pageSize + userHeapPages * pageSize
  mapped : ∀ a, Mmap.HeapWindow base a → ((A (vpn a)).isSome = true ↔ a < pageUp brk)

/-- The heap of a fresh image. -/
structure FreshHeap (A : TaskMem) (base brk : Nat) : Prop where
  page : base % pageSize = 0
  room : base + (2 + userHeapPages) * pageSize ≤ userPages * pageSize
  start : brk = base + 2 * pageSize
  empty : ∀ j, j < userHeapPages → (A (base / pageSize + 2 + j)).isSome = false

section
variable {A B : TaskMem} {base brk a : Nat}

theorem pageUp_eq (ha : a + pageSize ≤ 2 ^ 64) : pageUp a = pageNo a * pageSize := by
  have h1 : pageUp a % pageSize = 0 := page_and_addr _
  have h2 : pageUp a / pageSize = pageNo a := by
    unfold pageUp pageNo
    rw [and_addrMask_div]
    simp only [pageSize] at *
    omega
  rw [← h2]
  simp only [pageSize] at *
  omega

/-- The window by page numbers. -/
theorem window_vpn (hroom : base + (2 + userHeapPages) * pageSize ≤ userPages * pageSize)
    (hp : base % pageSize = 0) (hw : Mmap.HeapWindow base a) :
    vpn a = a / pageSize ∧ base / pageSize + 2 ≤ vpn a ∧ vpn a < base / pageSize + 2 +
    userHeapPages := by
  unfold Mmap.HeapWindow at hw
  simp only [vpn, userHeapPages, userPages, pageSize] at *
  omega

/-- `mapped` by page numbers. -/
theorem mapped_iff (hroom : base + (2 + userHeapPages) * pageSize ≤ userPages * pageSize)
    (hp : base % pageSize = 0) (hlo : base + 2 * pageSize ≤ brk)
    (hhi : brk ≤ base + 2 * pageSize + userHeapPages * pageSize) :
    (∀ a, Mmap.HeapWindow base a → ((A (vpn a)).isSome = true ↔ a < pageUp brk)) ↔
      ∀ n, base / pageSize + 2 ≤ n → n < base / pageSize + 2 + userHeapPages →
      ((A n).isSome = true ↔ n < pageNo brk) := by
  have h47 : userPages * pageSize = 2 ^ 47 := by decide
  have hup : pageUp brk = pageNo brk * pageSize := by
    refine pageUp_eq ?_
    rw [h47] at hroom
    unfold userHeapPages pageSize at *
    omega
  constructor
  · intro h n h1 h2
    have hw : Mmap.HeapWindow base (n * pageSize) := by
      unfold Mmap.HeapWindow
      simp only [userHeapPages, pageSize] at *
      omega
    obtain ⟨e, -⟩ := window_vpn hroom hp hw
    have := h _ hw
    rw [e, Nat.mul_div_cancel _ (by decide : 0 < pageSize), hup] at this
    rw [this]
    simp only [pageSize]
    omega
  · intro h a hw
    obtain ⟨e, h1, h2⟩ := window_vpn hroom hp hw
    rw [h _ h1 h2, hup, e]
    simp only [pageSize]
    omega

theorem FreshHeap.heapIs (h : FreshHeap A base brk) : HeapIs A base brk := by
  have hlo : base + 2 * pageSize ≤ brk := h.start.ge
  have hhi : brk ≤ base + 2 * pageSize + userHeapPages * pageSize := h.start.le.trans (Nat.le_add_right _ _)
  refine ⟨h.page, h.room, hlo, hhi, (mapped_iff h.room h.page hlo hhi).2 fun n h1 h2 => ?_⟩
  have he := h.empty (n - (base / pageSize + 2)) (by omega)
  rw [show base / pageSize + 2 + (n - (base / pageSize + 2)) = n by omega] at he
  have hp := h.page
  rw [he, h.start]
  unfold pageNo
  simp only [pageSize] at *
  constructor
  · exact nofun
  · omega

end

/-- What a call of `user_brk` does: `ans` is its answer. -/
structure BrkDone (k k' : Kernel Space) (ans : Option Nat) : Prop where
  inv : k'.mem.Inv
  roots : k'.mem.roots = k.mem.roots
  sched : k'.current = k.current ∧ k'.taskCount = k.taskCount
  other : ∀ r ∈ k.mem.roots, r ≠ (k.tasks k.current).cr3 → k'.mem.mems r = k.mem.mems r
  tasks : k'.tasks =
    Function.update k.tasks k.current { k.tasks k.current with brk := ans.getD (k.tasks k.current).brk }
  heap : HeapIs (k'.mem.mems (k.tasks k.current).cr3) (k.tasks k.current).userBase
    (ans.getD (k.tasks k.current).brk)
  failed : ans = none → k'.mem.mems (k.tasks k.current).cr3 = k.mem.mems (k.tasks k.current).cr3
  zero : ∀ n pg, k.mem.mems (k.tasks k.current).cr3 n = none → k'.mem.mems (k.tasks k.current).cr3
    n = some pg → pg = zeroed
  kept : ∀ a, Mmap.HeapWindow (k.tasks k.current).userBase a → a < (k.tasks k.current).brk →
    a < ans.getD (k.tasks k.current).brk →
    k'.mem.mems (k.tasks k.current).cr3 (vpn a) = k.mem.mems (k.tasks k.current).cr3 (vpn a)

section
variable {B : TaskMem} {b : Nat}

/-- The call is answered without a change. -/
theorem BrkDone.same (hi : k.mem.Inv)
    (hh : HeapIs (k.mem.mems (k.tasks k.current).cr3) (k.tasks k.current).userBase
      (k.tasks k.current).brk)
    {ans : Option Nat} (ha : ans.getD (k.tasks k.current).brk = (k.tasks k.current).brk) :
    BrkDone k k ans := by
  refine ⟨hi, rfl, ⟨rfl, rfl⟩, fun _ _ _ => rfl, ?_, by rw [ha]; exact hh, fun _ => rfl,
    fun n pg h1 h2 => ?_, fun _ _ _ _ => rfl⟩
  · rw [ha, Function.update_eq_self]
  · rw [h1] at h2
    cases h2

theorem HeapAs.tasks {r : Nat} {A : TaskMem} (h : HeapAs r k k1 A) :
    k1.tasks = k.tasks ∧ k1.current = k.current ∧ k1.taskCount = k.taskCount := by
  rw [h.only.eq]
  exact ⟨rfl, rfl, rfl⟩

/-- No page could be had: the old break stays. -/
theorem HeapAs.refused (h : HeapAs (k.tasks k.current).cr3 k k1 (k.mem.mems (k.tasks k.current).cr3))
    (hh : HeapIs (k.mem.mems (k.tasks k.current).cr3) (k.tasks k.current).userBase (k.tasks k.current).brk) :
    BrkDone k k1 none := by
  obtain ⟨e1, e2, e3⟩ := h.tasks
  refine ⟨h.mem.inv, h.mem.roots, ⟨e2, e3⟩, h.mem.other, ?_, ?_, fun _ => h.mem.self,
    fun n pg h1 h2 => ?_, fun a _ _ _ => ?_⟩
  · rw [Option.getD_none, Function.update_eq_self, e1]
  · rw [h.mem.self]
    exact hh
  · rw [h.mem.self, h1] at h2
    cases h2
  · rw [h.mem.self]

/-- The break moves to `b`. -/
theorem HeapAs.moved (h : HeapAs (k.tasks k.current).cr3 k k1 B)
    (hh : HeapIs B (k.tasks k.current).userBase b)
    (hz : ∀ n pg, k.mem.mems (k.tasks k.current).cr3 n = none → B n = some pg → pg = zeroed)
    (hk : ∀ a, Mmap.HeapWindow (k.tasks k.current).userBase a → a < (k.tasks k.current).brk → a < b →
      B (vpn a) = k.mem.mems (k.tasks k.current).cr3 (vpn a)) :
    BrkDone k (k1.modTask k1.current fun t => { t with brk := b }) (some b) := by
  obtain ⟨e1, e2, e3⟩ := h.tasks
  refine ⟨h.mem.inv, h.mem.roots, ⟨e2, e3⟩, h.mem.other, ?_, ?_, nofun, fun n pg h1 h2 => ?_,
    fun a h1 h2 h3 => ?_⟩
  · change Function.update k1.tasks k1.current { k1.tasks k1.current with brk := b } = _
    rw [e1, e2]
    rfl
  · change HeapIs (k1.mem.mems _) _ _
    rw [h.mem.self]
    exact hh
  · change k1.mem.mems _ n = some pg at h2
    rw [h.mem.self] at h2
    exact hz n pg h1 h2
  · change k1.mem.mems _ (vpn a) = _
    rw [h.mem.self]
    exact hk a h1 h2 h3

theorem below_pageNo {x a : Nat} (h : a < x) : a / pageSize < pageNo x := by
  unfold pageNo
  simp only [pageSize]
  omega

/-- The window in page numbers holds the break. -/
theorem pageNo_bounds {base brk : Nat} (hp : base % pageSize = 0) (hlo : base + 2 * pageSize ≤ brk)
    (hhi : brk ≤ base + 2 * pageSize + userHeapPages * pageSize) :
    base / pageSize + 2 ≤ pageNo brk ∧ pageNo brk ≤ base / pageSize + 2 + userHeapPages := by
  unfold pageNo
  simp only [userHeapPages, pageSize] at *
  omega

section
variable {A : TaskMem} {base brk want : Nat}

theorem HeapIs.pages (h : HeapIs A base brk) : base / pageSize + 2 + userHeapPages ≤ userPages ∧
    ∀ n, base / pageSize + 2 ≤ n → n < base / pageSize + 2 + userHeapPages →
    ((A n).isSome = true ↔ n < pageNo brk) := by
  refine ⟨?_, (mapped_iff h.room h.page h.lo h.hi).1 h.mapped⟩
  have hp := h.page
  have hroom : base + (2 + userHeapPages) * pageSize ≤ 2 ^ 47 :=
    (show userPages * pageSize = 2 ^ 47 by decide) ▸ h.room
  unfold userHeapPages userPages pageSize at *
  omega

theorem HeapIs.of_pages (h : HeapIs A base brk) (hlo : base + 2 * pageSize ≤ want)
    (hhi : want ≤ base + 2 * pageSize + userHeapPages * pageSize) {B : TaskMem}
    (hB : ∀ n, base / pageSize + 2 ≤ n → n < base / pageSize + 2 + userHeapPages →
      ((B n).isSome = true ↔ n < pageNo want)) :
    HeapIs B base want := ⟨h.page, h.room, hlo, hhi, (mapped_iff h.room h.page hlo hhi).2 hB⟩

/-- The pages between the old and the new break are zero. -/
theorem HeapIs.grow (h : HeapIs A base brk) (hlo : base + 2 * pageSize ≤ want)
    (hhi : want ≤ base + 2 * pageSize + userHeapPages * pageSize) (hgt : pageNo brk < pageNo want) :
    HeapIs (span A (pageNo brk) (pageNo want - pageNo brk) (some zeroed)) base want ∧
      (∀ j, j < pageNo want - pageNo brk → A (pageNo brk + j) = none) ∧
      ∀ a, Mmap.HeapWindow base a → a < brk →
        span A (pageNo brk) (pageNo want - pageNo brk) (some zeroed) (vpn a) = A (vpn a) := by
  obtain ⟨-, hpages⟩ := h.pages
  obtain ⟨o1, -⟩ := pageNo_bounds h.page h.lo h.hi
  obtain ⟨-, w2⟩ := pageNo_bounds h.page hlo hhi
  refine ⟨h.of_pages hlo hhi fun n h1 h2 => ?_, fun j hj => ?_, fun a hw ha => ?_⟩
  · unfold span
    split
    · rename_i hin
      exact ⟨fun _ => by omega, fun _ => rfl⟩
    · rename_i hin
      rw [hpages n h1 h2]
      omega
  · have := hpages (pageNo brk + j) (by omega) (by omega)
    rw [← Option.not_isSome_iff_eq_none, this]
    omega
  · have := below_pageNo ha
    rw [← (window_vpn h.room h.page hw).1] at this
    exact if_neg (by omega)

/-- The pages above the new break are gone. -/
theorem HeapIs.shrink (h : HeapIs A base brk) (hlo : base + 2 * pageSize ≤ want)
    (hhi : want ≤ base + 2 * pageSize + userHeapPages * pageSize) (hle : pageNo want ≤ pageNo brk) :
    HeapIs (span A (pageNo want) (pageNo brk - pageNo want) none) base want ∧
      (∀ j, j < pageNo brk - pageNo want → A (pageNo want + j) ≠ none) ∧
      ∀ a, Mmap.HeapWindow base a → a < want →
        span A (pageNo want) (pageNo brk - pageNo want) none (vpn a) = A (vpn a) := by
  obtain ⟨-, hpages⟩ := h.pages
  obtain ⟨-, o2⟩ := pageNo_bounds h.page h.lo h.hi
  obtain ⟨w1, -⟩ := pageNo_bounds h.page hlo hhi
  refine ⟨h.of_pages hlo hhi fun n h1 h2 => ?_, fun j hj => ?_, fun a hw ha => ?_⟩
  · unfold span
    split
    · rename_i hin
      exact ⟨nofun, fun _ => by omega⟩
    · rename_i hin
      rw [hpages n h1 h2]
      omega
  · have := hpages (pageNo want + j) (by omega) (by omega)
    rw [← Option.isSome_iff_ne_none, this]
    omega
  · have := below_pageNo ha
    rw [← (window_vpn h.room h.page hw).1] at this
    exact if_neg (by omega)

end

/-- **`user_brk`** of a program whose heap pages are those below the break. -/
theorem userBrk_done (hi : k.mem.Inv) (hr : (k.tasks k.current).cr3 ∈ k.mem.roots)
    (hcr3 : k.currentCr3 = (k.tasks k.current).cr3) (hu : (k.tasks k.current).cr3 ≠ pml4Phys)
    (hb : (k.tasks k.current).userBase ≠ 0)
    (hh : HeapIs (k.mem.mems (k.tasks k.current).cr3) (k.tasks k.current).userBase
      (k.tasks k.current).brk)
    (want : Nat) :
    BrkDone k (k.userBrk want).1 (k.userBrk want).2 := by
  unfold userBrk
  simp only
  rw [hcr3, if_neg (not_or.2 ⟨hu, hb⟩)]
  have hold : (if (k.tasks k.current).brk < (k.tasks k.current).userBase + 2 * pageSize ∨
      (k.tasks k.current).brk > (k.tasks k.current).userBase + 2 * pageSize + userHeapPages * pageSize then
      (k.tasks k.current).userBase + 2 * pageSize else (k.tasks k.current).brk) = (k.tasks k.current).brk :=
    if_neg (not_or.2 ⟨Nat.not_lt.2 hh.lo, Nat.not_lt.2 hh.hi⟩)
  rw [hold]
  split
  · exact .same hi hh rfl
  · split
    · exact .same hi hh rfl
    · rename_i hrange
      obtain ⟨hlo, hhi⟩ := not_or.1 hrange
      have hlo := Nat.not_lt.1 hlo
      have hhi := Nat.not_lt.1 hhi
      have hup : ∀ x, x ≤ (k.tasks k.current).userBase + 2 * pageSize + userHeapPages * pageSize →
          pageUp x = pageNo x * pageSize := by
        intro x hx
        have hroom : (k.tasks k.current).userBase + (2 + userHeapPages) * pageSize ≤ 2 ^ 47 :=
          (show userPages * pageSize = 2 ^ 47 by decide) ▸ hh.room
        refine pageUp_eq ?_
        unfold userHeapPages pageSize at *
        omega
      have hstart : HeapAs (k.tasks k.current).cr3 k k (k.mem.mems (k.tasks k.current).cr3) :=
        ⟨.refl, .refl hi⟩
      have hsub : ∀ x y, (x * pageSize - y * pageSize) / pageSize = x - y := fun x y => by
        rw [← Nat.sub_mul, Nat.mul_div_cancel _ (by decide : 0 < pageSize)]
      have hlast := hh.pages.1
      have ho := (pageNo_bounds hh.page hh.lo hh.hi).2
      have hw := (pageNo_bounds hh.page hlo hhi).2
      rw [hup want hhi, hup _ hh.hi, hsub, hsub]
      by_cases hgt : pageNo (k.tasks k.current).brk < pageNo want
      · obtain ⟨g1, g2, g3⟩ := hh.grow hlo hhi hgt
        obtain ⟨m1, m2⟩ := mapPages_spec hstart hr (by omega) g2
        rw [if_pos (Nat.mul_lt_mul_of_pos_right hgt (by decide))]
        split
        · rename_i hok
          refine (m1 hok).moved g1 (fun n pg h1 h2 => ?_) fun a ha hbrk _ => g3 a ha hbrk
          unfold span at h2
          split at h2
          · exact (Option.some.inj h2).symm
          · rw [h1] at h2
            cases h2
        · rename_i hno
          exact (m2 (Bool.eq_false_iff.2 hno)).refused hh
      · have hle := Nat.not_lt.1 hgt
        obtain ⟨g1, g2, g3⟩ := hh.shrink hlo hhi hle
        obtain ⟨m1, m2⟩ := unmapPages_spec hstart hr (by omega) g2
        rw [if_neg (Nat.not_lt.2 (Nat.mul_le_mul_right _ hle)), if_pos m1]
        refine m2.moved g1 (fun n pg h1 h2 => ?_) fun a ha _ hwant => g3 a ha hwant
        unfold span at h2
        split at h2
        · cases h2
        · rw [h1] at h2
          cases h2

end
/-! ## Forks -/

/-- A PML4 of a user task. -/
def UserCr3 (c : Nat) : Prop := c ≠ 0 ∧ c ≠ pml4Phys

/-- Every living task of a program has the heap pages below its break, in tables of its own. -/
structure HeapLaw (k : Kernel Space) : Prop where
  inv : k.mem.Inv
  cur : k.current < k.taskCount ∧ (k.tasks k.current).state ≠ .dead
  own : ∀ i, i < k.taskCount → UserCr3 (k.tasks i).cr3 → (k.tasks i).cr3 ∈ k.mem.roots ∧
    ∀ j, j < k.taskCount → (k.tasks j).cr3 = (k.tasks i).cr3 → j = i
  heap : ∀ i, i < k.taskCount → (k.tasks i).state ≠ .dead → UserCr3 (k.tasks i).cr3 →
    (k.tasks i).userBase ≠ 0 →
    HeapIs (k.mem.mems (k.tasks i).cr3) (k.tasks i).userBase (k.tasks i).brk

/-- No task's heap has changed. -/
structure HeapSame (k k' : Kernel Space) : Prop where
  inv : k.mem.Inv → k'.mem.Inv
  keeps : k.mem.Inv → ∀ r ∈ k.mem.roots, r ∈ k'.mem.roots ∧ k'.mem.mems r = k.mem.mems r
  sched : k'.current = k.current ∧ k'.taskCount = k.taskCount
  task : ∀ n, SameHeap (k.tasks n) (k'.tasks n)

theorem HeapSame.law (h : HeapSame k k') (hl : HeapLaw k) : HeapLaw k' := by
  have hcr3 := fun n => (h.task n).cr3
  have hdead := fun n => (h.task n).dead
  refine ⟨h.inv hl.inv, ?_, fun i hi hu => ?_, fun i hi hd hu hb => ?_⟩
  · rw [h.sched.1, h.sched.2, ne_eq, hdead]
    exact hl.cur
  · rw [h.sched.2] at hi ⊢
    rw [hcr3] at hu ⊢
    obtain ⟨h1, h2⟩ := hl.own i hi hu
    refine ⟨(h.keeps hl.inv _ h1).1, fun j hj e => h2 j hj ?_⟩
    rw [← hcr3]
    exact e
  · rw [h.sched.2] at hi
    rw [ne_eq, hdead] at hd
    rw [hcr3] at hu ⊢
    rw [(h.task i).base] at hb ⊢
    rw [(h.task i).brk, (h.keeps hl.inv _ (hl.own i hi hu).1).2]
    exact hl.heap i hi hd hu hb

/-- A successful `vmm_clone_pml4` and `vmm_copy_user`: the child's memory is the parent's. -/
theorem fork_child {s : Space} {r c : Nat} (hi : s.Inv) (hr : r ∈ s.roots)
    (hc : (s.step (.fork r)).2 = some c) :
    c ∉ s.roots ∧ (s.step (.fork r)).1.Inv ∧ (s.step (.fork r)).1.roots = insert c s.roots ∧
      (s.step (.fork r)).1.mems c = s.mems r ∧ ∀ r' ∈ s.roots, (s.step (.fork r)).1.mems r' =
      s.mems r' := by
  have hok := Space.fork_ok hi hr
  have hstep : s.step (.fork r) = s.forkPml4 r := by rw [Space.step, Space.onTask, if_pos hr]
  rw [hstep] at hc ⊢
  have hroots : c ∉ s.roots ∧ (s.forkPml4 r).1.roots = insert c s.roots := by
    unfold Space.forkPml4 at hc ⊢
    rcases Space.clonePml4_spec hi with e | ⟨p, vm', e, a1, -⟩
    · rw [e] at hc
      cases hc
    · rw [e] at hc ⊢
      simp only at hc ⊢
      split at hc
      · rename_i hb
        cases hc
        rw [if_pos hb]
        exact ⟨a1, rfl⟩
      · cases hc
  obtain ⟨B, hB, hmem⟩ := hok.success c hc
  cases hB
  rw [hroots.2] at hmem
  refine ⟨hroots.1, hok.inv, hroots.2, ?_, fun r' hr' => ?_⟩
  · rw [hmem c (Finset.mem_insert_self _ _), Function.update_self]
  · rw [hmem r' (Finset.mem_insert_of_mem hr'), Function.update_of_ne (ne_of_mem_of_not_mem hr' hroots.1)]

/-- A fork that is refused. -/
theorem fork_refused {s : Space} {r : Nat} (hi : s.Inv) (hr : r ∈ s.roots)
    (hc : (s.step (.fork r)).2 = none) :
    (s.step (.fork r)).1.Inv ∧ (s.step (.fork r)).1.roots = s.roots ∧
      ∀ r' ∈ s.roots, (s.step (.fork r)).1.mems r' = s.mems r' := by
  have hstep : s.step (.fork r) = s.forkPml4 r := by rw [Space.step, Space.onTask, if_pos hr]
  rw [hstep] at hc ⊢
  obtain ⟨h1, h2⟩ := Space.forkPml4_undone hi hr hc
  exact ⟨h2, h1.roots, h1.mems⟩

theorem kalloc_same (minPhys : Nat) : HeapSame k (k.memDo (.kalloc minPhys)) := by
  refine ⟨fun hi => (Space.kalloc_ok hi minPhys).inv, fun _ r hr => ⟨?_, ?_⟩, ⟨rfl, rfl⟩, fun _ => .refl _⟩
  · rw [memDo_space, Space.step]
    unfold Space.kernAlloc
    simp only
    split <;> exact hr
  · rw [memDo_space, Space.step]
    unfold Space.mems
    rw [Space.kernAlloc_vm]

theorem kfree_same (f : Nat) : HeapSame k (k.memDo (.kfree f)) := by
  have h := fun d => Space.Spares.kfree (s := k.mem) (d := d) f
  refine ⟨(h 0).inv, fun hi r hr => ?_, ⟨rfl, rfl⟩, fun _ => .refl _⟩
  exact (h (r + 1)).keeps hi r hr (Nat.ne_of_lt (Nat.lt_succ_self r))

theorem HeapSame.trans (h : HeapSame k k') (h' : HeapSame k' k'') : HeapSame k k'' where
  inv hi := h'.inv (h.inv hi)
  keeps hi r hr := by
    obtain ⟨h1, h2⟩ := h.keeps hi r hr
    obtain ⟨h3, h4⟩ := h'.keeps (h.inv hi) r h1
    exact ⟨h3, h4.trans h2⟩
  sched := ⟨h'.sched.1.trans h.sched.1, h'.sched.2.trans h.sched.2⟩
  task n := (h.task n).trans (h'.task n)

/-- The slot of a child. -/
theorem takeSlot_child {i : Nat} (hl : HeapLaw k) (hi : k.freeSlot = some i) : ∃ d,
    (d = 0 ∨ i < k.taskCount ∧ d = (k.tasks i).cr3) ∧ i ≠ k.current ∧
    Space.Spares d k.mem (k.takeSlot i).mem ∧
      (k.takeSlot i).current = k.current ∧ k.taskCount ≤ (k.takeSlot i).taskCount ∧
      i < (k.takeSlot i).taskCount ∧
      (∀ n, n < (k.takeSlot i).taskCount → n ≠ i → n < k.taskCount) ∧
      ∀ n, n ≠ i → SameHeap (k.tasks n) ((k.takeSlot i).tasks n) := by
  rcases freeSlot_some hi with ⟨hlt, hre⟩ | ⟨rfl, -⟩
  · have hf := takeSlot_frame hlt
    refine ⟨_, .inr ⟨hlt, rfl⟩, ?_, hf.mem, hf.current, hf.count.ge, hf.count ▸ hlt,
      fun n hn _ => hf.count ▸ hn, fun n hn => hf.task n hn⟩
    rintro rfl
    exact hl.cur.2 (slotReusable_dead hre)
  · have hne : k.taskCount ≠ k.current := (Nat.ne_of_lt hl.cur.1).symm
    have h0 : k.taskCount ≠ 0 := by
      have := hl.cur.1
      omega
    unfold takeSlot
    rw [if_neg (Nat.lt_irrefl _)]
    refine ⟨0, .inl rfl, hne, .refl, if_neg h0, Nat.le_succ _, Nat.lt_succ_self _,
      fun n hn hni => ?_, fun n _ => .refl _⟩
    simp only at hn
    omega

/-- **The scheduler's side of a fork**: the child gets the break and the base of the parent. -/
theorem schedFork_law (hl : HeapLaw k) {c top : Nat} (hc : c ∈ k.mem.roots)
    (hnew : ∀ j, j < k.taskCount → (k.tasks j).cr3 ≠ c) (hu : (k.tasks k.current).cr3 ≠ pml4Phys)
    (hm : k.mem.mems c = k.mem.mems (k.tasks k.current).cr3) :
    HeapLaw (k.schedFork top c).1 := by
  unfold schedFork
  simp only
  split
  · exact hl
  · rename_i hck
    simp only [not_or] at hck
    obtain ⟨-, -, hc0, hcb, -, hp0, -⟩ := hck
    cases hi : k.freeSlot with
    | none => exact hl
    | some i =>
      obtain ⟨d, hd, hcur, hsp, t1, t2, t3, t4, t5⟩ := takeSlot_child hl hi
      rw [Option.elim_some]
      simp only
      set k2 := (k.takeSlot i).spawnTask i (some k.current) { k.tasks k.current with
        regs := { k.frame with rax := 0 }, kstackTop := top, cr3 := c, cwdPath :=
          copyCwdPath (k.tasks k.current).cwdPath } with hk2
      have hf : HeapFrame d ∅ k2 ((k2.clearFds i).inheritFds i k2.current) :=
        (HeapFrame.clearFds i).trans (.inheritFds i _)
      generalize (k2.clearFds i).inheritFds i k2.current = k3 at hf ⊢
      -- `d` is the old PML4 of the slot, if it had one
      have hcd : c ≠ d := by
        rcases hd with rfl | ⟨hlt, rfl⟩
        · exact hc0
        · exact (hnew i hlt).symm
      have hdj : ∀ j, j < k.taskCount → j ≠ i → UserCr3 (k.tasks j).cr3 → (k.tasks j).cr3 ≠ d := by
        rintro j hj hji huj e
        rcases hd with rfl | ⟨hlt, rfl⟩
        · exact huj.1 e
        · exact hji ((hl.own i hlt (e ▸ huj)).2 j hj e)
      have hall : Space.Spares d k.mem k3.mem := hsp.trans hf.mem
      have hown : ∀ j, j ≠ i → SameHeap (k.tasks j) (k3.tasks j) := fun j hj => by
        refine (t5 j hj).trans ?_
        have h2 : k2.tasks j = (k.takeSlot i).tasks j := Function.update_of_ne hj _ _
        rw [← h2]
        exact hf.task j (Set.notMem_empty j)
      have hself : k2.tasks i = _ := Function.update_self i _ _
      have hchild := hf.task i (Set.notMem_empty i)
      have e1 : (k3.tasks i).cr3 = c := by rw [hchild.cr3, hself]
      have e2 : (k3.tasks i).userBase = (k.tasks k.current).userBase := by rw [hchild.base, hself]
      have e3 : (k3.tasks i).brk = (k.tasks k.current).brk := by rw [hchild.brk, hself]
      have hcount : k3.taskCount = (k.takeSlot i).taskCount := hf.count
      have hcurrent : k3.current = k.current := hf.current.trans t1
      have hcroot := hall.keeps hl.inv c hc hcd
      refine ⟨hall.inv hl.inv, ?_, fun j hj huj => ?_, fun j hj hdead huj hb => ?_⟩
      · rw [hcurrent, hcount, ne_eq, (hown _ hcur.symm).dead]
        exact ⟨lt_of_lt_of_le hl.cur.1 t2, hl.cur.2⟩
      · rw [hcount] at hj ⊢
        by_cases hji : j = i
        · subst hji
          rw [e1]
          refine ⟨hcroot.1, fun n hn e => ?_⟩
          by_contra hne
          rw [(hown n hne).cr3] at e
          exact hnew n (t4 n hn hne) e
        · have hlt := t4 j hj hji
          rw [(hown j hji).cr3] at huj ⊢
          obtain ⟨h1, h2⟩ := hl.own j hlt huj
          refine ⟨(hall.keeps hl.inv _ h1 (hdj j hlt hji huj)).1, fun n hn e => ?_⟩
          by_cases hni : n = i
          · subst hni
            rw [e1] at e
            exact absurd e.symm (hnew j hlt)
          · rw [(hown n hni).cr3] at e
            exact h2 n (t4 n hn hni) e
      · rw [hcount] at hj
        by_cases hji : j = i
        · subst hji
          rw [e2] at hb ⊢
          rw [e1, e3, hcroot.2, hm]
          exact hl.heap k.current hl.cur.1 hl.cur.2 ⟨hp0, hu⟩ hb
        · have hlt := t4 j hj hji
          rw [ne_eq, (hown j hji).dead] at hdead
          rw [(hown j hji).cr3] at huj ⊢
          rw [(hown j hji).base] at hb ⊢
          rw [(hown j hji).brk, (hall.keeps hl.inv _ (hl.own j hlt huj).1 (hdj j hlt hji huj)).2]
          exact hl.heap j hlt hdead huj hb

theorem currentCr3_eq (hc : 0 < k.taskCount) (h0 : (k.tasks k.current).cr3 ≠ 0) :
    k.currentCr3 = (k.tasks k.current).cr3 := by
  unfold currentCr3
  exact if_neg (not_or.2 ⟨Nat.ne_of_gt hc, h0⟩)

/-- **`user_fork`** keeps the law. -/
theorem userFork_law (hl : HeapLaw k) : HeapLaw k.userFork.1 := by
  unfold userFork
  split
  · exact hl
  · rename_i hcr3
    have hcount : 0 < k.taskCount := by
      have := hl.cur.1
      omega
    have h0 : (k.tasks k.current).cr3 ≠ 0 := by
      intro h0
      apply hcr3
      unfold currentCr3
      exact if_pos (.inr h0)
    have hcur := currentCr3_eq hcount h0
    rw [hcur] at hcr3
    have hla := (kalloc_same (k := k) page2M).law hl
    cases hf : k.memAsk (.kalloc page2M) with
    | none => exact hla
    | some f =>
      simp only
      have hcur1 : (k.memDo (.kalloc page2M)).currentCr3 =
          ((k.memDo (.kalloc page2M)).tasks (k.memDo (.kalloc page2M)).current).cr3 := hcur
      have hu1 : ((k.memDo (.kalloc page2M)).tasks (k.memDo (.kalloc page2M)).current).cr3 ≠ pml4Phys := hcr3
      have h01 : ((k.memDo (.kalloc page2M)).tasks (k.memDo (.kalloc page2M)).current).cr3 ≠ 0 := h0
      generalize k.memDo (.kalloc page2M) = k1 at hla hcur1 hu1 h01 ⊢
      have hroot := (hla.own k1.current hla.cur.1 ⟨h01, hu1⟩).1
      rw [hcur1]
      cases hc : k1.memAsk (.fork (k1.tasks k1.current).cr3) with
      | none =>
        obtain ⟨a1, a2, a3⟩ := fork_refused hla.inv hroot hc
        have hsame : HeapSame k1 (k1.memDo (.fork (k1.tasks k1.current).cr3)) :=
          ⟨fun _ => a1, fun _ r hr => ⟨by rw [memDo_space, a2]; exact hr, a3 r hr⟩, ⟨rfl, rfl⟩,
            fun _ => .refl _⟩
        exact (hsame.trans (kfree_same f)).law hla
      | some c =>
        obtain ⟨a1, a2, a3, a4, a5⟩ := fork_child hla.inv hroot hc
        have hsame : HeapSame k1 (k1.memDo (.fork (k1.tasks k1.current).cr3)) :=
          ⟨fun _ => a2, fun _ r hr => ⟨by rw [memDo_space, a3]; exact Finset.mem_insert_of_mem hr,
            a5 r hr⟩, ⟨rfl, rfl⟩, fun _ => .refl _⟩
        simp only
        cases hx : (k1.memDo (.fork (k1.tasks k1.current).cr3)).schedFork (kstackTopOf f) c with
        | mk k2 o =>
          cases o with
          | none =>
            -- no slot: the child's memory is given back
            have hk2 := schedFork_none (congrArg Prod.snd hx)
            rw [hx] at hk2
            simp only at hk2 ⊢
            rw [hk2]
            have hrel : HeapSame k1 ((k1.memDo (.fork (k1.tasks k1.current).cr3)).memDo (.release c)) := by
              have hs := Space.Spares.release (s := (k1.memDo (.fork (k1.tasks k1.current).cr3)).mem) (d := c)
              refine ⟨fun hi => hs.inv a2, fun hi r hr => ?_, ⟨rfl, rfl⟩, fun _ => .refl _⟩
              obtain ⟨h1, h2⟩ := hsame.keeps hi r hr
              obtain ⟨h3, h4⟩ := hs.keeps a2 r h1 (ne_of_mem_of_not_mem hr a1)
              exact ⟨h3, h4.trans h2⟩
            exact (hrel.trans (kfree_same f)).law hla
          | some j =>
            simp only
            by_cases hcu : c = 0 ∨ c = pml4Phys
            · -- `sched_fork` does not take such a PML4
              exfalso
              unfold schedFork at hx
              simp only at hx
              rw [if_pos (by tauto)] at hx
              cases hx
            · have hk2 : k2 = ((k1.memDo (.fork (k1.tasks k1.current).cr3)).schedFork
                  (kstackTopOf f) c).1 := by rw [hx]
              rw [hk2]
              refine schedFork_law (hsame.law hla) (by rw [memDo_space, a3]; exact Finset.mem_insert_self _ _)
                (fun n hn e => ?_) hu1 ?_
              · have hn' : (k1.tasks n).cr3 = c := e
                have hroots := (hla.own n hn (by rw [hn']; exact not_or.1 hcu)).1
                rw [hn'] at hroots
                exact a1 hroots
              · exact a4.trans (a5 _ hroot).symm
/-! ## Runs -/

/-- A call of the running task, a store it makes, or a switch to task `i`. -/
inductive HeapOp where
  | brk (want : Nat)
  | fork
  | store (va : Nat) (b : UInt8)
  | run (i : Nat)

def heapStep (k : Kernel Space) : HeapOp → Kernel Space
  | .brk want => (k.userBrk want).1
  | .fork => k.userFork.1
  | .store va b => k.memDo (.store k.currentCr3 va b)
  | .run i => if i < k.taskCount ∧ (k.tasks i).state ≠ .dead then k.switchTo i else k

def heapRun (k : Kernel Space) (ops : List HeapOp) : Kernel Space := ops.foldl heapStep k

theorem HeapIs.congr {A B : TaskMem} {base brk : Nat} (h : HeapIs A base brk)
    (hd : ∀ n, (B n).isSome = (A n).isSome) :
    HeapIs B base brk := ⟨h.page, h.room, h.lo, h.hi, fun a ha => by rw [hd]; exact h.mapped a ha⟩

/-- Kernel code that runs on no program's tables has no heap. -/
theorem userBrk_none (want : Nat)
    (h : ¬ (UserCr3 (k.tasks k.current).cr3 ∧ (k.tasks k.current).userBase ≠ 0)) :
    k.userBrk want = (k, none) := by
  unfold userBrk
  simp only
  refine if_pos ?_
  by_cases hb : (k.tasks k.current).userBase = 0
  · exact .inr hb
  · left
    unfold currentCr3
    split
    · rfl
    · rename_i h0
      by_contra hne
      exact h ⟨⟨(not_or.1 h0).2, hne⟩, hb⟩

theorem HeapLaw.brkDone (hl : HeapLaw k) (hu : UserCr3 (k.tasks k.current).cr3)
    (hb : (k.tasks k.current).userBase ≠ 0) (want : Nat) :
    BrkDone k (k.userBrk want).1 (k.userBrk want).2 := by
  have hcount : 0 < k.taskCount := by
    have := hl.cur.1
    omega
  exact userBrk_done hl.inv (hl.own _ hl.cur.1 hu).1 (currentCr3_eq hcount hu.1) hu.2 hb
    (hl.heap _ hl.cur.1 hl.cur.2 hu hb) want

theorem BrkDone.law {ans : Option Nat} (h : BrkDone k k' ans) (hl : HeapLaw k) : HeapLaw k' := by
  have hself : k'.tasks k.current = { k.tasks k.current with brk := ans.getD (k.tasks k.current).brk } := by
    rw [h.tasks, Function.update_self]
  have hother : ∀ j, j ≠ k.current → k'.tasks j = k.tasks j := fun j hj => by
    rw [h.tasks, Function.update_of_ne hj]
  have hcr3 : ∀ j, (k'.tasks j).cr3 = (k.tasks j).cr3 := fun j => by
    by_cases hj : j = k.current
    · rw [hj, hself]
    · rw [hother j hj]
  refine ⟨h.inv, ?_, fun i hi hui => ?_, fun i hi hd hui hb => ?_⟩
  · rw [h.sched.1, h.sched.2, hself]
    exact hl.cur
  · rw [h.sched.2] at hi ⊢
    rw [hcr3] at hui ⊢
    obtain ⟨h1, h2⟩ := hl.own i hi hui
    exact ⟨by rw [h.roots]; exact h1, fun j hj e => h2 j hj (by rw [← hcr3]; exact e)⟩
  · rw [h.sched.2] at hi
    by_cases hic : i = k.current
    · subst hic
      rw [hself]
      exact h.heap
    · rw [hother i hic] at hd hui hb ⊢
      obtain ⟨h1, h2⟩ := hl.own i hi hui
      rw [h.other _ h1 fun e => hic (h2 _ hl.cur.1 e.symm).symm]
      exact hl.heap i hi hd hui hb

theorem storeByte_dom {A B : TaskMem} {va : Nat} {b : UInt8} (h : storeByte A va b = some B) (n : Nat) :
    (B n).isSome = (A n).isSome := by
  unfold storeByte at h
  cases hp : A (vpn va) with
  | none =>
    rw [hp] at h
    cases h
  | some pg =>
    rw [hp] at h
    simp only at h
    split at h
    · cases h
      by_cases hn : n = vpn va
      · subst hn
        rw [Function.update_self, hp]
        rfl
      · rw [Function.update_of_ne hn]
    · cases h

/-- A store of the running task changes bytes, not what is mapped. -/
theorem store_law (hl : HeapLaw k) (r va : Nat) (b : UInt8) : HeapLaw (k.memDo (.store r va b)) := by
  by_cases hr : r ∈ k.mem.roots
  · have hok := Space.store_ok hl.inv hr va b
    have hstep : (k.memDo (.store r va b)).mem = (k.mem.answer (cpuStore k.mem.vm r va b)).1 := by
      rw [memDo_space, Space.step_store hr]
    have hroots : (k.memDo (.store r va b)).mem.roots = k.mem.roots := by rw [hstep, Space.answer_roots]
    have hdom : ∀ r' ∈ k.mem.roots, ∀ n, ((k.memDo (.store r va b)).mem.mems r' n).isSome =
        (k.mem.mems r' n).isSome := by
      rw [hstep]
      intro r' hr' n
      rcases VmInv.cpuStore_spec hl.inv hr va b with ⟨e, -⟩ | ⟨vm', A, e, -, hA, hacts⟩
      · rw [e]
        rfl
      · rw [e]
        change (taskMem vm'.mem r' n).isSome = _
        by_cases hrr : r' = r
        · subst hrr
          rw [hacts.self]
          exact storeByte_dom hA n
        · rw [hacts.other r' hr' hrr]
          rfl
    refine ⟨by rw [hstep]; exact hok.inv, hl.cur, fun i hi hu => ?_, fun i hi hd hu hb => ?_⟩
    · rw [hroots]
      exact hl.own i hi hu
    · exact (hl.heap i hi hd hu hb).congr (hdom _ (hl.own i hi hu).1)
  · have hsame : k.memDo (.store r va b) = k := by
      unfold memDo
      rw [show (MemSys.step k.mem (.store r va b)) = k.mem.step (.store r va b) from rfl,
        Space.step, Space.onTask, if_neg hr]
    rw [hsame]
    exact hl

theorem heapStep_law (hl : HeapLaw k) (op : HeapOp) : HeapLaw (heapStep k op) := by
  cases op with
  | brk want =>
    by_cases h : UserCr3 (k.tasks k.current).cr3 ∧ (k.tasks k.current).userBase ≠ 0
    · exact (hl.brkDone h.1 h.2 want).law hl
    · rw [heapStep, userBrk_none want h]
      exact hl
  | fork => exact userFork_law hl
  | store va b => exact store_law hl _ va b
  | run i =>
    rw [heapStep]
    split
    · rename_i hi
      exact ⟨hl.inv, hi, hl.own, hl.heap⟩
    · exact hl

theorem heapRun_law (hl : HeapLaw k) (ops : List HeapOp) : HeapLaw (heapRun k ops) :=
  foldl_inv HeapLaw (fun _ op h => heapStep_law h op) ops k hl

/-- Before the run every living program has a fresh heap, or one that earlier calls have made. -/
structure HeapStart (k : Kernel Space) : Prop where
  inv : k.mem.Inv
  cur : k.current < k.taskCount ∧ (k.tasks k.current).state ≠ .dead
  own : ∀ i, i < k.taskCount → UserCr3 (k.tasks i).cr3 → (k.tasks i).cr3 ∈ k.mem.roots ∧
    ∀ j, j < k.taskCount → (k.tasks j).cr3 = (k.tasks i).cr3 → j = i
  fresh : ∀ i, i < k.taskCount → (k.tasks i).state ≠ .dead → UserCr3 (k.tasks i).cr3 →
    (k.tasks i).userBase ≠ 0 →
    FreshHeap (k.mem.mems (k.tasks i).cr3) (k.tasks i).userBase (k.tasks i).brk ∨
      HeapIs (k.mem.mems (k.tasks i).cr3) (k.tasks i).userBase (k.tasks i).brk

theorem HeapStart.law (h : HeapStart k) : HeapLaw k :=
  ⟨h.inv, h.cur, h.own, fun i hi hd hu hb => (h.fresh i hi hd hu hb).elim FreshHeap.heapIs id⟩

theorem translate_isSome {s : Space} {r a : Nat} (hi : s.Inv) (hr : r ∈ s.roots) (hv : vpn a < userPages) :
    (vmmTranslateUser s.vm r a).isSome = (s.mems r (vpn a)).isSome := by
  have h := VmInv.vmmTranslateUser_none hi hr hv
  rw [← absMem_none (m := s.vm.mem), ← taskMem_at _ _ hv] at h
  rw [← Option.not_isNone, ← Option.not_isNone, Bool.not_inj_iff, Bool.eq_iff_iff,
    Option.isNone_iff_eq_none, Option.isNone_iff_eq_none]
  exact h

/-- What holds of the heaps in `k`, and of one more call. -/
structure HeapTracks (k : Kernel Space) : Prop where
  mapped : ∀ i, i < k.taskCount → (k.tasks i).state ≠ .dead → UserCr3 (k.tasks i).cr3 →
    (k.tasks i).userBase ≠ 0 →
    (k.tasks i).userBase + 2 * pageSize ≤ (k.tasks i).brk ∧
      (k.tasks i).brk ≤ (k.tasks i).userBase + 2 * pageSize + userHeapPages * pageSize ∧
      ∀ a, Mmap.HeapWindow (k.tasks i).userBase a →
        ((vmmTranslateUser k.mem.vm (k.tasks i).cr3 a).isSome = true ↔ a < pageUp (k.tasks i).brk)
  call : UserCr3 (k.tasks k.current).cr3 → (k.tasks k.current).userBase ≠ 0 →
    ∀ want, BrkDone k (k.userBrk want).1 (k.userBrk want).2
  other : ¬ (UserCr3 (k.tasks k.current).cr3 ∧ (k.tasks k.current).userBase ≠ 0) → ∀ want,
    k.userBrk want = (k, none)

/-- **The break tracks the heap pages**, over any calls, forks, stores and switches, with failures
anywhere. -/
theorem brk_tracks_heap (k : Kernel Space) (h : HeapStart k) (ops : List HeapOp) :
    HeapTracks (heapRun k ops) := by
  have hl := heapRun_law h.law ops
  refine ⟨fun i hi hd hu hb => ?_, fun hu hb want => hl.brkDone hu hb want, fun h want => userBrk_none want h⟩
  have hh := hl.heap i hi hd hu hb
  refine ⟨hh.lo, hh.hi, fun a ha => ?_⟩
  have hv : vpn a < userPages := by
    have h1 := (window_vpn hh.room hh.page ha).2.2
    have h2 := hh.pages.1
    omega
  rw [translate_isSome hl.inv (hl.own i hi hu).1 hv]
  exact hh.mapped a ha

/-- Two programs after boot. -/
theorem twoTasks_start : HeapStart (twoTasks smallSpace) := by
  obtain ⟨ops, hops⟩ := (twoTasks_reachable smallSpace).mem
  have hi : (twoTasks smallSpace).mem.Inv := by
    rw [hops]
    exact Space.run_inv smallSpace_boot ops
  have hall : ∀ i, i < (twoTasks smallSpace).taskCount →
      (((twoTasks smallSpace).tasks i).cr3 ∈ (twoTasks smallSpace).mem.roots ∧
        ∀ j, j < (twoTasks smallSpace).taskCount →
          ((twoTasks smallSpace).tasks j).cr3 = ((twoTasks smallSpace).tasks i).cr3 → j = i) ∧
      ((twoTasks smallSpace).tasks i).userBase % pageSize = 0 ∧
      ((twoTasks smallSpace).tasks i).userBase + (2 + userHeapPages) * pageSize ≤ userPages * pageSize ∧
      ((twoTasks smallSpace).tasks i).brk = ((twoTasks smallSpace).tasks i).userBase + 2 * pageSize ∧
      ∀ j, j < userHeapPages → ((twoTasks smallSpace).mem.mems ((twoTasks smallSpace).tasks i).cr3
        (((twoTasks smallSpace).tasks i).userBase / pageSize + 2 + j)).isSome = false := by
    decide +kernel
  refine ⟨hi, by decide +kernel, fun i hi _ => (hall i hi).1, fun i hi _ _ _ => .inl ?_⟩
  obtain ⟨-, h1, h2, h3, h4⟩ := hall i hi
  exact ⟨h1, h2, h3, h4⟩

/-- The first one grows its heap and forks; the child shrinks its own. -/
theorem brk_tracks_heap_small :
    HeapTracks (heapRun (twoTasks smallSpace) [.brk 0x403800, .fork, .store 0x402000 7, .run 2,
    .brk 0x402000]) :=
  brk_tracks_heap _ twoTasks_start _

end Kernel

end VampireOS
