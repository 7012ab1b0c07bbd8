import VampireOS.User.Wiring

/-!
# Waiting for a line (user/sh.c:249-304)

`run_cmds` counts `wait(0)` calls, and a `wait(0)` takes any dead child. `Session` is a shell
between two lines of any sequence of lines; `OwnRuns base` is a run in which every child that a wait
takes is one of number `base` on. `Sees` says how the children here are the kernel's, and
`wait_answers` that the kernel's answers are the ones here.
-/

namespace VampireOS

open Lib

variable {α β : Type}

/-! ## The search of the kernel -/

/-- The children that the kernel's tables show for the current task. -/
structure Sees {M : Type} (k : Kernel M) (s : Proc α) : Prop where
  child : ∀ i, k.childOf k.current i = true ↔ ∃ c ∈ s.kids, c.state ≠ .reaped ∧ c.slot = i
  dead : ∀ c ∈ s.kids, c.state ≠ .reaped → ((k.tasks c.slot).state = .dead ↔ c.state = .zombie)

section
variable {M : Type} {k : Kernel M} {s : Proc α}

theorem Sees.zombie (h : Sees k s) (i : Nat) :
    (k.childOf k.current i && (k.tasks i).state = .dead) = true ↔ ∃ c ∈ s.kids, c.state = .zombie ∧
    c.slot = i := by
  rw [Bool.and_eq_true, h.child, decide_eq_true_eq]
  constructor
  · rintro ⟨⟨c, hc, hr, rfl⟩, hd⟩
    exact ⟨c, hc, (h.dead c hc hr).1 hd, rfl⟩
  · rintro ⟨c, hc, hz, rfl⟩
    have hr : c.state ≠ .reaped := by
      rw [hz]
      decide
    exact ⟨⟨c, hc, hr, rfl⟩, (h.dead c hc hr).2 hz⟩

/-- `find_zombie(current, 0)` is a child that `Finds` gives. -/
theorem Sees.findZombie (h : Sees k s) {i : Nat} (hi : k.findZombie k.current 0 = some i) :
    ∃ x c, s.Finds x c ∧ c.slot = i := by
  obtain ⟨hz, -, hmin⟩ := List.find?_range_eq_some.1 hi
  obtain ⟨c, hc, hcz, rfl⟩ := (h.zombie i).1 hz
  obtain ⟨x, hx⟩ := List.getElem?_of_mem hc
  refine ⟨x, c, ⟨hx, hcz, fun c' hc' hz' => ?_⟩, rfl⟩
  by_contra hlt
  have := hmin c'.slot (by omega)
  rw [(h.zombie c'.slot).2 ⟨c', hc', hz', rfl⟩] at this
  cases this

/-- `has_child(current, 0)` is true as long as a child is left. -/
theorem Sees.hasChild (h : Sees k s) (hn : k.hasChild k.current 0 = false) :
    ∀ c ∈ s.kids, c.state = .reaped := by
  intro c hc
  by_contra hr
  have hchild := (h.child c.slot).2 ⟨c, hc, hr, rfl⟩
  have hlt : c.slot < k.taskCount := by
    unfold Kernel.childOf at hchild
    simp only [Bool.and_eq_true, decide_eq_true_eq] at hchild
    exact hchild.1.1
  exact absurd hchild (List.any_eq_false.1 hn c.slot (List.mem_range.2 hlt))

/-- The current task with the children that the tables have, each with the program `p`. -/
def Proc.ofTables (k : Kernel M) (p : Sys α) : Proc α where
  fds := (k.tasks k.current).fds
  made := []
  kids := ((List.range k.taskCount).filter fun i => k.childOf k.current i).map fun i =>
    ⟨i, (k.tasks i).fds, [], p, if (k.tasks i).state = .dead then .zombie else .running⟩

theorem sees_tables (k : Kernel M) (p : Sys α) : Sees k (Proc.ofTables k p) := by
  have hkid : ∀ c, c ∈ (Proc.ofTables k p).kids ↔ ∃ i, k.childOf k.current i = true ∧
      c = ⟨i, (k.tasks i).fds, [], p, if (k.tasks i).state = .dead then .zombie else .running⟩ := fun c => by
    unfold Proc.ofTables
    rw [List.mem_map]
    refine exists_congr fun i => ?_
    rw [List.mem_filter, List.mem_range]
    refine ⟨fun ⟨⟨_, h⟩, e⟩ => ⟨h, e.symm⟩, fun ⟨h, e⟩ => ⟨⟨?_, h⟩, e.symm⟩⟩
    unfold Kernel.childOf at h
    simp only [Bool.and_eq_true, decide_eq_true_eq] at h
    exact h.1.1
  refine ⟨fun i => ⟨fun h => ?_, ?_⟩, fun c hc _ => ?_⟩
  · refine ⟨_, (hkid _).2 ⟨i, h, rfl⟩, ?_, rfl⟩
    dsimp only
    split <;> decide
  · rintro ⟨c, hc, -, rfl⟩
    obtain ⟨i, h, rfl⟩ := (hkid c).1 hc
    exact h
  · obtain ⟨i, -, rfl⟩ := (hkid c).1 hc
    dsimp only
    split <;> simp_all

/-- **The answer of `wait(0)`** in any state of the kernel is one that `Answers` allows. -/
theorem wait_answers (k : Kernel M) (p : Sys α) (next : Option Nat → Sys α) :
    (∀ i, k.findZombie k.current 0 = some i → ∃ x, (Proc.ofTables k p).kids[x]?.map Kid.slot = some i ∧
      ∀ code, Proc.Answers .wait next (Proc.ofTables k p) (some code) ((Proc.ofTables k p).reap x)) ∧
    (k.hasChild k.current 0 = false →
      Proc.Answers .wait next (Proc.ofTables k p) none (Proc.ofTables k p)) := by
  refine ⟨fun i hi => ?_, fun hn => .noWait ((sees_tables k p).hasChild hn)⟩
  obtain ⟨x, c, hf, hslot⟩ := (sees_tables k p).findZombie hi
  exact ⟨x, by rw [hf.1, Option.map_some, hslot], fun code => .wait code hf⟩

end

/-! ## Lines and runs -/

/-- A call, where a wait takes no child before number `base`. -/
def Proc.OwnStep (base : Nat) (c : Call) (k : Answer c → Sys α) (s : Proc α) (a : Answer c)
    (s' : Proc α) : Prop :=
  ∃ s1, s.Later s1 ∧ (c = .wait → ∀ i d, s1.Finds i d → base ≤ i) ∧ Proc.Answers c k s1 a s'

abbrev Proc.OwnRuns (base : Nat) (p : Sys α) (s : Proc α) (p' : Sys α) (s' : Proc α) : Prop :=
  Prog.Reaches (OwnStep base) p s p' s'

/-- A line that is done: the number of children before it, what `main` got, and the state then. -/
structure Ended where
  line : Shell.Line
  base : Nat
  answer : Int
  after : Proc Int

/-- A shell that has taken some lines, each in a run that `R` allows. -/
inductive Session (R : Shell.Line → Proc Int → Sys Int → Proc Int → Prop) (s0 : Proc Int) :
    List Ended → Proc Int → Prop where
  | start : Session R s0 [] s0
  | line {es : List Ended} {s s' : Proc Int} {r : Int} (l : Shell.Line) (h : Session R s0 es s)
      (hr : R l s (.ret r) s') : Session R s0 (es ++ [⟨l, s.kids.length, r, s'⟩]) s'

namespace Shell

/-- Any run of a line. -/
def AnyRun (l : Line) : Proc Int → Sys Int → Proc Int → Prop := Proc.Runs (runLine l)

/-- A run of a line; the waits of a line without `&` take no child of an earlier line. -/
def OwnRun : Line → Proc Int → Sys Int → Proc Int → Prop
  | .cmds cs n false, s => Proc.OwnRuns s.kids.length (runCmds cs n false) s
  | l, s => Proc.Runs (runLine l) s

/-- The number of the children from `base` on that are reaped. -/
def reapedFrom (base : Nat) (kids : List (Kid α)) : Nat := (kids.drop base).countP fun c => c.state = .reaped

/-- `m` children from `base` on, `r` of them reaped. -/
def Counts (base m r : Nat) (s : Proc α) : Prop := s.kids.length = base + m ∧ reapedFrom base s.kids = r

variable {base m r : Nat}

theorem Counts.later {s s1 : Proc α} (h : Counts base m r s) (hl : s.Later s1) : Counts base m r s1 := by
  obtain ⟨fds, made, kids0⟩ := s
  obtain ⟨kids, hk, rfl⟩ := hl
  have hst : kids.map (fun c => decide (c.state = .reaped)) = kids0.map fun c => decide
      (c.state = .reaped) := by
    clear h
    simp only at hk
    induction hk with
    | nil => rfl
    | cons hc _ ih =>
      rcases hc with rfl | ⟨hrun, rfl⟩
      · simp [ih]
      · simp [ih, hrun]
  refine ⟨by simpa using (congrArg List.length hst).trans (by simpa using h.1), ?_⟩
  rw [← h.2]
  have hcount : ∀ l : List (Kid α), l.countP (fun c => c.state = .reaped) =
      (l.map fun c => decide (c.state = .reaped)).countP id := fun l => by
    rw [List.countP_map]
    rfl
  simp only [reapedFrom, hcount, List.map_drop, hst]

/-- A fork adds a child that runs. -/
theorem Counts.fork {s : Proc α} (h : Counts base m r s) {c : Kid α} (hc : c.state = .running) :
    Counts base (m + 1) r { s with kids := s.kids ++ [c] } := by
  refine ⟨by simp [h.1]; omega, ?_⟩
  rw [← h.2]
  have hle : base ≤ s.kids.length := by
    have := h.1
    omega
  simp [reapedFrom, List.drop_append_of_le_length hle, hc]

/-- A wait that takes a child of the line. -/
theorem Counts.wait {s : Proc α} (h : Counts base m r s) {i : Nat} {c : Kid α} (hi : base ≤ i)
    (hf : s.Finds i c) :
    Counts base m (r + 1) (s.reap i) := by
  refine ⟨by simpa [Proc.reap] using h.1, ?_⟩
  rw [← h.2]
  obtain ⟨hx, hz, -⟩ := hf
  obtain ⟨hlt, hget⟩ := List.getElem?_eq_some_iff.1 hx
  have hr : c.state ≠ .reaped := by
    rw [hz]
    decide
  -- the list around the child
  have hsplit := List.take_append_drop i s.kids
  rw [List.drop_eq_getElem_cons hlt, hget] at hsplit
  have hlen : (s.kids.take i).length = i := by simp; omega
  have hreap : (s.reap i).kids = s.kids.take i ++ { c with state := .reaped } :: s.kids.drop (i + 1) := by
    rw [Proc.reap, List.modify_eq_take_cons_drop hlt, hget]
  simp only [reapedFrom, hreap]
  conv_rhs => rw [← hsplit]
  rw [List.drop_append_of_le_length (by omega), List.drop_append_of_le_length (by omega)]
  simp [hr]
  omega

/-- As long as a child of the line is left, a wait has something to wait for. -/
theorem Counts.left {s : Proc α} (h : Counts base m r s) (hr : r < m) : ∃ c ∈ s.kids, c.state ≠ .reaped := by
  by_contra hall
  simp only [not_exists, not_and, not_not] at hall
  have : reapedFrom base s.kids = (s.kids.drop base).length :=
    List.countP_eq_length.2 fun c hc => by simp [hall c (List.mem_of_mem_drop hc)]
  rw [h.2, List.length_drop, h.1] at this
  omega

theorem Counts.all {s : Proc α} (h : Counts base m m s) : ∀ c ∈ s.kids.drop base, c.state = .reaped := by
  have : reapedFrom base s.kids = (s.kids.drop base).length := by
    rw [h.2, List.length_drop, h.1]
    omega
  intro c hc
  simpa using List.countP_eq_length.1 this c hc

/-! ## The line -/

/-- Every run of the line that returns 0 has reaped its children. -/
abbrev Waited (base : Nat) (p : Sys Int) (s : Proc Int) : Prop :=
  Prog.Holds (fun _ _ => True) (Proc.OwnStep base)
    (fun r s => r = 0 → ∀ c ∈ s.kids.drop base, c.state = .reaped) p s

/-- Code whose answer does not matter. -/
theorem waited_any {p : Sys β} {f : β → Sys Int} (h : ∀ b s, Waited base (f b) s) (s : Proc Int) :
    Waited base (p >>= f) s := by
  induction p generalizing s with
  | ret b => exact h b s
  | call c k ih => exact ⟨trivial, fun a s' _ => ih a s'⟩

theorem waited_failed (s : Proc Int) : Waited base (pure (-1)) s := nofun

theorem waited_childExec (c : Redirs) (i : Nat) (inFd outFd pr pw : Option Nat) (s : Proc Int) :
    Waited base (childExec c i inFd outFd pr pw) s := by
  unfold childExec
  refine waited_any (fun _ => waited_any fun _ => waited_any fun _ => waited_any fun _ => waited_any fun _ =>
    waited_any fun _ => waited_any fun _ => waited_any fun _ => waited_any fun _ s => ?_) s
  exact ⟨trivial, nofun⟩

theorem waited_drop {fd : Option Nat} {f : Unit → Sys Int}
    (next : ∀ s, Counts base m r s → Waited base (f ()) s) {s : Proc Int} (h : Counts base m r s) :
    Waited base (drop fd >>= f) s := by
  cases fd with
  | none => exact next s h
  | some fd =>
    refine ⟨trivial, fun a s' ⟨s1, hl, _, ha⟩ => ?_⟩
    have h1 := h.later hl
    cases ha with
    | close => exact next _ h1

/-- The waits of a line with `m` children, `r` of them reaped. -/
theorem waited_waits {f : Unit → Sys Int} (next : ∀ s, Counts base m m s → Waited base (f ()) s) {left : Nat}
    (hm : r + left = m) {s : Proc Int} (h : Counts base m r s) : Waited base (waits left >>= f) s := by
  induction left generalizing r s with
  | zero =>
    obtain rfl : r = m := by omega
    exact next s h
  | succ left ih =>
    refine ⟨trivial, fun a s' ⟨s1, hl, hown, ha⟩ => ?_⟩
    have h1 := h.later hl
    cases ha with
    | wait code hf => exact ih (by omega) (h1.wait (hown rfl _ _ hf) hf)
    | noWait hall =>
      obtain ⟨c, hc, hr⟩ := h1.left (by omega)
      exact absurd (hall c hc) hr

theorem waited_startStage {c : Redirs} {i : Nat} {inFd : Option Nat} {p : Option (Nat × Nat)}
    {next : Option Nat → Sys Int}
    (hnext : ∀ fd s, Counts base (m + 1) 0 s → Waited base (next fd) s) {s : Proc Int}
    (h : Counts base m 0 s) :
    Waited base (startStage c i inFd p next) s := by
  refine ⟨trivial, fun a s' ⟨s1, hl, _, ha⟩ => ?_⟩
  have h1 := h.later hl
  cases ha with
  | noFork => exact waited_any (fun _ => waited_any fun _ => waited_any fun _ => waited_any fun _ =>
      waited_failed) _
  | fork slot live _ =>
    change Waited base (if slot = 0 then _ else _) _
    split
    · exact waited_childExec ..
    · exact waited_drop (fun s hs => waited_drop (fun s hs => hnext _ s hs) hs) (h1.fork rfl)

theorem waited_stages (cs : Nat → Redirs) {left i : Nat} {inFd : Option Nat} {s : Proc Int}
    (h : Counts base i 0 s) :
    Waited base (stages cs false left i inFd) s := by
  induction left generalizing i inFd s with
  | zero =>
    refine waited_drop (fun s hs => waited_waits (fun s hs => ?_) (Nat.zero_add i) hs) h
    exact fun _ => hs.all
  | succ left ih =>
    unfold stages
    split
    · refine ⟨trivial, fun a s' ha => ?_⟩
      obtain ⟨s1, hl, -, ha⟩ := ha
      have h1 := h.later hl
      cases ha with
      | noPipe => exact waited_any (fun _ => waited_any fun _ => waited_failed) _
      | pipe q hq => exact waited_startStage (fun fd s hs => ih hs) h1
    · exact waited_startStage (fun fd s hs => ih hs) h

theorem runCmds_waited {s s' : Proc Int} (cs : Nat → Redirs) (n : Nat)
    (hr : Proc.OwnRuns s.kids.length (runCmds cs n false) s (.ret 0) s') :
    ∀ c ∈ s'.kids.drop s.kids.length, c.state = .reaped := by
  have h0 : Counts s.kids.length 0 0 s := ⟨rfl, by simp [reapedFrom]⟩
  exact (waited_stages cs h0).reaches_ret hr rfl

/-- In a session where no wait of a line without `&` takes a child of an earlier line, every such line that
succeeds has waited for all its processes. -/
theorem lines_waited {s0 s : Proc Int} {es : List Ended} (h : Session OwnRun s0 es s) :
    ∀ e ∈ es, (∃ cs n, e.line = .cmds cs n false) → e.answer = 0 → ∀ c ∈ e.after.kids.drop e.base,
    c.state = .reaped := by
  induction h with
  | start => exact nofun
  | @line es s s' r l _ hr ih =>
    intro e he hl h0
    rcases List.mem_append.1 he with he | he
    · exact ih e he hl h0
    · obtain rfl := List.mem_singleton.1 he
      obtain ⟨cs, n, rfl⟩ := hl
      simp only at h0
      subst h0
      exact runCmds_waited cs n hr

/-- The line of one program without files. -/
def plainLine (bg : Bool) : Line := .cmds (fun _ => ⟨none, none, 1⟩) 1 bg

theorem later_refl (s : Proc α) : s.Later s := ⟨s.kids, List.forall₂_same.2 fun _ _ => .inl rfl, rfl⟩

/-- The line `a &`, with its process in slot 2. -/
theorem background_line : ∃ c : Kid Int, c.slot = 2 ∧ c.state = .running ∧
    AnyRun (plainLine true) ⟨stdTable, [], []⟩ (.ret 0) ⟨stdTable, [], [c]⟩ :=
  ⟨_, rfl, rfl, .call ⟨_, later_refl _, .fork 2 (fun _ => true) nofun⟩ (.refl _ _)⟩

/-- `a &`, then `b`: `a` runs on, and the wait takes `b`. -/
theorem lines_waited_one :
    ∃ es s, Session OwnRun ⟨stdTable, [], []⟩ es s ∧ (∃ e ∈ es, e.line = plainLine true) ∧
    ∃ e ∈ es, (∃ cs n, e.line = .cmds cs n false) ∧ e.base = 1 ∧ e.answer = 0 ∧
    ∀ c ∈ e.after.kids.drop e.base, c.state = .reaped := by
  obtain ⟨a, hslot, hrun, ha⟩ := background_line
  have hb : ∃ s, OwnRun (plainLine false) ⟨stdTable, [], [a]⟩ (.ret 0) s := by
    refine ⟨_, .call ⟨_, later_refl _, nofun, .fork 3 (fun _ => true) ?_⟩ <|
      .call ⟨_, ⟨[_, _], .cons (.inl rfl) (.cons (.inr ⟨rfl, rfl⟩) .nil), rfl⟩, fun _ i d hd => ?_,
        .wait (i := 1) 0 ⟨rfl, rfl, ?_⟩⟩ <|
      .refl _ _⟩
    · simp [hslot]
    · -- the child that runs is not found
      refine Nat.pos_of_ne_zero fun h0 => ?_
      subst h0
      obtain ⟨hget, hz, -⟩ := hd
      obtain rfl : a = d := Option.some.inj hget
      rw [hrun] at hz
      cases hz
    · simp [hrun]
  obtain ⟨s, hb⟩ := hb
  have hsess : Session OwnRun ⟨stdTable, [], []⟩ _ s :=
    .line (plainLine false) (.line (plainLine true) .start ha) hb
  have hmem := List.mem_append_right [⟨plainLine true, 0, 0, ⟨stdTable, [], [a]⟩⟩]
    (List.mem_singleton_self (⟨plainLine false, 1, 0, s⟩ : Ended))
  exact ⟨_, s, hsess, ⟨_, List.mem_append_left _ (List.mem_singleton_self _), rfl⟩, _, hmem,
    ⟨_, _, rfl⟩, rfl, rfl, lines_waited hsess _ hmem ⟨_, _, rfl⟩ rfl⟩

/-- `a &`, then `b`: `a` ends first, the wait takes it, and `b` runs on. -/
theorem line_not_waited : ∃ es s, Session AnyRun ⟨stdTable, [], []⟩ es s ∧
    ∃ e ∈ es, (∃ cs n, e.line = .cmds cs n false) ∧ e.answer = 0 ∧ ∃ c ∈ e.after.kids.drop e.base,
    c.state = .running := by
  obtain ⟨a, hslot, hrun, ha⟩ := background_line
  have hb : ∃ s, AnyRun (plainLine false) ⟨stdTable, [], [a]⟩ (.ret 0) s ∧ ∃ c ∈ s.kids.drop 1,
      c.state = .running := by
    refine ⟨_, .call ⟨_, later_refl _, .fork 3 (fun _ => true) ?_⟩ <|
      .call ⟨_, ⟨[_, _], .cons (.inr ⟨hrun, rfl⟩) (.cons (.inl rfl) .nil), rfl⟩,
        .wait (i := 0) 0 ⟨rfl, rfl, ?_⟩⟩ <|
      .refl _ _, _, List.mem_singleton.2 rfl, rfl⟩
    · simp [hslot]
    · simp
  obtain ⟨s, hb, hc⟩ := hb
  exact ⟨_, s, .line _ (.line _ .start ha) hb, _, List.mem_append_right _
    (List.mem_singleton.2 rfl), ⟨_, _, rfl⟩, rfl, hc⟩

end Shell

end VampireOS
