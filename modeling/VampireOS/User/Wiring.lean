import VampireOS.User.Shell

/-!
# The pipes of a line (user/sh.c:194-304)

`Plain` is the shell's table before a line. `ShellAt` is what holds of it at the top of stage `i`,
`Forking` at the fork of the stage, and `Wired` is what the child has at its `exec`.
-/

namespace VampireOS

open Lib

/-! ## Tables -/

/-- An end of the `x`-th pipe of the line. -/
def EndOf (made : List Nat) (kind : FdKind) (x : Nat) (e : FdEntry) : Prop :=
  e.used = true ∧ e.kind = kind ∧ ∃ q, made[x]? = some q ∧ e.pipe = some q

/-- An entry as it was before the line: a free one may have been used and closed. -/
def Back (e e' : FdEntry) : Prop := e' = e ∨ e.used = false ∧ e' = .empty

theorem EndOf.mono {made made' : List Nat} {kind : FdKind} {x : Nat} {e : FdEntry} (h : EndOf made kind x e)
    (hm : made <+: made') : EndOf made' kind x e := by
  obtain ⟨hu, hk, q, hq, hp⟩ := h
  refine ⟨hu, hk, q, ?_, hp⟩
  obtain ⟨l, rfl⟩ := hm
  rw [List.getElem?_append_left (List.getElem?_eq_some_iff.1 hq).1, hq]

theorem Back.used {e e' : FdEntry} (h : Back e e') (hu : e.used = true) : e' = e := by
  rcases h with h | ⟨h, -⟩
  · exact h
  · rw [hu] at h
    cases h

namespace FdTable

/-- No entry from 3 on is a pipe end, but those in `L`. -/
def EndsIn (u : FdTable) (L : Nat → Prop) : Prop :=
  ∀ j, 3 ≤ j → j < fdMax → (u j).used = true → (u j).kind.isPipe = true → L j

/-- An open write end of pipe `q`. -/
def Writes (u : FdTable) (q : Nat) : Prop :=
  ∃ j < fdMax, (u j).used = true ∧ (u j).kind = .pipeW ∧ (u j).pipe = some q

/-- A line starts with files or the console on 0 to 2, and with the others free. -/
structure Plain (t : FdTable) : Prop where
  bound : ∀ j < 3, (t j).used = true ∧ (t j).kind.isPipe = false
  free : ∀ j < fdMax, 3 ≤ j → (t j).used = false

theorem free_spec {t : FdTable} {lo j : Nat} (h : t.free lo = some j) :
    lo ≤ j ∧ j < fdMax ∧ (t j).used = false := by
  have hj := List.find?_some h
  have hm := List.mem_of_find?_eq_some h
  simp only [decide_eq_true_eq, List.mem_range] at hj hm
  exact ⟨hj.1, hm, hj.2⟩

theorem pipe_spec {t u : FdTable} {q r w : Nat} (h : t.pipe q = some (u, r, w)) :
    r < fdMax ∧ w < fdMax ∧ r ≠ w ∧ (t r).used = false ∧ (t w).used = false ∧
    u = Function.update (Function.update t r ⟨true, .pipeR, some q, 0, (t r).path⟩) w
      ⟨true, .pipeW, some q, 0, (t w).path⟩ := by
  simp only [pipe, Option.bind_eq_some_iff, Option.map_eq_some_iff, Prod.mk.injEq] at h
  obtain ⟨r', hr, w', hw, hu, rfl, rfl⟩ := h
  obtain ⟨-, hr1, hr2⟩ := free_spec hr
  obtain ⟨hlt, hw1, hw2⟩ := free_spec hw
  exact ⟨hr1, hw1, by omega, hr2, hw2, hu.symm⟩

theorem close_ne {t : FdTable} {fd j : Nat} (h : j ≠ fd) : (t.close fd).1 j = t j := by
  unfold close
  split
  · exact Function.update_of_ne h _ _
  · rfl

theorem close_self {t : FdTable} {fd : Nat} (h : fd < fdMax) (hu : (t fd).used = true) :
    (t.close fd).1 fd = .empty := by
  simp [close, h, hu]

theorem close_free {t : FdTable} {fd : Nat} (h : fd < fdMax) : ((t.close fd).1 fd).used = false := by
  unfold close
  split
  · simp [FdEntry.empty]
  · next hn => simpa [h] using hn

/-- The table after `drop`. -/
def dropped (t : FdTable) (fd : Option Nat) : FdTable := fd.elim t fun fd => (t.close fd).1

theorem dropped_ne {t : FdTable} {fd : Option Nat} {j : Nat} (h : fd ≠ some j) : t.dropped fd j = t j := by
  cases fd with
  | none => rfl
  | some f => exact close_ne fun hj => h (by rw [hj])

theorem EndsIn.dropped {u : FdTable} {L : Nat → Prop} (h : u.EndsIn L) (fd : Option Nat) :
    (u.dropped fd).EndsIn fun j => L j ∧ fd ≠ some j := by
  intro j h3 hj hu hk
  have hne : fd ≠ some j := by
    rintro rfl
    have := close_free (t := u) hj
    simp only [FdTable.dropped, Option.elim_some] at hu
    simp [this] at hu
  rw [dropped_ne hne] at hu hk
  exact ⟨h j h3 hj hu hk, hne⟩

theorem EndsIn.update {u : FdTable} {L : Nat → Prop} (h : u.EndsIn L) {j : Nat} {e : FdEntry}
    (he : j < 3 ∨ e.kind.isPipe = false) : EndsIn (Function.update u j e) L := by
  intro i h3 hi hu hk
  by_cases hij : i = j
  · subst hij
    rw [Function.update_self] at hk
    rcases he with he | he
    · omega
    · simp [he] at hk
  · rw [Function.update_of_ne hij] at hu hk
    exact h i h3 hi hu hk

theorem copy_used {live : Nat → Bool} {e : FdEntry} (h : (copy live e).2 = true) : (copy live e).1 = e := by
  unfold copy at h ⊢
  split
  · rfl
  · next hn =>
    rw [if_neg hn] at h
    cases h

/-- A copy is the entry, or it is free. -/
theorem copy_cases (live : Nat → Bool) (e : FdEntry) :
    (copy live e).1 = e ∨ e.kind.isPipe = true ∧ (copy live e).1.used = false := by
  unfold copy
  split
  · exact .inl rfl
  · next hn =>
    simp only [not_or, Bool.not_eq_false] at hn
    exact .inr ⟨hn.2.1, rfl⟩

end FdTable

/-- The ends of the pipes of stage `i`: `inFd` reads from the one before, `pr` and `pw` are the
stage's own. -/
structure Forking (t : FdTable) (made : List Nat) (i : Nat) (inFd pr pw : Option Nat)
      (u : FdTable) : Prop where
  same : ∀ j < fdMax, inFd ≠ some j → pr ≠ some j → pw ≠ some j → Back (t j) (u j)
  input : ∀ f, inFd = some f → 3 ≤ f ∧ f < fdMax ∧ 0 < i ∧ EndOf made .pipeR (i - 1) (u f)
  reads : ∀ r, pr = some r → 3 ≤ r ∧ r < fdMax ∧ inFd ≠ some r ∧ pw ≠ some r ∧ EndOf made .pipeR i (u r)
  writes : ∀ w, pw = some w → 3 ≤ w ∧ w < fdMax ∧ inFd ≠ some w ∧ EndOf made .pipeW i (u w)

/-- The shell at the top of stage `i`. -/
abbrev ShellAt (t : FdTable) (made : List Nat) (i : Nat) (inFd : Option Nat) (u : FdTable) : Prop :=
  Forking t made i inFd none none u

/-- A child of stage `i` of `n` at its `exec`: its standard input and output, and no other pipe end. -/
structure Wired (t : FdTable) (made : List Nat) (n i : Nat) (inPath outPath : Option Name)
    (u : FdTable) : Prop where
  input : inPath = none → (0 < i → EndOf made .pipeR (i - 1) (u 0)) ∧ (i = 0 → u 0 = t 0)
  output : outPath = none → (i + 1 < n → EndOf made .pipeW i (u 1)) ∧ (i + 1 = n → u 1 = t 1)
  ends : ∀ j < fdMax, (u j).used = true → (u j).kind.isPipe = true →
    j = 0 ∧ 0 < i ∧ EndOf made .pipeR (i - 1) (u j) ∨ j = 1 ∧ i + 1 < n ∧ EndOf made .pipeW i (u j)
  std : ∀ j < 3, (u j).used = true

theorem Wired.mono {t u : FdTable} {made made' : List Nat} {n i : Nat} {inPath outPath : Option Name}
    (h : Wired t made n i inPath outPath u) (hm : made <+: made') : Wired t made' n i inPath outPath u := by
  refine ⟨fun hp => ⟨fun hi => ((h.input hp).1 hi).mono hm, (h.input hp).2⟩,
    fun hp => ⟨fun hi => ((h.output hp).1 hi).mono hm, (h.output hp).2⟩, fun j hj hu hk => ?_, h.std⟩
  · rcases h.ends j hj hu hk with ⟨h0, hi, he⟩ | ⟨h1, hi, he⟩
    · exact .inl ⟨h0, hi, he.mono hm⟩
    · exact .inr ⟨h1, hi, he.mono hm⟩

variable {t u v : FdTable} {made : List Nat} {n i : Nat} {inFd pr pw : Option Nat}

/-- A free entry of the shell is none of 0 to 2. -/
theorem ShellAt.free (h : ShellAt t made i inFd u) (ht : t.Plain) {j : Nat}
    (hj : (u j).used = false) : 3 ≤ j := by
  by_contra hlt
  have hb := (ht.bound j (by omega)).1
  have hne : inFd ≠ some j := fun hf => by
    have := (h.input j hf).1
    omega
  have := (h.same j (by simp [fdMax]; omega) hne nofun nofun).used hb
  rw [this, hb] at hj
  cases hj

/-- `pipe` at stage `i`. -/
theorem ShellAt.pipe (h : ShellAt t made i inFd u) (ht : t.Plain) (hi : made.length = i) {q r w : Nat}
    (hp : u.pipe q = some (v, r, w)) : Forking t (made ++ [q]) i inFd (some r) (some w) v := by
  obtain ⟨hr, hw, hrw, hur, huw, rfl⟩ := FdTable.pipe_spec hp
  have hq : (made ++ [q])[i]? = some q := by simp [← hi]
  have hf : ∀ j, (u j).used = false → inFd ≠ some j := by
    rintro j hj rfl
    rw [(h.input j rfl).2.2.2.1] at hj
    cases hj
  refine ⟨fun j hj h1 h2 h3 => ?_, fun f hif => ?_, ?_, ?_⟩
  · have h2' : j ≠ r := fun h => h2 (by rw [h])
    have h3' : j ≠ w := fun h => h3 (by rw [h])
    rw [Function.update_of_ne h3', Function.update_of_ne h2']
    exact h.same j hj h1 nofun nofun
  · obtain ⟨h3, hm, h0, he⟩ := h.input f hif
    have hfr : f ≠ r := fun h => hf r hur (by rw [hif, h])
    have hfw : f ≠ w := fun h => hf w huw (by rw [hif, h])
    rw [Function.update_of_ne hfw, Function.update_of_ne hfr]
    exact ⟨h3, hm, h0, he.mono (List.prefix_append _ _)⟩
  · rintro _ ⟨⟩
    refine ⟨h.free ht hur, hr, hf r hur, fun h => hrw (Option.some.inj h).symm, ?_⟩
    rw [Function.update_of_ne hrw, Function.update_self]
    exact ⟨rfl, rfl, q, hq, rfl⟩
  · rintro _ ⟨⟩
    refine ⟨h.free ht huw, hw, hf w huw, ?_⟩
    rw [Function.update_self]
    exact ⟨rfl, rfl, q, hq, rfl⟩

/-- An end that the shell has closed is free again. -/
theorem Plain.back (ht : t.Plain) {f : Nat} (h3 : 3 ≤ f) (hf : f < fdMax) (hu : (u f).used = true) :
    Back (t f) ((u.close f).1 f) := .inr ⟨ht.free f hf h3, FdTable.close_self hf hu⟩

/-- The shell closes `inFd` and `pw` and keeps `pr`. -/
theorem Forking.next (h : Forking t made i inFd pr pw u) (ht : t.Plain) :
    ShellAt t made (i + 1) pr ((u.dropped inFd).dropped pw) := by
  refine ⟨fun j hj h1 _ _ => ?_, fun r hr => ?_, nofun, nofun⟩
  · by_cases hw : pw = some j
    · obtain ⟨h3, -, hne, he⟩ := h.writes j hw
      subst hw
      refine Plain.back ht h3 hj ?_
      rw [FdTable.dropped_ne hne]
      exact he.1
    · rw [FdTable.dropped_ne hw]
      by_cases hi : inFd = some j
      · obtain ⟨h3, -, -, he⟩ := h.input j hi
        subst hi
        exact Plain.back ht h3 hj he.1
      · rw [FdTable.dropped_ne hi]
        exact h.same j hj hi h1 hw
  · obtain ⟨h3, hm, h1, h2, he⟩ := h.reads r hr
    rw [FdTable.dropped_ne h2, FdTable.dropped_ne h1]
    exact ⟨h3, hm, by omega, by simpa using he⟩

/-- What the shell has after the last `drop(in_fd)`. -/
theorem ShellAt.drop (h : ShellAt t made i inFd u) (ht : t.Plain) :
    ∀ j < fdMax, Back (t j) (u.dropped inFd j) := by
  intro j hj
  by_cases hi : inFd = some j
  · obtain ⟨h3, -, -, he⟩ := h.input j hi
    subst hi
    exact Plain.back ht h3 hj he.1
  · rw [FdTable.dropped_ne hi]
    exact h.same j hj hi nofun nofun

/-- What it has after a failed fork. -/
theorem Forking.undo (h : Forking t made i inFd pr pw u) (ht : t.Plain) :
    ∀ j < fdMax, Back (t j) (((u.dropped inFd).dropped pr).dropped pw j) := by
  intro j hj
  by_cases hw : pw = some j
  · obtain ⟨h3, -, hne, he⟩ := h.writes j hw
    have hr : pr ≠ some j := fun hr => (h.reads j hr).2.2.2.1 hw
    subst hw
    refine Plain.back ht h3 hj ?_
    rw [FdTable.dropped_ne hr, FdTable.dropped_ne hne]
    exact he.1
  · rw [FdTable.dropped_ne hw]
    by_cases hr : pr = some j
    · obtain ⟨h3, -, hne, -, he⟩ := h.reads j hr
      subst hr
      refine Plain.back ht h3 hj ?_
      rw [FdTable.dropped_ne hne]
      exact he.1
    · rw [FdTable.dropped_ne hr]
      by_cases hi : inFd = some j
      · obtain ⟨h3, -, -, he⟩ := h.input j hi
        subst hi
        exact Plain.back ht h3 hj he.1
      · rw [FdTable.dropped_ne hi]
        exact h.same j hj hi hr hw

/-! ## Runs -/

namespace Shell

variable {α β : Type} {pre : Call → Proc α → Prop} {post : α → Proc α → Prop}
    {I : List Nat → List (Kid α) → Prop}

abbrev Safe (pre : Call → Proc α → Prop) (post : α → Proc α → Prop) (p : Sys α) (s : Proc α) : Prop :=
  Prog.Holds pre Proc.Step post p s

/-- `F` of the table, and `I` of the rest. -/
def On (I : List Nat → List (Kid α) → Prop) (F : FdTable → Prop) (s : Proc α) : Prop :=
  F s.fds ∧ I s.made s.kids

/-- The children without their states. -/
def starts (kids : List (Kid α)) : List (Kid α) := kids.map fun c => { c with state := .running }

/-- `I` speaks of no state of a child. -/
def Stable (I : List Nat → List (Kid α) → Prop) : Prop :=
  ∀ made kids kids', starts kids' = starts kids → I made kids → I made kids'

/-- `pre` follows from `I` for every call but `exec`. -/
def Free (pre : Call → Proc α → Prop) (I : List Nat → List (Kid α) → Prop) : Prop :=
  ∀ c s, (∀ i, c ≠ .exec i) → I s.made s.kids → pre c s

theorem starts_later {kids kids' : List (Kid α)} (h : List.Forall₂ Kid.Later kids kids') :
    starts kids' = starts kids := by
  induction h with
  | nil => rfl
  | cons hc _ ih =>
    rcases hc with rfl | ⟨-, rfl⟩ <;> simpa [starts] using ih

theorem starts_reap (s : Proc α) (j : Nat) : starts (s.reap j).kids = starts s.kids := by
  refine List.ext_getElem? fun x => ?_
  by_cases hx : j = x
  · simp [starts, Proc.reap, hx, Function.comp_def]
  · simp [starts, Proc.reap, hx]

theorem On.later (hI : Stable I) {F : FdTable → Prop} {s s1 : Proc α} (h : On I F s)
    (hl : s.Later s1) : On I F s1 := by
  obtain ⟨kids, hk, rfl⟩ := hl
  exact ⟨h.1, hI _ _ _ (starts_later hk) h.2⟩

theorem safe_fail (hpre : Free pre I) {F : FdTable → Prop} {s : Proc α} (h : On I F s) :
    Safe pre post fail s :=
  ⟨hpre _ _ nofun h.2, nofun⟩

theorem safe_close (hI : Stable I) (hpre : Free pre I) {F G : FdTable → Prop} {f : Bool → Sys α} {fd : Nat}
    (hF : ∀ u, F u → G (u.close fd).1) (next : ∀ b s, On I G s → Safe pre post (f b) s) {s : Proc α}
    (h : On I F s) : Safe pre post (close fd >>= f) s := by
  refine ⟨hpre _ _ nofun h.2, fun a s' ⟨s1, hl, ha⟩ => ?_⟩
  have h1 := h.later hI hl
  cases ha with
  | close => exact next _ _ ⟨hF _ h1.1, h1.2⟩

theorem safe_drop (hI : Stable I) (hpre : Free pre I) {F G : FdTable → Prop} {f : Unit → Sys α}
    (fd : Option Nat) (hF : ∀ u, F u → G (u.dropped fd))
    (next : ∀ s, On I G s → Safe pre post (f ()) s) {s : Proc α} (h : On I F s) :
    Safe pre post (drop fd >>= f) s := by
  cases fd with
  | none => exact next s ⟨hF _ h.1, h.2⟩
  | some fd => exact safe_close (f := fun _ => f ()) hI hpre hF (fun _ => next) h

theorem safe_dup2 (hI : Stable I) (hpre : Free pre I) {F G : FdTable → Prop} {f : Bool → Sys α}
    {oldfd newfd : Nat}
    (hF : ∀ u live, F u → (u.dup2 live oldfd newfd).2 = true → G (u.dup2 live oldfd newfd).1)
    (good : ∀ s, On I G s → Safe pre post (f true) s)
    (bad : ∀ s, On I (fun _ => True) s → Safe pre post (f false) s) {s : Proc α} (h : On I F s) :
    Safe pre post (dup2 oldfd newfd >>= f) s := by
  refine ⟨hpre _ _ nofun h.2, fun a s' ⟨s1, hl, ha⟩ => ?_⟩
  have h1 := h.later hI hl
  cases ha with
  | dup2 live =>
    rcases hb : (s1.fds.dup2 live oldfd newfd).2 with _ | _
    · exact bad _ ⟨trivial, h1.2⟩
    · exact good _ ⟨hF _ live h1.1 hb, h1.2⟩

/-- `if (m fails) fail();`, given what the table is when `m` succeeds. -/
theorem safe_orFail (hpre : Free pre I) {F G : FdTable → Prop} {a : Option β} {m : β → Sys Bool}
    {f : Unit → Sys α} (hnone : a = none → ∀ u, F u → G u)
    (hsome : ∀ b (g : Bool → Sys α), a = some b → (∀ s, On I G s → Safe pre post (g true) s) →
      (∀ s, On I (fun _ => True) s → Safe pre post (g false) s) → ∀ s, On I F s →
      Safe pre post (m b >>= g) s)
    (next : ∀ s, On I G s → Safe pre post (f ()) s) {s : Proc α} (h : On I F s) :
    Safe pre post (orFail a m >>= f) s := by
  cases a with
  | none => exact next s ⟨hnone rfl _ h.1, h.2⟩
  | some b =>
    rw [orFail, bind_assoc]
    refine hsome b _ rfl (fun s hs => ?_) (fun s hs => ?_) s h
    · exact next s hs
    · exact ⟨hpre _ _ nofun hs.2, nofun⟩

end Shell

/-! ## A child -/

/-- The table at the start of a child: 0 to 2 as before the line, and the ends of the stage, which
may be gone. -/
structure Begins (t : FdTable) (made : List Nat) (i : Nat) (inFd pr pw : Option Nat) (u : FdTable) :
    Prop where
  std : ∀ j < 3, u j = t j
  ends : u.EndsIn fun j => inFd = some j ∨ pr = some j ∨ pw = some j
  input : ∀ f, inFd = some f → 3 ≤ f ∧ 0 < i ∧ ((u f).used = true → EndOf made .pipeR (i - 1) (u f))
  output : ∀ w, pw = some w → 3 ≤ w ∧ ((u w).used = true → EndOf made .pipeW i (u w))

/-- The standard entries of a child once `in_fd` is moved. -/
structure MovedIn (t : FdTable) (made : List Nat) (i : Nat) (pw : Option Nat) (L : Nat → Prop)
    (u : FdTable) : Prop where
  input : (0 < i → EndOf made .pipeR (i - 1) (u 0)) ∧ (i = 0 → u 0 = t 0)
  rest : u 1 = t 1 ∧ u 2 = t 2
  ends : u.EndsIn L
  output : ∀ w, pw = some w → 3 ≤ w ∧ ((u w).used = true → EndOf made .pipeW i (u w))

/-- The standard entries of a child once `in_fd` and `out_fd` are moved. -/
structure Moved (t : FdTable) (made : List Nat) (n i : Nat) (L : Nat → Prop) (u : FdTable) : Prop where
  input : (0 < i → EndOf made .pipeR (i - 1) (u 0)) ∧ (i = 0 → u 0 = t 0)
  output : (i + 1 < n → EndOf made .pipeW i (u 1)) ∧ (i + 1 = n → u 1 = t 1)
  err : u 2 = t 2
  ends : u.EndsIn L

theorem Forking.begins (h : Forking t made i inFd pr pw u) (ht : t.Plain)
    (hv : ∀ j, v j = u j ∨ (u j).kind.isPipe = true ∧ (v j).used = false) : Begins t made i inFd pr pw v := by
  have hkeep : ∀ j, (v j).used = true → v j = u j := by
    intro j hj
    rcases hv j with h | ⟨-, h⟩
    · exact h
    · rw [h] at hj
      cases hj
  refine ⟨fun j hj => ?_, fun j h3 hj hu hk => ?_, fun f hf => ?_, fun w hw => ?_⟩
  · have hu : u j = t j := by
      refine (h.same j (by simp [fdMax]; omega) (fun hf => ?_) (fun hf => ?_) fun hf => ?_).used
        (ht.bound j hj).1
      · have := (h.input j hf).1
        omega
      · have := (h.reads j hf).1
        omega
      · have := (h.writes j hf).1
        omega
    rcases hv j with hv | ⟨hk, -⟩
    · rw [hv, hu]
    · rw [hu, (ht.bound j hj).2] at hk
      cases hk
  · by_contra hne
    simp only [not_or] at hne
    rw [hkeep j hu] at hu
    rcases h.same j hj hne.1 hne.2.1 hne.2.2 with hb | ⟨-, hb⟩ <;> rw [hb] at hu
    · rw [ht.free j hj h3] at hu
      cases hu
    · cases hu
  · obtain ⟨h3, -, h0, he⟩ := h.input f hf
    exact ⟨h3, h0, fun hu => by rwa [hkeep f hu]⟩
  · obtain ⟨h3, -, -, he⟩ := h.writes w hw
    exact ⟨h3, fun hu => by rwa [hkeep w hu]⟩

namespace FdTable

/-- A `dup2` that succeeds copies the entry. -/
theorem dup2_spec {live : Nat → Bool} {a b : Nat} (hab : a ≠ b) (h : (u.dup2 live a b).2 = true) :
    (u a).used = true ∧ (u.dup2 live a b).1 = Function.update u b (u a) := by
  unfold dup2 at h ⊢
  split_ifs at h ⊢ with h1
  exact ⟨h1.2.2, by rw [copy_used h]⟩

end FdTable

theorem Begins.movedIn (h : Begins t made i inFd pr pw u) (hi : i = 0) :
    MovedIn t made i pw (fun j => inFd = some j ∨ pr = some j ∨ pw = some j) u :=
  ⟨⟨fun h0 => by omega, fun _ => h.std 0 (by decide)⟩, ⟨h.std 1 (by decide), h.std 2 (by decide)⟩,
    h.ends, h.output⟩

theorem Begins.dup0 (h : Begins t made i inFd pr pw u) {f : Nat} {live : Nat → Bool} (hf : inFd = some f)
    (hok : (u.dup2 live f 0).2 = true) :
    MovedIn t made i pw (fun j => inFd = some j ∨ pr = some j ∨ pw = some j) (u.dup2 live f 0).1 := by
  obtain ⟨h3, h0, he⟩ := h.input f hf
  obtain ⟨hu, hd⟩ := FdTable.dup2_spec (by omega) hok
  rw [hd]
  refine ⟨⟨fun _ => ?_, fun _ => by omega⟩, ⟨?_, ?_⟩, h.ends.update (.inl (by decide)), fun w hw => ?_⟩
  · rw [Function.update_self]
    exact he hu
  · rw [Function.update_of_ne (by decide)]
    exact h.std 1 (by decide)
  · rw [Function.update_of_ne (by decide)]
    exact h.std 2 (by decide)
  · have hw3 := h.output w hw
    rw [Function.update_of_ne (by omega)]
    exact hw3

theorem MovedIn.moved {L : Nat → Prop} (h : MovedIn t made i pw L u) (hi : i + 1 = n) :
    Moved t made n i L u :=
  ⟨h.input, ⟨fun h1 => by omega, fun _ => h.rest.1⟩, h.rest.2, h.ends⟩

theorem MovedIn.dup1 {L : Nat → Prop} (h : MovedIn t made i pw L u) {w : Nat} {live : Nat → Bool}
    (hw : pw = some w) (hi : i + 1 ≠ n) (hok : (u.dup2 live w 1).2 = true) :
    Moved t made n i L (u.dup2 live w 1).1 := by
  obtain ⟨h3, he⟩ := h.output w hw
  obtain ⟨hu, hd⟩ := FdTable.dup2_spec (by omega) hok
  rw [hd]
  refine ⟨?_, ⟨fun _ => ?_, fun h1 => absurd h1 hi⟩, ?_, h.ends.update (.inl (by decide))⟩
  · rw [Function.update_of_ne (by decide)]
    exact h.input
  · rw [Function.update_self]
    exact he hu
  · rw [Function.update_of_ne (by decide)]
    exact h.rest.2

theorem Moved.drop {L : Nat → Prop} (h : Moved t made n i L u) {fd : Option Nat}
    (hfd : ∀ f, fd = some f → 3 ≤ f) :
    Moved t made n i (fun j => L j ∧ fd ≠ some j) (u.dropped fd) := by
  have hlt : ∀ j < 3, u.dropped fd j = u j := fun j hj => FdTable.dropped_ne fun hf => by
    have := hfd j hf
    omega
  refine ⟨?_, ?_, ?_, h.ends.dropped fd⟩
  · rw [hlt 0 (by decide)]
    exact h.input
  · rw [hlt 1 (by decide)]
    exact h.output
  · rw [hlt 2 (by decide)]
    exact h.err

theorem Moved.wired {L : Nat → Prop} (h : Moved t made n i L u) (ht : t.Plain) (hi : i < n)
    (hL : ∀ j, ¬ L j) :
    Wired t made n i none none u := by
  refine ⟨fun _ => h.input, fun _ => h.output, fun j hj hu hk => ?_, fun j hj => ?_⟩
  · rcases (by omega : j = 0 ∨ j = 1 ∨ j = 2 ∨ 3 ≤ j) with rfl | rfl | rfl | h3
    · rcases Nat.eq_zero_or_pos i with h0 | h0
      · rw [h.input.2 h0, (ht.bound 0 (by decide)).2] at hk
        cases hk
      · exact .inl ⟨rfl, h0, h.input.1 h0⟩
    · rcases (by omega : i + 1 = n ∨ i + 1 < n) with h1 | h1
      · rw [h.output.2 h1, (ht.bound 1 (by decide)).2] at hk
        cases hk
      · exact .inr ⟨rfl, h1, h.output.1 h1⟩
    · rw [h.err, (ht.bound 2 (by decide)).2] at hk
      cases hk
    · exact absurd (h.ends j h3 hj hu hk) (hL j)
  · rcases (by omega : j = 0 ∨ j = 1 ∨ j = 2) with rfl | rfl | rfl
    · rcases Nat.eq_zero_or_pos i with h0 | h0
      · rw [h.input.2 h0]
        exact (ht.bound 0 (by decide)).1
      · exact (h.input.1 h0).1
    · rcases (by omega : i + 1 = n ∨ i + 1 < n) with h1 | h1
      · rw [h.output.2 h1]
        exact (ht.bound 1 (by decide)).1
      · exact (h.output.1 h1).1
    · rw [h.err]
      exact (ht.bound 2 (by decide)).1

/-- Above 2 anything but a pipe end may come and go. -/
theorem Wired.put {a b : Option Name} (h : Wired t made n i a b u) {j : Nat} (h3 : 3 ≤ j) {e : FdEntry}
    (he : e.kind.isPipe = false) : Wired t made n i a b (Function.update u j e) := by
  have hlt : ∀ m < 3, Function.update u j e m = u m := fun m hm => Function.update_of_ne (by omega) _ _
  refine ⟨fun ha => ?_, fun hb => ?_, fun m hm hu hk => ?_, fun m hm => ?_⟩
  · rw [hlt 0 (by decide)]
    exact h.input ha
  · rw [hlt 1 (by decide)]
    exact h.output hb
  · by_cases hj : m = j
    · subst hj
      rw [Function.update_self, he] at hk
      cases hk
    · rw [Function.update_of_ne hj] at hu hk ⊢
      exact h.ends m hm hu hk
  · rw [hlt m hm]
    exact h.std m hm

theorem Wired.close {a b : Option Name} (h : Wired t made n i a b u) {j : Nat} (h3 : 3 ≤ j) :
    Wired t made n i a b (u.close j).1 := by
  unfold FdTable.close
  split
  · exact h.put h3 rfl
  · exact h

/-- A file on 0 or 1. -/
theorem Wired.redir {a b a' b' : Option Name} (h : Wired t made n i a b u) {j : Nat} (hj : j < 3)
    {e : FdEntry} (hu : e.used = true) (he : e.kind = .file) (ha : a' = none → j ≠ 0 ∧ a = none)
    (hb : b' = none → j ≠ 1 ∧ b = none) :
    Wired t made n i a' b' (Function.update u j e) := by
  refine ⟨fun h0 => ?_, fun h1 => ?_, fun m hm hu hk => ?_, fun m hm => ?_⟩
  · rw [Function.update_of_ne (ha h0).1.symm]
    exact h.input (ha h0).2
  · rw [Function.update_of_ne (hb h1).1.symm]
    exact h.output (hb h1).2
  · by_cases hmj : m = j
    · subst hmj
      rw [Function.update_self, he] at hk
      cases hk
    · rw [Function.update_of_ne hmj] at hu hk ⊢
      exact h.ends m hm hu hk
  · by_cases hmj : m = j
    · subst hmj
      rw [Function.update_self, hu]
    · rw [Function.update_of_ne hmj]
      exact h.std m hm

namespace Shell

variable {α β : Type} {pre : Call → Proc α → Prop} {post : α → Proc α → Prop}
    {I : List Nat → List (Kid α) → Prop}

theorem safe_openFile (hI : Stable I) (hpre : Free pre I) {F : FdTable → Prop} {path : Name} {flags : Nat}
    {f : Option Nat → Sys α} (bad : ∀ s, On I F s → Safe pre post (f none) s)
    (good : ∀ s j e, On I F s → e.used = true → e.kind = .file → (s.fds j).used = false →
      Safe pre post (f (some j)) { s with fds := Function.update s.fds j e })
    {s : Proc α} (h : On I F s) : Safe pre post (openFile path flags >>= f) s := by
  refine ⟨hpre _ _ nofun h.2, fun a s' ⟨s1, hl, ha⟩ => ?_⟩
  have h1 := h.later hI hl
  cases ha with
  | noFile => exact bad _ h1
  | openFile _ _ e he hop =>
    simp only [FdTable.openFile, Option.map_eq_some_iff, Prod.mk.injEq] at hop
    obtain ⟨j, hfree, rfl, rfl⟩ := hop
    exact good s1 j e h1 he.1 he.2 (FdTable.free_spec hfree).2.2

/-- `apply_redir`: `F` of the table before it and `G` once `dst` is the file. -/
theorem safe_applyRedir (hI : Stable I) (hpre : Free pre I) {F G : FdTable → Prop} {path : Name}
    {dst flags : Nat} {g : Bool → Sys α} (hdst : dst < 3)
    (hstd : ∀ u, F u → ∀ j < 3, (u j).used = true)
    (hput : ∀ u j e, F u → 3 ≤ j → e.kind.isPipe = false → F (Function.update u j e))
    (hdup : ∀ u e, F u → e.used = true → e.kind = .file → G (Function.update u dst e))
    (hclose : ∀ u j, 3 ≤ j → G u → G (u.close j).1)
    (good : ∀ s, On I G s → Safe pre post (g true) s)
    (bad : ∀ s, On I (fun _ => True) s → Safe pre post (g false) s) {s : Proc α} (h : On I F s) :
    Safe pre post (applyRedir path dst flags >>= g) s := by
  rw [applyRedir, bind_assoc]
  refine safe_openFile hI hpre (fun s hs => bad s ⟨trivial, hs.2⟩) (fun s j e hs hu he hj => ?_) h
  have h3 : 3 ≤ j := by
    by_contra hlt
    rw [hstd _ hs.1 j (by omega)] at hj
    cases hj
  have hon : On I (fun u => F u ∧ u j = e) { s with fds := Function.update s.fds j e } :=
    ⟨⟨hput _ j e hs.1 h3 (by rw [he]; rfl), Function.update_self _ _ _⟩, hs.2⟩
  dsimp only
  rw [bind_assoc]
  refine safe_dup2 (F := fun u => F u ∧ u j = e) (G := G) hI hpre (fun u live hu' hok => ?_) (fun s hs => ?_)
    (fun s hs => ?_) hon
  · rw [(FdTable.dup2_spec (by omega) hok).2, hu'.2]
    exact hdup u e hu'.1 hu he
  · have hf : (some j).filter (· ≠ dst) = some j := by simp; omega
    rw [if_pos rfl, hf, bind_assoc]
    exact safe_drop (G := G) hI hpre (some j) (fun u hu => hclose u j h3 hu) good hs
  · exact bad s hs

/-- The child reaches its `exec` wired, or not at all. -/
theorem safe_childExec (hI : Stable I) (hpre : Free pre I) {c : Redirs} (ht : t.Plain) (hi : i < n)
    (hin : inFd = none ↔ i = 0) (hout : pw = none ↔ i + 1 = n) (hpr : ∀ r, pr = some r → 3 ≤ r)
    (hexec : ∀ s, On I (Wired t made n i c.inPath c.outPath) s → pre (.exec i) s) {s : Proc α}
    (h : On I (Begins t made i inFd pr pw) s) : Safe pre post (childExec c i inFd pw pr pw) s := by
  have h3 := h.1
  have hin3 : ∀ f, inFd = some f → 3 ≤ f := fun f hf => (h3.input f hf).1
  have hpw3 : ∀ w, pw = some w → 3 ≤ w := fun w hw => (h3.output w hw).1
  have hfil : ∀ (fd : Option Nat) (p : Nat → Bool), (∀ f, fd = some f → 3 ≤ f) → (∀ f, 3 ≤ f → p f = true) →
      fd.filter p = fd := fun fd p h1 h2 => by
    cases fd with
    | none => rfl
    | some f => simp [h2 f (h1 f rfl)]
  have hfree : ∀ {F : FdTable → Prop} {s : Proc α}, On I F s → On I (fun _ => True) s :=
    fun hs => ⟨trivial, hs.2⟩
  unfold childExec
  rw [hfil inFd _ hin3 (by simp; omega), hfil pw _ hpw3 (by simp; omega), hfil pr _ hpr (by simp; omega),
    hfil pw _ hpw3 (by simp; omega)]
  -- the two moves
  refine safe_orFail (G := MovedIn t made i pw fun j => inFd = some j ∨ pr = some j ∨ pw = some j) hpre
    (fun hn u hu => hu.movedIn (hin.1 hn))
    (fun f g hf good bad s => safe_dup2 hI hpre (fun u live hu hok => hu.dup0 hf hok) good bad)
      (fun s hs => ?_) h
  refine safe_orFail (G := Moved t made n i fun j => inFd = some j ∨ pr = some j ∨ pw = some j) hpre
    (fun hn u hu => hu.moved (hout.1 hn))
    (fun w g hw good bad s => safe_dup2 hI hpre
      (fun u live hu hok => hu.dup1 hw (fun h1 => by simp [hout.2 h1] at hw) hok) good bad)
        (fun s hs => ?_) hs
  -- the four drops
  refine safe_drop hI hpre inFd (fun u hu => Moved.drop hu hin3) (fun s hs => ?_) hs
  refine safe_drop hI hpre pw (fun u hu => Moved.drop hu hpw3) (fun s hs => ?_) hs
  refine safe_drop hI hpre pr (fun u hu => Moved.drop hu hpr) (fun s hs => ?_) hs
  refine safe_drop (G := Wired t made n i none none) hI hpre pw
    (fun u hu => (Moved.drop hu hpw3).wired ht hi (by simp; tauto)) (fun s hs => ?_) hs
  -- the files
  refine safe_orFail (G := Wired t made n i c.inPath none) hpre (fun hn u hu => by rwa [hn])
    (fun p g hp good bad s => safe_applyRedir hI hpre (by decide) (fun u hu => hu.std)
      (fun u j e hu hj he => hu.put hj he) (fun u e hu h1 h2 => hu.redir (by decide) h1 h2
        (by simp [hp]) (by simp))
      (fun u j hj hu => hu.close hj) good bad) (fun s hs => ?_) hs
  refine safe_orFail (G := Wired t made n i c.inPath c.outPath) hpre (fun hn u hu => by rwa [hn])
    (fun p g hp good bad s => safe_applyRedir hI hpre (by decide) (fun u hu => hu.std)
      (fun u j e hu hj he => hu.put hj he)
      (fun u e hu h1 h2 => hu.redir (by decide) h1 h2 (by simp) (by simp [hp]))
      (fun u j hj hu => hu.close hj) good bad) (fun s hs => ?_) hs
  refine ⟨hexec s hs, fun a s' ⟨s1, hl, ha⟩ => ?_⟩
  cases ha with
  | noExec => exact safe_fail hpre (hfree (hs.later hI hl))

end Shell

namespace Shell

variable {α β : Type} {pre : Call → Proc α → Prop} {post : α → Proc α → Prop}
    {I : List Nat → List (Kid α) → Prop}

theorem safe_waits (hI : Stable I) (hpre : Free pre I) {F : FdTable → Prop} {f : Unit → Sys α}
    (next : ∀ s, On I F s → Safe pre post (f ()) s) (m : Nat) {s : Proc α} (h : On I F s) :
    Safe pre post (waits m >>= f) s := by
  induction m generalizing s with
  | zero => exact next s h
  | succ m ih =>
    refine ⟨hpre _ _ nofun h.2, fun a s' ⟨s1, hl, ha⟩ => ?_⟩
    have h1 := h.later hI hl
    cases ha with
    | wait code hf => exact ih ⟨h1.1, hI _ _ _ (starts_reap s1 _) h1.2⟩
    | noWait => exact ih h1

/-! ## The shell -/

/-- What a child does at each call, if it is the one of stage `i`. -/
def KidPre (t : FdTable) (cs : Nat → Redirs) (n i : Nat) (made : List Nat) (c : Call) (u : Proc α) : Prop :=
  ∀ x, c = .exec x → x = i ∧ Wired t made n i (cs i).inPath (cs i).outPath u.fds

/-- The children from number `base` on are those of the stages, in order. -/
def KidsOk (t : FdTable) (cs : Nat → Redirs) (n base : Nat) (made : List Nat) (kids : List (Kid α)) : Prop :=
  ∀ i c, kids[base + i]? = some c →
    c.made <+: made ∧ Safe (KidPre t cs n i c.made) (fun _ _ => True) c.prog c.start

/-- The rest of the shell's state at stage `i`. -/
def Rest (t : FdTable) (cs : Nat → Redirs) (n base i : Nat) (m made : List Nat)
    (kids : List (Kid α)) : Prop :=
  made = m ∧ kids.length = base + i ∧ KidsOk t cs n base made kids

variable {cs : Nat → Redirs} {base : Nat} {m : List Nat}

theorem KidsOk.stable {kids kids' : List (Kid α)} (h : KidsOk t cs n base made kids)
    (hk : starts kids' = starts kids) :
    KidsOk t cs n base made kids' := by
  intro i c hc
  have hx := congrArg (·[base + i]?) hk
  simp only [starts, List.getElem?_map, hc, Option.map_some] at hx
  rcases hd : kids[base + i]? with _ | d <;> rw [hd] at hx
  · cases hx
  · have := h i d hd
    injection hx with hx
    injection hx with h1 h2 h3 h4 h5
    rw [Kid.start, h2, h3, h4]
    exact this

theorem rest_stable : Stable (Rest (α := α) t cs n base i m) := by
  rintro made kids kids' hk ⟨rfl, hl, h⟩
  have hlen := congrArg List.length hk
  simp only [starts, List.length_map] at hlen
  exact ⟨rfl, hlen.trans hl, h.stable hk⟩

theorem safe_pipe (hI : Stable I) (hpre : Free pre I) {F : FdTable → Prop} {f : Option (Nat × Nat) → Sys α}
    (bad : ∀ s, On I F s → Safe pre post (f none) s)
    (good : ∀ s q t' r w, On I F s → s.fds.pipe q = some (t', r, w) →
      Safe pre post (f (some (r, w))) { s with fds := t', made := s.made ++ [q] })
    {s : Proc α} (h : On I F s) : Safe pre post (pipe >>= f) s := by
  refine ⟨hpre _ _ nofun h.2, fun a s' ⟨s1, hl, ha⟩ => ?_⟩
  have h1 := h.later hI hl
  cases ha with
  | noPipe => exact bad _ h1
  | pipe q hq => exact good s1 q _ _ _ h1 hq

theorem safe_fork (hI : Stable I) (hpre : Free pre I) {F : FdTable → Prop} {f : Option Nat → Sys α}
    (bad : ∀ s, On I F s → Safe pre post (f none) s)
    (good : ∀ s slot live, On I F s → Safe pre post (f (some slot))
      { s with kids := s.kids ++ [⟨slot, s.fds.inherit live, s.made, f (some 0), .running⟩] })
    {s : Proc α} (h : On I F s) : Safe pre post (fork >>= f) s := by
  refine ⟨hpre _ _ nofun h.2, fun a s' ⟨s1, hl, ha⟩ => ?_⟩
  have h1 := h.later hI hl
  cases ha with
  | noFork => exact bad _ h1
  | fork slot live _ => exact good s1 slot live h1

abbrev ShellPre (t : FdTable) (cs : Nat → Redirs) (n base : Nat) (_ : Call) (s : Proc Int) : Prop :=
  KidsOk t cs n base s.made s.kids

abbrev ShellPost (t : FdTable) (cs : Nat → Redirs) (n base : Nat) (_ : Int) (s : Proc Int) : Prop :=
  KidsOk t cs n base s.made s.kids ∧ ∀ j < fdMax, Back (t j) (s.fds j)

theorem rest_free : Free (ShellPre t cs n base) (Rest t cs n base i m) := fun _ _ _ h => h.2.2

theorem KidsOk.mono {kids : List (Kid α)} (h : KidsOk t cs n base made kids) (hm : made <+: m) :
    KidsOk t cs n base m kids := fun i c hc => ⟨(h i c hc).1.trans hm, (h i c hc).2⟩

theorem KidsOk.push {kids : List (Kid α)} (h : KidsOk t cs n base made kids)
    (hl : kids.length = base + i) {c : Kid α} (hm : c.made <+: made)
    (hs : Safe (KidPre t cs n i c.made) (fun _ _ => True) c.prog c.start) :
    KidsOk t cs n base made (kids ++ [c]) := by
  intro x d hd
  rcases (by omega : x < i ∨ x = i ∨ i < x) with hx | rfl | hx
  · rw [List.getElem?_append_left (by omega)] at hd
    exact h x d hd
  · rw [← hl, List.getElem?_concat_length] at hd
    cases hd
    exact ⟨hm, hs⟩
  · rw [List.getElem?_eq_none (by simp; omega)] at hd
    cases hd

/-- A child of stage `i` is safe. -/
theorem child_safe (ht : t.Plain) (hi : i < n) (hin : inFd = none ↔ i = 0) (hout : pw = none ↔ i + 1 = n)
    (hpr : ∀ r, pr = some r → 3 ≤ r) {s : Proc α} (h : Begins t s.made i inFd pr pw s.fds) :
    Safe (KidPre t cs n i s.made) (fun _ _ => True) (childExec (cs i) i inFd pw pr pw) s := by
  have hI : Stable fun made (_ : List (Kid α)) => made = s.made := fun _ _ _ _ h => h
  have hfree : Free (KidPre t cs n i s.made) fun made (_ : List (Kid α)) => made = s.made :=
    fun c u hc _ x hx => absurd hx (hc x)
  refine safe_childExec hI hfree ht hi hin hout hpr (fun u hu x hx => ?_) ⟨h, rfl⟩
  cases hx
  exact ⟨rfl, hu.1⟩

/-- Stage `i` from the fork on. -/
theorem safe_startStage (ht : t.Plain) (hi : i < n) (hin : inFd = none ↔ i = 0) {p : Option (Nat × Nat)}
    (hout : p = none ↔ i + 1 = n) {next : Option Nat → Sys Int}
    (hnext : ∀ s, On (Rest t cs n base (i + 1) m) (ShellAt t m (i + 1) (p.map Prod.fst)) s →
      Safe (ShellPre t cs n base) (ShellPost t cs n base) (next (p.map Prod.fst)) s)
    {s : Proc Int} (h : On (Rest t cs n base i m) (Forking t m i inFd (p.map Prod.fst) (p.map Prod.snd)) s) :
    Safe (ShellPre t cs n base) (ShellPost t cs n base) (startStage (cs i) i inFd p next) s := by
  have hout' : p.map Prod.snd = none ↔ i + 1 = n := by rw [Option.map_eq_none_iff]; exact hout
  unfold startStage
  refine safe_fork rest_stable rest_free (fun s hs => ?_) (fun s slot live hs => ?_) h
  · refine safe_drop (G := fun u => ∃ v, Forking t m i inFd (p.map Prod.fst) (p.map Prod.snd) v ∧
      u = v.dropped inFd) rest_stable rest_free inFd (fun u hu => ⟨u, hu, rfl⟩) (fun s hs => ?_) hs
    refine safe_drop (G := fun u => ∃ v, Forking t m i inFd (p.map Prod.fst) (p.map Prod.snd) v ∧
      u = (v.dropped inFd).dropped (p.map Prod.fst)) rest_stable rest_free (p.map Prod.fst)
      (fun u ⟨v, hv, hu⟩ => ⟨v, hv, by rw [hu]⟩) (fun s hs => ?_) hs
    refine safe_drop (G := fun u => ∀ j < fdMax, Back (t j) (u j)) rest_stable rest_free (p.map Prod.snd)
      (fun u hu => ?_) (fun s hs => ?_) hs
    · obtain ⟨v, hv, rfl⟩ := hu
      exact hv.undo ht
    · refine safe_waits rest_stable rest_free (fun s hs => ?_) i hs
      exact ⟨hs.2.2.2, hs.1⟩
  · obtain ⟨hF, rfl, hl, hk⟩ := hs
    have hpr : ∀ r, p.map Prod.fst = some r → 3 ≤ r := fun r hr => (hF.reads r hr).1
    have hc : Safe (KidPre t cs n i s.made) (fun _ _ => True)
        (childExec (cs i) i inFd (p.map Prod.snd) (p.map Prod.fst) (p.map Prod.snd))
        (⟨s.fds.inherit live, s.made, []⟩ : Proc Int) :=
      child_safe (s := ⟨s.fds.inherit live, s.made, []⟩) ht hi hin hout' hpr
        (hF.begins ht fun j => FdTable.copy_cases live _)
    have hk' : KidsOk t cs n base s.made (s.kids ++
        [⟨slot, s.fds.inherit live, s.made, childExec (cs i) i inFd (p.map Prod.snd)
          (p.map Prod.fst) (p.map Prod.snd), .running⟩]) := hk.push hl (List.prefix_refl _) hc
    have hl' : ∀ c, (s.kids ++ [c]).length = base + (i + 1) := fun c => by simp [hl]; omega
    change Safe _ _ (if slot = 0 then _ else _) { s with kids := s.kids ++
      [⟨slot, s.fds.inherit live, s.made, childExec (cs i) i inFd (p.map Prod.snd) (p.map Prod.fst)
        (p.map Prod.snd),
        .running⟩] }
    split
    · exact safe_childExec rest_stable rest_free ht hi hin hout' hpr (fun s hs => hs.2.2.2)
        ⟨hF.begins ht fun j => .inl rfl, rfl, hl' _, hk'⟩
    · refine safe_drop (I := Rest t cs n base (i + 1) s.made)
        (G := fun u => ∃ v, Forking t s.made i inFd (p.map Prod.fst) (p.map Prod.snd) v ∧ u = v.dropped inFd)
        rest_stable rest_free inFd (fun u hu => ⟨u, hu, rfl⟩) (fun s1 hs => ?_) ⟨hF, rfl, hl' _, hk'⟩
      refine safe_drop rest_stable rest_free (p.map Prod.snd) (fun u hu => ?_) hnext hs
      obtain ⟨v, hv, rfl⟩ := hu
      exact hv.next ht

/-- The loop of `run_cmds`. -/
theorem safe_stages (ht : t.Plain) (bg : Bool) {left : Nat} (hn : i + left = n)
    (hin : 0 < left → (inFd = none ↔ i = 0)) (hm : 1 < left → m.length = i) {s : Proc Int}
    (h : On (Rest t cs n base i m) (ShellAt t m i inFd) s) :
    Safe (ShellPre t cs n base) (ShellPost t cs n base) (stages cs bg left i inFd) s := by
  induction left generalizing i inFd m s with
  | zero =>
    refine safe_drop (G := fun u => ∀ j < fdMax, Back (t j) (u j)) rest_stable rest_free inFd
      (fun u hu => hu.drop ht) (fun s hs => ?_) h
    cases bg
    · refine safe_waits rest_stable rest_free (fun s hs => ?_) i hs
      exact ⟨hs.2.2.2, hs.1⟩
    · exact ⟨hs.2.2.2, hs.1⟩
  | succ left ih =>
    unfold stages
    split
    · next hl =>
      refine safe_pipe rest_stable rest_free (fun s hs => ?_) (fun s q t' r w hs hq => ?_) h
      · refine safe_drop (G := fun u => ∀ j < fdMax, Back (t j) (u j)) rest_stable rest_free inFd
          (fun u hu => hu.drop ht) (fun s hs => ?_) hs
        refine safe_waits rest_stable rest_free (fun s hs => ?_) i hs
        exact ⟨hs.2.2.2, hs.1⟩
      · obtain ⟨hF, rfl, hk, hK⟩ := hs
        refine safe_startStage (m := s.made ++ [q]) ht (by omega) (hin (by omega)) (by simp; omega)
          (fun s hs => ?_) ⟨hF.pipe ht (hm (by omega)) hq, rfl, hk,
          hK.mono (List.prefix_append _ _)⟩
        exact ih (by omega) (fun _ => by simp) (fun _ => by simp [hm (by omega)]) hs
    · next hl =>
      have h0 : left = 0 := by omega
      subst h0
      exact safe_startStage ht (by omega) (hin (by omega)) (by simp; omega)
        (fun s hs => ih (by omega) nofun nofun hs) h

end Shell

namespace Shell

/-- Whatever fails, a line leaves the shell's table as it was, and a child gets to its `exec` with
the ends of its own two pipes on 0 and 1 and no other pipe end: once the shell is back, only child
`i` can write to pipe `i`. -/
theorem pipes_wired (cs : Nat → Redirs) (n : Nat) (bg : Bool) {t : FdTable} (ht : t.Plain)
    {kids : List (Kid Int)} {p : Sys Int} {s : Proc Int}
    (hr : Proc.Runs (runCmds cs n bg) ⟨t, [], kids⟩ p s) :
    (∀ r, p = .ret r → (∀ j < fdMax, Back (t j) (s.fds j)) ∧ ∀ q, ¬ s.fds.Writes q) ∧
    ∀ i c, s.kids[kids.length + i]? = some c → ∀ x k u, Proc.Runs c.prog c.start (.call (.exec x) k) u →
      x = i ∧ Wired t s.made n i (cs i).inPath (cs i).outPath u.fds ∧ ∀ q, u.fds.Writes q →
      s.made[i]? = some q := by
  have hstart : On (Rest t cs n kids.length 0 []) (ShellAt t [] 0 none) (⟨t, [], kids⟩ : Proc Int) := by
    refine ⟨⟨fun j _ _ _ _ => .inl rfl, nofun, nofun, nofun⟩, rfl, rfl, fun i c hc => ?_⟩
    rw [List.getElem?_eq_none (Nat.le_add_right _ _)] at hc
    cases hc
  have hend := (safe_stages ht bg (Nat.zero_add n) (fun _ => by simp) (fun _ => rfl) hstart).reaches hr
  refine ⟨?_, fun i c hc x k u hu => ?_⟩
  · rintro r rfl
    have hback := hend.2
    refine ⟨hback, fun q ⟨j, hj, hju, hjk, _⟩ => ?_⟩
    -- an entry that is back is no pipe end
    rcases hback j hj with hb | ⟨-, hb⟩ <;> rw [hb] at hju hjk
    · rcases (by omega : j < 3 ∨ 3 ≤ j) with h3 | h3
      · have := (ht.bound j h3).2
        rw [hjk] at this
        cases this
      · rw [ht.free j hj h3] at hju
        cases hju
    · cases hju
  · have hk : KidsOk t cs n kids.length s.made s.kids := by
      cases p with
      | ret r => exact hend.1
      | call c k => exact hend.1
    obtain ⟨hm, hs⟩ := hk i c hc
    obtain ⟨hx, hw⟩ := hs.reaches_call hu x rfl
    have hw' := hw.mono hm
    refine ⟨hx, hw', fun q ⟨j, hj, hju, hjk, hjp⟩ => ?_⟩
    rcases hw'.ends j hj hju (by rw [hjk]; rfl) with ⟨-, -, -, hkind, -⟩ | ⟨-, -, -, -, q', hq, hp⟩
    · rw [hjk] at hkind
      cases hkind
    · rw [hp, Option.some.injEq] at hjp
      rw [hq, hjp]

/-- The table of a task that the kernel shell started: the console on 0 to 2. -/
def stdTable : FdTable :=
  fun j => if j < 3 then ⟨true, if j = 0 then .consoleR else .consoleW, none, 0, []⟩ else .empty

/-- A line `a | b &`: the pipe is slot 0, the children are in slots 2 and 3, and `a` gets to its
`exec` with the write end on 1. -/
theorem pipes_wired_two : ∃ s : Proc Int,
    Proc.Runs (runCmds (fun _ => ⟨none, none, 1⟩) 2 true) ⟨stdTable, [], []⟩ (.ret 0) s ∧
    (∀ j < fdMax, Back (stdTable j) (s.fds j)) ∧ (∀ q, ¬ s.fds.Writes q) ∧
    ∃ c k u, s.kids[0]? = some c ∧ Proc.Runs c.prog c.start (.call (.exec 0) k) u ∧
    Wired stdTable s.made 2 0 none none u.fds ∧
      (∀ q, u.fds.Writes q → s.made[0]? = some q) ∧ u.fds.Writes 0 := by
  have hlater : ∀ s : Proc Int, s.Later s := fun s => ⟨s.kids, List.forall₂_same.2 fun c _ => .inl rfl, rfl⟩
  have hrun : ∃ s : Proc Int, Proc.Runs (runCmds (fun _ => ⟨none, none, 1⟩) 2 true)
    ⟨stdTable, [], []⟩ (.ret 0) s ∧
      ∃ c, s.kids[0]? = some c ∧ ∃ k u, Proc.Runs c.prog c.start (.call (.exec 0) k) u ∧ u.fds.Writes 0 := by
    refine ⟨_, .call ⟨_, hlater _, .pipe 0 rfl⟩ <| .call ⟨_, hlater _, .fork 2 (fun _ => true) nofun⟩ <|
      .call ⟨_, hlater _, .close 4⟩ <| .call ⟨_, hlater _, .fork 3 (fun _ => true) (by simp)⟩ <|
      .call ⟨_, hlater _, .close 3⟩ <| .refl _ _, _, rfl, ?_⟩
    exact ⟨_, _, .call ⟨_, hlater _, .dup2 (fun _ => true) 4 1⟩ <| .call ⟨_, hlater _, .close 4⟩ <|
      .call ⟨_, hlater _, .close 3⟩ <| .call ⟨_, hlater _, .close 4⟩ <| .refl _ _, 1, by decide, by
        decide, by decide, by decide⟩
  obtain ⟨s, hs, c, hc, k, u, hu, hw⟩ := hrun
  have ht : stdTable.Plain := ⟨by decide, by decide⟩
  obtain ⟨h1, h2⟩ := pipes_wired _ 2 true ht hs
  obtain ⟨h3, h4⟩ := h1 0 rfl
  obtain ⟨-, h5, h6⟩ := h2 0 c hc 0 k u hu
  exact ⟨s, hs, h3, h4, c, k, u, hc, hu, h5, h6, hw⟩

end Shell

end VampireOS
