import VampireOS.Fs.Listing
import VampireOS.Fs.Confine

/-!
# Working directory: text and cluster (kernel/fs.c:130-302, 1999-2023)

`path_apply` edits the text, `walk_all` follows the clusters. `render` is the text of a list of
names and `resolve` the directory they lead to.
-/

namespace VampireOS.Fs

open Lib

/-! ## The text -/

structure NameOk (c : Name) : Prop where
  ne : c ≠ []
  noSlash : slash ∉ c
  short : c.length < nameMax
  notDot : isDot c = false
  notDotDot : isDotDot c = false

def textOf (cs : List Name) : Name := cs.flatMap fun c => slash :: c

/-- The absolute path through `cs`. -/
def render (cs : List Name) : Name := if cs = [] then [slash] else textOf cs

theorem textOf_append (cs : List Name) (c : Name) : textOf (cs ++ [c]) = textOf cs ++ slash :: c := by
  unfold textOf
  rw [List.flatMap_append, List.flatMap_singleton]

theorem textOf_eq_nil {cs : List Name} : textOf cs = [] ↔ cs = [] := by
  cases cs with
  | nil => exact ⟨fun _ => rfl, fun _ => rfl⟩
  | cons c cs => exact ⟨nofun, nofun⟩

theorem render_eq_slash {cs : List Name} (h : ∀ c ∈ cs, NameOk c) : render cs = [slash] ↔ cs = [] := by
  unfold render
  cases cs with
  | nil => exact ⟨fun _ => rfl, fun _ => rfl⟩
  | cons c cs =>
    rw [if_neg nofun]
    refine ⟨fun he => ?_, nofun⟩
    have hc := (h c List.mem_cons_self).ne
    cases c with
    | nil => exact absurd rfl hc
    | cons b c => cases he

theorem render_append (cs : List Name) (c : Name) : render (cs ++ [c]) = textOf cs ++ slash :: c := by
  unfold render
  rw [if_neg (by simp), textOf_append]

theorem pathPop_render (cs : List Name) (h : ∀ c ∈ cs, NameOk c) :
    pathPop (render cs) = render cs.dropLast := by
  rcases List.eq_nil_or_concat cs with rfl | ⟨cs, c, rfl⟩
  · decide
  · rw [List.concat_eq_append] at h ⊢
    have hc : ∀ b ∈ c.reverse, (b ≠ slash) = true := fun b hb => by
      have := (h c (by simp)).noSlash
      simp only [ne_eq, eq_iff_iff, iff_true]
      rintro rfl
      exact this (List.mem_reverse.1 hb)
    have hkeep : ((textOf cs ++ slash :: c).reverse.dropWhile (· ≠ slash)).tail.reverse = textOf cs := by
      rw [List.reverse_append, List.reverse_cons, List.append_assoc, List.dropWhile_append_of_pos
        (by simpa using hc)]
      simp
    unfold pathPop
    simp only
    rw [render_append, hkeep, List.dropLast_concat]
    unfold render
    simp only [textOf_eq_nil]

theorem pathPush_render {cs : List Name} {c q : Name} (h : ∀ c ∈ cs, NameOk c)
    (hq : pathPush (render cs) c = some q) :
    q = render (cs ++ [c]) := by
  unfold pathPush at hq
  split at hq
  · cases hq
  · obtain ⟨-, he⟩ := Option.ite_none_right_eq_some.1 hq
    obtain rfl := Option.some.inj he
    rw [render_append]
    split
    · rename_i he
      obtain rfl := (render_eq_slash h).1 he
      rfl
    · rename_i he
      unfold render at he ⊢
      split
      · rename_i hn
        rw [if_pos hn] at he
        exact absurd rfl he
      · rw [List.append_assoc]
        rfl

theorem splitOn_textOf (cs : List Name) :
    ∀ c : Name, (∀ x ∈ c :: cs, slash ∉ x) → (c ++ textOf cs).splitOn slash = c :: cs := by
  induction cs with
  | nil =>
    intro c h
    rw [show textOf [] = [] from rfl, List.append_nil, List.splitOn_eq_singleton (h c List.mem_cons_self)]
  | cons c' cs ih =>
    intro c h
    rw [show textOf (c' :: cs) = slash :: (c' ++ textOf cs) from rfl,
      List.splitOn_append_cons_self_of_not_mem (h c List.mem_cons_self), ih c' fun x hx =>
        h x (List.mem_cons_of_mem _ hx)]

/-- The components of a rendered path are its names. -/
theorem components_render {cs : List Name} (h : ∀ c ∈ cs, NameOk c) :
    components (render cs) = cs.map some := by
  cases cs with
  | nil => decide
  | cons c cs =>
    have hsplit : (textOf (c :: cs)).splitOn slash = [] :: c :: cs := by
      rw [show textOf (c :: cs) = [] ++ slash :: (c ++ textOf cs) from rfl,
        List.splitOn_append_cons_self_of_not_mem List.not_mem_nil, splitOn_textOf cs c fun x hx =>
          (h x hx).noSlash]
    have hfilter : (c :: cs).filter (fun c => decide (c ≠ [])) = c :: cs := List.filter_eq_self.2 fun x hx =>
      decide_eq_true (h x hx).ne
    unfold components render
    rw [if_neg nofun, hsplit, List.filter_cons_of_neg (by simp), hfilter]
    exact List.map_congr_left fun x hx => if_pos (h x hx).short

theorem slash_not_mem_splitOn (p : Name) : ∀ c ∈ p.splitOn slash, slash ∉ c := by
  induction p with
  | nil => simp
  | cons b p ih =>
    intro c hc
    rw [List.splitOn_cons_eq_if_modifyHead] at hc
    split at hc
    · rcases List.mem_cons.1 hc with rfl | hc
      · exact List.not_mem_nil
      · exact ih c hc
    · rename_i hb
      obtain ⟨x, l, hl⟩ := List.exists_cons_of_ne_nil (List.splitOn_ne_nil slash p)
      rw [hl] at hc ih
      rcases List.mem_cons.1 hc with rfl | hc
      · have hx := ih x List.mem_cons_self
        simp only [List.mem_cons, not_or]
        exact ⟨fun e => hb (by rw [e]; exact BEq.rfl), hx⟩
      · exact ih c (List.mem_cons_of_mem _ hc)

/-- What `split_next` yields. -/
theorem components_ok {p c : Name} (h : some c ∈ components p) : c ≠ [] ∧ slash ∉ c ∧ c.length < nameMax := by
  unfold components at h
  obtain ⟨x, hx, e⟩ := List.mem_map.1 h
  obtain ⟨hx1, hx2⟩ := List.mem_filter.1 hx
  split at e
  · obtain rfl := Option.some.inj e
    exact ⟨of_decide_eq_true hx2, slash_not_mem_splitOn p _ hx1, ‹_›⟩
  · cases e

/-! ## The directories -/

/-- The subdirectory `name` of the directory at `cl`. -/
def child (s : Fs) (cl : Nat) (name : Name) : Option Nat :=
  ((s.listing cl).find? fun f => f.name = name).bind fun f => if f.isDir then some f.cluster else none

/-- Where the components lead from the directory at `cl`. -/
def resolve (s : Fs) : Nat → List (Option Name) → Option Nat
  | cl, [] => some cl
  | _, none :: _ => none
  | cl, some c :: cs => (s.child cl c).bind fun cl' => s.resolve cl' cs

/-- The directories below the root. -/
inductive Directory (s : Fs) : Nat → Prop where
  | root : Directory s 0
  | sub {cl : Nat} {f : FileEnt} : Directory s cl → f ∈ s.listing cl → f.isDir = true → Directory s f.cluster

/-- Every subdirectory has its parent in its second entry. -/
def Tree (s : Fs) : Prop := ∀ cl, Directory s cl → ∀ f ∈ s.listing cl, f.isDir = true →
  2 ≤ f.cluster ∧ rdU16 (s.disk (s.geo.dataLba f.cluster)) 58 = cl

theorem child_some {s : Fs} {cl cl' : Nat} {name : Name} (h : s.child cl name = some cl') :
    ∃ f ∈ s.listing cl, f.isDir = true ∧ f.cluster = cl' := by
  obtain ⟨f, hf, e⟩ := Option.bind_eq_some_iff.1 h
  obtain ⟨hd, e⟩ := Option.ite_none_right_eq_some.1 e
  exact ⟨f, List.mem_of_find?_eq_some hf, hd, Option.some.inj e⟩

theorem resolve_append (s : Fs) (cs : List (Option Name)) (c : Name) : ∀ cl,
    s.resolve cl (cs ++ [some c]) = (s.resolve cl cs).bind fun cl' => s.child cl' c := by
  induction cs with
  | nil =>
    intro cl
    simp [resolve]
  | cons x cs ih =>
    intro cl
    cases x with
    | none => rfl
    | some x =>
      simp only [List.cons_append, resolve]
      cases s.child cl x with
      | none => rfl
      | some cl' => exact ih cl'

theorem resolve_directory {s : Fs} (cs : List (Option Name)) :
    ∀ {cl cl' : Nat}, Directory s cl → s.resolve cl cs = some cl' →
    Directory s cl' := by
  induction cs with
  | nil => intro cl cl' hd h; exact Option.some.inj h ▸ hd
  | cons x cs ih =>
    intro cl cl' hd h
    cases x with
    | none => cases h
    | some x =>
      obtain ⟨c, hc, h⟩ := Option.bind_eq_some_iff.1 h
      obtain ⟨f, hf, hdir, rfl⟩ := child_some hc
      exact ih (.sub hd hf hdir) h

theorem SameVol.listing {s s' : Fs} (h : SameVol s s') (cl : Nat) : s'.listing cl = s.listing cl := by
  have hs : ({ s' with cwd := cl } : Fs).dirSectors = ({ s with cwd := cl } : Fs).dirSectors := by
    unfold dirSectors fatEnt
    simp only [h.geo, h.fat]
  unfold Fs.listing
  dsimp only
  rw [hs, h.disk]

theorem SameVol.resolve {s s' : Fs} (h : SameVol s s') (cs : List (Option Name)) :
    ∀ cl, s'.resolve cl cs = s.resolve cl cs := by
  induction cs with
  | nil => exact fun _ => rfl
  | cons c cs ih =>
    intro cl
    cases c with
    | none => rfl
    | some c =>
      simp only [Fs.resolve, child, h.listing, ih]

/-! ## The cache follows the walk -/

/-- The cache is the beginning of what the current directory lists. -/
structure Held (v : Fs) (s : Fs) : Prop where
  vol : SameVol v s
  cache : s.files.map FileEnt.bare <+: v.listing s.cwd

variable {v : Fs}

theorem Held.quiet {s s' : Fs} (h : Held v s) (hq : Quiet s s') : Held v s' := by
  rw [hq]
  exact ⟨⟨h.vol.geo, h.vol.disk, h.vol.fat⟩, h.cache⟩

theorem scanDir_held : Triple (SameVol v) scanDir (fun _ => Held v) (Held v) := by
  intro s hs
  have hk := scanDir_cached s
  have hheld : Held v (exec scanDir s).2 := by
    refine ⟨IsTrans.trans _ _ _ hs hk.sameVol, ?_⟩
    rw [hk.cwd, ← hs.listing]
    exact (scanDir_lists s).1
  exact ⟨fun _ _ => hheld, fun _ => hheld⟩

/-- Go to the directory at `cl`. -/
theorem goto_held (cl : Nat) :
    Triple (Held v) (do setCwd cl; scanDir) (fun _ s => Held v s ∧ s.cwd = cl) (Held v) := by
  intro s hs
  have h1 : SameVol v { s with cwd := cl } := ⟨hs.vol.geo, hs.vol.disk, hs.vol.fat⟩
  have h2 := scanDir_held _ h1
  have hk := scanDir_cached { s with cwd := cl }
  exact ⟨fun a ha => ⟨h2.1 a ha, hk.cwd⟩, h2.2⟩

/-- What is found in the cache is found in the directory. -/
theorem Held.child {s : Fs} {name : Name} {i : Nat} (h : Held v s) (hi : s.findFile name = some i)
    (hd : (s.fileAt i).isDir = true) : v.child s.cwd name = some (s.fileAt i).cluster := by
  unfold findFile at hi
  split at hi
  · cases hi
  · obtain ⟨hlt, hname, hfirst⟩ := List.findIdx?_eq_some_iff_getElem.1 hi
    have hat : s.fileAt i = s.files[i] := by
      unfold fileAt
      rw [List.getD_eq_getElem?_getD, List.getElem?_eq_getElem hlt, Option.getD_some]
    have hmap : (s.files.map FileEnt.bare).find? (fun f => decide (f.name = name)) =
        some s.files[i].bare := by
      rw [List.find?_map]
      refine Option.map_eq_some_iff.2 ⟨s.files[i], ?_, rfl⟩
      refine List.find?_eq_some_iff_getElem.2 ⟨hname, i, hlt, rfl, fun j hj => ?_⟩
      change (!decide (s.files[j].name = name)) = true
      simpa using hfirst j hj
    unfold Fs.child
    rw [List.IsPrefix.find?_eq_some h.cache hmap, Option.bind_some, hat]
    rw [hat] at hd
    exact if_pos hd

/-- The working directory is where the names lead. -/
structure Walked (v : Fs) (cs : List Name) (s : Fs) : Prop where
  held : Held v s
  names : ∀ c ∈ cs, NameOk c
  cwd : v.resolve 0 (cs.map some) = some s.cwd

/-- The parent of a directory that is not the root. -/
theorem Walked.parent {cs : List Name} {s : Fs} (ht : v.Tree) (h : Walked v cs s) (h2 : 2 ≤ s.cwd) :
    v.resolve 0 (cs.dropLast.map some) = some (rdU16 (s.disk (s.geo.dataLba s.cwd)) 58) := by
  have hcwd := h.cwd
  rcases List.eq_nil_or_concat cs with rfl | ⟨cs, c, rfl⟩
  · have : (0 : Nat) = s.cwd := Option.some.inj hcwd
    omega
  · rw [List.concat_eq_append, List.map_append, List.map_singleton, resolve_append] at hcwd
    obtain ⟨cl, hcl, hc⟩ := Option.bind_eq_some_iff.1 hcwd
    obtain ⟨f, hf, hd, e⟩ := child_some hc
    have hpar := (ht cl (resolve_directory _ .root hcl) f hf hd).2
    rw [List.concat_eq_append, List.dropLast_concat, hcl, h.held.vol.disk, h.held.vol.geo, ← e, hpar]

theorem Walked.root_of_lt {cs : List Name} {s : Fs} (ht : v.Tree) (h : Walked v cs s)
    (h2 : s.cwd < 2) : cs = [] := by
  have hcwd := h.cwd
  rcases List.eq_nil_or_concat cs with rfl | ⟨cs, c, rfl⟩
  · rfl
  · rw [List.concat_eq_append, List.map_append, List.map_singleton, resolve_append] at hcwd
    obtain ⟨cl, hcl, hc⟩ := Option.bind_eq_some_iff.1 hcwd
    obtain ⟨f, hf, hd, e⟩ := child_some hc
    have := (ht cl (resolve_directory _ .root hcl) f hf hd).1
    omega

/-- `..` in both: the last name goes, and the walk is in the parent. -/
theorem chdirOne_up {cs : List Name} (ht : v.Tree) {c : Name} (h1 : isDot c = false)
    (h2 : isDotDot c = true) :
    Triple (Walked v cs) (chdirOne c) (fun _ => Walked v cs.dropLast) (Held v) := by
  intro s0 hs0
  have hnames : ∀ c ∈ cs.dropLast, NameOk c := fun c hc => hs0.names c (List.dropLast_subset _ hc)
  rcases Nat.lt_or_ge s0.cwd 2 with hlt | hge
  · obtain rfl := hs0.root_of_lt ht hlt
    have hstay : exec (chdirOne c) s0 = (some (), s0) := by
      unfold chdirOne
      rw [exec_bind_of (exec_gets _ _)]
      simp [h1, h2, hlt]
    rw [hstay]
    exact ⟨fun _ _ => hs0, nofun⟩
  · have hstep : exec (chdirOne c) s0 = exec (do
        let b ← bread s0.dirLba
        setCwd (rdU16 b 58)
        scanDir) s0 := by
      unfold chdirOne
      rw [exec_bind_of (exec_gets _ _)]
      simp only [id, h1, h2, if_true, Bool.false_eq_true, if_false]
      rw [if_neg (by omega)]
    rw [hstep]
    have hlba : s0.dirLba = s0.geo.dataLba s0.cwd := if_neg (by omega)
    have hk := (bread_cached s0.dirLba) s0
    have hheld : Held v (exec (bread s0.dirLba) s0).2 := hs0.held.quiet (bread_quiet _ s0)
    rcases hx : exec (bread s0.dirLba) s0 with ⟨_ | b, s1⟩
    · rw [exec_bind, hx]
      rw [hx] at hheld
      exact ⟨nofun, fun _ => hheld⟩
    · rw [exec_bind_of hx]
      have hb : b = s0.disk s0.dirLba := ((bread_disk s0.disk s0.dirLba s0 rfl).1 b (by rw [hx])).1
      rw [hx] at hheld
      obtain ⟨h3, h4⟩ := goto_held (rdU16 b 58) s1 hheld
      refine ⟨fun a ha => ⟨(h3 a ha).1, hnames, ?_⟩, h4⟩
      rw [(h3 a ha).2, hb, hlba]
      exact hs0.parent ht hge

/-- A name in both. -/
theorem chdirOne_down {cs : List Name} {c : Name} (hc : NameOk c) :
    Triple (Walked v cs) (chdirOne c) (fun _ => Walked v (cs ++ [c])) (Held v) := by
  intro s0 hs0
  have hnames : ∀ x ∈ cs ++ [c], NameOk x := fun x hx => by
    rcases List.mem_append.1 hx with hx | hx
    · exact hs0.names x hx
    · exact List.mem_singleton.1 hx ▸ hc
  have hstep : exec (chdirOne c) s0 = exec (do
      let i ← orFailWith (s0.findFile c)
      need (s0.fileAt i).isDir
      setCwd (s0.fileAt i).cluster
      scanDir) s0 := by
    unfold chdirOne
    rw [exec_bind_of (exec_gets _ _)]
    simp only [id, hc.notDot, hc.notDotDot, Bool.false_eq_true, if_false]
  rw [hstep]
  cases hi : s0.findFile c with
  | none => exact ⟨nofun, fun _ => hs0.held⟩
  | some i =>
    rw [exec_bind_of (exec_orFailWith _ _)]
    cases hd : (s0.fileAt i).isDir with
    | false => exact ⟨nofun, fun _ => hs0.held⟩
    | true =>
      obtain ⟨h3, h4⟩ := goto_held (s0.fileAt i).cluster s0 hs0.held
      refine ⟨fun a ha => ⟨(h3 a ha).1, hnames, ?_⟩, h4⟩
      rw [List.map_append, List.map_singleton, resolve_append, hs0.cwd, Option.bind_some,
        hs0.held.child hi hd]
      exact congrArg some (h3 a ha).2.symm

theorem chdirOne_dot {cs : List Name} {c : Name} (h : isDot c = true) :
    Triple (Walked v cs) (chdirOne c) (fun _ => Walked v cs) (Held v) := by
  intro s0 hs0
  have hstay : exec (chdirOne c) s0 = (some (), s0) := by
    unfold chdirOne
    rw [exec_bind_of (exec_gets _ _)]
    simp [h]
  rw [hstay]
  exact ⟨fun _ _ => hs0, nofun⟩

/-- A text that `path_apply` accepts is where the walk ends, when it ends. -/
theorem walkFrom_walked (ht : v.Tree) (xs : List (Option Name))
    (hxs : ∀ c, some c ∈ xs → c ≠ [] ∧ slash ∉ c ∧ c.length < nameMax) :
    ∀ (cs : List Name) (q : Name), (∀ c ∈ cs, NameOk c) → pathApplyFrom (render cs) xs = some q →
    Triple (Walked v cs) (walkFrom xs) (fun _ s => ∃ cs', q = render cs' ∧ Walked v cs' s)
      (Held v) := by
  induction xs with
  | nil =>
    intro cs q _ hq s hs
    exact ⟨fun _ _ => ⟨cs, (Option.some.inj hq).symm, hs⟩, nofun⟩
  | cons x xs ih =>
    intro cs q hcs hq
    have ih := ih fun c hc => hxs c (List.mem_cons_of_mem _ hc)
    cases x with
    | none => cases hq
    | some c =>
      obtain ⟨h1, h2, h3⟩ := hxs c List.mem_cons_self
      simp only [pathApplyFrom] at hq
      split at hq
      · rename_i hdot
        exact .bind (chdirOne_dot hdot) fun _ => ih cs q hcs hq
      · rename_i hdot
        split at hq
        · rename_i hdd
          rw [pathPop_render cs hcs] at hq
          exact .bind (chdirOne_up ht (by simpa using hdot) hdd) fun _ =>
            ih cs.dropLast q (fun c hc => hcs c (List.dropLast_subset _ hc)) hq
        · rename_i hdd
          have hok : NameOk c := ⟨h1, h2, h3, by simpa using hdot, by simpa using hdd⟩
          obtain ⟨r, hr, hq⟩ := Option.bind_eq_some_iff.1 hq
          obtain rfl := pathPush_render hcs hr
          refine .bind (chdirOne_down hok) fun _ => ih (cs ++ [c]) q (fun x hx => ?_) hq
          rcases List.mem_append.1 hx with hx | hx
          · exact hcs x hx
          · exact List.mem_singleton.1 hx ▸ hok

/-! ## fs_chdir -/

theorem chdirOne_held (name : Name) : Stays (Held v) (chdirOne name) := by
  have hgo : ∀ cl, Stays (Held v) (do setCwd cl; scanDir) := fun cl =>
    (goto_held cl).conseq (fun _ h => h) (fun _ _ h => h.1) fun _ h => h
  have hread : ∀ lba, Stays (Held v) (bread lba) := fun lba => (bread_quiet lba).stays fun _ _ hq
    h => h.quiet hq
  exact .read fun s hs => .ite (fun _ => .pure) fun _ => .ite (fun _ => .ite (fun _ => .pure) fun _ =>
    (hread _).bind fun b => hgo _) fun _ => Stays.orFailWith.bind fun i => Stays.need.bind fun _ => hgo _

theorem toRoot_held : Stays (Held v) toRoot :=
  .read fun _ _ => .ite (fun _ => (goto_held 0).conseq (fun _ h => h) (fun _ _ h => h.1) fun _ h =>
    h) fun _ => .pure

theorem walkFrom_held (xs : List (Option Name)) : Stays (Held v) (walkFrom xs) := by
  induction xs with
  | nil => exact .pure
  | cons x xs ih =>
    cases x with
    | none => exact .failed
    | some c => exact (chdirOne_held c).bind fun _ => ih

theorem walkAll_held (path : Name) : Stays (Held v) (walkAll path) :=
  .ite (fun _ => toRoot_held.bind fun _ => walkFrom_held _) fun _ => walkFrom_held _

theorem setPath_held (p : Fs → Name) : Stays (Held v) (upd fun s => { s with path := p s }) :=
  .upd fun _ h => ⟨⟨h.vol.geo, h.vol.disk, h.vol.fat⟩, h.cache⟩

theorem fsChdir_held (path : Name) : Stays (Held v) (fsChdir path) := by
  have hundo : ∀ p : Name, Stays (Held v) (do upd fun s => { s with path := p }; failed : FsM
      Unit) := fun p =>
    (setPath_held _).bind fun _ => .failed
  refine Stays.need.bind fun _ => .read fun s _ => Stays.orFailWith.bind fun p =>
    (setPath_held _).bind fun _ =>
    (walkAll_held path).attempt.bind fun ok => .ite (fun _ => .read fun s' _ => .ite (fun _ => ?_)
      fun _ => hundo _)
    fun _ => .pure
  exact Triple.bind (R := fun _ => SameVol v) (.change fun _ h => ⟨h.vol.geo, h.vol.disk, h.vol.fat⟩) fun _ =>
    Triple.bind (R := fun _ => Held v) (.attempt scanDir_held) fun _ => hundo _

/-- The text names the working directory. -/
def Agreed (v s : Fs) : Prop := ∃ cs, s.path = render cs ∧ PathOk s.path ∧ Walked v cs s

theorem toRoot_walked (ht : v.Tree) {cs : List Name} :
    Triple (Walked v cs) toRoot (fun _ => Walked v []) (Held v) := by
  refine .read fun s hs => ?_
  simp only [id]
  split
  · exact (goto_held 0).conseq (fun _ h => h.held)
      (fun _ s h => ⟨h.1, nofun, congrArg some h.2.symm⟩) fun _ h => h
  · rename_i hlt
    obtain rfl := hs.root_of_lt ht (by omega)
    exact Triple.pure.conseq (fun _ h => h) (fun _ _ h => h) fun _ h => h

theorem walkAll_walked (ht : v.Tree) {cs : List Name} {path q : Name} (hcs : ∀ c ∈ cs, NameOk c)
    (hq : pathApply (render cs) path = some q) :
    Triple (Walked v cs) (walkAll path) (fun _ s => ∃ cs', q = render cs' ∧ Walked v cs' s) (Held v) := by
  unfold pathApply at hq
  unfold walkAll
  split at hq
  · rename_i habs
    rw [if_pos habs]
    exact (toRoot_walked ht).bind fun _ => walkFrom_walked ht _ (fun c hc => components_ok hc) [] q nofun hq
  · rename_i habs
    rw [if_neg habs]
    exact walkFrom_walked ht _ (fun c hc => components_ok hc) cs q hcs hq

/-- One call, whatever it does. -/
theorem fsChdir_agreed {s : Fs} (ht : v.Tree) (h : Agreed v s) (path : Name) :
    Agreed v (exec (fsChdir path) s).2 := by
  obtain ⟨cs, hpath, hok, hw⟩ := h
  rcases fsChdir_cases path s with ⟨-, hcwd, hp⟩ | ⟨q, -, hq, hrun, e⟩
  · rw [Agreed, hp]
    refine ⟨cs, hpath, hok, (fsChdir_held path).exec hw.held, hw.names, ?_⟩
    rw [hcwd]
    exact hw.cwd
  · have hstart : Walked v cs { s with path := q } :=
      ⟨⟨⟨hw.held.vol.geo, hw.held.vol.disk, hw.held.vol.fat⟩, hw.held.cache⟩, hw.names, hw.cwd⟩
    have hsame := (walkAll_within path { s with path := q }).path
    rw [hpath] at hq
    obtain ⟨cs', hcs', hw'⟩ := (walkAll_walked ht hw.names hq _ hstart).1 () hrun
    rw [e]
    refine ⟨cs', hsame.trans hcs', ?_, hw'⟩
    rw [hsame]
    exact pathApply_ok (hpath ▸ hok) hq

/-- Mounting leaves the root as the working directory. -/
theorem fsInit_agreed {s0 s : Fs} (h : exec fsInit s0 = (some (), s)) : Agreed s s := by
  have hkeep : ∀ {α : Type} {m : FsM α}, Keeps Cached m →
      Triple (At 0 [slash]) m (fun _ => At 0 [slash]) fun _ => True :=
    fun hm s hs => ⟨fun _ _ => ⟨(hm s).cwd.trans hs.1, (hm s).path.trans hs.2⟩, fun _ => trivial⟩
  have hscan : Triple (At 0 [slash]) scanDir (fun _ s => At 0 [slash] s ∧ Held s s) fun _ => True := by
    intro s hs
    have hk := scanDir_cached s
    refine ⟨fun _ _ => ⟨⟨hk.cwd.trans hs.1, hk.path.trans hs.2⟩, Std.Refl.refl _, ?_⟩, fun _ => trivial⟩
    rw [hk.cwd, hk.sameVol.listing]
    exact (scanDir_lists s).1
  have hmount : Triple (fun _ => True) fsInit (fun _ s => At 0 [slash] s ∧ Held s s) fun _ => True :=
    .bind (R := fun _ => At 0 [slash]) (.change fun _ _ => ⟨rfl, rfl⟩) fun _ => .bind
      (hkeep pageBuf_cached) fun _ =>
    .bind (hkeep pageBuf_cached) fun _ => .bind (R := fun _ => At 0 [slash]) (.change fun _ h => h) fun _ =>
    .bind (hkeep (bread_cached 0)) fun _ => .bind (hkeep .orFailWith) fun _ =>
    .bind (R := fun _ => At 0 [slash]) (.change fun _ h => h) fun _ =>
    .bind (.bind (hkeep (fetch_cached _ _)) fun _ => .change fun _ h => h) fun _ => .bind hscan fun _ =>
    .read fun s hs => Triple.need.conseq (fun s h => by split; exacts [h, trivial]) (fun _ _ h => h)
      fun _ h => h
  obtain ⟨⟨hcwd, hpath⟩, hheld⟩ := (hmount s0 trivial).1 () (by rw [h])
  rw [h] at hcwd hpath hheld
  refine ⟨[], hpath, ?_, hheld, nofun, congrArg some hcwd.symm⟩
  rw [hpath]
  exact ⟨by simp, by decide⟩

/-- An absolute path without `.`, `..`, empty or over-long components, that fits its buffer. -/
def Normal (p : Name) : Prop := p.length < pathMax ∧ ∃ cs, (∀ c ∈ cs, NameOk c) ∧ p = render cs

/-- The state after a sequence of `fs_chdir` calls. -/
def afterChdirs (s : Fs) (cs : List (Name × Offer)) : Fs := s.after (cs.map fun c => (.chdir c.1, c.2))

theorem Agreed.supplied {s : Fs} (h : Agreed v s) (o : Offer) : Agreed v (s.supplied o) := by
  obtain ⟨cs, hpath, hok, hw⟩ := h
  exact ⟨cs, hpath, hok, ⟨⟨hw.held.vol.geo, hw.held.vol.disk, hw.held.vol.fat⟩, hw.held.cache⟩,
    hw.names, hw.cwd⟩

theorem Agreed.afterChdirs {s : Fs} (ht : v.Tree) (h : Agreed v s) (cs : List (Name × Offer)) :
    Agreed v (s.afterChdirs cs) := by
  induction cs generalizing s with
  | nil => exact h
  | cons c cs ih => exact ih (fsChdir_agreed ht (h.supplied c.2) c.1)

/-- **The path names the working directory**, whatever sequence of `fs_chdir` calls there was, and a
call that fails leaves both alone. -/
theorem path_agrees {s0 v : Fs} (hmount : exec fsInit s0 = (some (), v)) (ht : v.Tree)
    (cs : List (Name × Offer)) :
    let s := v.afterChdirs cs
    Normal s.path ∧ s.resolve 0 (components s.path) = some s.cwd ∧
      ∀ path o, (exec (fsChdir path) (s.supplied o)).1 = none →
        (exec (fsChdir path) (s.supplied o)).2.cwd = s.cwd ∧
        (exec (fsChdir path) (s.supplied o)).2.path = s.path := by
  obtain ⟨ns, hpath, hok, hw⟩ := (fsInit_agreed hmount).afterChdirs ht cs
  refine ⟨⟨hok.2, ns, hw.names, hpath⟩, ?_, fun path o hfail => ?_⟩
  · rw [hpath, components_render hw.names, hw.held.vol.resolve]
    exact hw.cwd
  · rcases fsChdir_cases path ((v.afterChdirs cs).supplied o) with ⟨-, h⟩ | ⟨q, -, -, -, e⟩
    · exact h
    · rw [e] at hfail
      cases hfail

/-- A volume with one directory `A`, at cluster 2. -/
def oneDirectory : Fs :=
  let disk lba :=
    if lba = 0 then bootSector 1 2 16 1 6
    else if lba = 3 then ofList ([65] ++ List.replicate 10 0x20 ++ [0x10] ++ List.replicate 14 0 ++
      leBytes 2 2)
    else if lba = 4 then dotSector 2 0
    else fun _ => 0
  { bootVolume 2 with disk := disk }

theorem oneDirectory_tree : (exec fsInit oneDirectory).2.Tree := by
  have hroot : ∀ f ∈ (exec fsInit oneDirectory).2.listing 0, f.cluster = 2 := by decide +kernel
  have hsub : ((exec fsInit oneDirectory).2.listing 2).length = 0 := by decide +kernel
  have hword : rdU16
      ((exec fsInit oneDirectory).2.disk ((exec fsInit oneDirectory).2.geo.dataLba 2)) 58 = 0 := by
    decide +kernel
  have hdirs : ∀ cl, Directory (exec fsInit oneDirectory).2 cl → cl = 0 ∨ cl = 2 := by
    intro cl h
    induction h with
    | root => exact .inl rfl
    | sub hd hf hdir ih =>
      rcases ih with rfl | rfl
      · exact .inr (hroot _ hf)
      · rw [List.length_eq_zero_iff.1 hsub] at hf
        cases hf
  intro cl hcl f hf hdir
  rcases hdirs cl hcl with rfl | rfl
  · rw [hroot f hf]
    exact ⟨Nat.le_refl 2, hword⟩
  · rw [List.length_eq_zero_iff.1 hsub] at hf
    cases hf

theorem path_agrees_inside :
    let v := (exec fsInit oneDirectory).2
    let s := v.afterChdirs [([97], ⟨100, []⟩)]
    Normal s.path ∧ s.resolve 0 (components s.path) = some s.cwd ∧
      ∀ path o, (exec (fsChdir path) (s.supplied o)).1 = none →
        (exec (fsChdir path) (s.supplied o)).2.cwd = s.cwd ∧
        (exec (fsChdir path) (s.supplied o)).2.path = s.path :=
  path_agrees (show exec fsInit oneDirectory = _ from Prod.ext (by decide +kernel) rfl)
    oneDirectory_tree [([97], ⟨100, []⟩)]

/-- The walk there is not a walk that stays. -/
example : ((exec fsInit oneDirectory).2.afterChdirs [([97], ⟨100, []⟩)]).cwd = 2 := by decide +kernel

end VampireOS.Fs
