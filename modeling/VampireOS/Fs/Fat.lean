import VampireOS.Fs.Init
import VampireOS.Fs.Exec

/-!
# The FAT image, and what is left when it is full (kernel/fs.c:403-440, 941-975)

An entry is one and a half bytes; setting it changes no other (`fat12Ent_set`). `fat_resize` takes
clusters one at a time and gives none back when it fails.
-/

namespace VampireOS.Fs

open Lib

/-- The two bytes of an entry as numbers. -/
theorem fat12Ent_eq {g : Geo} {fat : Bytes} {cl : Nat} (h : cl + cl / 2 + 1 < fatBytes g) :
    fat12Ent g fat cl = if cl % 2 = 1 then (fat (cl + cl / 2)).toNat / 16 + (fat (cl + cl / 2 + 1)).toNat * 16
      else (fat (cl + cl / 2)).toNat + (fat (cl + cl / 2 + 1)).toNat % 16 * 256 := by
  have hlo := (fat (cl + cl / 2)).toNat_lt
  have hhi := (fat (cl + cl / 2 + 1)).toNat_lt
  unfold fat12Ent
  simp only
  rw [if_neg (by omega), Nat.or_comm, ← Nat.shiftLeft_add_eq_or_of_lt hlo, Nat.shiftLeft_eq]
  split
  · rw [Nat.shiftRight_eq_div_pow]
    omega
  · rw [show (0xFFF : Nat) = 2 ^ 12 - 1 from rfl, Nat.and_two_pow_sub_one_eq_mod]
    omega

theorem fat12Ent_outside {g : Geo} {fat : Bytes} {cl : Nat} (h : fatBytes g ≤ cl + cl / 2 + 1) :
    fat12Ent g fat cl = fat12Eof :=
  if_pos h

theorem fat12Set_outside {g : Geo} {fat : Bytes} {cl v : Nat} (h : fatBytes g ≤ cl + cl / 2 + 1) :
    fat12Set g fat cl v = fat :=
  if_pos h

theorem byte_low (x v : Nat) (hv : v < 16) :
    (UInt8.ofNat ((x &&& 0x0F) ||| v <<< 4)).toNat = x % 16 + 16 * v := by
  rw [show (0x0F : Nat) = 2 ^ 4 - 1 from rfl, Nat.and_two_pow_sub_one_eq_mod, Nat.or_comm,
    ← Nat.shiftLeft_add_eq_or_of_lt (Nat.mod_lt _ (by decide)), Nat.shiftLeft_eq, UInt8.toNat_ofNat']
  omega

theorem byte_high (x v : Nat) (hx : x < 256) (hv : v < 16) :
    (UInt8.ofNat ((x &&& 0xF0) ||| v)).toNat = x / 16 * 16 + v := by
  have hand : x &&& 0xF0 = (x / 16) <<< 4 := by
    rw [Nat.shiftLeft_eq]
    revert hx
    revert x
    decide +kernel
  rw [hand, ← Nat.shiftLeft_add_eq_or_of_lt hv, Nat.shiftLeft_eq, UInt8.toNat_ofNat']
  omega

/-- The bytes of the entry that is set, inside the image. -/
theorem fat12Set_bytes {g : Geo} {cl : Nat} (fat : Bytes) (v : Nat)
    (h : cl + cl / 2 + 1 < fatBytes g) :
    (∀ i, i ≠ cl + cl / 2 → i ≠ cl + cl / 2 + 1 → fat12Set g fat cl v i = fat i) ∧
    (cl % 2 = 1 → (fat12Set g fat cl v (cl + cl / 2)).toNat = (fat (cl + cl / 2)).toNat % 16 + 16 * (v % 16) ∧
      (fat12Set g fat cl v (cl + cl / 2 + 1)).toNat = v % 4096 / 16) ∧
    (cl % 2 ≠ 1 → (fat12Set g fat cl v (cl + cl / 2)).toNat = v % 256 ∧
      (fat12Set g fat cl v (cl + cl / 2 + 1)).toNat = (fat (cl + cl / 2 + 1)).toNat / 16 * 16 +
      v % 4096 / 256) := by
  have hhi := (fat (cl + cl / 2 + 1)).toNat_lt
  have hmod : v &&& 0xFFF = v % 4096 := Nat.and_two_pow_sub_one_eq_mod v 12
  have hmod4 : ∀ x, x &&& 0x0F = x % 16 := fun x => Nat.and_two_pow_sub_one_eq_mod x 4
  unfold fat12Set
  rw [if_neg (by omega), hmod]
  refine ⟨fun i h1 h2 => ?_, fun hodd => ?_, fun heven => ?_⟩
  · split
    · rw [Function.update_of_ne h2, Function.update_of_ne h1]
    · rw [Function.update_of_ne h2, Function.update_of_ne h1]
  · rw [if_pos hodd, Function.update_of_ne (by omega), Function.update_self, Function.update_self,
      hmod4 (v % 4096), byte_low _ _ (by omega), Nat.shiftRight_eq_div_pow, UInt8.toNat_ofNat']
    omega
  · rw [if_neg heven, Function.update_of_ne (by omega), Function.update_self, Function.update_self,
      Nat.shiftRight_eq_div_pow, byte_high _ _ hhi (by omega), UInt8.toNat_ofNat']
    omega

/-- What is set is read back, and every other entry is as before. -/
theorem fat12Ent_set (g : Geo) (fat : Bytes) (cl v c : Nat) : fat12Ent g (fat12Set g fat cl v) c =
    if c = cl ∧ cl + cl / 2 + 1 < fatBytes g then v % 4096 else fat12Ent g fat c := by
  rcases Nat.lt_or_ge (cl + cl / 2 + 1) (fatBytes g) with h | h
  · rcases Nat.lt_or_ge (c + c / 2 + 1) (fatBytes g) with hc | hc
    · obtain ⟨hout, hodd, heven⟩ := fat12Set_bytes fat v h
      have hlo := (fat (cl + cl / 2)).toNat_lt
      have hhi := (fat (cl + cl / 2 + 1)).toNat_lt
      by_cases e : c = cl
      · subst e
        rw [if_pos ⟨rfl, h⟩, fat12Ent_eq h]
        split
        · rename_i hp
          obtain ⟨e1, e2⟩ := hodd hp
          rw [e1, e2]
          omega
        · rename_i hp
          obtain ⟨e1, e2⟩ := heven hp
          rw [e1, e2]
          omega
      · rw [if_neg (fun hx => e hx.1), fat12Ent_eq hc, fat12Ent_eq hc]
        -- only the other entry of a pair shares a byte with `cl`
        rcases Nat.lt_or_ge (c / 2) (cl / 2) with h1 | h1
        · rw [hout _ (by omega) (by omega), hout _ (by omega) (by omega)]
        rcases Nat.lt_or_ge (cl / 2) (c / 2) with h2 | h2
        · rw [hout _ (by omega) (by omega), hout _ (by omega) (by omega)]
        by_cases hp : cl % 2 = 1
        · have e3 : cl + cl / 2 = c + c / 2 + 1 := by omega
          obtain ⟨e1, -⟩ := hodd hp
          rw [e3] at e1
          rw [if_neg (by omega), if_neg (by omega), hout (c + c / 2) (by omega) (by omega), e1]
          omega
        · have e3 : cl + cl / 2 + 1 = c + c / 2 := by omega
          obtain ⟨-, e2⟩ := heven hp
          rw [e3] at e2
          rw [if_pos (by omega), if_pos (by omega), hout (c + c / 2 + 1) (by omega) (by omega), e2]
          omega
    · rw [fat12Ent_outside hc, fat12Ent_outside hc, if_neg (fun hx => by rw [hx.1] at hc; omega)]
  · rw [fat12Set_outside h, if_neg (fun hx => by omega)]

/-! ## Running out of clusters -/

/-- No cluster is free. -/
def Full (s : Fs) : Prop := ∀ cl, 2 ≤ cl → cl ≤ s.geo.clusters + 1 → s.fatEnt cl ≠ 0

theorem fatFind_some {s : Fs} {cl : Nat} (h : s.fatFind = some cl) :
    2 ≤ cl ∧ cl ≤ s.geo.clusters + 1 ∧ s.fatEnt cl = 0 := by
  unfold fatFind at h
  obtain ⟨hp, hm⟩ := And.intro (List.find?_some h) (List.mem_of_find?_eq_some h)
  obtain ⟨i, hi, rfl⟩ := List.mem_map.1 hm
  have := List.mem_range.1 hi
  exact ⟨by omega, by omega, of_decide_eq_true hp⟩

theorem fatFind_none {s : Fs} : s.fatFind = none ↔ Full s := by
  unfold fatFind
  rw [List.find?_eq_none]
  constructor
  · intro h cl h2 hcl
    simpa using h cl (List.mem_map.2 ⟨s.geo.clusters + 1 - cl, List.mem_range.2 (by omega), by omega⟩)
  · intro h cl hm
    obtain ⟨i, hi, rfl⟩ := List.mem_map.1 hm
    have := List.mem_range.1 hi
    simpa using h _ (by omega) (by omega)

theorem exec_fatAlloc_full {s : Fs} (h : Full s) : exec fatAlloc s = (none, s) := by
  unfold fatAlloc
  rw [exec_bind_of (exec_gets _ _), fatFind_none.2 h]
  rfl

theorem exec_fatAlloc {s : Fs} {cl : Nat} (h : s.fatFind = some cl) :
    exec fatAlloc s = (some cl, { s with fat := fat12Set s.geo s.fat cl fat12Eof }) := by
  unfold fatAlloc
  rw [exec_bind_of (exec_gets _ _), h]
  rfl

/-- The entry of `cl` is not 0. -/
def InUse (g : Geo) (cl : Nat) (s : Fs) : Prop := s.geo = g ∧ s.fatEnt cl ≠ 0

variable {g : Geo} {cl : Nat}

theorem fatSet_inUse {c v : Nat} (hv : v % 4096 ≠ 0) : Stays (InUse g cl) (fatSet c v) := .upd fun s hs => by
  refine ⟨hs.1, ?_⟩
  change fat12Ent s.geo (fat12Set s.geo s.fat c v) cl ≠ 0
  rw [fat12Ent_set]
  split
  · exact hv
  · exact hs.2

/-- Growing a chain frees nothing. -/
theorem fatExtend_inUse (hg : g.clusters ≤ fat12Max) (n : Nat) :
    ∀ cls, Stays (InUse g cl) (fatExtend n cls) := by
  induction n with
  | zero => exact fun _ => .pure
  | succ n ih =>
    intro cls
    unfold fatExtend
    refine Triple.bind (R := fun c s => InUse g cl s ∧ ∀ x, c = some x → x % 4096 ≠ 0)
      (.result fun s hs => ?_) fun c => ?_
    · cases hf : s.fatFind with
      | none =>
        rw [exec_fatAlloc_full (fatFind_none.1 hf)]
        exact ⟨nofun, fun _ => ⟨hs, nofun⟩⟩
      | some x =>
        have hx := fatFind_some hf
        rw [exec_fatAlloc hf]
        refine ⟨fun a ha => ?_, nofun⟩
        obtain rfl := Option.some.inj ha
        refine ⟨((fatSet_inUse (c := x) (v := fat12Eof) (by decide)).exec hs), fun y hy => ?_⟩
        obtain rfl := Option.some.inj hy
        rw [hs.1] at hx
        unfold fat12Max at hg
        omega
    · cases c with
      | none => exact Triple.pure.conseq (fun _ hs => hs.1) (fun _ _ h => h) fun _ h => h
      | some x =>
        intro s hs
        have hx := hs.2 x rfl
        dsimp only
        cases cls.getLast? with
        | none => exact ih _ s hs.1
        | some prev => exact (Stays.bind (fatSet_inUse hx) fun _ => ih _) s hs.1

theorem exec_fatExtend_full {s : Fs} (h : Full s) (n : Nat) (cls : List Nat) :
    exec (fatExtend n cls) s = (some (cls, decide (n = 0)), s) := by
  cases n with
  | zero => rfl
  | succ n =>
    unfold fatExtend
    rw [exec_bind_of (exec_result _ _), exec_fatAlloc_full h]
    rfl

/-- The first cluster that was free is in use when growing ends. -/
theorem exec_fatExtend_taken {s : Fs} (hg : s.geo.clusters ≤ fat12Max) {x : Nat}
    (hx : s.fatFind = some x) (n : Nat) (cls : List Nat) :
    (exec (fatExtend (n + 1) cls) s).2.fat ≠ s.fat := by
  have hfree := fatFind_some hx
  have hin : x + x / 2 + 1 < fatBytes s.geo := by
    by_contra hout
    have := hfree.2.2
    unfold fatEnt at this
    rw [fat12Ent_outside (by omega)] at this
    cases this
  have htaken : InUse s.geo x { s with fat := fat12Set s.geo s.fat x fat12Eof } := by
    refine ⟨rfl, ?_⟩
    change fat12Ent s.geo (fat12Set s.geo s.fat x fat12Eof) x ≠ 0
    rw [fat12Ent_set, if_pos ⟨rfl, hin⟩]
    decide
  have hend : InUse s.geo x (exec (fatExtend (n + 1) cls) s).2 := by
    unfold fatExtend
    rw [exec_bind_of (exec_result _ _), exec_fatAlloc hx]
    dsimp only
    cases cls.getLast? with
    | none => exact (fatExtend_inUse hg n _).exec htaken
    | some prev =>
      have hx0 : x % 4096 ≠ 0 := by
        unfold fat12Max at hg
        omega
      exact (Stays.bind (fatSet_inUse hx0) fun _ => fatExtend_inUse hg n _).exec htaken
  intro he
  refine hend.2 ?_
  unfold fatEnt
  rw [hend.1, he]
  exact hfree.2.2

/-! ## A call that runs out -/

/-- Only the FAT image differs. -/
def FatOnly (s s' : Fs) : Prop := s' = { s with fat := s'.fat }

instance : Std.Refl FatOnly := ⟨fun _ => rfl⟩

instance : IsTrans Fs FatOnly := ⟨fun s s' s'' h h' => by
  unfold FatOnly at *
  rw [h', h]⟩

theorem fatSet_fatOnly (cl val : Nat) : Keeps FatOnly (fatSet cl val) := .upd fun _ => rfl

theorem fatAlloc_fatOnly : Keeps FatOnly fatAlloc :=
  .bind .gets fun _ => .bind .orFailWith fun _ => (fatSet_fatOnly _ _).bind fun _ => .pure

theorem fatExtend_fatOnly (n : Nat) : ∀ cls : List Nat, Keeps FatOnly (fatExtend n cls) := by
  induction n with
  | zero => exact fun _ => .pure
  | succ n ih =>
    intro cls
    refine fatAlloc_fatOnly.result.bind fun cl => ?_
    cases cl with
    | none => exact .pure
    | some cl =>
      dsimp only
      cases cls.getLast? with
      | none => exact ih _
      | some prev => exact (fatSet_fatOnly _ _).bind fun _ => ih _

theorem exec_fatClear (cls : List Nat) (s : Fs) : ∃ s', exec (fatClear cls) s = (some (), s') := by
  induction cls generalizing s with
  | nil => exact ⟨s, rfl⟩
  | cons cl cls ih => exact ih _

/-- `fat_resize` to `count` clusters failed: `fat_alloc` found none. -/
theorem fatResize_fails {s s' : Fs} {start count cl : Nat} (hg : s.geo.clusters ≤ fat12Max)
    (hcount : count ≠ 0 ∧ count ≤ chainMax)
    (h : exec (fatResize start count) s = (some (cl, false), s')) :
    FatOnly s s' ∧ (Full s → cl = start ∧ s' = s) ∧ (¬ Full s → s'.fat ≠ s.fat) := by
  unfold fatResize at h
  rw [if_neg (by omega), exec_bind_of (exec_gets _ _)] at h
  simp only [id] at h
  set old := chain s.geo s.fat chainMax start with hold
  have honly := fatExtend_fatOnly (count - old.length) old s
  rcases hx : exec (fatExtend (count - old.length) old) s with ⟨_ | ⟨cls, ok⟩, s2⟩
  · rw [exec_bind, hx] at h
    cases h
  · rw [exec_bind_of hx] at h
    cases ok with
    | true =>
      obtain ⟨s3, h3⟩ := exec_fatClear (cls.drop count).reverse s2
      simp only [if_true] at h
      rw [exec_bind_of h3] at h
      cases h
    | false =>
      obtain ⟨rfl, rfl⟩ : (if old = [] then cls.getD 0 start else start) = cl ∧ s2 = s' := by
        simpa using h
      rw [hx] at honly
      refine ⟨honly, fun hfull => ?_, fun hfull => ?_⟩
      · rw [exec_fatExtend_full hfull] at hx
        obtain ⟨⟨rfl, -⟩, rfl⟩ : (old = cls ∧ _) ∧ s = s2 := by simpa using hx
        refine ⟨?_, rfl⟩
        split
        · rename_i he
          rw [he]
          rfl
        · rfl
      · rcases hf : s.fatFind with _ | x
        · exact absurd (fatFind_none.1 hf) hfull
        · cases hn : count - old.length with
          | zero =>
            rw [hn] at hx
            cases hx
          | succ n =>
            have := exec_fatExtend_taken hg hf n old
            rw [← hn, hx] at this
            exact this

/-- What is on the volume is the same. -/
structure SameVol (s s' : Fs) : Prop where
  geo : s'.geo = s.geo
  disk : s'.disk = s.disk
  fat : s'.fat = s.fat

instance : Std.Refl SameVol := ⟨fun _ => ⟨rfl, rfl, rfl⟩⟩

instance : IsTrans Fs SameVol :=
  ⟨fun _ _ _ h h' => ⟨h'.geo.trans h.geo, h'.disk.trans h.disk, h'.fat.trans h.fat⟩⟩

theorem Cached.sameVol {s s' : Fs} (h : Cached s s') : SameVol s s' := ⟨h.geo, h.disk, h.fat⟩

theorem scanDir_sameVol : Keeps SameVol scanDir := scanDir_cached.mono fun _ _ => Cached.sameVol

theorem setCwd_sameVol (cl : Nat) : Keeps SameVol (setCwd cl) := .upd fun _ => ⟨rfl, rfl, rfl⟩

theorem chdirOne_sameVol (name : Name) : Keeps SameVol (chdirOne name) := by
  have hgo : ∀ cl, Keeps SameVol (setCwd cl >>= fun _ => scanDir) :=
    fun cl => (setCwd_sameVol cl).bind fun _ => scanDir_sameVol
  exact .bind .gets fun s => .ite (fun _ => .pure) fun _ => .ite (fun _ => .ite (fun _ => .pure) fun _ =>
    .bind ((bread_cached _).mono fun _ _ => Cached.sameVol) fun b => hgo _) fun _ => .bind
      .orFailWith fun i =>
    .bind .need fun _ => hgo _

theorem toRoot_sameVol : Keeps SameVol toRoot :=
  .bind .gets fun _ => .ite (fun _ => (setCwd_sameVol 0).bind fun _ => scanDir_sameVol) fun _ => .pure

theorem enterFrom_sameVol (cs : List (Option Name)) : Keeps SameVol (enterFrom cs) := by
  induction cs with
  | nil => exact .failed
  | cons c cs ih =>
    rcases c with _ | c
    · exact .failed
    · rcases cs with _ | ⟨_ | c', cs⟩
      · exact .pure
      · exact .failed
      · exact (chdirOne_sameVol c).bind fun _ => ih

theorem leaveParent_sameVol : Keeps SameVol leaveParent :=
  .bind .gets fun _ => .ite (fun _ => (setCwd_sameVol _).bind fun _ => scanDir_sameVol) fun _ => .pure

theorem enterParent_sameVol (path : Name) : Keeps SameVol (enterParent path) := by
  refine .bind (.upd fun _ => ⟨rfl, rfl, rfl⟩) fun _ => .bind .need fun _ => .bind (Keeps.result ?_)
    fun leaf => ?_
  · exact .ite (fun _ => toRoot_sameVol.bind fun _ => enterFrom_sameVol _) fun _ => enterFrom_sameVol _
  · cases leaf with
    | some leaf => exact .pure
    | none => exact leaveParent_sameVol.attempt.bind fun _ => .failed

/-- The way back of a body that failed. -/
theorem exec_thenLeave_none {α : Type} {body : FsM α} {s s' : Fs} (h : exec body s = (none, s')) :
    (exec (thenLeave body) s).1 = none ∧ (exec (thenLeave body) s).2 = (exec leaveParent s').2 := by
  unfold thenLeave
  rw [exec_bind_of (exec_result _ _), h]
  rw [exec_bind]
  cases hx : (exec leaveParent s').1 with
  | none => exact ⟨rfl, rfl⟩
  | some _ => exact ⟨rfl, rfl⟩

theorem exec_leaveParent_same {s : Fs} (h : s.cwd = s.savedCwd) : exec leaveParent s = (some (), s) := by
  unfold leaveParent
  rw [exec_bind_of (exec_gets _ _)]
  simp only [id]
  rw [if_neg (not_not.2 h)]
  rfl

/-- `fat_alloc` finds no cluster when the file at `i` is to have `len` bytes. -/
def RunsOut (s : Fs) (i len : Nat) : Prop :=
  ∃ cl, (exec (fatResize (s.fileAt i).cluster (needFor len)) s).1 = some (cl, false)

/-- FAT and disk as before the call, and the cached entry as the call found it. -/
structure Untouched (s found s' : Fs) (i : Nat) : Prop where
  fat : s'.fat = s.fat
  disk : s'.disk = s.disk
  cached : found.cwd = s.cwd → (s'.fileAt i).cluster = (found.fileAt i).cluster ∧
    (s'.fileAt i).len = (found.fileAt i).len

theorem fileAt_modify_cluster (s : Fs) (i : Nat) :
    ({ s with files := s.files.modify i fun f => { f with cluster := (s.fileAt i).cluster } } :
      Fs).fileAt i = s.fileAt i := by
  unfold fileAt
  simp only [List.getD_eq_getElem?_getD, List.getElem?_modify, if_true]
  cases s.files[i]? <;> rfl

/-- The body of the call stops where `fat_resize` failed. -/
def StopsShort (s : Fs) (i len : Nat) (body : FsM Unit) : Prop :=
  ∀ s' cl, exec (fatResize (s.fileAt i).cluster (needFor len)) s = (some (cl, false), s') →
    exec body s = (none, { s' with files := s'.files.modify i fun f => { f with cluster := cl } })

theorem thenLeave_runs_out {s s1 : Fs} {i len : Nat} {body : FsM Unit}
    (hg : s.geo.clusters ≤ fat12Max) (hvol : SameVol s s1) (hsaved : s1.savedCwd = s.cwd)
    (hlen : 0 < len ∧ len ≤ fileMax) (hout : RunsOut s1 i len) (hbody : StopsShort s1 i len body) :
    (exec (thenLeave body) s1).1 = none ∧ (Untouched s s1 (exec (thenLeave body) s1).2 i ↔
    Full s) := by
  obtain ⟨cl, hcl⟩ := hout
  rcases hx : exec (fatResize (s1.fileAt i).cluster (needFor len)) s1 with ⟨r, s2⟩
  rw [hx] at hcl
  obtain rfl : r = some (cl, false) := hcl
  have hcount : needFor len ≠ 0 ∧ needFor len ≤ chainMax := by
    unfold needFor secSize chainMax
    unfold fileMax at hlen
    omega
  obtain ⟨honly, hfull, htaken⟩ := fatResize_fails (hvol.geo ▸ hg) hcount hx
  obtain ⟨h1, h2⟩ := exec_thenLeave_none (hbody s2 cl hx)
  rw [h2]
  set s3 : Fs := { s2 with files := s2.files.modify i fun f => { f with cluster := cl } } with hs3
  have hleave := leaveParent_sameVol s3
  have hfullEq : Full s1 ↔ Full s := by
    unfold Full fatEnt
    rw [hvol.geo, hvol.fat]
  refine ⟨h1, fun h => ?_, fun h => ?_⟩
  · by_contra hn
    exact htaken (fun hf => hn (hfullEq.1 hf)) (hleave.fat.symm.trans (h.fat.trans hvol.fat.symm))
  · obtain ⟨rfl, rfl⟩ := hfull (hfullEq.2 h)
    refine ⟨hleave.fat.trans hvol.fat, hleave.disk.trans hvol.disk, fun hc => ?_⟩
    have hback : exec leaveParent s3 = (some (), s3) := exec_leaveParent_same (hc.trans hsaved.symm)
    rw [hback, hs3, fileAt_modify_cluster]
    exact ⟨rfl, rfl⟩

theorem writeFile_short {s : Fs} {i len : Nat} (hlen : 0 < len ∧ len ≤ fileMax) (src : Bytes) :
    StopsShort s i len (writeFile i src len) := by
  intro s' cl hx
  unfold writeFile
  rw [if_neg (by omega), exec_bind_of (show exec (need _) s = (some (), s) by simp [hlen.2]),
    exec_bind_of (exec_gets _ _)]
  simp only [id]
  rw [exec_bind_of hx]
  rfl

theorem truncateTo_short {s : Fs} {i len : Nat} : StopsShort s i len (truncateTo i len) := by
  intro s' cl hx
  unfold truncateTo
  rw [exec_bind_of (exec_gets _ _)]
  simp only [id]
  rw [exec_bind_of hx]
  rfl

/-- **A write or a truncation that runs out of clusters leaves everything as it was** exactly when
there was no free cluster to begin with. -/
theorem runs_out_untouched {s found : Fs} {path leaf : Name} {i len : Nat}
    (hg : s.geo.clusters ≤ fat12Max) (henter : exec (enterParent path) s = (some leaf, found))
    (hi : found.findFile leaf = some i) (hfile : (found.fileAt i).isDir = false)
    (hlen : 0 < len ∧ len ≤ fileMax) (hout : RunsOut found i len) :
    (∀ src, (exec (fsWrite path src len) s).1 = none ∧
    (Untouched s found (exec (fsWrite path src len) s).2 i ↔ Full s)) ∧
    ((found.fileAt i).data.isSome → len ≠ (found.fileAt i).len →
      (exec (fsTruncate path len) s).1 = none ∧
      (Untouched s found (exec (fsTruncate path len) s).2 i ↔ Full s)) := by
  have hvol : SameVol s found := by
    have := enterParent_sameVol path s
    rwa [henter] at this
  have hsaved : found.savedCwd = s.cwd := by
    have := (enterParent_spec (c := s.cwd) (p := s.path) path s ⟨rfl, rfl⟩).1 leaf (by rw [henter])
    rw [henter] at this
    exact this.1
  refine ⟨fun src => ?_, fun hdata hne => ?_⟩
  · have hcall : exec (fsWrite path src len) s = exec (thenLeave (writeFile i src len)) found := by
      unfold fsWrite
      rw [exec_bind_of henter, exec_bind_of (exec_gets _ _)]
      simp only [id, hi]
      rw [if_neg (by simp [hfile])]
    rw [hcall]
    exact thenLeave_runs_out hg hvol hsaved hlen hout (writeFile_short hlen src)
  · have hcall : exec (fsTruncate path len) s = exec (thenLeave (truncateTo i len)) found := by
      unfold fsTruncate
      rw [exec_bind_of (show exec (need _) s = (some (), s) by simp [hlen.2]), exec_bind_of henter,
        exec_bind_of (exec_gets _ _)]
      simp only [id, hi]
      rw [Option.filter_some, if_pos (by simp [hfile, hdata])]
      dsimp only
      rw [if_neg hne, if_neg (by omega)]
    rw [hcall]
    exact thenLeave_runs_out hg hvol hsaved hlen hout truncateTo_short

/-- A mounted volume of two clusters with the FAT `fat` and the empty file `A` at cluster 2. -/
def twoClusters (fat : List UInt8) : Fs :=
  let disk lba :=
    if lba = 0 then bootSector 1 2 16 1 6
    else if lba = 1 ∨ lba = 2 then ofList fat
    else if lba = 3 then rootSector 2
    else fun _ => 0
  (exec fsInit { bootVolume 2 with disk := disk }).2

theorem runs_out_untouched_full :
    let s := twoClusters [0xF8, 0xFF, 0xFF, 0xFF, 0xFF, 0xFF]
    let found := (exec (enterParent [97]) s).2
    (∀ src, (exec (fsWrite [97] src 1500) s).1 = none ∧
      (Untouched s found (exec (fsWrite [97] src 1500) s).2 0 ↔ Full s)) ∧
    ((found.fileAt 0).data.isSome → 1500 ≠ (found.fileAt 0).len →
      (exec (fsTruncate [97] 1500) s).1 = none ∧
        (Untouched s found (exec (fsTruncate [97] 1500) s).2 0 ↔ Full s)) :=
  runs_out_untouched (by decide +kernel) (show exec (enterParent [97]) _ = (some [97], _)
    from Prod.ext (by decide +kernel) rfl) (by decide +kernel) (by decide +kernel) (by decide)
    ⟨2, by decide +kernel⟩

/-- With one cluster free, three are asked for: the cluster is taken and stays in the chain. -/
theorem taken_cluster_stays :
    let s := twoClusters [0xF8, 0xFF, 0xFF, 0xFF, 0x0F, 0x00]
    let found := (exec (enterParent [97]) s).2
    found.findFile [97] = some 0 ∧ RunsOut found 0 1500 ∧ (exec (fsWrite [97] (fun _ => 0) 1500) s).1 = none ∧
      ¬ Untouched s found (exec (fsWrite [97] (fun _ => 0) 1500) s).2 0 := by
  refine ⟨by decide +kernel, ⟨2, by decide +kernel⟩, by decide +kernel, fun h => ?_⟩
  have hbyte := congrFun h.fat 3
  revert hbyte
  decide +kernel

end VampireOS.Fs
