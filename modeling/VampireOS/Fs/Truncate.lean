import VampireOS.Fs.Writes

/-!
# Truncating (kernel/fs.c:1572-1660)

A file cut to 0 gives its clusters back. Any other length goes the way of a write: the chain gets
its length, a longer file gets zeros behind what it had, and the entry is written.
-/

namespace VampireOS.Fs

open Lib

variable {v u s s' : Fs} {d i j cl start len : Nat} {old l : List Nat} {f : FileEnt}

/-- The contents of a file, and zeros behind them. -/
def padded (v : Fs) (d j : Nat) : Bytes :=
  fun k => if k < v.slotSize d j then v.fileBytes (v.slotStart d j) k else 0

/-- `fat_free_chain` leaves no chain. -/
theorem Regrown.freed (hg : s.geo.Sane) (hold : OwnChain s start old) (hlen : old.length ≤ chainMax) :
    ∃ s', exec (fatFreeChain start) s = (some (), s') ∧ Regrown s s' start 0 old [] := by
  obtain ⟨s', h1, h2, -, h3⟩ := fatFreeChain_spec hg hold hlen
  refine ⟨s', h1, h2, .nil rfl, Nat.zero_le _, nofun, List.nil_prefix, fun c hc _ => h3 c hc,
    h3 1 fun hm => ?_⟩
  exact absurd (hold.two_le 1 hm) (by decide)

/-- A page with the file's contents, and zeros behind them. -/
theorem padded_page (hf : AtEntry v d j f) (hw : WellFormed v) (hd : Dir v d)
    (hfile : f.isDir = false) {p : Bytes} (hp : Agree p (v.fileBytes f.cluster) f.len) (n : Nat) :
    Agree (putBytes p f.len (fun _ => 0) n) (padded v d j) (f.len + n) := by
  intro k hk
  unfold putBytes padded
  rw [← hf.len hfile]
  by_cases hlt : k < f.len
  · rw [if_neg (by omega), if_pos hlt, hp k hlt]
    rcases hf.cases hw hd with ⟨hc, -⟩ | ⟨-, -, h0⟩
    · rw [hc]
    · rw [h0 hfile] at hlt
      exact absurd hlt (Nat.not_lt_zero _)
  · rw [if_pos (by omega), if_neg hlt]

/-- A shorter chain has the front of the contents. -/
theorem Regrown.front_page (hw : WellFormed v) (hs : Stands v s) (hf : AtEntry v s.cwd j f)
    (hfile : f.isDir = false) (h : Regrown s s' f.cluster cl (v.chainAt f.cluster) l)
    (hl : l.length = needFor len) (hlen : len ≤ f.len) (hchain : OwnChain u cl l)
    (hgeo : u.geo = v.geo) (hdisk : ∀ lba, lba ∉ v.geo.fatSectors → u.disk lba = v.disk lba) :
    Agree (u.fileBytes cl) (v.fileBytes f.cluster) len := by
  have hsize : f.len ≤ secSize * (v.chainAt f.cluster).length := by
    rcases hf.cases hw hs.cwd with ⟨-, hc, -⟩ | ⟨-, -, h0⟩
    · rw [hc, hf.len hfile]
      exact ((hw.slot _ j hs.cwd hf.mem).file (hf.isDir ▸ hfile)).2
    · rw [h0 hfile]
      exact Nat.zero_le _
  have hin : ∀ c ∈ l, 2 ≤ c ∧ c ≤ v.geo.clusters + 1 :=
    fun c hc => ⟨hchain.two_le c hc, hgeo ▸ hchain.inside c hc⟩
  rw [fileBytes_eq, fileBytes_eq, chainAt_eq hchain h.short, hgeo, sectorBytes_congr fun lba hm => ?_]
  · apply (front_bytes v.disk v.geo h.front).mono
    have := (needFor_spec len).1
    rcases Nat.le_total (v.chainAt f.cluster).length (needFor len) with hle | hle
    · rw [hl, Nat.min_eq_left hle]
      omega
    · rw [hl, Nat.min_eq_right hle]
      exact this
  · obtain ⟨c, hc, rfl⟩ := List.mem_map.1 hm
    exact hdisk _ (hw.data_not_fat (hin c hc).1 (hin c hc).2)

/-- The last steps of a truncation. -/
theorem trim_ends (hw : WellFormed v) (hs : Stands v s) (hi : s.files[i]? = some f)
    (hf : AtEntry v s.cwd j f) (hfile : f.isDir = false) (hu : Ready v s u (v.chainAt f.cluster))
    (hchain : OwnChain u cl l) (hl : l.length ≤ chainMax)
    (taken : ∀ c ∈ l, c ∈ v.chainAt f.cluster ∨ v.fatEnt c = 0) (hcl : cl < 2 ^ 16)
    (hlen : len ≤ fileMax ∧ len ≤ secSize * l.length) {p : Bytes}
    (hp : Agree p (u.fileBytes cl) len) (hpad : Agree p (padded v s.cwd j) len)
    (hfiles : u.files = s.files.set i { f with cluster := cl, data := some p }) :
    Triple (fun s' => s' = u) (do
      dirLoad
      putSize f.dirOff cl len
      dirStore
      modFile i fun f => { f with len := len })
    (fun _ x => Wrote v s.cwd j (v.slotName s.cwd j) (padded v s.cwd j) len x ∧ Seated s x)
    (Unwritten v s.cwd j) := by
  rintro u rfl
  obtain ⟨u1, u2, h1, h2, h3, hcwd, v', h4, h5, h6, h7⟩ := rewrite_ends hw hs hi hf hfile hu hchain
    hl taken hcl hlen hp
  rw [exec_bind_of h1, exec_bind_of (exec_putSize _ _ _ _ hf.off), exec_bind_of h2, exec_modFile]
  refine ⟨fun _ _ => ?_, nofun⟩
  have hset : u2.files.modify i (fun g => { g with len := len }) = s.files.set i
      { f with cluster := cl, data := some p, len := len } := by
    rw [h3, hfiles, modify_eq_set (f := { f with cluster := cl, data := some p })
      (by rw [List.getElem?_set_self (List.getElem?_eq_some_iff.1 hi).1]),
      List.set_set]
  simp only [hset]
  exact ⟨⟨v', h4, h5, h6, h7.agree hpad⟩, hcwd, List.length_set⟩

/-- **`fs_truncate` to 0.** -/
theorem truncateZero_wrote (hw : WellFormed v) (hs : Stands v s) (hi : s.files[i]? = some f)
    (hf : AtEntry v s.cwd j f) (hfile : f.isDir = false) :
    Triple (fun s' => s' = s) (truncateZero i)
      (fun _ x => Wrote v s.cwd j (v.slotName s.cwd j) (padded v s.cwd j) 0 x ∧ Seated s x)
      (Unwritten v s.cwd j) := by
  rintro s rfl
  have hold : OwnChain s f.cluster (v.chainAt f.cluster) := (hf.chain hw hs.cwd).sameVol hs.vol
  obtain ⟨s1, h1, hfree⟩ := Regrown.freed (hs.vol.geo ▸ hw.geo) hold (v.chainAt_length _)
  obtain ⟨u, h2, hu, hchain, hstate, -⟩ :=
    hfree.flushed hw hs (s1.files.modify i fun f => { f with cluster := 0 })
  obtain ⟨p, hp, -⟩ := hf.page hfile
  unfold truncateZero
  rw [exec_bind_of (exec_gets _ _)]
  simp only [id, fileAt_set hi]
  rw [exec_bind_of h1, exec_bind_of (exec_modFile _ _ _), exec_bind_of h2]
  refine trim_ends hw hs hi hf hfile hu hchain hfree.short nofun (by decide)
    ⟨Nat.zero_le _, Nat.zero_le _⟩ (p := p) (fun _ h => absurd h (Nat.not_lt_zero _))
    (fun _ h => absurd h (Nat.not_lt_zero _)) ?_ u rfl
  rw [hstate, hfree.sameFiles, modify_eq_set hi, ← hp]

/-- **`fs_truncate`** to another length: the file is cut or gets zeros behind it, or all files are
as before. -/
theorem truncateTo_wrote (hw : WellFormed v) (hs : Stands v s) (hi : s.files[i]? = some f)
    (hf : AtEntry v s.cwd j f) (hfile : f.isDir = false) (hlen : len ≠ 0 ∧ len ≤ fileMax) :
    Triple (fun s' => s' = s) (truncateTo i len)
      (fun _ x => Wrote v s.cwd j (v.slotName s.cwd j) (padded v s.cwd j) len x ∧ Seated s x)
      (Unwritten v s.cwd j) := by
  rintro s rfl
  have hold : OwnChain s f.cluster (v.chainAt f.cluster) := (hf.chain hw hs.cwd).sameVol hs.vol
  obtain ⟨cl, ok, s1, l, hx, hgrow, htrue, hfalse⟩ := fatResize_cases (hs.vol.geo ▸ hw.geo) hold
    (v.chainAt_length _) ⟨needFor_ne hlen.1, needFor_le hlen.2⟩
  unfold truncateTo
  rw [exec_bind_of (exec_gets _ _)]
  simp only [id, fileAt_set hi]
  rw [exec_bind_of hx, exec_bind_of (exec_modFile _ _ _)]
  cases ok with
  | false =>
    obtain ⟨h1, h2⟩ := hfalse rfl
    exact ⟨nofun, fun _ => grow_fails hw hs hi ⟨hf, hfile, hgrow, h1, h2⟩⟩
  | true =>
    have hl := htrue rfl
    have hfresh := hgrow.fresh hs.vol
    obtain ⟨u, h1, hu, hchain, hstate, -, hdisk⟩ :=
      hgrow.flushed hw hs (s1.files.modify i fun f => { f with cluster := cl })
    have hfiles : u.files = s.files.modify i fun f => { f with cluster := cl } := by
      rw [hstate, hgrow.sameFiles]
    have hcl : cl < 2 ^ 16 := cluster_small hchain fun e => needFor_ne hlen.1 (by rw [← hl, e]; rfl)
    have hfit : len ≤ fileMax ∧ len ≤ secSize * l.length := ⟨hlen.2, hl ▸ (needFor_spec len).1⟩
    obtain ⟨p, hp, hag⟩ := hf.page hfile
    rw [exec_bind_of (show exec (need true) _ = (some (), _) from rfl), exec_bind_of h1]
    rw [modify_eq_set hi] at hfiles
    by_cases hmore : len > f.len
    · -- zeros behind the old contents, in the page and in the chain
      have hpad := padded_page hf hw hs.cwd hfile hag (len - f.len)
      rw [show f.len + (len - f.len) = len by omega] at hpad
      set p' := putBytes p f.len (fun _ => 0) (len - f.len)
      set um : Fs := { u with files := u.files.modify i fun g => { g with data := some p' } } with hum
      have hfiles' : um.files = s.files.set i { f with cluster := cl, data := some p' } := by
        rw [hum]
        show u.files.modify i _ = _
        rw [hfiles, modify_eq_set (f := { f with cluster := cl })
          (by rw [List.getElem?_set_self (List.getElem?_eq_some_iff.1 hi).1]), List.set_set]
      have hready : Ready v s um (v.chainAt f.cluster) :=
        ⟨⟨⟨hu.out.geo, hu.out.fat, hu.out.disk⟩, ⟨hu.out.head, hu.out.first⟩⟩,
          hu.rel.same rfl rfl rfl, hu.cwd, hu.saved⟩
      have hchainm : OwnChain um cl l := hchain.congr rfl fun _ _ => rfl
      obtain ⟨u', h2, hu', hchain', hfiles2, hread⟩ := hready.store hw hchainm hl hfresh p' hlen.2
      rw [if_pos hmore, hp]
      simp only [Option.getD_some]
      rw [exec_bind_of (exec_modFile _ _ _), exec_bind_of h2]
      exact trim_ends hw hs hi hf hfile hu' hchain' hgrow.short hfresh hcl hfit hread hpad
        (hfiles2.trans hfiles') u' rfl
    · have hle : len ≤ f.len := by omega
      have hfront := hgrow.front_page hw hs hf hfile hl hle hchain hu.out.geo hdisk
      have hpad := (padded_page hf hw hs.cwd hfile hag 0).mono hle
      rw [if_neg hmore]
      refine trim_ends hw hs hi hf hfile hu hchain hgrow.short hfresh hcl hfit (p := p)
        (fun k hk => ?_) (fun k hk => ?_) ?_ u rfl
      · rw [hag k (by omega), hfront k hk]
      · rw [← hpad k hk]
        unfold putBytes
        rw [if_neg (by omega)]
      · rw [hfiles, ← hp]

end VampireOS.Fs
