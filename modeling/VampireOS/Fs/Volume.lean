import Mathlib.Algebra.Group.Nat.Defs
import VampireOS.Lib.Triple

/-!
# The volume: device, FAT and cache (kernel/fs.c)

| here | there |
| --- | --- |
| `Geo` | `g_rsvd`, `g_fatsz`, `g_clusters`, `g_first_root`, `g_first_data` (fs.c:32-38) |
| `FileEnt`, `Fs` | `struct fs_file`, the other statics (fs.c:20-45) and the block device |
| `Dev`, `pastEnd`, `bread`, `bwrite` | bio.c: `part_lba`, `table[0].sectors`, `past_end` and the transfers |
| `fatFlush` | `fat_flush` (fs.c:500) |
| `pageBuf`, `dropPage` | fs.c:369-396 |
| `fatEnt`, `fatSet`, `fatAlloc`, `chain` | `fat12_ent`, `fat12_set`, `fat_alloc` and the chain loops |
| `fatFreeChain`, `fatResize`, `storeChain`, `loadFile` | fs.c:897-1000, 1207 |

A pointer that is set once by a successful `fs_init` (`g_fat`, `g_dir`, `g_sec`) is not modelled, and
a sector buffer that is filled before every use (`g_sec`) is a local value. `errs` is what the driver
will do: each call takes one element, `true` makes it fail; a driver that never fails has `[]`. `disk` is
the device from `part_lba` on.
`pages` is the number of frames left for buffers.
-/

namespace VampireOS

open Lib

/-- Bytes by index: a sector, a page, or a table. -/
abbrev Bytes := Nat → UInt8

def secSize : Nat := 512
def fsMax : Nat := 48
def fileMax : Nat := 0x1000
def chainMax : Nat := 8
def fat12Eof : Nat := 0xFF8
def pathMax : Nat := 80
def nameMax : Nat := 16

structure Geo where
  rsvd : Nat
  fatsz : Nat
  clusters : Nat
  firstRoot : Nat
  firstData : Nat
deriving DecidableEq, Repr

/-- The sector of cluster `cl`. -/
def Geo.dataLba (g : Geo) (cl : Nat) : Nat := g.firstData + (cl - 2)

abbrev Name := List UInt8

structure FileEnt where
  name : Name
  data : Option Bytes
  len : Nat
  cluster : Nat
  dirOff : Nat
  isDir : Bool

/-- The device of the volume: its first sector there, and the number of sectors, 0 when unknown. -/
structure Dev where
  part : Nat
  sectors : Nat
deriving DecidableEq, Repr

structure Fs where
  disk : Nat → Bytes
  dev : Dev
  errs : List Bool
  pages : Nat
  geo : Geo
  fat : Bytes
  cwd : Nat
  savedCwd : Nat
  path : Name
  dir : Bytes
  dirBytes : Nat
  files : List FileEnt
  view : Option Bytes
  /-- What the frames left for buffers hold. -/
  junk : Bytes
  /-- History: the writes that the driver got, each with its first sector on the device and their number. -/
  sent : List (Nat × Nat)

abbrev FsM (α : Type) := Act Fs α

/-- `copy_bytes(dst + off, src, n)`. -/
def putBytes (dst : Bytes) (off : Nat) (src : Bytes) (n : Nat) : Bytes := fun i =>
  if off ≤ i ∧ i < off + n then src (i - off) else dst i

/-- The bytes from `off` on. -/
def fromByte (b : Bytes) (off : Nat) : Bytes := fun i => b (off + i)

def rdU16 (b : Bytes) (o : Nat) : Nat := (b o).toNat + (b (o + 1)).toNat * 0x100

def rdU32 (b : Bytes) (o : Nat) : Nat :=
  (b o).toNat + (b (o + 1)).toNat * 0x100 + (b (o + 2)).toNat * 0x10000 + (b (o + 3)).toNat * 0x1000000

def wrU16 (b : Bytes) (o v : Nat) : Bytes := putBytes b o (fun i => UInt8.ofNat (v / 0x100 ^ i)) 2

def wrU32 (b : Bytes) (o v : Nat) : Bytes := putBytes b o (fun i => UInt8.ofNat (v / 0x100 ^ i)) 4

/-- A list of bytes as a buffer. -/
def ofList (l : List UInt8) : Bytes := fun i => l.getD i 0

namespace Fs

/-! ## Device and pages -/

/-- `past_end`: the sum is a `uint32_t`. -/
def pastEnd (d : Dev) (lba n : Nat) : Bool :=
  let abs := (lba + d.part) % 2 ^ 32
  n = 0 || (d.sectors ≠ 0 && (abs < lba || d.sectors ≤ abs || d.sectors - abs < n))

/-- The outcome of the next call of the driver. -/
def driver : FsM Unit := do
  let e ← gets fun s => s.errs.head?
  upd fun s => { s with errs := s.errs.tail }
  need (e ≠ some true)

/-- `bread(lba, n, dst)` up to the copy. -/
def fetch (lba n : Nat) : FsM Unit := do
  let s ← gets id
  need (!pastEnd s.dev lba n)
  driver

def bread (lba : Nat) : FsM Bytes := do
  fetch lba 1
  gets fun s => s.disk lba

/-- `bwrite(lba, n, src)` up to the copy. -/
def send (lba n : Nat) : FsM Unit := do
  let s ← gets id
  need (!pastEnd s.dev lba n)
  upd fun s => { s with sent := s.sent ++ [((lba + s.dev.part) % 2 ^ 32, n)] }
  driver

def bwrite (lba : Nat) (b : Bytes) : FsM Unit := do
  send lba 1
  upd fun s => { s with disk := Function.update s.disk lba b }

/-- `bwrite(lba, n, buf)`. -/
def bwriteN (lba n : Nat) (b : Bytes) : FsM Unit := do
  send lba n
  upd fun s => { s with disk := fun l =>
    if lba ≤ l ∧ l < lba + n then fromByte b (secSize * (l - lba)) else s.disk l }

def fatFlush : FsM Unit := do
  let s ← gets id
  bwriteN s.geo.rsvd s.geo.fatsz s.fat
  bwriteN (s.geo.rsvd + s.geo.fatsz) s.geo.fatsz s.fat

/-- A buffer page; it is not cleared. -/
def pageBuf : FsM Bytes := do
  let s ← gets id
  need (s.pages ≠ 0)
  upd fun s => { s with pages := s.pages - 1 }
  pure s.junk

def dropPage (d : Option Bytes) : FsM Unit := upd fun s => { s with pages := s.pages + d.toList.length }

/-! ## The FAT in memory -/

def fatBytes (g : Geo) : Nat := g.fatsz * secSize

/-- `fat12_ent`: two entries share three bytes. -/
def fat12Ent (g : Geo) (fat : Bytes) (cl : Nat) : Nat :=
  let off := cl + cl / 2
  if off + 1 ≥ fatBytes g then fat12Eof
  else
    let v := (fat off).toNat ||| (fat (off + 1)).toNat <<< 8
    if cl % 2 = 1 then v >>> 4 else v &&& 0xFFF

def fat12Set (g : Geo) (fat : Bytes) (cl val : Nat) : Bytes :=
  let off := cl + cl / 2
  let val := val &&& 0xFFF
  if off + 1 ≥ fatBytes g then fat
  else if cl % 2 = 1 then
    Function.update
      (Function.update fat off (UInt8.ofNat (((fat off).toNat &&& 0x0F) ||| (val &&& 0x0F) <<< 4)))
      (off + 1) (UInt8.ofNat (val >>> 4))
  else
    Function.update (Function.update fat off (UInt8.ofNat val))
      (off + 1) (UInt8.ofNat (((fat (off + 1)).toNat &&& 0xF0) ||| val >>> 8))

def fatEnt (s : Fs) (cl : Nat) : Nat := fat12Ent s.geo s.fat cl

def fatSet (cl val : Nat) : FsM Unit := upd fun s => { s with fat := fat12Set s.geo s.fat cl val }

/-- `cl >= 2u && cl < FAT12_EOF`. -/
def isCluster (cl : Nat) : Bool := 2 ≤ cl && cl < fat12Eof

/-- The clusters the loops `while (cl >= 2u && cl < FAT12_EOF && hops < max)` visit. -/
def chain (g : Geo) (fat : Bytes) : Nat → Nat → List Nat
  | 0, _ => []
  | hops + 1, cl => if isCluster cl then cl :: chain g fat hops (fat12Ent g fat cl) else []

/-- Last cluster first. -/
def fatFind (s : Fs) : Option Nat :=
  ((List.range s.geo.clusters).map fun i => s.geo.clusters + 1 - i).find? fun cl => s.fatEnt cl = 0

def fatAlloc : FsM Nat := do
  let cl ← gets fatFind
  let cl ← orFailWith cl
  fatSet cl fat12Eof
  pure cl

/-- Set the entries of `cls` to 0, in order. -/
def fatClear : List Nat → FsM Unit
  | [] => pure ()
  | cl :: cls => do
    fatSet cl 0
    fatClear cls

/-- `fat_free_chain`: the next cluster is read before the entry is cleared. -/
def fatFreeChain (cl : Nat) : FsM Unit := do
  let s ← gets id
  fatClear (chain s.geo s.fat chainMax cl)

/-- The growing loop of `fat_resize`: link `n` new clusters behind `cls`, as far as there are any. -/
def fatExtend : Nat → List Nat → FsM (List Nat × Bool)
  | 0, cls => pure (cls, true)
  | n + 1, cls => do
    let cl ← result fatAlloc
    match cl with
    | none => pure (cls, false)
    | some cl =>
      match cls.getLast? with
      | some prev => fatSet prev cl
      | none => pure ()
      fatExtend n (cls ++ [cl])

/-- `fat_resize`: what `*start` is afterwards, and whether it returned 0. On failure the clusters taken
so far stay linked. -/
def fatResize (start count : Nat) : FsM (Nat × Bool) :=
  if count = 0 ∨ count > chainMax then pure (start, false)
  else do
    let s ← gets id
    let old := chain s.geo s.fat chainMax start
    let (cls, ok) ← fatExtend (count - old.length) old
    if ok then
      fatClear (cls.drop count).reverse
      fatSet (cls.getD (count - 1) 0) fat12Eof
      pure (cls.getD 0 0, true)
    else pure (if old = [] then cls.getD 0 start else start, false)

/-! ## Contents of a chain -/

/-- The next sector of a file: the first `n` bytes of `src`, then zeros. -/
def padSector (src : Bytes) (n : Nat) : Bytes := fun i => if i < n then src i else 0

/-- `store_chain` over the clusters still ahead. -/
def storeChainFrom (src : Bytes) (len off : Nat) : List Nat → FsM Unit
  | [] => need (len ≤ off)
  | cl :: cls =>
    if len ≤ off then pure ()
    else do
      let s ← gets id
      bwrite (s.geo.dataLba cl) (padSector (fromByte src off) (min (len - off) secSize))
      storeChainFrom src len (off + secSize) cls

def storeChain (start : Nat) (src : Bytes) (len : Nat) : FsM Unit := do
  let s ← gets id
  storeChainFrom src len 0 (chain s.geo s.fat chainMax start)

/-- `load_file` over the clusters still ahead; `dst` is filled as far as the reads go. -/
def loadFileFrom (dst : Bytes) (size off : Nat) : List Nat → FsM (Bytes × Bool)
  | [] => pure (dst, decide (size ≤ off))
  | cl :: cls =>
    if size ≤ off then pure (dst, true)
    else do
      let s ← gets id
      let sec ← result (bread (s.geo.dataLba cl))
      match sec with
      | none => pure (dst, false)
      | some b => loadFileFrom (putBytes dst off b (min (size - off) secSize)) size (off + secSize) cls

/-- `load_file` into the page `dst`: the new contents, and whether it returned 0. -/
def loadFile (dst : Bytes) (start size : Nat) : FsM (Bytes × Bool) := do
  let s ← gets id
  loadFileFrom dst size 0 (chain s.geo s.fat chainMax start)

end Fs

end VampireOS
