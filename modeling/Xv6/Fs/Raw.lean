import Xv6.Fs.Calls
import Xv6.Fs.Slot

/-!
# The file system over bare blocks

The same calls as in `Fs.Call`, with the inodes in their blocks: there is only the disk,
and `iupdate`, `ialloc` and `ilock` go to the 64 bytes of an inode in block `IBLOCK`.

`lift` runs code of `fs.c` that stores into no `struct dinode`: the inodes it reads are
those in the blocks.  The functions that do are written out.
-/

namespace Xv6.Fs.Raw

open Xv6.Lib

variable {N : ℕ} {α : Type}

/-- The disk and the inode cache. -/
structure State (N : ℕ) where
  disk : ℕ → Block
  icache : Fin N → Inode

/-- Kernel code that works on the blocks. -/
abbrev Kernel (N : ℕ) := Prog (State N) Panic

/-- The disk and the inodes in it. -/
def State.fs (F : Format) (r : State N) : Fs.State N := ⟨r.disk, slot F r.disk, r.icache⟩

/-- Code that stores into no `struct dinode`. -/
def lift (F : Format) (m : Fs.Kernel N α) : Kernel N α := fun r =>
  match m.run (r.fs F) with
  | .ok (a, t) => .ok (a, ⟨t.disk, t.icache⟩)
  | .error e => .error e

/-! ## Inodes -/

def iupdate (F : Format) (i : Fin N) : Kernel N PUnit :=
  modify fun r => { r with disk := setSlot F r.disk (r.icache i).inum (r.icache i).copy }

/-- `ialloc`: the first free inode from 1 on. -/
def ialloc (F : Format) (type : ℤ) : Kernel N (Fin N) := do
  let r ← get
  match (List.range F.ninodes).find? fun inum => 1 ≤ inum ∧ (slot F r.disk inum).type = 0 with
  | some inum =>
    modify fun r => { r with disk := setSlot F r.disk inum { Dinode.zero with type } }
    lift F (Fs.iget inum)
  | none => throw .iallocNoInodes

def itrunc (F : Format) (i : Fin N) : Kernel N PUnit := do
  lift F (forM (List.range NDIRECT) (truncDirect F.toSuperblock i))
  let r ← get
  let ind := (r.icache i).copy.addrs NDIRECT
  if ind ≠ 0 then
    lift F (forM (List.range NINDIRECT) (truncEntry F.toSuperblock ind))
    lift F (bfree F.toSuperblock ind)
    lift F (setAddr i NDIRECT 0)
  lift F (setCopy i fun d => { d with size := 0 })
  iupdate F i

def iput (F : Format) (i : Fin N) (locked : Option (Fin N) := none) : Kernel N PUnit := do
  lift F (acquiresleep locked i)
  let r ← get
  let ip := r.icache i
  if ip.valid = true ∧ ip.copy.nlink = 0 ∧ ip.ref = 1 then
    itrunc F i
    lift F (setCopy i fun d => { d with type := 0 })
    iupdate F i
    lift F (setInode i fun ip => { ip with valid := false })
  lift F (setInode i fun ip => { ip with ref := ip.ref - 1 })

/-! ## Files and directories -/

/-- `writei` of the `n` bytes `src`. -/
def writei (F : Format) (dev : Devsw) (i : Fin N) (src : List UInt8) (off n : UInt32) :
    Kernel N ℤ := do
  let r ← get
  let d := (r.icache i).copy
  if d.type = T_DEV then
    if d.major < 0 ∨ (NDEV : ℤ) ≤ d.major then pure (-1)
    else
      match dev.write d.major with
      | none => pure (-1)
      | some write => pure (write src n)
  else if d.size < off.toNat ∨ off + n < off then pure (-1)
  else if MAXFILE * BSIZE < (off + n).toNat then pure (-1)
  else
    lift F (writeLoop F.toSuperblock i n.toNat off.toNat src)
    if 0 < n ∧ d.size < (off + n).toNat then
      lift F (setCopy i fun d => { d with size := (off + n).toNat })
      iupdate F i
    pure n.toNat

def dirlink (F : Format) (dev : Devsw) (i : Fin N) (name : List UInt8) (inum : ℕ) :
    Kernel N ℤ := do
  let found ← lift F (dirlookup F.toSuperblock dev i name)
  match found with
  | some (j, _) =>
    iput F j (some i)
    pure (-1)
  | none =>
    let r ← get
    let off ← lift F (emptyDirent F.toSuperblock dev i ((r.icache i).copy.size + 1) 0)
    let n ← writei F dev i (encodeDirent inum name) (UInt32.ofNat off) (UInt32.ofNat DIRENT)
    if n ≠ DIRENT then throw .dirlink else pure 0

def setAttr (F : Format) (i : Fin N) (major minor nlink : ℤ) : Kernel N PUnit := do
  lift F (setCopy i fun d => { d with major, minor, nlink })
  iupdate F i

/-! ## Calls -/

/-- What a call does. -/
def run (F : Format) (dev : Devsw) : Call N → Kernel N PUnit
  | .ialloc type => discard (ialloc F type)
  | .iget inum => discard (lift F (Fs.iget inum))
  | .idup i => lift F (Fs.idup i)
  | .ilock i => lift F (Fs.ilock i)
  | .readi i off n => discard (lift F (Fs.readi F.toSuperblock dev i off n))
  | .writei i src off n => discard (writei F dev i src off n)
  | .dirlink i name inum => discard (dirlink F dev i name inum)
  | .setAttr i major minor nlink => setAttr F i major minor nlink
  | .itrunc i => itrunc F i
  | .iput i => iput F i

/-- The arguments are in the range of their C types. -/
def Typed : Call N → Prop
  | .ialloc type => IsShort type
  | .setAttr _ major minor nlink => IsShort major ∧ IsShort minor ∧ IsShort nlink
  | _ => True

/-- What callers see to. -/
def Allowed (F : Format) (r : State N) (c : Call N) : Prop :=
  c.Allowed F.toSuperblock (r.fs F) ∧ Typed c

instance (c : Call N) : Decidable (Typed c) :=
  match c with
  | .ialloc type => inferInstanceAs (Decidable (IsShort type))
  | .setAttr _ major minor nlink =>
    inferInstanceAs (Decidable (IsShort major ∧ IsShort minor ∧ IsShort nlink))
  | .iget _ | .idup _ | .ilock _ | .readi .. | .writei .. | .dirlink .. | .itrunc _ | .iput _ =>
    inferInstanceAs (Decidable True)

instance (F : Format) (r : State N) (c : Call N) : Decidable (Allowed F r c) :=
  inferInstanceAs (Decidable (_ ∧ _))

/-- The file system in use, from an image and an empty inode cache on.  A call that
panics ends the run. -/
def system (F : Format) (dev : Devsw) (N : ℕ) : Lts (State N) (Call N) where
  init r := Image F.toSuperblock (r.fs F) ∧
    ∀ i, (r.icache i).ref = 0 ∧ (r.icache i).copy.Fits
  step r c :=
    match (run F dev c).run r with
    | .ok (_, t) => some t
    | .error _ => none

end Xv6.Fs.Raw
