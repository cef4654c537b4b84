import Mathlib

/-!
# Kernel parameters

The limits of `param.h` that the modelled code reads.
-/

namespace Xv6

/-- `NPROC`, the most processes. -/
def NPROC : ℕ := 64

/-- `NOFILE`, open files of a process. -/
def NOFILE : ℕ := 16

/-- `NFILE`, open files in the system. -/
def NFILE : ℕ := 100

/-- The most blocks one file-system operation is meant to write. -/
def MAXOPBLOCKS : ℕ := 10

/-- `LOGSIZE`, commented "max data blocks in on-disk log". -/
def LOGSIZE : ℕ := MAXOPBLOCKS * 3

/-- `NINODE`, the most inodes in use at a time. -/
def NINODE : ℕ := 50

/-- `NDEV`, the bound of the major device numbers. -/
def NDEV : ℕ := 10

/-- `NBUF`, the size of the disk block cache. -/
def NBUF : ℕ := MAXOPBLOCKS * 3

/-- `FSSIZE`, the size of the file system in blocks. -/
def FSSIZE : ℕ := 1000

/-- `ROOTDEV`, the device number of the disk with the root file system. -/
def ROOTDEV : UInt32 := 1

def O_WRONLY : UInt32 := 1

def O_RDWR : UInt32 := 2

end Xv6
