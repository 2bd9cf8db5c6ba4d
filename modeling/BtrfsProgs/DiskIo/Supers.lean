import BtrfsProgs.Crc32c
import BtrfsProgs.Lib.ByteArea
import BtrfsProgs.Lib.FirstBest
import BtrfsProgs.Lib.Record
import BtrfsProgs.Volumes.Rmap

/-
  The copies of the superblock on a device, as they are
  written and read by `disk-io.c`.

  Main declarations:
    * `readDevSuper`
    * `interrupted`
-/

----------
-- Superblocks
----------

namespace BtrfsProgs

namespace DiskIo

open Record ByteArea

/- `BTRFS_SUPER_INFO_SIZE`. -/
def SECTOR : Nat := 4096

/- `sizeof(struct btrfs_super_block)`. -/
def SUPER_SIZE : Nat := 3531

def BTRFS_MAGIC : Nat := 0x4D5F53665248425F

def superFsid
    (sb : List UInt8) : List UInt8 :=
  (sb.drop 32).take 16

def superBytenr
    (sb : List UInt8) : Nat :=
  field sb 48 8

def superMagic
    (sb : List UInt8) : Nat :=
  field sb 64 8

def superGeneration
    (sb : List UInt8) : Nat :=
  field sb 72 8

/- A device: its size and its bytes. -/
structure Device where
  size : Nat
  bytes : Area

/- `pread64` of a run of bytes; `none` is a short one. -/
def pread
    (d : Device)
    (place n : Nat) : Option (List UInt8) :=
  if place + n ≤ d.size then some (load d.bytes place n)
  else none

----------
-- Reading
----------

/- The copies that are looked at. -/
def mirrors : List Nat :=
  List.range Volumes.SUPER_MIRROR_MAX

def copyAt
    (d : Device)
    (i : Nat) : Option (List UInt8) :=
  pread d (Volumes.sbOffset i) SUPER_SIZE

/-
  The loop of `btrfs_read_dev_super` with the fsid that was
  seen first and the best copy so far, whose generation is
  `transid`.
-/
def readMirrors
    (d : Device) :
    List Nat → Option (List UInt8) → Option (List UInt8) →
      Option (List UInt8)
  | [], _, sb => sb
  | i :: slots, fsid, sb =>
      match copyAt d i with
      | none => sb
      | some buf =>
          if superBytenr buf ≠ Volumes.sbOffset i then
            readMirrors d slots fsid sb
          else if superMagic buf = 0 ∧ i = 0 then none
          else if superMagic buf ≠ BTRFS_MAGIC then
            readMirrors d slots fsid sb
          else if fsid ≠ none ∧ fsid ≠ some (superFsid buf) then
            readMirrors d slots fsid sb
          else
            readMirrors d slots (some (superFsid buf))
              (FirstBest.better superGeneration sb buf)

/- `btrfs_read_dev_super`; `none` is its error. -/
def readDevSuper
    (d : Device)
    (sbBytenr : Nat) : Option (List UInt8) :=
  if sbBytenr ≠ Volumes.SUPER_INFO_OFFSET then
    match pread d sbBytenr SUPER_SIZE with
    | none => none
    | some buf =>
        if superBytenr buf ≠ sbBytenr ∨
            superMagic buf ≠ BTRFS_MAGIC then none
        else some buf
  else readMirrors d mirrors none none

----------
-- Writing
----------

/- A field of a sector is set. -/
def setField
    (sb : List UInt8)
    (place w v : Nat) : List UInt8 :=
  sb.take place ++ LittleEndian.encode w v ++
    sb.drop (place + w)

/- The checksum over a sector. -/
def sectorCsum
    (sb : List UInt8) : Nat :=
  (~~~ crc32c (-1) (sb.drop 32)).toNat

/- The superblock with the place and the checksum of a copy. -/
def stamp
    (bytenr : Nat)
    (sb : List UInt8) : List UInt8 :=
  let sb := setField sb 48 8 bytenr
  setField sb 0 4 (sectorCsum sb)

def pwrite
    (d : Device)
    (place : Nat)
    (bytes : List UInt8) : Device :=
  { d with bytes := store d.bytes place bytes }

/- A copy that the device has room for. -/
def Fits
    (d : Device)
    (i : Nat) : Prop :=
  Volumes.sbOffset i + SECTOR ≤ d.size

instance
    (d : Device)
    (i : Nat) : Decidable (Fits d i) :=
  inferInstanceAs (Decidable (_ ≤ _))

/- The loop of `write_dev_supers`. -/
def writeMirrors :
    List Nat → List UInt8 → Device → Device
  | [], _, d => d
  | i :: slots, sb, d =>
      if Fits d i then
        let sb := stamp (Volumes.sbOffset i) sb
        writeMirrors slots sb
          (pwrite d (Volumes.sbOffset i) sb)
      else d

/-
  `write_dev_supers` at the default offset, interrupted while
  it writes copy `k`, of which `torn` is on the device.
-/
def interrupted
    (k : Nat)
    (torn : List UInt8)
    (sb : List UInt8)
    (d : Device) : Device :=
  let d := writeMirrors (mirrors.take k) sb d
  if k < Volumes.SUPER_MIRROR_MAX ∧ Fits d k then
    pwrite d (Volumes.sbOffset k) torn
  else d

end DiskIo

end BtrfsProgs
