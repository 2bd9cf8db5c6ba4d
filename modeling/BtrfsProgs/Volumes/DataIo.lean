import BtrfsProgs.Lib.ByteStore
import BtrfsProgs.Volumes.Map

/-
  Reading and writing logical ranges, from `extent_io.c`, with
  the parity writes of `volumes.c` and `raid6.c`.

  The devices are one `Disk`; every device is open and stores
  what it is given.  The parity loops work on machine words,
  here byte by byte, which is the same for exclusive or and
  for the byte-wise doubling of `raid6_gen_syndrome`.

  Main declarations:
    * `readDataFromDisk` and `readWholeEb`
    * `writeRaid56WithParity`
    * `writeDataToDisk`
-/

----------
-- Reading
----------

namespace BtrfsProgs

namespace Volumes

/- The bytes of all devices. -/
abbrev Disk : Type := ByteStore.Store UInt8

/- The fields of `struct btrfs_fs_info` used here. -/
structure FsInfo where
  mappingTree : List MapLookup
  leafsize : Nat
  onRestoring : Bool
deriving Repr, DecidableEq

/- A failed mapping is reported as `-EIO`. -/
def mapError : Stop → Stop
  | .err _ => .err .eio
  | .bug => .bug

/-
  The loop shared by `read_data_from_disk` and
  `read_whole_eb`.  The fuel is the number of bytes left; it
  runs out only if a mapping covers no byte.
-/
def readLoop
    (mapTree : List MapLookup)
    (disk : Disk)
    (mirror : Nat) :
    Nat → Nat → Nat → Except Stop (List UInt8)
  | _, _, 0 => .ok []
  | 0, _, _ + 1 => .error .bug
  | fuel + 1, offset, bytesLeft =>
      match mapBlock mapTree .READ offset mirror false with
      | .error e => .error (mapError e)
      | .ok r =>
          match r.stripes with
          | [] => .error .bug
          | s :: _ =>
              let readLen := min bytesLeft r.length
              match readLoop mapTree disk mirror fuel
                  (offset + readLen)
                  (bytesLeft - readLen) with
              | .error e => .error e
              | .ok rest =>
                  .ok (ByteStore.read disk s.dev s.physical
                    readLen ++ rest)

/- `read_data_from_disk`. -/
def readDataFromDisk
    (info : FsInfo)
    (disk : Disk)
    (offset bytes mirror : Nat) :
    Except Stop (List UInt8) :=
  readLoop info.mappingTree disk mirror bytes offset bytes

/-
  `read_whole_eb`.  When restoring a metadump the block is
  taken from device 1 without mapping it.
-/
def readWholeEb
    (info : FsInfo)
    (disk : Disk)
    (start len mirror : Nat) :
    Except Stop (List UInt8) :=
  if info.onRestoring then
    .ok (ByteStore.read disk 1 start len)
  else
    readLoop info.mappingTree disk mirror len start len

----------
-- Parity Writes
----------

/- An `extent_buffer`: its logical address and its bytes. -/
structure ExtentBuffer where
  start : Nat
  data : List UInt8
deriving Repr, DecidableEq

/- `memcpy(dst + off, src, len)`. -/
def memcpy
    (dst : List UInt8)
    (off : Nat)
    (src : List UInt8) : List UInt8 :=
  dst.take off ++ src ++ dst.drop (off + src.length)

/-
  `rmw_eb`: read the stripe and lay the bytes it shares with
  `origEb` over it.
-/
def rmwEb
    (info : FsInfo)
    (disk : Disk)
    (start len : Nat)
    (origEb : ExtentBuffer) : Except Stop (List UInt8) :=
  match readWholeEb info disk start len 0 with
  | .error e => .error e
  | .ok data =>
      let origLen := origEb.data.length
      if start + len ≤ origEb.start ∨
          origEb.start + origLen ≤ start then
        .ok data
      else
        let origOff :=
          if origEb.start < start then
            start - origEb.start
          else
            0
        let destOff :=
          if start < origEb.start then
            origEb.start - start
          else
            0
        let copyLen := min len (origLen - origOff)
        let copyLen := min copyLen (len - destOff)
        .ok (memcpy data destOff
          ((origEb.data.drop origOff).take copyLen))

/- `split_eb_for_raid56`, up to the first parity stripe. -/
def splitEbForRaid56
    (info : FsInfo)
    (disk : Disk)
    (origEb : ExtentBuffer)
    (stripeLen : Nat) :
    List Nat → Except Stop (List (List UInt8))
  | [] => .ok []
  | start :: raidMap =>
      if RAID5_P_STRIPE ≤ start then
        .ok []
      else
        let eb : Except Stop (List UInt8) :=
          if start < origEb.start ∨
              origEb.start + origEb.data.length <
                start + stripeLen then
            match rmwEb info disk start stripeLen origEb with
            | .error _ => .error .bug
            | .ok data => .ok data
          else
            .ok ((origEb.data.drop
              (start - origEb.start)).take stripeLen)
        match eb with
        | .error e => .error e
        | .ok eb =>
            match splitEbForRaid56 info disk origEb stripeLen
                raidMap with
            | .error e => .error e
            | .ok ebs => .ok (eb :: ebs)

/- The exclusive or of byte `d` of every stripe. -/
def xorByte
    (ebs : List (List UInt8))
    (d : Nat) : UInt8 :=
  ebs.foldr (fun eb wp => wp ^^^ eb.getD d 0) 0

/- `SHLBYTE`, `MASK` and the reduction by `0x1d`. -/
def shlByte
    (w : UInt8) : UInt8 :=
  (w <<< 1) ^^^ (if 128 ≤ w then 0x1d else 0)

/- The syndrome of byte `d`, highest data stripe first. -/
def syndromeByte
    (ebs : List (List UInt8))
    (d : Nat) : UInt8 :=
  ebs.foldr (fun eb wq => shlByte wq ^^^ eb.getD d 0) 0

/- `raid6_gen_syndrome`, which fills P and Q. -/
def raid6GenSyndrome
    (stripeLen : Nat)
    (ebs : List (List UInt8)) : List (List UInt8) :=
  [(List.range stripeLen).map (xorByte ebs),
    (List.range stripeLen).map (syndromeByte ebs)]

/- The parity stripes of `write_raid56_with_parity`. -/
def parityEbs
    (stripeLen : Nat)
    (raidMap : List Nat)
    (ebs : List (List UInt8)) : List (List UInt8) :=
  if RAID6_Q_STRIPE ∈ raidMap then
    raid6GenSyndrome stripeLen ebs
  else
    [(List.range stripeLen).map (xorByte ebs)]

/- `write_raid56_with_parity`. -/
def writeRaid56WithParity
    (info : FsInfo)
    (disk : Disk)
    (eb : ExtentBuffer)
    (stripes : List BioStripe)
    (stripeLen : Nat)
    (raidMap : List Nat) : Except Stop Disk :=
  match splitEbForRaid56 info disk eb stripeLen raidMap with
  | .error e => .error e
  | .ok ebs =>
      .ok (ByteStore.writeAll disk
        ((stripes.zip
          (ebs ++ parityEbs stripeLen raidMap ebs)).map
            fun p => ⟨p.1.dev, p.1.physical, p.2⟩))

----------
-- Writing
----------

/-
  The loop of `write_data_to_disk`; `buf` is what is left of
  the buffer.
-/
def writeLoop
    (info : FsInfo)
    (mirror : Nat) :
    Nat → Disk → List UInt8 → Nat → Except Stop Disk
  | _, disk, [], _ => .ok disk
  | 0, _, _ :: _, _ => .error .bug
  | fuel + 1, disk, b :: bs, offset =>
      let buf := b :: bs
      match mapBlock info.mappingTree .WRITE offset mirror
          true with
      | .error e => .error (mapError e)
      | .ok r =>
          match r.raidMap with
          | some raidMap =>
              let stripeLen := r.length
              let thisLen := min r.length buf.length
              let thisLen := min thisLen info.leafsize
              match writeRaid56WithParity info disk
                  ⟨offset, buf.take thisLen⟩ r.stripes
                  stripeLen raidMap with
              | .error _ => .error .bug
              | .ok disk =>
                  writeLoop info mirror fuel disk
                    (buf.drop thisLen) (offset + thisLen)
          | none =>
              let thisLen := min r.length buf.length
              let disk :=
                ByteStore.writeAll disk
                  (r.stripes.map fun s =>
                    ⟨s.dev, s.physical, buf.take thisLen⟩)
              writeLoop info mirror fuel disk
                (buf.drop thisLen) (offset + thisLen)

/- `write_data_to_disk`; `bytes` is the buffer's length. -/
def writeDataToDisk
    (info : FsInfo)
    (disk : Disk)
    (buf : List UInt8)
    (offset mirror : Nat) : Except Stop Disk :=
  writeLoop info mirror buf.length disk buf offset

end Volumes

end BtrfsProgs
