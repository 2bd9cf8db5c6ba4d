import BtrfsProgs.Send.Contained

/-
  The wire format of `send.h`, as a stream is written.

  Main declarations:
    * `encodeTlv`, `encodeCmd` and `encodeStream`
    * `SendOp.attrs` and `SendOp.WellFormed`
    * `Command`
-/

----------
-- Headers and TLVs
----------

namespace BtrfsProgs

namespace Send

open LittleEndian

/- An attribute: its number and its bytes. -/
abbrev Tlv : Type := Nat × List UInt8

/- `struct btrfs_tlv_header` and the data. -/
def encodeTlv
    (tlv : Tlv) : List UInt8 :=
  encode 2 tlv.1 ++ encode 2 tlv.2.length ++ tlv.2

/- The attributes of a command. -/
def encodePayload
    (tlvs : List Tlv) : List UInt8 :=
  tlvs.flatMap encodeTlv

/-
  `struct btrfs_cmd_header` and the attributes; the checksum
  is that of the command with a checksum of zero.
-/
def encodeCmd
    (cmd : Nat)
    (tlvs : List Tlv) : List UInt8 :=
  let payload := encodePayload tlvs
  let start := encode 4 payload.length ++ encode 2 cmd
  let crc := crc32c 0 (start ++ [0, 0, 0, 0] ++ payload)
  start ++ encode 4 crc.toNat ++ payload

----------
-- Commands
----------

/- The number of the command that makes a call. -/
def SendOp.code : SendOp → Nat
  | .subvol .. => 1
  | .snapshot .. => 2
  | .mkfile .. => 3
  | .mkdir .. => 4
  | .mknod .. => 5
  | .mkfifo .. => 6
  | .mksock .. => 7
  | .symlink .. => 8
  | .rename .. => 9
  | .link .. => 10
  | .unlink .. => 11
  | .rmdir .. => 12
  | .setXattr .. => 13
  | .removeXattr .. => 14
  | .write .. => 15
  | .clone .. => 16
  | .truncate .. => 17
  | .chmod .. => 18
  | .chown .. => 19
  | .utimes .. => 20
  | .updateExtent .. => 22

/- A `u64` attribute. -/
def u64Attr
    (attr : Attr)
    (v : Nat) : Attr × List UInt8 :=
  (attr, encode 8 v)

/- A `struct btrfs_timespec` attribute. -/
def timeAttr
    (attr : Attr)
    (time : Timespec) : Attr × List UInt8 :=
  (attr, encode 8 time.sec ++ encode 4 time.nsec)

/- The attributes of a command and their bytes. -/
def SendOp.attrs : SendOp → List (Attr × List UInt8)
  | .subvol path uuid ctransid =>
      [(.path, path), (.uuid, uuid),
        u64Attr .ctransid ctransid]
  | .snapshot path uuid ctransid cloneUuid cloneCtransid =>
      [(.path, path), (.uuid, uuid),
        u64Attr .ctransid ctransid, (.cloneUuid, cloneUuid),
        u64Attr .cloneCtransid cloneCtransid]
  | .mkfile path => [(.path, path)]
  | .mkdir path => [(.path, path)]
  | .mknod path mode dev =>
      [(.path, path), u64Attr .mode mode, u64Attr .rdev dev]
  | .mkfifo path => [(.path, path)]
  | .mksock path => [(.path, path)]
  | .symlink path lnk => [(.path, path), (.pathLink, lnk)]
  | .rename path pathTo => [(.path, path), (.pathTo, pathTo)]
  | .link path lnk => [(.path, path), (.pathLink, lnk)]
  | .unlink path => [(.path, path)]
  | .rmdir path => [(.path, path)]
  | .write path data offset _ =>
      [(.path, path), u64Attr .fileOffset offset,
        (.data, data)]
  | .clone path offset len cloneUuid cloneCtransid clonePath
      cloneOffset =>
      [(.path, path), u64Attr .fileOffset offset,
        u64Attr .cloneLen len, (.cloneUuid, cloneUuid),
        u64Attr .cloneCtransid cloneCtransid,
        (.clonePath, clonePath),
        u64Attr .cloneOffset cloneOffset]
  | .setXattr path name data =>
      [(.path, path), (.xattrName, name), (.xattrData, data)]
  | .removeXattr path name =>
      [(.path, path), (.xattrName, name)]
  | .truncate path size => [(.path, path), u64Attr .size size]
  | .chmod path mode => [(.path, path), u64Attr .mode mode]
  | .chown path uid gid =>
      [(.path, path), u64Attr .uid uid, u64Attr .gid gid]
  | .utimes path at_ mt ct =>
      [(.path, path), timeAttr .atime at_,
        timeAttr .mtime mt, timeAttr .ctime ct]
  | .updateExtent path offset len =>
      [(.path, path), u64Attr .fileOffset offset,
        u64Attr .size len]

/- A path or a name has no zero byte. -/
def IsName
    (bytes : List UInt8) : Prop :=
  ∀ b ∈ bytes, b ≠ 0

/- A uuid has 16 bytes. -/
def IsUuid
    (bytes : List UInt8) : Prop :=
  bytes.length = 16

/- A `u64`. -/
def IsU64
    (v : Nat) : Prop :=
  v < 2 ^ 64

/- A `u64` of seconds and a `u32` of nanoseconds. -/
def Timespec.WellFormed
    (time : Timespec) : Prop :=
  IsU64 time.sec ∧ time.nsec < 2 ^ 32

/- The values are in the range of their wire types. -/
def SendOp.WellFormed : SendOp → Prop
  | .subvol path uuid ctransid =>
      IsName path ∧ IsUuid uuid ∧ IsU64 ctransid
  | .snapshot path uuid ctransid cloneUuid cloneCtransid =>
      IsName path ∧ IsUuid uuid ∧ IsU64 ctransid ∧
        IsUuid cloneUuid ∧ IsU64 cloneCtransid
  | .mkfile path => IsName path
  | .mkdir path => IsName path
  | .mknod path mode dev =>
      IsName path ∧ IsU64 mode ∧ IsU64 dev
  | .mkfifo path => IsName path
  | .mksock path => IsName path
  | .symlink path lnk => IsName path ∧ IsName lnk
  | .rename path pathTo => IsName path ∧ IsName pathTo
  | .link path lnk => IsName path ∧ IsName lnk
  | .unlink path => IsName path
  | .rmdir path => IsName path
  | .write path data offset len =>
      IsName path ∧ IsU64 offset ∧ len = data.length
  | .clone path offset len cloneUuid cloneCtransid clonePath
      cloneOffset =>
      IsName path ∧ IsU64 offset ∧ IsU64 len ∧
        IsUuid cloneUuid ∧ IsU64 cloneCtransid ∧
        IsName clonePath ∧ IsU64 cloneOffset
  | .setXattr path name _ => IsName path ∧ IsName name
  | .removeXattr path name => IsName path ∧ IsName name
  | .truncate path size => IsName path ∧ IsU64 size
  | .chmod path mode => IsName path ∧ IsU64 mode
  | .chown path uid gid =>
      IsName path ∧ IsU64 uid ∧ IsU64 gid
  | .utimes path at_ mt ct =>
      IsName path ∧ at_.WellFormed ∧ mt.WellFormed ∧
        ct.WellFormed
  | .updateExtent path offset len =>
      IsName path ∧ IsU64 offset ∧ IsU64 len

/-
  A command of a stream: its attributes stand in any order,
  each once, and there may be others that the call does not
  need, such as the inode number.
-/
structure Command where
  op : SendOp
  wellFormed : op.WellFormed
  tlvs : List Tlv
  nodup : (tlvs.map Prod.fst).Nodup
  types : ∀ tlv ∈ tlvs, 0 < tlv.1 ∧ tlv.1 ≤ SEND_A_MAX
  sizes : ∀ tlv ∈ tlvs, tlv.2.length < 2 ^ 16
  complete : ∀ a ∈ op.attrs, (a.1.code, a.2) ∈ tlvs

/- `BTRFS_SEND_C_END`. -/
def SEND_C_END : Nat := 21

def Command.encode
    (c : Command) : List UInt8 :=
  encodeCmd c.op.code c.tlvs

/- A stream: the header, the commands, and the end. -/
def encodeStream
    (version : Nat)
    (commands : List Command) : List UInt8 :=
  SEND_STREAM_MAGIC ++ LittleEndian.encode 4 version ++
    commands.flatMap Command.encode ++
    encodeCmd SEND_C_END []

end Send

end BtrfsProgs
