import BtrfsProgs.Basic
import BtrfsProgs.Crc32c
import BtrfsProgs.Lib.LittleEndian

/-
  Reading a send stream, from `send-stream.c`.

  The file is the list of bytes still to be read.  A pointer
  into `read_buf` is its index.  An access outside `read_buf`
  is `Stop.bug`.

  Main declarations:
    * `SendStream` and `readCmd`
    * `tlvGet`
    * `SendOp` and `processCmd`
    * `readAndProcessSendStream`
-/

----------
-- Constants
----------

namespace BtrfsProgs

namespace Send

/- `BTRFS_SEND_STREAM_MAGIC` with its final zero byte. -/
def SEND_STREAM_MAGIC : List UInt8 :=
  [98, 116, 114, 102, 115, 45, 115, 116, 114, 101, 97, 109, 0]

/- `BTRFS_SEND_STREAM_VERSION`. -/
def SEND_STREAM_VERSION : Nat := 1

/- `BTRFS_SEND_BUF_SIZE`. -/
def SEND_BUF_SIZE : Nat := 65536

/- `sizeof(struct btrfs_cmd_header)`. -/
def CMD_HEADER_SIZE : Nat := 10

/- `sizeof(struct btrfs_tlv_header)`. -/
def TLV_HEADER_SIZE : Nat := 4

/- `BTRFS_SEND_A_MAX`. -/
def SEND_A_MAX : Nat := 24

/- The attributes that commands ask for. -/
inductive Attr where
  | uuid
  | ctransid
  | size
  | mode
  | uid
  | gid
  | rdev
  | ctime
  | mtime
  | atime
  | xattrName
  | xattrData
  | path
  | pathTo
  | pathLink
  | fileOffset
  | data
  | cloneUuid
  | cloneCtransid
  | clonePath
  | cloneOffset
  | cloneLen
deriving Repr, DecidableEq

/- The numbers of the attributes. -/
def Attr.code : Attr → Nat
  | uuid => 1
  | ctransid => 2
  | size => 4
  | mode => 5
  | uid => 6
  | gid => 7
  | rdev => 8
  | ctime => 9
  | mtime => 10
  | atime => 11
  | xattrName => 13
  | xattrData => 14
  | path => 15
  | pathTo => 16
  | pathLink => 17
  | fileOffset => 18
  | data => 19
  | cloneUuid => 20
  | cloneCtransid => 21
  | clonePath => 22
  | cloneOffset => 23
  | cloneLen => 24

----------
-- Reading a Command
----------

/-
  `struct btrfs_send_stream`, less the file and the callbacks.
  An attribute is the index of its header in the buffer.
-/
structure SendStream where
  buf : List UInt8
  attrs : Nat → Option Nat
  cmd : Nat

/- The number at a place of the buffer. -/
def leAt
    (buf : List UInt8)
    (place width : Nat) : Nat :=
  LittleEndian.decode ((buf.drop place).take width)

/-
  `read_buf` into `s->read_buf`, as `read_cmd` takes its
  result: the new buffer and what is left of the file.
-/
def readBuf
    (buf : List UInt8)
    (place len : Nat)
    (file : List UInt8) :
    Except Stop (List UInt8 × List UInt8) :=
  let got := file.take len
  if SEND_BUF_SIZE < place + got.length then
    .error .bug
  else if got.length < len then
    .error (.err .einval)
  else
    .ok (buf.take place ++ got ++
      buf.drop (place + got.length), file.drop len)

/- A `u32` stored in an `int`. -/
def toInt
    (v : Nat) : Int :=
  if v < 2 ^ 31 then v else (v : Int) - 2 ^ 32

/- `s->cmd_hdr->crc = 0`. -/
def clearCrc
    (buf : List UInt8) : List UInt8 :=
  buf.take 6 ++ [0, 0, 0, 0] ++ buf.drop 10

/- The size that `crc32c` is called with, a `size_t`. -/
def crcLen
    (cmdLen : Int) : Nat :=
  ((CMD_HEADER_SIZE : Int) + cmdLen) % 2 ^ 64 |>.toNat

/-
  The loop of `read_cmd` over the TLVs; every turn moves on by
  at least a header.
-/
def tlvLoop
    (buf : List UInt8)
    (cmdLen : Int) :
    Nat → Nat → (Nat → Option Nat) →
      Except Stop (Nat → Option Nat)
  | 0, _, attrs => .ok attrs
  | fuel + 1, pos, attrs =>
      if cmdLen ≤ pos then
        .ok attrs
      else
        let hdr := CMD_HEADER_SIZE + pos
        if SEND_BUF_SIZE < hdr + TLV_HEADER_SIZE then
          .error .bug
        else
          let type := leAt buf hdr 2
          let len := leAt buf (hdr + 2) 2
          if type = 0 ∨ SEND_A_MAX < type ∨
              SEND_BUF_SIZE < len then
            .error (.err .einval)
          else
            tlvLoop buf cmdLen fuel
              (pos + TLV_HEADER_SIZE + len)
              (Function.update attrs type (some hdr))

/-
  `read_cmd`: the stream with the command, its length, and
  what is left of the file.
-/
def readCmd
    (s : SendStream)
    (file : List UInt8) :
    Except Stop (SendStream × Int × List UInt8) := do
  let (buf, file) ← readBuf s.buf 0 CMD_HEADER_SIZE file
  let cmdLen := toInt (leAt buf 0 4)
  let cmd := leAt buf 4 2
  let (buf, file) ←
    readBuf buf CMD_HEADER_SIZE cmdLen.toNat file
  let crc := leAt buf 6 4
  let buf := clearCrc buf
  if SEND_BUF_SIZE < crcLen cmdLen then
    .error .bug
  else if crc ≠ (crc32c 0 (buf.take (crcLen cmdLen))).toNat then
    .error (.err .einval)
  else do
    let attrs ←
      tlvLoop buf cmdLen cmdLen.toNat 0 fun _ => none
    .ok (⟨buf, attrs, cmd⟩, cmdLen, file)

----------
-- Attributes
----------

/- `tlv_get`: where the data is, and its length. -/
def tlvGet
    (s : SendStream)
    (attr : Nat) : Except Stop (Nat × Nat) :=
  if attr = 0 ∨ SEND_A_MAX < attr then
    .error (.err .einval)
  else
    match s.attrs attr with
    | none => .error (.err .enoent)
    | some hdr =>
        .ok (hdr + TLV_HEADER_SIZE, leAt s.buf (hdr + 2) 2)

/- Reading the data of an attribute. -/
def tlvBytes
    (s : SendStream)
    (attr : Attr) : Except Stop (List UInt8) := do
  let (place, len) ← tlvGet s attr.code
  if SEND_BUF_SIZE < place + len then
    .error .bug
  else
    .ok ((s.buf.drop place).take len)

/- `TLV_CHECK_LEN`, and then the data. -/
def tlvSized
    (s : SendStream)
    (attr : Attr)
    (expected : Nat) : Except Stop (List UInt8) := do
  let (_, len) ← tlvGet s attr.code
  if expected ≠ len then
    .error (.err .einval)
  else
    tlvBytes s attr

/- `TLV_GET_U64`, before the value is stored. -/
def tlvGetU64
    (s : SendStream)
    (attr : Attr) : Except Stop Nat := do
  let bytes ← tlvSized s attr 8
  .ok (LittleEndian.decode bytes)

/- `TLV_GET_U64` into an `int`, which is a `u64` again later. -/
def tlvGetU64AsInt
    (s : SendStream)
    (attr : Attr) : Except Stop Nat := do
  let v ← tlvGetU64 s attr
  .ok (toInt (v % 2 ^ 32) % 2 ^ 64).toNat

/- A C string ends at its first zero byte. -/
def cString
    (bytes : List UInt8) : List UInt8 :=
  bytes.takeWhile (· ≠ 0)

/- `tlv_get_string`. -/
def tlvGetString
    (s : SendStream)
    (attr : Attr) : Except Stop (List UInt8) := do
  let bytes ← tlvBytes s attr
  .ok (cString bytes)

/- `struct timespec`. -/
structure Timespec where
  sec : Nat
  nsec : Nat
deriving Repr, DecidableEq

/- `tlv_get_timespec`. -/
def tlvGetTimespec
    (s : SendStream)
    (attr : Attr) : Except Stop Timespec := do
  let bytes ← tlvSized s attr 12
  .ok ⟨LittleEndian.decode (bytes.take 8),
    LittleEndian.decode (bytes.drop 8)⟩

/- `tlv_get_uuid`. -/
def tlvGetUuid
    (s : SendStream)
    (attr : Attr) : Except Stop (List UInt8) :=
  tlvSized s attr 16

----------
-- Commands
----------

/- A call of one of the `struct btrfs_send_ops`. -/
inductive SendOp where
  | subvol (path uuid : List UInt8) (ctransid : Nat)
  | snapshot
      (path uuid : List UInt8) (ctransid : Nat)
      (cloneUuid : List UInt8) (cloneCtransid : Nat)
  | mkfile (path : List UInt8)
  | mkdir (path : List UInt8)
  | mknod (path : List UInt8) (mode dev : Nat)
  | mkfifo (path : List UInt8)
  | mksock (path : List UInt8)
  | symlink (path lnk : List UInt8)
  | rename (path pathTo : List UInt8)
  | link (path lnk : List UInt8)
  | unlink (path : List UInt8)
  | rmdir (path : List UInt8)
  | write (path data : List UInt8) (offset len : Nat)
  | clone
      (path : List UInt8) (offset len : Nat)
      (cloneUuid : List UInt8) (cloneCtransid : Nat)
      (clonePath : List UInt8) (cloneOffset : Nat)
  | setXattr (path name data : List UInt8)
  | removeXattr (path name : List UInt8)
  | truncate (path : List UInt8) (size : Nat)
  | chmod (path : List UInt8) (mode : Nat)
  | chown (path : List UInt8) (uid gid : Nat)
  | utimes (path : List UInt8) (at_ mt ct : Timespec)
  | updateExtent (path : List UInt8) (offset len : Nat)
deriving Repr, DecidableEq

/- What a command comes to. -/
inductive Parsed where
  | op (op : SendOp)
  | finish
  | nothing
deriving Repr, DecidableEq

/-
  The `switch` of `read_and_process_cmd`, up to the callback.
  A number that is no command does nothing.
-/
def processCmd
    (s : SendStream) : Except Stop Parsed :=
  match s.cmd with
  | 1 => do
      let path ← tlvGetString s .path
      let uuid ← tlvGetUuid s .uuid
      let ctransid ← tlvGetU64 s .ctransid
      .ok (.op (.subvol path uuid ctransid))
  | 2 => do
      let path ← tlvGetString s .path
      let uuid ← tlvGetUuid s .uuid
      let ctransid ← tlvGetU64 s .ctransid
      let cloneUuid ← tlvGetUuid s .cloneUuid
      let cloneCtransid ← tlvGetU64 s .cloneCtransid
      .ok (.op (.snapshot path uuid ctransid cloneUuid
        cloneCtransid))
  | 3 => do
      let path ← tlvGetString s .path
      .ok (.op (.mkfile path))
  | 4 => do
      let path ← tlvGetString s .path
      .ok (.op (.mkdir path))
  | 5 => do
      let path ← tlvGetString s .path
      let mode ← tlvGetU64 s .mode
      let dev ← tlvGetU64 s .rdev
      .ok (.op (.mknod path mode dev))
  | 6 => do
      let path ← tlvGetString s .path
      .ok (.op (.mkfifo path))
  | 7 => do
      let path ← tlvGetString s .path
      .ok (.op (.mksock path))
  | 8 => do
      let path ← tlvGetString s .path
      let pathTo ← tlvGetString s .pathLink
      .ok (.op (.symlink path pathTo))
  | 9 => do
      let path ← tlvGetString s .path
      let pathTo ← tlvGetString s .pathTo
      .ok (.op (.rename path pathTo))
  | 10 => do
      let path ← tlvGetString s .path
      let pathTo ← tlvGetString s .pathLink
      .ok (.op (.link path pathTo))
  | 11 => do
      let path ← tlvGetString s .path
      .ok (.op (.unlink path))
  | 12 => do
      let path ← tlvGetString s .path
      .ok (.op (.rmdir path))
  | 13 => do
      let path ← tlvGetString s .path
      let name ← tlvGetString s .xattrName
      let data ← tlvBytes s .xattrData
      .ok (.op (.setXattr path name data))
  | 14 => do
      let path ← tlvGetString s .path
      let name ← tlvGetString s .xattrName
      .ok (.op (.removeXattr path name))
  | 15 => do
      let path ← tlvGetString s .path
      let offset ← tlvGetU64 s .fileOffset
      let data ← tlvBytes s .data
      .ok (.op (.write path data offset data.length))
  | 16 => do
      let path ← tlvGetString s .path
      let offset ← tlvGetU64 s .fileOffset
      let len ← tlvGetU64AsInt s .cloneLen
      let cloneUuid ← tlvGetUuid s .cloneUuid
      let cloneCtransid ← tlvGetU64 s .cloneCtransid
      let clonePath ← tlvGetString s .clonePath
      let cloneOffset ← tlvGetU64 s .cloneOffset
      .ok (.op (.clone path offset len cloneUuid cloneCtransid
        clonePath cloneOffset))
  | 17 => do
      let path ← tlvGetString s .path
      let size ← tlvGetU64 s .size
      .ok (.op (.truncate path size))
  | 18 => do
      let path ← tlvGetString s .path
      let mode ← tlvGetU64 s .mode
      .ok (.op (.chmod path mode))
  | 19 => do
      let path ← tlvGetString s .path
      let uid ← tlvGetU64 s .uid
      let gid ← tlvGetU64 s .gid
      .ok (.op (.chown path uid gid))
  | 20 => do
      let path ← tlvGetString s .path
      let at_ ← tlvGetTimespec s .atime
      let mt ← tlvGetTimespec s .mtime
      let ct ← tlvGetTimespec s .ctime
      .ok (.op (.utimes path at_ mt ct))
  | 21 => .ok .finish
  | 22 => do
      let path ← tlvGetString s .path
      let offset ← tlvGetU64 s .fileOffset
      let size ← tlvGetU64 s .size
      .ok (.op (.updateExtent path offset size))
  | _ => .ok .nothing

/- `read_and_process_cmd`, up to the callback. -/
def readAndProcessCmd
    (s : SendStream)
    (file : List UInt8) :
    Except Stop (SendStream × Parsed × List UInt8) := do
  let (s, _, file) ← readCmd s file
  let parsed ← processCmd s
  .ok (s, parsed, file)

----------
-- The Stream
----------

section Callbacks

variable {User : Type}

/- The callbacks: a return value and what `user` becomes. -/
abbrev SendOps (User : Type) : Type :=
  User → SendOp → Int × User

/- The callbacks that were called, and the return value. -/
structure Processed where
  calls : List SendOp
  result : Except Stop Int

/- The return value at the end of a stream. -/
def endResult
    (honorEndCmd : Bool)
    (ret : Int) : Int :=
  if honorEndCmd then ret else 0

/-
  The loop of `btrfs_read_and_process_send_stream`; every
  command is at least a header.
-/
def processLoop
    (ops : SendOps User)
    (honorEndCmd : Bool) :
    Nat → SendStream → List UInt8 → User → Processed
  | 0, _, _, _ => ⟨[], .error (.err .einval)⟩
  | fuel + 1, s, file, user =>
      match readAndProcessCmd s file with
      | .error stop => ⟨[], .error stop⟩
      | .ok (_, .finish, _) =>
          ⟨[], .ok (endResult honorEndCmd 1)⟩
      | .ok (s, .nothing, file) =>
          processLoop ops honorEndCmd fuel s file user
      | .ok (s, .op op, file) =>
          let (ret, user) := ops user op
          if ret < 0 then
            ⟨[op], .ok ret⟩
          else if 0 < ret then
            ⟨[op], .ok (endResult honorEndCmd ret)⟩
          else
            let rest :=
              processLoop ops honorEndCmd fuel s file user
            ⟨op :: rest.calls, rest.result⟩

/- `sizeof(struct btrfs_stream_header)`. -/
def STREAM_HEADER_SIZE : Nat := 17

/-
  `btrfs_read_and_process_send_stream`.  The buffer is on the
  stack and holds what was there before.
-/
def readAndProcessSendStream
    (ops : SendOps User)
    (honorEndCmd : Bool)
    (buf : List UInt8)
    (file : List UInt8)
    (user : User) : Processed :=
  let hdr := file.take STREAM_HEADER_SIZE
  let file := file.drop STREAM_HEADER_SIZE
  if hdr.length < STREAM_HEADER_SIZE then
    ⟨[], .ok 1⟩
  else if hdr.take 13 ≠ SEND_STREAM_MAGIC then
    ⟨[], .error (.err .einval)⟩
  else if SEND_STREAM_VERSION < leAt hdr 13 4 then
    ⟨[], .error (.err .einval)⟩
  else
    processLoop ops honorEndCmd (file.length + 1)
      ⟨buf, fun _ => none, 0⟩ file user

end Callbacks

end Send

end BtrfsProgs
