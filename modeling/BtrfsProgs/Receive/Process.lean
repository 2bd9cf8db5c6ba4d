import BtrfsProgs.Send.Stream

/-
  The callbacks of `cmds-receive.c` and the loop of
  `do_receive`, over a file system that is a parameter.

  Main declarations:
    * `Vfs`
    * `pathCat` and `pathCat3`
    * `finishSubvol`, `openInodeForWrite` and `processOp`
    * `doReceive`
-/

----------
-- The File System
----------

namespace BtrfsProgs

namespace Receive

open Send

/- A C string, without its final zero byte. -/
abbrev Path : Type := List UInt8

/- `struct subvol_info`, as far as it is used. -/
structure SubvolInfo where
  path : Path
  receivedUuid : List UInt8
  stransid : Nat
deriving Repr, DecidableEq

/-
  The system calls. A handle is what a path denotes when it is
  opened; `searchReceived` is `subvol_uuid_search`.
-/
structure Vfs (S H : Type) where
  openat : S → Path → Except Errno H
  openRdonly : S → Path → Except Errno H
  openRdwr : S → Path → Except Errno H
  setReceived :
    S → H → List UInt8 → Nat → Except Errno S
  getFlags : S → H → Except Errno Nat
  setFlags : S → H → Nat → Except Errno S
  searchReceived : S → List UInt8 → Nat → Option Path
  subvolCreate : S → Path → Except Errno S
  snapCreate : S → Path → H → Except Errno S
  pwrite :
    S → H → List UInt8 → Nat → Except Errno (Nat × S)
  cloneRange :
    S → H → H → Nat → Nat → Nat → Except Errno S
  creat : S → Path → Except Errno S
  mkdir : S → Path → Except Errno S
  mknod : S → Path → Nat → Nat → Except Errno S
  mkfifo : S → Path → Except Errno S
  symlink : S → List UInt8 → Path → Except Errno S
  rename : S → Path → Path → Except Errno S
  link : S → Path → Path → Except Errno S
  unlink : S → Path → Except Errno S
  rmdir : S → Path → Except Errno S
  setxattr :
    S → Path → List UInt8 → List UInt8 → Except Errno S
  removexattr : S → Path → List UInt8 → Except Errno S
  truncate : S → Path → Nat → Except Errno S
  chmod : S → Path → Nat → Except Errno S
  lchown : S → Path → Nat → Nat → Except Errno S
  utimens : S → Path → Timespec → Timespec → Except Errno S

----------
-- Paths
----------

def SLASH : UInt8 := 47

/- A path without one slash at its end. -/
def trimSlash
    (p : Path) : Path :=
  if p.getLast? = some SLASH then p.dropLast else p

/- `path_cat`. -/
def pathCat
    (p1 p2 : Path) : Path :=
  trimSlash p1 ++ SLASH :: trimSlash p2

/- `path_cat3`. -/
def pathCat3
    (p1 p2 p3 : Path) : Path :=
  trimSlash p1 ++ SLASH :: (trimSlash p2 ++
    SLASH :: trimSlash p3)

----------
-- The State
----------

/- `struct btrfs_receive`; `none` is `NULL` or no handle. -/
structure BtrfsReceive (H : Type) where
  writeFd : Option H
  writePath : Path
  rootPath : Path
  destDirPath : Path
  fullSubvolPath : Option Path
  curSubvol : Option SubvolInfo

/- What a run does, for the reader of the model. -/
inductive Event where
  | started (sub : SubvolInfo) (full : Path)
  | file (base : Path)
  | finished (sub : SubvolInfo)
deriving Repr, DecidableEq

structure World (S H : Type) where
  fs : S
  r : BtrfsReceive H
  log : List Event

/- A return value and what is left of the world. -/
abbrev Ret (S H : Type) : Type :=
  Except Stop Unit × World S H

section Calls

variable {S H : Type}

def World.note
    (w : World S H)
    (e : Event) : World S H :=
  { w with log := w.log ++ [e] }

/- Go on if there was no error. -/
def Ret.andThen
    (ret : Ret S H)
    (next : World S H → Ret S H) : Ret S H :=
  match ret.1 with
  | .ok () => next ret.2
  | .error stop => (.error stop, ret.2)

/- The end of a callback whose last call changes the files. -/
def finishCall
    (w : World S H)
    (result : Except Errno S) : Ret S H :=
  match result with
  | .ok fs => (.ok (), { w with fs := fs })
  | .error e => (.error (.err e), w)

variable (V : Vfs S H)

----------
-- Subvolumes
----------

/- `BTRFS_SUBVOL_RDONLY`. -/
def SUBVOL_RDONLY : Nat := 2

/- `finish_subvol`. The subvolume is forgotten in any case. -/
def finishSubvol
    (w : World S H) : Ret S H :=
  match w.r.curSubvol with
  | none => (.ok (), w)
  | some sub =>
      let out := { w with
        r := { w.r with curSubvol := none } }
      match V.openat w.fs sub.path with
      | .error e => (.error (.err e), out)
      | .ok fd =>
          match V.setReceived w.fs fd sub.receivedUuid
              sub.stransid with
          | .error e => (.error (.err e), out)
          | .ok fs =>
              match V.getFlags fs fd with
              | .error e =>
                  (.error (.err e), { out with fs := fs })
              | .ok flags =>
                  match V.setFlags fs fd
                      (flags ||| SUBVOL_RDONLY) with
                  | .error e =>
                      (.error (.err e), { out with fs := fs })
                  | .ok fs =>
                      (.ok (), World.note
                        { out with fs := fs } (.finished sub))

/- The subvolume that a command starts. -/
def startSubvol
    (path uuid : List UInt8)
    (ctransid : Nat)
    (w : World S H) : World S H :=
  let sub : SubvolInfo :=
    { path :=
        if w.r.destDirPath = [] then path
        else pathCat w.r.destDirPath path
      receivedUuid := uuid
      stransid := ctransid }
  let full := pathCat3 w.r.rootPath w.r.destDirPath path
  World.note { w with
    r := { w.r with
      curSubvol := some sub
      fullSubvolPath := some full } } (.started sub full)

/- `BTRFS_PATH_NAME_MAX` and `BTRFS_SUBVOL_NAME_MAX`. -/
def PATH_NAME_MAX : Nat := 4087

def SUBVOL_NAME_MAX : Nat := 4039

/- `process_subvol`. -/
def processSubvol
    (path uuid : List UInt8)
    (ctransid : Nat)
    (w : World S H) : Ret S H :=
  (finishSubvol V w).andThen fun w =>
    let w := startSubvol path uuid ctransid w
    finishCall w
      (V.subvolCreate w.fs (path.take PATH_NAME_MAX))

/- `process_snapshot`. -/
def processSnapshot
    (path uuid : List UInt8)
    (ctransid : Nat)
    (parentUuid : List UInt8)
    (parentCtransid : Nat)
    (w : World S H) : Ret S H :=
  (finishSubvol V w).andThen fun w =>
    let w := startSubvol path uuid ctransid w
    match V.searchReceived w.fs parentUuid parentCtransid with
    | none => (.error (.err .enoent), w)
    | some parent =>
        match V.openat w.fs parent with
        | .error e => (.error (.err e), w)
        | .ok fd =>
            finishCall w (V.snapCreate w.fs
              (path.take SUBVOL_NAME_MAX) fd)

----------
-- Files
----------

/-
  A callback that makes the path of a file under the current
  subvolume. Without one, `strlen` is called with `NULL`.
-/
def underSubvol
    (w : World S H)
    (call : Path → World S H → Ret S H) : Ret S H :=
  match w.r.fullSubvolPath with
  | none => (.error .bug, w)
  | some base => call base (w.note (.file base))

/- A callback that is one call for one path. -/
def fileCall
    (call : S → Path → Except Errno S)
    (path : Path)
    (w : World S H) : Ret S H :=
  underSubvol w fun base w =>
    finishCall w (call w.fs (pathCat base path))

/- A callback that is one call for two paths. -/
def fileCall2
    (call : S → Path → Path → Except Errno S)
    (path path2 : Path)
    (w : World S H) : Ret S H :=
  underSubvol w fun base w =>
    finishCall w (call w.fs (pathCat base path)
      (pathCat base path2))

/- `open_inode_for_write`. -/
def openInodeForWrite
    (path : Path)
    (w : World S H) : Except Errno H × World S H :=
  match w.r.writeFd with
  | some fd =>
      if w.r.writePath = path then (.ok fd, w)
      else
        match V.openRdwr w.fs path with
        | .error e => (.error e, { w with
            r := { w.r with writeFd := none } })
        | .ok fd => (.ok fd, { w with
            r := { w.r with
              writeFd := some fd
              writePath := path } })
  | none =>
      match V.openRdwr w.fs path with
      | .error e => (.error e, w)
      | .ok fd => (.ok fd, { w with
          r := { w.r with
            writeFd := some fd
            writePath := path } })

/- `close_inode_for_write`. -/
def closeInodeForWrite
    (w : World S H) : World S H :=
  match w.r.writeFd with
  | none => w
  | some _ => { w with
      r := { w.r with writeFd := none, writePath := [] } }

/-
  The loop of `process_write`. Each call writes some bytes; a
  call that writes none is tried for ever, here without an
  end.
-/
def writeLoop
    (fd : H)
    (w : World S H) : Nat → List UInt8 → Nat → Ret S H
  | 0, [], _ => (.ok (), w)
  | 0, _ :: _, _ => (.error (.err .eagain), w)
  | _ + 1, [], _ => (.ok (), w)
  | fuel + 1, data, offset =>
      match V.pwrite w.fs fd data offset with
      | .error e => (.error (.err e), w)
      | .ok (n, fs) =>
          writeLoop fd { w with fs := fs } fuel
            (data.drop n) (offset + n)

/- How a file is opened for `process_write`. -/
abbrev Opener (S H : Type) : Type :=
  Path → World S H → Except Errno H × World S H

/- `process_write`. -/
def processWrite
    (opener : Opener S H)
    (path data : List UInt8)
    (offset : Nat)
    (w : World S H) : Ret S H :=
  underSubvol w fun base w =>
    match opener (pathCat base path) w with
    | (.error e, w) => (.error (.err e), w)
    | (.ok fd, w) => writeLoop V fd w data.length data offset

/- `process_clone`. -/
def processClone
    (opener : Opener S H)
    (path : Path)
    (offset len : Nat)
    (cloneUuid : List UInt8)
    (cloneCtransid : Nat)
    (clonePath : Path)
    (cloneOffset : Nat)
    (w : World S H) : Ret S H :=
  underSubvol w fun base w =>
    match opener (pathCat base path) w with
    | (.error e, w) => (.error (.err e), w)
    | (.ok fd, w) =>
        let clone := fun subvolPath =>
          let full :=
            pathCat3 w.r.rootPath subvolPath clonePath
          match V.openRdonly w.fs full with
          | .error e => (.error (.err e), w)
          | .ok src =>
              finishCall w (V.cloneRange w.fs fd src
                cloneOffset len offset)
        match V.searchReceived w.fs cloneUuid cloneCtransid with
        | some found => clone found
        | none =>
            match w.r.curSubvol with
            | none => (.error .bug, w)
            | some sub =>
                if cloneUuid = sub.receivedUuid then
                  clone sub.path
                else (.error (.err .enoent), w)

----------
-- All Callbacks
----------

/- `S_IFMT` and `S_IFSOCK`. -/
def S_IFMT : Nat := 0o170000

def S_IFSOCK : Nat := 0o140000

/-
  The callback of `send_ops` for a command. There is none for
  `update_extent`, whose pointer is `NULL`.
-/
def processOp
    (opener : Opener S H)
    (op : SendOp)
    (w : World S H) : Ret S H :=
  match op with
  | .subvol path uuid ctransid =>
      processSubvol V path uuid ctransid w
  | .snapshot path uuid ctransid parent parentCtransid =>
      processSnapshot V path uuid ctransid parent
        parentCtransid w
  | .mkfile path => fileCall V.creat path w
  | .mkdir path => fileCall V.mkdir path w
  | .mknod path mode dev =>
      fileCall (fun fs p => V.mknod fs p (mode &&& S_IFMT) dev)
        path w
  | .mkfifo path => fileCall V.mkfifo path w
  | .mksock path =>
      fileCall (fun fs p =>
        V.mknod fs p (0o600 ||| S_IFSOCK) 0) path w
  | .symlink path lnk =>
      fileCall (fun fs p => V.symlink fs lnk p) path w
  | .rename path pathTo =>
      fileCall2 V.rename path pathTo w
  | .link path lnk =>
      fileCall2 (fun fs p l => V.link fs l p) path lnk w
  | .unlink path => fileCall V.unlink path w
  | .rmdir path => fileCall V.rmdir path w
  | .write path data offset _ =>
      processWrite V opener path data offset w
  | .clone path offset len uuid ctransid clonePath from_ =>
      processClone V opener path offset len uuid ctransid
        clonePath from_ w
  | .setXattr path name data =>
      fileCall (fun fs p => V.setxattr fs p name data) path w
  | .removeXattr path name =>
      fileCall (fun fs p => V.removexattr fs p name) path w
  | .truncate path size =>
      fileCall (fun fs p => V.truncate fs p size) path w
  | .chmod path mode =>
      fileCall (fun fs p => V.chmod fs p mode) path w
  | .chown path uid gid =>
      fileCall (fun fs p => V.lchown fs p uid gid) path w
  | .utimes path at_ mt _ =>
      fileCall (fun fs p => V.utimens fs p at_ mt) path w
  | .updateExtent _ _ _ => (.error .bug, w)

----------
-- Streams
----------

/-
  The loop of `btrfs_read_and_process_send_stream`, with what
  is left of the file. The value is that of the end command.
-/
def streamLoop
    (honorEndCmd : Bool) :
    Nat → SendStream → List UInt8 → World S H →
      Except Stop Bool × List UInt8 × World S H
  | 0, _, file, w => (.error (.err .einval), file, w)
  | fuel + 1, s, file, w =>
      match readAndProcessCmd s file with
      | .error stop => (.error stop, file, w)
      | .ok (_, .finish, file) => (.ok honorEndCmd, file, w)
      | .ok (s, .nothing, file) =>
          streamLoop honorEndCmd fuel s file w
      | .ok (s, .op op, file) =>
          match processOp V (openInodeForWrite V) op w with
          | (.error stop, w) => (.error stop, file, w)
          | (.ok (), w) =>
              streamLoop honorEndCmd fuel s file w

/- `btrfs_read_and_process_send_stream`. -/
def receiveStream
    (honorEndCmd : Bool)
    (buf : List UInt8)
    (file : List UInt8)
    (w : World S H) :
    Except Stop Bool × List UInt8 × World S H :=
  let hdr := file.take STREAM_HEADER_SIZE
  if hdr.length < STREAM_HEADER_SIZE then
    (.ok true, file.drop STREAM_HEADER_SIZE, w)
  else if hdr.take 13 ≠ SEND_STREAM_MAGIC then
    (.error (.err .einval), file, w)
  else if SEND_STREAM_VERSION < leAt hdr 13 4 then
    (.error (.err .einval), file, w)
  else
    streamLoop V honorEndCmd
      ((file.drop STREAM_HEADER_SIZE).length + 1)
      ⟨buf, fun _ => none, 0⟩
      (file.drop STREAM_HEADER_SIZE) w

/-
  The loop of `do_receive`; each stream has a header. The
  buffer of a stream holds what was on the stack when it
  began.
-/
def doReceive
    (honorEndCmd : Bool)
    (bufs : List UInt8 → List UInt8) :
    Nat → List UInt8 → World S H → Ret S H
  | 0, _, w => (.error (.err .einval), w)
  | fuel + 1, file, w =>
      match receiveStream V honorEndCmd (bufs file) file w with
      | (.error stop, _, w) => (.error stop, w)
      | (.ok done, file, w) =>
          (finishSubvol V (closeInodeForWrite w)).andThen
            fun w =>
              if done then (.ok (), w)
              else doReceive honorEndCmd bufs fuel file w

end Calls

/- `r` before the loop. -/
def BtrfsReceive.init
    {H : Type}
    (rootPath destDirPath : Path) : BtrfsReceive H where
  writeFd := none
  writePath := []
  rootPath := rootPath
  destDirPath := destDirPath
  fullSubvolPath := none
  curSubvol := none

end Receive

end BtrfsProgs
