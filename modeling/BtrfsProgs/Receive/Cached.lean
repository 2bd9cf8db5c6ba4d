import BtrfsProgs.Receive.Process

/-
  The handle that `open_inode_for_write` keeps, against a
  receiver that opens the file of every write.

  Main declarations:
    * `openAfresh`
    * `Written.Follows`, on the commands of a run
    * `Frames`, what the calls do to names
    * `receive_cached_eq_afresh`
    * `Files`, a file system with one directory
-/

----------
-- Two Receivers
----------

namespace BtrfsProgs

namespace Receive

open Send

section Runs

variable {S H : Type}
variable (V : Vfs S H)

/- `open_inode_for_write` without its first check. -/
def openAfresh
    (path : Path)
    (w : World S H) : Except Errno H × World S H :=
  match V.openRdwr w.fs path with
  | .error e => (.error e, { w with
      r := { w.r with writeFd := none } })
  | .ok fd => (.ok fd, { w with
      r := { w.r with
        writeFd := some fd
        writePath := path } })

/- Commands, one after the other. -/
def runOps
    (opener : Opener S H) :
    List SendOp → World S H → Ret S H
  | [], w => (.ok (), w)
  | op :: ops, w =>
      (processOp V opener op w).andThen (runOps opener ops)

/- What the kept path denotes is what was opened. -/
def StillThere
    (path : Path)
    (w : World S H) : Prop :=
  ∀ fd, w.r.writeFd = some fd → w.r.writePath = path →
    V.openRdwr w.fs path = .ok fd

/- A command that writes finds what its path denotes. -/
def FindsFile
    (op : SendOp)
    (w : World S H) : Prop :=
  match op with
  | .write path _ _ _ =>
      ∀ base, w.r.fullSubvolPath = some base →
        StillThere V (pathCat base path) w
  | .clone path _ _ _ _ _ _ =>
      ∀ base, w.r.fullSubvolPath = some base →
        StillThere V (pathCat base path) w
  | _ => True

variable {V}

theorem openInodeForWrite_eq_openAfresh
    {path : Path}
    {w : World S H}
    (hThere : StillThere V path w) :
    openInodeForWrite V path w = openAfresh V path w := by
  rcases w with ⟨fs, ⟨writeFd, writePath, root, dest, full,
    cur⟩, log⟩
  unfold openInodeForWrite openAfresh
  cases writeFd with
  | none => rfl
  | some fd =>
      dsimp only
      by_cases hSame : writePath = path
      · have hOpen := hThere fd rfl hSame
        dsimp only at hOpen
        rw [if_pos hSame, hOpen, ← hSame]
      · exact (if_neg hSame).trans rfl

/- Only the opener of the callbacks differs. -/
theorem processOp_eq
    {op : SendOp}
    {w : World S H}
    (hFinds : FindsFile V op w) :
    processOp V (openInodeForWrite V) op w =
      processOp V (openAfresh V) op w := by
  have hOpen : ∀ path,
      (∀ base, w.r.fullSubvolPath = some base →
        StillThere V (pathCat base path) w) →
      ∀ base, w.r.fullSubvolPath = some base →
        openInodeForWrite V (pathCat base path)
            (w.note (.file base)) =
          openAfresh V (pathCat base path)
            (w.note (.file base)) := by
    intro path hAll base hBase
    exact openInodeForWrite_eq_openAfresh (hAll base hBase)
  cases op with
  | write path data offset len =>
      unfold processOp processWrite underSubvol
      dsimp only
      cases hBase : w.r.fullSubvolPath with
      | none => rfl
      | some base =>
          dsimp only
          rw [hOpen path hFinds base hBase]
  | clone path offset len uuid ctransid clonePath from_ =>
      unfold processOp processClone underSubvol
      dsimp only
      cases hBase : w.r.fullSubvolPath with
      | none => rfl
      | some base =>
          dsimp only
          rw [hOpen path hFinds base hBase]
  | subvol | snapshot | mkfile | mkdir | mknod | mkfifo
  | mksock | symlink | rename | link | unlink | rmdir
  | setXattr | removeXattr | truncate | chmod | chown
  | utimes | updateExtent => rfl

end Runs

----------
-- The Names of a File
----------

/- What of `p` lies below `a`. -/
def below
    (a p : Path) : Option Path :=
  let rest := p.drop a.length
  if p.take a.length = a ∧
      (rest = [] ∨ rest.head? = some SLASH) then some rest
  else none

/-
  The path that was written last, and what its file is called
  now.
-/
structure Written where
  path : Option Path
  isName : Path → Bool

namespace Written

/- Before the first command. -/
def nothing : Written :=
  ⟨none, fun _ => false⟩

def write
    (n : Written)
    (p : Path) : Written :=
  if n.path = some p then n
  else ⟨some p, fun q => decide (q = p)⟩

def link
    (n : Written)
    (old new : Path) : Written :=
  { n with isName := fun q =>
      if q = new ∧ n.isName old then true else n.isName q }

def unlink
    (n : Written)
    (p : Path) : Written :=
  { n with isName := fun q =>
      if q = p then false else n.isName q }

/- Between two names of one file nothing is renamed. -/
def rename
    (n : Written)
    (a b : Path) : Written :=
  if n.isName a ∧ n.isName b then n
  else
    { n with
      isName := fun q =>
        match below b q with
        | some rest => n.isName (a ++ rest)
        | none => if below a q = none then n.isName q else false }

/- The names behind a command that succeeds. -/
def after
    (n : Written)
    (base : Path) : SendOp → Written
  | .write path _ _ _ => n.write (pathCat base path)
  | .clone path _ _ _ _ _ _ => n.write (pathCat base path)
  | .link path lnk =>
      n.link (pathCat base lnk) (pathCat base path)
  | .unlink path => n.unlink (pathCat base path)
  | .rename path pathTo =>
      n.rename (pathCat base path) (pathCat base pathTo)
  | _ => n

/- If a path was the last one written, it is a name yet. -/
def Denotes
    (n : Written)
    (p : Path) : Prop :=
  n.path = some p → n.isName p

/- So it is for the path of a command that writes. -/
def InStep
    (n : Written)
    (base : Path) : SendOp → Prop
  | .write path _ _ _ => n.Denotes (pathCat base path)
  | .clone path _ _ _ _ _ _ => n.Denotes (pathCat base path)
  | _ => True

/- So it is at every command of a run. -/
def Follows
    (base : Path) : Written → List SendOp → Prop
  | _, [] => True
  | n, op :: ops =>
      n.InStep base op ∧ Follows base (n.after base op) ops

end Written

/- The commands that make, name and fill files. -/
def FileCommand
    (plain : Path → Prop)
    (base : Path) : SendOp → Prop
  | .mkfile path => plain (pathCat base path)
  | .unlink path => plain (pathCat base path)
  | .truncate path _ => plain (pathCat base path)
  | .write path _ _ _ => plain (pathCat base path)
  | .clone path _ _ _ _ _ _ => plain (pathCat base path)
  | .rename path pathTo =>
      plain (pathCat base path) ∧ plain (pathCat base pathTo)
  | .link path lnk =>
      plain (pathCat base path) ∧ plain (pathCat base lnk)
  | _ => False

section Known

variable {S H : Type}

/- A path that opens goes on to open the same file. -/
def Keeps
    (V : Vfs S H)
    (fs fs' : S)
    (p : Path) : Prop :=
  ∀ h, V.openRdwr fs p = .ok h → V.openRdwr fs' p = .ok h

/-
  What the calls do to names, in a tree of directories and
  regular files (no symbolic link is followed). `plain` are
  its paths in normal form: one for each name.
-/
structure Frames
    (V : Vfs S H)
    (plain : Path → Prop) : Prop where
  creat : ∀ {fs p fs'}, V.creat fs p = .ok fs' →
    ∀ q, plain q → Keeps V fs fs' q
  truncate : ∀ {fs p size fs'},
    V.truncate fs p size = .ok fs' →
      ∀ q, plain q → Keeps V fs fs' q
  pwrite : ∀ {fs fd data offset k fs'},
    V.pwrite fs fd data offset = .ok (k, fs') →
      ∀ q, plain q → Keeps V fs fs' q
  cloneRange : ∀ {fs fd src from_ len offset fs'},
    V.cloneRange fs fd src from_ len offset = .ok fs' →
      ∀ q, plain q → Keeps V fs fs' q
  link : ∀ {fs old new fs'}, V.link fs old new = .ok fs' →
    (∀ h, V.openRdwr fs old = .ok h →
      V.openRdwr fs' new = .ok h) ∧
      ∀ q, plain q → Keeps V fs fs' q
  unlink : ∀ {fs p fs'}, plain p → V.unlink fs p = .ok fs' →
    ∀ q, plain q → q ≠ p → Keeps V fs fs' q
  rename_one : ∀ {fs a b h fs'}, plain a → plain b →
    V.openRdwr fs a = .ok h → V.openRdwr fs b = .ok h →
      V.rename fs a b = .ok fs' →
        ∀ q, plain q → Keeps V fs fs' q
  rename_moves : ∀ {fs a b fs' rest h}, plain a → plain b →
    V.rename fs a b = .ok fs' →
      below b (b ++ rest) = some rest → plain (a ++ rest) →
        V.openRdwr fs (a ++ rest) = .ok h →
          plain (b ++ rest) ∧
            V.openRdwr fs' (b ++ rest) = .ok h
  rename_rest : ∀ {fs a b fs'}, plain a → plain b →
    V.rename fs a b = .ok fs' → ∀ q, plain q →
      below a q = none → below b q = none →
        Keeps V fs fs' q

variable (V : Vfs S H)
variable (plain : Path → Prop)

/- The names open the file of the handle that is kept. -/
structure Known
    (base : Path)
    (n : Written)
    (w : World S H) : Prop where
  base : w.r.fullSubvolPath = some base
  closed : w.r.writeFd = none → n.path = none
  opens : ∀ fd, w.r.writeFd = some fd →
    n.path = some w.r.writePath ∧ ∀ q, n.isName q →
      plain q ∧ V.openRdwr w.fs q = .ok fd

variable {V plain}
variable {base : Path}
variable {n n' : Written}
variable {w w' : World S H}
variable {p : Path}

theorem below_eq
    {a q rest : Path}
    (hBelow : below a q = some rest) :
    q = a ++ rest := by
  unfold below at hBelow
  dsimp only at hBelow
  split at hBelow
  · rename_i hIs
    cases hBelow
    have hSplit := List.take_append_drop a.length q
    rw [hIs.1] at hSplit
    exact hSplit.symm
  · cases hBelow

/- Files change, and each name is one of those before. -/
theorem Known.on
    (hKnown : Known V plain base n w)
    (hSame : w'.r = w.r)
    (hPath : n'.path = n.path)
    (hNames : ∀ fd, w.r.writeFd = some fd → ∀ q,
      n'.isName q → plain q ∧ V.openRdwr w'.fs q = .ok fd) :
    Known V plain base n' w' := by
  refine ⟨hSame ▸ hKnown.base, ?_, ?_⟩
  · rw [hSame, hPath]
    exact hKnown.closed
  · rw [hSame, hPath]
    intro fd hFd
    exact ⟨(hKnown.opens fd hFd).1, hNames fd hFd⟩

theorem Known.keeps
    (hKnown : Known V plain base n w)
    (hSame : w'.r = w.r)
    (hKeeps : ∀ q, plain q → Keeps V w.fs w'.fs q) :
    Known V plain base n w' := by
  refine hKnown.on hSame rfl ?_
  intro fd hFd q hName
  rcases (hKnown.opens fd hFd).2 q hName with ⟨hPlain, hOpen⟩
  exact ⟨hPlain, hKeeps q hPlain fd hOpen⟩

/- The file that a write opens is the one that is kept. -/
theorem Known.write
    {fd : H}
    (hKnown : Known V plain base n w)
    (hPlain : plain p)
    (hDenotes : n.Denotes p)
    (hOpen : openAfresh V p w = (.ok fd, w')) :
    Known V plain base (n.write p) w' := by
  unfold openAfresh at hOpen
  cases hResult : V.openRdwr w.fs p with
  | error e =>
      rw [hResult] at hOpen
      cases hOpen
  | ok got =>
      rw [hResult] at hOpen
      cases hOpen
      refine ⟨hKnown.base, nofun, ?_⟩
      intro fd hFd
      cases hFd
      unfold Written.write
      split
      · rename_i hPath
        refine ⟨hPath, ?_⟩
        cases hKept : w.r.writeFd with
        | none =>
            rw [hKnown.closed hKept] at hPath
            cases hPath
        | some old =>
            have hOld := (hKnown.opens old hKept).2
            have hSame := (hOld p (hDenotes hPath)).2
            rw [hResult] at hSame
            cases hSame
            exact hOld
      · refine ⟨rfl, ?_⟩
        intro q hName
        cases of_decide_eq_true hName
        exact ⟨hPlain, hResult⟩

theorem Known.link
    {old new : Path}
    (hFrames : Frames V plain)
    (hKnown : Known V plain base n w)
    (hSame : w'.r = w.r)
    (hNew : plain new)
    (hLink : V.link w.fs old new = .ok w'.fs) :
    Known V plain base (n.link old new) w' := by
  refine hKnown.on hSame rfl ?_
  intro fd hFd q hName
  have hOpens := (hKnown.opens fd hFd).2
  unfold Written.link at hName
  dsimp only at hName
  split at hName
  · rename_i hIs
    rw [hIs.1]
    exact ⟨hNew,
      (hFrames.link hLink).1 fd (hOpens old hIs.2).2⟩
  · rcases hOpens q hName with ⟨hPlain, hOpen⟩
    exact ⟨hPlain, (hFrames.link hLink).2 q hPlain fd hOpen⟩

theorem Known.unlink
    (hFrames : Frames V plain)
    (hKnown : Known V plain base n w)
    (hSame : w'.r = w.r)
    (hPlain : plain p)
    (hUnlink : V.unlink w.fs p = .ok w'.fs) :
    Known V plain base (n.unlink p) w' := by
  refine hKnown.on hSame rfl ?_
  intro fd hFd q hName
  unfold Written.unlink at hName
  dsimp only at hName
  split at hName
  · cases hName
  · rename_i hNot
    rcases (hKnown.opens fd hFd).2 q hName with ⟨hQ, hOpen⟩
    exact ⟨hQ, hFrames.unlink hPlain hUnlink q hQ hNot fd
      hOpen⟩

theorem Known.rename
    {a b : Path}
    (hFrames : Frames V plain)
    (hKnown : Known V plain base n w)
    (hSame : w'.r = w.r)
    (hA : plain a)
    (hB : plain b)
    (hRename : V.rename w.fs a b = .ok w'.fs) :
    Known V plain base (n.rename a b) w' := by
  unfold Written.rename
  split
  · rename_i hBoth
    refine hKnown.on hSame rfl ?_
    intro fd hFd q hName
    have hOpens := (hKnown.opens fd hFd).2
    rcases hOpens q hName with ⟨hPlain, hOpen⟩
    exact ⟨hPlain, hFrames.rename_one hA hB
      (hOpens a hBoth.1).2 (hOpens b hBoth.2).2 hRename q
      hPlain fd hOpen⟩
  · refine hKnown.on hSame rfl ?_
    intro fd hFd q hName
    have hOpens := (hKnown.opens fd hFd).2
    dsimp only at hName
    split at hName
    · -- `q` is below the target
      rename_i rest hBelow
      rcases hOpens _ hName with ⟨hPlain, hOpen⟩
      have hQ := below_eq hBelow
      rw [hQ] at hBelow ⊢
      exact hFrames.rename_moves hA hB hRename hBelow hPlain
        hOpen
    · rename_i hNotB
      split at hName
      · rename_i hNotA
        rcases hOpens q hName with ⟨hPlain, hOpen⟩
        exact ⟨hPlain, hFrames.rename_rest hA hB hRename q
          hPlain hNotA hNotB fd hOpen⟩
      · cases hName

----------
-- One Command
----------

theorem finishCall_ok
    {result : Except Errno S}
    (hCall : finishCall w result = (.ok (), w')) :
    result = .ok w'.fs ∧ w'.r = w.r := by
  unfold finishCall at hCall
  cases result with
  | error e => cases hCall
  | ok fs =>
      cases hCall
      exact ⟨rfl, rfl⟩

/- A command of one call for one path, and for two paths. -/
theorem fileCall_ok
    {call : S → Path → Except Errno S}
    {path : Path}
    (hBase : w.r.fullSubvolPath = some base)
    (hCall : fileCall call path w = (.ok (), w')) :
    call w.fs (pathCat base path) = .ok w'.fs ∧
      w'.r = w.r := by
  unfold fileCall underSubvol at hCall
  rw [hBase] at hCall
  exact finishCall_ok (w := w.note (.file base)) hCall

theorem fileCall2_ok
    {call : S → Path → Path → Except Errno S}
    {path path2 : Path}
    (hBase : w.r.fullSubvolPath = some base)
    (hCall : fileCall2 call path path2 w = (.ok (), w')) :
    call w.fs (pathCat base path) (pathCat base path2) =
        .ok w'.fs ∧
      w'.r = w.r := by
  unfold fileCall2 underSubvol at hCall
  rw [hBase] at hCall
  exact finishCall_ok (w := w.note (.file base)) hCall

theorem writeLoop_keeps
    {fd : H}
    {fuel : Nat}
    {data : List UInt8}
    {offset : Nat}
    (hFrames : Frames V plain)
    (hLoop : writeLoop V fd w fuel data offset =
      (.ok (), w')) :
    w'.r = w.r ∧ ∀ q, plain q → Keeps V w.fs w'.fs q := by
  induction fuel generalizing w data offset with
  | zero =>
      cases data with
      | nil =>
          cases hLoop
          exact ⟨rfl, fun _ _ _ hOpen => hOpen⟩
      | cons b bs => cases hLoop
  | succ fuel ih =>
      cases data with
      | nil =>
          cases hLoop
          exact ⟨rfl, fun _ _ _ hOpen => hOpen⟩
      | cons b bs =>
          simp only [writeLoop] at hLoop
          cases hWrite : V.pwrite w.fs fd (b :: bs) offset with
          | error e =>
              rw [hWrite] at hLoop
              cases hLoop
          | ok out =>
              rw [hWrite] at hLoop
              rcases ih hLoop with ⟨hSame, hRest⟩
              refine ⟨hSame, ?_⟩
              intro q hPlain h hOpen
              exact hRest q hPlain h
                (hFrames.pwrite hWrite q hPlain h hOpen)

/- `process_write` and `process_clone` open, and then fill. -/
theorem Known.opened
    {path : Path}
    {fd : H}
    {w₁ : World S H}
    (hKnown : Known V plain base n w)
    (hPlain : plain (pathCat base path))
    (hDenotes : n.Denotes (pathCat base path))
    (hOpened : openAfresh V (pathCat base path)
      (w.note (.file base)) = (.ok fd, w₁))
    (hFill : w'.r = w₁.r ∧
      ∀ q, plain q → Keeps V w₁.fs w'.fs q) :
    Known V plain base (n.write (pathCat base path)) w' := by
  have hNoted : Known V plain base n
      (w.note (.file base)) :=
    hKnown.keeps rfl fun _ _ _ hOpen => hOpen
  exact (hNoted.write hPlain hDenotes hOpened).keeps hFill.1
    hFill.2

theorem processWrite_known
    {path data : List UInt8}
    {offset : Nat}
    (hFrames : Frames V plain)
    (hKnown : Known V plain base n w)
    (hPlain : plain (pathCat base path))
    (hDenotes : n.Denotes (pathCat base path))
    (hCall : processWrite V (openAfresh V) path data offset w =
      (.ok (), w')) :
    Known V plain base (n.write (pathCat base path)) w' := by
  unfold processWrite underSubvol at hCall
  rw [hKnown.base] at hCall
  dsimp only at hCall
  rcases hOpened : openAfresh V (pathCat base path)
    (w.note (.file base)) with ⟨result, w₁⟩
  rw [hOpened] at hCall
  cases result with
  | error e => cases hCall
  | ok fd =>
      exact hKnown.opened hPlain hDenotes hOpened
        (writeLoop_keeps hFrames hCall)

theorem processClone_known
    {path uuid clonePath : List UInt8}
    {offset len ctransid from_ : Nat}
    (hFrames : Frames V plain)
    (hKnown : Known V plain base n w)
    (hPlain : plain (pathCat base path))
    (hDenotes : n.Denotes (pathCat base path))
    (hCall : processClone V (openAfresh V) path offset len uuid
      ctransid clonePath from_ w = (.ok (), w')) :
    Known V plain base (n.write (pathCat base path)) w' := by
  unfold processClone underSubvol at hCall
  rw [hKnown.base] at hCall
  dsimp only at hCall
  rcases hOpened : openAfresh V (pathCat base path)
    (w.note (.file base)) with ⟨result, w₁⟩
  rw [hOpened] at hCall
  cases result with
  | error e => cases hCall
  | ok fd =>
      refine hKnown.opened hPlain hDenotes hOpened ?_
      have hClone : ∀ full, (match V.openRdonly w₁.fs full with
            | .error e => (.error (.err e), w₁)
            | .ok src => finishCall w₁ (V.cloneRange w₁.fs fd
                src from_ len offset)) = (.ok (), w') →
          w'.r = w₁.r ∧
            ∀ q, plain q → Keeps V w₁.fs w'.fs q := by
        intro full hOne
        split at hOne
        · cases hOne
        · rcases finishCall_ok hOne with ⟨hRange, hSame⟩
          exact ⟨hSame, hFrames.cloneRange hRange⟩
      dsimp only at hCall
      split at hCall
      · exact hClone _ hCall
      · split at hCall
        · cases hCall
        · split at hCall
          · exact hClone _ hCall
          · cases hCall

theorem processOp_known
    {op : SendOp}
    (hFrames : Frames V plain)
    (hKnown : Known V plain base n w)
    (hOp : FileCommand plain base op)
    (hStep : n.InStep base op)
    (hCall : processOp V (openAfresh V) op w = (.ok (), w')) :
    Known V plain base (n.after base op) w' := by
  cases op with
  | mkfile path =>
      rcases fileCall_ok hKnown.base hCall with ⟨hCreat, hSame⟩
      exact hKnown.keeps hSame (hFrames.creat hCreat)
  | write path data offset len =>
      exact processWrite_known hFrames hKnown hOp hStep hCall
  | clone path offset len uuid ctransid clonePath from_ =>
      exact processClone_known hFrames hKnown hOp hStep hCall
  | link path lnk =>
      rcases fileCall2_ok hKnown.base hCall with ⟨hLink, hSame⟩
      exact hKnown.link hFrames hSame hOp.1 hLink
  | unlink path =>
      rcases fileCall_ok hKnown.base hCall with ⟨hUnlink, hSame⟩
      exact hKnown.unlink hFrames hSame hOp hUnlink
  | rename path pathTo =>
      rcases fileCall2_ok hKnown.base hCall with
        ⟨hRename, hSame⟩
      exact hKnown.rename hFrames hSame hOp.1 hOp.2 hRename
  | truncate path size =>
      have hCall' : fileCall
          (fun fs p => V.truncate fs p size) path w =
            (.ok (), w') := hCall
      rcases fileCall_ok hKnown.base hCall' with ⟨hCut, hSame⟩
      exact hKnown.keeps hSame (hFrames.truncate hCut)
  | subvol | snapshot | mkdir | mknod | mkfifo | mksock
  | symlink | rmdir | setXattr | removeXattr | chmod | chown
  | utimes | updateExtent => cases hOp

theorem Known.findsFile
    {op : SendOp}
    (hKnown : Known V plain base n w)
    (hStep : n.InStep base op) :
    FindsFile V op w := by
  have hThere : ∀ path, n.Denotes (pathCat base path) →
      ∀ base', w.r.fullSubvolPath = some base' →
        StillThere V (pathCat base' path) w := by
    intro path hDenotes base' hBase fd hFd hPath
    cases hKnown.base.symm.trans hBase
    rcases hKnown.opens fd hFd with ⟨hKept, hOpens⟩
    rw [hPath] at hKept
    exact (hOpens _ (hDenotes hKept)).2
  cases op with
  | write path data offset len
  | clone path offset len uuid ctransid clonePath from_ =>
      exact hThere path hStep
  | subvol | snapshot | mkfile | mkdir | mknod | mkfifo
  | mksock | symlink | rename | link | unlink | rmdir
  | setXattr | removeXattr | truncate | chmod | chown
  | utimes | updateExtent => exact trivial

----------
-- All Commands
----------

theorem runOps_eq_of_known
    {ops : List SendOp}
    (hFrames : Frames V plain)
    (hKnown : Known V plain base n w)
    (hOps : ∀ op ∈ ops, FileCommand plain base op)
    (hFollows : Written.Follows base n ops) :
    runOps V (openInodeForWrite V) ops w =
      runOps V (openAfresh V) ops w := by
  induction ops generalizing n w with
  | nil => rfl
  | cons op ops ih =>
      rcases hFollows with ⟨hStep, hRest⟩
      rw [runOps, runOps,
        processOp_eq (hKnown.findsFile hStep)]
      rcases hCall : processOp V (openAfresh V) op w with
        ⟨ret, w'⟩
      cases ret with
      | error stop => rfl
      | ok u =>
          have hNext := processOp_known hFrames hKnown
            (hOps op List.mem_cons_self) hStep hCall
          exact ih hNext
            (fun op hMem => hOps op (List.mem_cons_of_mem _ hMem))
            hRest

/-
  If a path that is written again, with no other written in
  between, is a name of the same file yet, the kept handle
  makes no difference.
-/
theorem receive_cached_eq_afresh
    (hFrames : Frames V plain)
    (ops : List SendOp)
    (w : World S H)
    (hBase : w.r.fullSubvolPath = some base)
    (hClosed : w.r.writeFd = none)
    (hOps : ∀ op ∈ ops, FileCommand plain base op)
    (hFollows : Written.Follows base Written.nothing ops) :
    runOps V (openInodeForWrite V) ops w =
      runOps V (openAfresh V) ops w := by
  refine runOps_eq_of_known hFrames
    ⟨hBase, fun _ => rfl, ?_⟩ hOps hFollows
  intro fd hFd
  rw [hClosed] at hFd
  cases hFd

end Known

----------
-- A File System with One Directory
----------

/- The names of a directory and the bytes of its files. -/
structure Files where
  names : Path → Option Nat
  bytes : Nat → List UInt8
  next : Nat

namespace Files

def find
    (fs : Files)
    (p : Path) : Except Errno Nat :=
  match fs.names p with
  | none => .error .enoent
  | some i => .ok i

def setName
    (fs : Files)
    (p : Path)
    (i : Option Nat) : Files :=
  { fs with names := fun q => if q = p then i else fs.names q }

def setBytes
    (fs : Files)
    (i : Nat)
    (bytes : List UInt8) : Files :=
  { fs with
    bytes := fun j => if j = i then bytes else fs.bytes j }

/- `creat`: a new file, or an old one without its bytes. -/
def creat
    (fs : Files)
    (p : Path) : Except Errno Files :=
  match fs.names p with
  | some i => .ok (fs.setBytes i [])
  | none =>
      .ok { (fs.setName p (some fs.next)).setBytes fs.next []
        with next := fs.next + 1 }

def rename
    (fs : Files)
    (p q : Path) : Except Errno Files :=
  match fs.names p with
  | none => .error .enoent
  | some i =>
      if fs.names q = some i then .ok fs
      else .ok ((fs.setName p none).setName q (some i))

def link
    (fs : Files)
    (p q : Path) : Except Errno Files :=
  match fs.names p, fs.names q with
  | none, _ => .error .enoent
  | some _, some _ => .error .eexist
  | some i, none => .ok (fs.setName q (some i))

def unlink
    (fs : Files)
    (p : Path) : Except Errno Files :=
  match fs.names p with
  | none => .error .enoent
  | some _ => .ok (fs.setName p none)

/- The bytes up to a place, with zeros behind their end. -/
def upTo
    (bytes : List UInt8)
    (n : Nat) : List UInt8 :=
  bytes.take n ++ List.replicate (n - bytes.length) 0

def put
    (fs : Files)
    (i : Nat)
    (data : List UInt8)
    (offset : Nat) : Files :=
  let old := fs.bytes i
  fs.setBytes i (upTo old offset ++ data ++
    old.drop (offset + data.length))

def truncate
    (fs : Files)
    (p : Path)
    (size : Nat) : Except Errno Files :=
  match fs.names p with
  | none => .error .enoent
  | some i => .ok (fs.setBytes i (upTo (fs.bytes i) size))

/- The calls of a directory without subdirectories. -/
def vfs : Vfs Files Nat where
  openat := find
  openRdonly := find
  openRdwr := find
  setReceived := fun fs _ _ _ => .ok fs
  getFlags := fun _ _ => .ok 0
  setFlags := fun fs _ _ => .ok fs
  searchReceived := fun _ _ _ => none
  subvolCreate := fun fs _ => .ok fs
  snapCreate := fun fs _ _ => .ok fs
  pwrite := fun fs i data offset =>
    .ok (data.length, fs.put i data offset)
  cloneRange := fun fs i j from_ len offset =>
    .ok (fs.put i (((fs.bytes j).drop from_).take len) offset)
  creat := creat
  mkdir := fun _ _ => .error .eperm
  mknod := fun _ _ _ _ => .error .eperm
  mkfifo := fun _ _ => .error .eperm
  symlink := fun _ _ _ => .error .eperm
  rename := rename
  link := link
  unlink := unlink
  rmdir := fun _ _ => .error .eperm
  setxattr := fun fs _ _ _ => .ok fs
  removexattr := fun fs _ _ => .ok fs
  truncate := truncate
  chmod := fun fs _ _ => .ok fs
  lchown := fun fs _ _ _ => .ok fs
  utimens := fun fs _ _ _ => .ok fs

/- The bytes under a name. -/
def content
    (fs : Files)
    (p : Path) : Option (List UInt8) :=
  (fs.names p).map fs.bytes

end Files

/- An empty subvolume `/v` that is being received. -/
def emptySubvol : World Files Nat where
  fs := ⟨fun _ => none, fun _ => [], 0⟩
  r := { BtrfsReceive.init [47] [] with
    fullSubvolPath := some [47, 118] }
  log := []

/- The files of `/v` have names of one letter. -/
def OneLetter
    (p : Path) : Prop :=
  ∃ c, c ≠ SLASH ∧ p = [47, 118, 47, c]

theorem oneLetter_below
    {a p : Path}
    (hA : OneLetter a)
    (hP : OneLetter p) :
    below a p = if p = a then some [] else none := by
  rcases hA with ⟨c, _, rfl⟩
  rcases hP with ⟨d, _, rfl⟩
  unfold below
  simp

/- Opening for writing looks at the names only. -/
theorem openRdwr_ok_iff
    {fs : Files}
    {p : Path}
    {i : Nat} :
    Files.vfs.openRdwr fs p = .ok i ↔ fs.names p = some i := by
  show fs.find p = .ok i ↔ _
  unfold Files.find
  cases hName : fs.names p with
  | none => simp
  | some j => simp

theorem keeps_of_names
    {fs fs' : Files}
    {p : Path}
    (hNames : fs'.names p = fs.names p) :
    Keeps Files.vfs fs fs' p := by
  intro h hOpen
  rw [openRdwr_ok_iff] at hOpen ⊢
  rw [hNames, hOpen]

theorem files_creat
    {fs fs' : Files}
    {p : Path}
    (hCreat : fs.creat p = .ok fs')
    (q : Path)
    (i : Nat)
    (hQ : fs.names q = some i) :
    fs'.names q = some i := by
  unfold Files.creat at hCreat
  cases hName : fs.names p with
  | some j =>
      rw [hName] at hCreat
      cases hCreat
      exact hQ
  | none =>
      rw [hName] at hCreat
      cases hCreat
      refine (if_neg ?_).trans hQ
      rintro rfl
      rw [hName] at hQ
      cases hQ

theorem files_link
    {fs fs' : Files}
    {p q : Path}
    (hLink : fs.link p q = .ok fs') :
    fs'.names q = fs.names p ∧
      ∀ r i, fs.names r = some i → fs'.names r = some i := by
  unfold Files.link at hLink
  cases hOld : fs.names p with
  | none =>
      rw [hOld] at hLink
      cases hLink
  | some i =>
      cases hNew : fs.names q with
      | some j =>
          rw [hOld, hNew] at hLink
          cases hLink
      | none =>
          rw [hOld, hNew] at hLink
          cases hLink
          refine ⟨if_pos rfl, ?_⟩
          intro r j hR
          refine (if_neg ?_).trans hR
          rintro rfl
          rw [hNew] at hR
          cases hR

/- What `rename` does to a name that is not the target. -/
theorem files_rename
    {fs fs' : Files}
    {a b : Path}
    (hRename : fs.rename a b = .ok fs') :
    fs'.names b = fs.names a ∧
      (fs.names a = fs.names b → fs' = fs) ∧
      ∀ q, q ≠ a → q ≠ b → fs'.names q = fs.names q := by
  unfold Files.rename at hRename
  cases hName : fs.names a with
  | none =>
      rw [hName] at hRename
      cases hRename
  | some i =>
      rw [hName] at hRename
      dsimp only at hRename
      split at hRename
      · rename_i hOne
        cases hRename
        exact ⟨hOne, fun _ => rfl, fun _ _ _ => rfl⟩
      · rename_i hTwo
        cases hRename
        refine ⟨if_pos rfl, fun h => absurd h.symm hTwo, ?_⟩
        intro q hA hB
        exact (if_neg hB).trans (if_neg hA)

theorem files_frames : Frames Files.vfs OneLetter where
  creat := by
    intro fs p fs' hCreat q _ j hOpen
    exact openRdwr_ok_iff.mpr
      (files_creat hCreat q j (openRdwr_ok_iff.mp hOpen))
  truncate := by
    intro fs p size fs' hCut q _
    have hCut' : fs.truncate p size = .ok fs' := hCut
    unfold Files.truncate at hCut'
    split at hCut'
    · cases hCut'
    · cases hCut'
      exact keeps_of_names rfl
  pwrite := by
    intro fs fd data offset k fs' hWrite q _
    cases hWrite
    exact keeps_of_names rfl
  cloneRange := by
    intro fs fd src from_ len offset fs' hRange q _
    cases hRange
    exact keeps_of_names rfl
  link := by
    intro fs old new fs' hLink
    rcases files_link hLink with ⟨hNew, hKeeps⟩
    refine ⟨fun h hOld => openRdwr_ok_iff.mpr
      (hNew.trans (openRdwr_ok_iff.mp hOld)), ?_⟩
    intro q _ j hOpen
    exact openRdwr_ok_iff.mpr
      (hKeeps q j (openRdwr_ok_iff.mp hOpen))
  unlink := by
    intro fs p fs' _ hUnlink q _ hNot
    have hUnlink' : fs.unlink p = .ok fs' := hUnlink
    unfold Files.unlink at hUnlink'
    split at hUnlink'
    · cases hUnlink'
    · cases hUnlink'
      exact keeps_of_names (if_neg hNot)
  rename_one := by
    intro fs a b i fs' _ _ hA hB hRename q _
    rw [openRdwr_ok_iff] at hA hB
    have hSame := (files_rename hRename).2.1 (hA.trans hB.symm)
    exact keeps_of_names (congrArg (Files.names · q) hSame)
  rename_moves := by
    intro fs a b fs' rest i hA hB hRename _ hPlain hOpen
    -- nothing but `a` itself lies below `a`
    have hRest : rest = [] := by
      rcases hA with ⟨c, _, rfl⟩
      rcases hPlain with ⟨d, _, hIs⟩
      simpa using congrArg List.length hIs
    rw [hRest, List.append_nil] at hOpen ⊢
    rw [openRdwr_ok_iff] at hOpen ⊢
    exact ⟨hB, (files_rename hRename).1.trans hOpen⟩
  rename_rest := by
    intro fs a b fs' hA hB hRename q hQ hNotA hNotB
    rw [oneLetter_below hA hQ] at hNotA
    rw [oneLetter_below hB hQ] at hNotB
    refine keeps_of_names ((files_rename hRename).2.2 q ?_ ?_)
    · rintro rfl
      simp at hNotA
    · rintro rfl
      simp at hNotB

/-
  File `a` is written, renamed and renamed back, linked and
  written again; then the link takes its place.
-/
def movedBack : List SendOp :=
  [.mkfile [97], .write [97] [1] 0 1, .rename [97] [98],
    .rename [98] [97], .write [97] [2] 1 1, .link [99] [97],
    .unlink [97], .rename [99] [97], .write [97] [3] 2 1,
    .truncate [97] 2]

theorem receive_cached_eq_afresh_movedBack :
    (runOps Files.vfs (openInodeForWrite Files.vfs) movedBack
        emptySubvol).1 = .ok () ∧
      runOps Files.vfs (openInodeForWrite Files.vfs) movedBack
          emptySubvol =
        runOps Files.vfs (openAfresh Files.vfs) movedBack
          emptySubvol := by
  have hPlain : ∀ c : UInt8, c ≠ SLASH →
      OneLetter (pathCat [47, 118] [c]) := by
    intro c hNot
    refine ⟨c, hNot, ?_⟩
    unfold pathCat trimSlash
    simp [hNot]
    exact (congrArg (· ++ [SLASH, c])
      (if_neg (by decide))).trans rfl
  have hA := hPlain 97 (by decide)
  have hB := hPlain 98 (by decide)
  have hC := hPlain 99 (by decide)
  refine ⟨rfl, receive_cached_eq_afresh files_frames movedBack
    emptySubvol rfl rfl ?_ ?_⟩
  · intro op hMem
    unfold movedBack at hMem
    simp only [List.mem_cons, List.not_mem_nil, or_false]
      at hMem
    rcases hMem with rfl | rfl | rfl | rfl | rfl | rfl | rfl
      | rfl | rfl | rfl
    all_goals simp [FileCommand, hA, hB, hC]
  · refine ⟨trivial, ?_, trivial, trivial, ?_, trivial, trivial,
      trivial, ?_, trivial, trivial⟩
    · intro hPath
      cases hPath
    · intro _
      decide
    · intro _
      decide

/-
  File `a` is written, moved to `b` and made anew; the next
  write of `a` goes to `b`.
-/
def movedAway : List SendOp :=
  [.mkfile [97], .write [97] [1] 0 1, .rename [97] [98],
    .mkfile [97], .write [97] [2] 0 1]

theorem movedAway_differs :
    (runOps Files.vfs (openInodeForWrite Files.vfs) movedAway
      emptySubvol).1 = .ok () ∧
    (runOps Files.vfs (openAfresh Files.vfs) movedAway
      emptySubvol).1 = .ok () ∧
    (runOps Files.vfs (openInodeForWrite Files.vfs) movedAway
      emptySubvol).2.fs.content [47, 118, 47, 97] ≠
    (runOps Files.vfs (openAfresh Files.vfs) movedAway
      emptySubvol).2.fs.content [47, 118, 47, 97] := by
  refine ⟨rfl, rfl, ?_⟩
  decide

end Receive

end BtrfsProgs
