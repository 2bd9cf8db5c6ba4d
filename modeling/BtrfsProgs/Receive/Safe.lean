import BtrfsProgs.Receive.Cached
import BtrfsProgs.Send.Contained
import BtrfsProgs.Send.Faithful

/-
  What a run of `do_receive` does in which order: files are
  changed under the subvolume that is being received, and each
  subvolume is finished once.

  Main declarations:
    * `track`, `starts` and `finishes`
    * `Reads` and `Fit`
    * `Complete`
    * `doReceive_safe`
-/

----------
-- Orderly Runs
----------

namespace BtrfsProgs

namespace Receive

open Send

/- The subvolume that is being received, with its full path. -/
abbrev Current : Type := Option (SubvolInfo × Path)

/-
  The subvolume that is being received after some events, if
  they are in order: one is started when there is none, files
  are changed under it, and it is finished when it is there.
-/
def track : Current → List Event → Option Current
  | cur, [] => some cur
  | none, .started sub full :: events =>
      track (some (sub, full)) events
  | some (sub, full), .file base :: events =>
      if base = full then track (some (sub, full)) events
      else none
  | some (sub, _), .finished done :: events =>
      if done = sub then track none events else none
  | _, _ => none

/- The subvolumes that are started. -/
def starts : List Event → List SubvolInfo
  | [] => []
  | .started sub _ :: events => sub :: starts events
  | _ :: events => starts events

/- The subvolumes that are finished. -/
def finishes : List Event → List SubvolInfo
  | [] => []
  | .finished sub :: events => sub :: finishes events
  | _ :: events => finishes events

def Current.subs
    (cur : Current) : List SubvolInfo :=
  (cur.map Prod.fst).toList

/- Each subvolume is finished but for the one at the end. -/
theorem track_finishes
    {events : List Event}
    {cur next : Current}
    (hTrack : track cur events = some next) :
    Current.subs cur ++ starts events =
      finishes events ++ Current.subs next := by
  fun_induction track cur events with
  | case1 cur =>
      cases hTrack
      simp [starts, finishes]
  | case2 sub full events ih =>
      have hRest := ih hTrack
      simpa [starts, finishes, Current.subs] using hRest
  | case3 sub full events ih =>
      have hRest := ih hTrack
      simpa [starts, finishes] using hRest
  | case4 sub full base events hOther => cases hTrack
  | case5 sub full events ih =>
      have hRest := ih hTrack
      simpa [starts, finishes, Current.subs] using hRest
  | case6 sub full done events hOther => cases hTrack
  | case7 => cases hTrack

theorem track_append
    {events more : List Event}
    {cur next : Current}
    (hTrack : track cur events = some next) :
    track cur (events ++ more) = track next more := by
  fun_induction track cur events with
  | case1 cur =>
      cases hTrack
      rfl
  | case2 sub full events ih =>
      exact ih hTrack
  | case3 sub full events ih =>
      rw [List.cons_append, track, if_pos rfl]
      exact ih hTrack
  | case4 sub full base events hOther => cases hTrack
  | case5 sub full events ih =>
      rw [List.cons_append, track, if_pos rfl]
      exact ih hTrack
  | case6 sub full done events hOther => cases hTrack
  | case7 => cases hTrack

----------
-- Callbacks
----------

section Callbacks

variable {S H : Type}
variable {V : Vfs S H} {w : World S H} {cur : Current}

/- The state agrees with what has been done. -/
structure Agrees
    (w : World S H)
    (cur : Current) : Prop where
  log : track none w.log = some cur
  sub : w.r.curSubvol = cur.map Prod.fst
  full :
    ∀ sub full, cur = some (sub, full) →
      w.r.fullSubvolPath = some full

/- A call that keeps the order, and what holds behind it. -/
def Orderly
    (P : Current → Prop)
    (ret : Ret S H) : Prop :=
  ret.1 ≠ .error .bug ∧
    ∃ cur, track none ret.2.log = some cur ∧
      (ret.1 = .ok () → Agrees ret.2 cur ∧ P cur)

theorem Agrees.congr
    {w' : World S H}
    (hAgrees : Agrees w cur)
    (hLog : w'.log = w.log)
    (hSub : w'.r.curSubvol = w.r.curSubvol)
    (hFull : w'.r.fullSubvolPath = w.r.fullSubvolPath) :
    Agrees w' cur := by
  refine ⟨?_, ?_, ?_⟩
  · rw [hLog]
    exact hAgrees.log
  · rw [hSub]
    exact hAgrees.sub
  · rw [hFull]
    exact hAgrees.full

variable {P : Current → Prop}

theorem Agrees.orderly_ok
    (hAgrees : Agrees w cur)
    (hP : P cur) :
    Orderly P ((.ok (), w) : Ret S H) :=
  ⟨nofun, cur, hAgrees.log, fun _ => ⟨hAgrees, hP⟩⟩

theorem Agrees.orderly_error
    (hAgrees : Agrees w cur)
    (e : Errno) :
    Orderly P ((.error (.err e), w) : Ret S H) :=
  ⟨nofun, cur, hAgrees.log, nofun⟩

theorem Agrees.orderly_finishCall
    (hAgrees : Agrees w cur)
    (hP : P cur)
    (result : Except Errno S) :
    Orderly P (finishCall w result) := by
  unfold finishCall
  cases result with
  | error e => exact hAgrees.orderly_error e
  | ok fs =>
      have hNext : Agrees { w with fs := fs } cur :=
        hAgrees.congr rfl rfl rfl
      exact hNext.orderly_ok hP

theorem Orderly.andThen
    {P Q : Current → Prop}
    {ret : Ret S H}
    {next : World S H → Ret S H}
    (hFirst : Orderly P ret)
    (hNext :
      ∀ w cur, Agrees w cur → P cur → Orderly Q (next w)) :
    Orderly Q (ret.andThen next) := by
  rcases ret with ⟨result, w⟩
  rcases hFirst with ⟨hNoBug, cur, hLog, hThen⟩
  unfold Ret.andThen
  cases result with
  | ok u =>
      rcases hThen rfl with ⟨hAgrees, hP⟩
      exact hNext w cur hAgrees hP
  | error stop =>
      refine ⟨?_, cur, hLog, nofun⟩
      intro hBug
      exact hNoBug hBug

theorem finishSubvol_orderly
    (hAgrees : Agrees w cur) :
    Orderly (· = none) (finishSubvol V w) := by
  unfold finishSubvol
  have hSub := hAgrees.sub
  cases cur with
  | none =>
      rw [hSub]
      exact hAgrees.orderly_ok rfl
  | some here =>
      rcases here with ⟨sub, full⟩
      rw [hSub]
      dsimp only [Option.map_some]
      have hStop : ∀ (w' : World S H) (e : Errno),
          w'.log = w.log →
            Orderly (· = none)
              ((.error (.err e), w') : Ret S H) := by
        intro w' e hLog
        refine ⟨nofun, some (sub, full), ?_, nofun⟩
        rw [hLog]
        exact hAgrees.log
      split
      · exact hStop _ _ rfl
      · split
        · exact hStop _ _ rfl
        · split
          · exact hStop _ _ rfl
          · split
            · exact hStop _ _ rfl
            · refine Agrees.orderly_ok ?_ rfl
              refine ⟨?_, rfl, nofun⟩
              rw [World.note, track_append hAgrees.log]
              exact if_pos rfl

/- A subvolume that is started when there is none. -/
theorem startSubvol_agrees
    (hAgrees : Agrees w none)
    (path uuid : List UInt8)
    (ctransid : Nat) :
    ∃ here, Agrees (startSubvol path uuid ctransid w)
      (some here) := by
  refine ⟨⟨⟨if w.r.destDirPath = [] then path
      else pathCat w.r.destDirPath path, uuid, ctransid⟩,
    pathCat3 w.r.rootPath w.r.destDirPath path⟩, ?_, rfl, ?_⟩
  · exact (track_append hAgrees.log).trans rfl
  · intro sub full hSame
    cases hSame
    rfl

theorem isSome_here
    (here : SubvolInfo × Path) :
    Option.isSome (some here) = true :=
  rfl

theorem processSubvol_orderly
    (hAgrees : Agrees w cur)
    (path uuid : List UInt8)
    (ctransid : Nat) :
    Orderly (·.isSome) (processSubvol V path uuid ctransid w) := by
  refine (finishSubvol_orderly hAgrees).andThen ?_
  rintro w' _ hAgrees' rfl
  rcases startSubvol_agrees hAgrees' path uuid ctransid with
    ⟨here, hStarted⟩
  exact hStarted.orderly_finishCall (isSome_here here) _

theorem processSnapshot_orderly
    (hAgrees : Agrees w cur)
    (path uuid : List UInt8)
    (ctransid : Nat)
    (parentUuid : List UInt8)
    (parentCtransid : Nat) :
    Orderly (·.isSome) (processSnapshot V path uuid ctransid
      parentUuid parentCtransid w) := by
  refine (finishSubvol_orderly hAgrees).andThen ?_
  rintro w' _ hAgrees' rfl
  rcases startSubvol_agrees hAgrees' path uuid ctransid with
    ⟨here, hStarted⟩
  dsimp only
  split
  · exact hStarted.orderly_error _
  · split
    · exact hStarted.orderly_error _
    · exact hStarted.orderly_finishCall (isSome_here here) _

variable {here : SubvolInfo × Path}

/- A callback for files, while a subvolume is received. -/
theorem underSubvol_orderly
    {call : Path → World S H → Ret S H}
    (hAgrees : Agrees w (some here))
    (hCall :
      ∀ w, Agrees w (some here) →
        Orderly (·.isSome) (call here.2 w)) :
    Orderly (·.isSome) (underSubvol w call) := by
  rcases here with ⟨sub, full⟩
  unfold underSubvol
  rw [hAgrees.full sub full rfl]
  apply hCall
  refine ⟨?_, hAgrees.sub, hAgrees.full⟩
  rw [World.note, track_append hAgrees.log]
  exact if_pos rfl

theorem fileCall_orderly
    (call : S → Path → Except Errno S)
    (path : Path)
    (hAgrees : Agrees w (some here)) :
    Orderly (·.isSome) (fileCall call path w) :=
  underSubvol_orderly hAgrees fun _ hNow =>
    hNow.orderly_finishCall (isSome_here here) _

theorem fileCall2_orderly
    (call : S → Path → Path → Except Errno S)
    (path path2 : Path)
    (hAgrees : Agrees w (some here)) :
    Orderly (·.isSome) (fileCall2 call path path2 w) :=
  underSubvol_orderly hAgrees fun _ hNow =>
    hNow.orderly_finishCall (isSome_here here) _

theorem openInodeForWrite_agrees
    (hAgrees : Agrees w cur)
    (path : Path) :
    Agrees (openInodeForWrite V path w).2 cur := by
  unfold openInodeForWrite
  split
  · split
    · exact hAgrees
    · split
      · exact hAgrees.congr rfl rfl rfl
      · exact hAgrees.congr rfl rfl rfl
  · split
    · exact hAgrees
    · exact hAgrees.congr rfl rfl rfl

theorem writeLoop_orderly
    (hP : P cur)
    (fd : H)
    (fuel : Nat)
    (data : List UInt8)
    (offset : Nat)
    (hAgrees : Agrees w cur) :
    Orderly P (writeLoop V fd w fuel data offset) := by
  induction fuel generalizing w data offset with
  | zero =>
      cases data with
      | nil => exact hAgrees.orderly_ok hP
      | cons b data => exact hAgrees.orderly_error _
  | succ fuel ih =>
      cases data with
      | nil => exact hAgrees.orderly_ok hP
      | cons b data =>
          simp only [writeLoop]
          split
          · exact hAgrees.orderly_error _
          · exact ih _ _ (hAgrees.congr rfl rfl rfl)

theorem processWrite_orderly
    (hAgrees : Agrees w (some here))
    (path data : List UInt8)
    (offset : Nat) :
    Orderly (·.isSome) (processWrite V (openInodeForWrite V)
      path data offset w) := by
  refine underSubvol_orderly hAgrees ?_
  intro w' hNow
  have hOpened := openInodeForWrite_agrees (V := V) hNow
    (pathCat here.2 path)
  rcases hOpen : openInodeForWrite V (pathCat here.2 path) w'
    with ⟨result, w''⟩
  rw [hOpen] at hOpened
  cases result with
  | error e => exact hOpened.orderly_error e
  | ok fd => exact writeLoop_orderly (isSome_here here) fd _ _ _ hOpened

theorem processClone_orderly
    (hAgrees : Agrees w (some here))
    (path : Path)
    (offset len : Nat)
    (uuid : List UInt8)
    (ctransid : Nat)
    (clonePath : Path)
    (cloneOffset : Nat) :
    Orderly (·.isSome) (processClone V (openInodeForWrite V)
      path offset len uuid ctransid clonePath cloneOffset
      w) := by
  refine underSubvol_orderly hAgrees ?_
  intro w' hNow
  have hOpened := openInodeForWrite_agrees (V := V) hNow
    (pathCat here.2 path)
  rcases hOpen : openInodeForWrite V (pathCat here.2 path) w'
    with ⟨result, w''⟩
  rw [hOpen] at hOpened
  cases result with
  | error e => exact hOpened.orderly_error e
  | ok fd =>
      have hSub := hOpened.sub
      dsimp only
      split
      · split
        · exact hOpened.orderly_error _
        · exact hOpened.orderly_finishCall (isSome_here here) _
      · rw [hSub]
        dsimp only [Option.map_some]
        split
        · split
          · exact hOpened.orderly_error _
          · exact hOpened.orderly_finishCall
              (isSome_here here) _
        · exact hOpened.orderly_error _

/- A command that starts a subvolume. -/
def startsSubvol : SendOp → Bool
  | .subvol _ _ _ => true
  | .snapshot _ _ _ _ _ => true
  | _ => false

/- A command whose callback is not `NULL`. -/
def hasCallback : SendOp → Bool
  | .updateExtent _ _ _ => false
  | _ => true

/- A subvolume is being received after each callback. -/
theorem processOp_orderly
    {op : SendOp}
    (hAgrees : Agrees w cur)
    (hStarted : startsSubvol op ∨ cur.isSome)
    (hCallback : hasCallback op) :
    Orderly (·.isSome)
      (processOp V (openInodeForWrite V) op w) := by
  cases hKind : startsSubvol op with
  | true =>
      cases op with
      | subvol path uuid ctransid =>
          exact processSubvol_orderly hAgrees path uuid ctransid
      | snapshot path uuid ctransid parent parentCtransid =>
          exact processSnapshot_orderly hAgrees path uuid
            ctransid parent parentCtransid
      | _ => cases hKind
  | false =>
      have hSome : cur.isSome := by
        rcases hStarted with h | h
        · rw [hKind] at h
          cases h
        · exact h
      rcases Option.isSome_iff_exists.mp hSome with ⟨here, rfl⟩
      cases op with
      | subvol path uuid ctransid
      | snapshot path uuid ctransid parent parentCtransid =>
          cases hKind
      | write path data offset len =>
          exact processWrite_orderly hAgrees path data offset
      | clone path offset len uuid ctransid clonePath from_ =>
          exact processClone_orderly hAgrees path offset len
            uuid ctransid clonePath from_
      | rename path pathTo
      | link path lnk => exact fileCall2_orderly _ _ _ hAgrees
      | updateExtent path offset len => cases hCallback
      | _ => exact fileCall_orderly _ _ hAgrees

end Callbacks

----------
-- Inputs
----------

/- The stream before its first command. -/
def firstCmd
    (buf : List UInt8) : SendStream :=
  ⟨buf, fun _ => none, 0⟩

/- Before a stream, or before a command of a stream. -/
inductive Place where
  | stream (file : List UInt8)
  | cmd (started : Bool) (s : SendStream) (file : List UInt8)

section Inputs

variable (honorEndCmd : Bool)
variable (bufs : List UInt8 → List UInt8)
variable (input : List UInt8)

/-
  The places that reading comes to while no command fails. At
  a command it is known if one before it in the stream has
  started a subvolume.
-/
inductive Reads : Place → Prop where
  | start : Reads (.stream input)
  | header
      {file : List UInt8}
      (hReads : Reads (.stream file))
      (hOk : HeaderOk file) :
      Reads (.cmd false (firstCmd (bufs file))
        (file.drop STREAM_HEADER_SIZE))
  | nothing
      {started : Bool}
      {s s' : SendStream}
      {file rest : List UInt8}
      (hReads : Reads (.cmd started s file))
      (hNext :
        readAndProcessCmd s file =
          .ok (s', .nothing, rest)) :
      Reads (.cmd started s' rest)
  | op
      {started : Bool}
      {s s' : SendStream}
      {op : SendOp}
      {file rest : List UInt8}
      (hReads : Reads (.cmd started s file))
      (hNext :
        readAndProcessCmd s file = .ok (s', .op op, rest)) :
      Reads (.cmd true s' rest)
  | next
      {started : Bool}
      {s s' : SendStream}
      {file rest : List UInt8}
      (hReads : Reads (.cmd started s file))
      (hNext :
        readAndProcessCmd s file =
          .ok (s', .finish, rest))
      (hHonor : honorEndCmd = false) :
      Reads (.stream rest)

/-
  Commands that stay in the buffer and have a callback, files
  only after a subvolume of the same stream, and no header
  that is cut off.
-/
structure Fit : Prop where
  whole :
    ∀ file, Reads honorEndCmd bufs input (.stream file) →
      file = [] ∨ STREAM_HEADER_SIZE ≤ file.length
  inside :
    ∀ started s file,
      Reads honorEndCmd bufs input (.cmd started s file) →
        readAndProcessCmd s file ≠ .error .bug
  order :
    ∀ started s file s' op rest,
      Reads honorEndCmd bufs input (.cmd started s file) →
        readAndProcessCmd s file = .ok (s', .op op, rest) →
          (startsSubvol op ∨ started) ∧ hasCallback op

end Inputs

/- Commands up to and with an end command. -/
inductive CmdsEnd :
    SendStream → List UInt8 → List UInt8 → Prop where
  | finish
      {s s' : SendStream}
      {file rest : List UInt8}
      (hNext :
        readAndProcessCmd s file =
          .ok (s', .finish, rest)) :
      CmdsEnd s file rest
  | nothing
      {s s' : SendStream}
      {file next rest : List UInt8}
      (hNext :
        readAndProcessCmd s file =
          .ok (s', .nothing, next))
      (hRest : CmdsEnd s' next rest) :
      CmdsEnd s file rest
  | op
      {s s' : SendStream}
      {op : SendOp}
      {file next rest : List UInt8}
      (hNext :
        readAndProcessCmd s file = .ok (s', .op op, next))
      (hRest : CmdsEnd s' next rest) :
      CmdsEnd s file rest

/- A stream from its header to its end command. -/
def StreamTo
    (bufs : List UInt8 → List UInt8)
    (file rest : List UInt8) : Prop :=
  HeaderOk file ∧
    CmdsEnd (firstCmd (bufs file))
      (file.drop STREAM_HEADER_SIZE) rest

/- Complete streams, with nothing behind the last one. -/
inductive Complete
    (bufs : List UInt8 → List UInt8) :
    List UInt8 → Prop where
  | nil : Complete bufs []
  | stream
      {file rest : List UInt8}
      (hStream : StreamTo bufs file rest)
      (hRest : Complete bufs rest) :
      Complete bufs file

/-
  What is read when the end command is honored: at most one
  complete stream, whatever is behind it.
-/
def FirstComplete
    (bufs : List UInt8 → List UInt8)
    (file : List UInt8) : Prop :=
  file = [] ∨ ∃ rest, StreamTo bufs file rest

----------
-- Runs
----------

section Runs

variable {S H : Type}
variable {V : Vfs S H}
variable {honorEndCmd : Bool}
variable {bufs : List UInt8 → List UInt8}
variable {input : List UInt8}

theorem streamLoop_orderly
    (hFit : Fit honorEndCmd bufs input)
    {fuel : Nat}
    {started : Bool}
    {s : SendStream}
    {file : List UInt8}
    {w : World S H}
    {cur : Current}
    (hReads :
      Reads honorEndCmd bufs input (.cmd started s file))
    (hAgrees : Agrees w cur)
    (hStarted : started = cur.isSome)
    {result : Except Stop Bool}
    {rest : List UInt8}
    {w' : World S H}
    (hRun :
      streamLoop V honorEndCmd fuel s file w =
        (result, rest, w')) :
    result ≠ .error .bug ∧
      (∃ cur', track none w'.log = some cur') ∧
      ∀ done, result = .ok done →
        done = honorEndCmd ∧ (∃ cur', Agrees w' cur') ∧
          CmdsEnd s file rest ∧
          (honorEndCmd = false →
            Reads honorEndCmd bufs input (.stream rest)) := by
  induction fuel generalizing started s file w cur with
  | zero =>
      cases hRun
      exact ⟨nofun, ⟨cur, hAgrees.log⟩, nofun⟩
  | succ fuel ih =>
      rw [streamLoop] at hRun
      cases hNext : readAndProcessCmd s file with
      | error stop =>
          rw [hNext] at hRun
          cases hRun
          refine ⟨?_, ⟨cur, hAgrees.log⟩, nofun⟩
          intro hBug
          cases hBug
          exact hFit.inside started s _ hReads hNext
      | ok out =>
          rcases out with ⟨s', parsed, next⟩
          rw [hNext] at hRun
          cases parsed with
          | finish =>
              cases hRun
              refine ⟨nofun, ⟨cur, hAgrees.log⟩, ?_⟩
              intro done hDone
              cases hDone
              refine ⟨rfl, ⟨cur, hAgrees⟩, .finish hNext, ?_⟩
              intro hHonor
              exact .next hReads hNext hHonor
          | nothing =>
              rcases ih (.nothing hReads hNext) hAgrees
                hStarted hRun with ⟨hNoBug, hLog, hThen⟩
              refine ⟨hNoBug, hLog, ?_⟩
              intro done hDone
              rcases hThen done hDone with
                ⟨hHonor, hEnd, hCmds, hReads'⟩
              exact ⟨hHonor, hEnd, .nothing hNext hCmds,
                hReads'⟩
          | op op =>
              rcases hFit.order started s file s' op next
                hReads hNext with ⟨hOrder, hCallback⟩
              rw [hStarted] at hOrder
              have hOp := processOp_orderly (V := V) hAgrees
                hOrder hCallback
              rcases hCall : processOp V (openInodeForWrite V)
                op w with ⟨called, w₁⟩
              rw [hCall] at hOp
              dsimp only at hRun
              rw [hCall] at hRun
              rcases hOp with ⟨hNoBug, cur₁, hLog, hThen⟩
              cases called with
              | error stop =>
                  cases hRun
                  refine ⟨?_, ⟨cur₁, hLog⟩, nofun⟩
                  intro hBug
                  cases hBug
                  exact hNoBug rfl
              | ok u =>
                  rcases hThen rfl with ⟨hAgrees₁, hSome⟩
                  rcases ih (.op hReads hNext) hAgrees₁
                    hSome.symm hRun with
                    ⟨hNoBug', hLog', hThen'⟩
                  refine ⟨hNoBug', hLog', ?_⟩
                  intro done hDone
                  rcases hThen' done hDone with
                    ⟨hHonor, hEnd, hCmds, hReads'⟩
                  exact ⟨hHonor, hEnd, .op hNext hCmds,
                    hReads'⟩

theorem receiveStream_of_headerOk
    {buf file : List UInt8}
    {w : World S H}
    (hOk : HeaderOk file) :
    receiveStream V honorEndCmd buf file w =
      streamLoop V honorEndCmd
        ((file.drop STREAM_HEADER_SIZE).length + 1)
        (firstCmd buf) (file.drop STREAM_HEADER_SIZE) w := by
  rcases hOk with ⟨hWhole, hMagic, hVersion⟩
  have hTake :
      (file.take STREAM_HEADER_SIZE).take 13 =
        file.take 13 := by
    rw [List.take_take]
    rfl
  unfold receiveStream
  simp only [List.length_take, hTake]
  rw [if_neg (by omega), if_neg (not_not.mpr hMagic),
    if_neg (by omega)]
  rfl

/- The header, and then the commands. -/
theorem receiveStream_orderly
    (hFit : Fit honorEndCmd bufs input)
    {file : List UInt8}
    {w : World S H}
    (hReads : Reads honorEndCmd bufs input (.stream file))
    (hAgrees : Agrees w none)
    {result : Except Stop Bool}
    {rest : List UInt8}
    {w' : World S H}
    (hRun :
      receiveStream V honorEndCmd (bufs file) file w =
        (result, rest, w')) :
    result ≠ .error .bug ∧
      (∃ cur, track none w'.log = some cur) ∧
      ∀ done, result = .ok done →
        (∃ cur, Agrees w' cur) ∧
          ((file = [] ∧ done = true) ∨
            (StreamTo bufs file rest ∧ done = honorEndCmd ∧
              (honorEndCmd = false →
                Reads honorEndCmd bufs input
                  (.stream rest)))) := by
  unfold receiveStream at hRun
  simp only [List.length_take] at hRun
  split at hRun
  · rename_i hShort
    cases hRun
    refine ⟨nofun, ⟨none, hAgrees.log⟩, ?_⟩
    intro done hDone
    cases hDone
    refine ⟨⟨none, hAgrees⟩, .inl ⟨?_, rfl⟩⟩
    rcases hFit.whole file hReads with hNil | hWhole
    · exact hNil
    · omega
  · rename_i hWhole
    split at hRun
    · cases hRun
      exact ⟨nofun, ⟨none, hAgrees.log⟩, nofun⟩
    · rename_i hMagic
      split at hRun
      · cases hRun
        exact ⟨nofun, ⟨none, hAgrees.log⟩, nofun⟩
      · rename_i hVersion
        have hTake :
            (file.take STREAM_HEADER_SIZE).take 13 =
              file.take 13 := by
          rw [List.take_take]
          rfl
        have hOk : HeaderOk file := by
          refine ⟨by omega, ?_, by omega⟩
          rw [← hTake]
          exact not_not.mp hMagic
        rcases streamLoop_orderly hFit (.header hReads hOk)
          hAgrees rfl hRun with ⟨hNoBug, hLog, hThen⟩
        refine ⟨hNoBug, hLog, ?_⟩
        intro done hDone
        rcases hThen done hDone with
          ⟨hHonor, hEnd, hCmds, hNext⟩
        exact ⟨hEnd, .inr ⟨⟨hOk, hCmds⟩, hHonor, hNext⟩⟩

theorem closeInodeForWrite_agrees
    {w : World S H}
    {cur : Current}
    (hAgrees : Agrees w cur) :
    Agrees (closeInodeForWrite w) cur := by
  unfold closeInodeForWrite
  split
  · exact hAgrees
  · exact hAgrees.congr rfl rfl rfl

/- What has been read when 0 is returned. -/
def ReadAll
    (honorEndCmd : Bool)
    (bufs : List UInt8 → List UInt8)
    (file : List UInt8) : Prop :=
  if honorEndCmd then FirstComplete bufs file
  else Complete bufs file

theorem readAll_nil :
    ReadAll honorEndCmd bufs [] := by
  unfold ReadAll
  split
  · exact .inl rfl
  · exact .nil

/- By induction on the streams that are left. -/
theorem doReceive_orderly
    (hFit : Fit honorEndCmd bufs input)
    {fuel : Nat}
    {file : List UInt8}
    {w : World S H}
    (hReads : Reads honorEndCmd bufs input (.stream file))
    (hAgrees : Agrees w none) :
    (doReceive V honorEndCmd bufs fuel file w).1 ≠
        .error .bug ∧
      ∃ cur,
        track none
            (doReceive V honorEndCmd bufs fuel file w).2.log =
          some cur ∧
        ((doReceive V honorEndCmd bufs fuel file w).1 =
            .ok () →
          cur = none ∧ ReadAll honorEndCmd bufs file) := by
  induction fuel generalizing file w with
  | zero => exact ⟨nofun, none, hAgrees.log, nofun⟩
  | succ fuel ih =>
      rw [doReceive]
      rcases hStream : receiveStream V honorEndCmd (bufs file)
        file w with ⟨result, rest, w₁⟩
      rcases receiveStream_orderly hFit hReads hAgrees hStream
        with ⟨hNoBug, ⟨cur₁, hLog₁⟩, hThen⟩
      cases result with
      | error stop =>
          refine ⟨?_, cur₁, hLog₁, nofun⟩
          intro hBug
          cases hBug
          exact hNoBug rfl
      | ok done =>
          rcases hThen done rfl with ⟨⟨cur, hNow⟩, hRead⟩
          have hFinish := finishSubvol_orderly (V := V)
            (closeInodeForWrite_agrees hNow)
          dsimp only
          rcases hCall : finishSubvol V (closeInodeForWrite w₁)
            with ⟨called, w₂⟩
          rw [hCall] at hFinish
          rcases hFinish with ⟨hNoBug₂, cur₂, hLog₂, hThen₂⟩
          unfold Ret.andThen
          cases called with
          | error stop =>
              refine ⟨?_, cur₂, hLog₂, nofun⟩
              intro hBug
              cases hBug
              exact hNoBug₂ rfl
          | ok u =>
              rcases hThen₂ rfl with ⟨hAgrees₂, rfl⟩
              dsimp only
              rcases hRead with ⟨rfl, rfl⟩ | hRead
              · rw [if_pos rfl]
                exact ⟨nofun, none, hLog₂,
                  fun _ => ⟨rfl, readAll_nil⟩⟩
              · rcases hRead with ⟨hTo, rfl, hNext⟩
                cases done with
                | true =>
                    rw [if_pos rfl]
                    refine ⟨nofun, none, hLog₂, ?_⟩
                    intro _
                    exact ⟨rfl, .inr ⟨rest, hTo⟩⟩
                | false =>
                    rw [if_neg Bool.false_ne_true]
                    rcases ih (hNext rfl) hAgrees₂ with
                      ⟨hNoBug₃, cur₃, hLog₃, hThen₃⟩
                    refine ⟨hNoBug₃, cur₃, hLog₃, ?_⟩
                    intro hOk
                    rcases hThen₃ hOk with ⟨hNone, hAll⟩
                    exact ⟨hNone, .stream hTo hAll⟩

----------
-- Enough Turns
----------

theorem ok_bind
    {α β : Type}
    {first : Except Stop α}
    {next : α → Except Stop β}
    {b : β}
    (hBind : first >>= next = .ok b) :
    ∃ a, first = .ok a ∧ next a = .ok b := by
  cases first with
  | error stop => cases hBind
  | ok a => exact ⟨a, rfl, hBind⟩

theorem readBuf_rest
    {buf file buf' rest : List UInt8}
    {place len : Nat}
    (hRead : readBuf buf place len file = .ok (buf', rest)) :
    rest.length + len = file.length := by
  unfold readBuf at hRead
  simp only [List.length_take] at hRead
  split at hRead
  · cases hRead
  · split at hRead
    · cases hRead
    · cases hRead
      rw [List.length_drop]
      omega

/- A command is at least a header. -/
theorem readAndProcessCmd_shorter
    {s s' : SendStream}
    {file rest : List UInt8}
    {parsed : Parsed}
    (hNext :
      readAndProcessCmd s file = .ok (s', parsed, rest)) :
    rest.length < file.length := by
  unfold readAndProcessCmd at hNext
  rcases ok_bind hNext with ⟨⟨s₁, cmdLen, file₁⟩, hCmd, hNext⟩
  rcases ok_bind hNext with ⟨parsed', _, hLast⟩
  cases hLast
  unfold readCmd at hCmd
  rcases ok_bind hCmd with ⟨⟨buf₁, file₂⟩, hHeader, hCmd⟩
  rcases ok_bind hCmd with ⟨⟨buf₂, file₃⟩, hPayload, hCmd⟩
  have hFirst := readBuf_rest hHeader
  have hSecond := readBuf_rest hPayload
  have hSame : rest = file₃ := by
    dsimp only at hCmd
    split at hCmd
    · cases hCmd
    · split at hCmd
      · cases hCmd
      · rcases ok_bind hCmd with ⟨attrs, _, hLast⟩
        cases hLast
        rfl
  have hPos : 0 < CMD_HEADER_SIZE := by decide
  rw [hSame]
  omega

/- The loop over the commands ends by itself. -/
theorem streamLoop_enough
    {fuel more : Nat}
    {s : SendStream}
    {file : List UInt8}
    {w : World S H}
    (hFuel : file.length < fuel)
    (hMore : file.length < more) :
    streamLoop V honorEndCmd fuel s file w =
      streamLoop V honorEndCmd more s file w := by
  induction fuel generalizing more s file w with
  | zero => omega
  | succ fuel ih =>
      cases more with
      | zero => omega
      | succ more =>
          rw [streamLoop, streamLoop]
          cases hNext : readAndProcessCmd s file with
          | error stop => rfl
          | ok out =>
              rcases out with ⟨s', parsed, next⟩
              have hShorter := readAndProcessCmd_shorter hNext
              cases parsed with
              | finish => rfl
              | nothing => exact ih (by omega) (by omega)
              | op op =>
                  dsimp only
                  split
                  · rfl
                  · exact ih (by omega) (by omega)

----------
-- All Inputs
----------

/-
  Nothing missing is used; files are changed under the
  subvolume that is being received; each subvolume is finished
  once, but for the last one when there was an error; and 0 is
  returned for complete streams only.
-/
theorem doReceive_safe
    (V : Vfs S H)
    (hFit : Fit honorEndCmd bufs input)
    (fs : S)
    (rootPath destDirPath : Path)
    {ret : Ret S H}
    (hRun :
      doReceive V honorEndCmd bufs (input.length + 1) input
          ⟨fs, BtrfsReceive.init rootPath destDirPath, []⟩ =
        ret) :
    ret.1 ≠ .error .bug ∧
      (∃ cur,
        track none ret.2.log = some cur ∧
          starts ret.2.log =
            finishes ret.2.log ++ Current.subs cur ∧
          (ret.1 = .ok () → cur = none)) ∧
      (ret.1 = .ok () → ReadAll honorEndCmd bufs input) := by
  have hAgrees : Agrees (H := H)
      ⟨fs, BtrfsReceive.init rootPath destDirPath, []⟩ none :=
    ⟨rfl, rfl, nofun⟩
  rcases doReceive_orderly (V := V) hFit .start hAgrees with
    ⟨hNoBug, cur, hLog, hThen⟩
  rw [hRun] at hNoBug hLog hThen
  refine ⟨hNoBug, ⟨cur, hLog, ?_, ?_⟩, ?_⟩
  · exact track_finishes hLog
  · intro hOk
    exact (hThen hOk).1
  · intro hOk
    exact (hThen hOk).2

end Runs

/- The commands that start the subvolume `v` and make `f`. -/
def subvolCommand : Command :=
  plainCommand (.subvol [118] (List.replicate 16 1) 7)
    ⟨by simp [IsName], by simp [IsUuid], by simp [IsU64]⟩
    (by simp [SendOp.attrs, u64Attr])

def mkfileCommand : Command :=
  plainCommand (.mkfile [102]) (by simp [SendOp.WellFormed,
    IsName]) (by simp [SendOp.attrs])

theorem commands_fit :
    FitsBuffer subvolCommand ∧ FitsBuffer mkfileCommand := by
  simp [FitsBuffer, subvolCommand, mkfileCommand,
    plainCommand, SendOp.attrs, u64Attr, encodePayload,
    encodeTlv_length, CMD_HEADER_SIZE, TLV_HEADER_SIZE,
    SEND_BUF_SIZE]

/- A stream of both, and what comes behind it. -/
def subvolStream
    (rest : List UInt8) : List UInt8 :=
  streamHeader ++ (subvolCommand.encode ++
    (mkfileCommand.encode ++
      (encodeCmd SEND_C_END [] ++ rest)))

theorem subvolStream_headerOk
    (rest : List UInt8) :
    HeaderOk (subvolStream rest) := by
  have hTake : ∀ more : List UInt8,
      (streamHeader ++ more).take STREAM_HEADER_SIZE =
        streamHeader :=
    fun more => List.take_left' rfl
  refine ⟨?_, rfl, ?_⟩
  · unfold subvolStream
    rw [List.length_append]
    exact Nat.le_add_right _ _
  · unfold subvolStream
    rw [hTake]
    decide

/- Its three commands. -/
theorem subvolStream_cmds
    (rest : List UInt8) :
    ∃ s₁ s₂ s₃ more last,
      readAndProcessCmd (firstCmd zeroBuf)
          ((subvolStream rest).drop STREAM_HEADER_SIZE) =
        .ok (s₁, .op (.subvol [118] (List.replicate 16 1) 7),
          more) ∧
      readAndProcessCmd s₁ more =
        .ok (s₂, .op (.mkfile [102]), last) ∧
      readAndProcessCmd s₂ last = .ok (s₃, .finish, rest) := by
  rcases readAndProcessCmd_encoded
    (s := firstCmd zeroBuf) (List.length_replicate ..)
    commands_fit.1 (mkfileCommand.encode ++
      (encodeCmd SEND_C_END [] ++ rest)) with
    ⟨s₁, hFirst, hBuf⟩
  rcases readAndProcessCmd_encoded hBuf commands_fit.2
    (encodeCmd SEND_C_END [] ++ rest) with
    ⟨s₂, hSecond, hBuf⟩
  rcases readAndProcessCmd_end hBuf rest with ⟨s₃, hEnd⟩
  exact ⟨s₁, s₂, s₃, _, _, hFirst, hSecond, hEnd⟩

/- It can be read, if nothing comes behind it. -/
theorem subvolStream_fit :
    Fit false (fun _ => zeroBuf) (subvolStream []) := by
  rcases subvolStream_cmds [] with
    ⟨s₁, s₂, s₃, more, last, hFirst, hSecond, hEnd⟩
  have hPlaces : ∀ place,
      Reads false (fun _ => zeroBuf) (subvolStream []) place →
        match place with
        | .stream file => file = subvolStream [] ∨ file = []
        | .cmd started s file => ∃ next,
            readAndProcessCmd s file = .ok next ∧
              (next = (s₁, .op subvolCommand.op, more) ∨
                started = true ∧
                  (next = (s₂, .op (.mkfile [102]), last) ∨
                    next = (s₃, .finish, []))) := by
    intro place hReads
    induction hReads with
    | start => exact .inl rfl
    | header _ hOk ih =>
        rcases ih with rfl | rfl
        · exact ⟨_, hFirst, .inl rfl⟩
        · exact absurd hOk (by decide)
    | nothing _ hNext ih =>
        rcases ih with ⟨_, hIs, rfl | ⟨_, rfl | rfl⟩⟩
        all_goals cases hIs.symm.trans hNext
    | op _ hNext ih =>
        rcases ih with ⟨_, hIs, rfl | ⟨_, rfl | rfl⟩⟩
        all_goals cases hIs.symm.trans hNext
        · exact ⟨_, hSecond, .inr ⟨rfl, .inl rfl⟩⟩
        · exact ⟨_, hEnd, .inr ⟨rfl, .inr rfl⟩⟩
    | next _ hNext _ ih =>
        rcases ih with ⟨_, hIs, rfl | ⟨_, rfl | rfl⟩⟩
        all_goals cases hIs.symm.trans hNext
        exact .inr rfl
  refine ⟨?_, ?_, ?_⟩
  · intro file hReads
    rcases hPlaces _ hReads with rfl | rfl
    · exact .inr (subvolStream_headerOk []).1
    · exact .inl rfl
  · intro started s file hReads
    rcases hPlaces _ hReads with ⟨_, hIs, _⟩
    rw [hIs]
    nofun
  · intro started s file s' op rest hReads hNext
    rcases hPlaces _ hReads with
      ⟨_, hIs, rfl | ⟨hStarted, rfl | rfl⟩⟩
    all_goals cases hIs.symm.trans hNext
    · exact ⟨.inl rfl, rfl⟩
    · exact ⟨.inr hStarted, rfl⟩

theorem doReceive_safe_subvol :
    let bufs := fun _ => zeroBuf
    let ret := doReceive Files.vfs false bufs
      ((subvolStream []).length + 1) (subvolStream [])
      ⟨⟨fun _ => none, fun _ => [], 0⟩,
        BtrfsReceive.init [47] [], []⟩
    ret.1 ≠ .error .bug ∧
      (∃ cur,
        track none ret.2.log = some cur ∧
          starts ret.2.log =
            finishes ret.2.log ++ Current.subs cur ∧
          (ret.1 = .ok () → cur = none)) ∧
      (ret.1 = .ok () →
        ReadAll false bufs (subvolStream [])) :=
  doReceive_safe Files.vfs subvolStream_fit
    ⟨fun _ => none, fun _ => [], 0⟩ [47] [] rfl

/-
  With `-e` the byte behind the stream is left over, and 0 is
  returned.
-/
theorem endHonored_leaves_rest :
    (doReceive Files.vfs true (fun _ => zeroBuf)
        ((subvolStream [0]).length + 1) (subvolStream [0])
        ⟨⟨fun _ => some 0, fun _ => [], 1⟩,
          BtrfsReceive.init [47] [], []⟩).1 = .ok () ∧
      ¬ Complete (fun _ => zeroBuf) (subvolStream [0]) := by
  rcases subvolStream_cmds [0] with
    ⟨s₁, s₂, s₃, more, last, hFirst, hSecond, hEnd⟩
  have hOk := subvolStream_headerOk [0]
  have hStart : ∀ w : World Files Nat,
      w.r.curSubvol = none →
        processOp Files.vfs (openInodeForWrite Files.vfs)
            (.subvol [118] (List.replicate 16 1) 7) w =
          (.ok (), startSubvol [118] (List.replicate 16 1) 7
            w) := by
    intro w hNone
    simp only [processOp, processSubvol, finishSubvol, hNone]
    rfl
  -- the file is there, and is emptied
  have hMkfile : ∀ (w : World Files Nat) (base : Path),
      w.r.fullSubvolPath = some base →
      w.fs.names = (fun _ => some 0) →
        processOp Files.vfs (openInodeForWrite Files.vfs)
            (.mkfile [102]) w =
          (.ok (), { w.note (.file base) with
            fs := w.fs.setBytes 0 [] }) := by
    intro w base hBase hNames
    simp only [processOp, fileCall, underSubvol, hBase,
      Files.vfs, Files.creat, World.note, hNames]
    rfl
  constructor
  · rw [doReceive, receiveStream_of_headerOk hOk,
      streamLoop_enough (Nat.lt_succ_self _)
        (Nat.lt_succ_of_lt
          (Nat.lt_succ_of_lt (Nat.lt_succ_self _))),
      streamLoop, hFirst]
    dsimp only
    rw [hStart _ rfl]
    dsimp only
    rw [streamLoop, hSecond]
    -- the file is there, so it is only emptied
    dsimp only
    rw [hMkfile _ _ rfl rfl]
    dsimp only
    rw [streamLoop, hEnd]
    rfl
  · intro hComplete
    cases hComplete with
    | stream hStream hRest =>
        cases hStream.2 with
        | finish hNext
        | nothing hNext _ => cases hFirst.symm.trans hNext
        | op hNext hMore =>
            cases hFirst.symm.trans hNext
            cases hMore with
            | finish hNext
            | nothing hNext _ => cases hSecond.symm.trans hNext
            | op hNext hMore =>
                cases hSecond.symm.trans hNext
                cases hMore with
                | finish hNext =>
                    cases hEnd.symm.trans hNext
                    cases hRest with
                    | stream hShort _ =>
                        exact absurd hShort.1 (by decide)
                | nothing hNext _
                | op hNext _ => cases hEnd.symm.trans hNext

end Receive

end BtrfsProgs
