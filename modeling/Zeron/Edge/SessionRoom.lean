import Mathlib.Algebra.GroupWithZero.Nat
import Mathlib.Logic.Function.Basic
import Zeron.Edge.Blobs
import Zeron.Lib.Machine

/-!
# Session rooms

`SessionRoom` of `edge/src/session-room.ts`: the document of a room as a stored snapshot, a log and a
buffer, and the cached copy that the handlers import into. One handler runs at a time, up to where it
awaits `storage.sync()` or the backup's put; there any other event may come first. An `await` of a call
that does not get that far goes on before any other event.
-/

namespace Zeron.Edge

open Zeron.Lib (Machine)

def dayMs : Nat := 24 * 60 * 60 * 1000

def retainMs : Nat := 3 * dayMs

def replayCrashLimit : Nat := 3

def maxCheckpoints : Nat := 36

def trimForceBytes : Nat := 512 * 1024

def compactLogBytes : Nat := 2 * 1024 * 1024

def compactLogRows : Nat := 400

/-- What a flush goes on with. -/
inductive AfterFlush where
  | finish
  | alarm
  /-- `/tail` and `/snapshot` -/
  | read
deriving DecidableEq

/-- What awaits `ensureDoc`. -/
inductive Cont (U : Type*) where
  | join
  | apply (updates : List U)
  | append (update : U)
  | fold (next : AfterFlush)
  | foldExport (next : AfterFlush)
  | alarm
  | backup
  | read
deriving DecidableEq

/-- What awaits `trimHistoryIfDue`. -/
inductive AfterTrim (U : Type*) where
  | ensured (cont : Cont U)
  | fold (next : AfterFlush)
  | alarm
deriving DecidableEq

/-- Where a handler stands. `built` is kept for the statements: how many updates had been
acknowledged when the copy was made. -/
inductive Point (U : Type*) where
  | flush (next : AfterFlush)
  | flushed (next : AfterFlush)
  | ensure (cont : Cont U)
  | replay (cont : Cont U)
  | cache (cont : Cont U) (copy : List U) (built : Nat)
  | trim (doc : Nat) (next : AfterTrim U)
  | swap (doc : Nat) (shallow : List U) (built : Nat) (next : AfterTrim U)
  | trimmed (done : Bool) (next : AfterTrim U)
  | ensured (cont : Cont U)
  | putting
deriving DecidableEq

inductive Event (U : Type*) where
  | join
  | update (updates : List U)
  | append (update : U)
  /-- The flush timer, a closed socket, or `/stats`. -/
  | flush
  | alarm
  | read
  | releaseIdle
deriving DecidableEq

inductive Action (U : Type*) where
  | event (event : Event U)
  /-- The `i`-th suspended handler goes on. -/
  | resume (i : Nat)
  | advance (now : Nat)
  /-- A step throws where the handler catches it, or a backup does not advance. -/
  | fail
  /-- A cold replay with the updates that could not be imported and were skipped. -/
  | replay (skipped : List U)
  /-- The imports of a batch: whether one threw, and which threw again one by one. -/
  | imports (failed : Bool) (rejected : List U)
  /-- The handler dies after it has imported some updates. -/
  | die (imported : Nat)
  /-- An export, and the size of the stored blob. -/
  | export (now bytes : Nat)
deriving DecidableEq

/-- `docs` are the documents in memory, `none` where freed. `acked` is kept for the statements: the
updates acknowledged as Ok. -/
structure SessionRoom (U : Type*) where
  snapshot : List U
  snapshotBytes : Nat
  rows : List U
  updateBytes : Nat
  pending : List U
  docs : Nat → Option (List U)
  nextDoc : Nat
  doc : Option Nat
  replayAttempts : Nat
  checkpoints : List Nat
  lastTrimAt : Option Nat
  chatId : Option String
  backupDirty : Bool
  postReset : Bool
  running : Option (Point U)
  suspended : List (Point U)
  acked : List U

namespace SessionRoom

variable {U : Type*} [DecidableEq U] (size : U → Nat) (room : SessionRoom U)

def live : Option (Nat × List U) :=
  room.doc.bind fun doc => (room.docs doc).map fun contents => (doc, contents)

def run (point : Point U) : SessionRoom U := { room with running := some point }

def suspend (point : Point U) : SessionRoom U :=
  { room with running := none, suspended := room.suspended ++ [point] }

def done : SessionRoom U := { room with running := none }

/-- `ws` with digits and a slash: a workspace room. -/
def isWorkspace (chatId : String) : Bool :=
  match chatId.toList with
  | 'w' :: 's' :: rest =>
      (rest.takeWhile Char.isDigit ≠ []) && (rest.dropWhile Char.isDigit).head? = some '/'
  | _ => false

def trimDue (now : Nat) : Option Nat :=
  let cutoff := (room.checkpoints.filter fun at' => retainMs ≤ now - at').getLast?
  if cutoff.isSome && room.lastTrimAt ≠ cutoff then cutoff
  else if trimForceBytes < room.snapshotBytes + room.updateBytes then
    if room.chatId.any isWorkspace &&
        (room.checkpoints.filter fun at' => dayMs ≤ now - at') = [] then none
    else some (cutoff.getD now)
  else none

def pushCheckpoint (now : Nat) : SessionRoom U :=
  let checkpoints := room.checkpoints ++ [now]
  { room with checkpoints := checkpoints.drop (checkpoints.length - maxCheckpoints) }

def checkpointColdStart (now : Nat) : SessionRoom U :=
  if room.checkpoints.getLast?.all fun newest => dayMs ≤ now - newest then room.pushCheckpoint now
  else room

/-- `snapshot` replaces the log. -/
def storeSnapshot (contents : List U) (bytes : Nat) : SessionRoom U :=
  { room with snapshot := contents, snapshotBytes := bytes, rows := [], updateBytes := 0 }

/-- `recordLoroUpdates` -/
def recordLoroUpdates (updates : List U) : SessionRoom U :=
  let real := updates.filter fun update => size update ≠ 0
  if real = [] then room
  else { room with pending := room.pending ++ real, backupDirty := true, postReset := false }

def importInto (doc : Nat) (contents updates : List U) : SessionRoom U :=
  { room with docs := Function.update room.docs doc (some (contents ++ updates)) }

def acknowledge (updates : List U) : SessionRoom U := { room with acked := room.acked ++ updates }

def start : Event U → Option (SessionRoom U)
  | .join => some (room.run (.ensure .join))
  | .update updates => some (room.run (.ensure (.apply updates)))
  | .append update => some (room.run (.ensure (.append update)))
  | .flush => some (room.run (.flush .finish))
  | .alarm => some (room.run (.flush .alarm))
  | .read => some (room.run (.flush .read))
  | .releaseIdle =>
      room.doc.map fun doc =>
        { room with docs := Function.update room.docs doc none, doc := none }

def flush (next : AfterFlush) : SessionRoom U :=
  if room.pending = [] then room.run (.flushed next)
  else
    let rows := room.rows ++ room.pending
    let logBytes := room.updateBytes + (room.pending.map size).sum
    let room := { room with rows, updateBytes := logBytes, pending := [] }
    if compactLogBytes < logBytes ∨
        compactLogRows < (rows.map fun update => (size update + chunkBytes - 1) / chunkBytes).sum then
      room.run (.ensure (.fold next))
    else room.run (.flushed next)

def flushed : AfterFlush → SessionRoom U
  | .finish => room.done
  | .alarm => if room.backupDirty then room.run (.ensure .alarm) else room.done
  | .read => room.run (.ensure .read)

/-- At the limit of replay attempts the log is dropped, which is outside these runs. -/
def ensure (cont : Cont U) : Option (SessionRoom U) :=
  match room.live with
  | some _ => some (room.run (.ensured cont))
  | none =>
      if room.replayAttempts < replayCrashLimit then
        some ({ room with doc := none, replayAttempts := room.replayAttempts + 1 }.suspend
          (.replay cont))
      else none

def replay (cont : Cont U) (skipped : List U) : SessionRoom U :=
  let copy := (room.snapshot ++ room.rows ++ room.pending).filter fun update => update ∉ skipped
  { room with replayAttempts := 0 }.suspend (.cache cont copy room.acked.length)

def cache (cont : Cont U) (copy : List U) (now : Nat) : SessionRoom U :=
  ({ room with
    docs := Function.update room.docs room.nextDoc (some copy), nextDoc := room.nextDoc + 1
    doc := some room.nextDoc }.checkpointColdStart now).run (.trim room.nextDoc (.ensured cont))

/-- Without an export nothing was due, or it threw. -/
def trim (doc : Nat) (next : AfterTrim U) : Option (Nat × Nat) → SessionRoom U
  | some (now, bytes) =>
      match room.trimDue now, room.docs doc with
      | some trimAt, some contents =>
          ({ room.storeSnapshot contents bytes with lastTrimAt := some trimAt }).suspend
            (.swap doc contents room.acked.length next)
      | _, _ => room.run (.trimmed false next)
  | none => room.run (.trimmed false next)

def free (docs : Nat → Option (List U)) (doc : Nat) : Nat → Option (List U) :=
  Function.update docs doc none

/-- The trimmed copy becomes the cached document; the one it replaces and the caller's are freed. -/
def swap (doc : Nat) (shallow : List U) (next : AfterTrim U) : SessionRoom U :=
  let fresh := room.nextDoc
  let docs := Function.update room.docs fresh (some shallow)
  let docs := match room.doc with
    | some old => if old = fresh then docs else free docs old
    | none => docs
  let docs := if doc = fresh then docs else free docs doc
  { room with docs, nextDoc := fresh + 1, doc := some fresh }.run (.trimmed true next)

def trimmed (done : Bool) : AfterTrim U → SessionRoom U
  | .ensured cont => room.run (.ensured cont)
  | .fold next =>
      if done then room.run (.flushed next) else room.run (.ensure (.foldExport next))
  | .alarm =>
      if room.chatId.isSome && !room.postReset then room.run (.ensure .backup) else room.done

/-- What a handler does with the document. -/
def ensured (cont : Cont U) (doc : Nat) (contents : List U) (action : Action U) :
    Option (SessionRoom U) :=
  match cont, action with
  | .join, .advance _ | .read, .advance _ => some room.done
  | .apply updates, .imports failed rejected =>
      let real := updates.filter fun update => size update ≠ 0
      if failed then
        let imported := real.filter fun update => update ∉ rejected
        some ((room.importInto doc contents imported).recordLoroUpdates size imported).done
      else
        some (((room.importInto doc contents real).recordLoroUpdates size updates).acknowledge
          real).done
  | .apply updates, .die imported =>
      let real := updates.filter fun update => size update ≠ 0
      some (room.importInto doc contents (real.take imported)).done
  | .append update, .imports failed _ =>
      let real := [update].filter fun update => size update ≠ 0
      if failed then some room.done
      else
        some (((room.importInto doc contents real).recordLoroUpdates size [update]).acknowledge
          real).done
  | .fold next, .advance _ => some (room.run (.trim doc (.fold next)))
  | .foldExport next, .export _ bytes =>
      some ((room.storeSnapshot contents bytes).run (.flushed next))
  | .foldExport _, .fail => some room.done
  | .alarm, .advance now => some ((room.pushCheckpoint now).run (.trim doc .alarm))
  | .backup, .advance _ => some (room.suspend .putting)
  | .backup, .fail => some room.done
  | _, _ => none

def stepPoint (point : Point U) (action : Action U) : Option (SessionRoom U) :=
  match point, action with
  | .flush next, .advance _ => some (room.flush size next)
  | .flushed next, .advance _ => some (room.flushed next)
  | .ensure cont, .advance _ => room.ensure cont
  | .replay cont, .replay skipped => some (room.replay cont skipped)
  | .cache cont copy _, .advance now => some (room.cache cont copy now)
  | .trim doc next, .export now bytes => some (room.trim doc next (some (now, bytes)))
  | .trim doc next, .fail => some (room.trim doc next none)
  | .swap doc shallow _ next, .advance _ => some (room.swap doc shallow next)
  | .swap _ _ _ next, .fail => some (room.run (.trimmed false next))
  | .trimmed done next, .advance _ => some (room.trimmed done next)
  | .ensured cont, action =>
      room.live.bind fun (doc, contents) => room.ensured size cont doc contents action
  | .putting, .advance _ => some { room with backupDirty := false }.done
  | _, _ => none

def step (action : Action U) : Option (SessionRoom U) :=
  match room.running, action with
  | none, .event event => room.start event
  | none, .resume i =>
      (room.suspended[i]?).map fun point =>
        { room with running := some point, suspended := room.suspended.eraseIdx i }
  | none, _ => none
  | some _, .event _ | some _, .resume _ => none
  | some point, action => room.stepPoint size point action

end SessionRoom

end Zeron.Edge
