import Mathlib.Logic.Function.Basic
import Zeron.Lib.Machine

/-!
# Managed installs

`stage_headless`, `apply_headless` and `rollback_headless` of `crates/update/src/lib.rs`, one
file-system step at a time. The calls come one after the other; any step may fail and the process may
die before any step. The callers have parsed a version as semver, so that its directory is no other
entry of the app root.
-/

namespace Zeron.Update

open Zeron.Lib (Machine)

inductive Entry where
  | file (bytes : List UInt8)
  | directory
deriving DecidableEq

abbrev Tree := List (String × Entry)

namespace Tree

def put (tree : Tree) (entry : String × Entry) : Tree :=
  tree.filter (fun other => other.1 ≠ entry.1) ++ [entry]

/-- `join("zeron").exists()` -/
def hasZeron (tree : Tree) : Bool := tree.any fun entry => entry.1 = "zeron"

/-- `join("zeron").is_file()` -/
def zeronIsFile (tree : Tree) : Bool :=
  tree.any fun entry => entry.1 = "zeron" ∧ entry.2 ≠ .directory

end Tree

def unpack (entries : List (String × Entry)) : Tree := entries.foldl Tree.put []

structure FileMeta where
  sha256 : String
  size : Nat
deriving DecidableEq

structure Manifest where
  version : String
  files : List (String × FileMeta)
deriving DecidableEq

/-- What is not the updater's: the platform, the manifests with a valid signature, SHA-256, and `tar`,
with the entries that it extracts in order and whether it then succeeds. -/
structure Tools where
  os : String
  arch : String
  signed : Manifest → Bool
  sha256 : List UInt8 → String
  untar : List UInt8 → List (String × Entry) × Bool

def Tools.headlessArtifact (tools : Tools) (version : String) : String :=
  "zeron-" ++ version ++ "-" ++ tools.os ++ "-" ++ tools.arch ++ ".tar.gz"

def isAsciiHexdigit (c : Char) : Bool :=
  c.isDigit || ('a' ≤ c && c ≤ 'f') || ('A' ≤ c && c ≤ 'F')

/-- Both sides are hexadecimal digits here, so `trim` has nothing to remove. -/
def eqIgnoreAsciiCase (a b : String) : Bool := a.toList.map Char.toLower = b.toList.map Char.toLower

def FileMeta.valid (metadata : FileMeta) : Bool :=
  metadata.sha256.toList.length = 64 && metadata.sha256.toList.all isAsciiHexdigit &&
    metadata.size ≠ 0

/-- `.stage-<ver>-<pid>` -/
structure Stage where
  partialFile : Option (List UInt8)
  tarball : Option (List UInt8)
  unpacked : Option Tree
deriving DecidableEq

namespace Stage

def empty : Stage := { partialFile := none, tarball := none, unpacked := none }

def partOf (left stage : Stage) : Bool :=
  (left.partialFile = none || left.partialFile = stage.partialFile) &&
    (left.tarball = none || left.tarball = stage.tarball) &&
    match left.unpacked, stage.unpacked with
    | none, _ => true
    | some part, some tree => part.isSublist tree
    | some _, none => false

def leftover (stage : Stage) : Tree := stage.unpacked.getD []

end Stage

inductive Link where
  | current
  | previous
deriving DecidableEq

/-- Where a `stage_headless` stands: the step that comes next. -/
inductive StagePoint where
  | clear
  | create
  | request
  | receiving (metadata : FileMeta) (received : List UInt8)
  /-- The download is refused and its file removed. -/
  | discard
  | place
  | createUnpacked
  | extract (rest : List (String × Entry)) (succeeds : Bool)
  | move
  | cleanUp (staged : Bool)
deriving DecidableEq

/-- The step of `swap_symlink` that comes next. -/
inductive SwapPoint where
  | unlink
  | symlink
  | rename
deriving DecidableEq

inductive Change where
  | apply
  | rollback
deriving DecidableEq

inductive Task where
  | stage (manifest : Manifest) (point : StagePoint)
  | readCurrent (version : String)
  | savePrevious (version previous : String) (point : SwapPoint)
  /-- `saved` says that this call has moved `previous`. -/
  | setCurrent (change : Change) (saved : Bool) (target : String) (point : SwapPoint)
deriving DecidableEq

inductive Call where
  | stageHeadless (manifest : Manifest)
  | applyHeadless (version : String)
  | rollbackHeadless
deriving DecidableEq

/-- `staged` and `lastChange` are kept for the statements: the versions reported as staged, and the
last change of the version that `current` names, with the version before it. -/
structure AppRoot where
  dirs : String → Option Tree
  stages : String × Nat → Option Stage
  current : Option String
  previous : Option String
  temps : Link × Nat → Option String
  running : Option (Nat × Task)
  staged : List String
  lastChange : Option (Change × String)

inductive Action where
  | call (pid : Nat) (call : Call)
  /-- The next step succeeds. -/
  | advance
  /-- The next step fails. -/
  | fail
  /-- A removal under way has left this much. -/
  | remove (left : Stage)
  | chunk (bytes : List UInt8)
  /-- The body has ended and the file holds `written`: the error of the flush is dropped. -/
  | endBody (written : List UInt8)
  | crash
deriving DecidableEq

namespace AppRoot

variable (tools : Tools) (root : AppRoot) (pid : Nat)

def hasZeron (version : String) : Bool := (root.dirs version).any Tree.hasZeron

def zeronIsFile (version : String) : Bool := (root.dirs version).any Tree.zeronIsFile

def link : Link → Option String
  | .current => root.current
  | .previous => root.previous

def setLink : Link → String → AppRoot
  | .current, target =>  { root with current := some target }
  | .previous, target => { root with previous := some target }

def done : AppRoot := { root with running := none }

def report (version : String) : AppRoot :=
  { root with running := none, staged := version :: root.staged }

def doing (task : Task) : AppRoot := { root with running := some (pid, task) }

def setStage (version : String) (stage : Option Stage) : AppRoot :=
  { root with stages := Function.update root.stages (version, pid) stage }

def setTemp (link : Link) (target : Option String) : AppRoot :=
  { root with temps := Function.update root.temps (link, pid) target }

def stageHeadless (manifest : Manifest) : AppRoot :=
  if root.hasZeron manifest.version then root.report manifest.version
  else root.doing pid (.stage manifest .clear)

def applyHeadless (version : String) : AppRoot :=
  if root.hasZeron version then root.doing pid (.readCurrent version) else root

def rollbackHeadless : AppRoot :=
  match root.previous with
  | some previous =>
      if root.zeronIsFile previous then root.doing pid (.setCurrent .rollback false previous .unlink)
      else root
  | none => root

def start : Call → Option AppRoot
  | .stageHeadless manifest =>
      if tools.signed manifest then some (root.stageHeadless pid manifest) else none
  | .applyHeadless version => some (root.applyHeadless pid version)
  | .rollbackHeadless => some (root.rollbackHeadless pid)

def stage (version : String) : Stage := (root.stages (version, pid)).getD .empty

/-- One successful step of `stage_headless`. -/
def advanceStage (manifest : Manifest) : StagePoint → Option AppRoot
  | .clear => some ((root.setStage pid manifest.version none).doing pid (.stage manifest .create))
  | .create =>
      some ((root.setStage pid manifest.version (some (root.stage pid manifest.version))).doing pid
        (.stage manifest .request))
  | .request =>
      match manifest.files.lookup (tools.headlessArtifact manifest.version) with
      | some metadata =>
          if metadata.valid then
            some ((root.setStage pid manifest.version
              (some { root.stage pid manifest.version with partialFile := some [] })).doing pid
                (.stage manifest (.receiving metadata [])))
          else some (root.doing pid (.stage manifest (.cleanUp false)))
      | none => some (root.doing pid (.stage manifest (.cleanUp false)))
  | .receiving _ _ => none
  | .discard =>
      some ((root.setStage pid manifest.version
        (some { root.stage pid manifest.version with partialFile := none })).doing pid
          (.stage manifest (.cleanUp false)))
  | .place =>
      let stage := root.stage pid manifest.version
      some ((root.setStage pid manifest.version
        (some { stage with partialFile := none, tarball := stage.partialFile })).doing pid
          (.stage manifest .createUnpacked))
  | .createUnpacked =>
      let stage := root.stage pid manifest.version
      let archive := tools.untar (stage.tarball.getD [])
      some ((root.setStage pid manifest.version
        (some { stage with unpacked := some stage.leftover })).doing pid
          (.stage manifest (.extract archive.1 archive.2)))
  | .extract (entry :: rest) succeeds =>
      let stage := root.stage pid manifest.version
      some ((root.setStage pid manifest.version
        (some { stage with unpacked := some (stage.leftover.put entry) })).doing pid
          (.stage manifest (.extract rest succeeds)))
  | .extract [] true => some (root.doing pid (.stage manifest .move))
  | .extract [] false => some (root.doing pid (.stage manifest (.cleanUp false)))
  | .move =>
      let stage := root.stage pid manifest.version
      if stage.leftover.zeronIsFile then
        -- a rename replaces an empty directory and no other
        if (root.dirs manifest.version).all List.isEmpty then
          some ({ root.setStage pid manifest.version (some { stage with unpacked := none }) with
            dirs := Function.update root.dirs manifest.version (some stage.leftover) }.doing pid
              (.stage manifest (.cleanUp true)))
        else some (root.doing pid (.stage manifest (.cleanUp (root.hasZeron manifest.version))))
      else some (root.doing pid (.stage manifest (.cleanUp false)))
  | .cleanUp staged =>
      let root := root.setStage pid manifest.version none
      some (if staged then root.report manifest.version else root.done)

/-- One failed step of `stage_headless`. The failures of both removals are ignored. -/
def failStage (manifest : Manifest) : StagePoint → AppRoot
  | .clear => root.doing pid (.stage manifest .create)
  | .create => root.done
  | .move =>
      root.doing pid (.stage manifest (.cleanUp
        ((root.stage pid manifest.version).leftover.zeronIsFile &&
          root.hasZeron manifest.version)))
  | .cleanUp staged => if staged then root.report manifest.version else root.done
  | _ => root.doing pid (.stage manifest (.cleanUp false))

def removeStage (manifest : Manifest) (left : Stage) : StagePoint → Option AppRoot
  | .clear | .cleanUp _ =>
      match root.stages (manifest.version, pid) with
      | some stage =>
          if left.partOf stage then some (root.setStage pid manifest.version (some left)) else none
      | none => none
  | _ => none

def receive (manifest : Manifest) (bytes : List UInt8) : StagePoint → Option AppRoot
  | .receiving metadata received =>
      if metadata.size < (received ++ bytes).length then
        some (root.doing pid (.stage manifest .discard))
      else
        some ((root.setStage pid manifest.version
          (some { root.stage pid manifest.version with partialFile := some (received ++ bytes) })).doing
            pid (.stage manifest (.receiving metadata (received ++ bytes))))
  | _ => none

def endBody (manifest : Manifest) (written : List UInt8) : StagePoint → Option AppRoot
  | .receiving metadata received =>
      if written.isPrefixOf received then
        if received.length = metadata.size ∧
            eqIgnoreAsciiCase (tools.sha256 received) metadata.sha256 then
          some ((root.setStage pid manifest.version
            (some { root.stage pid manifest.version with partialFile := some written })).doing pid
              (.stage manifest .place))
        else some (root.doing pid (.stage manifest .discard))
      else none
  | _ => none

/-- One step of `swap_symlink`, with what comes after: another step, or the end, with or without an
error. The failure of the first step is ignored. -/
def swapSymlink (link : Link) (target : String) (succeeds : Bool) :
    SwapPoint → AppRoot × Except Bool SwapPoint
  | .unlink => (if succeeds then root.setTemp pid link none else root, .ok .symlink)
  | .symlink =>
      if succeeds && root.temps (link, pid) = none then
        (root.setTemp pid link (some target), .ok .rename)
      else (root, .error false)
  | .rename =>
      match root.temps (link, pid) with
      | some temp =>
          if succeeds then ((root.setLink link temp).setTemp pid link none, .error true)
          else (root, .error false)
      | none => (root, .error false)

/-- The change of the current version that a swap of `current` has made. -/
def changed (change : Change) (before after : AppRoot) : AppRoot :=
  { after with
    lastChange := match before.current with
      | some version => if after.current = some version then before.lastChange
          else some (change, version)
      | none => before.lastChange }

def stepLinks (succeeds : Bool) : Task → Option AppRoot
  | .stage _ _ => none
  | .readCurrent version =>
      match (if succeeds then root.current else none) with
      | some previous => some (root.doing pid (.savePrevious version previous .unlink))
      | none => some (root.doing pid (.setCurrent .apply false version .unlink))
  | .savePrevious version previous point =>
      match root.swapSymlink pid .previous previous succeeds point with
      | (root, .ok point) => some (root.doing pid (.savePrevious version previous point))
      | (root, .error true) => some (root.doing pid (.setCurrent .apply true version .unlink))
      | (root, .error false) => some root.done
  | .setCurrent change saved target point =>
      match root.swapSymlink pid .current target succeeds point with
      | (root, .ok point) => some (root.doing pid (.setCurrent change saved target point))
      | (after, .error true) => some (changed change root after).done
      | (root, .error false) => some root.done

def stepTask : Task → Action → Option AppRoot
  | .stage manifest point, .advance => root.advanceStage tools pid manifest point
  | .stage manifest point, .fail => some (root.failStage pid manifest point)
  | .stage manifest point, .remove left => root.removeStage pid manifest left point
  | .stage manifest point, .chunk bytes => root.receive pid manifest bytes point
  | .stage manifest point, .endBody written => root.endBody tools pid manifest written point
  | task, .advance => root.stepLinks pid true task
  | task, .fail => root.stepLinks pid false task
  | _, .crash => some root.done
  | _, _ => none

def step (action : Action) : Option AppRoot :=
  match root.running, action with
  | none, .call pid call => root.start tools pid call
  | none, _ => none
  | some _, .call _ _ => none
  | some (pid, task), action => root.stepTask tools pid task action

end AppRoot

end Zeron.Update
