import Mathlib.Algebra.Ring.Nat
import Zeron.Lib.JsonString
import Zeron.Lib.PublishOnce
import Zeron.Lib.Utf8

/-!
# Workspace profiles

`claim_legacy_uploads_root` and `load_or_create_local_profile_id` of `crates/engine/src/profile.rs`: both
publish a record in the data directory that the first process decides for all. Both run the system
calls of a publication; what `serde_json` writes and reads, and the identifiers of the temporary
files, are parameters.
-/

namespace Zeron.Engine.Profile

open Zeron.Lib.Machine (Steps)
open Zeron.Lib.PublishOnce
open Zeron.Lib.JsonString (escape readString readString_escape hexDigit hexValue hexValue_hexDigit)
open Zeron.Lib.Utf8 (encode decode? decode?_encode encodeChar)

def localProfileFile : List Char := "local-profile.json".toList

def legacyUploadsDir : String := "uploads"

def legacyUploadsOwnerFile : List Char := "legacy-uploads-owner.json".toList

inductive WorkspaceScope
  | localOnly
  | synced
  | development
deriving DecidableEq

structure LegacyUploadsOwner where
  orgId : String
  userId : String
deriving DecidableEq

structure EngineProfile where
  scope : WorkspaceScope
  deviceRoot : String
  orgId : String
  userId : String
deriving DecidableEq

namespace EngineProfile

def legacyRoot (profile : EngineProfile) : String := profile.deviceRoot ++ "/" ++ legacyUploadsDir

def expected (profile : EngineProfile) : LegacyUploadsOwner := ⟨profile.orgId, profile.userId⟩

end EngineProfile

/-- What `std::fs::metadata` says of the legacy root. -/
inductive Metadata
  | notFound
  | failed
  | file
  | directory
deriving DecidableEq

inductive EngineError
  | io
  | other (message : String)
deriving DecidableEq

/-- `ProfileReadError::into_engine`; `parse` is what the parser says of a record it cannot read. -/
def intoEngine (ownerPath parse : String) : Failure → EngineError
  | .io => .io
  | .missing => .other "local profile disappeared during creation"
  | .invalid => .other ("invalid legacy uploads owner " ++ ownerPath ++ ": " ++ parse)

/-- The claim of an account, given what it read of the owner. -/
def claimLegacyUploadsRoot (profile : EngineProfile) (metadata : Metadata) (parse : String)
    (owner : Except Failure LegacyUploadsOwner) : Except EngineError (Option String) :=
  if profile.scope = .localOnly then .ok none
  else
    match metadata with
    | .notFound => .ok none
    | .failed => .error .io
    | .file =>
        .error (.other
          ("invalid legacy uploads cache " ++ profile.legacyRoot ++ ": expected a directory"))
    | .directory =>
        match owner with
        | .error failure =>
            let ownerPath := profile.deviceRoot ++ "/" ++ String.ofList legacyUploadsOwnerFile
            .error (intoEngine ownerPath parse failure)
        | .ok owner => .ok (if owner = profile.expected then some profile.legacyRoot else none)

/-- `Uuid::nil` is zero, and a profile is never under it. -/
abbrev ProfileId := { id : Fin (2 ^ 128) // id ≠ 0 }

/-- `serde_json` reads back what it wrote, with the newline behind it. -/
structure Serde (α : Type) where
  toVecPretty : α → List UInt8
  fromSlice : List UInt8 → Option α
  fromSlice_toVecPretty : ∀ a, fromSlice (toVecPretty a ++ [10]) = some a

def legacyUploadsOwnerFormat (serde : Serde LegacyUploadsOwner) : Format LegacyUploadsOwner where
  encode owner := serde.toVecPretty owner ++ [10]
  decode := serde.fromSlice
  decode_encode := serde.fromSlice_toVecPretty

/-- A nil identifier is refused where a profile is read. -/
def localProfileFormat (serde : Serde (Fin (2 ^ 128))) : Format ProfileId where
  encode profile := serde.toVecPretty profile.1 ++ [10]
  decode bytes := (serde.fromSlice bytes).bind fun id => if h : id ≠ 0 then some ⟨id, h⟩ else none
  decode_encode profile := by
    rw [serde.fromSlice_toVecPretty, Option.bind_some, dif_pos profile.2]

/-- Every attempt that is ever begun has the number of its process and an identifier that no other
has. -/
structure TempIds (Attempt : Type) where
  pid : Attempt → List Char
  uuid : Attempt → List Char
  uuid_length : ∀ attempt, (uuid attempt).length = 36
  uuid_injective : Function.Injective uuid

def tempPath (file pid uuid : List Char) : List Char :=
  '.' :: file ++ ".tmp-".toList ++ pid ++ '-' :: uuid

section

variable {Attempt : Type}

theorem tempPath_injective (ids : TempIds Attempt) (file : List Char) :
    Function.Injective fun attempt => tempPath file (ids.pid attempt) (ids.uuid attempt) := by
  intro a b h
  apply ids.uuid_injective
  have hlength : ('-' :: ids.uuid a).length = ('-' :: ids.uuid b).length := by
    rw [List.length_cons, List.length_cons, ids.uuid_length, ids.uuid_length]
  exact (List.cons.inj (List.append_inj_right' h hlength)).2

def names (file : List Char) (ids : TempIds Attempt) : Names Attempt (List Char) where
  record := file
  temp attempt := tempPath file (ids.pid attempt) (ids.uuid attempt)
  temp_injective := tempPath_injective ids file
  temp_ne attempt h := by
    have hlength := congrArg List.length h
    simp only [tempPath, List.length_append, List.length_cons] at hlength
    omega

/-- Claims of the legacy uploads root, each for a profile: the record is read again in any case. -/
def legacyUploads [DecidableEq Attempt] (serde : Serde LegacyUploadsOwner) (ids : TempIds Attempt)
    (profile : Attempt → EngineProfile) :=
  directory (legacyUploadsOwnerFormat serde) (names legacyUploadsOwnerFile ids)
    (fun attempt => (profile attempt).expected) true

def claimed (profile : Attempt → EngineProfile) (metadata : Attempt → Metadata) (parse : String)
    (s : State Attempt (List Char) LegacyUploadsOwner) (attempt : Attempt) :
    Option (Except EngineError (Option String)) :=
  match s.stage attempt with
  | some (.returned owner) =>
      some (claimLegacyUploadsRoot (profile attempt) (metadata attempt) parse owner)
  | _ => none

/-- The claim gave its account the legacy root. -/
def Granted (profile : Attempt → EngineProfile) (metadata : Attempt → Metadata) (parse : String)
    (s : State Attempt (List Char) LegacyUploadsOwner) (attempt : Attempt) : Prop :=
  claimed profile metadata parse s attempt = some (.ok (some (profile attempt).legacyRoot))

variable {profile : Attempt → EngineProfile} {metadata : Attempt → Metadata} {parse : String}
  {s : State Attempt (List Char) LegacyUploadsOwner} {a : Attempt}

theorem claimed_eq_some {result : Except EngineError (Option String)}
    (h : claimed profile metadata parse s a = some result) :
    ∃ owner, s.stage a = some (.returned owner) ∧
      result = claimLegacyUploadsRoot (profile a) (metadata a) parse owner := by
  unfold claimed at h
  split at h
  · rename_i owner hstage
    exact ⟨owner, hstage, (Option.some.inj h).symm⟩
  · cases h

theorem Granted.owner (h : Granted profile metadata parse s a) :
    s.stage a = some (.returned (.ok (profile a).expected)) := by
  obtain ⟨owner, hstage, hresult⟩ := claimed_eq_some h
  rw [hstage]
  unfold claimLegacyUploadsRoot at hresult
  split at hresult
  · cases hresult
  · split at hresult
    · cases hresult
    · cases hresult
    · cases hresult
    · split at hresult
      · cases hresult
      · split at hresult
        · rename_i howner
          rw [howner]
        · cases hresult

end

/-- **The first claim wins.** Of any number of claims in one data directory, in any interleaving and
with crashes, those that succeed observe one complete record; one account at most is granted the
legacy root, and each later claim of it is granted again. Loads of the local profile, whose winner does
not read it again, likewise return one identifier. -/
theorem first_claim_wins {Attempt : Type} [DecidableEq Attempt] (ownerSerde : Serde LegacyUploadsOwner)
    (idSerde : Serde (Fin (2 ^ 128))) (ids : TempIds Attempt) (profile : Attempt → EngineProfile)
    (id : Attempt → ProfileId) (metadata : Attempt → Metadata) (parse : String) :
    FirstWins (legacyUploadsOwnerFormat ownerSerde) (names legacyUploadsOwnerFile ids)
        (fun attempt => (profile attempt).expected) true ∧
      FirstWins (localProfileFormat idSerde) (names localProfileFile ids) id false ∧
      ∀ {s s'} {a b : Attempt}, (legacyUploads ownerSerde ids profile).Reachable s →
        (legacyUploads ownerSerde ids profile).Steps Lib.Machine.anyStep s s' →
        Granted profile metadata parse s a →
        (Granted profile metadata parse s' b → (profile b).expected = (profile a).expected) ∧
          ∀ result, claimed profile metadata parse s' b = some result →
            (profile b).expected = (profile a).expected → (profile b).scope ≠ .localOnly →
            metadata b = .directory →
            result = .ok (some (profile b).legacyRoot) ∨ result = .error .io := by
  have howner := firstWins (legacyUploadsOwnerFormat ownerSerde) (names legacyUploadsOwnerFile ids)
    (fun attempt => (profile attempt).expected) true
  refine ⟨howner, firstWins _ _ _ _, ?_⟩
  intro s s' a b hreach hsteps hgranted
  have hreach' := hreach.steps hsteps
  refine ⟨fun hgranted' => howner.agree hreach hsteps hgranted.owner hgranted'.owner, ?_⟩
  intro result hclaimed hsame hscope hdirectory
  obtain ⟨owner, hstage, rfl⟩ := claimed_eq_some hclaimed
  unfold claimLegacyUploadsRoot
  rw [if_neg hscope, hdirectory]
  cases owner with
  | ok owner =>
      have heq : owner = (profile a).expected := howner.agree hreach hsteps hgranted.owner hstage
      exact .inl (by simp [heq, hsame])
  | error failure =>
      rw [howner.failure hreach' hstage]
      exact .inr rfl

/-! ### Two claims -/

/-- A text that ends with a newline, in UTF-8. -/
def textSerde {α : Type} (write : α → List Char) (read : List Char → Option α)
    (h : ∀ a, read (write a ++ ['\n']) = some a) : Serde α where
  toVecPretty a := (write a).flatMap encodeChar
  fromSlice bytes := (decode? bytes).bind fun text => read text.toList
  fromSlice_toVecPretty a := by
    have hbytes : (write a).flatMap encodeChar ++ [10] = encode (.ofList (write a ++ ['\n'])) := by
      rw [encode, String.toList_ofList, List.flatMap_append]
      rfl
    rw [hbytes, decode?_encode, Option.bind_some, String.toList_ofList, h]

def ownerSerde : Serde LegacyUploadsOwner :=
  textSerde
    (fun owner => "\x7b\n  \"orgId\": \"".toList ++ (escape owner.orgId.toList ++
      '"' :: (",\n  \"userId\": \"".toList ++ (escape owner.userId.toList ++ "\"\n\x7d".toList))))
    (fun text => (readString (text.drop 14)).bind fun (orgId, rest) =>
      (readString (rest.drop 15)).map fun (userId, _) => ⟨.ofList orgId, .ofList userId⟩)
    fun owner => by simp [readString_escape]

/-- The last `width` digits of a number, in hexadecimal. -/
def hexDigits : Nat → Nat → List Char
  | 0, _ => []
  | width + 1, n => hexDigits width (n / 16) ++ [hexDigit (n % 16)]

def hexNumber (digits : List Char) : Nat :=
  digits.foldl (fun n digit => if digit = '-' then n else n * 16 + hexValue digit) 0

theorem hexNumber_hexDigits (width n : Nat) (h : n < 16 ^ width) :
    hexNumber (hexDigits width n) = n := by
  have hdigit : ∀ d < 16, hexDigit d ≠ '-' := by decide
  induction width generalizing n with
  | zero => exact (Nat.lt_one_iff.mp h).symm
  | succ width ih =>
      have hlast : n % 16 < 16 := Nat.mod_lt _ (by omega)
      have hn := ih (n / 16) (Nat.div_lt_of_lt_mul (by rwa [Nat.mul_comm, ← Nat.pow_succ]))
      unfold hexNumber at hn ⊢
      rw [hexDigits, List.foldl_append, hn, List.foldl_cons, List.foldl_nil, if_neg (hdigit _ hlast),
        hexValue_hexDigit _ hlast]
      omega

/-- A hyphen behind each group of so many characters. -/
def hyphenate : List Nat → List Char → List Char
  | [], cs => cs
  | size :: sizes, cs => cs.take size ++ '-' :: hyphenate sizes (cs.drop size)

theorem length_hyphenate (sizes : List Nat) (cs : List Char) :
    (hyphenate sizes cs).length = cs.length + sizes.length := by
  induction sizes generalizing cs with
  | nil => rfl
  | cons size sizes ih =>
      simp only [hyphenate, List.length_append, List.length_cons, ih, List.length_take,
        List.length_drop]
      omega

theorem hexNumber_hyphenate (sizes : List Nat) (cs : List Char) :
    hexNumber (hyphenate sizes cs) = hexNumber cs := by
  unfold hexNumber
  generalize 0 = n
  induction sizes generalizing cs n with
  | nil => rfl
  | cons size sizes ih =>
      rw [hyphenate, List.foldl_append, List.foldl_cons, if_pos rfl, ih, ← List.foldl_append,
        List.take_append_drop]

theorem length_hexDigits (width n : Nat) : (hexDigits width n).length = width := by
  induction width generalizing n with
  | zero => rfl
  | succ width ih => rw [hexDigits, List.length_append, ih, List.length_singleton]

def uuid (id : Nat) : List Char := hyphenate [8, 4, 4, 4] (hexDigits 32 id)

theorem length_uuid (id : Nat) : (uuid id).length = 36 := by
  rw [uuid, length_hyphenate, length_hexDigits]
  rfl

theorem hexNumber_uuid (id : Fin (2 ^ 128)) : hexNumber (uuid id) = id :=
  (hexNumber_hyphenate _ _).trans (hexNumber_hexDigits 32 id (by omega))

def idSerde : Serde (Fin (2 ^ 128)) :=
  textSerde (fun id => "\x7b\n  \"id\": \"".toList ++ (uuid id ++ "\"\n\x7d".toList))
    (fun text => some (Fin.ofNat _ (hexNumber ((text.drop 11).take 36))))
    fun id => by simp [List.take_left' (length_uuid id), hexNumber_uuid]

def twoIds : TempIds (Fin 2) where
  pid attempt := if attempt = 0 then "41".toList else "42".toList
  uuid attempt := uuid (Fin.castLE (by omega) attempt : Fin (2 ^ 128))
  uuid_length attempt := length_uuid _
  uuid_injective a b h := by
    have hnumber := congrArg hexNumber h
    rw [hexNumber_uuid, hexNumber_uuid] at hnumber
    exact Fin.ext hnumber

def account (_ : Fin 2) : EngineProfile := ⟨.synced, "/data", "zeron", "ann"⟩

/-- Two claims of an account, each with a record of its own. -/
theorem first_claim_wins_twice : ∃ s : State (Fin 2) (List Char) LegacyUploadsOwner,
    (legacyUploads ownerSerde twoIds account).Reachable s ∧
      Granted account (fun _ => .directory) "" s 0 ∧
      Granted account (fun _ => .directory) "" s 1 := by
  let machine := legacyUploads ownerSerde twoIds account
  let claim := claimed account (fun _ => .directory) ""
  obtain ⟨s, hsteps, hs⟩ := Lib.Machine.exists_steps_of_runWhen machine Lib.Machine.anyStep
    (s := ⟨⟨fun _ => none, fun _ => [], 0⟩, fun _ => none⟩)
    [.start 0, .start 1, .call 0 .done, .call 1 .done, .call 0 .done, .call 1 .done,
      .call 0 (.some 99), .call 1 (.some 9), .call 0 (.some 0), .call 0 .done, .call 0 .done,
      .call 0 .done, .call 0 (.some 99), .call 0 (.some 0), .call 1 (.some 99), .call 1 (.some 0),
      .call 1 .done, .call 1 .done, .call 1 .done, .call 1 (.some 20), .call 1 (.some 99),
      .call 1 (.some 0)]
    (p := fun s => claim s 0 == some (.ok (some "/data/uploads")) &&
      (claim s 1).any Except.isOk) (by decide +kernel)
  rw [Bool.and_eq_true, beq_iff_eq] at hs
  have hreach : machine.Reachable s := by
    refine ⟨_, ⟨rfl, fun _ => rfl, ?_, fun _ => rfl⟩, hsteps⟩
    rintro name file ⟨⟩
  refine ⟨s, hreach, hs.1, ?_⟩
  obtain ⟨-, -, hgranted⟩ := first_claim_wins ownerSerde idSerde twoIds account
    (fun _ => ⟨1, by decide⟩) (fun _ => .directory) ""
  obtain ⟨-, hagain⟩ := @hgranted s s 0 1 hreach (.refl s) hs.1
  obtain ⟨result, hclaim, hok⟩ := (Option.any_eq_true _ _).mp hs.2
  obtain rfl | rfl := hagain result hclaim rfl (by decide) rfl
  · exact hclaim
  · cases hok

end Zeron.Engine.Profile
