import Mathlib.Algebra.Group.Int.Defs
import Mathlib.Data.Option.Basic
import Zeron.Lib.Machine
import Zeron.Registry.Json

/-!
# Agent accounts

`AgentAccounts` of `crates/engine/src/agent_accounts.rs`: the live logins of Claude Code and Codex, the
saved slots, and `list`, `activate` and `forget`, one file write at a time. A write can be refused and
the process can die before any of them. The live Claude login is two files.
-/

namespace Zeron.AgentAccounts

open Zeron.Lib (Machine)
open Zeron.Registry (JsonValue)

/-! ### JSON -/

def get (key : String) : JsonValue → Option JsonValue
  | .object entries => (entries.find? fun entry => entry.1 = key).map Prod.snd
  | _ => none

def isObject : JsonValue → Bool
  | .object _ => true
  | _ => false

def insert (key : String) (new : JsonValue) : JsonValue → JsonValue
  | .object entries => .object (entries.filter (fun entry => entry.1 ≠ key) ++ [(key, new)])
  | value => value

def remove (key : String) : JsonValue → JsonValue
  | .object entries => .object (entries.filter fun entry => entry.1 ≠ key)
  | value => value

def asStr : JsonValue → Option String
  | .string text => some text
  | _ => none

def asI64 : JsonValue → Option Int
  | .int value => if -2 ^ 63 ≤ value ∧ value < 2 ^ 63 then some value else none
  | _ => none

def strField (value : JsonValue) (key : String) : Option String :=
  ((get key value).bind asStr).filter fun text => text ≠ ""

def nullable : Option String → JsonValue
  | some text => .string text
  | none => .null

/-! ### Accounts -/

inductive HarnessId where
  | claudeCode
  | codex
  | cursor
  | grok
  | hermes
  | pi
  | mock
deriving DecidableEq

def harnessSlug : HarnessId → String
  | .claudeCode => "claude-code"
  | .codex => "codex"
  | .cursor => "cursor"
  | .grok => "grok"
  | .hermes => "hermes"
  | .pi => "pi"
  | .mock => "mock"

inductive AuthKind where
  | oauth
  | apiKey
deriving DecidableEq

structure SlotProfile where
  email : String
  displayName : Option String
  organization : Option String
  plan : Option String
  authKind : AuthKind
deriving DecidableEq

structure Slot where
  id : String
  harness : HarnessId
  accountKey : String
  profile : SlotProfile
  credentials : JsonValue
  claudeConfig : Option JsonValue
deriving DecidableEq

structure Detected where
  accountKey : String
  profile : SlotProfile
  credentials : Option JsonValue
  claudeConfig : Option JsonValue
deriving DecidableEq

/-- What is not the engine's: the platform, the upper case of a character, the payload of a JWT as
JSON, the digest of a text, and the account that credentials of Claude Code belong to. -/
structure Tools where
  macos : Bool
  toUppercase : Char → String
  decodePayload : String → Option JsonValue
  sha256Hex : String → String
  owner : JsonValue → String

/-- The multiplier of a tier such as `default_claude_max_20x`. -/
def multiplier (tier : String) : Option String :=
  match tier.toList.reverse with
  | 'x' :: stem =>
      let digits := stem.takeWhile Char.isDigit
      if digits ≠ [] ∧ stem[digits.length]? = some '_' then some (String.ofList digits.reverse)
      else none
  | _ => none

def claudePlan (orgType tier : Option String) : Option String :=
  let base := match orgType with
    | some "claude_max" => some "Max"
    | some "claude_pro" => some "Pro"
    | some "claude_team" => some "Team"
    | some "claude_enterprise" => some "Enterprise"
    | _ => none
  base.map fun base =>
    match tier.bind multiplier with
    | some mult => base ++ " " ++ mult ++ "×"
    | none => base

def codexPlan (toUppercase : Char → String) (plan : Option String) : Option String :=
  plan.bind fun plan =>
    match plan.toList with
    | first :: rest => some ("ChatGPT " ++ toUppercase first ++ String.ofList rest)
    | [] => none

/-- A file, or the Keychain item: what reading it gives. -/
inductive Stored where
  | missing
  | unreadable
  | value (json : JsonValue)
deriving DecidableEq

def readJson : Stored → Option JsonValue
  | .value json => if isObject json then some json else none
  | .missing | .unreadable => none

def Stored.exists : Stored → Bool
  | .missing => false
  | _ => true

structure Live where
  claudeCreds : Stored
  keychain : Stored
  claudeConfig : Stored
  codexAuth : Stored
deriving DecidableEq

variable (tools : Tools)

def jwtClaims (jwt : String) : Option JsonValue :=
  ((jwt.toList.splitOn '.')[1]?).bind fun payload => tools.decodePayload (String.ofList payload)

def hexPrefix (text : String) (n : Nat) : String :=
  String.ofList ((tools.sha256Hex text).toList.take n)

def slotIdFor (harness : HarnessId) (accountKey : String) : String :=
  hexPrefix tools (harnessSlug harness ++ ":" ++ accountKey) 16

def parseCodexAuth (auth : JsonValue) : Option Detected :=
  match ((get "tokens" auth).bind (get "id_token")).bind asStr with
  | some idToken =>
      let claims := (jwtClaims tools idToken).getD (.object [])
      let oa := (get "https://api.openai.com/auth" claims).getD .null
      (strField claims "email").map fun email =>
        { accountKey := (strField oa "chatgpt_account_id").getD email
          profile :=
            { email, displayName := strField claims "name", organization := none
              plan := codexPlan tools.toUppercase (strField oa "chatgpt_plan_type")
              authKind := .oauth }
          credentials := some auth, claudeConfig := none }
  | none =>
      (strField auth "OPENAI_API_KEY").map fun apiKey =>
        { accountKey := "api-key:" ++ hexPrefix tools apiKey 12
          profile :=
            { email := "API key ·…" ++ String.ofList (apiKey.toList.reverse.take 4).reverse
              displayName := none, organization := none, plan := some "API key"
              authKind := .apiKey }
          credentials := some auth, claudeConfig := none }

def accountOf (harness : HarnessId) (credentials : JsonValue) : Option String :=
  match harness with
  | .codex => (parseCodexAuth tools credentials).map Detected.accountKey
  | _ => some (tools.owner credentials)

/-- The account that an `oauthAccount` names. -/
def accountKeyOf (oauth : JsonValue) : Option String :=
  (strField oauth "emailAddress").map fun email => (strField oauth "accountUuid").getD email

namespace Live

variable (live : Live)

def readClaudeCredentials : Option JsonValue :=
  match readJson live.claudeCreds with
  | some creds => some creds
  | none =>
      match tools.macos, live.keychain with
      | true, .value creds => some creds
      | _, _ => none

/-- The Keychain item, while no credentials file exists. -/
def writeClaudeCredentials (credentials : JsonValue) : Live :=
  if tools.macos && !live.claudeCreds.exists then { live with keychain := .value credentials }
  else { live with claudeCreds := .value credentials }

/-- The configuration file with its `oauthAccount` and the account. -/
def claudeAccount : Option (JsonValue × JsonValue × String) :=
  (readJson live.claudeConfig).bind fun cfg =>
    (get "oauthAccount" cfg).bind fun oauth =>
      (accountKeyOf oauth).map fun accountKey => (cfg, oauth, accountKey)

def detectClaude : Option Detected :=
  live.claudeAccount.map fun (cfg, oauth, accountKey) =>
    { accountKey
      profile :=
        { email := (strField oauth "emailAddress").getD ""
          displayName := strField oauth "displayName"
          organization := strField oauth "organizationName"
          plan := claudePlan (strField oauth "organizationType")
            (strField oauth "organizationRateLimitTier")
          authKind := .oauth }
      credentials := live.readClaudeCredentials tools
      claudeConfig := some (match (get "userID" cfg).bind asStr with
        | some userId => .object [("oauthAccount", oauth), ("userID", .string userId)]
        | none => .object [("oauthAccount", oauth)]) }

def detectCodex : Option Detected := (readJson live.codexAuth).bind (parseCodexAuth tools)

end Live

/-- The identity that a swap merges into the configuration file. -/
def Slot.oauthAccount (slot : Slot) : JsonValue :=
  (slot.claudeConfig.bind (get "oauthAccount")).getD
    (.object [("accountUuid", .string slot.accountKey), ("emailAddress", .string slot.profile.email),
      ("organizationName", nullable slot.profile.organization),
      ("displayName", nullable slot.profile.displayName)])

def Slot.userId (slot : Slot) : Option String :=
  (slot.claudeConfig.bind (get "userID")).bind asStr

/-- The configuration file after the merge, or nothing where the swap is refused. -/
def mergeIdentity (slot : Slot) (config : Stored) : Option JsonValue :=
  let cfg := readJson config
  if cfg.isNone && config.exists then none
  else
    let merged := insert "oauthAccount" slot.oauthAccount (cfg.getD (.object []))
    some (match slot.userId with
      | some userId => insert "userID" (.string userId) merged
      | none => remove "userID" merged)

inductive Op where
  | list (forceUsage : Bool)
  | activate (harness : HarnessId) (accountId : String)
  | forget (harness : HarnessId) (accountId : String)
deriving DecidableEq

/-- The step that comes next. `closing` says that it is of the list with which the call ends. -/
inductive Point where
  | snapshotClaude (closing : Bool)
  | snapshotCodex (closing : Bool)
  | usage
  | swap
  | identity (slot : Slot)
  | removeSlot
deriving DecidableEq

/-- `original` is kept for the statements: the live logins when the call began. -/
structure Run where
  op : Op
  original : Live
  point : Point
deriving DecidableEq

/-- `stranded` and `spoiled` are kept for the statements: whether a swap has overwritten readable
credentials that were in no slot of their account, and whether an activate has returned an error with
the live logins changed. -/
structure Host where
  live : Live
  slots : List Slot
  running : Option Run
  stranded : Bool
  spoiled : Bool
deriving DecidableEq

inductive Action where
  | call (op : Op)
  /-- The next step, with its write if it has one. -/
  | advance
  /-- The write of the next step is refused. -/
  | refuse
  /-- A forced list refreshes a saved login. -/
  | refreshed (id accessToken : String) (refreshToken : Option String) (now expiresIn : Int)
  | crash
deriving DecidableEq

namespace Host

variable (host : Host)

def writeSlot (slot : Slot) : Host :=
  { host with
    slots := host.slots.filter (fun other => ¬ (other.harness = slot.harness ∧ other.id = slot.id)) ++
      [slot] }

def snapshotDetected (harness : HarnessId) (d : Detected) : Host :=
  match d.credentials with
  | none => host
  | some credentials =>
      host.writeSlot
        { id := slotIdFor tools harness d.accountKey, harness, accountKey := d.accountKey
          profile := d.profile, credentials, claudeConfig := d.claudeConfig }

/-- Whether the slot holds the live login, or the live login that could not be read has this id. -/
def active (harness : HarnessId) (accountId : String) : Bool :=
  let detected := match harness with
    | .claudeCode => host.live.detectClaude tools
    | .codex => host.live.detectCodex tools
    | _ => none
  detected.any fun d =>
    host.slots.any (fun slot => slot.harness = harness ∧ slot.id = accountId ∧
      slot.accountKey = d.accountKey) ||
    (d.credentials.isNone && accountId = slotIdFor tools harness d.accountKey &&
      host.slots.all fun slot => slot.harness ≠ harness || slot.accountKey ≠ d.accountKey)

/-- Credentials that a swap may overwrite: the live ones, where they can be read. -/
def readable : HarnessId → Option JsonValue
  | .claudeCode => host.live.readClaudeCredentials tools
  | .codex => readJson host.live.codexAuth
  | _ => none

/-- Readable live credentials are in a slot of their account. -/
def saved (harness : HarnessId) : Bool :=
  (host.readable tools harness).all fun credentials =>
    host.slots.any fun slot => slot.harness = harness ∧ slot.credentials = credentials ∧
      accountOf tools harness credentials = some slot.accountKey

def finish (run : Run) (failed : Bool) : Host :=
  { host with
    running := none
    spoiled := host.spoiled || (match run.op with
      | .activate _ _ => failed && host.live ≠ run.original
      | _ => false) }

def go (run : Run) (point : Point) : Host := { host with running := some { run with point } }

def listed (run : Run) (closing : Bool) : Host :=
  match closing, run.op with
  | false, .list true => host.go run .usage
  | false, .activate _ _ => host.go run .swap
  | false, .forget _ _ => host.go run .removeSlot
  | _, _ => host.finish run false

def findSlot (harness : HarnessId) (accountId : String) : Option Slot :=
  host.slots.find? fun slot => slot.harness = harness ∧ slot.id = accountId

def swap (run : Run) (succeeds : Bool) : Host :=
  match run.op with
  | .activate harness accountId =>
      match host.findSlot harness accountId, harness, succeeds with
      | some slot, .claudeCode, true =>
          { host with
            live := host.live.writeClaudeCredentials tools slot.credentials
            stranded := host.stranded || !host.saved tools .claudeCode }.go run (.identity slot)
      | some slot, .codex, true =>
          { host with
            live := { host.live with codexAuth := .value slot.credentials }
            stranded := host.stranded || !host.saved tools .codex }.go run (.snapshotClaude true)
      | _, _, _ => host.finish run true
  | _ => host.finish run true

def identity (run : Run) (slot : Slot) (succeeds : Bool) : Host :=
  match mergeIdentity slot host.live.claudeConfig, succeeds with
  | some merged, true =>
      { host with live := { host.live with claudeConfig := .value merged } }.go run
        (.snapshotClaude true)
  | _, _ => host.finish run true

def removeSlot (run : Run) (succeeds : Bool) : Host :=
  match run.op with
  | .forget harness accountId =>
      if host.active tools harness accountId then host.finish run true
      else if succeeds || (host.findSlot harness accountId).isNone then
        { host with
          slots := host.slots.filter fun slot =>
            ¬ (slot.harness = harness ∧ slot.id = accountId) }.go run (.snapshotClaude true)
      else host.finish run true
  | _ => host.finish run true

/-- A step of a call; without success its write, if it has one, is refused. -/
def stepRun (run : Run) (succeeds : Bool) : Host :=
  match run.point with
  | .snapshotClaude closing =>
      match host.live.detectClaude tools with
      | some d =>
          if succeeds || d.credentials.isNone then
            (host.snapshotDetected tools .claudeCode d).go run (.snapshotCodex closing)
          else host.finish run true
      | none => host.go run (.snapshotCodex closing)
  | .snapshotCodex closing =>
      match host.live.detectCodex tools with
      | some d =>
          if succeeds then (host.snapshotDetected tools .codex d).listed run closing
          else host.finish run true
      | none => host.listed run closing
  | .usage => host.finish run false
  | .swap => host.swap tools run succeeds
  | .identity slot => host.identity run slot succeeds
  | .removeSlot => host.removeSlot tools run succeeds

/-- The credentials of a slot after a refresh, where one is due. -/
def refreshedCredentials (slot : Slot) (accessToken : String) (refreshToken : Option String)
    (now expiresIn : Int) : Option JsonValue :=
  (get "claudeAiOauth" slot.credentials).bind fun oauth =>
    match strField oauth "accessToken", (get "expiresAt" oauth).bind asI64,
      strField oauth "refreshToken" with
    | some _, some expiresAt, some oldToken =>
        if expiresAt < now + 30000 then
          some (.object [("claudeAiOauth",
            insert "expiresAt" (.int (now + expiresIn * 1000))
              (insert "refreshToken" (.string (refreshToken.getD oldToken))
                (insert "accessToken" (.string accessToken) oauth)))])
        else none
    | _, _, _ => none

/-- The tokens that the provider answers with belong to the account of the refresh token. -/
def refreshSlot (id accessToken : String) (refreshToken : Option String) (now expiresIn : Int) :
    Option Host :=
  (host.findSlot .claudeCode id).bind fun slot =>
    if (host.live.detectClaude tools).any fun d => d.accountKey = slot.accountKey then none
    else
      (refreshedCredentials slot accessToken refreshToken now expiresIn).bind fun credentials =>
        if tools.owner credentials = tools.owner slot.credentials then
          some (host.writeSlot { slot with credentials })
        else none

/-- Sixteen lowercase hexadecimal digits. -/
def validId (accountId : String) : Bool :=
  accountId.toList.length = 16 &&
    accountId.toList.all fun c => c.isDigit || ('a' ≤ c && c ≤ 'f')

def start (op : Op) : Host :=
  let run := { op, original := host.live, point := .snapshotClaude false }
  match op with
  | .forget _ accountId => if validId accountId then { host with running := some run } else host
  | .list _ | .activate _ _ => { host with running := some run }

def step (action : Action) : Option Host :=
  match host.running, action with
  | none, .call op => some (host.start op)
  | some run, .advance => some (host.stepRun tools run true)
  | some run, .refuse => some (host.stepRun tools run false)
  | some run, .refreshed id accessToken refreshToken now expiresIn =>
      if run.point = .usage then host.refreshSlot tools id accessToken refreshToken now expiresIn
      else none
  | some _, .crash => some { host with running := none }
  | _, _ => none

end Host

end Zeron.AgentAccounts
