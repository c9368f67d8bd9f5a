import Zeron.Engine.AgentAccounts

/-!
# Account swaps

Whose credentials a slot holds, over every run of lists, activates and forgets. A list pairs the
credentials with whatever identity it finds beside them, so that a swap which stops between its two
writes files one account's login under another.
-/

namespace Zeron.AgentAccounts

open Zeron.Lib (Machine)
open Zeron.Registry (JsonValue)

variable {tools : Tools}

/-! ### JSON -/

theorem find_filter_of_ne {entries : List (String × JsonValue)} {key other : String}
    (h : other ≠ key) :
    (entries.filter fun entry => entry.1 ≠ key).find? (fun entry => entry.1 = other) =
      entries.find? fun entry => entry.1 = other := by
  rw [List.find?_filter]
  congr 1
  funext entry
  by_cases heq : entry.1 = other
  · simp [heq, h]
  · simp [heq]

theorem get_insert_self {value new : JsonValue} (key : String) (h : isObject value = true) :
    get key (insert key new value) = some new := by
  cases value with
  | object entries =>
      have hnone : (entries.filter fun entry => entry.1 ≠ key).find?
          (fun entry => entry.1 = key) = none := by
        rw [List.find?_eq_none]
        intro entry hentry
        simpa using (List.mem_filter.mp hentry).2
      rw [insert, get, List.find?_append, hnone, Option.none_or, List.find?_cons_of_pos (by simp)]
      rfl
  | null | bool _ | int _ | double _ | string _ | array _ => cases h

theorem get_insert_of_ne {value new : JsonValue} {key other : String} (hne : other ≠ key) :
    get other (insert key new value) = get other value := by
  cases value with
  | object entries =>
      rw [insert, get, get, List.find?_append, find_filter_of_ne hne,
        List.find?_cons_of_neg (by simpa using Ne.symm hne), List.find?_nil, Option.or_none]
  | null | bool _ | int _ | double _ | string _ | array _ => rfl

theorem get_remove_of_ne {value : JsonValue} {key other : String} (hne : other ≠ key) :
    get other (remove key value) = get other value := by
  cases value with
  | object entries => rw [remove, get, get, find_filter_of_ne hne]
  | null | bool _ | int _ | double _ | string _ | array _ => rfl

@[simp]
theorem isObject_insert (key : String) (new value : JsonValue) :
    isObject (insert key new value) = isObject value := by
  cases value <;> rfl

@[simp]
theorem isObject_remove (key : String) (value : JsonValue) :
    isObject (remove key value) = isObject value := by
  cases value <;> rfl

theorem isObject_of_readJson {stored : Stored} {json : JsonValue} (h : readJson stored = some json) :
    isObject json = true ∧ stored = .value json := by
  cases stored with
  | missing | unreadable => cases h
  | value other =>
      rw [readJson] at h
      split at h
      · rename_i hobject
        cases h
        exact ⟨hobject, rfl⟩
      · cases h

/-! ### Statements -/

/-- The live credentials and the live identity belong to one account. -/
def Live.Matched (tools : Tools) (live : Live) : Prop :=
  ∀ cfg oauth accountKey credentials, live.claudeAccount = some (cfg, oauth, accountKey) →
    live.readClaudeCredentials tools = some credentials → tools.owner credentials = accountKey

def Live.Objects (live : Live) : Prop := ∀ json, live.keychain = .value json → isObject json = true

/-- What a slot stores belongs to the account that it is keyed by. -/
structure Slot.Consistent (tools : Tools) (slot : Slot) : Prop where
  account : accountOf tools slot.harness slot.credentials = some slot.accountKey
  object : isObject slot.credentials = true
  identity : slot.harness = .claudeCode → accountKeyOf slot.oauthAccount = some slot.accountKey

variable {slot : Slot} {live : Live}

namespace Host

variable {host host' : Host} {run : Run}

structure Start (tools : Tools) (host : Host) : Prop where
  idle : host.running = none
  matched : host.live.Matched tools
  objects : host.live.Objects
  slots : ∀ slot ∈ host.slots, slot.Consistent tools
  stranded : host.stranded = false
  spoiled : host.spoiled = false

def machine (tools : Tools) : Machine Host Action where
  init := Start tools
  step := step tools

def identified (tools : Tools) (host : Host) (credentials : JsonValue) : HarnessId → Bool
  | .claudeCode => host.live.claudeAccount.isSome
  | _ => (parseCodexAuth tools credentials).isSome

/-- The account of the live credentials can be told, or they are in a slot already. -/
def known (tools : Tools) (host : Host) (harness : HarnessId) : Bool :=
  (host.readable tools harness).all fun credentials =>
    host.identified tools credentials harness ||
    host.slots.any fun slot => slot.harness = harness ∧ slot.credentials = credentials

def soundSwap (tools : Tools) (host : Host) (harness : HarnessId) (slot : Slot) : Bool :=
  host.known tools harness &&
    (harness ≠ .claudeCode || (mergeIdentity slot host.live.claudeConfig).isSome ||
      host.live.writeClaudeCredentials tools slot.credentials = host.live)

def soundRun (tools : Tools) (host : Host) (run : Run) : Action → Bool
  | .advance =>
      match run.point, run.op with
      | .swap, .activate harness accountId =>
          (host.findSlot harness accountId).all (host.soundSwap tools harness)
      | _, _ => true
  | .refuse =>
      match run.point, run.op with
      | .identity _, _ => host.live = run.original
      | .snapshotClaude true, .activate _ _ =>
          host.live = run.original ||
            (host.live.detectClaude tools).all fun d => d.credentials.isNone
      | .snapshotCodex true, .activate _ _ =>
          host.live = run.original || (host.live.detectCodex tools).isNone
      | _, _ => true
  | .crash =>
      match run.point with
      | .identity slot => host.live.claudeAccount.all fun account => account.2.2 = slot.accountKey
      | _ => true
  | _ => true

/-- A swap starts with the live login known and, for Claude Code, a configuration file that it can
merge into; its second write is neither refused nor cut off, and no write of the list after it is
refused. Where nothing changes, any of these may happen. -/
def Sound (tools : Tools) (host : Host) (action : Action) : Prop :=
  ∀ run ∈ host.running, host.soundRun tools run action = true

instance (host : Host) (action : Action) : Decidable (Sound tools host action) := by
  unfold Sound
  infer_instance

structure Filed (tools : Tools) (host : Host) : Prop where
  slots : ∀ slot ∈ host.slots,
    accountOf tools slot.harness slot.credentials = some slot.accountKey
  saved : host.stranded = false
  intact : host.spoiled = false

/-! ### The invariant -/

structure Core (tools : Tools) (host : Host) : Prop where
  slots : ∀ slot ∈ host.slots, slot.Consistent tools
  objects : host.live.Objects
  saved : host.stranded = false
  intact : host.spoiled = false

def SavedClaude (tools : Tools) (host : Host) : Prop :=
  ∀ cfg oauth accountKey credentials, host.live.claudeAccount = some (cfg, oauth, accountKey) →
    host.live.readClaudeCredentials tools = some credentials →
    ∃ slot ∈ host.slots, slot.harness = .claudeCode ∧ slot.credentials = credentials

def SavedCodex (tools : Tools) (host : Host) : Prop :=
  ∀ d credentials, readJson host.live.codexAuth = some credentials →
    parseCodexAuth tools credentials = some d →
    ∃ slot ∈ host.slots, slot.harness = .codex ∧ slot.credentials = credentials

def AtPoint (tools : Tools) (host : Host) (original : Live) : Point → Prop
  | .snapshotClaude true | .snapshotCodex true => host.live.Matched tools
  | .snapshotClaude false | .usage | .removeSlot =>
      host.live.Matched tools ∧ host.live = original
  | .snapshotCodex false =>
      host.live.Matched tools ∧ host.live = original ∧ host.SavedClaude tools
  | .swap => host.live.Matched tools ∧ host.live = original ∧ host.SavedClaude tools ∧
      host.SavedCodex tools
  | .identity slot => slot.Consistent tools ∧ slot.harness = .claudeCode ∧
      (∀ credentials, host.live.readClaudeCredentials tools = some credentials →
        tools.owner credentials = slot.accountKey) ∧
      original.Matched tools ∧
      (mergeIdentity slot host.live.claudeConfig = none → host.live = original)

structure Inv (tools : Tools) (host : Host) : Prop where
  core : Core tools host
  idle : host.running = none → host.live.Matched tools
  running : ∀ run ∈ host.running, AtPoint tools host run.original run.point

theorem Start.inv (h : Start tools host) : Inv tools host := by
  refine ⟨⟨h.slots, h.objects, h.stranded, h.spoiled⟩, fun _ => h.matched, fun run hrun => ?_⟩
  have hrun : host.running = some run := hrun
  rw [h.idle] at hrun
  cases hrun

theorem Core.filed (h : Core tools host) : Filed tools host :=
  ⟨fun slot hslot => (h.slots slot hslot).account, h.saved, h.intact⟩

theorem Core.go (h : Core tools host) {point : Point} (hpoint : AtPoint tools host run.original point) :
    Inv tools (host.go run point) := by
  refine ⟨⟨h.slots, h.objects, h.saved, h.intact⟩, nofun, ?_⟩
  rintro _ ⟨⟩
  cases point with
  | snapshotClaude closing | snapshotCodex closing => cases closing <;> exact hpoint
  | usage | removeSlot | swap | identity _ => exact hpoint

theorem Core.finish (h : Core tools host) {failed : Bool} (hmatched : host.live.Matched tools)
    (hintact : failed = true → ∀ harness accountId, run.op = .activate harness accountId →
      host.live = run.original) : Inv tools (host.finish run failed) := by
  refine ⟨⟨h.slots, h.objects, h.saved, ?_⟩, fun _ => hmatched, ?_⟩
  · change (host.spoiled || _) = false
    rw [h.intact, Bool.false_or]
    cases hop : run.op with
    | list _ | forget _ _ => rfl
    | activate harness accountId =>
        cases failed with
        | false => rfl
        | true => simp [hintact rfl harness accountId hop]
  · intro other hother
    cases hother

/-! ### Lists -/

theorem isObject_of_readClaude {credentials : JsonValue} (h : live.Objects)
    (hread : live.readClaudeCredentials tools = some credentials) :
    isObject credentials = true := by
  unfold Live.readClaudeCredentials at hread
  split at hread
  · rename_i creds hfile
    cases hread
    exact (isObject_of_readJson hfile).1
  · split at hread
    · rename_i creds _ hkeychain
      cases hread
      exact h _ hkeychain
    · cases hread

theorem detectClaude_eq {d : Detected} (h : live.detectClaude tools = some d) :
    ∃ cfg oauth config, live.claudeAccount = some (cfg, oauth, d.accountKey) ∧
      d.credentials = live.readClaudeCredentials tools ∧ d.claudeConfig = some config ∧
      get "oauthAccount" config = some oauth := by
  obtain ⟨⟨cfg, oauth, accountKey⟩, haccount, rfl⟩ := Option.map_eq_some_iff.mp h
  refine ⟨cfg, oauth, _, haccount, rfl, rfl, ?_⟩
  split <;> rfl

theorem accountKeyOf_of_account {cfg oauth : JsonValue} {accountKey : String}
    (h : live.claudeAccount = some (cfg, oauth, accountKey)) :
    accountKeyOf oauth = some accountKey := by
  obtain ⟨cfg', -, h⟩ := Option.bind_eq_some_iff.mp h
  obtain ⟨oauth', -, h⟩ := Option.bind_eq_some_iff.mp h
  obtain ⟨key, hkey, heq⟩ := Option.map_eq_some_iff.mp h
  cases heq
  exact hkey

theorem credentials_of_parse {auth : JsonValue} {d : Detected}
    (h : parseCodexAuth tools auth = some d) : d.credentials = some auth := by
  unfold parseCodexAuth at h
  split at h
  · obtain ⟨email, -, rfl⟩ := Option.map_eq_some_iff.mp h
    rfl
  · obtain ⟨apiKey, -, rfl⟩ := Option.map_eq_some_iff.mp h
    rfl

theorem Core.writeSlot (h : Core tools host) (hslot : slot.Consistent tools) :
    Core tools (host.writeSlot slot) := by
  refine ⟨fun other hother => ?_, h.objects, h.saved, h.intact⟩
  obtain hother | hother := List.mem_append.mp hother
  · exact h.slots other (List.mem_filter.mp hother).1
  · rw [List.mem_singleton.mp hother]
    exact hslot

theorem mem_writeSlot_self (host : Host) (slot : Slot) : slot ∈ (host.writeSlot slot).slots :=
  List.mem_append_right _ (List.mem_singleton_self slot)

theorem mem_writeSlot_of_ne {slot other : Slot} (h : other ∈ host.slots)
    (hne : other.harness ≠ slot.harness) : other ∈ (host.writeSlot slot).slots :=
  List.mem_append_left _ (List.mem_filter.mpr ⟨h, by simp [hne]⟩)

theorem Core.snapshotClaude (h : Core tools host) (hmatched : host.live.Matched tools)
    {d : Detected} (hd : host.live.detectClaude tools = some d) :
    Core tools (host.snapshotDetected tools .claudeCode d) ∧
      (host.snapshotDetected tools .claudeCode d).live = host.live ∧
      SavedClaude tools (host.snapshotDetected tools .claudeCode d) := by
  obtain ⟨cfg, oauth, config, haccount, hcredentials, hconfig, hoauth⟩ := detectClaude_eq hd
  unfold snapshotDetected
  split
  · rename_i hnone
    refine ⟨h, rfl, fun _ _ _ credentials _ hread => ?_⟩
    rw [← hcredentials, hnone] at hread
    cases hread
  · rename_i credentials hsome
    have hread := hcredentials.symm.trans hsome
    refine ⟨h.writeSlot ⟨?_, isObject_of_readClaude h.objects hread, fun _ => ?_⟩, rfl, ?_⟩
    · exact congrArg some (hmatched _ _ _ _ haccount hread)
    · simp only [Slot.oauthAccount, hconfig, Option.bind_some, hoauth, Option.getD_some]
      exact accountKeyOf_of_account haccount
    · intro _ _ _ other _ hother
      cases hread.symm.trans hother
      exact ⟨_, mem_writeSlot_self host _, rfl, rfl⟩

theorem Core.snapshotCodex (h : Core tools host) {d : Detected}
    (hd : host.live.detectCodex tools = some d) :
    Core tools (host.snapshotDetected tools .codex d) ∧
      (host.snapshotDetected tools .codex d).live = host.live ∧
      SavedCodex tools (host.snapshotDetected tools .codex d) ∧
      (SavedClaude tools host → SavedClaude tools (host.snapshotDetected tools .codex d)) := by
  obtain ⟨auth, hread, hparse⟩ := Option.bind_eq_some_iff.mp hd
  simp only [snapshotDetected, credentials_of_parse hparse]
  refine ⟨h.writeSlot ⟨?_, (isObject_of_readJson hread).1, nofun⟩, rfl, ?_, ?_⟩
  · simp only [accountOf, hparse, Option.map_some]
  · intro _ credentials hcredentials _
    cases hread.symm.trans hcredentials
    exact ⟨_, mem_writeSlot_self host _, rfl, rfl⟩
  · intro hsaved cfg oauth accountKey credentials haccount hcredentials
    obtain ⟨slot, hmem, hharness, hslot⟩ :=
      hsaved cfg oauth accountKey credentials haccount hcredentials
    exact ⟨slot, mem_writeSlot_of_ne hmem (by rw [hharness]; nofun), hharness, hslot⟩

theorem Core.listed (h : Core tools host) {closing : Bool} (hmatched : host.live.Matched tools)
    (hopen : closing = false →
      host.live = run.original ∧ host.SavedClaude tools ∧ host.SavedCodex tools) :
    Inv tools (host.listed run closing) := by
  unfold Host.listed
  split
  · exact h.go ⟨hmatched, (hopen rfl).1⟩
  · exact h.go ⟨hmatched, hopen rfl⟩
  · exact h.go ⟨hmatched, (hopen rfl).1⟩
  · exact h.finish hmatched nofun

theorem Core.stepClaude (h : Core tools host) {closing succeeds : Bool}
    (hpoint : AtPoint tools host run.original (.snapshotClaude closing))
    (hrun : run.point = .snapshotClaude closing)
    (hsound : succeeds = false → host.soundRun tools run .refuse = true) :
    Inv tools (host.stepRun tools run succeeds) := by
  have hmatched : host.live.Matched tools := by
    cases closing with
    | true => exact hpoint
    | false => exact hpoint.1
  simp only [stepRun, hrun]
  cases hd : host.live.detectClaude tools with
  | none =>
      apply h.go
      cases closing with
      | true => exact hmatched
      | false =>
          refine ⟨hmatched, hpoint.2, fun _ _ _ _ haccount _ => ?_⟩
          rw [Live.detectClaude, haccount] at hd
          cases hd
  | some d =>
      obtain ⟨hcore, hlive, hsaved⟩ := h.snapshotClaude hmatched hd
      simp only
      split
      · apply hcore.go
        rw [← hlive] at hmatched
        cases closing with
        | true => exact hmatched
        | false => exact ⟨hmatched, hlive.trans hpoint.2, hsaved⟩
      · rename_i hrefused
        refine h.finish hmatched fun _ harness accountId hop => ?_
        cases closing with
        | false => exact hpoint.2
        | true =>
            simp only [Bool.or_eq_true, not_or, Bool.not_eq_true] at hrefused
            simpa [soundRun, hrun, hop, hd, hrefused.2] using hsound hrefused.1

theorem Core.stepCodex (h : Core tools host) {closing succeeds : Bool}
    (hpoint : AtPoint tools host run.original (.snapshotCodex closing))
    (hrun : run.point = .snapshotCodex closing)
    (hsound : succeeds = false → host.soundRun tools run .refuse = true) :
    Inv tools (host.stepRun tools run succeeds) := by
  have hmatched : host.live.Matched tools := by
    cases closing with
    | true => exact hpoint
    | false => exact hpoint.1
  simp only [stepRun, hrun]
  cases hd : host.live.detectCodex tools with
  | none =>
      refine h.listed hmatched fun hopen => ?_
      subst hopen
      refine ⟨hpoint.2.1, hpoint.2.2, fun d credentials hread hparse => ?_⟩
      rw [Live.detectCodex, hread, Option.bind_some, hparse] at hd
      cases hd
  | some d =>
      obtain ⟨hcore, hlive, hsaved, hkeeps⟩ := h.snapshotCodex hd
      simp only
      split
      · rw [← hlive] at hmatched
        refine hcore.listed hmatched fun hopen => ?_
        subst hopen
        exact ⟨hlive.trans hpoint.2.1, hkeeps hpoint.2.2, hsaved⟩
      · rename_i hrefused
        refine h.finish hmatched fun _ harness accountId hop => ?_
        cases closing with
        | false => exact hpoint.2.1
        | true => simpa [soundRun, hrun, hop, hd] using hsound (Bool.not_eq_true _ ▸ hrefused)

theorem Core.refreshSlot (h : Core tools host) {id accessToken : String}
    {refreshToken : Option String} {now expiresIn : Int}
    (hstep : host.refreshSlot tools id accessToken refreshToken now expiresIn = some host') :
    Core tools host' ∧ host'.live = host.live ∧ host'.running = host.running := by
  obtain ⟨slot, hslot, hstep⟩ := Option.bind_eq_some_iff.mp hstep
  split at hstep
  · cases hstep
  · obtain ⟨credentials, hrefreshed, hstep⟩ := Option.bind_eq_some_iff.mp hstep
    split at hstep
    · rename_i howner
      cases hstep
      have hconsistent := h.slots slot (List.mem_of_find?_eq_some hslot)
      have hfound := List.find?_some hslot
      simp only [decide_eq_true_eq] at hfound
      have hobject : isObject credentials = true := by
        obtain ⟨oauth, -, hrefreshed⟩ := Option.bind_eq_some_iff.mp hrefreshed
        split at hrefreshed
        · split at hrefreshed
          · cases hrefreshed
            rfl
          · cases hrefreshed
        · cases hrefreshed
      refine ⟨h.writeSlot ⟨?_, hobject, hconsistent.identity⟩, rfl, rfl⟩
      have haccount := hconsistent.account
      simp only [accountOf, hfound.1] at haccount ⊢
      rw [howner]
      exact haccount
    · cases hstep

/-! ### Swaps -/

theorem readClaude_of_write {credentials : JsonValue} (h : isObject credentials = true) :
    (live.writeClaudeCredentials tools credentials).readClaudeCredentials tools =
      some credentials := by
  unfold Live.writeClaudeCredentials
  split
  · rename_i hkeychain
    obtain ⟨hmacos, hmissing⟩ := Bool.and_eq_true_iff.mp hkeychain
    cases hfile : live.claudeCreds with
    | missing => simp [Live.readClaudeCredentials, readJson, hmacos]
    | unreadable | value _ =>
        rw [hfile] at hmissing
        cases hmissing
  · simp [Live.readClaudeCredentials, readJson, h]

theorem saved_of_known {harness : HarnessId} (h : Core tools host)
    (hknown : host.known tools harness = true)
    (hsaved : ∀ credentials, host.readable tools harness = some credentials →
      host.identified tools credentials harness = true →
      ∃ slot ∈ host.slots, slot.harness = harness ∧ slot.credentials = credentials) :
    host.saved tools harness = true := by
  unfold saved
  rw [Option.all_eq_true]
  intro credentials hread
  unfold known at hknown
  rw [Option.all_eq_true] at hknown
  have hheld : ∃ slot ∈ host.slots, slot.harness = harness ∧ slot.credentials = credentials := by
    obtain hidentified | hheld := (Bool.or_eq_true _ _).mp (hknown credentials hread)
    · exact hsaved credentials hread hidentified
    · simpa using hheld
  obtain ⟨slot, hmem, hharness, hcredentials⟩ := hheld
  refine List.any_eq_true.mpr ⟨slot, hmem, decide_eq_true ⟨hharness, hcredentials, ?_⟩⟩
  have haccount := (h.slots slot hmem).account
  rwa [hharness, hcredentials] at haccount

theorem accountOf_merge {merged : JsonValue}
    (hmerge : mergeIdentity slot live.claudeConfig = some merged) :
    isObject merged = true ∧ get "oauthAccount" merged = some slot.oauthAccount := by
  unfold mergeIdentity at hmerge
  have hobject : isObject ((readJson live.claudeConfig).getD (.object [])) = true := by
    cases hread : readJson live.claudeConfig with
    | none => rfl
    | some cfg => exact (isObject_of_readJson hread).1
  have hne : "oauthAccount" ≠ "userID" := by decide
  simp only at hmerge
  split at hmerge
  · cases hmerge
  · cases hmerge
    split
    · rw [isObject_insert, isObject_insert, get_insert_of_ne hne]
      exact ⟨hobject, get_insert_self _ hobject⟩
    · rw [isObject_remove, isObject_insert, get_remove_of_ne hne]
      exact ⟨hobject, get_insert_self _ hobject⟩

theorem Core.swapClaude (h : Core tools host) (hpoint : AtPoint tools host run.original .swap)
    (hslot : slot ∈ host.slots) (hharness : slot.harness = .claudeCode)
    (hsound : host.soundSwap tools .claudeCode slot = true) :
    Inv tools ({ host with
      live := host.live.writeClaudeCredentials tools slot.credentials
      stranded := host.stranded || !host.saved tools .claudeCode }.go run (.identity slot)) := by
  obtain ⟨hmatched, horiginal, hsavedClaude, -⟩ := hpoint
  obtain ⟨hknown, hmerges⟩ := Bool.and_eq_true_iff.mp hsound
  have hconsistent := h.slots slot hslot
  have hsaved : host.saved tools .claudeCode = true := by
    apply saved_of_known h hknown
    intro credentials hread hidentified
    obtain ⟨⟨cfg, oauth, accountKey⟩, haccount⟩ := Option.isSome_iff_exists.mp hidentified
    exact hsavedClaude cfg oauth accountKey credentials haccount hread
  have hconfig : (host.live.writeClaudeCredentials tools slot.credentials).claudeConfig =
      host.live.claudeConfig := by
    unfold Live.writeClaudeCredentials
    split <;> rfl
  have hcore : Core tools { host with
      live := host.live.writeClaudeCredentials tools slot.credentials
      stranded := host.stranded || !host.saved tools .claudeCode } := by
    refine ⟨h.slots, ?_, ?_, h.intact⟩
    · intro json hjson
      simp only [Live.writeClaudeCredentials] at hjson
      split at hjson
      · cases hjson
        exact hconsistent.object
      · exact h.objects json hjson
    · rw [hsaved, h.saved]
      rfl
  refine hcore.go ⟨hconsistent, hharness, ?_, horiginal ▸ hmatched, ?_⟩
  · intro credentials hread
    cases (readClaude_of_write hconsistent.object).symm.trans hread
    have haccount := hconsistent.account
    rw [hharness] at haccount
    exact Option.some_inj.mp haccount
  · intro hrefuses
    simp only [hconfig] at hrefuses
    rw [hrefuses] at hmerges
    simp only [ne_eq, not_true_eq_false, decide_false, Option.isSome_none, Bool.false_or,
      decide_eq_true_eq] at hmerges
    exact hmerges.trans horiginal

theorem Core.swapCodex (h : Core tools host) (hpoint : AtPoint tools host run.original .swap)
    (hsound : host.soundSwap tools .codex slot = true) :
    Inv tools ({ host with
      live := { host.live with codexAuth := .value slot.credentials }
      stranded := host.stranded || !host.saved tools .codex }.go run (.snapshotClaude true)) := by
  obtain ⟨hmatched, -, -, hsavedCodex⟩ := hpoint
  obtain ⟨hknown, -⟩ := Bool.and_eq_true_iff.mp hsound
  have hsaved : host.saved tools .codex = true := by
    apply saved_of_known h hknown
    intro credentials hread hidentified
    obtain ⟨d, hparse⟩ := Option.isSome_iff_exists.mp hidentified
    exact hsavedCodex d credentials hread hparse
  have hcore : Core tools { host with
      live := { host.live with codexAuth := .value slot.credentials }
      stranded := host.stranded || !host.saved tools .codex } := by
    refine ⟨h.slots, h.objects, ?_, h.intact⟩
    rw [hsaved, h.saved]
    rfl
  exact hcore.go hmatched

theorem Core.swap (h : Core tools host) {succeeds : Bool}
    (hpoint : AtPoint tools host run.original .swap) (hrun : run.point = .swap)
    (hsound : succeeds = true → host.soundRun tools run .advance = true) :
    Inv tools (host.swap tools run succeeds) := by
  have hfails : Inv tools (host.finish run true) :=
    h.finish hpoint.1 fun _ _ _ _ => hpoint.2.1
  unfold Host.swap
  split
  · rename_i harness accountId hop
    split
    · rename_i slot hslot
      have hfound := List.find?_some hslot
      simp only [decide_eq_true_eq] at hfound
      have hsound := hsound rfl
      simp only [soundRun, hrun, hop, hslot, Option.all_some] at hsound
      exact h.swapClaude hpoint (List.mem_of_find?_eq_some hslot) hfound.1 hsound
    · rename_i slot hslot
      have hsound := hsound rfl
      simp only [soundRun, hrun, hop, hslot, Option.all_some] at hsound
      exact h.swapCodex hpoint hsound
    · exact hfails
  · exact hfails

theorem Core.identity (h : Core tools host) {succeeds : Bool}
    (hpoint : AtPoint tools host run.original (.identity slot))
    (hsound : succeeds = false → host.live = run.original) :
    Inv tools (host.identity run slot succeeds) := by
  obtain ⟨hconsistent, hharness, howner, horiginal, hrefuses⟩ := hpoint
  have hfails (hsame : host.live = run.original) : Inv tools (host.finish run true) :=
    h.finish (hsame ▸ horiginal) fun _ _ _ _ => hsame
  have hwrites : succeeds = true ∨ host.live = run.original := by
    cases succeeds with
    | true => exact .inl rfl
    | false => exact .inr (hsound rfl)
  unfold Host.identity
  split
  · rename_i merged hmerge
    obtain ⟨hobject, hoauth⟩ := accountOf_merge hmerge
    have hcore : Core tools { host with
        live := { host.live with claudeConfig := .value merged } } :=
      ⟨h.slots, h.objects, h.saved, h.intact⟩
    apply hcore.go
    intro cfg oauth accountKey credentials haccount hread
    have hmerged : Live.claudeAccount { host.live with claudeConfig := .value merged } =
        some (merged, slot.oauthAccount, slot.accountKey) := by
      simp only [Live.claudeAccount, readJson, hobject, if_true, Option.bind_some, hoauth,
        hconsistent.identity hharness, Option.map_some]
    cases hmerged.symm.trans haccount
    exact howner credentials hread
  · rename_i hnone
    apply hfails
    obtain hsucceeds | hsame := hwrites
    · apply hrefuses
      rw [Option.eq_none_iff_forall_not_mem]
      intro merged hmerge
      exact hnone merged hmerge hsucceeds
    · exact hsame

theorem Core.removeSlot (h : Core tools host) {succeeds : Bool}
    (hpoint : AtPoint tools host run.original .removeSlot) :
    Inv tools (host.removeSlot tools run succeeds) := by
  have hfails : Inv tools (host.finish run true) := h.finish hpoint.1 fun _ _ _ _ => hpoint.2
  unfold Host.removeSlot
  split
  · rename_i harness accountId hop
    split
    · exact hfails
    · split
      · have hcore : Core tools { host with slots := host.slots.filter fun slot =>
            ¬ (slot.harness = harness ∧ slot.id = accountId) } :=
          ⟨fun slot hslot => h.slots slot (List.mem_filter.mp hslot).1, h.objects, h.saved,
            h.intact⟩
        exact hcore.go hpoint.1
      · exact hfails
  · exact hfails

/-! ### Runs -/

theorem Inv.stepRun (h : Inv tools host) (hrunning : host.running = some run) {succeeds : Bool}
    (hsound : host.soundRun tools run (if succeeds then .advance else .refuse) = true) :
    Inv tools (host.stepRun tools run succeeds) := by
  have hpoint := h.running run hrunning
  have hrefuse : succeeds = false → host.soundRun tools run .refuse = true := by
    rintro rfl
    exact hsound
  cases hcase : run.point with
  | snapshotClaude closing => exact h.core.stepClaude (hcase ▸ hpoint) hcase hrefuse
  | snapshotCodex closing => exact h.core.stepCodex (hcase ▸ hpoint) hcase hrefuse
  | usage =>
      rw [hcase] at hpoint
      simp only [Host.stepRun, hcase]
      exact h.core.finish hpoint.1 nofun
  | swap =>
      simp only [Host.stepRun, hcase]
      refine h.core.swap (hcase ▸ hpoint) hcase ?_
      rintro rfl
      exact hsound
  | identity slot =>
      simp only [Host.stepRun, hcase]
      refine h.core.identity (hcase ▸ hpoint) fun hfails => ?_
      simpa [soundRun, hcase] using hrefuse hfails
  | removeSlot =>
      simp only [Host.stepRun, hcase]
      exact h.core.removeSlot (hcase ▸ hpoint)

theorem Inv.start (h : Inv tools host) (hidle : host.running = none) (op : Op) :
    Inv tools (host.start op) := by
  have hbegun : Inv tools { host with
      running := some { op, original := host.live, point := .snapshotClaude false } } := by
    refine ⟨⟨h.core.slots, h.core.objects, h.core.saved, h.core.intact⟩, nofun, ?_⟩
    rintro _ ⟨⟩
    exact ⟨h.idle hidle, rfl⟩
  cases op with
  | list _ | activate _ _ => exact hbegun
  | forget harness accountId =>
      unfold Host.start
      simp only
      split
      · exact hbegun
      · exact h

theorem Inv.crash (h : Inv tools host) (hrunning : host.running = some run)
    (hsound : host.soundRun tools run .crash = true) :
    Inv tools { host with running := none } := by
  have hpoint := h.running run hrunning
  refine ⟨⟨h.core.slots, h.core.objects, h.core.saved, h.core.intact⟩, fun _ => ?_, ?_⟩
  · change host.live.Matched tools
    cases hcase : run.point with
    | snapshotClaude closing | snapshotCodex closing =>
        rw [hcase] at hpoint
        cases closing with
        | true => exact hpoint
        | false => exact hpoint.1
    | usage | swap | removeSlot =>
        rw [hcase] at hpoint
        exact hpoint.1
    | identity slot =>
        -- the credentials are the slot's, the identity is still the one before
        rw [hcase] at hpoint
        intro cfg oauth accountKey credentials haccount hread
        simp only [soundRun, hcase, haccount, Option.all_some, decide_eq_true_eq] at hsound
        rw [hsound]
        exact hpoint.2.2.1 credentials hread
  · intro other hother
    cases hother

theorem Inv.step {action : Action} (h : Inv tools host) (hsound : Sound tools host action)
    (hstep : host.step tools action = some host') : Inv tools host' := by
  unfold Host.step at hstep
  cases hrunning : host.running with
  | none =>
      rw [hrunning] at hstep
      cases action with
      | call op =>
          cases hstep
          exact h.start hrunning op
      | advance | refuse | refreshed _ _ _ _ _ | crash => cases hstep
  | some run =>
      have hsound := hsound run hrunning
      rw [hrunning] at hstep
      cases action with
      | call op => cases hstep
      | advance | refuse =>
          cases hstep
          exact h.stepRun hrunning hsound
      | refreshed id accessToken refreshToken now expiresIn =>
          simp only at hstep
          split at hstep
          · rename_i husage
            obtain ⟨hcore, hlive, hsame⟩ := h.core.refreshSlot hstep
            refine ⟨hcore, fun hidle => ?_, fun other hother => ?_⟩
            · rw [hsame, hrunning] at hidle
              cases hidle
            · have hother : host'.running = some other := hother
              rw [hsame, hrunning] at hother
              cases hother
              have hpoint := h.running run hrunning
              rw [husage] at hpoint ⊢
              obtain ⟨hmatched, horiginal⟩ := hpoint
              rw [← hlive] at hmatched
              exact ⟨hmatched, hlive.trans horiginal⟩
          · cases hstep
      | crash =>
          cases hstep
          exact h.crash hrunning hsound

/-- **Logins stay with their accounts**, over every run that keeps to `Sound`. -/
theorem logins_filed (tools : Tools) {host : Host}
    (h : (machine tools).ReachableWhen (Sound tools) host) : Filed tools host := by
  have hinv : Inv tools host := h.invariant (fun _ hstart => Start.inv hstart)
    fun _ _ _ hinv hsound hstep => hinv.step hsound hstep
  exact hinv.core.filed

def credentialsOf (token : String) : JsonValue :=
  .object [("claudeAiOauth", .object [("accessToken", .string token),
    ("refreshToken", .string ("refresh-" ++ token)), ("expiresAt", .int 4102444800000)])]

def oauthOf (name uuid : String) : JsonValue :=
  .object [("accountUuid", .string uuid), ("emailAddress", .string (name ++ "@example.com")),
    ("displayName", .string name)]

def linux : Tools where
  macos := false
  toUppercase c := String.ofList [c.toUpper]
  decodePayload _ := none
  sha256Hex text :=
    if text = "claude-code:uuid-alice" then
      "2cad0af0430945c3625182fd719176ca0d4bff3c892865dab55fd802b0d53b7c"
    else if text = "claude-code:uuid-bob" then
      "f3090fbd8e94881a734b249bcebd9d6bae7a51a9ca45aa0bbb2e3ff5d7ec12e9"
    else ""
  owner credentials :=
    if credentials = credentialsOf "token-alice" then "uuid-alice"
    else if credentials = credentialsOf "token-bob" then "uuid-bob"
    else ""

/-- Alice is logged in and Bob is saved. -/
def aliceLive : Host :=
  { live :=
      { claudeCreds := .value (credentialsOf "token-alice"), keychain := .missing
        claudeConfig := .value (.object [("projects", .object []),
          ("oauthAccount", oauthOf "alice" "uuid-alice")])
        codexAuth := .missing }
    slots :=
      [{ id := "f3090fbd8e94881a", harness := .claudeCode, accountKey := "uuid-bob"
         profile :=
           { email := "bob@example.com", displayName := some "bob", organization := none
             plan := none, authKind := .oauth }
         credentials := credentialsOf "token-bob"
         claudeConfig := some (.object [("oauthAccount", oauthOf "bob" "uuid-bob")]) }]
    running := none, stranded := false, spoiled := false }

theorem start_aliceLive : Start linux aliceLive := by
  refine ⟨rfl, ?_, nofun, ?_, rfl, rfl⟩
  · intro cfg oauth accountKey credentials haccount hread
    cases hread
    have hkey : some accountKey = some "uuid-alice" := by
      rw [← accountKeyOf_of_account haccount]
      cases haccount
      decide
    cases hkey
    decide
  · intro slot hslot
    rw [List.mem_singleton.mp hslot]
    exact ⟨by decide, rfl, fun _ => by decide⟩

/-- Bob's login is activated and everything is written. -/
theorem logins_filed_switched :
    ∃ host : Host, host.live.claudeCreds = .value (credentialsOf "token-bob") ∧
      Filed linux host := by
  obtain ⟨host, hsteps, hhost⟩ := Machine.exists_steps_of_runWhen (machine linux) (Sound linux)
    (s := aliceLive) (.call (.activate .claudeCode "f3090fbd8e94881a") :: List.replicate 6 .advance)
    (p := fun host => decide (host.live.claudeCreds = .value (credentialsOf "token-bob") ∧
      host.running = none)) (by decide)
  exact ⟨host, (of_decide_eq_true hhost).1,
    logins_filed linux ⟨aliceLive, start_aliceLive, hsteps⟩⟩

/-- The identity is refused after the credentials were written: the activate returns an error, and the
next list saves Bob's credentials in Alice's slot. -/
theorem refused_identity_misfiles :
    ∃ host : Host, (machine linux).Reachable host ∧ ¬ Filed linux host := by
  obtain ⟨host, hsteps, hhost⟩ := Machine.exists_steps_of_runWhen (machine linux) Machine.anyStep
    (s := aliceLive) [.call (.activate .claudeCode "f3090fbd8e94881a"), .advance, .advance, .advance,
      .refuse, .call (.list false), .advance]
    (p := fun host => host.spoiled && host.slots.any fun slot =>
      slot.accountKey = "uuid-alice" ∧ slot.harness = .claudeCode ∧
        linux.owner slot.credentials = "uuid-bob") (by decide)
  obtain ⟨-, hmisfiled⟩ := Bool.and_eq_true_iff.mp hhost
  refine ⟨host, ⟨aliceLive, start_aliceLive, hsteps⟩, fun hfiled => ?_⟩
  obtain ⟨slot, hslot, hmisfiled⟩ := List.any_eq_true.mp hmisfiled
  obtain ⟨hkey, hharness, howner⟩ := of_decide_eq_true hmisfiled
  have haccount := hfiled.slots slot hslot
  rw [hharness, hkey] at haccount
  have howned : some (linux.owner slot.credentials) = some "uuid-alice" := haccount
  rw [howner] at howned
  exact absurd howned (by decide)

end Host

end Zeron.AgentAccounts
