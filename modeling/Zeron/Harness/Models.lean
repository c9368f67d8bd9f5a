import Mathlib.Data.List.Pairwise
import Zeron.Harness.ModelIds
import Zeron.Harness.Normalize

/-!
# The models of a session

The picker rows that `models_from_session` of `crates/harness/src/acp/mod.rs` derives from the response
to `session/new`, and the value that `config_option_sets` wants of an option when one of them is
picked.
-/

namespace Zeron.Harness.Models

open Zeron.Doc (trimEnd)
open Zeron.Registry (JsonValue)
open Zeron.Registry.JsonValue
open Zeron.Harness.Normalize (text? filled)
open Zeron.Harness.ModelIds

inductive ReasoningLevel where
  | minimal
  | low
  | medium
  | high
  | xhigh
  | max
  | ultra
  | ultracode
  | ultrathink
deriving DecidableEq

structure ModelOptionChoice where
  id : String
  label : String

structure ModelOption where
  id : String
  label : String
  choices : List ModelOptionChoice
  defaultChoice : String

structure Model where
  id : String
  label : String
  description : Option String
  reasoningLevels : List ReasoningLevel
  options : List ModelOption

def contextWindow : ModelOption where
  id := "contextWindow"
  label := "Context Window"
  choices := [⟨"200k", "200K"⟩, ⟨"1m", "1M"⟩]
  defaultChoice := "200k"

def reasoningFromValue (value : String) : Option ReasoningLevel :=
  match normId value with
  | "minimal" => some .minimal
  | "low" => some .low
  | "medium" => some .medium
  | "high" => some .high
  | "xhigh" => some .xhigh
  | "max" => some .max
  | "ultra" => some .ultra
  | "ultracode" => some .ultracode
  | "ultrathink" => some .ultrathink
  | _ => none

/-! ## Config options -/

section Options

def items (value : JsonValue) (key : String) : List JsonValue :=
  ((value.get? key).bind array?).getD []

def configOptions (response : JsonValue) : List JsonValue := items response "configOptions"

def withCategory (response : JsonValue) (category : String) : Option JsonValue :=
  (configOptions response).find? fun option => text? option "category" = some category

def advertised (option : JsonValue) : List String := (items option "options").filterMap (text? · "value")

def modelOptionChoice (choice : JsonValue) : Option ModelOptionChoice :=
  (text? choice "value").map fun id => ⟨id, (text? choice "name").getD id⟩

def selectOption (option : JsonValue) (id label : String) : Option ModelOption :=
  ((option.get? "options").bind array?).bind fun choices =>
    let choices := choices.filterMap modelOptionChoice
    (text? option "currentValue" <|> choices.head?.map ModelOptionChoice.id).bind fun defaultChoice =>
      if 1 < choices.length then some { id, label, choices, defaultChoice } else none

def booleanOption (option : JsonValue) (id label : String) : ModelOption where
  id := id
  label := label
  choices := [⟨"off", "Off"⟩, ⟨"on", "On"⟩]
  defaultChoice := if option.get? "currentValue" = some (.bool true) then "on" else "off"

/-- An option that is neither the mode, nor the model, nor the effort. -/
def traitFromConfigOption (option : JsonValue) : Option ModelOption :=
  if text? option "category" ∈ [some "mode", some "model", some "thought_level"] then none
  else
    (text? option "id").bind fun id =>
      let label := (text? option "name").getD id
      match text? option "type" with
      | some "select" => selectOption option id label
      | some "boolean" => some (booleanOption option id label)
      | _ => none

end Options

/-! ## Rows -/

section Rows

variable (response : JsonValue) (catalog : List Model)

def ladder : List ReasoningLevel :=
  ((withCategory response "thought_level").map advertised).getD [] |>.filterMap reasoningFromValue

def exact (id : String) : Option Model := catalog.find? fun model => normId model.id = normId id

def aliased (id : String) : Option Model :=
  let norm := normId id
  if norm ≠ "" ∧ norm.toList.all Char.isAlpha = true then
    catalog.find? fun model => containsText (normId model.id) norm
  else none

/-- The name on the wire wins, but for an alias. -/
def build (id : String) (name description : Option String) (options : List ModelOption) : Model :=
  let aliasRow := if (exact catalog id).isNone then aliased catalog id else none
  let known := exact catalog id <|> aliasRow
  { id
    label := (aliasRow.map Model.label <|> name <|> known.map Model.label).getD id
    description := aliasRow.bind Model.description <|> description <|> known.bind Model.description
    reasoningLevels :=
      match known.filter fun model => !model.reasoningLevels.isEmpty with
      | some model => model.reasoningLevels
      | none => ladder response
    options }

def beforeLast (separator : List Char) : List Char → Option (List Char)
  | [] => none
  | c :: rest =>
      match beforeLast separator rest with
      | some front => some (c :: front)
      | none => if separator <+: c :: rest then some [] else none

def stripTrailingParenthetical (name : String) : String :=
  match beforeLast " (".toList name.toList with
  | some front => if name.toList.getLast? = some ')' then String.ofList (trimEnd front) else name
  | none => name

def modelSelect : List JsonValue :=
  ((withCategory response "model").map (items · "options")).getD []

def rawIds : List String := (modelSelect response).filterMap (text? · "value")

def wireOptions : List ModelOption := (configOptions response).filterMap traitFromConfigOption

def hasReal : Bool := (rawIds response).any fun id => normId id ≠ "default"

def modelRow (choice : JsonValue) : Option Model :=
  (text? choice "value").bind fun id =>
    let name := text? choice "name"
    let description := text? choice "description"
    if hasReal response && normId id = "default" then none
    else
      match stripContextHint id with
      | some base =>
          if base ∈ rawIds response then none
          else
            some (build response catalog base
              ((name.map stripTrailingParenthetical).bind filled) description
              (wireOptions response ++ [{ contextWindow with defaultChoice := "1m" }]))
      | none =>
          some (build response catalog id name description
            (if (rawIds response).any fun raw => stripContextHint raw = some id then
              wireOptions response ++ [contextWindow]
            else wireOptions response))

/-- For agents without session config options. -/
def legacyRow (model : JsonValue) : Option Model :=
  (text? model "modelId").map fun id =>
    build response catalog id (text? model "name") (text? model "description")
      (((exact catalog id).map Model.options).getD [])

def modelsFromSession : List Model :=
  if modelSelect response ≠ [] then (modelSelect response).filterMap (modelRow response catalog)
  else
    (((response.get? "models").map (items · "availableModels")).getD []).filterMap
      (legacyRow response catalog)

end Rows

/-! ## Sets -/

section Sets

abbrev Chosen := List (String × JsonValue)

def context1m (modelOptions : Chosen) : Bool :=
  ((modelOptions.lookup "contextWindow").bind str?).any fun window => window.toLower = "1m"

/-- The modes without prompts, in the order of preference. -/
def promptlessModes : List String :=
  ["bypassPermissions", "bypass_permissions", "yolo", "agent-full-access", "danger-full-access",
    "full-access"]

/-- A choice of the run for an option that is none of the three. -/
def chosenValue (option : JsonValue) (configId kind : String) (optId : String) (choice : JsonValue) :
    Option JsonValue :=
  if normId optId ≠ normId configId ∨ optId = "contextWindow" then none
  else
    match kind with
    | "select" => (choice.str?.filter fun value => value ∈ advertised option).map .string
    | "boolean" =>
        some (.bool (choice = .bool true || choice.str?.any fun value => value.toLower = "on"))
    | _ => none

def wanted (option : JsonValue) (configId : String) (model : Option String) (efforts : List String)
    (modelOptions : Chosen) : Option JsonValue :=
  let available := advertised option
  match (text? option "type").getD "", text? option "category" with
  | "select", some "model" =>
      (model.bind fun model => resolveModel available model efforts (context1m modelOptions)).map
        .string
  | "select", some "mode" =>
      ((((modelOptions.lookup "mode").bind str?).filter fun mode => mode ∈ available) <|>
        promptlessModes.find? fun mode => mode ∈ available).map .string
  | "select", some "thought_level" => (efforts.find? fun effort => effort ∈ available).map .string
  | kind, _ => modelOptions.findSome? fun chosen => chosenValue option configId kind chosen.1 chosen.2

end Sets

/-! ## The picked model -/

section Picked

/-- The model option of a session: it is a select with an id, and advertises distinct values. -/
structure Advertises (response option : JsonValue) : Prop where
  found : withCategory response "model" = some option
  select : text? option "type" = some "select"
  identified : (text? option "id").isSome
  distinct : (advertised option).Nodup
  some : advertised option ≠ []

/-- The context window is not chosen, or as the row offers it. -/
def Offered (row : Model) (modelOptions : Chosen) : Prop :=
  modelOptions.lookup "contextWindow" = none ∨ ∃ window ∈ row.options, window.id = "contextWindow" ∧
    ∃ choice ∈ window.choices, modelOptions.lookup "contextWindow" = some (.string choice.id)

/-- The rows have ids of their own, and what a run wants of the model option for one of them is its id
or a 1M spelling of it. -/
def PickedRuns (response : JsonValue) (catalog : List Model) (option : JsonValue) : Prop :=
  ((modelsFromSession response catalog).map Model.id).Nodup ∧
    ∀ row ∈ modelsFromSession response catalog, ∀ configId modelOptions, Offered row modelOptions →
      ∃ value, wanted option configId (some row.id) [] modelOptions = some (.string value) ∧
        Runs (advertised option) (context1m modelOptions) row.id value

def rowId (raw : List String) (id : String) : Option String :=
  if (raw.any fun id => normId id ≠ "default") && normId id = "default" then none
  else
    match stripContextHint id with
    | some base => if base ∈ raw then none else some base
    | none => some id

variable {response option : JsonValue} {catalog : List Model} {raw : List String} {id row : String}

theorem id_modelRow (choice : JsonValue) : (modelRow response catalog choice).map Model.id =
    (text? choice "value").bind (rowId (rawIds response)) := by
  unfold modelRow rowId hasReal
  cases text? choice "value" with
  | none => rfl
  | some id =>
      simp only [Option.bind_some]
      by_cases hdefault : ((rawIds response).any fun id => normId id ≠ "default") &&
          normId id = "default"
      · rw [if_pos hdefault, if_pos hdefault]
        rfl
      · rw [if_neg hdefault, if_neg hdefault]
        cases stripContextHint id with
        | none => rfl
        | some base =>
            dsimp only
            split_ifs <;> rfl

theorem rawIds_eq (h : Advertises response option) : rawIds response = advertised option := by
  unfold rawIds modelSelect
  rw [h.found]
  rfl

theorem modelsFromSession_eq (h : Advertises response option) :
    modelsFromSession response catalog = (modelSelect response).filterMap (modelRow response catalog) := by
  refine if_pos fun hnil => h.some ?_
  rw [← rawIds_eq h, rawIds, hnil]
  rfl

theorem ids_modelsFromSession (h : Advertises response option) :
    (modelsFromSession response catalog).map Model.id =
      (advertised option).filterMap (rowId (advertised option)) := by
  rw [modelsFromSession_eq h, List.map_filterMap, ← rawIds_eq h, rawIds, List.filterMap_filterMap]
  simp only [id_modelRow]
  rfl

theorem rowId_cases (h : rowId raw id = some row) : id = row ∧ stripContextHint id = none ∨
    row ∉ raw ∧ (id = row ++ "[1m]" ∨ id = row ++ "-1m") := by
  unfold rowId at h
  replace h := (Option.ite_none_left_eq_some.mp h).2
  cases hstrip : stripContextHint id with
  | none =>
      rw [hstrip] at h
      exact .inl ⟨Option.some.inj h, rfl⟩
  | some base =>
      rw [hstrip] at h
      obtain ⟨hbase, hsome⟩ := Option.ite_none_left_eq_some.mp h
      cases hsome
      exact .inr ⟨hbase, spelling_of_strip hstrip⟩

theorem isRow_of_rowId (hid : id ∈ raw) (h : rowId raw id = some row) : IsRow raw row := by
  obtain ⟨rfl, hstrip⟩ | ⟨hrow, rfl | rfl⟩ := rowId_cases h
  · exact .inl ⟨hid, hstrip⟩
  · exact .inr ⟨hrow, .inl hid⟩
  · exact .inr ⟨hrow, .inr hid⟩

theorem normId_hint_ne_default (base : String) :
    normId (base ++ "[1m]") ≠ "default" ∧ normId (base ++ "-1m") ≠ "default" := by
  constructor
  · intro h
    have hlast := congrArg (fun id : String => id.toList.getLast?) h
    simp [normId, String.toList_append, Char.isAlphanum] at hlast
  · intro h
    have hlast := congrArg (fun id : String => id.toList.getLast?) h
    simp [normId, String.toList_append, Char.isAlphanum] at hlast

theorem rowId_of_hint {base : String} (hbase : base ∉ raw)
    (hid : id = base ++ "[1m]" ∨ id = base ++ "-1m") : rowId raw id = some base := by
  obtain ⟨hbracket, hdash⟩ := normId_hint_ne_default base
  have hstrip : stripContextHint id = some base := by
    unfold stripContextHint
    obtain rfl | rfl := hid
    · rw [stripSuffix_append]
      rfl
    · have hnone : stripSuffix (base ++ "-1m") "[1m]" = none := by
        rw [Option.eq_none_iff_forall_ne_some]
        intro other hother
        exact append_hint_ne_append_hint other base (stripSuffix_eq_some.mp hother).symm
      rw [hnone, stripSuffix_append]
      rfl
  have hreal : normId id ≠ "default" := by
    obtain rfl | rfl := hid
    · exact hbracket
    · exact hdash
  unfold rowId
  rw [if_neg (by simp [hreal]), hstrip]
  exact if_neg hbase

theorem hints_of_rowId {id' : String} (hid : id ∈ raw) (hid' : id' ∈ raw) (hne : id ≠ id')
    (h : rowId raw id = some row) (h' : rowId raw id' = some row) :
    row ∉ raw ∧ row ++ "[1m]" ∈ raw ∧ row ++ "-1m" ∈ raw := by
  obtain ⟨rfl, -⟩ | ⟨hrow, hspelling⟩ := rowId_cases h
  · obtain ⟨rfl, -⟩ | ⟨hrow, -⟩ := rowId_cases h'
    · exact absurd rfl hne
    · exact absurd hid hrow
  · obtain ⟨rfl, -⟩ | ⟨-, hspelling'⟩ := rowId_cases h'
    · exact absurd hid' hrow
    · obtain rfl | rfl := hspelling <;> obtain rfl | rfl := hspelling'
      · exact absurd rfl hne
      · exact ⟨hrow, hid, hid'⟩
      · exact ⟨hrow, hid', hid⟩
      · exact absurd rfl hne

/-- No id is advertised in both 1M spellings and not itself. -/
def NoOrphanPair (raw : List String) : Prop :=
  ∀ base, base ∉ raw → ¬(base ++ "[1m]" ∈ raw ∧ base ++ "-1m" ∈ raw)

theorem nodup_rowIds_iff (hraw : raw.Nodup) :
    (raw.filterMap (rowId raw)).Nodup ↔ NoOrphanPair raw := by
  rw [List.Nodup, List.pairwise_filterMap]
  constructor
  · rintro hpairs base hbase ⟨hbracket, hdash⟩
    have hsymm : Std.Symm fun id id' => ∀ row, rowId raw id = some row →
        ∀ row', rowId raw id' = some row' → row ≠ row' :=
      ⟨fun _ _ hdistinct row hrow row' hrow' => (hdistinct row' hrow' row hrow).symm⟩
    have hdistinct := hpairs.forall hbracket hdash (append_hint_ne_append_hint base base)
    exact hdistinct base (rowId_of_hint hbase (.inl rfl)) base (rowId_of_hint hbase (.inr rfl)) rfl
  · intro hnone
    refine hraw.imp_of_mem fun {id id'} hid hid' hne row hrow row' hrow' => ?_
    rintro rfl
    obtain ⟨hbase, hboth⟩ := hints_of_rowId hid hid' hne hrow hrow'
    exact hnone row hbase hboth

theorem wanted_model (h : Advertises response option) (configId : String) (row : String)
    (modelOptions : Chosen) : wanted option configId (some row) [] modelOptions =
      (resolveModel (advertised option) row [] (context1m modelOptions)).map .string := by
  have hcategory : text? option "category" = some "model" := by
    simpa using List.find?_some h.found
  unfold wanted
  rw [hcategory, h.select]
  rfl

/-- **The picked model.** The rows have ids of their own exactly when no id is advertised in both 1M
spellings only, and a row runs exactly when its id resolves to itself. -/
theorem pickedRuns_iff (h : Advertises response option) (catalog : List Model) :
    PickedRuns response catalog option ↔ NoOrphanPair (advertised option) ∧
      ∀ row ∈ modelsFromSession response catalog, ∀ modelOptions, Offered row modelOptions →
        Resolves (advertised option) (context1m modelOptions) row.id := by
  unfold PickedRuns
  rw [ids_modelsFromSession h, nodup_rowIds_iff h.distinct]
  refine and_congr_right fun _ => ?_
  have hrow : ∀ row ∈ modelsFromSession response catalog, IsRow (advertised option) row.id := by
    intro row hmem
    have hid : row.id ∈ (modelsFromSession response catalog).map Model.id :=
      List.mem_map_of_mem hmem
    rw [ids_modelsFromSession h] at hid
    obtain ⟨id, hadvertised, hrowId⟩ := List.mem_filterMap.mp hid
    exact isRow_of_rowId hadvertised hrowId
  constructor
  · intro hruns row hmem modelOptions hoffered
    obtain ⟨value, hwanted, hvalue⟩ := hruns row hmem "model" modelOptions hoffered
    rw [wanted_model h] at hwanted
    obtain ⟨found, hfound, heq⟩ := Option.map_eq_some_iff.mp hwanted
    cases heq
    exact (resolveModel_runs_iff (hrow row hmem)).mp ⟨value, hfound, hvalue⟩
  · intro hresolves row hmem configId modelOptions hoffered
    obtain ⟨value, hfound, hvalue⟩ :=
      (resolveModel_runs_iff (hrow row hmem)).mpr (hresolves row hmem modelOptions hoffered)
    refine ⟨value, ?_, hvalue⟩
    rw [wanted_model h, hfound]
    rfl

def advertising (ids : List String) : JsonValue :=
  .object [("id", .string "model"), ("category", .string "model"), ("type", .string "select"),
    ("options", .array (ids.map fun id => .object [("value", .string id)]))]

def session (ids : List String) : JsonValue := .object [("configOptions", .array [advertising ids])]

theorem advertises_session (ids : List String)
    (h : advertised (advertising ids) = ids ∧ ids.Nodup ∧ ids ≠ []) :
    Advertises (session ids) (advertising ids) where
  found := rfl
  select := rfl
  identified := rfl
  distinct := h.1.symm ▸ h.2.1
  some := h.1.symm ▸ h.2.2

/-- With a 1M spelling of the same model. -/
theorem pickedRuns_sonnet :
    PickedRuns (session ["sonnet", "sonnet[1m]"]) [] (advertising ["sonnet", "sonnet[1m]"]) := by
  have hadvertised : advertised (advertising ["sonnet", "sonnet[1m]"]) = ["sonnet", "sonnet[1m]"] := by
    decide +kernel
  refine (pickedRuns_iff (advertises_session _ ⟨hadvertised, by decide, by decide⟩) []).mpr ⟨?_, ?_⟩
  · rintro base - ⟨-, hdash⟩
    rw [hadvertised] at hdash
    have hlast : 'm' ∈ ["sonnet", "sonnet[1m]"].map (·.toList.getLastD ' ') := by
      simpa [String.toList_append] using List.mem_map_of_mem (f := (·.toList.getLastD ' ')) hdash
    exact absurd hlast (by decide)
  · intro row hrow modelOptions hoffered
    have hids : (modelsFromSession (session ["sonnet", "sonnet[1m]"]) []).map Model.id =
        ["sonnet"] := by
      decide +kernel
    have hid : row.id = "sonnet" := by
      have hmem : row.id ∈ (modelsFromSession (session ["sonnet", "sonnet[1m]"]) []).map Model.id :=
        List.mem_map_of_mem hrow
      rw [hids] at hmem
      exact List.mem_singleton.mp hmem
    rw [hid, hadvertised]
    unfold Resolves
    dsimp only
    rw [if_neg (by decide +kernel), if_pos (by decide +kernel)]
    exact .inl List.mem_cons_self

/-- The row of an orphan 1M variant runs another model of its family. -/
theorem orphan_row_runs_other : ¬ ∀ response option catalog,
    Advertises response option → PickedRuns response catalog option := by
  intro h
  have hadvertises := advertises_session ["opus[1m]", "claude-opus-4-5"] (by decide +kernel)
  obtain ⟨-, hruns⟩ := h _ _ [] hadvertises
  have hids : (modelsFromSession (session ["opus[1m]", "claude-opus-4-5"]) []).map Model.id =
      ["opus", "claude-opus-4-5"] := by decide +kernel
  obtain ⟨row, hrow, hid⟩ := List.mem_map.mp (hids ▸ List.mem_cons_self : "opus" ∈
    (modelsFromSession (session ["opus[1m]", "claude-opus-4-5"]) []).map Model.id)
  obtain ⟨value, hwanted, -, hspelling⟩ := hruns row hrow "model" [] (.inl rfl)
  have hother : wanted (advertising ["opus[1m]", "claude-opus-4-5"]) "model" (some "opus") [] [] =
      some (.string "claude-opus-4-5") := by decide +kernel
  rw [hid, hother] at hwanted
  cases hwanted
  rw [hid, if_pos (.inr (by decide +kernel))] at hspelling
  exact absurd hspelling (by decide)

end Picked

end Zeron.Harness.Models
