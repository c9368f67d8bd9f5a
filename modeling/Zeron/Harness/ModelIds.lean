import Mathlib.Data.List.Dedup
import Mathlib.Data.List.Infix
import Zeron.Doc.Rebuild

/-!
# Model ids

The ids of an agent's models, of `crates/harness/src/acp/mod.rs` and `crates/harness/src/acp/cursor.rs`:
the spellings of a long context, the families of an id, and how the id of a picker row is resolved to
one that the agent advertises.
-/

namespace Zeron.Harness.ModelIds

open Zeron.Doc (trim)

section Ids

def stripSuffix (id suffix : String) : Option String :=
  if suffix.toList <:+ id.toList then
    some (String.ofList (id.toList.take (id.toList.length - suffix.toList.length)))
  else none

def containsText (text part : String) : Bool := part.toList <:+: text.toList

/-- For matching across naming styles. -/
def normId (id : String) : String :=
  String.ofList ((id.toList.filter Char.isAlphanum).map Char.toLower)

def contextHint1m (id : String) : Bool := containsText id "[1m]" || (stripSuffix id "-1m").isSome

def stripContextHint (id : String) : Option String := stripSuffix id "[1m]" <|> stripSuffix id "-1m"

/-- What precedes the bracket of a Cursor variant; `base_id` is the same. -/
def stripVariantSuffix (id : String) : String := String.ofList (id.toList.takeWhile (· ≠ '['))

end Ids

section Families

/-- What stands between the first bracket and the last closing one. -/
def bracketed (id : List Char) : List Char :=
  let rest := (id.dropWhile (· ≠ '[')).tail
  if ']' ∈ rest then (rest.reverse.dropWhile (· ≠ ']')).tail.reverse else []

/-- `key=value` between the brackets. -/
def parseParam (part : List Char) : Option (String × String) :=
  let key := String.ofList (trim (part.takeWhile (· ≠ '=')))
  if '=' ∈ part ∧ key ≠ "" then
    some (key, String.ofList (trim (part.dropWhile (· ≠ '=')).tail))
  else none

/-- A later pair overrides an earlier one. -/
def parseParams (id : String) : List (String × String) :=
  ((bracketed id.toList).splitOn ',').reverse.filterMap fun part => parseParam (trim part)

def effortSuffixes : List (String × String) :=
  [("-low", "low"), ("-medium", "medium"), ("-high", "high"), ("-xhigh", "xhigh"), ("-max", "max")]

def familyKey (id : String) : String :=
  let base := stripVariantSuffix id
  (effortSuffixes.findSome? fun effort => stripSuffix base effort.1).getD base

/-- `effort_of` without a badge. -/
def effortOf (id : String) : Option String :=
  (["effort", "reasoning", "reasoning_effort"].findSome? fun key =>
      ((parseParams id).lookup key).map String.toLower) <|>
    effortSuffixes.findSome? fun effort =>
      (stripSuffix (stripVariantSuffix id) effort.1).map fun _ => effort.2

end Families

/-! ## Picks -/

section Picks

def preferred (wanted : String → Bool) (ids : List String) : Option String :=
  ids.find? wanted <|> ids.head?

variable (available : List String)

def siblings (requested : String) : List String :=
  available.filter fun id => familyKey id = familyKey requested

def isTopEffort (id : String) : Bool :=
  (effortOf id).any fun effort => effort = "high" || effort = "xhigh" || effort = "max"

def Several (requested : String) : Prop :=
  1 < ((siblings available requested).filterMap effortOf).dedup.length

instance (requested : String) : Decidable (Several available requested) :=
  inferInstanceAs (Decidable (_ < _))

def pickModelId (requested : String) (efforts : List String) : Option String :=
  if Several available requested then
    (efforts.findSome? fun effort =>
        (siblings available requested).find? fun id => effortOf id = some effort.toLower) <|>
      if requested ∈ available then some requested
      else preferred isTopEffort (siblings available requested)
  else none

def familyWords : List String := ["fable", "opus", "sonnet", "haiku", "gpt"]

/-- The advertised ids with the first family word that is in the id. -/
def relatives (requested : String) : List String :=
  match familyWords.find? (containsText (normId requested)) with
  | some family => available.filter fun id => containsText (normId id) family
  | none => []

def pickModelValue (requested : String) (context1m : Bool) : Option String :=
  (if context1m then [requested ++ "[1m]", requested ++ "-1m"].find? (· ∈ available) else none) <|>
    if requested ∈ available then some requested
    else preferred (contextHint1m · = context1m) (relatives available requested)

def resolveModel (model : String) (efforts : List String) (context1m : Bool) : Option String :=
  pickModelId available (stripVariantSuffix model) efforts <|>
    pickModelValue available (stripVariantSuffix model) context1m <|>
      pickModelValue available model context1m

end Picks

/-! ## Rows -/

section Rows

variable (available : List String)

def Long (id : String) : Prop := id ++ "[1m]" ∈ available ∨ id ++ "-1m" ∈ available

instance (id : String) : Decidable (Long available id) := inferInstanceAs (Decidable (_ ∨ _))

/-- A picker row is an advertised id without a hint, or what is left of one whose hint is the only
spelling. -/
def IsRow (row : String) : Prop :=
  (row ∈ available ∧ stripContextHint row = none) ∨ (row ∉ available ∧ Long available row)

/-- The advertised id is the row's: its 1M spelling where 1M is chosen and advertised or no other is. -/
def Runs (context1m : Bool) (row value : String) : Prop :=
  value ∈ available ∧
    if context1m = true ∧ Long available row ∨ row ∉ available then
      value = row ++ "[1m]" ∨ value = row ++ "-1m"
    else value = row

def Prefers (context1m : Bool) (row : String) (wanted : String → Bool) (ids : List String) : Prop :=
  ∃ value, preferred wanted ids = some value ∧ Runs available context1m row value

/-- The row's id, its 1M spelling or an id of its family word is the one that is found. -/
def Reaches (context1m : Bool) (row : String) : Prop :=
  row ∈ available ∨ context1m = true ∨
    Prefers available context1m row (contextHint1m · = context1m) (relatives available row)

/-- When a row is resolved to its own id. In a family that is advertised in several efforts the id
without its bracket decides; elsewhere an id without a bracket does well by itself, and what precedes
a bracket must name no other model. -/
def Resolves (context1m : Bool) (row : String) : Prop :=
  let bare := stripVariantSuffix row
  if Several available bare then
    if bare ∈ available then bare = row ∧ ¬(context1m = true ∧ Long available row)
    else Prefers available context1m row isTopEffort (siblings available bare)
  else if bare = row then Reaches available context1m row
  else bare ∉ available ∧ ¬(context1m = true ∧ Long available bare) ∧
    (Prefers available context1m row (contextHint1m · = context1m) (relatives available bare) ∨
      relatives available bare = [] ∧ Reaches available context1m row)

variable {available} {context1m : Bool} {row id base value : String}

theorem stripSuffix_eq_some {suffix : String} :
    stripSuffix id suffix = some base ↔ id = base ++ suffix := by
  unfold stripSuffix
  constructor
  · intro h
    split_ifs at h with hsuffix
    cases h
    apply String.toList_inj.mp
    rw [String.toList_append, String.toList_ofList]
    exact (List.suffix_iff_eq_append.mp hsuffix).symm
  · rintro rfl
    rw [if_pos (by rw [String.toList_append]; exact List.suffix_append _ _)]
    simp

theorem stripSuffix_append (base suffix : String) : stripSuffix (base ++ suffix) suffix = some base :=
  stripSuffix_eq_some.mpr rfl

theorem length_stripVariantSuffix_le (id : String) :
    (stripVariantSuffix id).length ≤ id.length := by
  unfold stripVariantSuffix
  rw [← String.length_toList, String.toList_ofList, ← String.length_toList]
  exact (List.takeWhile_sublist _).length_le

theorem append_hint_ne_append_hint (left right : String) : left ++ "[1m]" ≠ right ++ "-1m" := by
  intro h
  have hlast := congrArg (fun id : String => id.toList.getLast?) h
  simp [String.toList_append] at hlast

theorem length_lt_of_spelling (h : value = row ++ "[1m]" ∨ value = row ++ "-1m") :
    row.length < value.length := by
  obtain rfl | rfl := h
  · rw [String.length_append]
    exact Nat.lt_add_of_pos_right (by decide)
  · rw [String.length_append]
    exact Nat.lt_add_of_pos_right (by decide)

theorem ne_of_stripContextHint (h : stripContextHint row = none) :
    row ≠ base ++ "[1m]" ∧ row ≠ base ++ "-1m" := by
  unfold stripContextHint at h
  constructor
  · rintro rfl
    rw [stripSuffix_append] at h
    cases h
  · rintro rfl
    cases hbracket : stripSuffix (base ++ "-1m") "[1m]" with
    | some other =>
        rw [hbracket] at h
        cases h
    | none =>
        rw [hbracket, stripSuffix_append] at h
        cases h

theorem runs_self (h : row ∈ available) :
    Runs available context1m row row ↔ ¬(context1m = true ∧ Long available row) := by
  unfold Runs
  split_ifs with hlong
  · obtain hlong | hnot := hlong
    · refine iff_of_false ?_ fun hnot => hnot hlong
      rintro ⟨-, hspelling⟩
      exact Nat.lt_irrefl _ (length_lt_of_spelling hspelling)
    · exact absurd h hnot
  · exact iff_of_true ⟨h, rfl⟩ fun hboth => hlong (.inl hboth)

theorem spelling_of_strip (h : stripContextHint id = some base) :
    id = base ++ "[1m]" ∨ id = base ++ "-1m" := by
  unfold stripContextHint at h
  cases hbracket : stripSuffix id "[1m]" with
  | some other =>
      rw [hbracket] at h
      cases h
      exact .inl (stripSuffix_eq_some.mp hbracket)
  | none =>
      rw [hbracket] at h
      exact .inr (stripSuffix_eq_some.mp h)

theorem not_runs_bare (hne : stripVariantSuffix row ≠ row) :
    ¬ Runs available context1m row (stripVariantSuffix row) := by
  rintro ⟨-, hspelling⟩
  split_ifs at hspelling
  · have hlt := length_lt_of_spelling hspelling
    exact absurd (length_stripVariantSuffix_le row) (Nat.not_le.mpr hlt)
  · exact hne hspelling

theorem not_runs_bare_spelling (hrow : IsRow available row) (hne : stripVariantSuffix row ≠ row)
    (hvalue : value = stripVariantSuffix row ++ "[1m]" ∨ value = stripVariantSuffix row ++ "-1m") :
    ¬ Runs available context1m row value := by
  rintro ⟨hmem, hspelling⟩
  split_ifs at hspelling with hlong
  · obtain rfl | rfl := hvalue <;> obtain heq | heq := hspelling
    · exact hne (String.append_left_inj _ |>.mp heq)
    · exact append_hint_ne_append_hint _ _ heq
    · exact append_hint_ne_append_hint _ _ heq.symm
    · exact hne (String.append_left_inj _ |>.mp heq)
  · subst hspelling
    obtain ⟨-, hplain⟩ | ⟨hnot, -⟩ := hrow
    · obtain ⟨hbracket, hdash⟩ := @ne_of_stripContextHint value (stripVariantSuffix value) hplain
      exact hvalue.elim hbracket hdash
    · exact hnot hmem

theorem runs_composed (hchosen : context1m = true) (hmem : value ∈ available)
    (hvalue : value = row ++ "[1m]" ∨ value = row ++ "-1m") : Runs available context1m row value := by
  have hlong : Long available row := by
    obtain rfl | rfl := hvalue
    · exact .inl hmem
    · exact .inr hmem
  refine ⟨hmem, ?_⟩
  rw [if_pos (.inl ⟨hchosen, hlong⟩)]
  exact hvalue

/-- What a pick of an id finds. -/
theorem pickModelValue_cases (available : List String) (context1m : Bool) (id : String) :
    (∃ value, pickModelValue available id context1m = some value ∧ context1m = true ∧
        value ∈ available ∧ (value = id ++ "[1m]" ∨ value = id ++ "-1m")) ∨
      (¬(context1m = true ∧ Long available id) ∧ id ∈ available ∧
        pickModelValue available id context1m = some id) ∨
      (¬(context1m = true ∧ Long available id) ∧ id ∉ available ∧
        pickModelValue available id context1m =
          preferred (contextHint1m · = context1m) (relatives available id)) := by
  by_cases hlong : context1m = true ∧ Long available id
  · obtain ⟨hchosen, hlong⟩ := hlong
    left
    unfold pickModelValue
    rw [if_pos hchosen]
    by_cases hbracket : id ++ "[1m]" ∈ available
    · refine ⟨_, ?_, hchosen, hbracket, .inl rfl⟩
      rw [List.find?_cons_of_pos (by simpa using hbracket)]
      rfl
    · have hdash := hlong.resolve_left hbracket
      refine ⟨_, ?_, hchosen, hdash, .inr rfl⟩
      rw [List.find?_cons_of_neg (by simpa using hbracket), List.find?_cons_of_pos (by simpa using hdash)]
      rfl
  · right
    have hnone : (if context1m then [id ++ "[1m]", id ++ "-1m"].find? (· ∈ available) else none) =
        none := by
      split_ifs with hchosen
      · have hnot : ¬ Long available id := fun hyes => hlong ⟨hchosen, hyes⟩
        simpa [Long, not_or] using hnot
      · rfl
    have horElse : ∀ other : Option String, (none <|> other) = other := fun _ => rfl
    unfold pickModelValue
    rw [hnone, horElse]
    by_cases hmem : id ∈ available
    · exact .inl ⟨hlong, hmem, if_pos hmem⟩
    · exact .inr ⟨hlong, hmem, if_neg hmem⟩

theorem preferred_eq_none_iff {wanted : String → Bool} {ids : List String} :
    preferred wanted ids = none ↔ ids = [] := by
  cases ids with
  | nil => simp [preferred]
  | cons id ids =>
      refine iff_of_false ?_ (List.cons_ne_nil _ _)
      unfold preferred
      cases (id :: ids).find? wanted with
      | none | some found => exact nofun

theorem pickModelValue_runs_iff (hrow : IsRow available row) :
    (∃ value, pickModelValue available row context1m = some value ∧
      Runs available context1m row value) ↔ Reaches available context1m row := by
  obtain ⟨value, hpick, hchosen, hmem, hvalue⟩ | ⟨hnot, hmem, hpick⟩ | ⟨hnot, hmem, hpick⟩ :=
    pickModelValue_cases available context1m row
  · exact iff_of_true ⟨value, hpick, runs_composed hchosen hmem hvalue⟩ (.inr (.inl hchosen))
  · exact iff_of_true ⟨row, hpick, (runs_self hmem).mpr hnot⟩ (.inl hmem)
  · have hshort : context1m ≠ true := by
      intro hchosen
      obtain ⟨hadvertised, -⟩ | ⟨-, hlong⟩ := hrow
      · exact hmem hadvertised
      · exact hnot ⟨hchosen, hlong⟩
    rw [hpick]
    unfold Reaches
    rw [or_iff_right hmem, or_iff_right hshort]
    rfl

theorem siblings_ne_nil (h : Several available id) : siblings available id ≠ [] := by
  intro hnil
  unfold Several at h
  rw [hnil] at h
  exact absurd h (by decide)

theorem pickModelId_several (h : Several available id) : pickModelId available id [] =
    if id ∈ available then some id else preferred isTopEffort (siblings available id) := by
  unfold pickModelId
  rw [if_pos h]
  rfl

/-- **Resolution.** A row is resolved to its own id exactly then. -/
theorem resolveModel_runs_iff (hrow : IsRow available row) :
    (∃ value, resolveModel available row [] context1m = some value ∧
      Runs available context1m row value) ↔ Resolves available context1m row := by
  unfold resolveModel Resolves
  dsimp only
  by_cases hseveral : Several available (stripVariantSuffix row)
  · rw [if_pos hseveral, pickModelId_several hseveral]
    by_cases hbare : stripVariantSuffix row ∈ available
    · rw [if_pos hbare, if_pos hbare]
      by_cases heq : stripVariantSuffix row = row
      · rw [heq] at hbare ⊢
        constructor
        · rintro ⟨value, hvalue, hruns⟩
          cases hvalue
          exact ⟨rfl, (runs_self hbare).mp hruns⟩
        · exact fun h => ⟨row, rfl, (runs_self hbare).mpr h.2⟩
      · refine iff_of_false ?_ fun h => heq h.1
        rintro ⟨value, hvalue, hruns⟩
        cases hvalue
        exact not_runs_bare heq hruns
    · rw [if_neg hbare, if_neg hbare]
      cases hprefers : preferred isTopEffort (siblings available (stripVariantSuffix row)) with
      | none => exact absurd (preferred_eq_none_iff.mp hprefers) (siblings_ne_nil hseveral)
      | some value =>
          unfold Prefers
          rw [hprefers]
          rfl
  · have hnone : pickModelId available (stripVariantSuffix row) [] = none := if_neg hseveral
    rw [if_neg hseveral, hnone]
    by_cases heq : stripVariantSuffix row = row
    · rw [if_pos heq, heq, ← pickModelValue_runs_iff hrow]
      cases hpick : pickModelValue available row context1m with
      | none | some _ => rfl
    · rw [if_neg heq]
      obtain ⟨value, hpick, hchosen, hmem, hvalue⟩ | ⟨-, hmem, hpick⟩ | ⟨hnot, hmem, hpick⟩ :=
        pickModelValue_cases available context1m (stripVariantSuffix row)
      · rw [hpick]
        have hlong : Long available (stripVariantSuffix row) := by
          obtain rfl | rfl := hvalue
          · exact .inl hmem
          · exact .inr hmem
        refine iff_of_false ?_ fun h => h.2.1 ⟨hchosen, hlong⟩
        rintro ⟨found, hfound, hruns⟩
        cases hfound
        exact not_runs_bare_spelling hrow heq hvalue hruns
      · rw [hpick]
        refine iff_of_false ?_ fun h => h.1 hmem
        rintro ⟨found, hfound, hruns⟩
        cases hfound
        exact not_runs_bare heq hruns
      · rw [hpick, and_iff_right hmem, and_iff_right hnot, ← pickModelValue_runs_iff hrow]
        unfold Prefers
        cases hprefers : preferred (contextHint1m · = context1m)
            (relatives available (stripVariantSuffix row)) with
        | none =>
            have hnil := preferred_eq_none_iff.mp hprefers
            rw [and_iff_right hnil]
            simp
        | some value =>
            have hcons : relatives available (stripVariantSuffix row) ≠ [] := fun hnil => by
              rw [preferred_eq_none_iff.mpr hnil] at hprefers
              cases hprefers
            simp [hcons]

end Rows

end Zeron.Harness.ModelIds
