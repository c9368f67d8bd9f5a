import Mathlib.Data.List.Flatten
import Zeron.Doc.Rebuild
import Zeron.Lib.TopK
import Zeron.Lib.Utf8

/-!
# File search

`fuzzy_score`, `compare_file_matches` and `search_files_blocking_with_cancel` of
`crates/engine/src/repos.rs`. Texts are lists of characters, positions in them are in bytes. The Unicode
tables behind `str::to_lowercase` are a parameter, as is what the file system says about a path.
-/

namespace Zeron.Engine.FileSearch

open Zeron.Doc (isWhitespace)
open Zeron.Lib.Utf8 (utf8Len encodeChar)
open Zeron.Lib.TopK (TotalOrder best push)

def maxResults : Nat := 8

def saturatingAdd (a b : Nat) : Nat := min (a + b) (2 ^ 64 - 1)

/-- `str::split_whitespace` -/
def splitWhitespace (text : List Char) : List (List Char) :=
  (text.splitOnP isWhitespace).filter (· ≠ [])

/-- Where a character is found, from byte `start` on, and what is behind it. -/
def find (needle : Char) : Nat → List Char → Option (Nat × List Char)
  | _, [] => none
  | start, c :: rest =>
      if c = needle then some (start, rest) else find needle (start + utf8Len [c]) rest

def scoreTerm : List Char → Nat → List Char → Option Nat → Nat → Option Nat
  | [], _, _, _, score => some score
  | needle :: term, start, candidate, previousEnd, score =>
      (find needle start candidate).bind fun (found, rest) =>
        let score := score + found
        let score := if previousEnd = some found then score - 2 else score
        let stop := found + utf8Len [needle]
        scoreTerm term stop rest (some stop) score

/-- The forms of the one letter whose lower case depends on where it stands. -/
def sigmas : List Char := ['Σ', 'σ', 'ς']

/-- What Unicode says of characters: the lower case of each on its own, whether it is cased, and whether
it is ignored where the case around a letter is looked at. -/
structure CaseTables where
  lower : Char → List Char
  cased : Char → Bool
  ignorable : Char → Bool
  lower_small : lower 'σ' = ['σ']
  lower_final : lower 'ς' = ['ς']
  lower_other : ∀ c, c ∉ sigmas → ∀ d ∈ lower c, d ∉ sigmas
  letter : cased 'a' = true ∧ ignorable 'a' = false
  hyphen : cased '-' = false ∧ ignorable '-' = false

namespace CaseTables

variable (tables : CaseTables)

def caseIgnorableThenCased (chars : List Char) : Bool :=
  (chars.dropWhile tables.ignorable).head?.any tables.cased

/-- `str::to_lowercase`: a capital sigma at the end of a word becomes a final one. What stands before the
text is given from its end. -/
def lowercaseFrom : List Char → List Char → List Char
  | _, [] => []
  | before, c :: rest =>
      (if c = 'Σ' then
        if tables.caseIgnorableThenCased before && !tables.caseIgnorableThenCased rest then ['ς']
        else ['σ']
      else tables.lower c) ++ lowercaseFrom (c :: before) rest

def toLowercase (text : List Char) : List Char := tables.lowercaseFrom [] text

/-- What remains of a character when case is ignored: all sigmas are one letter. -/
def fold (c : Char) : List Char := if c ∈ sigmas then ['σ'] else tables.lower c

def folded (text : List Char) : List Char := text.flatMap tables.fold

end CaseTables

structure FileSearchMatch where
  path : List Char
  isDir : Bool
deriving DecidableEq

structure RankedFileMatch where
  featured : Option Nat
  score : Nat
  path : List Char
  isDir : Bool
deriving DecidableEq

/-- `str::cmp`: the bytes decide. -/
def comparePaths (a b : List Char) : Ordering := compare (a.flatMap encodeChar) (b.flatMap encodeChar)

def compareFileMatches (query : List Char) (a b : RankedFileMatch) : Ordering :=
  let emptyQuery := Doc.trim query = []
  (compare a.featured.isNone b.featured.isNone).then <|
    (compare a.featured b.featured).then <|
    (compare a.score b.score).then <|
    (if emptyQuery then compare (a.path.splitOn '/').length (b.path.splitOn '/').length
      else .eq).then <|
    (if emptyQuery then compare a.isDir b.isDir else compare b.isDir a.isDir).then <|
    (compare (utf8Len a.path) (utf8Len b.path)).then <|
    comparePaths a.path b.path

/-- What the walk yields: the path below the root, empty for the root itself. -/
structure Entry where
  relative : List Char
  isDir : Bool
deriving DecidableEq

section Search

variable (toLowercase : List Char → List Char)

def fuzzyScore (query candidate : List Char) : Option Nat :=
  ((splitWhitespace query).map toLowercase).foldlM (fun total term =>
    (scoreTerm term 0 (toLowercase candidate) none 0).map (saturatingAdd total)) 0

def fileName (path : List Char) : List Char := (path.splitOn '/').getLastD []

/-- Skipped by the search: the root, and what git keeps. -/
def skipped (relative : List Char) : Bool :=
  relative = [] ∨ ".git/".toList.isPrefixOf relative ∨ relative = ".git".toList

/-- The rank of an entry that matches; `featured` lists the featured paths as they are resolved. -/
def rank (query : List Char) (featured : List (List Char)) (entry : Entry) :
    Option RankedFileMatch :=
  if skipped entry.relative then none
  else
    (fuzzyScore toLowercase query entry.relative).map fun pathScore =>
      { featured := featured.idxOf? entry.relative
        score := (fuzzyScore toLowercase query (fileName entry.relative)).getD
          (saturatingAdd pathScore 1000)
        path := entry.relative
        isDir := entry.isDir }

def ordered (query : List Char) (a b : RankedFileMatch) : Bool :=
  (compareFileMatches query a b).isLE

/-- The walk; `cancelled` is asked before each entry, and an entry that fails is skipped. -/
def walk (query : List Char) (featured : List (List Char)) :
    List (Bool × Option Entry) → List RankedFileMatch → Except String (List RankedFileMatch)
  | [], found => .ok found
  | (cancelled, entry) :: entries, found =>
      if cancelled then .error "file search cancelled"
      else
        match entry.bind (rank toLowercase query featured) with
        | none => walk query featured entries found
        | some ranked =>
            let found := found ++ [ranked]
            walk query featured entries
              (if maxResults < found.length then
                (found.mergeSort (ordered query)).take maxResults
              else found)

/-- `canonicalRoot` is the root as the file system resolves it, `resolve` the path below the root of
a path that exists there. -/
def searchFiles (canonicalRoot : Except String (List Char))
    (resolve : List Char → List Char → Option (List Char)) (query : List Char)
    (featuredPaths : List (List Char)) (entries : List (Bool × Option Entry)) :
    Except String (List FileSearchMatch) :=
  match canonicalRoot with
  | .error e => .error ("could not search workspace: " ++ e)
  | .ok root =>
      (walk toLowercase query (featuredPaths.filterMap (resolve root)) entries []).map fun found =>
        (found.mergeSort (ordered query)).map fun ranked =>
          { path := ranked.path, isDir := ranked.isDir }

end Search

/-! ### The greedy matcher finds a subsequence -/

theorem cons_sublist_iff_find (needle : Char) (term : List Char) (start : Nat)
    (candidate : List Char) :
    (needle :: term).Sublist candidate ↔
      ∃ found rest, find needle start candidate = some (found, rest) ∧ term.Sublist rest := by
  induction candidate generalizing start with
  | nil =>
      constructor
      · intro hsublist
        exact absurd (List.sublist_nil.mp hsublist) (List.cons_ne_nil _ _)
      · rintro ⟨found, rest, hfind, -⟩
        cases hfind
  | cons c candidate ih =>
      by_cases hc : c = needle
      · subst hc
        simp [find]
      · rw [find, if_neg hc, ← ih]
        exact ⟨List.Sublist.of_cons_of_ne (Ne.symm hc), fun h => h.cons c⟩

theorem isSome_scoreTerm (term : List Char) (start : Nat) (candidate : List Char)
    (previousEnd : Option Nat) (score : Nat) :
    (scoreTerm term start candidate previousEnd score).isSome ↔ term.Sublist candidate := by
  induction term generalizing start candidate previousEnd score with
  | nil => simp [scoreTerm]
  | cons needle term ih =>
      rw [cons_sublist_iff_find needle term start, scoreTerm]
      cases hfind : find needle start candidate with
      | none => simp
      | some place =>
          obtain ⟨found, rest⟩ := place
          rw [Option.bind_some, ih]
          simp

variable {toLowercase : List Char → List Char}

theorem isSome_foldlM_scores (terms : List (List Char)) (candidate : List Char) (total : Nat) :
    (terms.foldlM (fun total term =>
      (scoreTerm term 0 candidate none 0).map (saturatingAdd total)) total).isSome ↔
        ∀ term ∈ terms, term.Sublist candidate := by
  induction terms generalizing total with
  | nil => simp
  | cons term terms ih =>
      have hterm := isSome_scoreTerm term 0 candidate none 0
      rw [List.foldlM_cons, List.forall_mem_cons, ← hterm]
      cases hscore : scoreTerm term 0 candidate none 0 with
      | none => simp
      | some score =>
          rw [Option.map_some, Option.bind_eq_bind, Option.bind_some, ih]
          simp

theorem isSome_fuzzyScore (query candidate : List Char) :
    (fuzzyScore toLowercase query candidate).isSome ↔
      ∀ term ∈ splitWhitespace query, (toLowercase term).Sublist (toLowercase candidate) := by
  rw [fuzzyScore, isSome_foldlM_scores]
  exact List.forall_mem_map

theorem isSome_rank {entry : Entry} (hentry : skipped entry.relative = false) (query : List Char)
    (featured : List (List Char)) :
    (rank toLowercase query featured entry).isSome ↔
      ∀ term ∈ splitWhitespace query, (toLowercase term).Sublist (toLowercase entry.relative) := by
  rw [rank, hentry, if_neg Bool.false_ne_true, Option.isSome_map, isSome_fuzzyScore]

theorem rank_eq_some {query : List Char} {featured : List (List Char)} {entry : Entry}
    {ranked : RankedFileMatch} (h : rank toLowercase query featured entry = some ranked) :
    ranked.path = entry.relative ∧ ranked.isDir = entry.isDir := by
  rw [rank] at h
  split_ifs at h
  obtain ⟨score, -, rfl⟩ := Option.map_eq_some_iff.mp h
  exact ⟨rfl, rfl⟩

/-! ### The order is total -/

def comparison (query : List Char) : RankedFileMatch → RankedFileMatch → Ordering :=
  compareLex (compareOn (·.featured.isNone)) <|
    compareLex (compareOn (·.featured)) <|
    compareLex (compareOn (·.score)) <|
    compareLex (compareOn fun a => if Doc.trim query = [] then (a.path.splitOn '/').length else 0) <|
    compareLex (compareOn fun a => if Doc.trim query = [] then a.isDir else !a.isDir) <|
    compareLex (compareOn (utf8Len ·.path)) <|
    compareOn (·.path.flatMap encodeChar)

theorem compareFileMatches_eq (query : List Char) : compareFileMatches query = comparison query := by
  have hbool : ∀ a b : Bool, compare b a = compare (!a) (!b) := by decide
  funext a b
  by_cases hquery : Doc.trim query = []
  · simp [compareFileMatches, comparison, compareLex, compareOn, comparePaths, hquery]
  · simp [compareFileMatches, comparison, compareLex, compareOn, comparePaths, hquery, hbool a.isDir]

instance (query : List Char) : Std.TransCmp (comparison query) := by
  unfold comparison
  infer_instance

theorem totalOrder_ordered (query : List Char) : TotalOrder (ordered query) := by
  unfold ordered
  rw [compareFileMatches_eq]
  refine ⟨fun a b c => Std.TransCmp.isLE_trans, fun a b => ?_, fun a b hab hba => ?_⟩
  · rw [@Std.OrientedCmp.eq_swap _ (comparison query) _ b a]
    cases comparison query a b <;> rfl
  · have heq := Std.OrientedCmp.isLE_antisymm hab hba
    simp only [comparison, compareLex, compareOn, Ordering.then_eq_eq,
      Std.LawfulEqCmp.compare_eq_iff_eq] at heq
    obtain ⟨-, hfeatured, hscore, -, hdir, -, hpath⟩ := heq
    have hisDir : a.isDir = b.isDir := by
      split_ifs at hdir
      · exact hdir
      · exact Bool.not_inj hdir
    have hchars := congrArg Lib.Utf8.units hpath
    rw [← List.append_nil (a.path.flatMap _), ← List.append_nil (b.path.flatMap _),
      Lib.Utf8.units_encodeChars, Lib.Utf8.units_encodeChars, List.append_cancel_right_eq] at hchars
    have hpathEq : a.path = b.path := List.map_injective_iff.mpr (Option.some_injective _) hchars
    cases a
    cases b
    simp_all

/-! ### The walk -/

theorem walk_eq (query : List Char) (featured : List (List Char)) (visited : List (Option Entry))
    (found : List RankedFileMatch) :
    walk toLowercase query featured (visited.map (false, ·)) found =
      .ok ((visited.filterMap fun entry => entry.bind (rank toLowercase query featured)).foldl
        (push (ordered query) maxResults) found) := by
  induction visited generalizing found with
  | nil => rfl
  | cons entry visited ih =>
      rw [List.map_cons, walk, if_neg Bool.false_ne_true]
      cases hrank : entry.bind (rank toLowercase query featured) with
      | none =>
          rw [List.filterMap_cons, hrank]
          exact ih found
      | some ranked =>
          rw [List.filterMap_cons, hrank]
          exact ih _

theorem searchFiles_eq {resolve : List Char → List Char → Option (List Char)} (root query : List Char)
    (featuredPaths : List (List Char)) (visited : List (Option Entry)) :
    searchFiles toLowercase (.ok root) resolve query featuredPaths (visited.map (false, ·)) =
      .ok ((best (ordered query) maxResults (visited.filterMap fun entry =>
        entry.bind (rank toLowercase query (featuredPaths.filterMap (resolve root))))).map
          fun ranked => { path := ranked.path, isDir := ranked.isDir }) := by
  have htotal := totalOrder_ordered query
  rw [searchFiles, walk_eq, Except.map]
  generalize visited.filterMap _ = items
  have hbest := Lib.TopK.best_foldl_push htotal maxResults items []
  have hlength := @Lib.TopK.length_foldl_push _ (ordered query) maxResults items [] (Nat.zero_le _)
  rw [List.nil_append, best, List.take_of_length_le] at hbest
  · rw [hbest]
  · rw [List.length_mergeSort]
    exact hlength

/-! ### Sigmas -/

theorem mem_sigmas {c : Char} : c ∈ sigmas ↔ c = 'Σ' ∨ c = 'σ' ∨ c = 'ς' := by
  simp [sigmas]

theorem ne_capital {c : Char} (hc : c ∉ sigmas) : c ≠ 'Σ' := fun heq => hc (mem_sigmas.mpr (.inl heq))

namespace CaseTables

variable {tables : CaseTables} {term text : List Char}

/-- Characters that are no sigmas do not become any. -/
theorem notMem_lower {c d : Char} (hc : c ∉ sigmas) (hd : d ∈ sigmas) : d ∉ tables.lower c :=
  fun hlower => tables.lower_other c hc d hlower hd

theorem lower_sigma {c : Char} (hc : c ∈ sigmas) (hne : c ≠ 'Σ') : tables.lower c = [c] := by
  obtain rfl | rfl | rfl := mem_sigmas.mp hc
  · exact absurd rfl hne
  · exact tables.lower_small
  · exact tables.lower_final

/-- But for its sigmas, a text is lower-cased character by character. -/
theorem filter_lowercaseFrom (before text : List Char) :
    (tables.lowercaseFrom before text).filter (· ∉ sigmas) =
      (tables.folded text).filter (· ∉ sigmas) := by
  induction text generalizing before with
  | nil => rfl
  | cons c text ih =>
      rw [lowercaseFrom, folded, List.flatMap_cons, List.filter_append, List.filter_append, ih]
      congr 1
      by_cases hc : c ∈ sigmas
      · rw [fold, if_pos hc]
        split
        · split <;> rfl
        · rename_i hne
          rw [lower_sigma hc hne, List.filter_cons_of_neg (by simpa using hc)]
          rfl
      · rw [fold, if_neg hc, if_neg (ne_capital hc)]

theorem sublist_iff_of_sigmas (h : ∀ c ∈ term, c ∉ sigmas) :
    (tables.toLowercase term).Sublist (tables.toLowercase text) ↔
      (tables.folded term).Sublist (tables.folded text) := by
  have hfolded : ∀ d ∈ tables.folded term, d ∉ sigmas := by
    intro d hd
    obtain ⟨c, hc, hd⟩ := List.mem_flatMap.mp hd
    rw [fold, if_neg (h c hc)] at hd
    exact tables.lower_other c (h c hc) d hd
  have hterm (before : List Char) : tables.lowercaseFrom before term = tables.folded term := by
    clear hfolded
    induction term generalizing before with
    | nil => rfl
    | cons c term ih =>
        obtain ⟨hc, h⟩ := List.forall_mem_cons.mp h
        rw [lowercaseFrom, if_neg (ne_capital hc), ih h, folded, folded, List.flatMap_cons, fold, if_neg hc]
  have hfilter (other : List Char) : (tables.folded term).Sublist other ↔
      (tables.folded term).Sublist (other.filter (· ∉ sigmas)) := by
    refine ⟨fun hsublist => ?_, fun hsublist => hsublist.trans List.filter_sublist⟩
    rw [← List.filter_eq_self.mpr fun d hd => decide_eq_true (hfolded d hd)]
    exact hsublist.filter _
  rw [toLowercase, hterm, hfilter, toLowercase, filter_lowercaseFrom, ← hfilter]

/-- A sigma stays one. -/
theorem sigma_mem_lowercaseFrom {c : Char} (hc : c ∈ sigmas) {text : List Char} (h : c ∈ text)
    (before : List Char) :
    'σ' ∈ tables.lowercaseFrom before text ∨ 'ς' ∈ tables.lowercaseFrom before text := by
  induction text generalizing before with
  | nil => cases h
  | cons d text ih =>
      rw [lowercaseFrom, List.mem_append, List.mem_append]
      obtain rfl | h := List.mem_cons.mp h
      · split
        · split
          · exact .inr (.inl List.mem_cons_self)
          · exact .inl (.inl List.mem_cons_self)
        · rename_i hne
          rw [lower_sigma hc hne]
          obtain rfl | rfl | rfl := mem_sigmas.mp hc
          · exact absurd rfl hne
          · exact .inl (.inl List.mem_cons_self)
          · exact .inr (.inl List.mem_cons_self)
      · exact (ih h (d :: before)).imp .inr .inr

end CaseTables

/-- The text behind a first word, with `piece` for each sigma. -/
def spell (piece text : List Char) : List Char :=
  ('a' :: '-' :: text).flatMap fun c => if c ∈ sigmas then piece else [c]

namespace CaseTables

variable {tables : CaseTables} {text : List Char}

theorem folded_spell {term piece : List Char} (hterm : term.Sublist text)
    (hpiece : 'σ' ∈ tables.folded piece) :
    (tables.folded term).Sublist (tables.folded (spell piece text)) := by
  unfold spell folded
  rw [List.flatMap_assoc]
  refine (List.Sublist.flatMap_right term fun c _ => ?_).trans (((hterm.cons '-').cons 'a').flatMap _)
  rw [fold]
  split
  · exact List.singleton_sublist.mpr hpiece
  · rename_i hc
    simp [fold, hc]

/-- What a path is lower-cased to in which every sigma ends a word, or in which each is small. -/
theorem notMem_toLowercase_spell {piece : List Char} {sigma : Char}
    (h : piece = ['a', 'Σ', '-'] ∧ sigma = 'σ' ∨ piece = ['σ'] ∧ sigma = 'ς') :
    sigma ∉ tables.toLowercase (spell piece text) := by
  have hsigma : sigma ∈ sigmas := by
    obtain ⟨-, rfl⟩ | ⟨-, rfl⟩ := h <;> decide
  have hfrom (before text : List Char) :
      sigma ∉ tables.lowercaseFrom before (text.flatMap fun c => if c ∈ sigmas then piece else [c]) := by
    induction text generalizing before with
    | nil => exact List.not_mem_nil
    | cons c text ih =>
        rw [List.flatMap_cons]
        by_cases hc : c ∈ sigmas
        · rw [if_pos hc]
          obtain ⟨rfl, rfl⟩ | ⟨rfl, rfl⟩ := h
          · have ha : 'σ' ∉ tables.lower 'a' := notMem_lower (by decide) (by decide)
            have hhyphen : 'σ' ∉ tables.lower '-' := notMem_lower (by decide) (by decide)
            simp [lowercaseFrom, caseIgnorableThenCased, tables.letter, tables.hyphen, ih, ha, hhyphen]
          · simp [lowercaseFrom, tables.lower_small, ih]
        · simp [hc, lowercaseFrom, ne_capital hc, ih, notMem_lower hc hsigma]
  exact hfrom [] _

end CaseTables

theorem flatten_splitWhitespace (text : List Char) :
    (splitWhitespace text).flatten = text.filter (!isWhitespace ·) := by
  rw [splitWhitespace, List.flatten_filter_ne_nil]
  induction text with
  | nil => rfl
  | cons c text ih =>
      rw [List.splitOnP_cons_eq_if_modifyHead, List.filter_cons, ← ih]
      cases isWhitespace c with
      | true => rfl
      | false =>
          cases hpieces : text.splitOnP isWhitespace with
          | nil => exact absurd hpieces (List.splitOnP_ne_nil _ _)
          | cons first more => rfl

theorem mem_splitWhitespace {text : List Char} {c : Char} :
    (∃ term ∈ splitWhitespace text, c ∈ term) ↔ c ∈ text ∧ isWhitespace c = false := by
  rw [← List.mem_flatten, flatten_splitWhitespace, List.mem_filter, Bool.not_eq_true']

/-- Whether the terms of the query are subsequences of a path, both lower-cased by `lower`. -/
def Matches (lower : List Char → List Char) (query path : List Char) : Prop :=
  ∀ term ∈ splitWhitespace query, (lower term).Sublist (lower path)

/-- For a query with a sigma there is a path that matches only where case is ignored. -/
theorem exists_path (tables : CaseTables) {query : List Char} (h : ∃ c ∈ query, c ∈ sigmas) :
    ∃ path, skipped path = false ∧ Matches tables.folded query path ∧
      ¬Matches tables.toLowercase query path := by
  obtain ⟨c, hc, hsigma⟩ := h
  obtain ⟨term, hquery, hmem⟩ : ∃ term ∈ splitWhitespace query, c ∈ term := by
    refine mem_splitWhitespace.mpr ⟨hc, ?_⟩
    obtain rfl | rfl | rfl := mem_sigmas.mp hsigma <;> decide
  have hspell {piece : List Char} (hpiece : 'σ' ∈ tables.folded piece) {sigma : Char}
      (hterm : sigma ∈ tables.toLowercase term)
      (hpath : sigma ∉ tables.toLowercase (spell piece (splitWhitespace query).flatten)) :
      ∃ path, skipped path = false ∧ Matches tables.folded query path ∧
        ¬Matches tables.toLowercase query path := by
    refine ⟨spell piece (splitWhitespace query).flatten, by simp [spell, skipped, sigmas],
      fun other hother => CaseTables.folded_spell (List.sublist_flatten_of_mem hother) hpiece,
      fun hmatches => hpath ((hmatches term hquery).subset hterm)⟩
  obtain hsmall | hfinal := CaseTables.sigma_mem_lowercaseFrom hsigma hmem []
  · exact hspell (by simp [CaseTables.folded, CaseTables.fold, sigmas]) hsmall
      (CaseTables.notMem_toLowercase_spell (.inl ⟨rfl, rfl⟩))
  · exact hspell (by simp [CaseTables.folded, CaseTables.fold, sigmas]) hfinal
      (CaseTables.notMem_toLowercase_spell (.inr ⟨rfl, rfl⟩))

theorem searchFiles_sorted {resolve : List Char → List Char → Option (List Char)}
    {root query : List Char} {featuredPaths : List (List Char)} {workspace : List Entry}
    {visited : List (Option Entry)} (hvisited : visited.reduceOption.Perm workspace)
    {sorted : List RankedFileMatch}
    (hperm : sorted.Perm
      (workspace.filterMap (rank toLowercase query (featuredPaths.filterMap (resolve root)))))
    (hsorted : sorted.Pairwise (fun a b => compareFileMatches query a b ≠ .gt)) :
    searchFiles toLowercase (.ok root) resolve query featuredPaths (visited.map (false, ·)) =
      .ok ((sorted.take 8).map fun ranked => { path := ranked.path, isDir := ranked.isDir }) := by
  have hvisitedRanks : visited.filterMap (fun entry =>
      entry.bind (rank toLowercase query (featuredPaths.filterMap (resolve root)))) =
      visited.reduceOption.filterMap
        (rank toLowercase query (featuredPaths.filterMap (resolve root))) := by
    change _ = (visited.filterMap id).filterMap _
    rw [List.filterMap_filterMap]
    rfl
  have hle : sorted.Pairwise (ordered query · ·) := hsorted.imp fun h => Ordering.isLE_iff_ne_gt.mpr h
  rw [searchFiles_eq, hvisitedRanks, best,
    Lib.TopK.mergeSort_eq (totalOrder_ordered query)
      (hperm.trans (hvisited.filterMap _).symm) hle]
  rfl

/-- An entry matches when each term of the query is, ignoring case, a subsequence of its path, and
whatever the order of the walk the result is the first eight of all matching entries in the order of
`compareFileMatches`. -/
def GivesBest (tables : CaseTables) (resolve : List Char → List Char → Option (List Char))
    (root query : List Char) (featuredPaths : List (List Char)) (workspace : List Entry) : Prop :=
  (∀ entry ∈ workspace, skipped entry.relative = false →
    ((rank tables.toLowercase query (featuredPaths.filterMap (resolve root)) entry).isSome ↔
      Matches tables.folded query entry.relative) ∧
    ∀ ranked,
      rank tables.toLowercase query (featuredPaths.filterMap (resolve root)) entry = some ranked →
        ranked.path = entry.relative ∧ ranked.isDir = entry.isDir) ∧
  ∀ visited : List (Option Entry), visited.reduceOption.Perm workspace →
    ∀ sorted : List RankedFileMatch,
      sorted.Perm (workspace.filterMap
        (rank tables.toLowercase query (featuredPaths.filterMap (resolve root)))) →
      sorted.Pairwise (fun a b => compareFileMatches query a b ≠ .gt) →
      searchFiles tables.toLowercase (.ok root) resolve query featuredPaths
        (visited.map (false, ·)) =
        .ok ((sorted.take 8).map fun ranked => { path := ranked.path, isDir := ranked.isDir })

/-- The tables as far as the names below need them. -/
def greek : CaseTables where
  lower c :=
    if c = 'Σ' then ['σ'] else if c = 'Ο' then ['ο'] else if c = 'Δ' then ['δ']
    else if c = 'A' then ['a'] else [c]
  cased c := c.isAlpha ∨ c ∈ "ΟΔΣοδσς".toList
  ignorable c := c = '.'
  lower_small := rfl
  lower_final := rfl
  lower_other c hc := by
    split_ifs <;> simp_all [sigmas]
  letter := by decide
  hyphen := by decide

end Zeron.Engine.FileSearch
