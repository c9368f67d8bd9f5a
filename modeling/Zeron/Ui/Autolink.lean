import Mathlib.Data.List.Chain
import Mathlib.Data.List.Forall2
import Zeron.Doc.Rebuild

/-!
# Bare URLs

`autolink_runs` of `crates/ui/src/markdown/parser.rs` and the `merge_runs` before it. Positions are
counted in characters. A scan that stops at a URL goes on behind it, and no rest of a text that it
goes on with begins with a letter that begins a URL: what is to the left of the rest makes no
difference, so the pieces of a text are found again in the pieces.
-/

namespace Zeron.Ui.Autolink

open Zeron.Doc (isWhitespace)

structure InlineStyle where
  bold : Bool
  italic : Bool
  code : Bool
  strikethrough : Bool
  link : Option (List Char)
  deriving DecidableEq

structure InlineRun where
  text : List Char
  style : InlineStyle
  deriving DecidableEq

def isScheme (text : List Char) : Bool :=
  "http://".toList.isPrefixOf text || "https://".toList.isPrefixOf text

def schemeLen (text : List Char) : Nat := if "https://".toList.isPrefixOf text then 8 else 7

def isDelimiter (c : Char) : Bool := isWhitespace c || ['<', '>', '"', '\'', '`'].contains c

def punctuation : List Char := ['.', ',', ';', ':', '!', '?', '*', '_', '~']

def trims (last : Char) (url : List Char) : Bool :=
  punctuation.contains last || last == ')' && decide (url.count '(' < url.count ')')

/-- The loop of `bare_url_len`, on the reversed text. -/
def trimReversed : List Char → List Char
  | [] => []
  | last :: front => if trims last (last :: front) then trimReversed front else last :: front

def bareUrl (text : List Char) : List Char :=
  (trimReversed (text.takeWhile fun c => !isDelimiter c).reverse).reverse

def bareUrlLen (text : List Char) : Nat := (bareUrl text).length

section Scan

variable (isAlphanumeric : Char → Bool)

/-- `prev` stands before the text; in the first `skip` characters nothing is looked for. -/
def findFrom (prev : Option Char) (skip : Nat) : List Char → Option Nat
  | [] => none
  | c :: text =>
      if skip = 0 ∧ "http".toList.isPrefixOf (c :: text) then
        if isScheme (c :: text) ∧ prev.all fun c => !isAlphanumeric c then some 0
        else (findFrom (some c) 3 text).map (· + 1)
      else (findFrom (some c) (skip - 1) text).map (· + 1)

def findUrlStart (text : List Char) : Option Nat := findFrom isAlphanumeric none 0 text

def push (text : List Char) (style : InlineStyle) : List InlineRun :=
  if text.isEmpty then [] else [{ text, style }]

def StartsUrl (before rest : List Char) : Prop :=
  isScheme rest = true ∧ ∀ c ∈ before.getLast?, isAlphanumeric c = false

/-- Where the first URL of a text begins, with `front` to its left. -/
def FirstStart (front text : List Char) : Option Nat → Prop
  | none => ∀ before rest, text = before ++ rest → ¬ StartsUrl isAlphanumeric (front ++ before) rest
  | some n => ∃ before rest, text = before ++ rest ∧ before.length = n ∧
      StartsUrl isAlphanumeric (front ++ before) rest ∧
      ∀ before' rest', text = before' ++ rest' → before'.length < n →
        ¬ StartsUrl isAlphanumeric (front ++ before') rest'

variable {isAlphanumeric}

theorem isScheme_http {text : List Char} (h : isScheme text = true) :
    "http".toList.isPrefixOf text = true := by
  rw [isScheme, Bool.or_eq_true, List.isPrefixOf_iff_prefix, List.isPrefixOf_iff_prefix] at h
  rw [List.isPrefixOf_iff_prefix]
  obtain h | h := h
  · exact List.IsPrefix.trans (by decide) h
  · exact List.IsPrefix.trans (by decide) h

theorem FirstStart.cons {front text : List Char} {c : Char} {found : Option Nat}
    (hhere : ¬ StartsUrl isAlphanumeric front (c :: text))
    (h : FirstStart isAlphanumeric (front ++ [c]) text found) :
    FirstStart isAlphanumeric front (c :: text) (found.map (· + 1)) := by
  have hsplit {before rest : List Char} (heq : c :: text = before ++ rest) :
      before = [] ∧ rest = c :: text ∨
        ∃ before', before = c :: before' ∧ text = before' ++ rest := by
    cases before with
    | nil => exact .inl ⟨rfl, heq.symm⟩
    | cons d before =>
        obtain ⟨rfl, htext⟩ := List.cons.inj heq
        exact .inr ⟨before, rfl, htext⟩
  cases found with
  | none =>
      intro before rest heq
      obtain ⟨rfl, rfl⟩ | ⟨before, rfl, htext⟩ := hsplit heq
      · simpa using hhere
      · rw [List.append_cons]
        exact h before rest htext
  | some n =>
      obtain ⟨before, rest, htext, hlength, hstarts, hfirst⟩ := h
      refine ⟨c :: before, rest, by rw [htext]; rfl, by simp [hlength], ?_, ?_⟩
      · rwa [List.append_cons]
      · intro before' rest' heq hlt
        obtain ⟨rfl, rfl⟩ | ⟨before', rfl, htext'⟩ := hsplit heq
        · simpa using hhere
        · rw [List.append_cons]
          exact hfirst before' rest' htext' (by simpa using hlt)

theorem findFrom_spec (front text : List Char) {skip : Nat}
    (hskip : ∀ before rest, text = before ++ rest → before.length < skip →
      "http".toList.isPrefixOf rest = false) :
    FirstStart isAlphanumeric front text (findFrom isAlphanumeric front.getLast? skip text) := by
  induction text generalizing front skip with
  | nil =>
      intro before rest heq hstarts
      obtain rfl := (List.append_eq_nil_iff.mp heq.symm).2
      exact absurd hstarts.1 (by decide)
  | cons c text ih =>
      have hlast : (front ++ [c]).getLast? = some c := List.getLast?_concat
      rw [findFrom]
      split_ifs with hhttp hscheme
      · refine ⟨[], c :: text, rfl, rfl, ⟨hscheme.1, ?_⟩, fun _ _ _ hlt => by omega⟩
        simpa [Option.all_eq_true] using hscheme.2
      · refine FirstStart.cons ?_ (hlast ▸ ih (front ++ [c]) ?_)
        · rintro ⟨hstart, hboundary⟩
          exact hscheme ⟨hstart, by simpa [Option.all_eq_true] using hboundary⟩
        · -- The word that was found holds no other one.
          obtain ⟨rest, hrest⟩ := List.isPrefixOf_iff_prefix.mp hhttp.2
          intro before rest' htext hlt
          have htail : text = 't' :: 't' :: 'p' :: rest := (List.cons.inj hrest).2.symm
          rw [htail] at htext
          match before, hlt, htext with
          | [], _, htext =>
              rw [← show _ = rest' from htext]
              rfl
          | [_], _, htext =>
              rw [← show _ = rest' from (List.cons.inj htext).2]
              rfl
          | [_, _], _, htext =>
              rw [← show _ = rest' from (List.cons.inj (List.cons.inj htext).2).2]
              rfl
      · refine FirstStart.cons ?_ (hlast ▸ ih (front ++ [c]) ?_)
        · rintro ⟨hstart, -⟩
          have hhttp' := isScheme_http hstart
          have hpos : 0 < skip := Nat.pos_of_ne_zero fun hzero => hhttp ⟨hzero, hhttp'⟩
          rw [hskip [] (c :: text) rfl hpos] at hhttp'
          cases hhttp'
        · intro before rest heq hlt
          exact hskip (c :: before) rest (by rw [heq]; rfl) (by simp; omega)

theorem findUrlStart_spec (text : List Char) :
    FirstStart isAlphanumeric [] text (findUrlStart isAlphanumeric text) :=
  findFrom_spec [] text fun _ _ _ hlt => absurd hlt (Nat.not_lt_zero _)

end Scan

section Trimming

def Shed (c : Char) : Prop := c ∈ punctuation ∨ c = ')'

theorem trimReversed_spec (text : List Char) :
    ∃ shed, text = shed ++ trimReversed text ∧ (∀ c ∈ shed, Shed c) ∧
      ∀ last ∈ (trimReversed text).head?, trims last (trimReversed text) = false := by
  fun_induction trimReversed text with
  | case1 => exact ⟨[], rfl, by simp, by simp⟩
  | case2 last front htrims ih =>
      obtain ⟨shed, hfront, hshed, hlast⟩ := ih
      refine ⟨last :: shed, by rw [List.cons_append, ← hfront], ?_, hlast⟩
      rw [List.forall_mem_cons]
      refine ⟨?_, hshed⟩
      rw [trims, Bool.or_eq_true, Bool.and_eq_true] at htrims
      obtain hmem | hparen := htrims
      · exact .inl (by simpa using hmem)
      · exact .inr (by simpa using hparen.1)
  | case3 last front htrims => exact ⟨[], rfl, by simp, by simpa using htrims⟩

theorem trims_reverse (last : Char) (url : List Char) :
    trims last url.reverse = trims last url := by
  rw [trims, trims, List.count_reverse, List.count_reverse]

theorem bareUrl_spec (text : List Char) :
    ∃ shed, text.takeWhile (fun c => !isDelimiter c) = bareUrl text ++ shed ∧
      (∀ c ∈ shed, Shed c) ∧
      ∀ last ∈ (bareUrl text).getLast?, trims last (bareUrl text) = false := by
  obtain ⟨shed, htext, hshed, hlast⟩ :=
    trimReversed_spec (text.takeWhile fun c => !isDelimiter c).reverse
  refine ⟨shed.reverse, ?_, fun c hc => hshed c (List.mem_reverse.mp hc), fun last hmem => ?_⟩
  · rw [bareUrl, ← List.reverse_append, ← htext, List.reverse_reverse]
  · rw [bareUrl, List.getLast?_reverse] at hmem
    rw [bareUrl, trims_reverse]
    exact hlast last hmem

theorem bareUrl_isPrefix (text : List Char) : bareUrl text <+: text := by
  obtain ⟨shed, htake, -⟩ := bareUrl_spec text
  have hwhile := List.takeWhile_prefix (fun c => !isDelimiter c) (l := text)
  rw [htake] at hwhile
  exact (List.prefix_append _ _).trans hwhile

theorem isScheme_cases {text : List Char} (h : isScheme text = true) :
    ∃ scheme rest, text = scheme ++ rest ∧ scheme.length = schemeLen text ∧
      (scheme = "http://".toList ∨ scheme = "https://".toList) := by
  unfold schemeLen
  rw [isScheme, Bool.or_eq_true] at h
  by_cases hsecure : "https://".toList.isPrefixOf text = true
  · obtain ⟨rest, rfl⟩ := List.isPrefixOf_iff_prefix.mp hsecure
    exact ⟨_, rest, rfl, by rw [if_pos hsecure]; rfl, .inr rfl⟩
  · obtain ⟨rest, rfl⟩ := List.isPrefixOf_iff_prefix.mp (h.resolve_right hsecure)
    exact ⟨_, rest, rfl, by rw [if_neg hsecure]; rfl, .inl rfl⟩

end Trimming

def pushTextAutolinked (isAlphanumeric : Char → Bool) (text : List Char) (style : InlineStyle) :
    List InlineRun :=
  match _hfind : findUrlStart isAlphanumeric text with
  | none => push text style
  | some start =>
      if bareUrlLen (text.drop start) ≤ schemeLen (text.drop start) then
        push (text.take (start + schemeLen (text.drop start))) style ++
          pushTextAutolinked isAlphanumeric
            ((text.drop start).drop (schemeLen (text.drop start))) style
      else
        push (text.take start) style ++
          push ((text.drop start).take (bareUrlLen (text.drop start)))
            { style with link := some ((text.drop start).take (bareUrlLen (text.drop start))) } ++
          pushTextAutolinked isAlphanumeric
            ((text.drop start).drop (bareUrlLen (text.drop start))) style
termination_by text.length
decreasing_by
  all_goals
    have hpos : 0 < text.length := List.length_pos_of_ne_nil (by rintro rfl; cases _hfind)
    have hscheme : 0 < schemeLen (text.drop start) := by
      unfold schemeLen
      split_ifs <;> simp
    simp only [List.length_drop]
    omega

def passes (style : InlineStyle) : Bool := style.link.isSome || style.code

def autolinkRuns (isAlphanumeric : Char → Bool) (runs : List InlineRun) : List InlineRun :=
  runs.flatMap fun run =>
    if passes run.style then [run] else pushTextAutolinked isAlphanumeric run.text run.style

/-- `last` is the run that the next one may still join. -/
def mergeFrom (last : InlineRun) : List InlineRun → List InlineRun
  | [] => [last]
  | run :: runs =>
      if last.style = run.style then mergeFrom { last with text := last.text ++ run.text } runs
      else last :: mergeFrom run runs

def mergeRuns : List InlineRun → List InlineRun
  | [] => []
  | run :: runs => mergeFrom run runs

section Pieces

variable {isAlphanumeric : Char → Bool} {before text url scheme tail : List Char}
  {style : InlineStyle} {runs : List InlineRun}

def First (isAlphanumeric : Char → Bool) (before rest : List Char) : Prop :=
  StartsUrl isAlphanumeric before rest ∧
    ∀ before' rest', before ++ rest = before' ++ rest' → before'.length < before.length →
      ¬ StartsUrl isAlphanumeric before' rest'

def NoStart (isAlphanumeric : Char → Bool) (text : List Char) : Prop :=
  ∀ before rest, text = before ++ rest → ¬ StartsUrl isAlphanumeric before rest

/-- The pieces of a text: what stands before a URL or up to a bare scheme, and URLs. -/
inductive Pieces (isAlphanumeric : Char → Bool) (style : InlineStyle) :
    List Char → List InlineRun → Prop
  | done {text : List Char} (h : NoStart isAlphanumeric text) :
      Pieces isAlphanumeric style text (push text style)
  | bare {before scheme tail : List Char} {runs : List InlineRun}
      (hfirst : First isAlphanumeric before (scheme ++ tail))
      (hscheme : scheme = "http://".toList ∨ scheme = "https://".toList)
      (hbare : bareUrlLen (scheme ++ tail) ≤ scheme.length)
      (htail : Pieces isAlphanumeric style tail runs) :
      Pieces isAlphanumeric style (before ++ (scheme ++ tail))
        (push (before ++ scheme) style ++ runs)
  | link {before url tail : List Char} {runs : List InlineRun}
      (hfirst : First isAlphanumeric before (url ++ tail)) (hurl : bareUrl (url ++ tail) = url)
      (hlength : schemeLen (url ++ tail) < url.length)
      (htail : Pieces isAlphanumeric style tail runs) :
      Pieces isAlphanumeric style (before ++ (url ++ tail))
        (push before style ++ { text := url, style := { style with link := some url } } :: runs)

theorem findUrlStart_none (h : NoStart isAlphanumeric text) :
    findUrlStart isAlphanumeric text = none := by
  have hspec := @findUrlStart_spec isAlphanumeric text
  cases hfind : findUrlStart isAlphanumeric text with
  | none => rfl
  | some n =>
      rw [hfind] at hspec
      obtain ⟨before, rest, htext, -, hstarts, -⟩ := hspec
      exact absurd hstarts (h before rest htext)

theorem findUrlStart_first (h : First isAlphanumeric before tail) :
    findUrlStart isAlphanumeric (before ++ tail) = some before.length := by
  have hspec := @findUrlStart_spec isAlphanumeric (before ++ tail)
  cases hfind : findUrlStart isAlphanumeric (before ++ tail) with
  | none =>
      rw [hfind] at hspec
      exact absurd h.1 (hspec before tail rfl)
  | some n =>
      rw [hfind] at hspec
      obtain ⟨before', rest', htext, rfl, hstarts, hfirst⟩ := hspec
      obtain hlt | heq | hgt := Nat.lt_trichotomy before'.length before.length
      · exact absurd hstarts (h.2 before' rest' htext hlt)
      · rw [heq]
      · exact absurd h.1 (hfirst before tail rfl hgt)

theorem schemeLen_eq (hscheme : scheme = "http://".toList ∨ scheme = "https://".toList)
    (tail : List Char) : schemeLen (scheme ++ tail) = scheme.length := by
  obtain rfl | rfl := hscheme
  · rfl
  · rfl

theorem pushTextAutolinked_eq (h : Pieces isAlphanumeric style text runs) :
    pushTextAutolinked isAlphanumeric text style = runs := by
  induction h with
  | done h =>
      rw [pushTextAutolinked]
      split
      · rfl
      · rename_i hfind
        rw [findUrlStart_none h] at hfind
        cases hfind
  | @bare before scheme tail runs hfirst hscheme hbare htail ih =>
      rw [pushTextAutolinked]
      split
      · rename_i hfind
        rw [findUrlStart_first hfirst] at hfind
        cases hfind
      · rename_i hfind
        rw [findUrlStart_first hfirst] at hfind
        cases hfind
        rw [List.drop_left, schemeLen_eq hscheme, if_pos hbare, List.drop_left, ih,
          List.take_length_add_append, List.take_left]
  | @link before url tail runs hfirst hurl hlength htail ih =>
      have hne : url ≠ [] := by
        rintro rfl
        exact absurd hlength (Nat.not_lt_zero _)
      have hlen : bareUrlLen (url ++ tail) = url.length := congrArg List.length hurl
      rw [pushTextAutolinked]
      split
      · rename_i hfind
        rw [findUrlStart_first hfirst] at hfind
        cases hfind
      · rename_i hfind
        rw [findUrlStart_first hfirst] at hfind
        cases hfind
        rw [List.drop_left, hlen, if_neg (Nat.not_le.mpr hlength), List.drop_left, List.take_left,
          List.take_left, ih, push.eq_1 url, if_neg (by simpa using hne), List.append_assoc]
        rfl

theorem exists_pieces (text : List Char) : ∃ runs, Pieces isAlphanumeric style text runs := by
  induction hlength : text.length using Nat.strong_induction_on generalizing text with
  | _ n ih =>
      subst hlength
      have hspec := @findUrlStart_spec isAlphanumeric text
      cases hfind : findUrlStart isAlphanumeric text with
      | none =>
          rw [hfind] at hspec
          exact ⟨_, .done fun before rest htext => hspec before rest htext⟩
      | some start =>
          rw [hfind] at hspec
          obtain ⟨before, rest, rfl, rfl, hstarts, hfirst⟩ := hspec
          have hfirst : First isAlphanumeric before rest := ⟨hstarts, hfirst⟩
          by_cases hbare : bareUrlLen rest ≤ schemeLen rest
          · obtain ⟨scheme, tail, rfl, hlen, hscheme⟩ := isScheme_cases hstarts.1
            obtain ⟨runs, hruns⟩ := ih tail.length (by
              obtain rfl | rfl := hscheme <;> simp <;> omega) tail rfl
            exact ⟨_, .bare hfirst hscheme (hlen ▸ hbare) hruns⟩
          · obtain ⟨tail, htail⟩ := bareUrl_isPrefix rest
            obtain ⟨runs, hruns⟩ := ih tail.length (by
              rw [← htail, List.length_append, List.length_append]
              unfold bareUrlLen at hbare
              omega) tail rfl
            rw [← htail] at hfirst hbare ⊢
            have hurl : bareUrl (bareUrl rest ++ tail) = bareUrl rest := by rw [htail]
            refine ⟨_, .link hfirst hurl ?_ hruns⟩
            rw [Nat.not_le, bareUrlLen, hurl] at hbare
            exact hbare

theorem pieces_pushTextAutolinked (text : List Char) :
    Pieces isAlphanumeric style text (pushTextAutolinked isAlphanumeric text style) := by
  obtain ⟨runs, hruns⟩ := @exists_pieces isAlphanumeric style text
  rwa [pushTextAutolinked_eq hruns]

end Pieces

section Scheme

variable {isAlphanumeric : Char → Bool} {before rest more scheme tail quiet text : List Char}

theorem StartsUrl.append (h : StartsUrl isAlphanumeric before rest) (more : List Char) :
    StartsUrl isAlphanumeric before (rest ++ more) := by
  refine ⟨?_, h.2⟩
  have hscheme := h.1
  rw [isScheme, Bool.or_eq_true, List.isPrefixOf_iff_prefix,
    List.isPrefixOf_iff_prefix] at hscheme ⊢
  exact hscheme.imp (·.trans (List.prefix_append _ _)) (·.trans (List.prefix_append _ _))

theorem StartsUrl.head (h : StartsUrl isAlphanumeric before rest) : rest.head? = some 'h' := by
  obtain ⟨scheme, tail, rfl, -, rfl | rfl⟩ := isScheme_cases h.1
  · rfl
  · rfl

theorem First.of_append (h : First isAlphanumeric before (rest ++ more))
    (hrest : StartsUrl isAlphanumeric before rest) : First isAlphanumeric before rest := by
  refine ⟨hrest, fun before' rest' heq hlt hstarts => ?_⟩
  refine h.2 before' (rest' ++ more) ?_ hlt (hstarts.append more)
  rw [← List.append_assoc, heq, List.append_assoc]

theorem First.noStart (h : First isAlphanumeric before rest) : NoStart isAlphanumeric before := by
  intro before' rest' heq hstarts
  have hlt : before'.length < before.length := by
    have hpos : 0 < rest'.length := List.length_pos_of_ne_nil (by
      rintro rfl
      exact absurd hstarts.1 (by decide))
    rw [heq, List.length_append]
    omega
  refine h.2 before' (rest' ++ rest) ?_ hlt (hstarts.append rest)
  rw [heq, List.append_assoc]

theorem Shed.ne_h {c : Char} (h : Shed c) : c ≠ 'h' := by
  rintro rfl
  unfold Shed punctuation at h
  simp at h

theorem head_ne_h {n : Nat} (hn : bareUrlLen text ≤ n)
    (hle : n ≤ (text.takeWhile fun c => !isDelimiter c).length) :
    (text.drop n).head? ≠ some 'h' := by
  obtain ⟨shed, htake, hshed, -⟩ := bareUrl_spec text
  have hsplit : text.drop n = shed.drop (n - bareUrlLen text) ++
      text.dropWhile fun c => !isDelimiter c := by
    rw [htake, List.length_append] at hle
    calc
      text.drop n = ((bareUrl text ++ shed) ++ text.dropWhile fun c => !isDelimiter c).drop n := by
        rw [← htake, List.takeWhile_append_dropWhile]
      _ = _ := by
        rw [List.append_assoc, List.drop_append, List.drop_eq_nil_of_le hn, List.nil_append,
          List.drop_append_of_le_length (by unfold bareUrlLen at *; omega)]
        rfl
  rw [hsplit]
  intro hhead
  cases hrest : shed.drop (n - bareUrlLen text) with
  | cons c rest =>
      rw [hrest] at hhead
      have hc : c ∈ shed := List.mem_of_mem_drop (hrest ▸ List.mem_cons_self)
      exact (hshed c hc).ne_h (Option.some.inj hhead)
  | nil =>
      rw [hrest, List.nil_append] at hhead
      have hdelimiter := List.head?_dropWhile_not (fun c => !isDelimiter c) text
      rw [hhead] at hdelimiter
      exact absurd hdelimiter (by decide)

theorem scheme_takeWhile (hscheme : scheme = "http://".toList ∨ scheme = "https://".toList)
    (tail : List Char) :
    scheme.length ≤ ((scheme ++ tail).takeWhile fun c => !isDelimiter c).length := by
  have hall : (scheme.all fun c => !isDelimiter c) = true := by
    obtain rfl | rfl := hscheme
    · decide
    · decide
  rw [List.takeWhile_append_of_pos (List.all_eq_true.mp hall), List.length_append]
  exact Nat.le_add_right _ _

theorem head_behind_scheme (hscheme : scheme = "http://".toList ∨ scheme = "https://".toList)
    (hbare : bareUrlLen (scheme ++ tail) ≤ scheme.length) : tail.head? ≠ some 'h' := by
  have hhead := head_ne_h hbare (scheme_takeWhile hscheme tail)
  rwa [List.drop_left] at hhead

theorem head_behind_url {url : List Char} (hurl : bareUrl (url ++ tail) = url) :
    tail.head? ≠ some 'h' := by
  obtain ⟨shed, htake, -⟩ := bareUrl_spec (url ++ tail)
  have hhead := @head_ne_h (url ++ tail) url.length (by rw [bareUrlLen, hurl])
    (by rw [htake, hurl, List.length_append]; exact Nat.le_add_right _ _)
  rwa [List.drop_left] at hhead

theorem bareUrlLen_cut {n : Nat} (h : bareUrlLen (text ++ more) ≤ n) (hn : n ≤ text.length)
    (hmore : more.head? = some 'h') : bareUrlLen text ≤ n := by
  obtain ⟨rest, rfl⟩ := List.head?_eq_some_iff.mp hmore
  by_cases hall : (text.takeWhile fun c => !isDelimiter c).length = text.length
  · obtain ⟨shed, htake, hshed, -⟩ := bareUrl_spec (text ++ 'h' :: rest)
    rw [List.takeWhile_append, if_pos hall] at htake
    have hle : (bareUrl (text ++ 'h' :: rest)).length ≤ text.length := h.trans hn
    obtain ⟨middle, htext, hrest⟩ | ⟨middle, hurl, hrest⟩ := List.append_eq_append_iff.mp htake
    · rw [htext, List.length_append] at hle
      obtain rfl : middle = [] := List.length_eq_zero_iff.mp (by omega)
      have hmem : 'h' ∈ shed := by
        rw [List.nil_append] at hrest
        rw [← hrest, List.takeWhile_cons_of_pos (by decide)]
        exact List.mem_cons_self
      exact absurd rfl (hshed 'h' hmem).ne_h
    · have hmem : 'h' ∈ shed := by
        rw [hrest, List.takeWhile_cons_of_pos (by decide)]
        exact List.mem_append_right _ List.mem_cons_self
      exact absurd rfl (hshed 'h' hmem).ne_h
  · have hurl : bareUrl (text ++ 'h' :: rest) = bareUrl text := by
      rw [bareUrl, bareUrl, List.takeWhile_append, if_neg hall]
    rwa [bareUrlLen, hurl] at h

end Scheme

section Links

variable {isAlphanumeric : Char → Bool} {before rest scheme tail text : List Char}
  {style : InlineStyle} {runs front back : List InlineRun} {piece : InlineRun}

/-- The run is the link of a URL that stands behind the text. -/
structure AddedLink (isAlphanumeric : Char → Bool) (style : InlineStyle) (before : List Char)
    (piece : InlineRun) : Prop where
  style_eq : piece.style = { style with link := some piece.text }
  starts : StartsUrl isAlphanumeric before piece.text
  sheds : ∀ last ∈ piece.text.getLast?, trims last piece.text = false

theorem AddedLink.behind {more : List Char} (h : AddedLink isAlphanumeric style before piece)
    (htail : tail = before ++ (piece.text ++ more)) (hhead : tail.head? ≠ some 'h')
    (front : List Char) : AddedLink isAlphanumeric style (front ++ before) piece := by
  refine ⟨h.style_eq, ⟨h.starts.1, ?_⟩, h.sheds⟩
  have hne : before ≠ [] := by
    rintro rfl
    apply hhead
    rw [htail, List.nil_append, List.head?_append, h.starts.head]
    rfl
  rw [List.getLast?_append_of_ne_nil _ hne]
  exact h.starts.2

theorem push_text (text : List Char) (style : InlineStyle) :
    (push text style).flatMap (·.text) = text := by
  unfold push
  split_ifs with hempty
  · simpa using hempty.symm
  · simp

theorem mem_push (h : piece ∈ push text style) :
    piece = { text, style } ∧ text ≠ [] := by
  unfold push at h
  split_ifs at h with hempty
  · cases h
  · exact ⟨List.mem_singleton.mp h, by simpa using hempty⟩

theorem StartsUrl.of_url {url : List Char} (h : StartsUrl isAlphanumeric before (url ++ tail))
    (hlength : schemeLen (url ++ tail) < url.length) : StartsUrl isAlphanumeric before url := by
  refine ⟨?_, h.2⟩
  obtain ⟨scheme, rest, htext, hlen, hscheme⟩ := isScheme_cases h.1
  have hprefix : scheme <+: url := by
    refine List.prefix_of_prefix_length_le ⟨rest, htext.symm⟩ (List.prefix_append _ _) ?_
    omega
  rw [isScheme, Bool.or_eq_true, List.isPrefixOf_iff_prefix, List.isPrefixOf_iff_prefix]
  obtain rfl | rfl := hscheme
  · exact .inl hprefix
  · exact .inr hprefix

namespace Pieces

theorem text_eq (h : Pieces isAlphanumeric style text runs) :
    runs.flatMap (·.text) = text := by
  induction h with
  | done h => exact push_text _ _
  | bare hfirst hscheme hbare htail ih => rw [List.flatMap_append, push_text, ih, List.append_assoc]
  | link hfirst hurl hlength htail ih => rw [List.flatMap_append, push_text, List.flatMap_cons, ih]

theorem text_ne_nil (h : Pieces isAlphanumeric style text runs) (hpiece : piece ∈ runs) :
    piece.text ≠ [] := by
  induction h with
  | done h =>
      obtain ⟨rfl, hne⟩ := mem_push hpiece
      exact hne
  | bare hfirst hscheme hbare htail ih =>
      obtain hmem | hmem := List.mem_append.mp hpiece
      · obtain ⟨rfl, hne⟩ := mem_push hmem
        exact hne
      · exact ih hmem
  | link hfirst hurl hlength htail ih =>
      obtain hmem | hmem := List.mem_append.mp hpiece
      · obtain ⟨rfl, hne⟩ := mem_push hmem
        exact hne
      · obtain rfl | hmem := List.mem_cons.mp hmem
        · rintro rfl
          exact absurd hlength (Nat.not_lt_zero _)
        · exact ih hmem

theorem eq_nil (h : Pieces isAlphanumeric style [] runs) : runs = [] := by
  cases hruns : runs with
  | nil => rfl
  | cons piece rest =>
      have htext := h.text_eq
      rw [hruns, List.flatMap_cons, List.append_eq_nil_iff] at htext
      exact absurd htext.1 (h.text_ne_nil (hruns ▸ List.mem_cons_self))

theorem stable (h : Pieces isAlphanumeric style text runs) (hpiece : piece ∈ runs) :
    piece.style.link.isSome = true ∨
      piece.style = style ∧ pushTextAutolinked isAlphanumeric piece.text style = [piece] := by
  have hquiet {before : List Char} (hstart : NoStart isAlphanumeric before)
      (hmem : piece ∈ push before style) :
      piece.style = style ∧ pushTextAutolinked isAlphanumeric piece.text style = [piece] := by
    obtain ⟨rfl, hne⟩ := mem_push hmem
    refine ⟨rfl, ?_⟩
    rw [pushTextAutolinked_eq (.done hstart), push, if_neg (by simpa using hne)]
  induction h with
  | done h => exact .inr (hquiet h hpiece)
  | @bare before scheme tail runs hfirst hscheme hbare htail ih =>
      obtain hmem | hmem := List.mem_append.mp hpiece
      · obtain ⟨rfl, hne⟩ := mem_push hmem
        refine .inr ⟨rfl, ?_⟩
        have hstarts : StartsUrl isAlphanumeric before scheme := by
          refine ⟨?_, hfirst.1.2⟩
          obtain rfl | rfl := hscheme
          · decide
          · decide
        have hpieces : Pieces isAlphanumeric style (before ++ (scheme ++ []))
            (push (before ++ scheme) style ++ push [] style) := by
          refine .bare ?_ hscheme ?_ (.done fun _ _ heq hstart => ?_)
          · rw [List.append_nil]
            exact hfirst.of_append hstarts
          · rw [List.append_nil]
            exact (bareUrl_isPrefix scheme).length_le
          · have hhead := hstart.head
            rw [(List.append_eq_nil_iff.mp heq.symm).2] at hhead
            cases hhead
        rw [List.append_nil] at hpieces
        rw [pushTextAutolinked_eq hpieces, push, if_neg (by simpa using hne)]
        rfl
      · exact ih hmem
  | link hfirst hurl hlength htail ih =>
      obtain hmem | hmem := List.mem_append.mp hpiece
      · exact .inr (hquiet hfirst.noStart hmem)
      · obtain rfl | hmem := List.mem_cons.mp hmem
        · exact .inl rfl
        · exact ih hmem

theorem added (h : Pieces isAlphanumeric style text runs) (hruns : runs = front ++ piece :: back)
    (hstyle : piece.style ≠ style) :
    AddedLink isAlphanumeric style (front.flatMap (·.text)) piece := by
  have hpush {before : List Char} {rest front : List InlineRun}
      (hsplit : push before style ++ rest = front ++ piece :: back) :
      ∃ front', front = push before style ++ front' ∧ rest = front' ++ piece :: back := by
    obtain ⟨front', hfront, hrest⟩ | ⟨middle, hbefore, hpiece⟩ :=
      List.append_eq_append_iff.mp hsplit
    · exact ⟨front', hfront, hrest⟩
    · cases middle with
      | nil => exact ⟨[], by simpa using hbefore.symm, hpiece.symm⟩
      | cons other middle =>
          rw [← (List.cons.inj hpiece).1] at hbefore
          have hmem : piece ∈ push before style := hbefore ▸ by simp
          exact absurd (congrArg InlineRun.style (mem_push hmem).1) hstyle
  induction h generalizing front with
  | @done text h =>
      have hmem : piece ∈ push text style := by
        rw [hruns]
        simp
      exact absurd (congrArg InlineRun.style (mem_push hmem).1) hstyle
  | @bare before scheme tail runs hfirst hscheme hbare htail ih =>
      obtain ⟨front', rfl, hrest⟩ := hpush hruns
      have htext := htail.text_eq
      rw [hrest, List.flatMap_append, List.flatMap_cons] at htext
      rw [List.flatMap_append]
      exact (ih hrest).behind htext.symm (head_behind_scheme hscheme hbare) _
  | @link before url tail runs hfirst hurl hlength htail ih =>
      obtain ⟨front', rfl, hrest⟩ := hpush hruns
      rw [List.flatMap_append, push_text]
      cases front' with
      | nil =>
          obtain ⟨rfl, -⟩ := List.cons.inj hrest
          rw [List.flatMap_nil, List.append_nil]
          refine ⟨rfl, hfirst.1.of_url hlength, ?_⟩
          obtain ⟨-, -, -, hsheds⟩ := bareUrl_spec (url ++ tail)
          rwa [hurl] at hsheds
      | cons other front' =>
          obtain ⟨rfl, hruns'⟩ := List.cons.inj hrest
          have hruns' : runs = front' ++ piece :: back := hruns'
          have htext := htail.text_eq
          rw [hruns', List.flatMap_append, List.flatMap_cons] at htext
          rw [List.flatMap_cons, ← List.append_assoc]
          exact (ih hruns').behind htext.symm (head_behind_url hurl) _

end Pieces

end Links

section Blocks

variable {isAlphanumeric : Char → Bool} {before scheme tail text : List Char}
  {style : InlineStyle} {runs : List InlineRun}

/-- No position of the text begins a link. -/
def NoLink (isAlphanumeric : Char → Bool) (text : List Char) : Prop :=
  ∀ before rest, text = before ++ rest → StartsUrl isAlphanumeric before rest →
    bareUrlLen rest ≤ schemeLen rest

theorem NoStart.noLink (h : NoStart isAlphanumeric text) : NoLink isAlphanumeric text :=
  fun before rest heq hstarts => absurd hstarts (h before rest heq)

/-- A bare scheme in front makes no link of a text without one. -/
theorem NoLink.behind_scheme (hbefore : ∀ before' rest', before ++ (scheme ++ tail) =
      before' ++ rest' → before'.length < before.length → ¬ StartsUrl isAlphanumeric before' rest')
    (hscheme : scheme = "http://".toList ∨ scheme = "https://".toList)
    (hbare : bareUrlLen (scheme ++ tail) ≤ scheme.length) (htail : NoLink isAlphanumeric tail) :
    NoLink isAlphanumeric (before ++ (scheme ++ tail)) := by
  intro before' rest' heq hstarts
  have hbehind {middle : List Char} (hmiddle : before' = before ++ middle)
      (hrest : scheme ++ tail = middle ++ rest') : bareUrlLen rest' ≤ schemeLen rest' := by
    obtain ⟨inner, rfl, htail'⟩ | ⟨inner, hinner, hrest'⟩ := List.append_eq_append_iff.mp hrest
    · -- Behind the scheme.
      cases inner with
      | nil =>
          apply absurd hstarts.head
          rw [← List.nil_append rest', ← htail']
          exact head_behind_scheme hscheme hbare
      | cons c inner =>
          apply htail (c :: inner) rest' htail'
          refine ⟨hstarts.1, ?_⟩
          have hlast := hstarts.2
          rwa [hmiddle, ← List.append_assoc, List.getLast?_append_of_ne_nil _ (by simp)] at hlast
    · cases middle with
      | nil =>
          obtain rfl : rest' = scheme ++ tail := by rw [hrest]; rfl
          rwa [schemeLen_eq hscheme]
      | cons c middle =>
          -- Inside the scheme: no letter there begins another one.
          have hhead := hstarts.head
          rw [hrest'] at hhead
          cases inner with
          | nil => exact absurd hhead (head_behind_scheme hscheme hbare)
          | cons d inner =>
              obtain rfl : d = 'h' := Option.some.inj hhead
              have hnot : 'h' ∉ scheme.tail := by
                obtain rfl | rfl := hscheme
                · decide
                · decide
              refine absurd ?_ hnot
              rw [hinner]
              exact List.mem_append_right _ List.mem_cons_self
  obtain ⟨middle, hmiddle, hrest⟩ | ⟨middle, hmiddle, hrest⟩ := List.append_eq_append_iff.mp heq
  · exact hbehind hmiddle hrest
  · cases middle with
    | nil => exact @hbehind [] (by simpa using hmiddle.symm) (by simpa using hrest.symm)
    | cons c middle =>
        refine absurd hstarts (hbefore before' rest' heq ?_)
        rw [hmiddle, List.length_append, List.length_cons]
        omega

namespace Pieces

theorem style_of_noLink (h : Pieces isAlphanumeric style text runs)
    (hquiet : NoLink isAlphanumeric text) : ∀ piece ∈ runs, piece.style = style := by
  induction h with
  | done h => exact fun piece hmem => congrArg InlineRun.style (mem_push hmem).1
  | @bare before scheme tail runs hfirst hscheme hbare htail ih =>
      rw [List.forall_mem_append]
      refine ⟨fun piece hmem => congrArg InlineRun.style (mem_push hmem).1, ih ?_⟩
      rintro before' rest' rfl hstarts
      apply hquiet (before ++ (scheme ++ before')) rest' (by simp)
      refine ⟨hstarts.1, ?_⟩
      have hne : before' ≠ [] := by
        rintro rfl
        exact head_behind_scheme hscheme hbare hstarts.head
      rw [← List.append_assoc, List.getLast?_append_of_ne_nil _ hne]
      exact hstarts.2
  | @link before url tail runs hfirst hurl hlength htail ih =>
      have hle := hquiet before (url ++ tail) rfl hfirst.1
      rw [bareUrlLen, hurl] at hle
      exact absurd hlength (Nat.not_lt.mpr hle)

/-- The text before the first link, if there is one, as the pieces that it is cut into. -/
theorem split_link (h : Pieces isAlphanumeric style text runs) :
    (NoLink isAlphanumeric text ∧ ∀ piece ∈ runs, piece.style = style) ∨
      ∃ quiet url rest texts runs', text = quiet ++ (url ++ rest) ∧ url.head? = some 'h' ∧
        NoLink isAlphanumeric quiet ∧ (∀ piece ∈ texts, piece.style = style) ∧
        texts.flatMap (·.text) = quiet ∧ Pieces isAlphanumeric style rest runs' ∧
        runs = texts ++ { text := url, style := { style with link := some url } } :: runs' := by
  have hpush {before : List Char} : ∀ piece ∈ push before style, piece.style = style :=
    fun piece hmem => congrArg InlineRun.style (mem_push hmem).1
  induction h with
  | done h => exact .inl ⟨h.noLink, hpush⟩
  | @bare before scheme tail runs hfirst hscheme hbare htail ih =>
      obtain ⟨hquiet, hstyle⟩ | ⟨quiet, url, rest, texts, runs', rfl, hhead, hquiet, hstyle, htexts,
        hrest, rfl⟩ := ih
      · refine .inl ⟨NoLink.behind_scheme hfirst.2 hscheme hbare hquiet, ?_⟩
        rw [List.forall_mem_append]
        exact ⟨hpush, hstyle⟩
      · refine .inr ⟨before ++ (scheme ++ quiet), url, rest, push (before ++ scheme) style ++ texts,
          runs', by simp, hhead, NoLink.behind_scheme ?_ hscheme ?_ hquiet, ?_, ?_, hrest, by simp⟩
        · intro before' rest' heq hlt hstarts
          refine hfirst.2 before' (rest' ++ (url ++ rest)) ?_ hlt (hstarts.append _)
          calc
            _ = before ++ (scheme ++ quiet) ++ (url ++ rest) := by simp
            _ = before' ++ (rest' ++ (url ++ rest)) := by rw [heq, List.append_assoc]
        · rw [← List.append_assoc] at hbare
          refine bareUrlLen_cut hbare ?_ ?_
          · rw [List.length_append]
            exact Nat.le_add_right _ _
          · rw [List.head?_append, hhead]
            rfl
        · rw [List.forall_mem_append]
          exact ⟨hpush, hstyle⟩
        · rw [List.flatMap_append, push_text, htexts, List.append_assoc]
  | @link before url tail runs hfirst hurl hlength htail ih =>
      refine .inr ⟨before, url, tail, push before style, runs, rfl, ?_, hfirst.noStart.noLink,
        hpush, push_text _ _, htail, rfl⟩
      exact (hfirst.1.of_url hlength).head

end Pieces

/-- The pieces of a run, all in its style. -/
structure Cut (run : InlineRun) (group : List InlineRun) : Prop where
  ne_nil : group ≠ []
  style_eq : ∀ piece ∈ group, piece.style = run.style
  text_eq : group.flatMap (·.text) = run.text

theorem cut_self (run : InlineRun) : Cut run [run] :=
  ⟨by simp, by simp, by simp⟩

/-- Runs of one style stand next to each other only where no URL is looked for in them. -/
def Apart (left right : InlineRun) : Prop := left.style = right.style → passes left.style = true

/-- The run is left as it is, or holds text without a link. -/
def Quiet (isAlphanumeric : Char → Bool) (run : InlineRun) : Prop :=
  passes run.style = true ∨ run.text ≠ [] ∧ NoLink isAlphanumeric run.text

/-- The pieces of a text, joined between its links. -/
theorem Pieces.exists_blocks (text : List Char) {runs : List InlineRun}
    (h : Pieces isAlphanumeric style text runs) (hne : text ≠ []) :
    ∃ blocks groups, List.Forall₂ Cut blocks groups ∧ groups.flatten = runs ∧
      blocks.IsChain Apart ∧ blocks ≠ [] ∧ ∀ block ∈ blocks, Quiet isAlphanumeric block ∧
        (passes block.style = true ∨ block.style = style) := by
  induction hlength : text.length using Nat.strong_induction_on generalizing text runs with
  | _ n ih =>
      subst hlength
      obtain ⟨hquiet, hall⟩ | ⟨quiet, url, rest, texts, runs', rfl, hhead, hquiet, hall, htexts,
        hrest, rfl⟩ := h.split_link
      · refine ⟨[{ text, style }], [runs], .cons ⟨?_, hall, h.text_eq⟩ .nil, by simp, .singleton _,
          by simp, ?_⟩
        · rintro rfl
          exact hne h.text_eq.symm
        · rw [List.forall_mem_singleton]
          exact ⟨.inr ⟨hne, hquiet⟩, .inr rfl⟩
      · -- The link and what follows it.
        let link : InlineRun := { text := url, style := { style with link := some url } }
        have hlink : passes link.style = true := rfl
        obtain ⟨blocks, groups, hcut, hflatten, hchain, hquiets⟩ : ∃ blocks groups,
            List.Forall₂ Cut blocks groups ∧ groups.flatten = runs' ∧ blocks.IsChain Apart ∧
              ∀ block ∈ blocks, Quiet isAlphanumeric block ∧
                (passes block.style = true ∨ block.style = style) := by
          by_cases hempty : rest = []
          · subst hempty
            exact ⟨[], [], .nil, hrest.eq_nil.symm, .nil, by simp⟩
          · obtain ⟨blocks, groups, hcut, hflatten, hchain, -, hquiets⟩ := ih rest.length (by
              obtain ⟨url', rfl⟩ := List.head?_eq_some_iff.mp hhead
              simp
              omega) rest hrest hempty rfl
            exact ⟨blocks, groups, hcut, hflatten, hchain, hquiets⟩
        have hchain' : (link :: blocks).IsChain Apart := by
          exact List.isChain_cons.mpr ⟨fun block _ _ => hlink, hchain⟩
        have hquiets' : ∀ block ∈ link :: blocks, Quiet isAlphanumeric block ∧
            (passes block.style = true ∨ block.style = style) := by
          rw [List.forall_mem_cons]
          exact ⟨⟨.inl hlink, .inl hlink⟩, hquiets⟩
        by_cases hempty : quiet = []
        · -- The text begins with the link.
          subst hempty
          obtain rfl : texts = [] := by
            cases texts with
            | nil => rfl
            | cons piece texts =>
                rw [List.flatMap_cons, List.append_eq_nil_iff] at htexts
                exact absurd htexts.1 (h.text_ne_nil (List.mem_append_left _ List.mem_cons_self))
          exact ⟨link :: blocks, [link] :: groups, .cons (cut_self link) hcut,
            by simp [hflatten, link], hchain', by simp, hquiets'⟩
        · refine ⟨{ text := quiet, style } :: link :: blocks, texts :: [link] :: groups,
            .cons ⟨?_, hall, htexts⟩ (.cons (cut_self link) hcut), by simp [hflatten, link], ?_,
            by simp, ?_⟩
          · rintro rfl
            exact hempty htexts.symm
          · refine List.isChain_cons_cons.mpr ⟨fun hsame => ?_, hchain'⟩
            rw [hsame]
            exact hlink
          · rw [List.forall_mem_cons]
            exact ⟨⟨.inr ⟨hempty, hquiet⟩, .inr rfl⟩, hquiets'⟩

/-- The blocks of a list of runs without an empty one or two neighbours of one style. -/
theorem exists_blocks (hne : ∀ run ∈ runs, run.text ≠ [])
    (hchain : runs.IsChain fun left right => left.style ≠ right.style) :
    ∃ blocks groups, List.Forall₂ Cut blocks groups ∧
      groups.flatten = autolinkRuns isAlphanumeric runs ∧ blocks.IsChain Apart ∧
      (∀ block ∈ blocks, Quiet isAlphanumeric block) ∧
      ∀ block ∈ blocks.head?, ∃ run ∈ runs.head?,
        passes block.style = true ∨ block.style = run.style := by
  induction runs with
  | nil => exact ⟨[], [], .nil, rfl, .nil, by simp, by simp⟩
  | cons run runs ih =>
      rw [List.forall_mem_cons] at hne
      rw [List.isChain_cons] at hchain
      obtain ⟨blocks, groups, hcut, hflatten, hapart, hquiet, hhead⟩ := ih hne.2 hchain.2
      obtain ⟨blocks', groups', hcut', hflatten', hapart', hne', hquiet'⟩ : ∃ blocks groups,
          List.Forall₂ Cut blocks groups ∧ groups.flatten = (if passes run.style = true then [run]
            else pushTextAutolinked isAlphanumeric run.text run.style) ∧
            blocks.IsChain Apart ∧ blocks ≠ [] ∧ ∀ block ∈ blocks, Quiet isAlphanumeric block ∧
              (passes block.style = true ∨ block.style = run.style) := by
        by_cases hpasses : passes run.style = true
        · rw [if_pos hpasses]
          refine ⟨[run], [[run]], .cons (cut_self run) .nil, by simp, .singleton _, by simp, ?_⟩
          rw [List.forall_mem_singleton]
          exact ⟨.inl hpasses, .inr rfl⟩
        · rw [if_neg hpasses]
          exact (pieces_pushTextAutolinked run.text).exists_blocks run.text hne.1
      refine ⟨blocks' ++ blocks, groups' ++ groups, List.rel_append hcut' hcut, ?_, ?_, ?_, ?_⟩
      · rw [List.flatten_append, hflatten, hflatten']
        rfl
      · rw [List.isChain_append]
        refine ⟨hapart', hapart, fun left hleft right hright hsame => ?_⟩
        by_contra hpasses
        have hstyle := (hquiet' left (List.mem_of_getLast? hleft)).2.resolve_left hpasses
        obtain ⟨next, hnext, hright'⟩ := hhead right hright
        rw [← hsame] at hright'
        exact hchain.1 next hnext (hstyle.symm.trans (hright'.resolve_left hpasses))
      · rw [List.forall_mem_append]
        exact ⟨fun block hblock => (hquiet' block hblock).1, hquiet⟩
      · intro block hblock
        rw [List.head?_append_of_ne_nil _ hne'] at hblock
        exact ⟨run, rfl, (hquiet' block (List.mem_of_head? hblock)).2⟩

end Blocks

section Merging

variable {last run : InlineRun} {runs blocks : List InlineRun} {groups : List (List InlineRun)}

theorem mergeFrom_same {group : List InlineRun} {text : List Char} {style : InlineStyle}
    (h : ∀ piece ∈ group, piece.style = style) (runs : List InlineRun) :
    mergeFrom { text, style } (group ++ runs) =
      mergeFrom { text := text ++ group.flatMap (·.text), style } runs := by
  induction group generalizing text with
  | nil => simp
  | cons piece group ih =>
      rw [List.forall_mem_cons] at h
      rw [List.cons_append, mergeFrom, if_pos h.1.symm, ih h.2]
      simp

theorem Cut.mergeFrom_eq {block piece : InlineRun} {group : List InlineRun}
    (h : Cut block (piece :: group)) (text : List Char) (runs : List InlineRun) :
    mergeFrom { text := text ++ piece.text, style := block.style } (group ++ runs) =
      mergeFrom { text := text ++ block.text, style := block.style } runs := by
  have htext := h.text_eq
  rw [List.flatMap_cons] at htext
  rw [mergeFrom_same (List.forall_mem_cons.mp h.style_eq).2, List.append_assoc, htext]

theorem Cut.head_style {block piece : InlineRun} {group : List InlineRun}
    (h : Cut block (piece :: group)) : piece.style = block.style :=
  h.style_eq piece List.mem_cons_self

theorem Cut.mergeFrom_head {block piece : InlineRun} {group : List InlineRun}
    (h : Cut block (piece :: group)) (runs : List InlineRun) :
    mergeFrom piece (group ++ runs) = mergeFrom block runs := by
  have heq := h.mergeFrom_eq [] runs
  rw [← h.head_style] at heq
  rw [List.nil_append, List.nil_append] at heq
  rw [heq, h.head_style]

theorem mergeFrom_cut (h : List.Forall₂ Cut blocks groups) (last : InlineRun) :
    mergeFrom last groups.flatten = mergeFrom last blocks := by
  induction h generalizing last with
  | nil => rfl
  | @cons block group blocks groups hcut hcuts ih =>
      obtain ⟨piece, group, rfl⟩ := List.exists_cons_of_ne_nil hcut.ne_nil
      rw [List.flatten_cons, List.cons_append, mergeFrom, mergeFrom, hcut.head_style]
      by_cases hsame : last.style = block.style
      · rw [if_pos hsame, if_pos hsame, hsame, hcut.mergeFrom_eq, ih]
      · rw [if_neg hsame, if_neg hsame, hcut.mergeFrom_head, ih]

theorem mergeRuns_cut (h : List.Forall₂ Cut blocks groups) :
    mergeRuns groups.flatten = mergeRuns blocks := by
  cases h with
  | nil => rfl
  | @cons block group blocks groups hcut hcuts =>
      obtain ⟨piece, group, rfl⟩ := List.exists_cons_of_ne_nil hcut.ne_nil
      rw [List.flatten_cons, List.cons_append, mergeRuns, mergeRuns, hcut.mergeFrom_head,
        mergeFrom_cut hcuts]

theorem mem_mergeFrom (h : (last :: runs).IsChain Apart) (hmem : run ∈ mergeFrom last runs)
    (hpasses : passes run.style = false) : run ∈ last :: runs := by
  induction runs generalizing last with
  | nil => exact hmem
  | cons next runs ih =>
      obtain ⟨hapart, hchain⟩ := List.isChain_cons_cons.mp h
      rw [mergeFrom] at hmem
      split_ifs at hmem with hsame
      · have hjoined : ({ last with text := last.text ++ next.text } :: runs).IsChain Apart := by
          rw [List.isChain_cons] at hchain ⊢
          refine ⟨fun other hother heq => hapart hsame, hchain.2⟩
        obtain rfl | hrest := List.mem_cons.mp (ih hjoined hmem)
        · rw [hapart hsame] at hpasses
          cases hpasses
        · exact List.mem_cons_of_mem _ (List.mem_cons_of_mem _ hrest)
      · obtain rfl | hrest := List.mem_cons.mp hmem
        · exact List.mem_cons_self
        · exact List.mem_cons_of_mem _ (ih hchain hrest)

theorem mem_mergeRuns (h : runs.IsChain Apart) (hmem : run ∈ mergeRuns runs)
    (hpasses : passes run.style = false) : run ∈ runs := by
  cases runs with
  | nil => exact hmem
  | cons first runs => exact mem_mergeFrom h hmem hpasses

theorem mergeFrom_head (last : InlineRun) (runs : List InlineRun) :
    ∃ text rest, mergeFrom last runs = { last with text } :: rest := by
  induction runs generalizing last with
  | nil => exact ⟨last.text, [], rfl⟩
  | cons next runs ih =>
      rw [mergeFrom]
      split_ifs with hsame
      · exact ih { last with text := last.text ++ next.text }
      · exact ⟨last.text, mergeFrom next runs, rfl⟩

theorem isChain_mergeFrom (last : InlineRun) (runs : List InlineRun) :
    (mergeFrom last runs).IsChain fun left right => left.style ≠ right.style := by
  induction runs generalizing last with
  | nil => exact .singleton _
  | cons next runs ih =>
      rw [mergeFrom]
      split_ifs with hsame
      · exact ih _
      · obtain ⟨text, rest, hhead⟩ := mergeFrom_head next runs
        have hrest := ih next
        rw [hhead] at hrest ⊢
        exact List.isChain_cons_cons.mpr ⟨hsame, hrest⟩

theorem isChain_mergeRuns (runs : List InlineRun) :
    (mergeRuns runs).IsChain fun left right => left.style ≠ right.style := by
  cases runs with
  | nil => exact .nil
  | cons run runs => exact isChain_mergeFrom run runs

theorem mergeFrom_eq_self
    (h : (last :: runs).IsChain fun left right => left.style ≠ right.style) :
    mergeFrom last runs = last :: runs := by
  induction runs generalizing last with
  | nil => rfl
  | cons next runs ih =>
      obtain ⟨hne, hchain⟩ := List.isChain_cons_cons.mp h
      rw [mergeFrom, if_neg hne, ih hchain]

theorem mergeRuns_eq_self (h : runs.IsChain fun left right => left.style ≠ right.style) :
    mergeRuns runs = runs := by
  cases runs with
  | nil => rfl
  | cons run runs => exact mergeFrom_eq_self h

end Merging

section Runs

variable {isAlphanumeric : Char → Bool} {runs : List InlineRun}

/-- What a run becomes: itself, or its text with links of bare URLs in it. -/
def Autolinked (isAlphanumeric : Char → Bool) (run : InlineRun) (group : List InlineRun) : Prop :=
  if passes run.style = true then group = [run]
  else group.flatMap (·.text) = run.text ∧ ∀ front piece back, group = front ++ piece :: back →
    piece.style = run.style ∨ AddedLink isAlphanumeric run.style (front.flatMap (·.text)) piece

theorem exists_autolinked (runs : List InlineRun) :
    ∃ groups, List.Forall₂ (Autolinked isAlphanumeric) runs groups ∧
      groups.flatten = autolinkRuns isAlphanumeric runs := by
  refine ⟨_, ?_, List.flatMap_def.symm⟩
  rw [List.forall₂_map_right_iff, List.forall₂_same]
  intro run _
  unfold Autolinked
  split_ifs with hpasses
  · rfl
  · have hpieces := @pieces_pushTextAutolinked isAlphanumeric run.style run.text
    refine ⟨hpieces.text_eq, fun front piece back hgroup => ?_⟩
    by_cases hstyle : piece.style = run.style
    · exact .inl hstyle
    · exact .inr (hpieces.added hgroup hstyle)

theorem autolinkRuns_text (runs : List InlineRun) :
    (autolinkRuns isAlphanumeric runs).flatMap (·.text) = runs.flatMap (·.text) := by
  unfold autolinkRuns
  rw [List.flatMap_assoc]
  congr 1
  funext run
  split_ifs
  · simp
  · exact (pieces_pushTextAutolinked run.text).text_eq

theorem autolinkRuns_autolinkRuns (runs : List InlineRun) :
    autolinkRuns isAlphanumeric (autolinkRuns isAlphanumeric runs) =
      autolinkRuns isAlphanumeric runs := by
  have hstable {group : List InlineRun} (h : ∀ piece ∈ group, (if passes piece.style = true then
      [piece] else pushTextAutolinked isAlphanumeric piece.text piece.style) = [piece]) :
      autolinkRuns isAlphanumeric group = group := by
    unfold autolinkRuns
    rw [List.flatMap_congr h]
    simp
  apply hstable
  intro piece hpiece
  obtain ⟨run, -, hpiece⟩ := List.mem_flatMap.mp hpiece
  split_ifs at hpiece with hpasses
  · rw [List.mem_singleton.mp hpiece, if_pos hpasses]
  · obtain hlink | ⟨hstyle, hpush⟩ := (pieces_pushTextAutolinked run.text).stable hpiece
    · rw [if_pos (by rw [passes, hlink]; rfl)]
    · rw [hstyle, if_neg hpasses, hpush]

theorem mergeRuns_autolinkRuns (hne : ∀ run ∈ runs, run.text ≠ [])
    (hchain : runs.IsChain fun left right => left.style ≠ right.style) :
    let merged := mergeRuns (autolinkRuns isAlphanumeric runs)
    mergeRuns (autolinkRuns isAlphanumeric merged) = merged := by
  intro merged
  obtain ⟨blocks, groups, hcut, hflatten, hapart, hquiet, -⟩ :=
    @exists_blocks isAlphanumeric runs hne hchain
  have hmerged : merged = mergeRuns blocks := by
    rw [← mergeRuns_cut hcut, hflatten]
  have hcuts : List.Forall₂ Cut merged (merged.map fun run => if passes run.style = true then [run]
      else pushTextAutolinked isAlphanumeric run.text run.style) := by
    rw [List.forall₂_map_right_iff, List.forall₂_same]
    intro run hrun
    split_ifs with hpasses
    · exact cut_self run
    · obtain ⟨hne, hlink⟩ := (hquiet run (mem_mergeRuns hapart (hmerged ▸ hrun)
        (by simpa using hpasses))).resolve_left hpasses
      have hpieces := @pieces_pushTextAutolinked isAlphanumeric run.style run.text
      refine ⟨?_, hpieces.style_of_noLink hlink, hpieces.text_eq⟩
      intro hnil
      have htext := hpieces.text_eq
      rw [hnil] at htext
      exact hne htext.symm
  calc
    mergeRuns (autolinkRuns isAlphanumeric merged) = mergeRuns merged := by
      rw [autolinkRuns, List.flatMap_def, mergeRuns_cut hcuts]
    _ = merged := mergeRuns_eq_self (isChain_mergeRuns _)

/-- **Autolinking.** It keeps the text, and of each run what is no link; the links that it adds are
bare URLs. It is idempotent, and on runs as `merge_runs` leaves them also up to merging. -/
theorem autolinkRuns_spec (isAlphanumeric : Char → Bool) (runs : List InlineRun) :
    (∃ groups, List.Forall₂ (Autolinked isAlphanumeric) runs groups ∧
      groups.flatten = autolinkRuns isAlphanumeric runs) ∧
    (autolinkRuns isAlphanumeric runs).flatMap (·.text) = runs.flatMap (·.text) ∧
    autolinkRuns isAlphanumeric (autolinkRuns isAlphanumeric runs) =
      autolinkRuns isAlphanumeric runs ∧
    ((∀ run ∈ runs, run.text ≠ []) →
      (runs.IsChain fun left right => left.style ≠ right.style) →
        mergeRuns (autolinkRuns isAlphanumeric (mergeRuns (autolinkRuns isAlphanumeric runs))) =
          mergeRuns (autolinkRuns isAlphanumeric runs)) :=
  ⟨exists_autolinked runs, autolinkRuns_text runs, autolinkRuns_autolinkRuns runs,
    mergeRuns_autolinkRuns⟩

def plain : InlineStyle :=
  { bold := false, italic := false, code := false, strikethrough := false, link := none }

theorem autolinkRuns_spec_sentence :
    let runs := [{ text := "(see http://x.dev/a_(b)).".toList, style := plain }]
    let merged := mergeRuns (autolinkRuns Char.isAlphanum runs)
    merged.map (·.text) = ["(see ".toList, "http://x.dev/a_(b)".toList, ").".toList] ∧
      mergeRuns (autolinkRuns Char.isAlphanum merged) = merged :=
  ⟨by decide +kernel, (autolinkRuns_spec Char.isAlphanum _).2.2.2 (by simp) (.singleton _)⟩

/-- Two runs of one style that make up a URL only once they are merged. -/
theorem merged_url_linked :
    ¬ ∀ runs, mergeRuns (autolinkRuns Char.isAlphanum
      (mergeRuns (autolinkRuns Char.isAlphanum runs))) =
        mergeRuns (autolinkRuns Char.isAlphanum runs) := by
  intro hall
  have h := hall
    [{ text := "http".toList, style := plain }, { text := "://x".toList, style := plain }]
  revert h
  decide +kernel

end Runs

end Zeron.Ui.Autolink
