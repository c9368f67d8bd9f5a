import Mathlib.Data.List.Sort
import Zeron.Doc.Rebuild
import Zeron.Lib.Machine
import Zeron.Lib.Utf8

/-!
# Mending half-streamed markdown

`close_hanging` of `crates/ui/src/markdown/mend.rs`: one scan of a block's text tracks emphasis
runs, code spans and brackets, and what is left open gets a synthetic closer. Positions are
character indices, so a slice of the text is a `take` or a `drop`. The classification of letters
and digits is a parameter.
-/

namespace Zeron.Ui.Mend

open Zeron.Doc (charLines isWhitespace trim trimEnd trimStart)
open Zeron.Lib (Machine)
open Zeron.Lib.Utf8 (utf8Len)

/-- `](` with the destination of a link whose target is still streaming, and `)`. -/
def pendingTarget : List Char := "](zeron:pending-link)".toList

/-- One unclosed delimiter run; `pos` is the index just past it. -/
structure OpenDelim where
  ch : Char
  len : Nat
  pos : Nat
deriving DecidableEq

/-- The variables of the scan. The stacks have their top in front. -/
structure Scan where
  delims : List OpenDelim := []
  brackets : List Nat := []
  code : Option (Nat × Nat) := none
  lastContent : Option Nat := none
  pendingUrl : Option Nat := none
  i : Nat := 0
deriving DecidableEq

/-- The length of the run of one character that begins at `i`. -/
def runLen (cs : List Char) (i : Nat) : Nat :=
  ((cs.drop i).takeWhile fun x => cs[i]? = some x).length

/-- The index of the parenthesis that closes a target, if the rest of the text has it. -/
def targetEnd : Nat → Nat → List Char → Option Nat
  | _, _, [] => none
  | depth, j, c :: rest =>
      if c = '(' then targetEnd (depth + 1) (j + 1) rest
      else if c = ')' then
        match depth with
        | 0 => some j
        | depth + 1 => targetEnd depth (j + 1) rest
      else targetEnd depth (j + 1) rest

/-- Closes against the innermost opener of the character, which may take part of the run only: what
is left of the run, and of the stack without the openers inside. -/
def closeRun (c : Char) (run : Nat) : List OpenDelim → Option (Nat × List OpenDelim)
  | [] => none
  | d :: delims =>
      if d.ch = c then
        let take := min run d.len
        some (run - take,
          if d.len - take = 0 then delims else { d with len := d.len - take } :: delims)
      else closeRun c run delims

section Runs

variable (isAlphanumeric : Char → Bool) (cs : List Char)

def prev (i : Nat) : Option Char := if i = 0 then none else cs[i - 1]?

/-- A run that never delimits: tildes beyond two, and within a word `_` and a single `*`. -/
def literalRun (c : Char) (run i : Nat) : Bool :=
  (c = '~' ∧ 2 < run) ∨
    ((prev cs i).any isAlphanumeric ∧ (cs[i + run]?).any isAlphanumeric ∧
      (c = '_' ∨ (c = '*' ∧ run = 1)))

def canClose (i : Nat) : Bool := (prev cs i).any fun c => !isWhitespace c

def canOpen (stop : Nat) : Bool := (cs[stop]?).any fun c => !isWhitespace c

/-- Matches or opens one delimiter run. A lone `~` never opens. -/
def delim (c : Char) (run : Nat) (s : Scan) : Scan :=
  let stop := s.i + run
  if literalRun isAlphanumeric cs c run s.i then { s with lastContent := some (stop - 1) }
  else
    let (rest, delims) :=
      if canClose cs s.i then (closeRun c run s.delims).getD (run, s.delims) else (run, s.delims)
    if rest = 0 then { s with delims }
    else if canOpen cs stop ∧ (c ≠ '~' ∨ rest = 2) then
      { s with delims := ⟨c, rest, stop⟩ :: delims }
    else { s with delims, lastContent := some (stop - 1) }

/-- At a `]`: it completes the innermost open bracket, with the target that follows it. A target
that runs off the end is noted, which ends the scan. -/
def closeBracket (s : Scan) : Scan :=
  match s.brackets with
  | [] => { s with lastContent := some s.i, i := s.i + 1 }
  | opening :: brackets =>
      let delims := s.delims.filter (·.pos < opening)
      if cs[s.i + 1]? = some '(' then
        match targetEnd 0 (s.i + 2) (cs.drop (s.i + 2)) with
        | none => { s with delims, brackets, pendingUrl := some s.i }
        | some j => { s with delims, brackets, lastContent := some j, i := j + 1 }
      else { s with delims, brackets, lastContent := some s.i, i := s.i + 1 }

def isDelim (c : Char) : Bool := c = '*' ∨ c = '_' ∨ c = '~'

def advance (s : Scan) : Scan :=
  match cs[s.i]? with
  | none => s
  | some c =>
      let run := runLen cs s.i
      if s.code = none ∧ c = '\\' then
        { s with
          lastContent := if s.i + 1 < cs.length then some (s.i + 1) else s.lastContent
          i := s.i + 2 }
      else if c = '`' then
        match s.code with
        | some (opening, _) =>
            if run = opening then { s with code := none, i := s.i + run }
            else { s with lastContent := some (s.i + run - 1), i := s.i + run }
        | none => { s with code := some (run, s.i + run), i := s.i + run }
      else if s.code ≠ none then { s with lastContent := some s.i, i := s.i + 1 }
      else if isDelim c then { delim isAlphanumeric cs c run s with i := s.i + run }
      else if c = '[' then { s with brackets := s.i :: s.brackets, i := s.i + 1 }
      else if c = ']' then closeBracket cs s
      else if isWhitespace c then { s with i := s.i + 1 }
      else { s with lastContent := some s.i, i := s.i + 1 }

/-- The scan stops at the end of the text and at a target that runs off it. -/
def scanner : Machine Scan Unit where
  init s := s = {}
  step s _ :=
    if s.pendingUrl = none ∧ s.i < cs.length then some (advance isAlphanumeric cs s) else none

def scanFrom : Nat → Scan → Scan
  | 0, s => s
  | fuel + 1, s =>
      match (scanner isAlphanumeric cs).step s () with
      | none => s
      | some s' => scanFrom fuel s'

/-- Each round but the last advances, so the rounds are one more than the characters at most. -/
def scan : Scan := scanFrom isAlphanumeric cs (cs.length + 1) {}

end Runs

/-! ### What one round does -/

theorem runLen_pos {cs : List Char} {i : Nat} (h : i < cs.length) : 0 < runLen cs i := by
  rw [runLen, List.drop_eq_getElem_cons h, List.takeWhile_cons_of_pos (by simp [h])]
  exact Nat.succ_pos _

theorem closeRun_eq_none {c : Char} {run : Nat} {delims : List OpenDelim} :
    closeRun c run delims = none ↔ ∀ d ∈ delims, d.ch ≠ c := by
  induction delims with
  | nil => simp [closeRun]
  | cons d delims ih =>
      rw [closeRun]
      split
      · simp [*]
      · simp [*]

theorem closeRun_eq_some {c : Char} {run rest : Nat} {delims delims' : List OpenDelim}
    (h : closeRun c run delims = some (rest, delims')) :
    ∃ inner d outer, delims = inner ++ d :: outer ∧ (∀ e ∈ inner, e.ch ≠ c) ∧ d.ch = c ∧
      rest = run - min run d.len ∧
      delims' = if d.len - min run d.len = 0 then outer
        else { d with len := d.len - min run d.len } :: outer := by
  induction delims with
  | nil => cases h
  | cons d delims ih =>
      rw [closeRun] at h
      split at h
      · rename_i hch
        obtain ⟨rfl, rfl⟩ := Prod.mk.inj (Option.some.inj h)
        exact ⟨[], d, delims, rfl, by simp, hch, rfl, rfl⟩
      · rename_i hch
        obtain ⟨inner, e, outer, rfl, hinner, hrest⟩ := ih h
        exact ⟨d :: inner, e, outer, rfl, by simpa [hch] using hinner, hrest⟩

section Rounds

variable {isAlphanumeric : Char → Bool} {cs : List Char} {s : Scan}

variable (isAlphanumeric cs) in
/-- The stack after a run was matched and before what is left of it opens. -/
def matched (c : Char) (run : Nat) (s : Scan) : List OpenDelim :=
  if literalRun isAlphanumeric cs c run s.i = false ∧ canClose cs s.i then
    ((closeRun c run s.delims).map (·.2)).getD s.delims
  else s.delims

variable (isAlphanumeric cs) in
theorem delim_delims (c : Char) (run : Nat) (s : Scan) :
    (delim isAlphanumeric cs c run s).delims = matched isAlphanumeric cs c run s ∨
      ∃ rest, 0 < rest ∧ (delim isAlphanumeric cs c run s).delims =
        ⟨c, rest, s.i + run⟩ :: matched isAlphanumeric cs c run s := by
  unfold delim matched
  dsimp only
  split
  · simp [*]
  · cases closeRun c run s.delims <;> split_ifs <;> simp_all [Nat.pos_iff_ne_zero]

theorem delim_frame (c : Char) (run : Nat) (s : Scan) :
    (delim isAlphanumeric cs c run s).brackets = s.brackets ∧
      (delim isAlphanumeric cs c run s).code = s.code ∧
      (delim isAlphanumeric cs c run s).pendingUrl = s.pendingUrl := by
  unfold delim
  dsimp only
  split_ifs <;> exact ⟨rfl, rfl, rfl⟩

variable (isAlphanumeric cs) in
/-- What a round does to the stacks. -/
inductive Round (s s' : Scan) : Prop
  | quiet (delims : s'.delims = s.delims) (brackets : s'.brackets = s.brackets) (lt : s.i < s'.i)
  | run (c : Char) (char : cs[s.i]? = some c) (isDelim : isDelim c) (plain : s.code = none)
      (delims : s'.delims = (delim isAlphanumeric cs c (runLen cs s.i) s).delims)
      (brackets : s'.brackets = s.brackets) (i : s'.i = s.i + runLen cs s.i)
  | opening (char : cs[s.i]? = some '[') (delims : s'.delims = s.delims)
      (brackets : s'.brackets = s.i :: s.brackets) (i : s'.i = s.i + 1)
  | closing (opening : Nat) (char : cs[s.i]? = some ']')
      (delims : s'.delims = s.delims.filter (·.pos < opening))
      (brackets : s.brackets = opening :: s'.brackets) (le : s.i ≤ s'.i)

theorem targetEnd_ge {depth j stop : Nat} {rest : List Char}
    (h : targetEnd depth j rest = some stop) : j ≤ stop := by
  fun_induction targetEnd depth j rest with
  | case1 => cases h
  | case2 depth j rest ih => exact Nat.le_of_succ_le (ih h)
  | case3 j rest => exact Nat.le_of_eq (Option.some.inj h)
  | case4 j rest _ depth ih | case5 depth j c rest _ _ ih => exact Nat.le_of_succ_le (ih h)

theorem closeBracket_round (char : cs[s.i]? = some ']') :
    Round isAlphanumeric cs s (closeBracket cs s) := by
  unfold closeBracket
  dsimp only
  split
  · exact .quiet rfl (by simp [*]) (Nat.lt_succ_self _)
  · rename_i opening brackets hbrackets
    split
    · split
      · exact .closing opening char rfl hbrackets (Nat.le_refl _)
      · rename_i j hj
        have hle := targetEnd_ge hj
        exact .closing opening char rfl hbrackets (by dsimp only; omega)
    · exact .closing opening char rfl hbrackets (Nat.le_succ _)

theorem advance_round (h : s.i < cs.length) :
    Round isAlphanumeric cs s (advance isAlphanumeric cs s) := by
  have hrun := runLen_pos h
  obtain ⟨c, hc⟩ : ∃ c, cs[s.i]? = some c := ⟨_, List.getElem?_eq_getElem h⟩
  unfold advance
  rw [hc]
  dsimp only
  split_ifs with hescape hlast htick hcode hdelim hopen hclose hspace
  · exact .quiet rfl rfl (by dsimp only; omega)
  · exact .quiet rfl rfl (by dsimp only; omega)
  · split
    · split_ifs
      · exact .quiet rfl rfl (by dsimp only; omega)
      · exact .quiet rfl rfl (by dsimp only; omega)
    · exact .quiet rfl rfl (by dsimp only; omega)
  · exact .quiet rfl rfl (Nat.lt_succ_self _)
  · exact .run c hc hdelim (by simpa using hcode) rfl (delim_frame c _ s).1 rfl
  · exact .opening (hopen ▸ hc) rfl rfl rfl
  · exact closeBracket_round (hclose ▸ hc)
  · exact .quiet rfl rfl (Nat.lt_succ_self _)
  · exact .quiet rfl rfl (Nat.lt_succ_self _)

/-! ### The stacks are ordered -/

/-- Open runs up to a position, the innermost in front. -/
structure StackTo (stop : Nat) (delims : List OpenDelim) : Prop where
  pairwise : delims.Pairwise (·.pos > ·.pos)
  le : ∀ d ∈ delims, d.pos ≤ stop
  len_pos : ∀ d ∈ delims, 0 < d.len

theorem StackTo.mono {stop stop' : Nat} {delims : List OpenDelim} (h : StackTo stop delims)
    (hle : stop ≤ stop') : StackTo stop' delims :=
  ⟨h.pairwise, fun d hd => Nat.le_trans (h.le d hd) hle, h.len_pos⟩

theorem StackTo.sublist {stop : Nat} {delims delims' : List OpenDelim} (h : StackTo stop delims)
    (hsub : delims'.Sublist delims) : StackTo stop delims' :=
  ⟨h.pairwise.sublist hsub, fun d hd => h.le d (hsub.subset hd),
    fun d hd => h.len_pos d (hsub.subset hd)⟩

theorem StackTo.shorten {stop len : Nat} {d : OpenDelim} {delims : List OpenDelim}
    (h : StackTo stop (d :: delims)) (hlen : 0 < len) :
    StackTo stop ({ d with len } :: delims) := by
  obtain ⟨hpairwise, hle, hpos⟩ := h
  rw [List.pairwise_cons] at hpairwise
  rw [List.forall_mem_cons] at hle hpos
  exact ⟨List.pairwise_cons.mpr hpairwise, List.forall_mem_cons.mpr hle,
    List.forall_mem_cons.mpr ⟨hlen, hpos.2⟩⟩

theorem StackTo.push {stop stop' : Nat} {d : OpenDelim} {delims : List OpenDelim}
    (h : StackTo stop delims) (hlt : stop < d.pos) (hle : d.pos ≤ stop') (hlen : 0 < d.len) :
    StackTo stop' (d :: delims) := by
  refine ⟨List.pairwise_cons.mpr ⟨fun e he => ?_, h.pairwise⟩,
    List.forall_mem_cons.mpr ⟨hle, fun e he => ?_⟩, List.forall_mem_cons.mpr ⟨hlen, h.len_pos⟩⟩
  · exact Nat.lt_of_le_of_lt (h.le e he) hlt
  · exact Nat.le_trans (h.le e he) (Nat.le_trans (Nat.le_of_lt hlt) hle)

variable (isAlphanumeric cs) in
theorem StackTo.matched {stop : Nat} (h : StackTo stop s.delims) (c : Char) (run : Nat) :
    StackTo stop (matched isAlphanumeric cs c run s) := by
  unfold Mend.matched
  split
  · cases hclose : closeRun c run s.delims with
    | none => exact h
    | some result =>
        obtain ⟨inner, d, outer, hdelims, _, _, _, hresult⟩ := closeRun_eq_some hclose
        have hstack : StackTo stop (d :: outer) :=
          h.sublist (hdelims ▸ List.sublist_append_right inner _)
        change StackTo stop result.2
        rw [hresult]
        split
        · exact hstack.sublist (List.sublist_cons_self d outer)
        · exact hstack.shorten (Nat.pos_of_ne_zero ‹_›)
  · exact h

theorem StackTo.delim {stop : Nat} (h : StackTo s.i s.delims) (c : Char) {run : Nat}
    (hrun : 0 < run) (hstop : s.i + run ≤ stop) :
    StackTo stop (delim isAlphanumeric cs c run s).delims := by
  have hmatched := h.matched isAlphanumeric cs c run
  obtain hdelims | ⟨rest, hrest, hdelims⟩ := delim_delims isAlphanumeric cs c run s
  · rw [hdelims]
    exact hmatched.mono (by omega)
  · rw [hdelims]
    exact hmatched.push (by dsimp only; omega) hstop hrest

structure Ordered (s : Scan) : Prop where
  delims : StackTo s.i s.delims
  brackets : s.brackets.Pairwise (· > ·)
  brackets_lt : ∀ opening ∈ s.brackets, opening < s.i

theorem Ordered.round {s' : Scan} (h : Ordered s) (hlt : s.i < cs.length)
    (hround : Round isAlphanumeric cs s s') : Ordered s' := by
  cases hround with
  | quiet hdelims hbrackets hi =>
      refine ⟨hdelims ▸ h.delims.mono (Nat.le_of_lt hi), hbrackets ▸ h.brackets, ?_⟩
      intro opening hopening
      exact Nat.lt_trans (h.brackets_lt opening (hbrackets ▸ hopening)) hi
  | run c _ _ _ hdelims hbrackets hi =>
      have hrun := runLen_pos hlt
      refine ⟨?_, hbrackets ▸ h.brackets, ?_⟩
      · rw [hdelims, hi]
        exact h.delims.delim c hrun (Nat.le_refl _)
      · intro opening hopening
        have := h.brackets_lt opening (hbrackets ▸ hopening)
        omega
  | opening _ hdelims hbrackets hi =>
      refine ⟨hdelims ▸ h.delims.mono (by omega), ?_, ?_⟩
      · rw [hbrackets]
        exact List.pairwise_cons.mpr ⟨h.brackets_lt, h.brackets⟩
      · intro opening hopening
        rw [hbrackets, List.mem_cons] at hopening
        obtain rfl | hopening := hopening
        · omega
        · have := h.brackets_lt opening hopening
          omega
  | closing opening _ hdelims hbrackets hi =>
      have hsub : s'.brackets.Sublist s.brackets := hbrackets ▸ List.sublist_cons_self opening _
      refine ⟨?_, h.brackets.sublist hsub, ?_⟩
      · rw [hdelims]
        exact (h.delims.sublist List.filter_sublist).mono hi
      · intro opening hopening
        exact Nat.lt_of_lt_of_le (h.brackets_lt opening (hsub.subset hopening)) hi

theorem step_eq_some {s' : Scan} {a : Unit}
    (h : (scanner isAlphanumeric cs).step s a = some s') :
    s.pendingUrl = none ∧ s.i < cs.length ∧ s' = advance isAlphanumeric cs s := by
  rw [scanner, Option.ite_none_right_eq_some] at h
  exact ⟨h.1.1, h.1.2, (Option.some.inj h.2).symm⟩

theorem step_round {s' : Scan} {a : Unit} (h : (scanner isAlphanumeric cs).step s a = some s') :
    s.i < cs.length ∧ Round isAlphanumeric cs s s' := by
  obtain ⟨_, hlt, rfl⟩ := step_eq_some h
  exact ⟨hlt, advance_round hlt⟩

theorem ordered_of_reachable (h : (scanner isAlphanumeric cs).Reachable s) : Ordered s := by
  refine h.invariant (I := Ordered) ?_ ?_
  · rintro s rfl
    exact ⟨⟨.nil, by simp, by simp⟩, .nil, by simp⟩
  · intro s a s' hordered _ hstep
    obtain ⟨hlt, hround⟩ := step_round hstep
    exact hordered.round hlt hround

end Rounds

/-! ### The repair -/

/-- The closers with the positions they close, in the order they are collected. -/
def pending (s : Scan) : List (Nat × List Char) :=
  (match s.code with
    | none => []
    | some (ticks, cpos) =>
        if s.lastContent.any (cpos ≤ ·) then [(cpos, List.replicate ticks '`')] else []) ++
  (s.delims.reverse.filter fun d => s.lastContent.any (d.pos ≤ ·)).map
    (fun d => (d.pos, List.replicate d.len d.ch)) ++
  (match s.brackets with
    | [] => []
    | opening :: _ =>
        if s.lastContent.any (opening < ·) then [(opening, pendingTarget)] else [])

/-- Innermost first. -/
def closers (s : Scan) : List Char :=
  ((pending s).insertionSort fun a b => b.1 ≤ a.1).flatMap (·.2)

/-- `str::rfind` of a newline. -/
def rfindNewline (text : List Char) : Option Nat :=
  let last := text.rtakeWhile (· ≠ '\n')
  if last.length < text.length then some (text.length - last.length - 1) else none

def isUnderline (c : Char) (trimmed : List Char) : Bool :=
  trimmed ≠ [] ∧ utf8Len trimmed ≤ 2 ∧ trimmed.all (· = c)

/-- The last line is one or two `-` or `=` under a line that is not blank. -/
def setextPartial (text : List Char) : Bool :=
  match rfindNewline text with
  | none => false
  | some nl =>
      let trimmed := trimStart (text.drop (nl + 1))
      (isUnderline '-' trimmed ∨ isUnderline '=' trimmed) ∧
        ((charLines [] (text.take nl)).getLast?).any fun line => trim line ≠ []

def zeroWidthSpace : Char := '\u200B'

def closeHanging (isAlphanumeric : Char → Bool) (text : List Char) : Option (List Char) :=
  let s := scan isAlphanumeric text
  match s.pendingUrl with
  | some close => some (text.take close ++ pendingTarget)
  | none =>
      let closers := closers s
      if setextPartial text then
        match rfindNewline text with
        | some nl =>
            if closers = [] then some (text ++ [zeroWidthSpace])
            else some (text.take nl ++ closers ++ text.drop nl ++ [zeroWidthSpace])
        | none => some (text ++ [zeroWidthSpace])
      else if closers = [] then none
      else
        let stop := (trimEnd text).length
        some (text.take stop ++ closers ++ text.drop stop)

example : (closeHanging Char.isAlphanum "_a **b".toList) = some "_a **b**_".toList := by
  decide +kernel

end Zeron.Ui.Mend
