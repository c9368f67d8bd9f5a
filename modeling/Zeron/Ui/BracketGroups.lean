import Zeron.Ui.Mend

/-!
# Bracket groups and the emphasis around them

A completed `[label]` or `[label](target)` is to leave the emphasis open that was open before it and
to drop what was opened in its label.
-/

namespace Zeron.Ui.Mend

open Zeron.Lib (Machine)
open Zeron.Lib.Machine (anyStep Steps)

section Groups

variable (isAlphanumeric : Char → Bool) (cs : List Char)

/-- The open run that the delimiter run at the scan's position may close: the innermost of its
character. -/
def closes (s : Scan) : Option OpenDelim :=
  match cs[s.i]? with
  | none => none
  | some c =>
      if s.code = none ∧ isDelim c ∧
          literalRun isAlphanumeric cs c (runLen cs s.i) s.i = false ∧ canClose cs s.i then
        s.delims.find? (·.ch = c)
      else none

/-- A round that closes nothing before the bracket at `opening`. -/
def keepsInside (opening : Nat) (s : Scan) (_ : Unit) : Prop :=
  ∀ d ∈ closes isAlphanumeric cs s, opening < d.pos

/-- A bracket outside of code that a bracket outside of code matches, with its target if it has
one: the states of the scan before it, at its closing bracket and after it. -/
structure Group (before close after : Scan) : Prop where
  reachable : (scanner isAlphanumeric cs).Reachable before
  opens : cs[before.i]? = some '['
  plain : before.code = none
  label : (scanner isAlphanumeric cs).Steps anyStep before close
  closes : cs[close.i]? = some ']'
  outside : close.code = none
  matched : close.brackets.head? = some before.i
  step : (scanner isAlphanumeric cs).step close () = some after
  completed : after.pendingUrl = none

end Groups

/-- What was open before the group is open after it, and nothing that was opened in it. -/
def KeepsEmphasis (before after : Scan) : Prop :=
  (∀ d ∈ before.delims, d ∈ after.delims) ∧ ∀ d ∈ after.delims, d.pos ≤ before.i

def outer (opening : Nat) (delims : List OpenDelim) : List OpenDelim :=
  delims.filter (·.pos ≤ opening)

/-- The open run is gone, at least in part. -/
def Lost (d : OpenDelim) (s : Scan) : Prop := ∀ e ∈ s.delims, e.pos = d.pos → e.len < d.len

variable {isAlphanumeric : Char → Bool} {cs : List Char} {s s' before close after : Scan}
  {opening : Nat}

theorem outer_of_le {delims : List OpenDelim} (h : StackTo opening delims) :
    outer opening delims = delims :=
  List.filter_eq_self.mpr fun d hd => by simpa using h.le d hd

variable {d : OpenDelim} {c : Char}

theorem outer_cons_of_lt (h : opening < d.pos) (delims : List OpenDelim) :
    outer opening (d :: delims) = outer opening delims :=
  List.filter_cons_of_neg (by simpa using h)

theorem outer_append_of_lt {inner : List OpenDelim} {delims : List OpenDelim}
    (hpairwise : (inner ++ d :: delims).Pairwise (·.pos > ·.pos)) (h : opening < d.pos) :
    outer opening (inner ++ d :: delims) = outer opening delims := by
  induction inner with
  | nil => exact outer_cons_of_lt h delims
  | cons e inner ih =>
      rw [List.cons_append, List.pairwise_cons] at hpairwise
      have he : e.pos > d.pos := hpairwise.1 d (by simp)
      rw [List.cons_append, outer_cons_of_lt (by omega), ih hpairwise.2]

theorem closes_eq (hc : cs[s.i]? = some c) (hdelim : isDelim c) (hplain : s.code = none) :
    closes isAlphanumeric cs s =
      if literalRun isAlphanumeric cs c (runLen cs s.i) s.i = false ∧ canClose cs s.i then
        s.delims.find? (·.ch = c)
      else none := by
  unfold closes
  simp [hc, hdelim, hplain]

theorem isDelim_of_closes (hc : cs[s.i]? = some c) (h : closes isAlphanumeric cs s = some d) :
    isDelim c ∧ s.code = none := by
  unfold closes at h
  rw [hc] at h
  dsimp only at h
  rw [Option.ite_none_right_eq_some] at h
  exact ⟨h.1.2.1, h.1.1⟩

theorem matched_cases (hordered : Ordered s) (hc : cs[s.i]? = some c) (hdelim : isDelim c)
    (hplain : s.code = none) :
    (closes isAlphanumeric cs s = none ∧
        matched isAlphanumeric cs c (runLen cs s.i) s = s.delims) ∨
      ∃ inner d delims, closes isAlphanumeric cs s = some d ∧ s.delims = inner ++ d :: delims ∧
        (matched isAlphanumeric cs c (runLen cs s.i) s = delims ∨
          ∃ len < d.len, matched isAlphanumeric cs c (runLen cs s.i) s =
            { d with len } :: delims) := by
  have hrun : 0 < runLen cs s.i := runLen_pos (List.getElem?_eq_some_iff.mp hc).1
  rw [closes_eq hc hdelim hplain]
  unfold matched
  split
  · cases hclose : closeRun c (runLen cs s.i) s.delims with
    | none =>
        refine .inl ⟨List.find?_eq_none.mpr ?_, rfl⟩
        simpa using closeRun_eq_none.mp hclose
    | some result =>
        obtain ⟨inner, d, delims, hdelims, hinner, hch, _, hresult⟩ := closeRun_eq_some hclose
        have hlen : 0 < d.len := hordered.delims.len_pos d (by simp [hdelims])
        refine .inr ⟨inner, d, delims, ?_, hdelims, ?_⟩
        · rw [hdelims, List.find?_append, List.find?_eq_none.mpr (by simpa using hinner)]
          simp [hch]
        · change result.2 = delims ∨ ∃ len < d.len, result.2 = { d with len } :: delims
          rw [hresult]
          split
          · exact .inl rfl
          · exact .inr ⟨_, by omega, rfl⟩
  · exact .inl ⟨rfl, rfl⟩

theorem delims_of_run (hlt : s.i < cs.length) (hle : opening ≤ s.i)
    (hdelims : s'.delims = (delim isAlphanumeric cs c (runLen cs s.i) s).delims) :
    s'.delims = matched isAlphanumeric cs c (runLen cs s.i) s ∨
      ∃ d, opening < d.pos ∧
        s'.delims = d :: matched isAlphanumeric cs c (runLen cs s.i) s := by
  have hrun := runLen_pos hlt
  rw [hdelims]
  obtain h | ⟨rest, _, h⟩ := delim_delims isAlphanumeric cs c
    (runLen cs s.i) s
  · exact .inl h
  · exact .inr ⟨_, by dsimp only; omega, h⟩

theorem advance_delims (hc : cs[s.i]? = some c) (hrun : isDelim c ∧ s.code = none) :
    (advance isAlphanumeric cs s).delims =
      (delim isAlphanumeric cs c (runLen cs s.i) s).delims := by
  obtain ⟨hdelim, hplain⟩ := hrun
  have hc' : c = '*' ∨ c = '_' ∨ c = '~' := by simpa [isDelim] using hdelim
  unfold advance
  rw [hc]
  dsimp only
  obtain rfl | rfl | rfl := hc' <;> simp [hplain, hdelim]

/-! ### One round in a label -/

theorem bracket_of_round (hordered : Ordered s) (hlt : opening < s.i)
    (hround : Round isAlphanumeric cs s s') (hmem : opening ∈ s'.brackets) :
    opening ∈ s.brackets ∧
      ∀ completed, s.brackets = completed :: s'.brackets → opening < completed := by
  have hnew (completed : Nat) (h : s.brackets = completed :: s'.brackets) : opening < completed :=
    (List.pairwise_cons.mp (h ▸ hordered.brackets)).1 opening hmem
  refine ⟨?_, hnew⟩
  cases hround with
  | quiet _ hbrackets _ | run _ _ _ _ _ hbrackets _ => exact hbrackets ▸ hmem
  | opening _ _ hbrackets _ =>
      rw [hbrackets, List.mem_cons] at hmem
      exact hmem.resolve_left (Nat.ne_of_lt hlt)
  | closing completed _ _ hbrackets _ => exact hbrackets ▸ List.mem_cons_of_mem completed hmem

theorem outer_round (hordered : Ordered s) (hlt : s.i < cs.length) (hle : opening ≤ s.i)
    (hround : Round isAlphanumeric cs s s')
    (hinside : ∀ completed, s.brackets = completed :: s'.brackets → opening < completed)
    (hkeeps : keepsInside isAlphanumeric cs opening s ()) :
    outer opening s'.delims = outer opening s.delims := by
  cases hround with
  | quiet hdelims _ _ | opening _ hdelims _ _ => rw [hdelims]
  | closing completed _ hdelims hbrackets _ =>
      have := hinside completed hbrackets
      rw [hdelims, outer, List.filter_filter]
      refine List.filter_congr fun d _ => ?_
      simp only [Bool.and_eq_left_iff_imp, decide_eq_true_eq]
      omega
  | run c hc hdelim hplain hdelims _ _ =>
      have hmatched : outer opening s'.delims =
          outer opening (matched isAlphanumeric cs c (runLen cs s.i) s) := by
        obtain h | ⟨d, hd, h⟩ := delims_of_run hlt hle hdelims
        · rw [h]
        · rw [h, outer_cons_of_lt hd]
      rw [hmatched]
      obtain ⟨_, h⟩ | ⟨inner, d, delims, hcloses, hs, h⟩ := matched_cases hordered hc hdelim hplain
      · rw [h]
      · have hd : opening < d.pos := hkeeps d hcloses
        rw [hs, outer_append_of_lt (hs ▸ hordered.delims.pairwise) hd]
        obtain h | ⟨len, _, h⟩ := h
        · rw [h]
        · rw [h]
          refine outer_cons_of_lt ?_ delims
          exact hd

theorem lost_of_closes (hordered : Ordered s) (hlt : s.i < cs.length) (hle : opening ≤ s.i)
    (hcloses : closes isAlphanumeric cs s = some d) (hd : d.pos ≤ opening) :
    d ∈ outer opening s.delims ∧ Lost d (advance isAlphanumeric cs s) := by
  obtain ⟨c, hc⟩ : ∃ c, cs[s.i]? = some c := ⟨_, List.getElem?_eq_getElem hlt⟩
  have hrun := isDelim_of_closes hc hcloses
  obtain ⟨hnone, _⟩ | ⟨inner, d', delims, hsome, hs, hm⟩ :=
    matched_cases hordered hc hrun.1 hrun.2
  · rw [hnone] at hcloses
    cases hcloses
  · obtain rfl : d' = d := Option.some.inj (hsome.symm.trans hcloses)
    have hbelow : ∀ e ∈ delims, e.pos ≠ d'.pos := by
      have hpairwise := (List.pairwise_append.mp (hs ▸ hordered.delims.pairwise)).2.1
      exact fun e he => Nat.ne_of_lt ((List.pairwise_cons.mp hpairwise).1 e he)
    have hmatched : ∀ e ∈ matched isAlphanumeric cs c (runLen cs s.i) s,
        e.pos = d'.pos → e.len < d'.len := by
      obtain hm | ⟨len, hlen, hm⟩ := hm
      · exact hm ▸ fun e he hpos => absurd hpos (hbelow e he)
      · rw [hm, List.forall_mem_cons]
        exact ⟨fun _ => hlen, fun e he hpos => absurd hpos (hbelow e he)⟩
    refine ⟨List.mem_filter.mpr ⟨by simp [hs], by simpa using hd⟩, ?_⟩
    intro e he hpos
    obtain h | ⟨new, hnew, h⟩ := delims_of_run hlt hle (advance_delims hc hrun)
    · exact hmatched e (h ▸ he) hpos
    · rw [h, List.mem_cons] at he
      obtain rfl | he := he
      · omega
      · exact hmatched e he hpos

theorem Lost.round (h : Lost d s) (hordered : Ordered s) (hlt : s.i < cs.length) (hle : d.pos ≤ s.i)
    (hround : Round isAlphanumeric cs s s') : Lost d s' := by
  cases hround with
  | quiet hdelims _ _ | opening _ hdelims _ _ => exact fun e he => h e (hdelims ▸ he)
  | closing completed _ hdelims _ _ => exact fun e he => h e (List.mem_of_mem_filter (hdelims ▸ he))
  | run c hc hdelim hplain hdelims _ _ =>
      have hmatched : ∀ e ∈ matched isAlphanumeric cs c (runLen cs s.i) s,
          e.pos = d.pos → e.len < d.len := by
        obtain ⟨_, hm⟩ | ⟨inner, d', delims, _, hs, hm⟩ := matched_cases hordered hc hdelim hplain
        · exact hm ▸ h
        · have hsub : ∀ e ∈ d' :: delims, e.pos = d.pos → e.len < d.len :=
            fun e he => h e (hs ▸ List.mem_append_right inner he)
          obtain hm | ⟨len, hlen, hm⟩ := hm
          · exact hm ▸ fun e he => hsub e (List.mem_cons_of_mem d' he)
          · rw [hm, List.forall_mem_cons]
            refine ⟨fun hpos => Nat.lt_trans hlen (hsub d' List.mem_cons_self hpos), ?_⟩
            exact fun e he => hsub e (List.mem_cons_of_mem d' he)
      intro e he hpos
      obtain hs' | ⟨new, hnew, hs'⟩ := delims_of_run hlt hle hdelims
      · exact hmatched e (hs' ▸ he) hpos
      · rw [hs', List.mem_cons] at he
        obtain rfl | he := he
        · omega
        · exact hmatched e he hpos

/-! ### The label -/

theorem Round.le (h : Round isAlphanumeric cs s s') : s.i ≤ s'.i := by
  cases h with
  | quiet _ _ hlt => exact Nat.le_of_lt hlt
  | run _ _ _ _ _ _ _ | opening _ _ _ _ => omega
  | closing _ _ _ _ hle => exact hle

theorem label_ordered (hordered : Ordered s) (hlt : opening < s.i)
    (h : (scanner isAlphanumeric cs).Steps anyStep s s') : Ordered s' ∧ opening < s'.i := by
  refine h.invariant (I := fun s => Ordered s ∧ opening < s.i) ?_ ⟨hordered, hlt⟩
  rintro s a s' ⟨hordered, hlt⟩ - hstep
  obtain ⟨hlen, hround⟩ := step_round hstep
  exact ⟨hordered.round hlen hround, Nat.lt_of_lt_of_le hlt hround.le⟩

theorem outer_of_keepsInside (hordered : Ordered s) (hlt : opening < s.i)
    (h : (scanner isAlphanumeric cs).Steps (keepsInside isAlphanumeric cs opening) s s')
    (hmem : opening ∈ s'.brackets) : outer opening s'.delims = outer opening s.delims := by
  induction h with
  | refl => rfl
  | @tail t t' hsteps hnext ih =>
      obtain ⟨_, hkeeps, hstep⟩ := hnext
      obtain ⟨ht, hti⟩ := label_ordered hordered hlt (Steps.mono (fun _ _ _ => trivial) hsteps)
      obtain ⟨hlen, hround⟩ := step_round hstep
      obtain ⟨hmem', hinside⟩ := bracket_of_round ht hti hround hmem
      rw [outer_round ht hlen (Nat.le_of_lt hti) hround hinside hkeeps, ih hmem']

theorem keepsInside_or_lost (hordered : Ordered s) (hlt : opening < s.i)
    (h : (scanner isAlphanumeric cs).Steps anyStep s s') (hmem : opening ∈ s'.brackets) :
    (scanner isAlphanumeric cs).Steps (keepsInside isAlphanumeric cs opening) s s' ∨
      ∃ d ∈ outer opening s.delims, d.pos ≤ opening ∧ Lost d s' := by
  induction h with
  | refl => exact .inl (Steps.refl s)
  | @tail t t' hsteps hnext ih =>
      obtain ⟨_, -, hstep⟩ := hnext
      obtain ⟨ht, hti⟩ := label_ordered hordered hlt hsteps
      obtain ⟨hlen, hround⟩ := step_round hstep
      obtain ⟨hmem', -⟩ := bracket_of_round ht hti hround hmem
      obtain hkept | ⟨d, hd, hle, hlost⟩ := ih hmem'
      · by_cases hkeeps : keepsInside isAlphanumeric cs opening t ()
        · exact .inl (hkept.tail hkeeps hstep)
        · obtain ⟨d, hcloses, hd⟩ : ∃ d, closes isAlphanumeric cs t = some d ∧ d.pos ≤ opening := by
            simpa [keepsInside] using hkeeps
          obtain ⟨hmem, hlost⟩ := lost_of_closes ht hlen (Nat.le_of_lt hti) hcloses hd
          rw [outer_of_keepsInside hordered hlt hkept hmem'] at hmem
          rw [(step_eq_some hstep).2.2]
          exact .inr ⟨d, hmem, hd, hlost⟩
      · exact .inr ⟨d, hd, hle, hlost.round ht hlen (by omega) hround⟩

theorem Group.opened (group : Group isAlphanumeric cs before close after) :
    ∃ opened, (scanner isAlphanumeric cs).step before () = some opened ∧
      opened.delims = before.delims ∧ opened.i = before.i + 1 := by
  obtain heq | ⟨opened, ⟨_, -, hstep⟩, -⟩ := Relation.ReflTransGen.cases_head group.label
  · have hclose := group.closes
    rw [← heq, group.opens] at hclose
    cases hclose
  · obtain ⟨-, -, rfl⟩ := step_eq_some hstep
    refine ⟨_, hstep, ?_, ?_⟩ <;> simp [advance, group.opens, group.plain, isDelim]

theorem Group.steps_of_opened {guard : Scan → Unit → Prop}
    (group : Group isAlphanumeric cs before close after)
    (hopen : (scanner isAlphanumeric cs).step before () = some s)
    (h : (scanner isAlphanumeric cs).Steps guard before close) :
    (scanner isAlphanumeric cs).Steps guard s close := by
  obtain heq | ⟨t, ⟨_, -, hstep⟩, hsteps⟩ := Relation.ReflTransGen.cases_head h
  · have hclose := group.closes
    rw [← heq, group.opens] at hclose
    cases hclose
  · obtain rfl : t = s := Option.some.inj (hstep.symm.trans hopen)
    exact hsteps

theorem Group.delims_after (group : Group isAlphanumeric cs before close after) :
    after.delims = close.delims.filter (·.pos < before.i) := by
  obtain ⟨-, -, rfl⟩ := step_eq_some group.step
  obtain ⟨brackets, hbrackets⟩ := List.head?_eq_some_iff.mp group.matched
  have hadvance : advance isAlphanumeric cs close = closeBracket cs close := by
    simp [advance, group.closes, group.outside, isDelim]
  rw [hadvance]
  unfold closeBracket
  rw [hbrackets]
  dsimp only
  split
  · split <;> rfl
  · rfl

/-- **A bracket group keeps the emphasis around it** exactly when no open run ends at the bracket and
no run of the label closes one before it. -/
theorem keepsEmphasis_iff (group : Group isAlphanumeric cs before close after) :
    KeepsEmphasis before after ↔
      (∀ d ∈ before.delims, d.pos ≠ before.i) ∧
        (scanner isAlphanumeric cs).Steps (keepsInside isAlphanumeric cs before.i) before close := by
  have hbefore := ordered_of_reachable group.reachable
  obtain ⟨opened, hopen, hdelims, hi⟩ := group.opened
  obtain ⟨hlen, hround⟩ := step_round hopen
  have hopened := hbefore.round hlen hround
  have hlt : before.i < opened.i := by omega
  have houter : outer before.i opened.delims = before.delims := by
    rw [hdelims, outer_of_le hbefore.delims]
  have hmem : before.i ∈ close.brackets := List.mem_of_head? group.matched
  have hfirst : keepsInside isAlphanumeric cs before.i before () := by
    intro d hd
    rw [Option.mem_def] at hd
    exact absurd (isDelim_of_closes group.opens hd).1 (by decide)
  unfold KeepsEmphasis
  rw [group.delims_after]
  simp only [List.mem_filter, decide_eq_true_eq]
  constructor
  · rintro ⟨hkept, -⟩
    refine ⟨fun d hd => Nat.ne_of_lt (hkept d hd).2, ?_⟩
    obtain hsteps | ⟨d, hd, -, hlost⟩ :=
      keepsInside_or_lost hopened hlt (group.steps_of_opened hopen group.label) hmem
    · exact Lib.Machine.Steps.head hfirst hopen hsteps
    · exact absurd (hlost d (hkept d (houter ▸ hd)).1 rfl) (Nat.lt_irrefl _)
  · rintro ⟨hadjacent, hsteps⟩
    have hclose := outer_of_keepsInside hopened hlt (group.steps_of_opened hopen hsteps) hmem
    rw [houter] at hclose
    refine ⟨fun d hd => ?_, fun d hd => Nat.le_of_lt hd.2⟩
    rw [← hclose] at hd
    refine ⟨List.mem_of_mem_filter hd, Nat.lt_of_le_of_ne ?_ (hadjacent d (hclose ▸ hd))⟩
    simpa [outer] using List.of_mem_filter hd

instance (opening : Nat) (s : Scan) (a : Unit) :
    Decidable (keepsInside isAlphanumeric cs opening s a) :=
  inferInstanceAs (Decidable (∀ d ∈ closes isAlphanumeric cs s, opening < d.pos))

/-- `**x [a](b) c` -/
theorem keepsEmphasis_after_text :
    KeepsEmphasis { delims := [⟨'*', 2, 2⟩], lastContent := some 2, i := 4 }
      { delims := [⟨'*', 2, 2⟩], lastContent := some 9, i := 10 } := by
  have group : Group Char.isAlphanum "**x [a](b) c".toList
      { delims := [⟨'*', 2, 2⟩], lastContent := some 2, i := 4 }
      { delims := [⟨'*', 2, 2⟩], brackets := [4], lastContent := some 5, i := 6 }
      { delims := [⟨'*', 2, 2⟩], lastContent := some 9, i := 10 } :=
    { reachable := @Machine.reachable_of_run _ _ _ ({} : Scan) _ [(), (), ()] rfl (by decide)
      opens := by decide
      plain := rfl
      label := @Machine.steps_of_run _ _ _ _ _ [(), ()] (by decide)
      closes := by decide
      outside := rfl
      matched := rfl
      step := by decide
      completed := rfl }
  refine (keepsEmphasis_iff group).mpr ⟨by decide, ?_⟩
  exact @Machine.steps_of_runWhen _ _ _ _ _ _ _ [(), ()] (by decide)

/-- The emphasis of `**[a](b) c` is forgotten: its run ends at the bracket. -/
theorem not_keepsEmphasis : ¬∀ (isAlphanumeric : Char → Bool) (cs : List Char)
    (before close after : Scan), Group isAlphanumeric cs before close after →
      KeepsEmphasis before after := by
  intro h
  have group : Group Char.isAlphanum "**[a](b) c".toList
      { delims := [⟨'*', 2, 2⟩], i := 2 }
      { delims := [⟨'*', 2, 2⟩], brackets := [2], lastContent := some 3, i := 4 }
      { delims := [], lastContent := some 7, i := 8 } :=
    { reachable := @Machine.reachable_of_run _ _ _ ({} : Scan) _ [()] rfl (by decide)
      opens := by decide
      plain := rfl
      label := @Machine.steps_of_run _ _ _ _ _ [(), ()] (by decide)
      closes := by decide
      outside := rfl
      matched := rfl
      step := by decide
      completed := rfl }
  exact absurd ((h _ _ _ _ _ group).1 ⟨'*', 2, 2⟩ (by decide)) (by decide)

end Zeron.Ui.Mend
