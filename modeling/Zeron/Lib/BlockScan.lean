import Mathlib.Data.List.Basic

/-!
# Reading a document block by block

A scanner takes a document line by line and builds a list of top-level elements, the last of which
may still be open. Whatever a document is continued with, also in the middle of its last line, all
elements but the last two stay, and from the first line of the second last on the document can be
read on its own.
-/

namespace Zeron.Lib.BlockScan

section Lines

/-- The lines, each with its end: a line feed, a carriage return or both. `line` is what has been
read of the first one. -/
def linesFrom (line : List Char) : List Char → List (List Char)
  | [] => if line = [] then [] else [line]
  | '\r' :: '\n' :: rest => (line ++ ['\r', '\n']) :: linesFrom [] rest
  | c :: rest =>
      if c = '\n' ∨ c = '\r' then (line ++ [c]) :: linesFrom [] rest
      else linesFrom (line ++ [c]) rest

def lines (text : List Char) : List (List Char) := linesFrom [] text

/-- A continuation leaves all lines but the last. -/
theorem linesFrom_append (line text more : List Char) :
    ∃ kept last after, linesFrom line text = kept ++ last ∧ last.length ≤ 1 ∧
      linesFrom line (text ++ more) = kept ++ after := by
  fun_induction linesFrom line text with
  | case1 => exact ⟨[], [], _, rfl, by simp, rfl⟩
  | case2 line hline => exact ⟨[], [line], _, rfl, by simp, rfl⟩
  | case3 line rest ih =>
      obtain ⟨kept, last, after, htext, hlast, hmore⟩ := ih
      refine ⟨(line ++ ['\r', '\n']) :: kept, last, after, ?_, hlast, ?_⟩
      · rw [htext, List.cons_append]
      · rw [List.cons_append, List.cons_append, linesFrom, hmore, List.cons_append]
  | case4 line c rest hcrlf hend ih =>
      cases rest with
      | nil => exact ⟨[], [line ++ [c]], _, by simp [linesFrom], by simp, rfl⟩
      | cons d rest =>
          obtain ⟨kept, last, after, htext, hlast, hmore⟩ := ih
          refine ⟨(line ++ [c]) :: kept, last, after, ?_, hlast, ?_⟩
          · rw [htext, List.cons_append]
          · rw [List.cons_append, List.cons_append, linesFrom, if_pos hend, ← List.cons_append, hmore,
              List.cons_append]
            intro rest' hc hrest
            exact hcrlf rest hc (congrArg (· :: rest) (List.cons.inj hrest).1)
  | case5 line c rest hcrlf hend ih =>
      obtain ⟨kept, last, after, htext, hlast, hmore⟩ := ih
      refine ⟨kept, last, after, htext, hlast, ?_⟩
      rw [List.cons_append, linesFrom, if_neg hend, hmore]
      intro rest' hc
      exact absurd (Or.inr hc) hend

theorem flatten_linesFrom (line text : List Char) : (linesFrom line text).flatten = line ++ text := by
  fun_induction linesFrom line text with
  | case1 => simp_all
  | case2 line hline => simp
  | case3 line rest ih | case4 line c rest hcrlf hend ih => rw [List.flatten_cons, ih]; simp
  | case5 line c rest hcrlf hend ih => rw [ih]; simp

theorem flatten_lines (text : List Char) : (lines text).flatten = text := flatten_linesFrom [] text

/-- What follows the first line is read alike on its own. -/
theorem lines_tail {line text first : List Char} {rest : List (List Char)}
    (h : linesFrom line text = first :: rest) : lines rest.flatten = rest := by
  fun_induction linesFrom line text with
  | case1 => cases h
  | case2 line hline =>
      rw [← (List.cons.inj h).2]
      rfl
  | case3 _ _ _ | case4 _ _ _ _ _ _ =>
      rw [← (List.cons.inj h).2, flatten_linesFrom]
      rfl
  | case5 line c text hcrlf hend ih => exact ih h

theorem lines_drop (text : List Char) (n : Nat) :
    lines ((lines text).drop n).flatten = (lines text).drop n := by
  induction n generalizing text with
  | zero => rw [List.drop_zero, flatten_lines]
  | succ n ih =>
      cases hlines : lines text with
      | nil => rfl
      | cons first rest =>
          have htail := lines_tail hlines
          rw [List.drop_succ_cons, ← htail]
          exact ih rest.flatten

/-- A line feed ends its line. -/
theorem lineFeed_last {line text : List Char} (hline : '\n' ∉ line) :
    ∀ other ∈ linesFrom line text, '\n' ∉ other.dropLast := by
  have hfresh : '\n' ∉ ([] : List Char) := List.not_mem_nil
  fun_induction linesFrom line text with
  | case1 => simp
  | case2 line hne => simpa using fun h => hline ((List.dropLast_sublist line).subset h)
  | case3 line text ih =>
      rw [List.forall_mem_cons]
      refine ⟨?_, ih hfresh⟩
      rw [show line ++ ['\r', '\n'] = line ++ ['\r'] ++ ['\n'] by simp, List.dropLast_concat]
      simpa using hline
  | case4 line c text hcrlf hend ih =>
      rw [List.forall_mem_cons, List.dropLast_concat]
      exact ⟨hline, ih hfresh⟩
  | case5 line c text hcrlf hend ih =>
      rw [not_or] at hend
      exact ih (by simpa [hline] using Ne.symm hend.1)

/-- A line that another follows has its end. -/
theorem ends_of_followed {line text other : List Char} {before after : List (List Char)}
    (h : linesFrom line text = before ++ other :: after) (hafter : after ≠ []) :
    other.getLast? = some '\n' ∨ other.getLast? = some '\r' := by
  fun_induction linesFrom line text generalizing before with
  | case1 => simp at h
  | case2 line hline =>
      have hlength := congrArg List.length h
      have hpos := List.length_pos_of_ne_nil hafter
      simp at hlength
      omega
  | case3 line text ih =>
      cases before with
      | nil =>
          rw [← (List.cons.inj h).1]
          simp
      | cons first before => exact ih (List.cons.inj h).2
  | case4 line c text hcrlf hend ih =>
      cases before with
      | nil =>
          rw [← (List.cons.inj h).1]
          simpa using hend
      | cons first before => exact ih (List.cons.inj h).2
  | case5 line c text hcrlf hend ih => exact ih h

end Lines

/-- A scanner with its laws. An element comes with the number of its first line, from zero. -/
structure Scanner (Line Element : Type) where
  elements : List Line → List (Nat × Element)
  /-- The elements that no further line can change. -/
  closed : List Line → List (Nat × Element)
  elements_nil : elements [] = []
  closed_elements : ∀ doc, closed doc <+: elements doc
  one_open : ∀ doc, (elements doc).length ≤ (closed doc).length + 1
  closed_step : ∀ doc line, closed doc <+: closed (doc ++ [line])
  /-- A line begins at most one element. -/
  one_new : ∀ doc line, (elements (doc ++ [line])).length ≤ (elements doc).length + 1
  /-- The open element keeps its first line. -/
  keeps_start : ∀ doc line n element, elements doc = closed doc ++ [(n, element)] →
    ∃ grown, closed doc ++ [(n, grown)] <+: elements (doc ++ [line])
  /-- An element, and what follows it, is read the same where the document begins with it. -/
  restart : ∀ doc before n element after, elements doc = before ++ (n, element) :: after →
    (n, element) :: after = (elements (doc.drop n)).map fun entry => (entry.1 + n, entry.2)

namespace Scanner

variable {Line Element : Type} (scanner : Scanner Line Element) {doc last more : List Line}
  {before after : List (Nat × Element)} {n : Nat} {element : Element}

theorem closed_append (doc more : List Line) :
    scanner.closed doc <+: scanner.closed (doc ++ more) := by
  induction more generalizing doc with
  | nil => simp
  | cons line more ih =>
      have hrest := ih (doc ++ [line])
      rw [List.append_assoc] at hrest
      exact (scanner.closed_step doc line).trans hrest

theorem closed_elements_append (doc more : List Line) :
    scanner.closed doc <+: scanner.elements (doc ++ more) :=
  (scanner.closed_append doc more).trans (scanner.closed_elements _)

/-- Whatever follows, where the open element begins an element begins. -/
theorem keeps_start_append (h : scanner.elements doc = scanner.closed doc ++ [(n, element)])
    (more : List Line) :
    ∃ grown, scanner.closed doc ++ [(n, grown)] <+: scanner.elements (doc ++ more) := by
  induction more generalizing doc element with
  | nil =>
      rw [List.append_nil, h]
      exact ⟨element, List.prefix_rfl⟩
  | cons line more ih =>
      have hassoc : doc ++ line :: more = doc ++ [line] ++ more := by simp
      obtain ⟨grown, hgrown⟩ := scanner.keeps_start doc line n element h
      rw [hassoc]
      by_cases hsame : (scanner.closed (doc ++ [line])).length ≤ (scanner.closed doc).length
      · -- Nothing was closed: the element is still the open one.
        have hclosed : scanner.closed doc = scanner.closed (doc ++ [line]) :=
          (scanner.closed_step doc line).eq_of_length_le hsame
        have helements : scanner.closed doc ++ [(n, grown)] = scanner.elements (doc ++ [line]) := by
          have hlength : (scanner.closed doc ++ [(n, grown)]).length =
              (scanner.closed (doc ++ [line])).length + 1 := by
            rw [← hclosed, List.length_append, List.length_singleton]
          exact hgrown.eq_of_length_le (hlength ▸ scanner.one_open _)
        rw [hclosed] at helements ⊢
        exact ih helements.symm
      · have hin : scanner.closed doc ++ [(n, grown)] <+: scanner.closed (doc ++ [line]) := by
          refine List.prefix_of_prefix_length_le hgrown (scanner.closed_elements _) ?_
          rw [List.length_append, List.length_singleton]
          omega
        exact ⟨grown, hin.trans (scanner.closed_elements_append _ more)⟩

/-- All elements but the last two stay, and the second last keeps its first line. -/
theorem elements_continued
    (h : scanner.elements (doc ++ last) = before ++ (n, element) :: after) (hlast : last.length ≤ 1)
    (hafter : after ≠ []) (more : List Line) :
    ∃ grown after', scanner.elements (doc ++ more) = before ++ (n, grown) :: after' := by
  suffices hfront : ∃ grown, before ++ [(n, grown)] <+: scanner.elements (doc ++ more) by
    obtain ⟨grown, after', hmore⟩ := hfront
    exact ⟨grown, after', by rw [← hmore, List.append_assoc, List.singleton_append]⟩
  have hlength := congrArg List.length h
  rw [List.length_append, List.length_cons] at hlength
  have hpos := List.length_pos_of_ne_nil hafter
  have hclosed : scanner.closed doc <+: before ++ (n, element) :: after :=
    h ▸ scanner.closed_elements_append doc last
  have hbefore : before ++ [(n, element)] <+: before ++ (n, element) :: after := by
    rw [List.append_cons before (n, element) after]
    exact List.prefix_append _ _
  by_cases hlate : before.length < (scanner.closed doc).length
  · -- The element was closed before the last line.
    have hin : before ++ [(n, element)] <+: scanner.closed doc := by
      refine List.prefix_of_prefix_length_le hbefore hclosed ?_
      rw [List.length_append, List.length_singleton]
      omega
    exact ⟨element, hin.trans (scanner.closed_elements_append doc more)⟩
  · -- It was the open one, for the last line has begun another.
    have hopen := scanner.one_open doc
    have hnew : (scanner.elements (doc ++ last)).length ≤ (scanner.elements doc).length + 1 := by
      cases last with
      | nil => simp
      | cons line rest =>
          obtain rfl : rest = [] := by simpa using hlast
          exact scanner.one_new doc line
    have heq : scanner.closed doc = before := by
      refine List.IsPrefix.eq_of_length_le ?_ (by omega)
      exact List.prefix_of_prefix_length_le hclosed (List.prefix_append _ _) (by omega)
    obtain ⟨opened, hopened⟩ : ∃ entry, scanner.elements doc = scanner.closed doc ++ [entry] := by
      obtain ⟨rest, hrest⟩ := scanner.closed_elements doc
      have hone : rest.length = 1 := by
        have hsum := congrArg List.length hrest
        rw [List.length_append] at hsum
        omega
      obtain ⟨entry, rfl⟩ := List.length_eq_one_iff.mp hone
      exact ⟨entry, hrest.symm⟩
    obtain ⟨m, opened⟩ := opened
    obtain ⟨grown, hgrown⟩ := scanner.keeps_start_append hopened last
    have hstart : m = n := by
      rw [heq, h] at hgrown
      have hcons : [(m, grown)] <+: (n, element) :: after :=
        (List.prefix_append_right_inj before).mp hgrown
      exact congrArg Prod.fst (List.cons_prefix_cons.mp hcons).1
    obtain ⟨grown, hmore⟩ := scanner.keeps_start_append hopened more
    exact ⟨grown, by rwa [heq, hstart] at hmore⟩

/-- **Reading on from the second last element.** -/
theorem elements_reread
    (h : scanner.elements (doc ++ last) = before ++ (n, element) :: after) (hlast : last.length ≤ 1)
    (hafter : after ≠ []) (more : List Line) :
    scanner.elements (doc ++ more) = before ++
      (scanner.elements ((doc ++ more).drop n)).map fun entry => (entry.1 + n, entry.2) := by
  obtain ⟨grown, after', hmore⟩ := scanner.elements_continued h hlast hafter more
  rw [← scanner.restart _ _ _ _ _ hmore, hmore]

/-- An element begins on a line of the document. -/
theorem start_lt (h : scanner.elements doc = before ++ (n, element) :: after) : n < doc.length := by
  by_contra hle
  have hrest := scanner.restart _ _ _ _ _ h
  rw [List.drop_eq_nil_of_le (Nat.not_lt.mp hle), scanner.elements_nil] at hrest
  cases hrest

end Scanner

section Separate

variable {Line : Type} (blank : Line → Bool)

/-- Every line that is not blank, from the given number on. -/
def separateFrom (n : Nat) : List Line → List (Nat × Line)
  | [] => []
  | line :: doc =>
      if blank line then separateFrom (n + 1) doc else (n, line) :: separateFrom (n + 1) doc

theorem separateFrom_append (n : Nat) (doc : List Line) (line : Line) :
    separateFrom blank n (doc ++ [line]) =
      separateFrom blank n doc ++ if blank line then [] else [(n + doc.length, line)] := by
  induction doc generalizing n with
  | nil => simp [separateFrom]
  | cons first doc ih =>
      rw [List.cons_append, separateFrom, separateFrom, ih, List.length_cons,
        show n + 1 + doc.length = n + (doc.length + 1) by omega]
      cases blank first <;> rfl

theorem separateFrom_shift (n : Nat) (doc : List Line) :
    separateFrom blank n doc = (separateFrom blank 0 doc).map fun entry => (entry.1 + n, entry.2) := by
  suffices h : ∀ k, separateFrom blank (k + n) doc =
      (separateFrom blank k doc).map fun entry => (entry.1 + n, entry.2) by
    simpa using h 0
  induction doc with
  | nil => exact fun k => rfl
  | cons line doc ih =>
      intro k
      rw [separateFrom, separateFrom, show k + n + 1 = k + 1 + n by omega, ih (k + 1)]
      cases blank line <;> rfl

theorem separateFrom_drop {n k : Nat} {doc : List Line} {before after : List (Nat × Line)}
    {line : Line} (h : separateFrom blank k doc = before ++ (n, line) :: after) :
    k ≤ n ∧ (n, line) :: after = separateFrom blank n (doc.drop (n - k)) := by
  induction doc generalizing k before with
  | nil => simp [separateFrom] at h
  | cons first doc ih =>
      have hlater {before : List (Nat × Line)}
          (h : separateFrom blank (k + 1) doc = before ++ (n, line) :: after) :
          k ≤ n ∧ (n, line) :: after = separateFrom blank n ((first :: doc).drop (n - k)) := by
        obtain ⟨hle, heq⟩ := ih h
        refine ⟨by omega, ?_⟩
        rwa [show n - k = n - (k + 1) + 1 by omega, List.drop_succ_cons]
      rw [separateFrom] at h
      cases hblank : blank first with
      | true =>
          rw [hblank, if_pos rfl] at h
          exact hlater h
      | false =>
          rw [hblank, if_neg (by simp)] at h
          cases before with
          | nil =>
              obtain ⟨hfirst, hafter⟩ := List.cons.inj h
              obtain ⟨rfl, rfl⟩ := Prod.mk.inj hfirst
              refine ⟨Nat.le_refl _, ?_⟩
              rw [Nat.sub_self, List.drop_zero, separateFrom, hblank, if_neg (by simp), hafter]
          | cons entry before => exact hlater (List.cons.inj h).2

theorem mem_separateFrom {n k : Nat} {doc : List Line} {line : Line}
    (h : (n, line) ∈ separateFrom blank k doc) :
    k ≤ n ∧ doc[n - k]? = some line ∧ blank line = false := by
  induction doc generalizing k with
  | nil => cases h
  | cons first doc ih =>
      have hlater (h : (n, line) ∈ separateFrom blank (k + 1) doc) :
          k ≤ n ∧ (first :: doc)[n - k]? = some line ∧ blank line = false := by
        obtain ⟨hle, hget, hblank⟩ := ih h
        refine ⟨by omega, ?_, hblank⟩
        rwa [show n - k = n - (k + 1) + 1 by omega, List.getElem?_cons_succ]
      rw [separateFrom] at h
      split at h
      · exact hlater h
      · rename_i hfirst
        obtain hnew | hmem := List.mem_cons.mp h
        · obtain ⟨rfl, rfl⟩ := Prod.mk.inj hnew
          exact ⟨Nat.le_refl _, by simp, by simpa using hfirst⟩
        · exact hlater hmem

theorem separateFrom_increasing (k : Nat) (doc : List Line) :
    (separateFrom blank k doc).Pairwise fun a b => a.1 < b.1 := by
  induction doc generalizing k with
  | nil => exact .nil
  | cons first doc ih =>
      rw [separateFrom]
      split
      · exact ih (k + 1)
      · exact .cons (fun entry hentry => (mem_separateFrom blank hentry).1) (ih (k + 1))

/-- A scanner for documents with a blank line after each other line: no element stays open. -/
def separate : Scanner Line Line where
  elements := separateFrom blank 0
  closed := separateFrom blank 0
  elements_nil := rfl
  closed_elements _ := List.prefix_rfl
  one_open _ := Nat.le_succ _
  closed_step doc line := by
    rw [separateFrom_append]
    exact List.prefix_append _ _
  one_new doc line := by
    rw [separateFrom_append, List.length_append]
    cases blank line <;> simp
  keeps_start doc line n element h := by
    have hlength := congrArg List.length h
    rw [List.length_append, List.length_singleton] at hlength
    omega
  restart doc before n element after h := by
    rw [(separateFrom_drop blank h).2, Nat.sub_zero, separateFrom_shift]

end Separate

end Zeron.Lib.BlockScan
