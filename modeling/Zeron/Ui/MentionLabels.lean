import Mathlib.Data.List.Forall2
import Zeron.Lib.Fields
import Zeron.Ui.Projection

/-!
# The labels of chips

`mention_display_labels` of `crates/ui/src/composer.rs`. A label ends like its path, so mentions
with one label have one basename: none of them is labelled by it alone. The others' labels are whole
paths, or end no path but their own.
-/

namespace Zeron.Ui.MentionLabels

open Zeron.Lib.Fields (not_mem_of_mem_splitOn)
open Zeron.Ui.Mentions (FileMentionLink fileMentionLinks scanLinks lastPart)
open Zeron.Ui.Projection

/-- A mention as `file_mention_links` makes it: the basename is the last part of its path. -/
abbrev FileMention := { link : FileMentionLink // link.basename = lastPart link.path }

/-- The label ends the path, by whole components. -/
def EndsPath (label path : List Char) : Prop := label.splitOn '/' <:+ path.splitOn '/'

section Suffixes

variable {label path : List Char} {parts : List (List Char)}

theorem endsPath_refl : EndsPath path path := List.suffix_rfl

theorem splitOn_suffix (h : parts <:+ path.splitOn '/') (hne : parts ≠ []) :
    (List.intercalate ['/'] parts).splitOn '/' = parts :=
  List.splitOn_intercalate '/' (fun _ hpart => not_mem_of_mem_splitOn (h.subset hpart)) hne

theorem lastPart_of_endsPath (h : EndsPath label path) : lastPart label = lastPart path := by
  obtain ⟨dropped, hpath⟩ := h
  unfold lastPart
  rw [← hpath, List.getLastD_eq_getLast?, List.getLastD_eq_getLast?,
    List.getLast?_append_of_ne_nil _ (List.splitOn_ne_nil '/' label)]

theorem endsPath_lastPart (path : List Char) : EndsPath (lastPart path) path := by
  have hne := List.splitOn_ne_nil '/' path
  have hlast : lastPart path = (path.splitOn '/').getLast hne := by
    rw [lastPart, List.getLastD_eq_getLast?, List.getLast?_eq_some_getLast hne, Option.getD_some]
  unfold EndsPath
  rw [hlast, List.splitOn_eq_singleton (not_mem_of_mem_splitOn (List.getLast_mem hne))]
  exact ⟨_, List.dropLast_append_getLast hne⟩

theorem take_reverse_iff {suffix parts : List (List Char)} :
    parts.reverse.take suffix.length = suffix.reverse ↔ suffix <:+ parts := by
  rw [← List.reverse_prefix, List.prefix_iff_eq_take, List.length_reverse, eq_comm]

end Suffixes

variable {links : List FileMentionLink} {ix : Nat} {link : FileMentionLink}

/-- The three rules: the basename where no other mention has it, components that end no other path,
or the whole path. -/
theorem mentionDisplayLabel_cases (hnamed : link.basename = lastPart link.path) :
    let label := mentionDisplayLabel links ix link
    EndsPath label link.path ∧
      (links.countP (·.basename = link.basename) = 1 ∨
        (∀ jx other, links[jx]? = some other → jx ≠ ix → ¬ EndsPath label other.path) ∨
          label = link.path) := by
  intro label
  unfold label mentionDisplayLabel
  split_ifs with hunique
  · exact ⟨hnamed ▸ endsPath_lastPart _, .inl hunique⟩
  · dsimp only
    generalize hfind : List.find? _ _ = found
    cases found with
    | none => exact ⟨endsPath_refl, .inr (.inr rfl)⟩
    | some suffix =>
        obtain ⟨count, hcount, rfl⟩ := List.mem_map.mp (List.mem_of_find?_eq_some hfind)
        obtain ⟨hpos, hle⟩ := List.mem_range'_1.mp hcount
        have hsuffix := List.drop_suffix ((link.path.splitOn '/').length - count)
          (link.path.splitOn '/')
        have hsplit := splitOn_suffix hsuffix (by
          rw [ne_eq, List.drop_eq_nil_iff]
          omega)
        refine ⟨?_, .inr (.inl fun jx other hother hne hends => ?_)⟩
        · rw [Option.getD_some, EndsPath, hsplit]
          exact hsuffix
        · have hfound := List.find?_some hfind
          have hall := List.all_eq_true.mp hfound (other, jx)
            (List.mem_zipIdx_iff_getElem?.mpr hother)
          simp only [decide_eq_true_eq, hne, false_or] at hall
          exact hall (take_reverse_iff.mpr hends)

theorem countP_ne_one {p : FileMentionLink → Bool} {ix jx : Nat} {link other : FileMentionLink}
    (hlt : ix < jx) (hlink : links[ix]? = some link) (hother : links[jx]? = some other)
    (hpl : p link = true) (hpo : p other = true) : links.countP p ≠ 1 := by
  have hfirst : 0 < (links.take jx).countP p :=
    List.countP_pos_iff.mpr ⟨link, List.mem_of_getElem? (i := ix) (by simp [hlt, hlink]), hpl⟩
  have hlater : 0 < (links.drop jx).countP p :=
    List.countP_pos_iff.mpr ⟨other, List.mem_of_getElem? (i := 0) (by simp [hother]), hpo⟩
  rw [← List.take_append_drop jx links, List.countP_append]
  omega

theorem mentionDisplayLabel_ne {jx : Nat} {other : FileMentionLink} (hlt : ix < jx)
    (hlink : links[ix]? = some link) (hother : links[jx]? = some other)
    (hnamed : link.basename = lastPart link.path) (hnamed' : other.basename = lastPart other.path)
    (hpath : link.path ≠ other.path) :
    mentionDisplayLabel links ix link ≠ mentionDisplayLabel links jx other := by
  intro hsame
  obtain ⟨hends, hrule⟩ := @mentionDisplayLabel_cases links ix link hnamed
  obtain ⟨hends', hrule'⟩ := @mentionDisplayLabel_cases links jx other hnamed'
  rw [← hsame] at hends' hrule'
  have hbasename : link.basename = other.basename := by
    rw [hnamed, hnamed', ← lastPart_of_endsPath hends, lastPart_of_endsPath hends']
  obtain hunique | hends_only | hwhole := hrule
  · exact countP_ne_one hlt hlink hother (by simp) (by simp [hbasename]) hunique
  · exact hends_only jx other hother (Nat.ne_of_gt hlt) hends'
  · obtain hunique | hends_only | hwhole' := hrule'
    · exact countP_ne_one hlt hlink hother (by simp [hbasename]) (by simp) hunique
    · exact hends_only ix link hlink (Nat.ne_of_lt hlt) hends
    · apply hpath
      exact hwhole.symm.trans hwhole'

/-- **Mentions with different paths have different labels**, and each ends the path of its mention
by whole components. -/
theorem labels_nodup (mentions : List FileMention)
    (h : (mentions.map (·.val.path)).Nodup) :
    let labels := mentionDisplayLabels (mentions.map (·.val))
    labels.Nodup ∧ List.Forall₂ (fun label mention => EndsPath label mention.val.path) labels
      mentions := by
  refine ⟨List.pairwise_iff_getElem.mpr fun ix jx hix hjx hlt => ?_,
    List.forall₂_iff_get.mpr ⟨by simp [mentionDisplayLabels], fun ix hix hix' => ?_⟩⟩
  · simp only [mentionDisplayLabels, List.length_mapIdx, List.length_map] at hix hjx
    simp only [mentionDisplayLabels, List.getElem_mapIdx, List.getElem_map]
    refine mentionDisplayLabel_ne hlt (by simp [hix]) (by simp [hjx]) mentions[ix].property
      mentions[jx].property ?_
    simpa using List.pairwise_iff_getElem.mp h ix jx (by simpa using hix) (by simpa using hjx) hlt
  · simp only [mentionDisplayLabels, List.get_eq_getElem, List.getElem_mapIdx, List.getElem_map]
    exact (mentionDisplayLabel_cases mentions[ix].property).1

/-- A path that ends another one is its own label. -/
theorem labels_nodup_mods :
    let mention path : FileMention :=
      ⟨{ start := 0, stop := 0, basename := lastPart path, path, isDir := false }, rfl⟩
    let mentions := ["src/one/mod.rs".toList, "one/mod.rs".toList, "lib.rs".toList].map mention
    let labels := mentionDisplayLabels (mentions.map (·.val))
    labels = ["src/one/mod.rs".toList, "one/mod.rs".toList, "lib.rs".toList] ∧ labels.Nodup := by
  intro mention mentions labels
  exact ⟨by decide +kernel, (labels_nodup mentions (by decide +kernel)).1⟩

end Zeron.Ui.MentionLabels
