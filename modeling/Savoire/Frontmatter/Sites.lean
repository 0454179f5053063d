import Savoire.Frontmatter.Placed

/-! The text before an entry, the entry and the text after it, and the lines that the reader sees there. -/
namespace Savoire.Frontmatter
open VaultIndex

variable {ν : Type} {numbers : Numbers ν}

theorem IsBlock.parse {opening lines fence body : Text} (h : IsBlock opening lines fence body) :
    parseFrontmatter numbers (opening ++ lines ++ fence) = parseFrontmatterYaml numbers (chop lines) := by
  unfold parseFrontmatter
  rw [h.findFrontmatter]

namespace Site
variable {markdown key : Text} {s : Scan} {e : Entry} (site : Site numbers markdown key s e)

/-- What stands behind the entry in the yaml. -/
def tail : Text := behind ((site.raw :: site.conts).getLast (List.cons_ne_nil _ _)) site.after

theorem rest_tail : site.rest = site.tail ++ site.ending := site.rest_eq

theorem markdown_split : markdown = site.opening ++ ended site.before ++ (entryText (site.raw :: site.conts) ++
    (site.rest ++ site.fence)) :=
  site.markdown_eq.trans (by simp)

theorem take_lineStart : markdown.take e.lineStart = site.opening ++ ended site.before := by
  rw [site.entry.lineStart, ← List.length_append]
  exact (congrArg (List.take _) site.markdown_split).trans List.take_left

theorem drop_stop : markdown.drop e.stop = site.rest ++ site.fence := by
  have hsplit : markdown = site.opening ++ ended site.before ++ entryText (site.raw :: site.conts) ++
      (site.rest ++ site.fence) := site.markdown_split.trans (by simp)
  rw [site.entry.stop, site.entry.lineStart, ← List.length_append, ← List.length_append]
  exact (congrArg (List.drop _) hsplit).trans List.drop_left

theorem stop_eq : e.stop =
    (site.opening ++ ended site.before ++ entryText (site.raw :: site.conts)).length := by
  rw [site.entry.stop, site.entry.lineStart, List.length_append, List.length_append]

theorem yamlEnd_eq : s.yamlEnd =
    (site.opening ++ ended site.before ++ entryText (site.raw :: site.conts) ++ site.tail).length := by
  refine site.yamlEnd.trans ?_
  rw [← List.length_append, ← List.append_assoc, ← List.append_assoc]
  rfl

theorem slice_behind : (markdown.take s.yamlEnd).drop e.stop = site.tail := by
  have hsplit : markdown = site.opening ++ ended site.before ++ entryText (site.raw :: site.conts) ++ site.tail ++
      (site.ending ++ site.fence) := by
    refine site.markdown_split.trans ?_
    rw [site.rest_tail]
    simp
  rw [site.yamlEnd_eq, site.stop_eq]
  exact (congrArg (fun md => List.drop _ (List.take _ md)) hsplit).trans (by rw [List.take_left, List.drop_left])

theorem slice_before : (markdown.take e.lineStart).drop s.yamlStart = ended site.before := by
  rw [site.take_lineStart, site.yamlStart, List.drop_left]

theorem entry_token : ∃ t, entryText (site.raw :: site.conts) = site.token ++ ':' :: t := by
  obtain ⟨t, hline, -⟩ := keyLine_some site.entry.line
  cases hconts : site.conts with
  | nil => exact ⟨t, hline⟩
  | cons next conts =>
    refine ⟨t ++ crOf site.raw ++ '\n' :: entryText (next :: conts), ?_⟩
    rw [entryText]
    · conv_lhs => rw [← stripCr_crOf site.raw]
      rw [hline]
      simp
    · simp

theorem token_eq : (markdown.take e.keyEnd).drop e.keyStart = site.token := by
  obtain ⟨t, ht⟩ := site.entry_token
  have hsplit : markdown = site.opening ++ ended site.before ++ site.token ++ (':' :: t ++ (site.rest ++ site.fence)) :=
    site.markdown_split.trans (by simp [ht])
  have htake : markdown.take e.keyEnd = site.opening ++ ended site.before ++ site.token := by
    rw [site.entry.keyEnd, site.entry.lineStart, ← List.length_append, ← List.length_append]
    exact (congrArg (List.take _) hsplit).trans List.take_left
  rw [htake, site.entry.keyStart, site.entry.lineStart, ← List.length_append, List.drop_left]

theorem noNewline_token : '\n' ∉ site.token := by
  obtain ⟨t, hline, -⟩ := keyLine_some site.entry.line
  intro hmem
  have hraw : '\n' ∈ site.raw := by
    refine stripCr_subset site.raw ?_
    rw [hline]
    exact List.mem_append_left _ hmem
  exact site.noNewline site.raw (by simp) hraw

include site in
theorem isPrevious : IsPrevious (some e) := by
  intro e' heq
  rw [← Option.some.inj heq]
  constructor
  · intro c hc
    rw [site.entry.value] at hc
    obtain ⟨t, -, hafter, -⟩ := keyLine_some site.entry.line
    cases hinline : site.inline with
    | none =>
      rw [hinline] at hc
      cases hc
    | some v =>
      rw [hinline] at hc hafter
      exact afterMark?_some hafter c (mem_of_mem_jsTrim hc)
  · intro mark hmark
    obtain ⟨hmark, l, hl, hsub⟩ := site.entry.mark mark hmark
    exact ⟨hmark, fun hmem => site.noNewline l (by simp [hl]) (hsub hmem)⟩

theorem quiet_token : Quiet true (site.token ++ [':']) [] := by
  obtain ⟨t, ht⟩ := site.entry_token
  have hquiet := site.block.quiet
  rw [quiet_append, quiet_append] at hquiet
  obtain ⟨⟨hbefore, hentry⟩, -⟩ := hquiet
  obtain ⟨-, hstart⟩ := @quiet_ended site.before _ [] hbefore
  have hsplit : site.token ++ ':' :: t = (site.token ++ [':']) ++ t := by simp
  rw [hstart, ht, hsplit, quiet_append] at hentry
  exact hentry.1.congr (by decide) []

theorem entry_text : entryText (site.raw :: site.conts) = ended (site.raw :: site.conts).dropLast ++
    stripCr ((site.raw :: site.conts).getLast (List.cons_ne_nil _ _)) := by
  have hentry := entryText_concat (site.raw :: site.conts).dropLast
    ((site.raw :: site.conts).getLast (List.cons_ne_nil _ _))
  rwa [List.dropLast_append_getLast (List.cons_ne_nil site.raw site.conts)] at hentry

theorem noNewline_entry : ∀ raw ∈ site.raw :: site.conts, '\n' ∉ raw := fun raw hraw => site.noNewline raw (by
  rw [List.append_assoc]
  exact List.mem_append_right _ (List.mem_append_left _ hraw))

theorem splitLines_entry : splitLines (entryText (site.raw :: site.conts)) = (site.raw :: site.conts).map stripCr := by
  have hsplit := List.dropLast_append_getLast (List.cons_ne_nil site.raw site.conts)
  rw [site.entry_text, splitLines_ended]
  · conv_rhs => rw [← hsplit]
    simp
  · intro raw hraw
    obtain hraw | hraw := List.mem_append.1 hraw
    · exact site.noNewline_entry raw (List.dropLast_subset _ hraw)
    · obtain rfl := List.mem_singleton.1 hraw
      intro hmem
      exact site.noNewline_entry _ (List.getLast_mem _) (stripCr_subset _ hmem)

theorem entry_last (hlast : (entryText (site.raw :: site.conts)).getLast? = some '\r') :
    site.tail.head? ≠ some '\n' := by
  intro hhead
  -- the last line of the entry would have no end of its own
  have hcr : crOf ((site.raw :: site.conts).getLast (List.cons_ne_nil _ _)) = [] := by
    unfold crOf
    split
    · rename_i hcr
      rw [tail, behind, crOf, if_pos hcr] at hhead
      cases hhead
    · rfl
  have hself : stripCr ((site.raw :: site.conts).getLast (List.cons_ne_nil _ _)) =
      (site.raw :: site.conts).getLast (List.cons_ne_nil _ _) := by
    have hjoin := stripCr_crOf ((site.raw :: site.conts).getLast (List.cons_ne_nil _ _))
    rwa [hcr, List.append_nil] at hjoin
  rw [site.entry_text, hself] at hlast
  by_cases hempty : (site.raw :: site.conts).getLast (List.cons_ne_nil _ _) = []
  · rw [hempty, List.append_nil] at hlast
    obtain hnil | ⟨u, hu⟩ := ended_last (site.raw :: site.conts).dropLast
    · rw [hnil] at hlast
      cases hlast
    · rw [hu, List.getLast?_concat] at hlast
      exact absurd (Option.some.inj hlast) (by decide)
  · rw [List.getLast?_append_of_ne_nil _ hempty] at hlast
    rw [crOf, if_pos hlast] at hcr
    cases hcr

theorem conts_noKey : ∀ line ∈ site.conts.map stripCr, keyLine line = none := by
  intro line hline
  obtain ⟨raw, hraw, rfl⟩ := List.mem_map.1 hline
  exact (site.entry.goesOn raw hraw).1

theorem foldl_conts (hkey : parseKey site.token = key) (r : Reading ν) :
    SameBut key ((stripCr site.raw :: site.conts.map stripCr).foldl (readLine numbers) r).props r.props :=
  foldl_entry site.entry.line hkey site.conts_noKey r

theorem tail_of_last (hafter : site.after = []) :
    site.tail = crOf ((site.raw :: site.conts).getLast (List.cons_ne_nil _ _)) := by
  rw [tail, hafter, behind]
  exact List.append_nil _

variable {more : Text} (hnl : newline? (site.rest ++ site.fence) = some more)
include hnl

theorem rest_ne_nil : site.rest ≠ [] := by
  intro hnil
  rw [hnil, List.nil_append, newline?_fence site.block.closes] at hnl
  cases hnl

theorem tail_ne_cr : site.tail ≠ ['\r'] := by
  intro hcr
  have hchopped := site.chopped
  have hlast : (ended site.before ++ entryText (site.raw :: site.conts) ++ site.tail).getLast? = some '\r' := by
    rw [hcr, List.getLast?_concat]
  rw [site.rest_tail, hcr] at hnl
  obtain hending | ⟨-, hne⟩ | ⟨hending, -⟩ := hchopped
  · rw [hending] at hnl
    cases hnl
  · exact hne hlast
  · rw [hending] at hnl
    obtain heq | heq := newline?_cases hnl
    · exact absurd (List.cons.inj heq).1 (by decide)
    · have hfence : site.fence = '\n' :: more := (List.cons.inj heq).2
      have hcloses := site.block.closes
      rw [hfence, fence?_newline _ (by decide)] at hcloses
      cases hcloses

theorem tail_cases : (site.tail = [] ∧ site.after = [] ∧ site.ending ≠ []) ∨
    ∃ r, newline? site.tail = some r ∧ splitLines r = cutLines site.after := by
  cases hafter : site.after with
  | nil =>
    left
    have hnil : site.tail = [] := by
      have hne := site.tail_ne_cr hnl
      rw [site.tail_of_last hafter] at hne ⊢
      unfold crOf at hne ⊢
      split
      · rename_i hcr
        rw [if_pos hcr] at hne
        exact absurd rfl hne
      · rfl
    refine ⟨hnil, rfl, ?_⟩
    intro hending
    refine site.rest_ne_nil hnl ?_
    rw [site.rest_tail, hnil, hending]
    rfl
  | cons next after =>
    right
    have hjoin : ∀ (ls : List Text) (l : Text), '\n' :: ['\n'].intercalate (l :: ls) =
        (l :: ls).flatMap fun raw => '\n' :: raw := by
      intro ls
      induction ls with
      | nil => simp
      | cons m ls ih =>
        intro l
        rw [List.intercalate_cons_of_ne_nil (by simp), List.flatMap_cons, ← ih]
        simp
    refine ⟨['\n'].intercalate (next :: after), ?_, ?_⟩
    · rw [tail, hafter, behind, ← hjoin]
      unfold crOf
      split <;> rfl
    · rw [splitLines, List.splitOn_intercalate]
      · intro l hl
        exact site.noNewline l (by rw [hafter]; exact List.mem_append_right _ hl)
      · simp

theorem splitLines_replaced {text : Text} (hcr : text.getLast? = some '\r' → site.tail.head? ≠ some '\n') :
    splitLines (ended site.before ++ text ++ site.tail) =
      site.before.map stripCr ++ (splitLines text ++ cutLines site.after) := by
  have hbefore : ∀ raw ∈ site.before, '\n' ∉ raw := fun raw hraw => site.noNewline raw (by simp [hraw])
  rw [List.append_assoc, splitLines_append hbefore]
  obtain ⟨htail, hafter, -⟩ | ⟨r, hr, hlines⟩ := site.tail_cases hnl
  · rw [htail, hafter, List.append_nil]
    exact congrArg _ (List.append_nil _).symm
  · rw [splitLines_newline hr hcr, hlines]

theorem splitLines_yaml : splitLines (ended site.before ++ entryText (site.raw :: site.conts) ++ site.tail) =
    site.before.map stripCr ++ ((site.raw :: site.conts).map stripCr ++ cutLines site.after) := by
  rw [site.splitLines_replaced hnl site.entry_last, site.splitLines_entry]

theorem parse : parseFrontmatter numbers markdown =
    ((cutLines site.after).foldl (readLine numbers) ((stripCr site.raw :: site.conts.map stripCr).foldl (readLine numbers)
      ((site.before.map stripCr).foldl (readLine numbers) ⟨.empty, none⟩))).props := by
  have hchop : chop (ended site.before ++ entryText (site.raw :: site.conts) ++ site.rest) =
      ended site.before ++ entryText (site.raw :: site.conts) ++ site.tail := by
    rw [site.rest_tail, ← List.append_assoc]
    exact site.chopped.chop
  refine (congrArg (parseFrontmatter numbers) site.markdown_eq).trans ?_
  rw [site.block.parse, hchop, parseFrontmatterYaml, site.splitLines_yaml hnl, List.foldl_append, List.foldl_append]
  rfl

theorem chopped_replaced {text : Text} (hcr : text.getLast? ≠ some '\r') :
    Chopped (ended site.before ++ text ++ site.tail) site.ending := by
  have hchopped : Chopped (ended site.before ++ entryText (site.raw :: site.conts) ++ site.tail) site.ending :=
    site.chopped
  by_cases htail : site.tail = []
  · rw [htail, List.append_nil] at hchopped ⊢
    obtain hending | ⟨hending, -⟩ | ⟨hending, -⟩ := hchopped
    · exact .inl hending
    · refine .inr (.inl ⟨hending, ?_⟩)
      by_cases htext : text = []
      · rw [htext, List.append_nil]
        obtain hnil | ⟨u, hu⟩ := ended_last site.before
        · rw [hnil]
          simp
        · rw [hu, List.getLast?_concat]
          decide
      · rw [List.getLast?_append_of_ne_nil _ htext]
        exact hcr
    · exact absurd (by rw [site.rest_tail, htail, hending]; rfl) (site.rest_ne_nil hnl)
  · unfold Chopped at hchopped ⊢
    rw [List.getLast?_append_of_ne_nil _ htail] at hchopped ⊢
    exact hchopped

theorem cutLines_subset : cutLines site.after ⊆ splitLines ((markdown.take s.yamlEnd).drop e.stop) := by
  rw [site.slice_behind]
  obtain ⟨-, hafter, -⟩ | ⟨r, hr, hlines⟩ := site.tail_cases hnl
  · rw [hafter]
    exact List.nil_subset _
  · have hsplit := splitLines_newline (t := []) hr (by simp)
    rw [List.nil_append] at hsplit
    rw [hsplit, hlines]
    exact List.subset_append_right _ _

end Site

end Savoire.Frontmatter
