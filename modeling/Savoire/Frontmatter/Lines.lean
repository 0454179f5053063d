import Savoire.Frontmatter.Fences

/-! The lines of the frontmatter, as the reader and as the scanner cut them. -/
namespace Savoire.Frontmatter
open VaultIndex

/-- Lines with the `\n` that ends each. -/
def ended (raws : List Text) : Text := raws.flatMap fun raw => raw ++ ['\n']

@[simp] theorem ended_nil : ended [] = [] := rfl

@[simp] theorem ended_append (a b : List Text) : ended (a ++ b) = ended a ++ ended b := List.flatMap_append

theorem ended_cons (raw : Text) (rest : List Text) : ended (raw :: rest) = raw ++ '\n' :: ended rest := by
  simp [ended]

theorem ended_last (raws : List Text) : ended raws = [] ∨ ∃ u, ended raws = u ++ ['\n'] := by
  obtain rfl | ⟨init, last, rfl⟩ := List.eq_nil_or_concat' raws
  · exact .inl rfl
  · exact .inr ⟨ended init ++ last, by simp [ended]⟩

theorem intercalate_ended (init : List Text) (last : Text) :
    ['\n'].intercalate (init ++ [last]) = ended init ++ last := by
  induction init with
  | nil => simp
  | cons raw init ih =>
    rw [List.cons_append, List.intercalate_cons_of_ne_nil (by simp), ih, ended_cons]
    simp

theorem splitOn_ended {init : List Text} {last : Text} (h : ∀ raw ∈ init ++ [last], '\n' ∉ raw) :
    (ended init ++ last).splitOn '\n' = init ++ [last] := by
  rw [← intercalate_ended]
  exact List.splitOn_intercalate '\n' h (by simp)

theorem exists_lines (t : Text) : ∃ init last, t = ended init ++ last ∧ ∀ raw ∈ init ++ [last], '\n' ∉ raw := by
  induction t with
  | nil => exact ⟨[], [], rfl, by simp⟩
  | cons c t ih =>
    obtain ⟨init, last, rfl, hraws⟩ := ih
    by_cases hc : c = '\n'
    · subst hc
      exact ⟨[] :: init, last, by simp [ended_cons], by simpa using hraws⟩
    · cases init with
      | nil =>
        refine ⟨[], c :: last, rfl, ?_⟩
        intro raw hraw
        obtain rfl : raw = c :: last := by simpa using hraw
        simpa [Ne.symm hc] using hraws last (by simp)
      | cons first init =>
        refine ⟨(c :: first) :: init, last, by simp [ended_cons], ?_⟩
        intro raw hraw
        obtain rfl | hraw := List.mem_cons.1 hraw
        · simpa [Ne.symm hc] using hraws first (by simp)
        · exact hraws raw (List.mem_cons_of_mem _ hraw)

theorem cutLines_append (a : List Text) {b : List Text} (hb : b ≠ []) :
    cutLines (a ++ b) = a.map stripCr ++ cutLines b := by
  induction a with
  | nil => rfl
  | cons raw a ih =>
    have hne : a ++ b ≠ [] := by simp [hb]
    obtain ⟨next, rest, hrest⟩ := List.exists_cons_of_ne_nil hne
    rw [List.cons_append, hrest, cutLines, ← hrest, ih]
    · rfl
    · simp

theorem splitLines_ended {init : List Text} {last : Text} (h : ∀ raw ∈ init ++ [last], '\n' ∉ raw) :
    splitLines (ended init ++ last) = init.map stripCr ++ [last] := by
  rw [splitLines, splitOn_ended h, cutLines_append init (by simp)]
  rfl

theorem splitLines_append {init : List Text} (h : ∀ raw ∈ init, '\n' ∉ raw) (t : Text) :
    splitLines (ended init ++ t) = init.map stripCr ++ splitLines t := by
  obtain ⟨more, last, rfl, hmore⟩ := exists_lines t
  rw [← List.append_assoc, ← ended_append, splitLines_ended, splitLines_ended hmore, List.map_append,
    List.append_assoc]
  intro raw hraw
  rw [List.append_assoc] at hraw
  obtain hraw | hraw := List.mem_append.1 hraw
  · exact h raw hraw
  · exact hmore raw hraw

theorem splitLines_newline {t rest u : Text} (hnl : newline? rest = some u)
    (ht : t.getLast? = some '\r' → rest.head? ≠ some '\n') :
    splitLines (t ++ rest) = splitLines t ++ splitLines u := by
  obtain ⟨init, last, rfl, hraws⟩ := exists_lines t
  have hinit : ∀ raw ∈ init, '\n' ∉ raw := fun raw hraw => hraws raw (List.mem_append_left _ hraw)
  have hlast : '\n' ∉ last := hraws last (by simp)
  have hcr : rest.head? = some '\n' → stripCr last = last := by
    intro hhead
    refine stripCr_of_ne ?_
    intro hend
    refine ht ?_ hhead
    have hne : last ≠ [] := by
      rintro rfl
      cases hend
    rw [List.getLast?_append_of_ne_nil _ hne, hend]
  have hone : splitLines (last ++ rest) = last :: splitLines u := by
    obtain rfl | rfl := newline?_cases hnl
    · have hsplit : last ++ '\n' :: u = ended [last] ++ u := by simp [ended]
      rw [hsplit, splitLines_append (by simpa using hlast)]
      simp [hcr rfl]
    · have hsplit : last ++ '\r' :: '\n' :: u = ended [last ++ ['\r']] ++ u := by simp [ended]
      rw [hsplit, splitLines_append (by simpa using hlast)]
      simp [stripCr_cr]
  rw [List.append_assoc, splitLines_append hinit, hone, splitLines_ended hraws, List.append_assoc]
  rfl

theorem splitLines_intercalate {eol : Text} (heol : ∀ rest, newline? (eol ++ rest) = some rest) {lines : List Text}
    (hne : lines ≠ []) (hlf : ∀ l ∈ lines, '\n' ∉ l) (hcr : ∀ l ∈ lines, l.getLast? ≠ some '\r') :
    splitLines (eol.intercalate lines) = lines := by
  have hone : ∀ l : Text, '\n' ∉ l → splitLines l = [l] := by
    intro l hl
    simpa using @splitLines_ended [] l (by simpa using hl)
  induction lines with
  | nil => exact absurd rfl hne
  | cons l lines ih =>
    by_cases hrest : lines = []
    · subst hrest
      simpa using hone l (hlf l (by simp))
    · rw [List.intercalate_cons_of_ne_nil hrest, List.append_assoc,
        splitLines_newline (heol _) (fun hend => absurd hend (hcr l (by simp))), hone l (hlf l (by simp)),
        ih hrest (fun x hx => hlf x (List.mem_cons_of_mem l hx)) fun x hx => hcr x (List.mem_cons_of_mem l hx)]
      rfl

end Savoire.Frontmatter
