import Savoire.Outline.Parse
import Savoire.Text

/-! Tables in Markdown: how they are read and how they are written. A text is its UTF-16 units. -/
namespace Savoire.Gfm
open Outlines (Units isSpace)

structure TableData where
  headers : List Units
  rows : List (List Units)
  deriving DecidableEq

def trim (t : Units) : Units := (t.dropWhile isSpace).rdropWhile isSpace

/-- `replace(/^\||\|$/g, '')` -/
def stripBars (line : Units) : Units :=
  let rest := match line with
    | 124 :: rest => rest
    | line => line
  if rest.getLast? = some 124 then rest.dropLast else rest

def splitCells (line : Units) : List Units := ((stripBars line).splitOn 124).map trim

/-- `/^:?-+:?$/` -/
def isDashes (c : Units) : Bool :=
  let rest := match c with
    | 58 :: rest => rest
    | c => c
  let body := if rest.getLast? = some 58 then rest.dropLast else rest
  decide (body ≠ []) && body.all (· == 45)

def isSeparatorRow (cells : List Units) : Bool := cells.all isDashes

/-- Padded or cut to the number of columns. -/
def fitted (colCount : ℕ) (cells : List Units) : List Units :=
  (cells ++ List.replicate (colCount - cells.length) []).take colCount

def linesOf (markdown : Units) : List Units :=
  ((trim markdown).splitOn 10).filter fun l => decide (0 < (trim l).length)

def parseGfmTable (markdown : Units) : TableData :=
  match linesOf markdown with
  | header :: line :: lines =>
    let headers := splitCells header
    let dataLines := (line :: lines).filter fun l => !isSeparatorRow (splitCells l)
    ⟨headers, dataLines.map fun l => fitted headers.length (splitCells l)⟩
  | _ => ⟨[], []⟩

def colWidth (data : TableData) (col : ℕ) : ℕ :=
  ((data.headers.getD col [] :: data.rows.map fun r => r.getD col []).map List.length).foldl max 3

def widths (data : TableData) : List ℕ := (List.range data.headers.length).map (colWidth data)

def pad (s : Units) (w : ℕ) : Units := s ++ List.replicate (w - s.length) 32

/-- `'| ' + cells.join(' | ') + ' |'` -/
def rowLine (cells : List Units) : Units := [124, 32] ++ [32, 124, 32].intercalate cells ++ [32, 124]

def padded (ws : List ℕ) (cells : List Units) : List Units := cells.mapIdx fun i c => pad c (ws.getD i 0)

def serializeGfmTable (data : TableData) : Units :=
  if data.headers = [] then []
  else
    let ws := widths data
    [10].intercalate (rowLine (padded ws data.headers) :: rowLine (ws.map fun w => List.replicate w 45) ::
      data.rows.map fun r => rowLine (padded ws r))

variable {c line : Units} {cells : List Units} {ws : List ℕ} {data : TableData}

theorem trim_trim (c : Units) : trim (trim c) = trim c := Trim.trim_trim isSpace c

theorem mem_of_mem_trim {u : ℕ} (h : u ∈ trim c) : u ∈ c := Trim.mem_of_mem_trim h

theorem trim_pad (h : trim c = c) (w : ℕ) : trim (32 :: pad c w ++ [32]) = c := by
  have hspace : ∀ u ∈ List.replicate (w - c.length) 32 ++ [32], isSpace u = true := by
    intro u hu
    have h32 : u = 32 := by
      rcases List.mem_append.1 hu with hu | hu
      · exact List.eq_of_mem_replicate hu
      · exact List.mem_singleton.1 hu
    rw [h32]
    rfl
  have haround := Trim.trim_around (u := [32]) (by decide) hspace h
  rwa [pad, trim, List.cons_append, List.append_assoc]

theorem rowLine_eq (hne : cells ≠ []) :
    rowLine cells = 124 :: [124].intercalate (cells.map fun c => 32 :: c ++ [32]) ++ [124] := by
  have hinner : [32] ++ [32, 124, 32].intercalate cells ++ [32] =
      [124].intercalate (cells.map fun c => 32 :: c ++ [32]) := by
    induction cells with
    | nil => exact absurd rfl hne
    | cons c cells ih =>
      cases cells with
      | nil => simp
      | cons d cells =>
        have ih := ih (by simp)
        rw [List.map_cons] at ih ⊢
        rw [List.map_cons, List.intercalate_cons_cons, List.intercalate_cons_cons, ← ih]
        simp
  rw [← hinner, rowLine]
  simp

theorem stripBars_line (inner : Units) : stripBars (124 :: inner ++ [124]) = inner := by
  have hlast : (inner ++ [124]).getLast? = some 124 := List.getLast?_concat
  simp only [stripBars, List.cons_append, hlast, if_true]
  exact List.dropLast_concat

theorem stripBars_subset (line : Units) : stripBars line ⊆ line := by
  have hdrop (l : Units) : (if l.getLast? = some 124 then l.dropLast else l) ⊆ l := by
    split
    · exact List.dropLast_subset l
    · exact List.Subset.refl l
  apply List.Subset.trans (hdrop _)
  split
  · exact List.subset_cons_self _ _
  · exact List.Subset.refl line

theorem splitCells_rowLine (hne : cells ≠ []) (hbar : ∀ c ∈ cells, 124 ∉ c) :
    splitCells (rowLine cells) = cells.map fun c => trim (32 :: c ++ [32]) := by
  rw [splitCells, rowLine_eq hne, stripBars_line, List.splitOn_intercalate, List.map_map]
  · rfl
  · intro l hl
    obtain ⟨c, hc, rfl⟩ := List.mem_map.1 hl
    simp [hbar c hc]
  · simpa using hne

/-- A cell that a line can hold: without line breaks and without white space at its ends. -/
def IsCell (c : Units) : Prop := trim c = c ∧ 10 ∉ c

structure TableData.Shaped (data : TableData) : Prop where
  headers_ne : data.headers ≠ []
  length_row : ∀ r ∈ data.rows, r.length = data.headers.length
  cell : ∀ cells ∈ data.headers :: data.rows, ∀ c ∈ cells, IsCell c

def TableData.NoBars (data : TableData) : Prop := ∀ cells ∈ data.headers :: data.rows, ∀ c ∈ cells, 124 ∉ c

theorem mem_pad {u w : ℕ} (h : u ∈ pad c w) : u ∈ c ∨ u = 32 := by
  rw [pad, List.mem_append] at h
  exact h.imp id List.eq_of_mem_replicate

theorem mem_padded (h : c ∈ padded ws cells) : ∃ d ∈ cells, ∃ w, c = pad d w := by
  rw [padded, List.mem_mapIdx] at h
  obtain ⟨i, hi, rfl⟩ := h
  exact ⟨cells[i], List.getElem_mem hi, _, rfl⟩

theorem padded_ne (hne : cells ≠ []) : padded ws cells ≠ [] := by
  simpa [padded] using hne

theorem splitCells_padded (hne : cells ≠ []) (hcell : ∀ c ∈ cells, IsCell c) (hbar : ∀ c ∈ cells, 124 ∉ c) :
    splitCells (rowLine (padded ws cells)) = cells := by
  have hbars : ∀ c ∈ padded ws cells, 124 ∉ c := by
    intro c hc hmem
    obtain ⟨d, hd, w, rfl⟩ := mem_padded hc
    rcases mem_pad hmem with hmem | h
    · exact hbar d hd hmem
    · cases h
  rw [splitCells_rowLine (padded_ne hne) hbars]
  apply List.ext_getElem
  · simp [padded]
  · intro i hi hi'
    have hcell := hcell cells[i] (List.getElem_mem hi')
    simpa [padded] using trim_pad hcell.1 _

theorem isDashes_replicate {w : ℕ} (hw : 0 < w) : isDashes (List.replicate w 45) = true := by
  obtain ⟨w, rfl⟩ := Nat.exists_eq_add_one_of_ne_zero hw.ne'
  have hlast : (List.replicate (w + 1) 45).getLast? = some 45 := by simp [List.getLast?_replicate]
  simp only [isDashes, List.replicate_succ]
  rw [← List.replicate_succ, hlast, if_neg (by simp)]
  simp

theorem trim_dashes (w : ℕ) : trim (32 :: List.replicate w 45 ++ [32]) = List.replicate w 45 := by
  have htrim : trim (List.replicate w 45) = List.replicate w 45 := by
    refine Trim.trim_eq_self_iff.2 ⟨fun c hc => ?_, fun c hc => ?_⟩
    · rw [List.eq_of_mem_replicate (List.mem_of_head? hc)]
      rfl
    · rw [List.eq_of_mem_replicate (List.mem_of_getLast? hc)]
      rfl
  have hpad := trim_pad htrim 0
  rwa [pad, Nat.zero_sub, List.replicate_zero, List.append_nil] at hpad

theorem isSeparatorRow_line (hne : ws ≠ []) (hpos : ∀ w ∈ ws, 0 < w) :
    isSeparatorRow (splitCells (rowLine (ws.map fun w => List.replicate w 45))) = true := by
  have hbars : ∀ c ∈ ws.map (fun w => List.replicate w 45), 124 ∉ c := by
    intro c hc hmem
    obtain ⟨w, -, rfl⟩ := List.mem_map.1 hc
    cases List.eq_of_mem_replicate hmem
  rw [splitCells_rowLine (by simpa using hne) hbars, List.map_map, isSeparatorRow, List.all_map, List.all_eq_true]
  intro w hw
  simp only [Function.comp_apply, trim_dashes]
  exact isDashes_replicate (hpos w hw)

theorem three_le_colWidth (data : TableData) (col : ℕ) : 3 ≤ colWidth data col := by
  have hle (l : List ℕ) (n : ℕ) : n ≤ l.foldl max n := by
    induction l generalizing n with
    | nil => exact le_rfl
    | cons m l ih => exact le_trans (le_max_left n m) (ih _)
  exact hle _ 3

/-- A written line begins and ends with a bar and is one line. -/
structure IsLine (l : Units) : Prop where
  head : l.head? = some 124
  last : l.getLast? = some 124
  noBreak : 10 ∉ l

theorem mem_intercalate {u : ℕ} {sep : Units} {ls : List Units} (h : u ∈ sep.intercalate ls) :
    u ∈ sep ∨ ∃ l ∈ ls, u ∈ l := by
  induction ls with
  | nil => cases h
  | cons l ls ih =>
    cases ls with
    | nil => exact Or.inr ⟨l, List.mem_cons_self, by simpa using h⟩
    | cons k ls =>
      rw [List.intercalate_cons_cons, List.mem_append, List.mem_append] at h
      rcases h with (h | h) | h
      · exact Or.inr ⟨l, List.mem_cons_self, h⟩
      · exact Or.inl h
      · exact (ih h).imp id fun ⟨m, hm, hu⟩ => ⟨m, List.mem_cons_of_mem _ hm, hu⟩

theorem isLine_rowLine (hbreak : ∀ c ∈ cells, 10 ∉ c) : IsLine (rowLine cells) where
  head := rfl
  last := by
    rw [rowLine, List.getLast?_append]
    rfl
  noBreak := by
    intro hmem
    rw [rowLine, List.mem_append, List.mem_append] at hmem
    rcases hmem with (hmem | hmem) | hmem
    · simp at hmem
    · rcases mem_intercalate hmem with hmem | ⟨c, hc, hmem⟩
      · simp at hmem
      · exact hbreak c hc hmem
    · simp at hmem

theorem linesOf_join {ls : List Units} (hne : ls ≠ []) (hline : ∀ l ∈ ls, IsLine l) :
    linesOf ([10].intercalate ls) = ls := by
  have hends : ([10].intercalate ls).head? = some 124 ∧ ([10].intercalate ls).getLast? = some 124 := by
    induction ls with
    | nil => exact absurd rfl hne
    | cons l ls ih =>
      have hl := hline l List.mem_cons_self
      cases ls with
      | nil => simpa using ⟨hl.head, hl.last⟩
      | cons k ls =>
        have ih := ih (by simp) fun l hl => hline l (List.mem_cons_of_mem _ hl)
        rw [List.intercalate_cons_cons, List.append_assoc, List.head?_append, hl.head, List.getLast?_append,
          List.getLast?_append, ih.2]
        exact ⟨rfl, rfl⟩
  have hbar {u : ℕ} (hu : some 124 = some u) : isSpace u = false := by
    cases hu
    rfl
  have htrim {l : Units} (hhead : l.head? = some 124) (hlast : l.getLast? = some 124) : trim l = l :=
    Trim.trim_eq_self_iff.2 ⟨fun u hu => hbar (hhead ▸ hu), fun u hu => hbar (hlast ▸ hu)⟩
  rw [linesOf, htrim hends.1 hends.2, List.splitOn_intercalate]
  · apply List.filter_eq_self.2
    intro l hl
    have hl := hline l hl
    rw [htrim hl.head hl.last, decide_eq_true_eq, List.length_pos_iff]
    rintro rfl
    cases hl.head
  · exact fun l hl => (hline l hl).noBreak
  · exact hne

theorem noBreak_padded (h : ∀ c ∈ cells, IsCell c) : ∀ c ∈ padded ws cells, 10 ∉ c := by
  intro c hc hmem
  obtain ⟨d, hd, w, rfl⟩ := mem_padded hc
  rcases mem_pad hmem with hmem | h
  · exact (h d hd).2 hmem
  · cases h

theorem parse_serialize (h : data.Shaped) (hbar : data.NoBars) : parseGfmTable (serializeGfmTable data) =
    ⟨data.headers, data.rows.filter fun r => !isSeparatorRow r⟩ := by
  obtain ⟨hne, hlen, hcell⟩ := h
  have hws : widths data ≠ [] := by simpa [widths] using hne
  have hpos : ∀ w ∈ widths data, 0 < w := by
    intro w hw
    obtain ⟨i, -, rfl⟩ := List.mem_map.1 hw
    have hthree := three_le_colWidth data i
    omega
  have hrowne : ∀ r ∈ data.rows, r ≠ [] := by
    rintro r hr rfl
    exact hne (List.length_eq_zero_iff.1 (hlen _ hr).symm)
  have hhead : splitCells (rowLine (padded (widths data) data.headers)) = data.headers :=
    splitCells_padded hne (hcell _ List.mem_cons_self) (hbar _ List.mem_cons_self)
  have hread : ∀ r ∈ data.rows, splitCells (rowLine (padded (widths data) r)) = r := fun r hr =>
    splitCells_padded (hrowne r hr) (hcell r (List.mem_cons_of_mem _ hr)) (hbar r (List.mem_cons_of_mem _ hr))
  rw [serializeGfmTable, if_neg hne, parseGfmTable, linesOf_join (by simp)]
  · dsimp only
    rw [hhead, List.filter_cons_of_neg (by simp [isSeparatorRow_line hws hpos]), TableData.mk.injEq]
    refine ⟨rfl, ?_⟩
    rw [List.filter_map, List.map_map]
    have hkept : data.rows.filter ((fun l => !isSeparatorRow (splitCells l)) ∘
        fun r => rowLine (padded (widths data) r)) = data.rows.filter fun r => !isSeparatorRow r := by
      apply List.filter_congr
      intro r hr
      rw [Function.comp_apply, hread r hr]
    rw [hkept]
    conv_rhs => rw [← List.map_id (data.rows.filter fun r => !isSeparatorRow r)]
    apply List.map_congr_left
    intro r hr
    have hr := List.mem_of_mem_filter hr
    rw [Function.comp_apply, hread r hr, fitted, ← hlen r hr, Nat.sub_self, List.replicate_zero, List.append_nil,
      List.take_length, id]
  · intro l hl
    rcases List.mem_cons.1 hl with rfl | hl
    · exact isLine_rowLine (noBreak_padded (hcell _ List.mem_cons_self))
    rcases List.mem_cons.1 hl with rfl | hl
    · apply isLine_rowLine
      intro c hc hmem
      obtain ⟨w, -, rfl⟩ := List.mem_map.1 hc
      cases List.eq_of_mem_replicate hmem
    · obtain ⟨r, hr, rfl⟩ := List.mem_map.1 hl
      exact isLine_rowLine (noBreak_padded (hcell r (List.mem_cons_of_mem _ hr)))

theorem noBar_splitCells (h : c ∈ splitCells line) : 124 ∉ c := by
  obtain ⟨d, hd, rfl⟩ := List.mem_map.1 h
  intro hmem
  exact notMem_splitOn _ _ d hd (mem_of_mem_trim hmem)

theorem isCell_splitCells (hline : 10 ∉ line) (h : c ∈ splitCells line) : IsCell c := by
  obtain ⟨d, hd, rfl⟩ := List.mem_map.1 h
  refine ⟨trim_trim d, fun hmem => hline ?_⟩
  exact stripBars_subset line (subset_splitOn _ _ d hd (mem_of_mem_trim hmem))

theorem noBreak_linesOf {markdown : Units} (h : line ∈ linesOf markdown) : 10 ∉ line :=
  notMem_splitOn _ _ line (List.mem_of_mem_filter h)

theorem length_fitted (n : ℕ) (cells : List Units) : (fitted n cells).length = n := by
  rw [fitted, List.length_take, List.length_append, List.length_replicate]
  omega

theorem mem_fitted {n : ℕ} (h : c ∈ fitted n cells) : c ∈ cells ∨ c = [] := by
  have h := List.mem_of_mem_take h
  rw [List.mem_append] at h
  exact h.imp id List.eq_of_mem_replicate

theorem parse_eq {markdown : Units} (h : (parseGfmTable markdown).headers ≠ []) :
    ∃ header lines, linesOf markdown = header :: lines ∧ parseGfmTable markdown = ⟨splitCells header,
      (lines.filter fun l => !isSeparatorRow (splitCells l)).map fun l =>
        fitted (splitCells header).length (splitCells l)⟩ := by
  unfold parseGfmTable at h ⊢
  split at h
  · rename_i header line lines hlines
    exact ⟨header, line :: lines, hlines, rfl⟩
  · exact absurd rfl h

theorem shaped_parse {markdown : Units} (h : (parseGfmTable markdown).headers ≠ []) :
    (parseGfmTable markdown).Shaped ∧ (parseGfmTable markdown).NoBars := by
  obtain ⟨header, lines, hlines, hparse⟩ := parse_eq h
  have hbreak : ∀ l ∈ header :: lines, 10 ∉ l := fun l hl => noBreak_linesOf (hlines ▸ hl)
  have hrow : ∀ r ∈ (parseGfmTable markdown).rows, ∃ l ∈ lines,
      r = fitted (splitCells header).length (splitCells l) := by
    intro r hr
    rw [hparse] at hr
    obtain ⟨l, hl, rfl⟩ := List.mem_map.1 hr
    exact ⟨l, List.mem_of_mem_filter hl, rfl⟩
  have hheaders : (parseGfmTable markdown).headers = splitCells header := by rw [hparse]
  refine ⟨⟨h, ?_, ?_⟩, ?_⟩
  · intro r hr
    obtain ⟨l, -, rfl⟩ := hrow r hr
    rw [length_fitted, hheaders]
  · intro cells hcells c hc
    rcases List.mem_cons.1 hcells with rfl | hr
    · rw [hheaders] at hc
      exact isCell_splitCells (hbreak header List.mem_cons_self) hc
    · obtain ⟨l, hl, rfl⟩ := hrow cells hr
      rcases mem_fitted hc with hc | rfl
      · exact isCell_splitCells (hbreak l (List.mem_cons_of_mem _ hl)) hc
      · exact ⟨rfl, List.not_mem_nil⟩
  · intro cells hcells c hc
    rcases List.mem_cons.1 hcells with rfl | hr
    · rw [hheaders] at hc
      exact noBar_splitCells hc
    · obtain ⟨l, -, rfl⟩ := hrow cells hr
      rcases mem_fitted hc with hc | rfl
      · exact noBar_splitCells hc
      · exact List.not_mem_nil

theorem parse_serialize_iff (h : data.Shaped) (hbar : data.NoBars) :
    parseGfmTable (serializeGfmTable data) = data ↔ ∀ r ∈ data.rows, isSeparatorRow r = false := by
  rw [parse_serialize h hbar]
  have hfields (rows : List (List Units)) : (⟨data.headers, rows⟩ : TableData) = data ↔ rows = data.rows := by
    constructor
    · intro heq
      rw [← heq]
    · rintro rfl
      rfl
  rw [hfields, List.filter_eq_self]
  simp

/-- Cutting a line to the number of columns does not leave dashes only. -/
def KeepsRows (markdown : Units) : Prop :=
  ∀ l ∈ (linesOf markdown).tail, isSeparatorRow (splitCells l) = false →
    isSeparatorRow (fitted (splitCells ((linesOf markdown).headD [])).length (splitCells l)) = false

/-- A written table is read back just when no cell holds a bar and no row is made of dashes; a table that was read
stays the same just when no line is cut to dashes. -/
theorem roundTrip_iff (data : TableData) (markdown : Units) :
    (data.Shaped → (parseGfmTable (serializeGfmTable data) = data ↔
      data.NoBars ∧ ∀ r ∈ data.rows, isSeparatorRow r = false)) ∧
    ((parseGfmTable markdown).headers ≠ [] →
      (parseGfmTable (serializeGfmTable (parseGfmTable markdown)) = parseGfmTable markdown ↔ KeepsRows markdown)) := by
  constructor
  · intro h
    constructor
    · intro heq
      have hbar : data.NoBars := by
        have hne : (parseGfmTable (serializeGfmTable data)).headers ≠ [] := by
          rw [heq]
          exact h.headers_ne
        have hbar := (shaped_parse hne).2
        rwa [heq] at hbar
      exact ⟨hbar, (parse_serialize_iff h hbar).1 heq⟩
    · rintro ⟨hbar, hrows⟩
      exact (parse_serialize_iff h hbar).2 hrows
  · intro h
    obtain ⟨hshaped, hbar⟩ := shaped_parse h
    obtain ⟨header, lines, hlines, hparse⟩ := parse_eq h
    rw [parse_serialize_iff hshaped hbar, KeepsRows, hlines, hparse]
    simp only [List.forall_mem_map, List.mem_filter, and_imp, List.tail_cons, List.headD_cons, Bool.not_eq_true']

theorem roundTrip_one : TableData.Shaped ⟨[[97]], [[[98]]]⟩ ∧ parseGfmTable (serializeGfmTable ⟨[[97]], [[[98]]]⟩) =
    ⟨[[97]], [[[98]]]⟩ := by
  have hshaped : TableData.Shaped ⟨[[97]], [[[98]]]⟩ := by
    refine ⟨by simp, by simp, ?_⟩
    simp only [IsCell]
    decide
  refine ⟨hshaped, ((roundTrip_iff _ []).1 hshaped).2 ⟨?_, ?_⟩⟩
  · simp only [TableData.NoBars]
    decide
  · decide

/-- The row ---, the cell b|c, and the line |---|x| below a single column. -/
theorem row_of_dashes_lost :
    TableData.Shaped ⟨[[97]], [[[45, 45, 45]]]⟩ ∧
    parseGfmTable (serializeGfmTable ⟨[[97]], [[[45, 45, 45]]]⟩) ≠ ⟨[[97]], [[[45, 45, 45]]]⟩ ∧
    parseGfmTable (serializeGfmTable ⟨[[97]], [[[98, 124, 99]]]⟩) ≠ ⟨[[97]], [[[98, 124, 99]]]⟩ ∧
    parseGfmTable (serializeGfmTable (parseGfmTable [97, 10, 45, 10, 124, 45, 45, 45, 124, 120, 124])) ≠
      parseGfmTable [97, 10, 45, 10, 124, 45, 45, 45, 124, 120, 124] := by
  refine ⟨⟨by simp, by simp, ?_⟩, by decide, by decide, by decide⟩
  simp only [IsCell]
  decide

end Savoire.Gfm
