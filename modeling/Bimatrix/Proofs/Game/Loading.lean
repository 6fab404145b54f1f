import Mathlib.Data.List.Forall2
import Mathlib.Tactic
import Bimatrix.Document
import Bimatrix.Proofs.Csv
import Bimatrix.Proofs.Decimal.Short
import Bimatrix.Proofs.Game.Rows
import Bimatrix.Proofs.Json.Record
import Bimatrix.Proofs.Json.Value
import Bimatrix.Proofs.Octets

/-! # Games on file

A game of short numerals is one game in both kinds of files: a JSON object with any layout and
further keys, and two sheets of comma-separated rows.
-/
namespace Bimatrix

namespace Numeral

/-- The nearest number to a strict numeral. -/
def nearest? (lexeme : List Char) : Option Float := (ofStrict? lexeme).map nearest

def written? (lexeme : List Char) : Option ℚ := (ofStrict? lexeme).map written

def IsShort (lexeme : List Char) : Prop := ∃ x, ofStrict? lexeme = some x ∧ x.Short

instance (lexeme : List Char) : Decidable (IsShort lexeme) :=
  decidable_of_iff ((ofStrict? lexeme).any (fun x => decide x.Short) = true) <| by
    simp [IsShort, Option.any_eq_true]

variable {lexeme : List Char}

theorem isBare_of_ofStrict? {x : Numeral} (h : ofStrict? lexeme = some x) : Csv.IsBare lexeme := by
  have hchar {c : Char} (hc : IsNumeralChar c) :
      c.toNat < 128 ∧ Csv.isBlank c = false ∧ c ≠ ',' ∧ c ≠ '"' := by
    obtain hdigit | hother := hc
    · have hrange : 48 ≤ c.toNat ∧ c.toNat ≤ 57 := by
        simpa [Char.isDigit, UInt32.le_iff_toNat_le] using hdigit
      have hblank : Csv.isBlank c = false := by
        simp only [Csv.isBlank, Bool.or_eq_false_iff, Bool.and_eq_false_iff, decide_eq_false_iff_not,
          beq_eq_false_iff_ne]
        omega
      refine ⟨by omega, hblank, ?_, ?_⟩ <;> (rintro rfl; cases hdigit)
    · have hall : ∀ d ∈ ['-', '+', '.', 'e', 'E'],
          d.toNat < 128 ∧ Csv.isBlank d = false ∧ d ≠ ',' ∧ d ≠ '"' := by decide
      exact hall c hother
  exact ⟨ne_nil_of_ofStrict? h, fun c hc => (hchar (isNumeralChar_of_ofStrict? h c hc)).1,
    fun c hc => (hchar (isNumeralChar_of_ofStrict? h c hc)).2⟩

/-- A short numeral is one finite number for both readers. -/
theorem IsShort.readings (h : IsShort lexeme) :
    ∃ u, nearest? lexeme = some u ∧ u.isFinite = true ∧
      (Json.Value.number lexeme).float? = some u ∧ readFloat? lexeme = some u := by
  obtain ⟨x, hx, hshort⟩ := h
  obtain ⟨hstepwise, hfinite⟩ := hshort.stepwise?_eq (lt_ten_of_ofStrict? hx)
  refine ⟨x.nearest, by rw [nearest?, hx, Option.map_some], hfinite, ?_, ?_⟩
  · rw [Json.Value.float?, hx, Option.bind_some, hstepwise]
  · rw [readFloat?, ofLoose?_of_ofStrict? hx]

theorem IsShort.map_rounded (h : IsShort lexeme) {u : Float} (hu : nearest? lexeme = some u) :
    (written? lexeme).map Binary64.rounded = some (Binary64.value u) := by
  obtain ⟨x, hx, hshort⟩ := h
  rw [nearest?, hx, Option.map_some, Option.some.injEq] at hu
  rw [written?, hx, Option.map_some, Option.map_some, ← hu,
    hshort.value_nearest (lt_ten_of_ofStrict? hx)]

theorem IsShort.isBare (h : IsShort lexeme) : Csv.IsBare lexeme := by
  obtain ⟨x, hx, -⟩ := h
  exact isBare_of_ofStrict? hx

end Numeral

namespace Game

open Numeral Json Json.Value Table

theorem mapM_eq_ok_of_forall₂ {α β ε : Type} {f : α → Except ε β} {xs : List α} {ys : List β}
    (h : List.Forall₂ (fun x y => f x = .ok y) xs ys) : xs.mapM f = .ok ys := by
  induction h with
  | nil => rfl
  | cons head _ ih =>
    rw [List.mapM_cons, head, ih]
    rfl

section Readers

variable {rows : List (List (List Char))} {u : List Char → Float}

def listed (rows : List (List (List Char))) : Value := list (rows.map fun row => list (row.map number))

theorem valid_listed (h : ∀ row ∈ rows, ∀ lexeme ∈ row, (ofStrict? lexeme).isSome = true) :
    (listed rows).Valid := by
  refine .list fun v hv => ?_
  obtain ⟨row, hrow, rfl⟩ := List.mem_map.mp hv
  refine .list fun v hv => ?_
  obtain ⟨lexeme, hlexeme, rfl⟩ := List.mem_map.mp hv
  exact .number (h row hrow lexeme hlexeme)

theorem payoffs?_listed (h : ∀ row ∈ rows, ∀ lexeme ∈ row, (number lexeme).float? = some (u lexeme)) :
    (listed rows).payoffs? = some (rows.map (·.map u)) := by
  rw [listed, payoffs?, items?, Option.bind_eq_bind, Option.bind_some]
  refine mapM_eq_some_of_forall₂ (List.forall₂_map_left_iff.mpr (List.forall₂_map_right_iff.mpr
    (List.forall₂_same.mpr fun row hrow => ?_)))
  rw [items?, Option.bind_eq_bind, Option.bind_some]
  exact mapM_eq_some_of_forall₂ (List.forall₂_map_left_iff.mpr (List.forall₂_map_right_iff.mpr
    (List.forall₂_same.mpr (h row hrow))))

theorem recordNumbers_eq {row : List (List Char)} {r : Csv.Record}
    (h : ∀ lexeme ∈ row, Csv.IsBare lexeme ∧ readFloat? lexeme = some (u lexeme))
    (hr : List.Forall₂ Csv.Reads row r) (path : String) :
    recordNumbers path row.length r = .ok (row.map u) := by
  have htexts : ∃ texts, r.mapM Csv.text? = some texts ∧
      List.Forall₂ (fun (text : String) lexeme =>
        readFloat? (Csv.trim text.toList) = some (u lexeme)) texts row := by
    induction hr with
    | nil => exact ⟨[], rfl, .nil⟩
    | cons head rest ih =>
      rw [List.forall_mem_cons] at h
      obtain ⟨⟨hbare, hread⟩, hrest⟩ := h
      obtain ⟨text, htext, htrim⟩ := head.text?_eq hbare
      obtain ⟨texts, htexts, hreads⟩ := ih hrest
      exact ⟨text :: texts, by simp [htext, htexts], .cons (htrim ▸ hread) hreads⟩
  obtain ⟨texts, htexts, hreads⟩ := htexts
  unfold recordNumbers
  rw [htexts]
  dsimp only
  rw [if_pos hreads.length_eq]
  refine mapM_eq_ok_of_forall₂ (List.forall₂_map_right_iff.mpr (hreads.imp fun text lexeme h => ?_))
  rw [h]

theorem length_headD_of_reads {rs : List Csv.Record}
    (h : List.Forall₂ (List.Forall₂ Csv.Reads) rows rs) : (rs.headD []).length = width rows := by
  cases h with
  | nil => rfl
  | cons head rest => exact head.length_eq.symm

theorem csvRows?_of_sheet
    (h : ∀ row ∈ rows, ∀ lexeme ∈ row, Csv.IsBare lexeme ∧ readFloat? lexeme = some (u lexeme))
    (rectangular : Rectangular rows) {cs : List Char} (sheet : Csv.Sheet cs rows) (path : String) :
    csvRows? path (some (String.ofList cs).toUTF8) = .ok (rows.map (·.map u)) := by
  have hrecords := Csv.records_of_sheet sheet fun row hrow field hfield => (h row hrow field hfield).1
  have hrows := (List.forall₂_and_left rows _).mpr
    ⟨fun row hrow => And.intro (rectangular row hrow) (h row hrow), hrecords⟩
  unfold csvRows?
  dsimp only
  rw [length_headD_of_reads hrecords]
  refine mapM_eq_ok_of_forall₂ (List.forall₂_map_right_iff.mpr (.flip (hrows.imp ?_)))
  rintro row r ⟨⟨hlength, hrow⟩, hr⟩
  rw [← hlength]
  exact recordNumbers_eq hrow hr path

end Readers

section Rows

variable {row column : List (List Float)}

/-- Two files of rows make the game that the rows make. -/
theorem ofCsv?_of_csvRows? {rowPath columnPath : String}
    {rowContent columnContent : Option ByteArray} (hrow : csvRows? rowPath rowContent = .ok row)
    (hcolumn : csvRows? columnPath columnContent = .ok column) :
    ofCsv? rowPath rowContent columnPath columnContent = ofSizedRows? row column := by
  rw [ofCsv?, hrow, hcolumn, ofSizedRows?, ofRows?]
  change (Table.ofRows? row >>= fun rowTable => Table.ofRows? column >>= _) = _
  cases Table.ofRows? row with
  | error f => rfl
  | ok rowTable =>
    cases Table.ofRows? column with
    | error f => rfl
    | ok columnTable =>
      change ofPayoffs? _ _ >>= _ = Except.map _ (ofPayoffs? _ _)
      cases (ofPayoffs? rowTable.entry columnTable.entry :
        Except Fault (Game Float row.length (width row))) with
      | error f => rfl
      | ok g => rfl

/-- An object that holds two tables makes the game of their rows, whatever other keys it has. -/
theorem ofJson?_of_layout {fields : List (List ℕ × Value)} {v w : Value}
    (valid : (object fields).Valid) (decodes : ∀ f ∈ fields, (decode? f.1).isSome = true)
    (player1 : Holds fields "player1".toList v) (player2 : Holds fields "player2".toList w)
    (hv : v.payoffs? = some row) (hw : w.payoffs? = some column) {cs : List Char}
    (hcs : Layout cs (object fields).tokens) (path : String) :
    ofJson? path (some (String.ofList cs).toUTF8) = ofSizedRows? row column := by
  have hgame : (object fields).game? = some (row, column) := by
    rw [game?, record?_object decodes (.cons player1 (.cons player2 .nil)), Option.bind_eq_bind,
      Option.bind_some]
    dsimp only
    rw [hv, hw]
    rfl
  simp only [ofJson?, Option.bind_some, fromUTF8?_toUTF8, String.toList_ofList,
    parse?_of_layout valid hcs, hgame]

theorem exists_ofSizedRows? (h : Acceptable row column) :
    ∃ G : SizedGame Float, ofSizedRows? row column = .ok G ∧ G.game.row.Lists row ∧
      G.game.column.Lists column := by
  obtain ⟨g, hg, -, hrow, hcolumn⟩ | ⟨cause, -, hrefused⟩ := ofRows?_cases row column
  · exact ⟨⟨_, _, g⟩, by rw [ofSizedRows?, hg]; rfl, hrow, hcolumn⟩
  · exact absurd h hrefused.not_acceptable

end Rows

variable {row column rows : List (List (List Char))}

def AllShort (rows : List (List (List Char))) : Prop := ∀ row ∈ rows, ∀ lexeme ∈ row, IsShort lexeme

instance (rows : List (List (List Char))) : Decidable (AllShort rows) :=
  inferInstanceAs (Decidable (∀ row ∈ rows, ∀ lexeme ∈ row, IsShort lexeme))

/-- The numbers that rows of numerals stand for. -/
def numbers (rows : List (List (List Char))) : List (List Float) :=
  rows.map (·.map fun lexeme => (nearest? lexeme).getD 0)

theorem AllShort.payoffs?_listed (h : AllShort rows) :
    (listed rows).payoffs? = some (numbers rows) := by
  refine Game.payoffs?_listed fun row hrow lexeme hlexeme => ?_
  obtain ⟨u, hu, -, hfloat, -⟩ := (h row hrow lexeme hlexeme).readings
  rw [hfloat, hu, Option.getD_some]

theorem AllShort.csvRows?_of_sheet (h : AllShort rows) (rectangular : Rectangular rows)
    {cs : List Char} (sheet : Csv.Sheet cs rows) (path : String) :
    csvRows? path (some (String.ofList cs).toUTF8) = .ok (numbers rows) := by
  refine Game.csvRows?_of_sheet (fun row hrow lexeme hlexeme => ?_) rectangular sheet path
  obtain ⟨u, hu, -, -, hread⟩ := (h row hrow lexeme hlexeme).readings
  exact ⟨(h row hrow lexeme hlexeme).isBare, by rw [hread, hu, Option.getD_some]⟩

theorem width_numbers (rows : List (List (List Char))) : width (numbers rows) = width rows := by
  cases rows with
  | nil => rfl
  | cons row rows => exact List.length_map _

theorem rectangular_numbers (h : Rectangular rows) : Rectangular (numbers rows) := by
  intro us hus
  obtain ⟨row, hrow, rfl⟩ := List.mem_map.mp hus
  rw [List.length_map, width_numbers, h row hrow]

theorem AllShort.isFinite (h : AllShort rows) : ∀ us ∈ numbers rows, ∀ u ∈ us, u.isFinite = true := by
  intro us hus u hu
  obtain ⟨row, hrow, rfl⟩ := List.mem_map.mp hus
  obtain ⟨lexeme, hlexeme, rfl⟩ := List.mem_map.mp hu
  obtain ⟨u, hu, hfinite, -⟩ := (h row hrow lexeme hlexeme).readings
  rwa [hu]

/-- The number at a place is the nearest to the numeral there. -/
theorem AllShort.exists_cell? (h : AllShort rows) {i j : ℕ} {u : Float}
    (hu : cell? (numbers rows) i j = some u) :
    ∃ lexeme, cell? rows i j = some lexeme ∧ IsShort lexeme ∧ nearest? lexeme = some u := by
  obtain ⟨us, hus, hcell⟩ := Option.bind_eq_some_iff.mp hu
  rw [numbers, List.getElem?_map, Option.map_eq_some_iff] at hus
  obtain ⟨row, hrow, rfl⟩ := hus
  rw [List.getElem?_map, Option.map_eq_some_iff] at hcell
  obtain ⟨lexeme, hlexeme, rfl⟩ := hcell
  have hshort := h row (List.mem_of_getElem? hrow) lexeme (List.mem_of_getElem? hlexeme)
  obtain ⟨u, hu, -⟩ := hshort.readings
  refine ⟨lexeme, ?_, hshort, by rw [hu, Option.getD_some]⟩
  rw [cell?, hrow, Option.bind_some, hlexeme]

theorem AllShort.cell?_bind_nearest? (h : AllShort rows) {i j : ℕ} {u : Float}
    (hu : cell? (numbers rows) i j = some u) : (cell? rows i j).bind nearest? = some u := by
  obtain ⟨lexeme, hcell, -, hnearest⟩ := h.exists_cell? hu
  rw [hcell, Option.bind_some, hnearest]

theorem AllShort.cell?_bind_written? (h : AllShort rows) {i j : ℕ} {u : Float}
    (hu : cell? (numbers rows) i j = some u) :
    ((cell? rows i j).bind written?).map Binary64.rounded = some (Binary64.value u) := by
  obtain ⟨lexeme, hcell, hshort, hnearest⟩ := h.exists_cell? hu
  rw [hcell, Option.bind_some, hshort.map_rounded hnearest]

/-- Rows of short numerals of one shape without an empty side make a game. -/
theorem acceptable_numbers (shaped : Shaped row column) (rows_pos : 0 < row.length)
    (columns_pos : 0 < width row) (rowShort : AllShort row) (columnShort : AllShort column) :
    Acceptable (numbers row) (numbers column) := by
  refine acceptable_iff.mpr ⟨⟨rectangular_numbers shaped.row_rectangular,
    rectangular_numbers shaped.column_rectangular, ?_, ?_⟩, ?_, ?_, ?_⟩
  · simpa [numbers] using shaped.rows_eq
  · rw [width_numbers, width_numbers, shaped.columns_eq]
  · simpa [numbers] using rows_pos
  · rwa [width_numbers]
  · exact List.forall_mem_append.mpr ⟨rowShort.isFinite, columnShort.isFinite⟩

/-- Two tables of short numerals are read as one game from a JSON object that holds them and from two
sheets of their rows, however these are laid out.  The payoffs are the nearest numbers to the
numerals, at the same places: the number written there, rounded once. -/
theorem ofJson?_eq_ofCsv? (shaped : Shaped row column) (rows_pos : 0 < row.length)
    (columns_pos : 0 < width row) (rowShort : AllShort row) (columnShort : AllShort column)
    {fields : List (List ℕ × Value)} (valid : (object fields).Valid)
    (decodes : ∀ f ∈ fields, (decode? f.1).isSome = true)
    (player1 : Holds fields "player1".toList (listed row))
    (player2 : Holds fields "player2".toList (listed column))
    {json rowText columnText : List Char} (layout : Layout json (object fields).tokens)
    (rowSheet : Csv.Sheet rowText row) (columnSheet : Csv.Sheet columnText column)
    (path rowPath columnPath : String) :
    ∃ G : SizedGame Float, ofJson? path (some (String.ofList json).toUTF8) = .ok G ∧
      ofCsv? rowPath (some (String.ofList rowText).toUTF8) columnPath
        (some (String.ofList columnText).toUTF8) = .ok G ∧
      G.rows = row.length ∧ G.columns = width row ∧
      ∀ i j, (cell? row i.val j.val).bind nearest? = some (G.game.row.entry i j) ∧
        (cell? column i.val j.val).bind nearest? = some (G.game.column.entry i j) ∧
        ((cell? row i.val j.val).bind written?).map Binary64.rounded =
          some (Binary64.value (G.game.row.entry i j)) ∧
        ((cell? column i.val j.val).bind written?).map Binary64.rounded =
          some (Binary64.value (G.game.column.entry i j)) := by
  obtain ⟨G, hG, hrow, hcolumn⟩ :=
    exists_ofSizedRows? (acceptable_numbers shaped rows_pos columns_pos rowShort columnShort)
  refine ⟨G, ?_, ?_, ?_, ?_, fun i j => ⟨?_, ?_, ?_, ?_⟩⟩
  · rw [ofJson?_of_layout valid decodes player1 player2 rowShort.payoffs?_listed
      columnShort.payoffs?_listed layout, hG]
  · rw [ofCsv?_of_csvRows? (rowShort.csvRows?_of_sheet shaped.row_rectangular rowSheet rowPath)
      (columnShort.csvRows?_of_sheet shaped.column_rectangular columnSheet columnPath), hG]
  · rw [← hrow.length_eq, numbers, List.length_map]
  · rw [← hrow.width_eq, width_numbers]
  · exact rowShort.cell?_bind_nearest? (hrow.cell i j)
  · exact columnShort.cell?_bind_nearest? (hcolumn.cell i j)
  · exact rowShort.cell?_bind_written? (hrow.cell i j)
  · exact columnShort.cell?_bind_written? (hcolumn.cell i j)

/-- Two columns, in an object with its keys the other way round and a third key, and in sheets with an
empty line, padding and a line end of two characters. -/
theorem ofJson?_eq_ofCsv?_twoColumns :
    ∃ G : SizedGame Float,
      ofJson? "g" (some (String.ofList
        "\x7b\"player2\":[[7,1e+22]], \"x\":null,\n\"player1\":[[0.1,-2E3]]\x7d".toList).toUTF8) =
          .ok G ∧
      ofCsv? "r" (some (String.ofList "\n 0.1,\t-2E3 \r\n".toList).toUTF8) "c"
        (some (String.ofList "7,1e+22".toList).toUTF8) = .ok G ∧ G.rows = 1 ∧ G.columns = 2 := by
  have hrow : AllShort [["0.1".toList, "-2E3".toList]] := by decide
  have hcolumn : AllShort [["7".toList, "1e+22".toList]] := by decide
  have hshaped : Shaped [["0.1".toList, "-2E3".toList]] [["7".toList, "1e+22".toList]] :=
    ⟨by decide, by decide, rfl, rfl⟩
  have hlayout :
      Layout "\x7b\"player2\":[[7,1e+22]], \"x\":null,\n\"player1\":[[0.1,-2E3]]\x7d".toList
        (object [("player2".toList.map Char.toNat, listed [["7".toList, "1e+22".toList]]),
          ("x".toList.map Char.toNat, null),
          ("player1".toList.map Char.toNat, listed [["0.1".toList, "-2E3".toList]])]).tokens := by
    have htext : "\x7b\"player2\":[[7,1e+22]], \"x\":null,\n\"player1\":[[0.1,-2E3]]\x7d".toList =
        '\x7b' :: '"' :: ("player2".toList ++ '"' :: ':' :: '[' :: '[' :: ("7".toList ++ ',' ::
          ("1e+22".toList ++ ']' :: ']' :: ',' :: ' ' :: '"' :: ("x".toList ++ '"' :: ':' ::
            ("null".toList ++ ',' :: '\n' :: '"' :: ("player1".toList ++ '"' :: ':' :: '[' :: '[' ::
              ("0.1".toList ++ ',' :: ("-2E3".toList ++ [']', ']', '\x7d'])))))))) := by
      decide +kernel
    have hends {c : Char} {t : Token} {cs : List Char} (h : mark? c = some t) :
        EndsWord (c :: cs) := not_isWordChar_of_mark h
    rw [htext]
    simp only [listed, Value.tokens, itemTokens, fieldTokens, List.map_cons, List.map_nil,
      List.cons_append, List.nil_append]
    refine .mark rfl (.key (by decide) (.mark rfl (.mark rfl (.mark rfl ?_))))
    refine .word (by decide) (by decide) (hends rfl) (.mark rfl ?_)
    refine .word (by decide) (by decide) (hends rfl) (.mark rfl (.mark rfl (.mark rfl ?_)))
    refine .blank rfl (.key (by decide) (.mark rfl ?_))
    refine .word (by decide) (by decide) (hends rfl) (.mark rfl (.blank rfl ?_))
    refine .key (by decide) (.mark rfl (.mark rfl (.mark rfl ?_)))
    refine .word (by decide) (by decide) (hends rfl) (.mark rfl ?_)
    exact .word (by decide) (by decide) (hends rfl) (.mark rfl (.mark rfl (.mark rfl .nil)))
  have hvalid : (listed [["0.1".toList, "-2E3".toList]]).Valid := valid_listed (by decide)
  have hvalid' : (listed [["7".toList, "1e+22".toList]]).Valid := valid_listed (by decide)
  have hrowSheet : Csv.Sheet "\n 0.1,\t-2E3 \r\n".toList [["0.1".toList, "-2E3".toList]] := by
    have hfield : Csv.Padded "0.1".toList " 0.1".toList := ⟨[' '], [], rfl, by decide⟩
    have hline : Csv.Line " 0.1,\t-2E3 ".toList ["0.1".toList, "-2E3".toList] :=
      .cons hfield (.last ⟨['\t'], [' '], rfl, by decide⟩)
    exact .blank (.inl rfl) (.line hline (.inr rfl) (.blank (.inl rfl) .nil))
  have hcolumnSheet : Csv.Sheet "7,1e+22".toList [["7".toList, "1e+22".toList]] :=
    .last (.cons (Csv.padded_self "7".toList) (.last (Csv.padded_self "1e+22".toList)))
  obtain ⟨G, hjson, hcsv, hrows, hcolumns, -⟩ := ofJson?_eq_ofCsv? hshaped (by decide) (by decide)
    hrow hcolumn (.object (by simpa [Value.Valid.null] using ⟨hvalid', hvalid⟩)) (by decide)
    ⟨[_, _], _, [], rfl, decode?_map_toNat "player1".toList, by decide⟩
    ⟨[], _, [_, _], rfl, decode?_map_toNat "player2".toList, by decide⟩ hlayout hrowSheet
    hcolumnSheet "g" "r" "c"
  exact ⟨G, hjson, hcsv, hrows, hcolumns⟩

/-- A numeral of two digits with the exponent -22, the last digit of which counts 10⁻²³: the two kinds
of files hold two different games. -/
theorem ofJson?_ne_ofCsv?_lastDigit :
    (∃ x, ofStrict? "1.5e-22".toList = some x ∧ x.significantDigits.length ≤ 15 ∧
        x.exponent.natAbs ≤ 22) ∧
      ∃ G H, ofJson? "g" (some (String.ofList
          "\x7b\"player1\":[[1.5e-22]],\"player2\":[[0]]\x7d".toList).toUTF8) = .ok G ∧
        ofCsv? "r" (some (String.ofList "1.5e-22".toList).toUTF8) "c"
          (some (String.ofList "0".toList).toUTF8) = .ok H ∧ G ≠ H := by
  have hstrict : ofStrict? "1.5e-22".toList = some ⟨false, [1], [5], -22⟩ := rfl
  have hzero : AllShort [["0".toList]] := by decide
  obtain ⟨u, hstepwise, hfinite, hfinite', hne⟩ := exists_stepwise?_ne_nearest
  have haccept {v : Float} (hv : v.isFinite = true) : Acceptable [[v]] (numbers [["0".toList]]) := by
    refine acceptable_iff.mpr ⟨⟨by simp [Rectangular, width], by decide, rfl, rfl⟩, Nat.one_pos,
      Nat.one_pos, List.forall_mem_append.mpr ⟨by simp [hv], hzero.isFinite⟩⟩
  obtain ⟨G, hG, hGrow, -⟩ := exists_ofSizedRows? (haccept hfinite)
  obtain ⟨H, hH, hHrow, -⟩ := exists_ofSizedRows? (haccept hfinite')
  refine ⟨⟨_, hstrict, by decide, by decide⟩, G, H, ?_, ?_, ?_⟩
  · have htext : "\x7b\"player1\":[[1.5e-22]],\"player2\":[[0]]\x7d".toList =
        '\x7b' :: '"' :: ("player1".toList ++ '"' :: ':' :: '[' :: '[' :: ("1.5e-22".toList ++
          ']' :: ']' :: ',' :: '"' :: ("player2".toList ++ '"' :: ':' :: '[' :: '[' ::
            ("0".toList ++ [']', ']', '\x7d'])))) := by decide +kernel
    have hlayout : Layout "\x7b\"player1\":[[1.5e-22]],\"player2\":[[0]]\x7d".toList
        (object [("player1".toList.map Char.toNat, listed [["1.5e-22".toList]]),
          ("player2".toList.map Char.toNat, listed [["0".toList]])]).tokens := by
      have hends {c : Char} {t : Token} {cs : List Char} (h : mark? c = some t) :
          EndsWord (c :: cs) := not_isWordChar_of_mark h
      rw [htext]
      simp only [listed, Value.tokens, itemTokens, fieldTokens, List.map_cons, List.map_nil,
        List.cons_append, List.nil_append]
      refine .mark rfl (.key (by decide) (.mark rfl (.mark rfl (.mark rfl ?_))))
      refine .word (by decide) (by decide) (hends rfl) (.mark rfl (.mark rfl (.mark rfl ?_)))
      refine .key (by decide) (.mark rfl (.mark rfl (.mark rfl ?_)))
      exact .word (by decide) (by decide) (hends rfl) (.mark rfl (.mark rfl (.mark rfl .nil)))
    have hvalid : (listed [["1.5e-22".toList]]).Valid := valid_listed (by decide)
    have hvalid' : (listed [["0".toList]]).Valid := valid_listed (by decide)
    have hpayoffs : (listed [["1.5e-22".toList]]).payoffs? = some [[u]] := by
      refine payoffs?_listed (u := fun _ => u) ?_
      simp only [List.forall_mem_cons, List.not_mem_nil, IsEmpty.forall_iff, implies_true, and_true]
      rw [float?, hstrict, Option.bind_some, hstepwise]
    rw [ofJson?_of_layout (.object (by simpa using ⟨hvalid, hvalid'⟩)) (by decide)
      ⟨[], _, [_], rfl, decode?_map_toNat "player1".toList, by decide⟩
      ⟨[_], _, [], rfl, decode?_map_toNat "player2".toList, by decide⟩ hpayoffs
      hzero.payoffs?_listed hlayout]
    exact hG
  · have hrows : csvRows? "r" (some (String.ofList "1.5e-22".toList).toUTF8) =
        .ok [[nearest ⟨false, [1], [5], -22⟩]] := by
      refine csvRows?_of_sheet (u := fun _ => nearest ⟨false, [1], [5], -22⟩) ?_ (by decide)
        (.last (.last (Csv.padded_self _))) "r"
      simp only [List.forall_mem_cons, List.not_mem_nil, IsEmpty.forall_iff, implies_true, and_true]
      exact ⟨isBare_of_ofStrict? hstrict, by rw [readFloat?, ofLoose?_of_ofStrict? hstrict]⟩
    rw [ofCsv?_of_csvRows? hrows
      (hzero.csvRows?_of_sheet (by decide) (.last (.last (Csv.padded_self _))) "c")]
    exact hH
  · rintro rfl
    have hrows : 0 < G.rows := hGrow.length_eq ▸ Nat.one_pos
    have hcolumns : 0 < G.columns := hGrow.width_eq ▸ Nat.one_pos
    have hcell := (hGrow.cell ⟨0, hrows⟩ ⟨0, hcolumns⟩).trans
      (hHrow.cell ⟨0, hrows⟩ ⟨0, hcolumns⟩).symm
    exact hne (Option.some.inj hcell)

end Game

end Bimatrix
