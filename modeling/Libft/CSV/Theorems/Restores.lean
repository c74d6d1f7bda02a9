import Libft.CSV.Document
import Libft.Lib.Lists

/-!
# Parsing what was written

The writer puts a table down row by row, and the parser comes back to the table (`parseContent_writeToString`). Between two fields the
state of the parser is the part of the table it has read (`readUpTo`): each field takes it one field further, and the line break after
a row one row further.
-/

namespace Libft.CSV

open List Scan Option Document CSV.Parser

namespace Parser

variable {delimiter : UInt8} {p : Parser} {tl : Bytes} {field : Bytes}

theorem length_afterLineBreak_le (c : UInt8) (tl : Bytes) : (afterLineBreak c tl).length ≤ tl.length := by
  unfold afterLineBreak
  split
  · simp
  · exact le_refl _

theorem consumes_turn (delimiter : UInt8) : Consumes (turn delimiter) where
  next := by
    intro p x p' tl' h
    cases x with
    | nil => cases h
    | cons c tl =>
      have hb := length_afterLineBreak_le c tl
      simp only [turn] at h
      split_ifs at h <;> cases h <;> simp <;> omega
  stop := by
    intro p x r tl' h
    cases x with
    | nil =>
      cases h
      exact le_refl _
    | cons c tl =>
      simp only [turn] at h
      split_ifs at h

/-- Characters that mean nothing to the parser go into the field. -/
theorem loop_plain (hf : ∀ c ∈ field, c ≠ delimiter ∧ c ≠ newline ∧ c ≠ carriageReturn ∧ c ≠ quote)
    (hne : field ≠ []) (hq : p.inQuotes = false) (hc : p.quoteClosed = false) :
    loop (turn delimiter) p (field ++ tl) =
      loop (turn delimiter) { p with currentField := p.currentField ++ field, fieldStarted := true } tl := by
  induction field generalizing p with
  | nil => exact absurd rfl hne
  | cons c field ih =>
    obtain ⟨h1, h2, h3, h4⟩ := hf c mem_cons_self
    have ht : turn delimiter p (c :: (field ++ tl)) =
        .next { p with currentField := p.currentField ++ [c], fieldStarted := true } (field ++ tl) := by
      simp [turn, hq, hc, h1, h2, h3, h4]
    rw [cons_append, loop_next (consumes_turn delimiter) ht]
    by_cases hl : field = []
    · rw [hl]
      rfl
    · have hs := ih (p := { p with currentField := p.currentField ++ [c], fieldStarted := true }) (forall_mem_cons.mp hf).2 hl hq hc
      rw [hs]
      simp

/-- Between quotes every character goes into the field, a quote from two of them. -/
theorem loop_quoted (delimiter : UInt8) (field : Bytes) (hq : p.inQuotes = true) (hcl : p.quoteClosed = false)
    (hr : tl.head? ≠ some quote) :
    loop (turn delimiter) p ((field.flatMap fun c => if c = quote then [quote, c] else [c]) ++ quote :: tl) =
      loop (turn delimiter) { p with currentField := p.currentField ++ field, inQuotes := false, quoteClosed := true } tl := by
  induction field generalizing p with
  | nil =>
    have ht : turn delimiter p (quote :: tl) = .next { p with inQuotes := false, quoteClosed := true } tl := by
      simp [turn, hq, hcl, hr]
    rw [flatMap_nil, nil_append, loop_next (consumes_turn delimiter) ht, append_nil]
  | cons c field ih =>
    obtain ⟨text, htx⟩ : ∃ text, (field.flatMap fun c => if c = quote then [quote, c] else [c]) = text := ⟨_, rfl⟩
    rw [htx] at ih
    have ht : turn delimiter p ((if c = quote then [quote, c] else [c]) ++ (text ++ quote :: tl)) =
        .next { p with currentField := p.currentField ++ [c] } (text ++ quote :: tl) := by
      by_cases hc : c = quote <;> simp [turn, hq, hcl, hc]
    have hs := ih (p := { p with currentField := p.currentField ++ [c] }) hq hcl
    rw [flatMap_cons, htx, append_assoc, loop_next (consumes_turn delimiter) ht, hs]
    simp

/-- The parser after some rows, and some fields of the next row. -/
def readUpTo (rows : List (List Bytes)) (row : List Bytes) : Parser where
  fields := rows.flatten ++ row
  rowOffsets := rowStarts 0 rows
  rowLengths := rows.map length
  rowFieldCount := row.length
  rowOffset := rows.flatten.length

/-- The parser at the end of a field. -/
def readField (rows : List (List Bytes)) (row : List Bytes) (field : Bytes) (quoted : Bool) : Parser :=
  { readUpTo rows row with currentField := field, fieldStarted := true, quoteClosed := quoted }

variable {rows : List (List Bytes)} {row : List Bytes}

/-- A field that needs no quotes. -/
theorem plain_of_fieldNeedsQuotes (h : fieldNeedsQuotes field delimiter = false) :
    field ≠ [] ∧ ∀ c ∈ field, c ≠ delimiter ∧ c ≠ newline ∧ c ≠ carriageReturn ∧ c ≠ quote := by
  unfold fieldNeedsQuotes at h
  split_ifs at h with hl _ _
  refine ⟨fun hnil => hl (by rw [hnil]; rfl), fun c hc => ?_⟩
  have hc' := any_eq_false.mp h c hc
  simp only [Bool.or_eq_true, beq_iff_eq, not_or] at hc'
  exact ⟨hc'.1.1.1, hc'.1.2, hc'.2, hc'.1.1.2⟩

theorem loop_escapedField (hd : delimiter ≠ quote) (field : Bytes) (hr : tl.head? ≠ some quote) :
    loop (turn delimiter) (readUpTo rows row) (escapedField field delimiter ++ tl) =
      loop (turn delimiter) (readField rows row field (fieldNeedsQuotes field delimiter)) tl := by
  unfold escapedField
  split
  · rename_i hp
    obtain ⟨hne, hc⟩ := plain_of_fieldNeedsQuotes hp
    rw [loop_plain hc hne rfl rfl, hp]
    rfl
  · rename_i hq
    have ht : ∀ text, turn delimiter (readUpTo rows row) (quote :: text) =
        .next { readUpTo rows row with inQuotes := true, fieldStarted := true } text := by
      intro text
      have hne : quote ≠ newline ∧ quote ≠ carriageReturn := by decide
      simp [turn, readUpTo, Ne.symm hd, hne.1, hne.2]
    rw [append_assoc, cons_append, loop_next (consumes_turn delimiter) (ht _), singleton_append]
    have hl := loop_quoted (p := { readUpTo rows row with inQuotes := true, fieldStarted := true }) delimiter field rfl rfl hr
    rw [hl, (Bool.not_eq_false _).mp hq]
    rfl

/-- After the delimiter, the field is in the row. -/
theorem loop_delimiter (field : Bytes) (quoted : Bool) :
    loop (turn delimiter) (readField rows row field quoted) (delimiter :: tl) =
      loop (turn delimiter) (readUpTo rows (row ++ [field])) tl := by
  have ht : turn delimiter (readField rows row field quoted) (delimiter :: tl) = .next (readUpTo rows (row ++ [field])) tl := by
    cases quoted <;> simp [turn, readField, readUpTo, finalizeField]
  rw [loop_next (consumes_turn delimiter) ht]

theorem rowStarts_append (n : ℕ) (rows : List (List Bytes)) (row : List Bytes) :
    rowStarts n (rows ++ [row]) = rowStarts n rows ++ [n + rows.flatten.length] := by
  induction rows generalizing n with
  | nil => rfl
  | cons first rows ih =>
    rw [cons_append, rowStarts, ih, rowStarts]
    simp [add_assoc]

/-- After the line break, the row is in the table. -/
theorem loop_newline (hd : delimiter ≠ newline) (field : Bytes) (quoted : Bool) :
    loop (turn delimiter) (readField rows row field quoted) (newline :: tl) =
      loop (turn delimiter) (readUpTo (rows ++ [row ++ [field]]) []) tl := by
  have hb : afterLineBreak newline tl = tl := if_neg fun h => absurd h.1 (by decide)
  have ht : turn delimiter (readField rows row field quoted) (newline :: tl) =
      .next (readUpTo (rows ++ [row ++ [field]]) []) tl := by
    cases quoted <;>
      simp [turn, readField, readUpTo, finalizeField, finalizeRow, nextRow, Ne.symm hd, hb, rowStarts_append]
  rw [loop_next (consumes_turn delimiter) ht]

/-- At the end of the text, the last row is in the table. -/
theorem finish_readField (field : Bytes) (quoted ha : Bool) :
    (readField rows row field quoted).finish delimiter ha =
      some (ofTable (rows ++ [row ++ [field]]) delimiter ha) := by
  simp [finish, readField, readUpTo, finalizeField, finalizeRow, ofTable, rowStarts_append]

end Parser

/-! ## The text of a table -/

/-- The text of a row. -/
def rowText (delimiter : UInt8) (row : List Bytes) : Bytes := [delimiter].intercalate (row.map (escapedField · delimiter))

/-- The text of a table. -/
def tableText (delimiter : UInt8) (table : List (List Bytes)) : Bytes := [newline].intercalate (table.map (rowText delimiter))

/-- A row has its start where the rows before it end. -/
theorem rowStarts_getElem? {tbl : List (List Bytes)} {row : List Bytes} {i : ℕ} (h : tbl[i]? = some row) (n : ℕ) :
    (rowStarts n tbl)[i]? = some (n + (tbl.take i).flatten.length) := by
  induction tbl generalizing i n with
  | nil => cases h
  | cons first tbl ih =>
    cases i with
    | zero => rfl
    | succ i =>
      rw [rowStarts, getElem?_cons_succ, ih h]
      simp [add_assoc]

variable {field : Bytes}

/-- The fields of a table are the fields of its document. -/
theorem getField_ofTable {tbl : List (List Bytes)} {row : List Bytes} {i j : ℕ} (hr : tbl[i]? = some row)
    (hf : row[j]? = some field) (delimiter : UInt8) (ha : Bool) :
    (ofTable tbl delimiter ha).columnCount i = row.length ∧
    (ofTable tbl delimiter ha).getField i j = some field := by
  obtain ⟨hi, hg⟩ := List.getElem?_eq_some_iff.mp hr
  obtain ⟨hj, -⟩ := List.getElem?_eq_some_iff.mp hf
  have hc : (ofTable tbl delimiter ha).columnCount i = row.length := by
    rw [columnCount, getD_eq_getElem?_getD]
    show ((tbl.map length)[i]?).getD 0 = _
    rw [getElem?_map, hr]
    rfl
  have hs : (rowStarts 0 tbl).getD i 0 = (tbl.take i).flatten.length := by
    rw [getD_eq_getElem?_getD, rowStarts_getElem? hr, zero_add]
    rfl
  have hsp : tbl.flatten = (tbl.take i).flatten ++ (row ++ (tbl.drop (i + 1)).flatten) := by
    conv_lhs => rw [← take_append_drop i tbl, drop_eq_getElem_cons hi, hg]
    simp
  refine ⟨hc, ?_⟩
  have hl : ¬(tbl.map length).length ≤ i := by simpa using hi
  rw [getField, hc, ofTable, if_neg hl, if_neg (not_le.mpr hj), hs, hsp,
    getElem?_append_right (Nat.le_add_right _ _), Nat.add_sub_cancel_left, getElem?_append_left hj, hf]

/-- What the writer makes of a table. -/
theorem writeToString_ofTable {tbl : List (List Bytes)} (hl : ∀ row ∈ tbl, ∀ field ∈ row, (0 : UInt8) ∉ field)
    (delimiter : UInt8) (ha : Bool) (hr : ∀ row ∈ tbl, row ≠ []) :
    (ofTable tbl delimiter ha).writeToString = some (tableText delimiter tbl) := by
  have ht : (ofTable tbl delimiter ha).rowCount = tbl.length := length_map _
  have hw : ∀ (i : ℕ) (row : List Bytes), tbl[i]? = some row →
      (ofTable tbl delimiter ha).writeRow i =
        some (rowText delimiter row ++ if i + 1 < tbl.length then [newline] else []) := by
    intro i row hi
    have hm : row ∈ tbl := mem_of_getElem? hi
    have hc : (ofTable tbl delimiter ha).columnCount i = row.length := by
      obtain ⟨field, f, rfl⟩ := exists_cons_of_ne_nil (hr row hm)
      exact (getField_ofTable (j := 0) hi rfl delimiter ha).1
    have hf : (range row.length).mapM ((ofTable tbl delimiter ha).writeField i) =
        some (row.mapIdx fun j field => (if 0 < j then [delimiter] else []) ++ escapedField field delimiter) := by
      refine mapM_range_eq_some fun j field hj => ?_
      rw [writeField, (getField_ofTable hi hj delimiter ha).2, map_some,
        cString_eq_self (hl row hm field (mem_of_getElem? hj))]
      rfl
    rw [writeRow, hc, hf, map_some, ht, rowText, flatten_mapIdx_before]
  rw [writeToString, ht, mapM_range_eq_some hw, map_some, tableText, flatten_mapIdx_after]

section Parsing

variable {delimiter : UInt8} (he : delimiter ≠ quote) (hn : delimiter ≠ newline)

include he in
/-- The fields of a row but the last. -/
theorem loop_rowText (rows : List (List Bytes)) (row : List Bytes) (fields : List Bytes) (last : Bytes) {tl : Bytes}
    (hr : tl.head? ≠ some quote) :
    loop (turn delimiter) (readUpTo rows row) (rowText delimiter (fields ++ [last]) ++ tl) =
      loop (turn delimiter) (readField rows (row ++ fields) last (fieldNeedsQuotes last delimiter)) tl := by
  induction fields generalizing row with
  | nil =>
    rw [rowText, nil_append, map_singleton, intercalate_singleton, append_nil, loop_escapedField he last hr]
  | cons field fields ih =>
    have ht : rowText delimiter (field :: fields ++ [last]) =
        escapedField field delimiter ++ (delimiter :: rowText delimiter (fields ++ [last])) := by
      rw [rowText, rowText, cons_append, map_cons, intercalate_cons_of_ne_nil _ _ (by simp)]
      rfl
    rw [ht, append_assoc, cons_append, loop_escapedField he field (by simpa using he), loop_delimiter, ih, append_assoc]
    rfl

include he hn in
/-- The rows of a table: the parser comes to the end of the last field of the last one. -/
theorem loop_tableText (rows tbl : List (List Bytes)) (row : List Bytes) (hr : ∀ row' ∈ tbl ++ [row], row' ≠ []) (ha : Bool) :
    ∃ p, loop (turn delimiter) (readUpTo rows []) (tableText delimiter (tbl ++ [row])) = some (p, []) ∧
      p.finish delimiter ha = some (ofTable (rows ++ (tbl ++ [row])) delimiter ha) := by
  induction tbl generalizing rows with
  | nil =>
    obtain ⟨f, last, rfl⟩ := (eq_nil_or_concat' row).resolve_left (hr row (by simp))
    have hl := loop_rowText he rows [] f last (show ([] : Bytes).head? ≠ some quote by simp)
    rw [append_nil] at hl
    refine ⟨readField rows f last (fieldNeedsQuotes last delimiter), ?_, finish_readField _ _ _⟩
    rw [tableText, nil_append, map_singleton, intercalate_singleton, hl]
    exact loop_stop rfl
  | cons first tbl ih =>
    obtain ⟨f, last, rfl⟩ := (eq_nil_or_concat' first).resolve_left (hr first (by simp))
    have ht : tableText delimiter ((f ++ [last]) :: tbl ++ [row]) =
        rowText delimiter (f ++ [last]) ++ (newline :: tableText delimiter (tbl ++ [row])) := by
      rw [tableText, tableText, cons_append, map_cons, intercalate_cons_of_ne_nil _ _ (by simp)]
      rfl
    obtain ⟨p, hl, hf⟩ := ih (rows ++ [f ++ [last]]) (forall_mem_cons.mp hr).2
    refine ⟨p, ?_, ?_⟩
    · rw [ht, loop_rowText he rows [] f last (by simp [newline, quote]), loop_newline hn, nil_append, hl]
    · rw [hf, append_assoc]
      rfl

end Parsing

theorem nul_notMem_intercalate {sep : Bytes} {l : List Bytes} (hs : (0 : UInt8) ∉ sep) (h : ∀ text ∈ l, (0 : UInt8) ∉ text) :
    (0 : UInt8) ∉ sep.intercalate l := by
  induction l with
  | nil => simp
  | cons a l ih =>
    cases l with
    | nil => simpa using h
    | cons b l =>
      rw [intercalate_cons_of_ne_nil _ _ (by simp), mem_append, mem_append]
      rintro (hm | hm | hm)
      · exact h a mem_cons_self hm
      · exact hs hm
      · exact ih (forall_mem_cons.mp h).2 hm

theorem nul_notMem_escapedField (h : (0 : UInt8) ∉ field) (delimiter : UInt8) : (0 : UInt8) ∉ escapedField field delimiter := by
  have he : (0 : UInt8) ≠ quote := by decide
  unfold escapedField
  split
  · exact h
  · simp only [cons_append, mem_cons, mem_append, mem_flatMap, not_mem_nil, or_false, not_or, he,
      not_false_eq_true, true_and, not_exists, not_and]
    intro c hc hm
    split at hm
    · simp only [mem_cons, not_mem_nil, or_false, he, false_or] at hm
      exact h (hm ▸ hc)
    · exact h (mem_singleton.mp hm ▸ hc)

/-- The rows of a document, read field by field. -/
def Document.table (d : Document) : List (List (Option Bytes)) :=
  (range d.rowCount).map fun row => (range (d.columnCount row)).map fun column => d.getField row column

theorem table_ofTable {tbl : List (List Bytes)} (hr : ∀ row ∈ tbl, row ≠ []) (delimiter : UInt8) (ha : Bool) :
    (ofTable tbl delimiter ha).table = tbl.map fun row => row.map some := by
  refine ext_getElem? fun i => ?_
  rw [Document.table, getElem?_map, getElem?_map, show (Document.ofTable tbl delimiter ha).rowCount = tbl.length from
    length_map _]
  cases hrow : tbl[i]? with
  | none =>
    rw [getElem?_eq_none (by simpa using hrow)]
    rfl
  | some row =>
    obtain ⟨hi, -⟩ := List.getElem?_eq_some_iff.mp hrow
    obtain ⟨field, f, hc⟩ := exists_cons_of_ne_nil (hr row (mem_of_getElem? hrow))
    have ht := (getField_ofTable (j := 0) hrow (by rw [hc]; rfl) delimiter ha).1
    rw [getElem?_range hi, map_some, map_some, ht]
    refine congrArg some (ext_getElem? fun j => ?_)
    rw [getElem?_map, getElem?_map]
    cases hf : row[j]? with
    | none =>
      rw [getElem?_eq_none (by simpa using hf)]
      rfl
    | some field =>
      obtain ⟨hj, -⟩ := List.getElem?_eq_some_iff.mp hf
      rw [getElem?_range hj, map_some, map_some, (getField_ofTable hrow hf delimiter ha).2]

/-- A table of at least one field a row, with any contents without zero bytes: what the writer makes of its document is parsed to the
same document, whose rows and fields are those of the table. -/
theorem parseContent_writeToString (table : List (List Bytes)) (delimiter : UInt8) (hasHeader : Bool)
    (hrows : ∀ row ∈ table, row ≠ []) (hnul : ∀ row ∈ table, ∀ field ∈ row, (0 : UInt8) ∉ field)
    (hdelimiter : delimiter ∉ [quote, newline, carriageReturn, 0]) :
    ∃ text, (Document.ofTable table delimiter hasHeader).writeToString = some text ∧
      parseContent text delimiter hasHeader = some (Document.ofTable table delimiter hasHeader) ∧
      (Document.ofTable table delimiter hasHeader).table = table.map fun row => row.map some := by
  simp only [mem_cons, not_mem_nil, or_false, not_or] at hdelimiter
  obtain ⟨he, hn, -, hz⟩ := hdelimiter
  refine ⟨tableText delimiter table, writeToString_ofTable hnul delimiter hasHeader hrows, ?_, ?_⟩
  · have htx : cString (tableText delimiter table) = tableText delimiter table := by
      refine cString_eq_self (nul_notMem_intercalate (by decide) fun text ht => ?_)
      obtain ⟨row, hr, rfl⟩ := mem_map.mp ht
      refine nul_notMem_intercalate (by simpa using Ne.symm hz) fun text ht => ?_
      obtain ⟨field, hfl, rfl⟩ := mem_map.mp ht
      exact nul_notMem_escapedField (hnul row hr field hfl) delimiter
    rw [parseContent, htx]
    rcases eq_nil_or_concat' table with rfl | ⟨front, row, rfl⟩
    · rfl
    · obtain ⟨p, hl, hf⟩ := loop_tableText he hn [] front row hrows hasHeader
      have hs : loop (turn delimiter) {} (tableText delimiter (front ++ [row])) = some (p, []) := hl
      rw [hs]
      exact hf
  · exact table_ofTable hrows delimiter hasHeader

/-- A row of one empty field, and fields with spaces, quotes, delimiters and line breaks. -/
theorem parseContent_writeToString_row :
    ∃ text, (Document.ofTable [[[]], [ascii " a", ascii "b\"", ascii "c;\r\n"]] 0x3b true).writeToString = some text ∧
      parseContent text 0x3b true = some (Document.ofTable [[[]], [ascii " a", ascii "b\"", ascii "c;\r\n"]] 0x3b true) ∧
      (Document.ofTable [[[]], [ascii " a", ascii "b\"", ascii "c;\r\n"]] 0x3b true).table =
        [[[]], [ascii " a", ascii "b\"", ascii "c;\r\n"]].map fun row => row.map some :=
  parseContent_writeToString [[[]], [ascii " a", ascii "b\"", ascii "c;\r\n"]] 0x3b true (by decide) (by decide) (by decide)

end Libft.CSV

/-!
## A newline at the end of the text

The end of the text ends a row as a line break does, unless the text ends in a delimiter (`parseContent_concat_newline_iff`): the empty
field after the delimiter is added to the row by a line break, and not by the end of the text.
-/

namespace Libft.CSV

open List Scan CSV.Parser

namespace Parser

variable {delimiter c : UInt8} {p q : Parser} {x tl : Bytes}

/-- A field in quotes has been started, and its quotes are not the delimiter. -/
structure Quoted (delimiter : UInt8) (p : Parser) : Prop where
  inQuotes : p.inQuotes = true → p.fieldStarted = true ∧ quote ≠ delimiter
  quoteClosed : p.quoteClosed = true → p.fieldStarted = true ∧ p.inQuotes = false

theorem Quoted.turn (hp : Quoted delimiter p) (h : turn delimiter p x = .next q tl) : Quoted delimiter q := by
  obtain ⟨hq, hc⟩ := hp
  cases x with
  | nil => cases h
  | cons a tail =>
    simp only [Parser.turn] at h
    split_ifs at h <;> cases h <;> constructor <;> simp_all [finalizeField, nextRow, finalizeRow]

/-- What a turn leaves is the end of the text. A turn looks one character past a carriage return and past a quote: where the text ends
there with a quote, a newline is as good as nothing. -/
theorem turn_concat_newline (hl : x.getLast? ≠ some carriageReturn) (h : turn delimiter p x = .next q tl) :
    tl <:+ x ∧ turn delimiter p (x ++ [newline]) = .next q (tl ++ [newline]) := by
  cases x with
  | nil => cases h
  | cons a tail =>
    simp only [turn, afterLineBreak] at h
    cases tail with
    | nil =>
      have ha : a ≠ carriageReturn := by simpa using hl
      have hq : newline ≠ quote := by decide
      split_ifs at h <;> cases h <;> simp_all [turn, afterLineBreak]
    | cons b tail =>
      have ht : tail <:+ a :: b :: tail := ⟨[a, b], rfl⟩
      split_ifs at h <;> cases h <;> simp_all [turn, afterLineBreak]

/-- After the last character a field is open, unless the character was a delimiter. -/
theorem started_iff (hp : Quoted delimiter p) (h : turn delimiter p x = .next q []) (hl : x.getLast? = some c)
    (hc : c ≠ newline ∧ c ≠ carriageReturn) (hq : q.inQuotes = false) :
    (q.fieldStarted = true ∨ 0 < q.currentField.length) ↔ c ≠ delimiter := by
  obtain ⟨ho, hcl⟩ := hp
  cases x with
  | nil => cases h
  | cons a tail =>
    simp only [turn, afterLineBreak] at h
    cases tail with
    | nil =>
      obtain rfl : a = c := by simpa using hl
      split_ifs at h <;> cases h <;> simp_all [finalizeField]
    | cons b tail =>
      -- two characters at once: a line break, which is not the end, or two quotes, which leave the parser between quotes
      split_ifs at h <;> cases h <;> simp_all

/-- A text is read to the same state with a newline after it. -/
theorem loop_concat_newline (hp : Quoted delimiter p) (h : loop (turn delimiter) p x = some (q, tl)) (hl : x.getLast? = some c)
    (hc : c ≠ newline ∧ c ≠ carriageReturn) (hq : q.inQuotes = false) :
    loop (turn delimiter) p (x ++ [newline]) = loop (turn delimiter) q [newline] ∧
      ((q.fieldStarted = true ∨ 0 < q.currentField.length) ↔ c ≠ delimiter) := by
  -- on the number of characters that are left
  induction hn : x.length using Nat.strong_induction_on generalizing p x with
  | _ n ih =>
    cases ht : turn delimiter p x with
    | next p' left =>
      obtain ⟨hlf, ht'⟩ := turn_concat_newline (by simp [hl, hc.2]) ht
      rw [loop_next (consumes_turn delimiter) ht] at h
      rw [loop_next (consumes_turn delimiter) ht']
      by_cases hnil : left = []
      · subst hnil
        cases h
        exact ⟨rfl, started_iff hp ht hl hc hq⟩
      · obtain ⟨front, rfl⟩ := hlf
        have hl' : left.getLast? = some c := by rwa [getLast?_append_of_ne_nil _ hnil] at hl
        exact ih left.length (hn ▸ (consumes_turn delimiter).next ht) (hp.turn ht) h hl' rfl
    | stop _ _ =>
      cases x with
      | nil => cases hl
      | cons a tail =>
        simp only [turn] at ht
        split_ifs at ht
    | fail =>
      rw [loop_fail ht] at h
      cases h

/-- A newline ends the field and the row. -/
theorem finish_newline (delimiter : UInt8) (ha : Bool) (hq : q.inQuotes = false) :
    (loop (turn delimiter) q [newline]).bind (fun r => r.1.finish delimiter ha) =
      some ⟨q.fields ++ [q.currentField], q.rowOffsets ++ [q.rowOffset], q.rowLengths ++ [q.rowFieldCount + 1], delimiter,
        ha⟩ := by
  by_cases hd : newline = delimiter <;> cases hc : q.quoteClosed <;>
    simp [loop, run, turn, afterLineBreak, finish, finalizeField, nextRow, finalizeRow, hd, hc, hq]

end Parser

/-- A text the parser accepts, without zero bytes and not ending in a line break: with a newline after it, it is parsed to the same
document exactly when it does not end in the delimiter. -/
theorem parseContent_concat_newline_iff {content : Bytes} {delimiter c : UInt8} {hasHeader : Bool} {d : Document}
    (hnul : (0 : UInt8) ∉ content) (hlast : content.getLast? = some c) (hc : c ≠ newline ∧ c ≠ carriageReturn)
    (h : parseContent content delimiter hasHeader = some d) :
    parseContent (content ++ [newline]) delimiter hasHeader = some d ↔ c ≠ delimiter := by
  have hn' : (0 : UInt8) ∉ content ++ [newline] := by simpa [hnul] using (by decide : (0 : UInt8) ≠ newline)
  rw [parseContent, cString_eq_self hnul] at h
  rw [parseContent, cString_eq_self hn']
  obtain ⟨⟨q, tl⟩, hl, hf⟩ := Option.bind_eq_some_iff.mp h
  have hq : q.inQuotes = false := by
    by_contra hin
    simp [finish, hin] at hf
  obtain ⟨hl', hs⟩ := loop_concat_newline (p := {}) ⟨nofun, nofun⟩ hl hlast hc hq
  rw [hl', ← hs]
  refine (congrArg (· = some d) (finish_newline delimiter hasHeader hq)).to_iff.trans ?_
  rw [← hf]
  by_cases ho : q.fieldStarted = true ∨ 0 < q.currentField.length
  · simp [finish, hq, ho, finalizeField, finalizeRow]
  · -- the newline adds a field
    rcases Nat.eq_zero_or_pos q.rowFieldCount with hrow | hrow
    · simp [finish, hq, ho, hrow]
    · simp [finish, hq, ho, hrow, finalizeRow, hrow.ne']

/-- `a,` is a row of one field, and with a newline after it a row of two. -/
theorem parseContent_trailing_delimiter :
    parseContent (ascii "a,") 0x2c false = some (.ofTable [[ascii "a"]] 0x2c false) ∧
      parseContent (ascii "a," ++ [newline]) 0x2c false = some (.ofTable [[ascii "a", []]] 0x2c false) := by
  decide

theorem parseContent_quoted_newline :
    parseContent (ascii "a,\"b\" " ++ [newline]) 0x2c false = some (.ofTable [[ascii "a", ascii "b"]] 0x2c false) :=
  (parseContent_concat_newline_iff (c := 0x20) (by decide) (by decide) (by decide) (by decide)).mpr (by decide)

end Libft.CSV
