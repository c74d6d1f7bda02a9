import Libft.Lib.Bytes
import Libft.Lib.Scan

/-!
# CSV documents

`csv.cpp`: a document holds the fields of all its rows one after another, with the offset and the length of each row. The writer puts a
field in quotes when the parser would not read it as it stands, and the parser goes through the text once, with the field it is in and
three flags. Text that the parser refuses (`FT_ERR_INVALID_OPERATION`) gives nothing. Memory is there when it is asked for.
-/

namespace Libft.CSV

open List

def quote : UInt8 := 0x22
def newline : UInt8 := 0x0a
def carriageReturn : UInt8 := 0x0d

/-- `csv_is_space_character` -/
def isSpaceCharacter (c : UInt8) : Bool := c == 0x20 || c == 0x09 || c == 0x0b || c == 0x0c

/-- `ft_csv_document` -/
structure Document where
  fields : List Bytes
  rowOffsets : List ℕ
  rowLengths : List ℕ
  delimiter : UInt8
  hasHeader : Bool
  deriving DecidableEq

/-- `ft_csv_document::row_count` -/
def Document.rowCount (d : Document) : ℕ := d.rowLengths.length

/-- `ft_csv_document::column_count` -/
def Document.columnCount (d : Document) (row : ℕ) : ℕ := d.rowLengths.getD row 0

/-- `ft_csv_document::get_field` -/
def Document.getField (d : Document) (row column : ℕ) : Option Bytes :=
  if d.rowLengths.length ≤ row then none
  else if d.columnCount row ≤ column then none
  else d.fields[d.rowOffsets.getD row 0 + column]?

/-! ## The writer -/

/-- `csv_field_needs_quotes` -/
def fieldNeedsQuotes (field : Bytes) (delimiter : UInt8) : Bool :=
  if field.length = 0 then true
  else if isSpaceCharacter (field.headD 0) = true then true
  else if isSpaceCharacter (field.getLastD 0) = true then true
  else field.any fun c => c == delimiter || c == quote || c == newline || c == carriageReturn

/-- `csv_append_escaped_field`: what is appended. -/
def escapedField (field : Bytes) (delimiter : UInt8) : Bytes :=
  if fieldNeedsQuotes field delimiter = false then field
  else quote :: (field.flatMap fun c => if c = quote then [quote, c] else [c]) ++ [quote]

/-- A turn of the inner loop of `ft_csv_document::write_to_string`. -/
def Document.writeField (d : Document) (row column : ℕ) : Option Bytes :=
  (d.getField row column).map fun field => (if 0 < column then [d.delimiter] else []) ++ escapedField (cString field) d.delimiter

/-- A turn of its outer loop. -/
def Document.writeRow (d : Document) (row : ℕ) : Option Bytes :=
  ((range (d.columnCount row)).mapM (d.writeField row)).map fun columns =>
    columns.flatten ++ if row + 1 < d.rowCount then [newline] else []

/-- `ft_csv_document::write_to_string` -/
def Document.writeToString (d : Document) : Option Bytes :=
  ((range d.rowCount).mapM d.writeRow).map flatten

/-! ## The parser -/

/-- The variables of `ft_csv_document::parse_content`, with the vectors of the document. -/
structure Parser where
  fields : List Bytes := []
  rowOffsets : List ℕ := []
  rowLengths : List ℕ := []
  currentField : Bytes := []
  rowFieldCount : ℕ := 0
  rowOffset : ℕ := 0
  fieldStarted : Bool := false
  inQuotes : Bool := false
  quoteClosed : Bool := false

namespace Parser

variable (p : Parser)

/-- `csv_finalize_field`, and the field counted. -/
def finalizeField : Parser :=
  { p with fields := p.fields ++ [p.currentField], currentField := [], rowFieldCount := p.rowFieldCount + 1 }

/-- `csv_finalize_row` -/
def finalizeRow : Parser :=
  if p.rowFieldCount = 0 then p
  else { p with rowOffsets := p.rowOffsets ++ [p.rowOffset], rowLengths := p.rowLengths ++ [p.rowFieldCount] }

/-- The end of a row, and the start of the next. -/
def nextRow : Parser := { p.finalizeRow with rowOffset := p.rowOffset + p.rowFieldCount, rowFieldCount := 0 }

/-- What follows a line break: both its characters are passed over when it has two. -/
def afterLineBreak (c : UInt8) (rest : Bytes) : Bytes :=
  if c = carriageReturn ∧ rest.head? = some newline then rest.tail else rest

/-- A turn of the loop of `ft_csv_document::parse_content`. -/
def turn (delimiter : UInt8) (p : Parser) : Bytes → Scan.Turn UInt8 Parser Parser
  | [] => .stop p []
  | c :: rest =>
    if p.quoteClosed = true then
      if c = delimiter then .next { p.finalizeField with quoteClosed := false, fieldStarted := false } rest
      else if c = newline ∨ c = carriageReturn then
        .next { p.finalizeField.nextRow with quoteClosed := false, fieldStarted := false } (afterLineBreak c rest)
      else if isSpaceCharacter c = true then .next p rest
      else .fail
    else if p.inQuotes = true then
      if c = quote then
        if rest.head? = some quote then .next { p with currentField := p.currentField ++ [quote] } rest.tail
        else .next { p with inQuotes := false, quoteClosed := true } rest
      else .next { p with currentField := p.currentField ++ [c] } rest
    else if c = delimiter then .next { p.finalizeField with fieldStarted := false } rest
    else if c = newline ∨ c = carriageReturn then
      .next { p.finalizeField.nextRow with fieldStarted := false } (afterLineBreak c rest)
    else if c = quote then
      if p.fieldStarted = true ∨ p.currentField.length ≠ 0 then .fail
      else .next { p with inQuotes := true, fieldStarted := true } rest
    else .next { p with currentField := p.currentField ++ [c], fieldStarted := true } rest

/-- What `ft_csv_document::parse_content` does after its loop. -/
def finish (delimiter : UInt8) (hasHeader : Bool) : Option Document :=
  if p.inQuotes = true then none
  else
    let p := if p.fieldStarted = true ∨ 0 < p.currentField.length then p.finalizeField else p
    let p := if 0 < p.rowFieldCount then p.finalizeRow else p
    some ⟨p.fields, p.rowOffsets, p.rowLengths, delimiter, hasHeader⟩

end Parser

/-- `ft_csv_document::initialize` with a text: `ft_csv_document::parse_content` on a new document. -/
def parseContent (content : Bytes) (delimiter : UInt8) (hasHeader : Bool) : Option Document := do
  let r ← Scan.loop (Parser.turn delimiter) {} (cString content)
  r.1.finish delimiter hasHeader

/-! ## Tables -/

/-- Where the rows begin when they are put one after another. -/
def rowStarts : ℕ → List (List Bytes) → List ℕ
  | _, [] => []
  | n, row :: rows => n :: rowStarts (n + row.length) rows

/-- The document that holds a table. -/
def Document.ofTable (table : List (List Bytes)) (delimiter : UInt8) (hasHeader : Bool) : Document :=
  ⟨table.flatten, rowStarts 0 table, table.map length, delimiter, hasHeader⟩

end Libft.CSV
