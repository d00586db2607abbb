import LittleBigtable.Bttest.Listing

/-!
# Cell chunks of `ReadRows`

`rowWriter` encodes rows as cell chunks: a key, a family name and a qualifier are
sent only where they change, a large value is split over several chunks, and rows
are batched into responses.  The client side is the decoder of the `ReadRows`
protocol: absent fields are inherited, a chunk with a value size announces more
pieces of its value, and `commit_row` ends a row.

The writer is modelled on a stream whose sends succeed; a send that fails ends the
call after a prefix of these responses.
-/

namespace LittleBigtable
namespace Bttest

section Writer

/-- The `int32` with the same 32 low bits. -/
def wrap32 (x : Int) : Int :=
  (x + 2 ^ 31) % 2 ^ 32 - 2 ^ 31

/-- A `CellChunk`; an absent row key is empty. -/
structure CellChunk where
  rowKey : Bytes
  familyName : Option Bytes
  qualifier : Option Bytes
  timestampMicros : Int
  labels : List Bytes
  value : Bytes
  valueSize : Int
  commitRow : Bool
deriving DecidableEq

/-- `readChunkValueBytes` and `readResponseBytes`.  A chunk limit of zero would
never finish a value. -/
structure ChunkLimits where
  readChunkValueBytes : Nat
  readResponseBytes : Nat
  chunk_pos : 0 < readChunkValueBytes

/-- A row writer, with the responses it has sent. -/
structure RowWriter where
  sent : List (List CellChunk)
  chunks : List CellChunk
  bytes : Nat
deriving DecidableEq

def newRowWriter : RowWriter :=
  ⟨[], [], 0⟩

def RowWriter.flush (w : RowWriter) : RowWriter :=
  if w.chunks.length = 0 then
    w
  else
    ⟨w.sent ++ [w.chunks], [], 0⟩

/-- The writer with the flags of the loops of `writeRow`. -/
structure RowProgress where
  writer : RowWriter
  first : Bool
  newFamily : Bool
  newQualifier : Bool

/-- The chunk of one piece of a value. -/
def pieceChunk (key fam col : Bytes) (c : Cell) (s : RowProgress) (firstPiece : Bool)
    (piece value : Bytes) : CellChunk where
  rowKey := if firstPiece ∧ s.first then key else []
  familyName := if firstPiece ∧ s.newFamily then some fam else none
  qualifier := if firstPiece ∧ (s.newFamily ∨ s.newQualifier) then some col else none
  timestampMicros := if firstPiece then c.ts else 0
  labels := if firstPiece then c.labels else []
  value := piece
  valueSize := if piece.length < value.length then wrap32 c.value.length else 0
  commitRow := false

/-- Append a chunk; every flag is cleared. -/
def RowProgress.append (s : RowProgress) (chunk : CellChunk) : RowProgress where
  writer := { s.writer with
    chunks := s.writer.chunks ++ [chunk]
    bytes := s.writer.bytes + chunk.value.length }
  first := false
  newFamily := false
  newQualifier := false

/-- The loop over the pieces of a value.  The fuel bounds its iterations; each
takes at least one byte. -/
def writePieces (lim : ChunkLimits) (key fam col : Bytes) (c : Cell) :
    Nat → Bool → Bytes → RowProgress → RowProgress
  | 0, _, _, s => s
  | fuel + 1, firstPiece, value, s =>
    let piece := value.take lim.readChunkValueBytes
    let s' := s.append (pieceChunk key fam col c s firstPiece piece value)
    let rest := value.drop piece.length
    if rest.length = 0 then
      s'
    else
      writePieces lim key fam col c fuel false rest s'

def writeColumnCell (lim : ChunkLimits) (key fam col : Bytes) (s : RowProgress)
    (c : Cell) : RowProgress :=
  writePieces lim key fam col c (c.value.length + 1) true c.value s

def writeColumn (lim : ChunkLimits) (key fam : Bytes) (f : Family) (s : RowProgress)
    (col : Bytes) : RowProgress :=
  (f.cells[col]?.getD []).foldl (writeColumnCell lim key fam col) { s with newQualifier := true }

def writeFamily (lim : ChunkLimits) (key : Bytes) (s : RowProgress)
    (fam : Bytes × Family) : RowProgress :=
  fam.2.colNames.foldl (writeColumn lim key fam.1 fam.2) { s with newFamily := true }

/-- Mark the last chunk as the end of its row.  `writeRow` is called with rows
that have a cell, so there is one. -/
def commitLast : List CellChunk → List CellChunk
  | [] => []
  | [chunk] => [{ chunk with commitRow := true }]
  | chunk :: chunk' :: chunks => chunk :: commitLast (chunk' :: chunks)

def writeRow (lim : ChunkLimits) (w : RowWriter) (r : Row) : RowWriter :=
  let s := r.sortedFamilies.foldl (writeFamily lim r.key) ⟨w, true, false, false⟩
  let w' := { s.writer with chunks := commitLast s.writer.chunks }
  if w'.bytes ≥ lim.readResponseBytes then
    w'.flush
  else
    w'

/-- Write the rows of a read and flush. -/
def writeRows (lim : ChunkLimits) (rows : List Row) : RowWriter :=
  (rows.foldl (writeRow lim) newRowWriter).flush

end Writer

section Decoder

/-- Where the next cell belongs if a chunk does not say. -/
structure ChunkPlace where
  key : Bytes
  family : Bytes
  qualifier : Bytes
deriving DecidableEq

structure DecodedCell where
  family : Bytes
  qualifier : Bytes
  cell : Cell
deriving DecidableEq

/-- The key of a decoded row and its cells in order. -/
abbrev DecodedRow := Bytes × List DecodedCell

inductive RowState
  | newRow
  | rowInProgress (place : ChunkPlace) (cells : List DecodedCell)
  | cellInProgress (place : ChunkPlace) (cells : List DecodedCell) (cell : Cell)
deriving DecidableEq

structure Decoder where
  state : RowState
  rows : List DecodedRow
deriving DecidableEq

def newDecoder : Decoder :=
  ⟨.newRow, []⟩

/-- The place of the cell that a chunk starts.  A new row needs all three fields;
a new family needs a qualifier; a row key cannot change inside a row. -/
def nextPlace (place : Option ChunkPlace) (chunk : CellChunk) : Option ChunkPlace :=
  match place, chunk.familyName, chunk.qualifier with
  | none, some fam, some col => if chunk.rowKey = [] then none else some ⟨chunk.rowKey, fam, col⟩
  | none, _, _ => none
  | some p, fam, col =>
    if chunk.rowKey ≠ [] ∧ chunk.rowKey ≠ p.key then
      none
    else
      match fam, col with
      | some fam, some col => some ⟨p.key, fam, col⟩
      | some _, none => none
      | none, some col => some ⟨p.key, p.family, col⟩
      | none, none => some p

/-- The state after a piece: without a value size the cell is complete. -/
def addPiece (place : ChunkPlace) (cells : List DecodedCell) (cell : Cell)
    (valueSize : Int) : RowState :=
  if valueSize = 0 then
    .rowInProgress place (cells ++ [⟨place.family, place.qualifier, cell⟩])
  else
    .cellInProgress place cells cell

def RowState.piece (st : RowState) (chunk : CellChunk) : Option RowState :=
  match st with
  | .newRow =>
    (nextPlace none chunk).map (fun place =>
      addPiece place [] ⟨chunk.timestampMicros, chunk.value, chunk.labels⟩ chunk.valueSize)
  | .rowInProgress p cells =>
    (nextPlace (some p) chunk).map (fun place =>
      addPiece place cells ⟨chunk.timestampMicros, chunk.value, chunk.labels⟩ chunk.valueSize)
  | .cellInProgress p cells cell =>
    some (addPiece p cells { cell with value := cell.value ++ chunk.value } chunk.valueSize)

/-- Take one chunk; a row can only be committed after a complete cell. -/
def Decoder.step (d : Decoder) (chunk : CellChunk) : Option Decoder :=
  match d.state.piece chunk with
  | none => none
  | some st =>
    if chunk.commitRow then
      match st with
      | .rowInProgress p cells => some ⟨.newRow, d.rows ++ [(p.key, cells)]⟩
      | _ => none
    else
      some { d with state := st }

def Decoder.decode (d : Decoder) (chunks : List CellChunk) : Option Decoder :=
  chunks.foldlM Decoder.step d

/-- The rows of one response, if it holds whole rows only. -/
def decodeResponse (chunks : List CellChunk) : Option (List DecodedRow) :=
  match newDecoder.decode chunks with
  | some ⟨.newRow, rows⟩ => some rows
  | _ => none

/-- The rows of the responses of a read; none spans two responses. -/
def decodeResponses (responses : List (List CellChunk)) : Option (List DecodedRow) :=
  (responses.mapM decodeResponse).map List.flatten

/-- A row as a client decodes it. -/
def Row.decoded (r : Row) : DecodedRow :=
  (r.key, r.listing.map (fun x => ⟨x.family, x.column, x.cell⟩))

end Decoder

end Bttest
end LittleBigtable
