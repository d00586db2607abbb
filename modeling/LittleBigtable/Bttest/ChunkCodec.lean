import Mathlib.Algebra.BigOperators.Group.List.Basic
import LittleBigtable.Bttest.RowWriter

/-!
# Decoding the chunks of `ReadRows`

What the writer buffers is at every point a list of chunks that the client can
decode, and the flags of the loops of `writeRow` say what the client still has to
be told: the row key before the first cell of the row, the family name before the
first cell of a family, the qualifier before the first cell of a column.

The size of a value is sent as an `int32`.  A split value whose length is a
multiple of `2 ^ 32` is announced with size zero, which the client takes for the
end of a cell; every other value is decoded as it was written.
-/

namespace LittleBigtable
namespace Bttest

open List

section DecoderSteps

/-- The place known to the client, if it is inside a row. -/
def RowState.place? : RowState → Option ChunkPlace
  | .newRow => none
  | .rowInProgress p _ => some p
  | .cellInProgress p _ _ => some p

/-- The complete cells of the row in progress. -/
def RowState.cells : RowState → List DecodedCell
  | .newRow => []
  | .rowInProgress _ cells => cells
  | .cellInProgress _ cells _ => cells

/-- No cell is in progress. -/
def RowState.betweenCells : RowState → Bool
  | .cellInProgress _ _ _ => false
  | _ => true

theorem decode_append (d : Decoder) (chunks chunks' : List CellChunk) :
    d.decode (chunks ++ chunks') = (d.decode chunks).bind (fun d' => d'.decode chunks') := by
  unfold Decoder.decode
  rw [foldlM_append]
  rfl

theorem decode_append_singleton (d : Decoder) (chunks : List CellChunk) (chunk : CellChunk) :
    d.decode (chunks ++ [chunk]) = (d.decode chunks).bind (fun d' => d'.step chunk) := by
  rw [decode_append]
  congr 1
  funext d'
  simp [Decoder.decode]

theorem piece_betweenCells {st : RowState} (h : st.betweenCells = true) (chunk : CellChunk) :
    st.piece chunk = (nextPlace st.place? chunk).map (fun place =>
        addPiece place st.cells ⟨chunk.timestampMicros, chunk.value, chunk.labels⟩
          chunk.valueSize) := by
  cases st with
  | newRow | rowInProgress => rfl
  | cellInProgress p cells cell => cases h

/-- The client has decoded the buffered chunks up to the state `st`. -/
def Decodes (w : RowWriter) (st : RowState) (rows : List DecodedRow) : Prop :=
  newDecoder.decode w.chunks = some ⟨st, rows⟩

theorem Decodes.append {s : RowProgress} {st st' : RowState} {rows : List DecodedRow}
    {chunk : CellChunk} (h : Decodes s.writer st rows) (hpiece : st.piece chunk = some st')
    (hcommit : chunk.commitRow = false) :
    Decodes (s.append chunk).writer st' rows := by
  unfold Decodes at h ⊢
  simp only [RowProgress.append]
  rw [decode_append_singleton, h]
  simp [Decoder.step, hpiece, hcommit]

end DecoderSteps

section Cells

variable {lim : ChunkLimits} {key fam col : Bytes} {rows : List DecodedRow}

/-- The length of a split value that is sent as zero. -/
def Wraps (lim : ChunkLimits) (c : Cell) : Prop :=
  lim.readChunkValueBytes < c.value.length ∧ 2 ^ 32 ∣ c.value.length

instance (lim : ChunkLimits) (c : Cell) :
    Decidable (Wraps lim c) := by
  unfold Wraps
  infer_instance

theorem wrap32_eq_zero_iff (n : Nat) :
    wrap32 n = 0 ↔ 2 ^ 32 ∣ n := by
  unfold wrap32
  omega

/-- What the flags leave unsaid, the client knows: before the first chunk of a
row nothing, afterwards its key. -/
structure InRow (key : Bytes) (s : RowProgress) (st : RowState) : Prop where
  between : st.betweenCells = true
  start : st.place? = none → s.first = true
  key_eq : ∀ p, st.place? = some p → s.first = false ∧ p.key = key

/-- Inside a family, after its first chunk, the client knows the family name. -/
structure InFamily (key fam : Bytes) (s : RowProgress)
    (st : RowState) : Prop extends InRow key s st where
  family_eq : s.newFamily = false → st.place?.map ChunkPlace.family = some fam

/-- Inside a column, after its first chunk, the client knows the qualifier. -/
structure InColumn (key fam col : Bytes) (s : RowProgress)
    (st : RowState) : Prop extends InFamily key fam s st where
  qualifier_eq : s.newFamily = false → s.newQualifier = false →
    st.place?.map ChunkPlace.qualifier = some col

/-- The first chunk of a cell tells the client where it belongs. -/
theorem nextPlace_pieceChunk {s : RowProgress} {st : RowState} (hkey : key ≠ [])
    (h : InColumn key fam col s st) (c : Cell) (piece value : Bytes) :
    nextPlace st.place? (pieceChunk key fam col c s true piece value) = some ⟨key, fam, col⟩ := by
  cases hplace : st.place? with
  | none =>
    have hfirst := h.start hplace
    have hfam : s.newFamily = true := by
      by_contra hnew
      have hknown := h.family_eq (by simpa using hnew)
      rw [hplace] at hknown
      cases hknown
    simp [nextPlace, pieceChunk, hfirst, hfam, hkey]
  | some p =>
    obtain ⟨hfirst, hpkey⟩ := h.key_eq p hplace
    cases hfam : s.newFamily with
    | true => simp [nextPlace, pieceChunk, hfirst, hfam, hpkey]
    | false =>
      have hpfam : p.family = fam := by
        have hknown := h.family_eq hfam
        rw [hplace] at hknown
        exact Option.some.inj hknown
      cases hqualifier : s.newQualifier with
      | true => simp [nextPlace, pieceChunk, hfirst, hfam, hqualifier, hpkey, hpfam]
      | false =>
        have hpcol : p.qualifier = col := by
          have hknown := h.qualifier_eq hfam hqualifier
          rw [hplace] at hknown
          exact Option.some.inj hknown
        subst hpkey hpfam hpcol
        simp [nextPlace, pieceChunk, hfirst, hfam, hqualifier]

theorem take_append_drop_length (n : Nat) (value : Bytes) :
    value.take n ++ value.drop (value.take n).length = value := by
  obtain ⟨rest, hrest⟩ := take_prefix n value
  generalize value.take n = piece at hrest ⊢
  subst hrest
  rw [drop_left]

/-- The later pieces of a value complete the cell in progress. -/
theorem writePieces_decodes {c : Cell} (hsize : wrap32 c.value.length ≠ 0) {fuel : Nat}
    {value : Bytes} (hfuel : value.length < fuel) {s : RowProgress} {p : ChunkPlace}
    {cells : List DecodedCell} {cell : Cell}
    (h : Decodes s.writer (.cellInProgress p cells cell) rows) :
    Decodes (writePieces lim key fam col c fuel false value s).writer
      (.rowInProgress p (cells ++
        [⟨p.family, p.qualifier, { cell with value := cell.value ++ value }⟩]))
      rows := by
  induction fuel generalizing value s cell with
  | zero => cases hfuel
  | succ fuel ih =>
    have hjoin := take_append_drop_length lim.readChunkValueBytes value
    unfold writePieces
    simp only
    generalize hpiece : value.take lim.readChunkValueBytes = piece at hjoin ⊢
    generalize hrest : value.drop piece.length = rest at hjoin ⊢
    have hstep : RowState.piece (.cellInProgress p cells cell)
        (pieceChunk key fam col c s false piece value) =
        some (addPiece p cells { cell with value := cell.value ++ piece }
          (if piece.length < value.length then wrap32 c.value.length else 0)) := rfl
    have happend := h.append hstep rfl
    have hlen : piece.length + rest.length = value.length := by
      rw [← hjoin, length_append]
    split_ifs with hnil
    · rw [if_neg (by omega), addPiece, if_pos rfl] at happend
      rw [length_eq_zero_iff.mp hnil, append_nil] at hjoin
      subst hjoin
      exact happend
    rw [if_pos (by omega), addPiece, if_neg hsize] at happend
    have hpos : 0 < piece.length := by
      rw [← hpiece, length_take]
      have := lim.chunk_pos
      omega
    have hfuel' : rest.length < fuel := by omega
    have hdone := ih hfuel' happend
    simp only [append_assoc, hjoin] at hdone
    exact hdone

/-- The flags after the chunks of a cell. -/
theorem writePieces_flags (lim : ChunkLimits) (key fam col : Bytes) (c : Cell) {fuel : Nat}
    (firstPiece : Bool) (value : Bytes) (s : RowProgress) :
    let s' := writePieces lim key fam col c (fuel + 1) firstPiece value s
    s'.first = false ∧ s'.newFamily = false ∧ s'.newQualifier = false := by
  induction fuel generalizing firstPiece value s with
  | zero =>
    unfold writePieces
    simp only [writePieces, ite_self]
    exact ⟨rfl, rfl, rfl⟩
  | succ fuel ih =>
    unfold writePieces
    simp only
    split_ifs
    · exact ⟨rfl, rfl, rfl⟩
    · exact ih _ _ _

/-- A cell is decoded as it was written, unless its length wraps. -/
theorem writeCell_decodes {s : RowProgress} {st : RowState} {c : Cell} (hkey : key ≠ [])
    (hwraps : ¬ Wraps lim c) (hin : InColumn key fam col s st) (h : Decodes s.writer st rows) :
    Decodes (writeColumnCell lim key fam col s c).writer
      (.rowInProgress ⟨key, fam, col⟩ (st.cells ++ [⟨fam, col, c⟩])) rows := by
  have hjoin := take_append_drop_length lim.readChunkValueBytes c.value
  unfold writeColumnCell writePieces
  simp only
  generalize hpiece : c.value.take lim.readChunkValueBytes = piece at hjoin ⊢
  generalize hrest : c.value.drop piece.length = rest at hjoin ⊢
  have hlen : piece.length + rest.length = c.value.length := by
    rw [← hjoin, length_append]
  have hstep : st.piece (pieceChunk key fam col c s true piece c.value) =
      some (addPiece ⟨key, fam, col⟩ st.cells { c with value := piece }
        (if piece.length < c.value.length then wrap32 c.value.length else 0)) := by
    rw [piece_betweenCells hin.between, nextPlace_pieceChunk hkey hin]
    rfl
  have happend := h.append hstep rfl
  split_ifs with hnil
  · rw [if_neg (by omega), addPiece, if_pos rfl] at happend
    rw [length_eq_zero_iff.mp hnil, append_nil] at hjoin
    subst hjoin
    exact happend
  have hlimit : piece.length = lim.readChunkValueBytes := by
    rw [← hpiece, length_take] at hlen ⊢
    omega
  have hsize : wrap32 c.value.length ≠ 0 := by
    rw [Ne, wrap32_eq_zero_iff]
    intro hdvd
    exact hwraps ⟨by omega, hdvd⟩
  rw [if_pos (by omega), addPiece, if_neg hsize] at happend
  have hpos := lim.chunk_pos
  have hfuel : rest.length < c.value.length := by omega
  have hdone : Decodes (writePieces lim key fam col c c.value.length false rest _).writer
      _ rows := writePieces_decodes hsize hfuel happend
  simp only [hjoin] at hdone
  exact hdone

theorem writeCell_inColumn (s : RowProgress) (c : Cell) (cells : List DecodedCell) :
    InColumn key fam col (writeColumnCell lim key fam col s c)
      (.rowInProgress ⟨key, fam, col⟩ cells) := by
  obtain ⟨hfirst, hfam, hqualifier⟩ :=
    writePieces_flags lim key fam col c true c.value s
  refine ⟨⟨⟨rfl, fun h => ?_, fun p hp => ?_⟩, fun _ => rfl⟩, fun _ _ => rfl⟩
  · cases h
  · cases hp
    exact ⟨hfirst, rfl⟩

end Cells

section Rows

variable {lim : ChunkLimits} {key fam col : Bytes} {rows : List DecodedRow}

/-- The client has decoded the rows and the cells of the row in progress, and knows what `In`
says. -/
def Writes (In : RowProgress → RowState → Prop) (rows : List DecodedRow) (s : RowProgress)
    (cells : List DecodedCell) : Prop :=
  ∃ st, In s st ∧ Decodes s.writer st rows ∧ st.cells = cells

/-- What each round of a loop writes is decoded one after another. -/
theorem Writes.foldl {α : Type} {In : RowProgress → RowState → Prop}
    {write : RowProgress → α → RowProgress} {listed : α → List DecodedCell} {l : List α}
    (hwrite : ∀ x ∈ l, ∀ s cells, Writes In rows s cells →
      Writes In rows (write s x) (cells ++ listed x))
    {s : RowProgress} {cells : List DecodedCell} (h : Writes In rows s cells) :
    Writes In rows (l.foldl write s) (cells ++ l.flatMap listed) := by
  induction l generalizing s cells with
  | nil => simpa using h
  | cons x l ih =>
    have hrest := ih (fun y hy => hwrite y (mem_cons_of_mem x hy))
      (hwrite x mem_cons_self s cells h)
    rwa [append_assoc] at hrest

/-- Cells as the client lists them. -/
def decodedCells (l : List ListedCell) : List DecodedCell :=
  l.map (fun x => ⟨x.family, x.column, x.cell⟩)

theorem writeColumn_writes (hkey : key ≠ []) {f : Family}
    (hwraps : ∀ c ∈ f.cells[col]?.getD [], ¬ Wraps lim c) (s : RowProgress)
    (cells : List DecodedCell) (h : Writes (InFamily key fam) rows s cells) :
    Writes (InFamily key fam) rows (writeColumn lim key fam f s col)
      (cells ++ decodedCells (listColumn fam f.order col (f.cells[col]?.getD []))) := by
  obtain ⟨st, hin, hdecodes, hcells⟩ := h
  have hin' : InColumn key fam col { s with newQualifier := true } st :=
    ⟨⟨⟨hin.between, hin.start, hin.key_eq⟩, hin.family_eq⟩, fun _ hq => by cases hq⟩
  have hwrite : ∀ c ∈ f.cells[col]?.getD [], ∀ s cells, Writes (InColumn key fam col) rows s cells →
      Writes (InColumn key fam col) rows (writeColumnCell lim key fam col s c)
        (cells ++ [⟨fam, col, c⟩]) :=
    fun c hc s cells ⟨st, hin, hst, hcells⟩ =>
      ⟨_, writeCell_inColumn s c _, writeCell_decodes hkey (hwraps c hc) hin hst,
        by rw [← hcells]; rfl⟩
  obtain ⟨st', hst', hdecodes', hcells'⟩ := Writes.foldl hwrite ⟨st, hin', hdecodes, hcells⟩
  refine ⟨st', hst'.toInFamily, hdecodes', hcells'.trans ?_⟩
  rw [decodedCells, listColumn, map_map, ← map_eq_flatMap]
  rfl

theorem writeFamily_writes (hkey : key ≠ []) {f : Family}
    (hwraps : ∀ x ∈ f.listing fam, ¬ Wraps lim x.cell) (s : RowProgress)
    (cells : List DecodedCell) (h : Writes (InRow key) rows s cells) :
    Writes (InRow key) rows (writeFamily lim key s (fam, f))
      (cells ++ decodedCells (f.listing fam)) := by
  obtain ⟨st, hin, hdecodes, hcells⟩ := h
  have hin' : InFamily key fam { s with newFamily := true } st :=
    ⟨⟨hin.between, hin.start, hin.key_eq⟩, fun hf => by cases hf⟩
  obtain ⟨st', hst', hdecodes', hcells'⟩ := Writes.foldl (fun col hcol => writeColumn_writes hkey
    fun c hc => hwraps ⟨fam, f.order, col, c⟩ (mem_flatMap.mpr
      ⟨col, hcol, mem_map.mpr ⟨c, hc, rfl⟩⟩)) ⟨st, hin', hdecodes, hcells⟩
  refine ⟨st', hst'.toInRow, hdecodes', hcells'.trans ?_⟩
  rw [decodedCells, Family.listing, map_flatMap]
  rfl

theorem commitLast_append_singleton (chunks : List CellChunk) (chunk : CellChunk) :
    commitLast (chunks ++ [chunk]) = chunks ++ [{ chunk with commitRow := true }] := by
  induction chunks with
  | nil => rfl
  | cons first chunks ih =>
    cases chunks with
    | nil => rfl
    | cons second chunks => simpa [commitLast] using ih

/-- Marking the last chunk ends the row in progress. -/
theorem decode_commitLast {chunks : List CellChunk} {p : ChunkPlace} {cells : List DecodedCell}
    (h : newDecoder.decode chunks = some ⟨.rowInProgress p cells, rows⟩) :
    newDecoder.decode (commitLast chunks) = some ⟨.newRow, rows ++ [(p.key, cells)]⟩ := by
  rcases eq_nil_or_concat chunks with rfl | ⟨init, last, rfl⟩
  · cases h
  rw [concat_eq_append] at h ⊢
  rw [decode_append_singleton] at h
  obtain ⟨d, hd, hstep⟩ := Option.bind_eq_some_iff.mp h
  rw [commitLast_append_singleton, decode_append_singleton, hd, Option.bind_some]
  unfold Decoder.step at hstep ⊢
  have hpiece : ∀ st : RowState,
      st.piece { last with commitRow := true } = st.piece last := fun _ => rfl
  rw [hpiece]
  cases hst : d.state.piece last with
  | none => simp [hst] at hstep
  | some st =>
    simp only [hst] at hstep ⊢
    split_ifs at hstep with hcommit
    · cases st <;> simp at hstep
    · cases hstep
      rfl

/-- A row with a cell is buffered as chunks that decode to it. -/
theorem writeRow_chunks_decodes {w : RowWriter} {r : Row} (hkey : r.key ≠ [])
    (hcells : r.listing ≠ []) (hwraps : ∀ x ∈ r.listing, ¬ Wraps lim x.cell)
    (h : Decodes w .newRow rows) :
    newDecoder.decode (commitLast (r.sortedFamilies.foldl (writeFamily lim r.key)
        ⟨w, true, false, false⟩).writer.chunks) =
      some ⟨.newRow, rows ++ [r.decoded]⟩ := by
  obtain ⟨st', hin', h', hst'⟩ := Writes.foldl (fun fam hfam => @writeFamily_writes lim _ _ _ hkey _
      fun x hx => hwraps x (mem_flatMap.mpr ⟨fam, hfam, hx⟩))
    (⟨.newRow, ⟨rfl, fun _ => rfl, nofun⟩, h, rfl⟩ :
      Writes (InRow r.key) rows ⟨w, true, false, false⟩ [])
  simp only [nil_append, decodedCells, ← map_flatMap] at hst'
  cases st' with
  | newRow =>
    have hnil := map_eq_nil_iff.mp hst'.symm
    exact absurd hnil hcells
  | cellInProgress p cells cell => cases hin'.between
  | rowInProgress p cells =>
    have hpkey := (hin'.key_eq p rfl).2
    rw [decode_commitLast h', hpkey]
    rw [show cells = decodedCells r.listing from hst']
    rfl

end Rows

section Growth

/-- The number of chunks that complete a cell. -/
def completed (chunks : List CellChunk) : Nat :=
  chunks.countP (fun chunk => chunk.valueSize = 0)

/-- The number of cells that a client decodes for a cell, at least. -/
def decodedAs (lim : ChunkLimits) (c : Cell) : Nat :=
  1 + if Wraps lim c then 1 else 0

/-- The writer has buffered chunks that complete at least `n` cells. -/
structure Grows (n : Nat) (w w' : RowWriter) : Prop where
  sent_eq : w'.sent = w.sent
  completed_le : completed w.chunks + n ≤ completed w'.chunks

theorem Grows.trans {n m : Nat} {w₁ w₂ w₃ : RowWriter} (h : Grows n w₁ w₂) (h' : Grows m w₂ w₃) :
    Grows (n + m) w₁ w₃ := by
  refine ⟨h'.sent_eq.trans h.sent_eq, ?_⟩
  have hle := h.completed_le
  have hle' := h'.completed_le
  omega

theorem grows_append (s : RowProgress) (chunk : CellChunk) :
    Grows (if chunk.valueSize = 0 then 1 else 0) s.writer (s.append chunk).writer := by
  refine ⟨rfl, ?_⟩
  simp [RowProgress.append, completed, countP_append, countP_singleton]

theorem foldl_grows {α : Type} {write : RowProgress → α → RowProgress} {size : α → Nat}
    (hwrite : ∀ s x, Grows (size x) s.writer (write s x).writer) (l : List α) (s : RowProgress) :
    Grows (l.map size).sum s.writer (l.foldl write s).writer := by
  induction l generalizing s with
  | nil => exact ⟨rfl, le_refl _⟩
  | cons x l ih =>
    rw [map_cons, sum_cons]
    exact (hwrite s x).trans (ih (write s x))

variable (lim : ChunkLimits) (key fam col : Bytes)

theorem writePieces_grows (c : Cell) {fuel : Nat} (firstPiece : Bool) {value : Bytes}
    (hfuel : value.length < fuel) (s : RowProgress) :
    Grows 1 s.writer (writePieces lim key fam col c fuel firstPiece value s).writer := by
  induction fuel generalizing firstPiece value s with
  | zero => cases hfuel
  | succ fuel ih =>
    unfold writePieces
    simp only
    have hlen : (value.take lim.readChunkValueBytes).length =
        min lim.readChunkValueBytes value.length := length_take
    have hpos := lim.chunk_pos
    split_ifs with hnil
    · rw [length_drop] at hnil
      have happend := grows_append s (pieceChunk key fam col c s firstPiece
        (value.take lim.readChunkValueBytes) value)
      have hzero : (pieceChunk key fam col c s firstPiece
          (value.take lim.readChunkValueBytes) value).valueSize = 0 :=
        if_neg (by omega)
      rw [if_pos hzero] at happend
      exact happend
    · have hrest : (value.drop (value.take lim.readChunkValueBytes).length).length <
          fuel := by
        rw [length_drop] at hnil ⊢
        omega
      have hgrows := (grows_append s (pieceChunk key fam col c s firstPiece
        (value.take lim.readChunkValueBytes) value)).trans (ih false hrest _)
      refine ⟨hgrows.sent_eq, ?_⟩
      have hle := hgrows.completed_le
      omega

/-- A cell whose length wraps is sent as more than one complete cell. -/
theorem writeCell_grows (s : RowProgress) (c : Cell) :
    Grows (decodedAs lim c) s.writer (writeColumnCell lim key fam col s c).writer := by
  unfold decodedAs
  split_ifs with hwraps
  · obtain ⟨hlong, hdvd⟩ := hwraps
    unfold writeColumnCell writePieces
    simp only
    have hlen : (c.value.take lim.readChunkValueBytes).length = lim.readChunkValueBytes := by
      rw [length_take]
      omega
    have hpos := lim.chunk_pos
    rw [if_neg (by rw [length_drop]; omega)]
    have happend := grows_append s (pieceChunk key fam col c s true
      (c.value.take lim.readChunkValueBytes) c.value)
    have hzero : (pieceChunk key fam col c s true
        (c.value.take lim.readChunkValueBytes) c.value).valueSize = 0 := by
      simp only [pieceChunk]
      rw [if_pos (by omega), wrap32_eq_zero_iff]
      exact hdvd
    rw [if_pos hzero] at happend
    refine happend.trans (writePieces_grows lim key fam col c false ?_ _)
    rw [length_drop]
    omega
  · exact writePieces_grows lim key fam col c true (Nat.lt_succ_self _) s

theorem writeFamily_grows (s : RowProgress) (x : Bytes × Family) :
    Grows ((x.2.listing x.1).map (fun y => decodedAs lim y.cell)).sum s.writer
      (writeFamily lim key s x).writer := by
  have hcol : ∀ (s : RowProgress) (col : Bytes),
      Grows ((listColumn x.1 x.2.order col (x.2.cells[col]?.getD [])).map
        (fun y => decodedAs lim y.cell)).sum s.writer
        (writeColumn lim key x.1 x.2 s col).writer := by
    intro s col
    have hcells := foldl_grows (writeCell_grows lim key x.1 col)
      (x.2.cells[col]?.getD []) { s with newQualifier := true }
    rw [listColumn, map_map]
    exact hcells
  have hfam := foldl_grows hcol x.2.colNames { s with newFamily := true }
  rw [Family.listing, map_flatMap, flatMap_def, sum_flatten, map_map]
  exact hfam

/-- The loops of `writeRow` send nothing; they buffer the cells of the row. -/
theorem foldl_writeFamily_grows (r : Row) (s : RowProgress) :
    Grows (r.listing.map (fun x => decodedAs lim x.cell)).sum s.writer
      (r.sortedFamilies.foldl (writeFamily lim key) s).writer := by
  have hfamilies := foldl_grows (writeFamily_grows lim key) r.sortedFamilies s
  rw [Row.listing, map_flatMap, flatMap_def, sum_flatten, map_map]
  exact hfamilies

end Growth

section Responses

variable {lim : ChunkLimits}

/-- What was sent and what is buffered decode to the rows written so far. -/
def Transmits (w : RowWriter) (written : List DecodedRow) : Prop :=
  ∃ sentRows buffered,
    w.sent.mapM decodeResponse = some sentRows ∧
    Decodes w .newRow buffered ∧
    sentRows.flatten ++ buffered = written

theorem flush_chunks (w : RowWriter) :
    w.flush.chunks = [] := by
  unfold RowWriter.flush
  split_ifs with hnil
  · exact length_eq_zero_iff.mp hnil
  · rfl

theorem Transmits.flush {w : RowWriter} {written : List DecodedRow} (h : Transmits w written) :
    Transmits w.flush written := by
  obtain ⟨sentRows, buffered, hsent, hbuffered, hwritten⟩ := h
  unfold RowWriter.flush
  split_ifs
  · exact ⟨sentRows, buffered, hsent, hbuffered, hwritten⟩
  refine ⟨sentRows ++ [buffered], [], ?_, rfl, ?_⟩
  · have hresponse : decodeResponse w.chunks = some buffered := by
      unfold decodeResponse
      rw [show newDecoder.decode w.chunks = some ⟨.newRow, buffered⟩ from hbuffered]
    simp [mapM_append, hsent, hresponse]
  · simpa using hwritten

theorem writeRow_transmits {w : RowWriter} {r : Row} {written : List DecodedRow} (hkey : r.key ≠ [])
    (hcells : r.listing ≠ []) (hwraps : ∀ x ∈ r.listing, ¬ Wraps lim x.cell)
    (h : Transmits w written) :
    Transmits (writeRow lim w r) (written ++ [r.decoded]) := by
  obtain ⟨sentRows, buffered, hsent, hbuffered, hwritten⟩ := h
  have hrow : Transmits
      { (r.sortedFamilies.foldl (writeFamily lim r.key)
          ⟨w, true, false, false⟩).writer with
        chunks := commitLast (r.sortedFamilies.foldl (writeFamily lim r.key)
          ⟨w, true, false, false⟩).writer.chunks }
      (written ++ [r.decoded]) := by
    refine ⟨sentRows, buffered ++ [r.decoded], ?_,
      writeRow_chunks_decodes hkey hcells hwraps hbuffered, ?_⟩
    · simp only [(foldl_writeFamily_grows lim r.key r _).sent_eq]
      exact hsent
    · rw [← append_assoc, hwritten]
  unfold writeRow
  simp only
  split_ifs
  · exact hrow.flush
  · exact hrow

/-- The rows that `ReadRows` writes: normal, with a key and at least one cell. -/
structure Row.Sendable (r : Row) : Prop where
  normal : r.Normal
  key_ne : r.key ≠ []
  nonempty : r.isEmpty = false

theorem Row.Sendable.listing_ne {r : Row} (h : r.Sendable) :
    r.listing ≠ [] := by
  intro hnil
  have hempty := h.normal.isEmpty_iff_listing.mpr hnil
  rw [h.nonempty] at hempty
  cases hempty

theorem writeRows_transmits {rows : List Row} (hrows : ∀ r ∈ rows, r.Sendable)
    (hwraps : ∀ r ∈ rows, ∀ x ∈ r.listing, ¬ Wraps lim x.cell) :
    Transmits (writeRows lim rows) (rows.map Row.decoded) := by
  have hall : ∀ (w : RowWriter) (written : List DecodedRow), Transmits w written →
      Transmits (rows.foldl (writeRow lim) w) (written ++ rows.map Row.decoded) := by
    induction rows with
    | nil =>
      intro w written h
      simpa using h
    | cons r rows ih =>
      intro w written h
      have hr := hrows r (by simp)
      have hfirst := writeRow_transmits hr.key_ne hr.listing_ne (hwraps r (by simp)) h
      have hrest := ih (fun r' hr' => hrows r' (mem_cons_of_mem r hr'))
        (fun r' hr' => hwraps r' (mem_cons_of_mem r hr')) _ _ hfirst
      simpa using hrest
  have hstart : Transmits newRowWriter [] := ⟨[], [], rfl, rfl, rfl⟩
  exact (hall newRowWriter [] hstart).flush

end Responses

section Counting

/-- The cells that a client has decoded. -/
def Decoder.cellCount (d : Decoder) : Nat :=
  (d.rows.map (fun row => row.2.length)).sum + d.state.cells.length

theorem addPiece_cells_length {place : ChunkPlace} (cells : List DecodedCell) (cell : Cell)
    (valueSize : Int) :
    (addPiece place cells cell valueSize).cells.length =
      cells.length + if valueSize = 0 then 1 else 0 := by
  unfold addPiece
  split_ifs
  · simp [RowState.cells]
  · rfl

/-- A chunk without a value size completes one cell, any other chunk none. -/
theorem step_cellCount {d d' : Decoder} {chunk : CellChunk} (h : d.step chunk = some d') :
    d'.cellCount = d.cellCount + if chunk.valueSize = 0 then 1 else 0 := by
  have hpiece : ∀ st, d.state.piece chunk = some st →
      st.cells.length = d.state.cells.length +
        if chunk.valueSize = 0 then 1 else 0 := by
    intro st hst
    cases hstate : d.state with
    | newRow =>
      simp only [hstate, RowState.piece, Option.map_eq_some_iff] at hst
      obtain ⟨place, _, rfl⟩ := hst
      exact addPiece_cells_length [] _ _
    | rowInProgress p cells =>
      simp only [hstate, RowState.piece, Option.map_eq_some_iff] at hst
      obtain ⟨place, _, rfl⟩ := hst
      exact addPiece_cells_length cells _ _
    | cellInProgress p cells cell =>
      simp only [hstate, RowState.piece, Option.some.injEq] at hst
      subst hst
      exact addPiece_cells_length cells _ _
  unfold Decoder.step at h
  cases hst : d.state.piece chunk with
  | none => simp [hst] at h
  | some st =>
    have hcells := hpiece st hst
    simp only [hst] at h
    split_ifs at h
    · cases st with
      | newRow | cellInProgress => cases h
      | rowInProgress p cells =>
        cases h
        simp only [RowState.cells] at hcells
        simp [Decoder.cellCount, RowState.cells, hcells]
        omega
    · cases h
      simp [Decoder.cellCount, hcells]
      omega

theorem decode_cellCount {d d' : Decoder} {chunks : List CellChunk}
    (h : d.decode chunks = some d') :
    d'.cellCount = d.cellCount + completed chunks := by
  induction chunks generalizing d with
  | nil =>
    cases h
    rfl
  | cons chunk chunks ih =>
    unfold Decoder.decode at h
    rw [foldlM_cons] at h
    obtain ⟨d₁, hstep, hrest⟩ := Option.bind_eq_some_iff.mp h
    rw [ih hrest, step_cellCount hstep]
    simp [completed, countP_cons]
    omega

theorem decodeResponse_completed {chunks : List CellChunk} {rows : List DecodedRow}
    (h : decodeResponse chunks = some rows) :
    (rows.map (fun row => row.2.length)).sum = completed chunks := by
  unfold decodeResponse at h
  split at h
  · rename_i rows' hdec
    cases h
    have hcount := decode_cellCount hdec
    simpa [Decoder.cellCount, newDecoder, RowState.cells] using hcount
  · cases h

theorem decodeResponses_completed {responses : List (List CellChunk)} {rows : List DecodedRow}
    (h : decodeResponses responses = some rows) :
    (rows.map (fun row => row.2.length)).sum = (responses.map completed).sum := by
  unfold decodeResponses at h
  obtain ⟨parts, hparts, rfl⟩ := Option.map_eq_some_iff.mp h
  induction responses generalizing parts with
  | nil =>
    cases hparts
    rfl
  | cons chunks responses ih =>
    rw [mapM_cons] at hparts
    obtain ⟨part, hpart, hrest⟩ := Option.bind_eq_some_iff.mp hparts
    obtain ⟨parts', hparts', heq⟩ := Option.bind_eq_some_iff.mp hrest
    cases heq
    have htail := ih parts' hparts' (by rw [hparts']; rfl)
    rw [flatten_cons, map_append, sum_append, htail,
      decodeResponse_completed hpart, map_cons, sum_cons]

/-- The chunks that complete a cell, sent and buffered. -/
def RowWriter.completedCells (w : RowWriter) : Nat :=
  (w.sent.map completed).sum + completed w.chunks

theorem flush_completedCells (w : RowWriter) :
    w.flush.completedCells = w.completedCells := by
  unfold RowWriter.flush
  split_ifs
  · rfl
  · simp [RowWriter.completedCells, completed]

theorem completed_commitLast (chunks : List CellChunk) :
    completed (commitLast chunks) = completed chunks := by
  rcases eq_nil_or_concat chunks with rfl | ⟨init, last, rfl⟩
  · rfl
  · rw [concat_eq_append, commitLast_append_singleton]
    simp [completed, countP_append, countP_singleton]

theorem writeRow_completedCells (lim : ChunkLimits) (w : RowWriter) (r : Row) :
    w.completedCells + (r.listing.map (fun x => decodedAs lim x.cell)).sum ≤
      (writeRow lim w r).completedCells := by
  have hgrows := foldl_writeFamily_grows lim r.key r ⟨w, true, false, false⟩
  have hle := hgrows.completed_le
  have hsent := hgrows.sent_eq
  have hrow : w.completedCells + (r.listing.map (fun x => decodedAs lim x.cell)).sum ≤
      RowWriter.completedCells
        { (r.sortedFamilies.foldl (writeFamily lim r.key)
            ⟨w, true, false, false⟩).writer with
          chunks := commitLast (r.sortedFamilies.foldl (writeFamily lim r.key)
            ⟨w, true, false, false⟩).writer.chunks } := by
    simp only [RowWriter.completedCells, completed_commitLast, hsent]
    simp only at hle
    omega
  unfold writeRow
  simp only
  split_ifs
  · rw [flush_completedCells]
    exact hrow
  · exact hrow

theorem writeRows_completedCells (lim : ChunkLimits) (rows : List Row) :
    (rows.map (fun r => (r.listing.map (fun x => decodedAs lim x.cell)).sum)).sum ≤
      (writeRows lim rows).completedCells := by
  have hall : ∀ w : RowWriter,
      w.completedCells +
          (rows.map (fun r => (r.listing.map (fun x => decodedAs lim x.cell)).sum)).sum ≤
        (rows.foldl (writeRow lim) w).completedCells := by
    induction rows with
    | nil =>
      intro w
      simp
    | cons r rows ih =>
      intro w
      have hfirst := writeRow_completedCells lim w r
      have hrest := ih (writeRow lim w r)
      rw [map_cons, sum_cons, foldl_cons]
      omega
  unfold writeRows
  rw [flush_completedCells]
  have hrows := hall newRowWriter
  omega

/-- Rows that are decoded as they were written hold no cell whose length
wraps. -/
theorem not_wraps_of_decoded {lim : ChunkLimits} {rows : List Row}
    (h : decodeResponses (writeRows lim rows).sent = some (rows.map Row.decoded)) :
    ∀ r ∈ rows, ∀ x ∈ r.listing, ¬ Wraps lim x.cell := by
  have hdecoded := decodeResponses_completed h
  have hwritten := writeRows_completedCells lim rows
  have hbuffer : completed (writeRows lim rows).chunks = 0 := by
    rw [writeRows, flush_chunks]
    rfl
  have hlengths : ((rows.map Row.decoded).map (fun row => row.2.length)).sum =
      (rows.map (fun r => r.listing.length)).sum := by
    simp [Row.decoded, Function.comp_def]
  have hsplit : ∀ r : Row, (r.listing.map (fun x => decodedAs lim x.cell)).sum =
      r.listing.length + (r.listing.map (fun x => if Wraps lim x.cell then 1 else 0)).sum := by
    intro r
    simp [decodedAs, sum_map_add]
  simp only [RowWriter.completedCells, hbuffer, Nat.add_zero, hsplit, sum_map_add] at hwritten
  -- the surplus of the cells that wrap is zero
  have hzero : (rows.map (fun r =>
      (r.listing.map (fun x => if Wraps lim x.cell then 1 else 0)).sum)).sum = 0 := by
    omega
  intro r hr x hx hwraps
  have hrow := List.sum_eq_zero_iff_forall_eq_nat.mp hzero _ (List.mem_map.mpr ⟨r, hr, rfl⟩)
  have hcell := List.sum_eq_zero_iff_forall_eq_nat.mp hrow _ (List.mem_map.mpr ⟨x, hx, rfl⟩)
  rw [if_pos hwraps] at hcell
  cases hcell

end Counting

section Main

/-- The chunks of a read are decoded to exactly its rows, no row spanning two
responses, if and only if no split value has a length that is a multiple of
`2 ^ 32`; nothing is left in the buffer. -/
theorem writeRows_decoded_iff (lim : ChunkLimits) (rows : List Row)
    (hrows : ∀ r ∈ rows, r.Sendable) :
    (decodeResponses (writeRows lim rows).sent = some (rows.map Row.decoded) ↔
      ∀ r ∈ rows, ∀ x ∈ r.listing, ¬ Wraps lim x.cell) ∧
    (writeRows lim rows).chunks = [] := by
  refine ⟨⟨not_wraps_of_decoded, fun hwraps => ?_⟩, flush_chunks _⟩
  obtain ⟨sentRows, buffered, hsent, hbuffered, hwritten⟩ := writeRows_transmits hrows hwraps
  have hnil : buffered = [] := by
    unfold Decodes at hbuffered
    rw [writeRows, flush_chunks] at hbuffered
    cases hbuffered
    rfl
  rw [hnil, append_nil] at hwritten
  unfold decodeResponses
  rw [hsent, Option.map_some, hwritten]

/-- The row `a` with one cell in `f:q`. -/
def oneCellRow (value : Bytes) : Row :=
  (newRow [97]).updateColumn [102] 0 [113] (fun _ => [⟨1000, value, []⟩])

theorem oneCellRow_column (value : Bytes) :
    (oneCellRow value).column [102] [113] = [⟨1000, value, []⟩] := by
  rw [oneCellRow, updateColumn_column]
  rfl

theorem oneCellRow_sendable (value : Bytes) :
    (oneCellRow value).Sendable where
  normal := (newRow_normal [97]).updateColumn [102] 0 [113] (by simp)
    (by simp [StableSort.Descending])
  key_ne := by
    simp [oneCellRow]
  nonempty := by
    by_contra hempty
    have hnil := (isEmpty_iff _).mp (by simpa using hempty) [102] [113]
    rw [oneCellRow_column] at hnil
    cases hnil

/-- The limits that the server uses. -/
def serverLimits : ChunkLimits :=
  ⟨2 ^ 20, 2 ^ 20, by decide⟩

/-- A value of `2 ^ 32` bytes is not decoded as it was written. -/
theorem oneCellRow_not_decoded {value : Bytes} (h : value.length = 2 ^ 32) :
    decodeResponses (writeRows serverLimits [oneCellRow value]).sent ≠
      some [(oneCellRow value).decoded] := by
  intro hdecoded
  have hnormal := (oneCellRow_sendable value).normal
  have hmem : ∃ x ∈ (oneCellRow value).listing, x.cell = ⟨1000, value, []⟩ := by
    have hfilter := hnormal.listable.filter_listing (orderedBy_orders _) [102] [113]
    rw [oneCellRow_column] at hfilter
    have hlisted : (⟨[102], (oneCellRow value).orders [102], [113],
        ⟨1000, value, []⟩⟩ : ListedCell) ∈ (oneCellRow value).listing.filter (fun x => x.place = ([102], [113])) := by
      rw [hfilter]
      exact mem_singleton_self _
    exact ⟨_, mem_of_mem_filter hlisted, rfl⟩
  obtain ⟨x, hx, hcell⟩ := hmem
  refine not_wraps_of_decoded hdecoded (oneCellRow value) (by simp) x hx ?_
  rw [hcell]
  refine ⟨?_, ?_⟩
  · simp only [serverLimits, h]
    omega
  · simp only [h, dvd_refl]

theorem writeRows_wrapped_length :
    (oneCellRow (List.replicate (2 ^ 32) 0)).Sendable ∧
      decodeResponses
          (writeRows serverLimits [oneCellRow (List.replicate (2 ^ 32) 0)]).sent ≠
        some [(oneCellRow (List.replicate (2 ^ 32) 0)).decoded] :=
  ⟨oneCellRow_sendable _, oneCellRow_not_decoded List.length_replicate⟩

/-- A value that is split over two chunks. -/
theorem writeRows_decoded_iff_split :
    (∀ r ∈ [oneCellRow [1, 2, 3]], r.Sendable) ∧
      (writeRows ⟨2, 0, by decide⟩ [oneCellRow [1, 2, 3]]).sent.map List.length = [2] ∧
      decodeResponses (writeRows ⟨2, 0, by decide⟩ [oneCellRow [1, 2, 3]]).sent =
        some [(oneCellRow [1, 2, 3]).decoded] := by
  have hrows : ∀ r ∈ [oneCellRow [1, 2, 3]], r.Sendable := by
    intro r hr
    cases mem_singleton.mp hr
    exact oneCellRow_sendable _
  refine ⟨hrows, by decide +kernel, ?_⟩
  refine (writeRows_decoded_iff ⟨2, 0, by decide⟩ _ hrows).1.mpr ?_
  decide +kernel

end Main

end Bttest
end LittleBigtable
