import OdinSon.Codegen.Leb
import OdinSon.Lib.LineProgram

/-!
# The line table

How a procedure's source locations are recorded while its code is emitted (`bac/codegen.odin`), and
the line number program that is written for them (`odinc/elf.odin`).  `line_table_rows` says what table
a debugger has of it.
-/

namespace OdinSon.Odinc.DebugLine

open Lib (littleEndian)
open Lib.LineProgram (Header Row run initial)

/-- `Sloc`. -/
structure Sloc where
  /-- The file, of the procedure's module. -/
  file : BitVec 20
  /-- The line. -/
  line : BitVec 20
  /-- The column. -/
  col : BitVec 16
  /-- The number of bytes of code that the location is for. -/
  range : BitVec 8
  deriving DecidableEq

/-! ### Recording -/

/-- What of `Codegen_Emit_Ctx` records locations. -/
structure EmitCtx where
  /-- Where the code ends. -/
  pos : ℕ
  /-- Where the last range ends. -/
  lastOff : ℕ
  /-- The location of the instruction that is emitted. -/
  sloc : Sloc
  /-- The locations so far. -/
  slocs : List Sloc

/-- `next_sloc`, with debug information on; the field has the low bits of the length. -/
def nextSloc (ctx : EmitCtx) : EmitCtx :=
  let cx := { ctx.sloc with range := BitVec.ofNat 8 (ctx.pos - ctx.lastOff) }
  { ctx with slocs := ctx.slocs ++ [cx], lastOff := ctx.pos }

/-- `mount_sloc`, with the location of the node. -/
def mountSloc (ctx : EmitCtx) (sloc : Sloc) : EmitCtx :=
  { ctx with sloc := sloc, lastOff := ctx.pos }

/-- The emission of an instruction with its location, in pieces of these sizes that `next_sloc`
ends. -/
def emitInstr (ctx : EmitCtx) (instr : Sloc × List ℕ) : EmitCtx :=
  instr.2.foldl (fun ctx size => nextSloc { ctx with pos := ctx.pos + size })
    (mountSloc ctx instr.1)

/-- The length of a list of ranges. -/
def totalLength (slocs : List Sloc) : ℕ := (slocs.map fun sloc => sloc.range.toNat).sum

theorem totalLength_append (slocs later : List Sloc) :
    totalLength (slocs ++ later) = totalLength slocs + totalLength later := by
  rw [totalLength, List.map_append, List.sum_append]
  rfl

/-- The ranges recorded of a procedure at `base` reach up to where its code ends. -/
structure EmitCtx.Exact (base : ℕ) (ctx : EmitCtx) : Prop where
  lastOff : ctx.lastOff = base + totalLength ctx.slocs
  pos : ctx.pos = ctx.lastOff

section Exact

variable {base : ℕ} {ctx : EmitCtx}

/-- A range of at most 255 bytes is recorded as it is. -/
theorem EmitCtx.Exact.next (h : ctx.Exact base) {size : ℕ} (hsize : size < 256) :
    (nextSloc { ctx with pos := ctx.pos + size }).Exact base := by
  have hlast := h.lastOff
  have hrange : (BitVec.ofNat 8 (ctx.pos + size - ctx.lastOff)).toNat = size := by
    rw [h.pos, Nat.add_sub_cancel_left, BitVec.toNat_ofNat]
    exact Nat.mod_eq_of_lt hsize
  refine ⟨?_, rfl⟩
  dsimp only [nextSloc]
  rw [totalLength_append, totalLength, totalLength, List.map_singleton, List.sum_singleton, hrange,
    h.pos]
  rw [totalLength] at hlast
  omega

/-- A node's location is mounted where the range before it ends. -/
theorem EmitCtx.Exact.mount (h : ctx.Exact base) (sloc : Sloc) : (mountSloc ctx sloc).Exact base :=
  ⟨h.pos.trans h.lastOff, rfl⟩

theorem EmitCtx.Exact.emitInstr (h : ctx.Exact base) {instr : Sloc × List ℕ}
    (hsizes : ∀ size ∈ instr.2, size < 256) : (emitInstr ctx instr).Exact base :=
  List.foldlRecOn instr.2 _ (h.mount instr.1) fun _ h size hsize => h.next (hsizes size hsize)

/-- A run of the emitter. -/
theorem EmitCtx.Exact.run (h : ctx.Exact base) {instrs : List (Sloc × List ℕ)}
    (hsizes : ∀ instr ∈ instrs, ∀ size ∈ instr.2, size < 256) :
    (instrs.foldl DebugLine.emitInstr ctx).Exact base :=
  List.foldlRecOn instrs _ h fun _ h instr hinstr => h.emitInstr (hsizes instr hinstr)

/-- The ranges of a procedure add up to the length of its code. -/
theorem totalLength_emitInstr {instrs : List (Sloc × List ℕ)} {sloc : Sloc}
    (hsizes : ∀ instr ∈ instrs, ∀ size ∈ instr.2, size < 256) :
    let ctx := instrs.foldl emitInstr ⟨base, base, sloc, []⟩
    ctx.pos = base + totalLength ctx.slocs := by
  have hstart : EmitCtx.Exact base ⟨base, base, sloc, []⟩ := ⟨rfl, rfl⟩
  have h := hstart.run hsizes
  exact h.pos.trans h.lastOff

end Exact

/-! ### Writing -/

/-- The fields of the header that the machine reads. -/
def headerFields : List UInt8 :=
  [1, 1, 1, 0xfb, 14, 13] ++ [0, 1, 1, 1, 1, 0, 0, 0, 1, 0, 0, 1]

/-- What a debugger has of these fields. -/
def readHeader : List UInt8 → Option Header
  | minInst :: _ :: isStmt :: lineBase :: lineRange :: opcodeBase :: lengths =>
    some ⟨minInst.toNat, isStmt != 0, (lineBase.toBitVec).toInt, lineRange.toNat,
      opcodeBase.toNat, (lengths.take (opcodeBase.toNat - 1)).map UInt8.toNat⟩
  | _ => none

/-- The header of `.debug_line`. -/
def header : Header := ⟨1, true, -5, 14, 13, [0, 1, 1, 1, 1, 0, 0, 0, 1, 0, 0, 1]⟩

theorem readHeader_headerFields : readHeader headerFields = some header := rfl

/-- The variables of the loop over `slocs`. -/
structure LineEmit where
  /-- The section so far. -/
  dbgLine : List UInt8
  /-- The file of the last location, counted from one. -/
  file : BitVec 64
  /-- The offset of the last row. -/
  prevOff : BitVec 32
  /-- The line of the last row. -/
  prevLine : BitVec 64
  /-- The sum of the ranges so far. -/
  curOff : BitVec 32

namespace LineEmit

/-- `Set_File`. -/
def setFile (e : LineEmit) (file : BitVec 64) : LineEmit :=
  { e with file := file, dbgLine := Codegen.Leb.uleb (e.dbgLine ++ [4]) file }

/-- `Advance_Pc`, when the offset has changed. -/
def advancePc (e : LineEmit) : LineEmit :=
  if e.curOff ≠ e.prevOff then
    { e with
      dbgLine := Codegen.Leb.uleb (e.dbgLine ++ [2]) ((e.curOff - e.prevOff).setWidth 64)
      prevOff := e.curOff }
  else e

/-- `Advance_Line`, when the line has changed. -/
def advanceLine (e : LineEmit) (line : BitVec 64) : LineEmit :=
  if line ≠ e.prevLine then
    { e with
      dbgLine := Codegen.Leb.sleb (e.dbgLine ++ [3]) (line - e.prevLine)
      prevLine := line }
  else e

/-- `Copy`. -/
def copy (e : LineEmit) : LineEmit := { e with dbgLine := e.dbgLine ++ [1] }

/-- One round of the loop. -/
def step (e : LineEmit) (sloc : Sloc) : LineEmit :=
  let e := if sloc.file.setWidth 64 + 1 ≠ e.file then e.setFile (sloc.file.setWidth 64 + 1) else e
  let e := (e.advancePc.advanceLine (sloc.line.setWidth 64)).copy
  { e with curOff := e.curOff + sloc.range.setWidth 32 }

end LineEmit

/-- What a procedure adds to `.debug_line`, and where the address of the procedure is to be put. -/
def procLines (dbgLine : List UInt8) (fileId : BitVec 32) (slocs : List Sloc) :
    List UInt8 × Option ℕ :=
  if slocs = [] then (dbgLine, none)
  else
    let opened := dbgLine ++ [0, 9, 2]
    let e := LineEmit.setFile ⟨opened ++ littleEndian 8 0, 0, 0, 1, 0⟩ (fileId.setWidth 64 + 1)
    ((slocs.foldl LineEmit.step e).advancePc.dbgLine ++ [0, 1, 1], some opened.length)

/-- The linker puts an address of 64 bits at an offset. -/
def relocate (bytes : List UInt8) (offset : ℕ) (address : BitVec 64) : List UInt8 :=
  bytes.take offset ++ littleEndian 8 address.toNat ++ bytes.drop (offset + 8)

/-- `.debug_line` after a procedure at `start`, linked. -/
def linkedLines (dbgLine : List UInt8) (fileId : BitVec 32) (slocs : List Sloc)
    (start : BitVec 64) : List UInt8 :=
  match procLines dbgLine fileId slocs with
  | (bytes, some offset) => relocate bytes offset start
  | (bytes, none) => bytes

/-! ### What the machine makes of it -/

/-- What has been written since `e`, when the machine with the registers `r` reads it, adds `rows` and
leaves the registers at `r'`. -/
def Writes (e e' : LineEmit) (r r' : Row) (rows : List Row) : Prop :=
  ∃ bytes, e'.dbgLine = e.dbgLine ++ bytes ∧
    ∀ rest, run header r (bytes ++ rest) = (run header r' rest).map (rows ++ ·)

theorem map_nil_append (rows : Option (List Row)) : rows.map ([] ++ ·) = rows := by
  cases rows <;> rfl

theorem Writes.refl (e : LineEmit) (r : Row) : Writes e e r r [] :=
  ⟨[], (List.append_nil _).symm, fun _ => (map_nil_append _).symm⟩

theorem Writes.trans {e e' e'' : LineEmit} {r r' r'' : Row} {rows rows' : List Row}
    (h : Writes e e' r r' rows) (h' : Writes e' e'' r' r'' rows') :
    Writes e e'' r r'' (rows ++ rows') := by
  obtain ⟨bytes, hbytes, hrun⟩ := h
  obtain ⟨bytes', hbytes', hrun'⟩ := h'
  refine ⟨bytes ++ bytes', by rw [hbytes', hbytes, List.append_assoc], fun rest => ?_⟩
  rw [List.append_assoc, hrun, hrun', Option.map_map]
  cases run header r'' rest with
  | none => rfl
  | some all => exact congrArg some (List.append_assoc _ _ _).symm

/-- What has been read of a procedure at `start` whose ranges so far have the sum `total`: the last
range may be still to come. -/
structure At (start : ℕ) (e : LineEmit) (r : Row) (total : ℕ) : Prop where
  file : r.file = e.file.toNat
  line : r.line = e.prevLine.toNat
  lineSmall : e.prevLine.toNat < 2 ^ 20
  address : r.address + (e.curOff - e.prevOff).toNat = start + total
  column : r.column = 0
  isStmt : r.isStmt = true
  endSequence : r.endSequence = false

variable {start total : ℕ} {e : LineEmit} {r : Row}

theorem At.setFile (h : At start e r total) (file : BitVec 64) :
    ∃ r', Writes e (e.setFile file) r r' [] ∧ At start (e.setFile file) r' total := by
  refine ⟨{ r with file := file.toNat }, ⟨4 :: Lib.uleb file.toNat, ?_, fun rest => ?_⟩,
    ⟨rfl, h.line, h.lineSmall, h.address, h.column, h.isStmt, h.endSequence⟩⟩
  · rw [LineEmit.setFile, Codegen.Leb.uleb_eq, List.append_assoc]
    rfl
  · rw [map_nil_append, List.cons_append]
    exact Lib.LineProgram.run_setFile rfl r rest file.toNat

theorem At.advancePc (h : At start e r total) :
    ∃ r', Writes e e.advancePc r r' [] ∧ At start e.advancePc r' total ∧
      e.advancePc.curOff = e.advancePc.prevOff := by
  rw [LineEmit.advancePc]
  split_ifs with hoff
  · have hwidth : ((e.curOff - e.prevOff).setWidth 64).toNat = (e.curOff - e.prevOff).toNat := by
      rw [BitVec.toNat_setWidth]
      exact Nat.mod_eq_of_lt ((e.curOff - e.prevOff).isLt.trans (by decide))
    refine ⟨{ r with address := r.address + 1 * (e.curOff - e.prevOff).toNat },
      ⟨2 :: Lib.uleb (e.curOff - e.prevOff).toNat, ?_, fun rest => ?_⟩,
      ⟨h.file, h.line, h.lineSmall, ?_, h.column, h.isStmt, h.endSequence⟩, rfl⟩
    · rw [Codegen.Leb.uleb_eq, hwidth, List.append_assoc]
      rfl
    · rw [map_nil_append, List.cons_append]
      exact Lib.LineProgram.run_advancePc rfl r rest _
    · dsimp only
      rw [BitVec.sub_self, one_mul]
      exact h.address
  · exact ⟨r, Writes.refl e r, h, not_ne_iff.mp hoff⟩

/-- Lines are so small that their difference is one of numbers. -/
theorem toInt_sub_of_small {line prevLine : BitVec 64} (hline : line.toNat < 2 ^ 20)
    (hprev : prevLine.toNat < 2 ^ 20) :
    (line - prevLine).toInt = (line.toNat : ℤ) - prevLine.toNat := by
  have hi (v : BitVec 64) (h : v.toNat < 2 ^ 20) : v.toInt = v.toNat :=
    BitVec.toInt_eq_toNat_of_lt (by omega)
  rw [BitVec.toInt_sub, hi line hline, hi prevLine hprev, Int.bmod_def]
  omega

theorem At.advanceLine (h : At start e r total) {line : BitVec 64} (hline : line.toNat < 2 ^ 20) :
    ∃ r', Writes e (e.advanceLine line) r r' [] ∧ At start (e.advanceLine line) r' total ∧
      (e.advanceLine line).prevLine = line := by
  rw [LineEmit.advanceLine]
  split_ifs with hne
  · have hsub := toInt_sub_of_small hline h.lineSmall
    refine ⟨{ r with line := r.line + (line - e.prevLine).toInt },
      ⟨3 :: Lib.sleb (line - e.prevLine).toInt, ?_, fun rest => ?_⟩,
      ⟨h.file, ?_, hline, h.address, h.column, h.isStmt, h.endSequence⟩, rfl⟩
    · rw [Codegen.Leb.sleb_eq, List.append_assoc]
      rfl
    · rw [map_nil_append, List.cons_append]
      exact Lib.LineProgram.run_advanceLine rfl r rest _
    · dsimp only
      rw [hsub, h.line]
      omega
  · exact ⟨r, Writes.refl e r, h, (not_ne_iff.mp hne).symm⟩

theorem LineEmit.file_advancePc (e : LineEmit) : e.advancePc.file = e.file := by
  rw [LineEmit.advancePc]
  split_ifs <;> rfl

theorem LineEmit.file_advanceLine (e : LineEmit) (line : BitVec 64) :
    (e.advanceLine line).file = e.file := by
  rw [LineEmit.advanceLine]
  split_ifs <;> rfl

theorem LineEmit.offsets_advanceLine (e : LineEmit) (line : BitVec 64) :
    (e.advanceLine line).curOff = e.curOff ∧ (e.advanceLine line).prevOff = e.prevOff := by
  rw [LineEmit.advanceLine]
  split_ifs <;> exact ⟨rfl, rfl⟩

/-- The row of a location at an address. -/
def locationRow (address : ℕ) (sloc : Sloc) : Row :=
  ⟨address, sloc.file.toNat + 1, sloc.line.toNat, 0, true, false⟩

/-- A round of the loop adds the row of its location, and the range is what comes next. -/
theorem At.step (h : At start e r total) (sloc : Sloc) :
    ∃ r', Writes e (e.step sloc) r r' [locationRow (start + total) sloc] ∧
      At start (e.step sloc) r' (total + sloc.range.toNat) := by
  have hfile : (sloc.file.setWidth 64 + 1).toNat = sloc.file.toNat + 1 := by
    have := sloc.file.isLt
    rw [BitVec.toNat_add, BitVec.toNat_setWidth]
    change (sloc.file.toNat % 2 ^ 64 + 1) % 2 ^ 64 = _
    omega
  have hline : (sloc.line.setWidth 64).toNat = sloc.line.toNat := by
    have := sloc.line.isLt
    rw [BitVec.toNat_setWidth]
    omega
  -- the file
  obtain ⟨e₁, he₁, hfile₁, r₁, hw₁, h₁⟩ : ∃ e₁, e₁ =
      (if sloc.file.setWidth 64 + 1 ≠ e.file then e.setFile (sloc.file.setWidth 64 + 1) else e) ∧
      e₁.file = sloc.file.setWidth 64 + 1 ∧ ∃ r₁, Writes e e₁ r r₁ [] ∧ At start e₁ r₁ total := by
    split_ifs with hne
    · exact ⟨_, rfl, rfl, h.setFile _⟩
    · exact ⟨_, rfl, (not_ne_iff.mp hne).symm, r, Writes.refl e r, h⟩
  obtain ⟨r₂, hw₂, h₂, hoff₂⟩ := h₁.advancePc
  have hsmall : (sloc.line.setWidth 64).toNat < 2 ^ 20 := hline ▸ sloc.line.isLt
  obtain ⟨r₃, hw₃, h₃, hline₃⟩ := h₂.advanceLine hsmall
  obtain ⟨hcur, hprev⟩ := e₁.advancePc.offsets_advanceLine (sloc.line.setWidth 64)
  have hoff : (e₁.advancePc.advanceLine (sloc.line.setWidth 64)).curOff =
      (e₁.advancePc.advanceLine (sloc.line.setWidth 64)).prevOff := by
    rw [hcur, hprev, hoff₂]
  have hrow : r₃ = locationRow (start + total) sloc := by
    have haddress := h₃.address
    have hfile := h₃.file
    have hline := h₃.line
    have hcolumn := h₃.column
    have hstmt := h₃.isStmt
    have hend := h₃.endSequence
    rw [hoff, BitVec.sub_self] at haddress
    rw [LineEmit.file_advanceLine, LineEmit.file_advancePc, hfile₁] at hfile
    rw [hline₃] at hline
    cases r₃
    simp_all only [locationRow, BitVec.toNat_zero, add_zero]
  have hcopy : Writes (e₁.advancePc.advanceLine (sloc.line.setWidth 64)) (e.step sloc) r₃ r₃
      [locationRow (start + total) sloc] := by
    refine ⟨[1], ?_, fun rest => ?_⟩
    · rw [he₁]
      rfl
    · rw [← hrow]
      exact Lib.LineProgram.run_copy rfl r₃ rest
  refine ⟨r₃, ((hw₁.trans hw₂).trans hw₃).trans hcopy, ?_⟩
  -- the range is what is between the offsets now
  have hrange : (sloc.range.setWidth 32).toNat = sloc.range.toNat := by
    have := sloc.range.isLt
    rw [BitVec.toNat_setWidth]
    omega
  have hstep : e.step sloc =
      { (e₁.advancePc.advanceLine (sloc.line.setWidth 64)).copy with
        curOff := (e₁.advancePc.advanceLine (sloc.line.setWidth 64)).curOff +
          sloc.range.setWidth 32 } := by
    rw [he₁]
    rfl
  rw [hstep]
  refine ⟨h₃.file, h₃.line, h₃.lineSmall, ?_, h₃.column, h₃.isStmt, h₃.endSequence⟩
  have haddress := h₃.address
  rw [hoff, BitVec.sub_self] at haddress
  dsimp only [LineEmit.copy]
  rw [hoff, BitVec.add_comm, BitVec.add_sub_cancel, hrange, ← Nat.add_assoc, ← haddress]
  rfl

/-- The rows of the locations, from an address on. -/
def locationRows : ℕ → List Sloc → List Row
  | _, [] => []
  | address, sloc :: slocs =>
    locationRow address sloc :: locationRows (address + sloc.range.toNat) slocs

theorem locationRows_eq (address : ℕ) (slocs : List Sloc) :
    locationRows address slocs =
      slocs.mapIdx fun i sloc => locationRow (address + totalLength (slocs.take i)) sloc := by
  induction slocs generalizing address with
  | nil => rfl
  | cons sloc slocs ih =>
    rw [locationRows, ih, List.mapIdx_cons]
    congr 1
    refine congrArg (List.mapIdx · slocs) (funext fun i => funext fun later => ?_)
    rw [List.take_succ_cons, totalLength, totalLength, List.map_cons, List.sum_cons, Nat.add_assoc]

/-- The loop adds the rows of all locations. -/
theorem At.steps (slocs : List Sloc) (h : At start e r total) :
    ∃ r', Writes e (slocs.foldl LineEmit.step e) r r' (locationRows (start + total) slocs) ∧
      At start (slocs.foldl LineEmit.step e) r' (total + totalLength slocs) := by
  induction slocs generalizing e r total with
  | nil => exact ⟨r, Writes.refl e r, h⟩
  | cons sloc slocs ih =>
    obtain ⟨r', hw, h'⟩ := h.step sloc
    obtain ⟨r'', hw', h''⟩ := ih h'
    rw [Nat.add_assoc] at h''
    refine ⟨r'', ?_, h''⟩
    rw [List.foldl_cons, locationRows, Nat.add_assoc]
    exact hw.trans hw'

/-- The registers where the locations of a procedure begin. -/
theorem at_start (dbgLine : List UInt8) (start : ℕ) :
    At start ⟨dbgLine, 1, 0, 1, 0⟩ { initial header with address := start } 0 :=
  ⟨rfl, rfl, (by decide : 1 < 2 ^ 20), by rw [BitVec.sub_self]; rfl, rfl, rfl, rfl⟩

theorem relocate_append (before after : List UInt8) (address : BitVec 64) :
    relocate (before ++ (littleEndian 8 0 ++ after)) before.length address =
      before ++ (littleEndian 8 address.toNat ++ after) := by
  have hzero : (littleEndian 8 0).length = 8 := rfl
  have hdrop : (before ++ (littleEndian 8 0 ++ after)).drop (before.length + 8) = after := by
    rw [← List.append_assoc, List.drop_left' (by rw [List.length_append, hzero])]
  rw [relocate, List.take_left, hdrop, List.append_assoc]

/-- A debugger has the table of a procedure: for each location in order its row, at the start and what
the ranges before it add up to, then the end of the sequence. -/
def Tabled (dbgLine : List UInt8) (fileId : BitVec 32) (slocs : List Sloc)
    (start : BitVec 64) : Prop :=
  ∃ linked last, linkedLines dbgLine fileId slocs start = dbgLine ++ linked ∧
    last.endSequence = true ∧ last.address = start.toNat + totalLength slocs ∧
    ∀ rest, run header (initial header) (linked ++ rest) =
      (run header (initial header) rest).map
        ((slocs.mapIdx fun i sloc =>
          locationRow (start.toNat + totalLength (slocs.take i)) sloc) ++ [last] ++ ·)

/-- **The line table is exact** for a procedure with locations. -/
theorem line_table_rows (dbgLine : List UInt8) (fileId : BitVec 32) {slocs : List Sloc}
    (h : slocs ≠ []) (start : BitVec 64) : Tabled dbgLine fileId slocs start := by
  have hopen := at_start (dbgLine ++ [0, 9, 2] ++ littleEndian 8 0) start.toNat
  obtain ⟨r₁, hw₁, h₁⟩ := hopen.setFile (fileId.setWidth 64 + 1)
  obtain ⟨r₂, hw₂, h₂⟩ := h₁.steps slocs
  obtain ⟨r₃, hw₃, h₃, hoff⟩ := h₂.advancePc
  obtain ⟨bytes, hbytes, hrun⟩ := (hw₁.trans hw₂).trans hw₃
  have haddress := h₃.address
  rw [hoff, BitVec.sub_self, BitVec.toNat_zero, add_zero, zero_add] at haddress
  refine ⟨[0, 9, 2] ++ (littleEndian 8 start.toNat ++ (bytes ++ [0, 1, 1])),
    { r₃ with endSequence := true }, ?_, rfl, haddress, fun rest => ?_⟩
  · have hproc : procLines dbgLine fileId slocs =
        (dbgLine ++ [0, 9, 2] ++ (littleEndian 8 0 ++ (bytes ++ [0, 1, 1])),
          some (dbgLine ++ [0, 9, 2]).length) := by
      rw [procLines, if_neg h, ← List.append_assoc, ← List.append_assoc, ← hbytes]
      rfl
    rw [linkedLines, hproc]
    dsimp only
    rw [relocate_append, List.append_assoc]
  · have hend := Lib.LineProgram.run_endSequence (h := header) rfl r₃ rest
    have hset := Lib.LineProgram.run_setAddress (h := header) rfl (initial header)
      (bytes ++ (0 :: 1 :: 1 :: rest)) start.isLt
    simp only [List.cons_append, List.nil_append, List.append_assoc] at hset hrun ⊢
    rw [hset, hrun, hend, Option.map_map, ← locationRows_eq]
    rfl

/-- A call that is inlined from a smaller line of another file, with a location of no code. -/
theorem line_table_rows_inlined :
    Tabled [7] 0 [⟨0, 30, 0, 4⟩, ⟨1, 12, 5, 200⟩, ⟨1, 13, 9, 0⟩, ⟨0, 30, 2, 255⟩, ⟨0, 31, 1, 1⟩]
      0x401000 :=
  line_table_rows [7] 0 (by decide) 0x401000

/-- Without locations nothing is written, and there is no end either. -/
theorem not_tabled_nil : ¬ ∀ slocs, Tabled [] 0 slocs 0 := by
  intro h
  obtain ⟨linked, last, hlinked, -, -, hrun⟩ := h []
  obtain rfl : [] = linked := hlinked
  have hrows := hrun []
  rw [List.append_nil, Lib.LineProgram.run_nil] at hrows
  cases hrows

end OdinSon.Odinc.DebugLine
