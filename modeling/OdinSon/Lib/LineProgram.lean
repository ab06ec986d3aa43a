import OdinSon.Lib.Leb128

/-!
# Line number programs

The machine of version 4 line number information: a program of bytes moves a row of registers
and adds copies of it to a table.  `run` is the machine; the lemmas `run_copy`, `run_advancePc` and so
on say what an instruction does before any others.
-/

namespace OdinSon.Lib.LineProgram

/-- What the header of a program says about its instructions. -/
structure Header where
  /-- `minimum_instruction_length`. -/
  minInst : ℕ
  /-- `default_is_stmt`. -/
  defaultIsStmt : Bool
  /-- The least advance of the line by a special opcode. -/
  lineBase : ℤ
  /-- The number of advances of the line by special opcodes. -/
  lineRange : ℕ
  /-- The first special opcode. -/
  opcodeBase : ℕ
  /-- The number of arguments of each standard opcode. -/
  opcodeLengths : List ℕ

/-- The registers, and a row of the table. -/
structure Row where
  /-- The first address that the row is for. -/
  address : ℕ
  /-- The number of the file. -/
  file : ℕ
  /-- The line. -/
  line : ℤ
  /-- The column. -/
  column : ℕ
  /-- The address is a good place for a breakpoint. -/
  isStmt : Bool
  /-- The address is the first behind the code. -/
  endSequence : Bool
  deriving DecidableEq

/-- The registers at the start of a sequence. -/
def initial (h : Header) : Row := ⟨0, 1, 1, 0, h.defaultIsStmt, false⟩

/-- Leave out `n` operands. -/
def skipOperands : ℕ → List UInt8 → Option (List UInt8)
  | 0, bytes => some bytes
  | n + 1, bytes => (readUleb bytes).bind fun p => skipOperands n p.2

/-- An instruction with its length: the end of a sequence, an address, or one that is not known. -/
def extended (h : Header) (r : Row) : List UInt8 → Option (Row × List Row)
  | [] => none
  | op :: operand =>
    if op = 1 then some (initial h, [{ r with endSequence := true }])
    else if op = 2 then
      (readLittleEndian operand.length operand).map fun p => ({ r with address := p.1 }, [])
    else some (r, [])

/-- One instruction: the registers after it, the rows it adds and what comes next. -/
def step (h : Header) (r : Row) : List UInt8 → Option (Row × List Row × List UInt8)
  | [] => none
  | op :: bytes =>
    if h.opcodeBase ≤ op.toNat then
      let adjusted := op.toNat - h.opcodeBase
      let r := { r with
        address := r.address + h.minInst * (adjusted / h.lineRange)
        line := r.line + h.lineBase + (adjusted % h.lineRange : ℕ) }
      some (r, [r], bytes)
    else match op.toNat with
      | 0 => (readUleb bytes).bind fun (length, bytes) =>
          (extended h r (bytes.take length)).map fun (r, rows) => (r, rows, bytes.drop length)
      | 1 => some (r, [r], bytes)
      | 2 => (readUleb bytes).map fun (n, bytes) =>
          ({ r with address := r.address + h.minInst * n }, [], bytes)
      | 3 => (readSleb bytes).map fun (n, bytes) => ({ r with line := r.line + n }, [], bytes)
      | 4 => (readUleb bytes).map fun (n, bytes) => ({ r with file := n }, [], bytes)
      | 5 => (readUleb bytes).map fun (n, bytes) => ({ r with column := n }, [], bytes)
      | 6 => some ({ r with isStmt := !r.isStmt }, [], bytes)
      | 7 => some (r, [], bytes)
      | 8 => some ({ r with
          address := r.address + h.minInst * ((255 - h.opcodeBase) / h.lineRange) }, [], bytes)
      | 9 => (readLittleEndian 2 bytes).map fun (n, bytes) =>
          ({ r with address := r.address + n }, [], bytes)
      | n + 1 => (skipOperands (h.opcodeLengths.getD n 0) bytes).map fun bytes => (r, [], bytes)

/-- The rows of a program, from some registers on. -/
def run (h : Header) (r : Row) (bytes : List UInt8) : Option (List Row) :=
  if bytes = [] then some []
  else match step h r bytes with
    | none => none
    | some (r, rows, rest) =>
      if rest.length < bytes.length then (run h r rest).map (rows ++ ·) else none
termination_by bytes.length

theorem run_nil (h : Header) (r : Row) : run h r [] = some [] := by
  rw [run, if_pos rfl]

theorem run_step {h : Header} {r r' : Row} {bytes rest : List UInt8} {rows : List Row}
    (hstep : step h r bytes = some (r', rows, rest)) (hlt : rest.length < bytes.length) :
    run h r bytes = (run h r' rest).map (rows ++ ·) := by
  have hne : bytes ≠ [] := by
    rintro rfl
    exact Nat.not_lt_zero _ hlt
  rw [run, if_neg hne, hstep]
  exact if_pos hlt

/-- An instruction without a row. -/
theorem run_move {h : Header} {r r' : Row} {bytes rest : List UInt8}
    (hstep : step h r bytes = some (r', [], rest)) (hlt : rest.length < bytes.length) :
    run h r bytes = run h r' rest := by
  rw [run_step hstep hlt]
  cases run h r' rest <;> rfl

section Instructions

variable {h : Header} (hbase : h.opcodeBase = 13) (r : Row) (rest : List UInt8)

include hbase

theorem run_copy : run h r (1 :: rest) = (run h r rest).map (r :: ·) := by
  have hstep : step h r (1 :: rest) = some (r, [r], rest) := by
    rw [step, if_neg (by rw [hbase]; decide)]
    rfl
  exact run_step hstep (Nat.lt_succ_self _)

theorem run_advancePc (n : ℕ) :
    run h r (2 :: (uleb n ++ rest)) =
      run h { r with address := r.address + h.minInst * n } rest := by
  refine run_move ?_ ?_
  · rw [step, if_neg (by rw [hbase]; decide)]
    change (readUleb (uleb n ++ rest)).map _ = _
    rw [readUleb_uleb]
    rfl
  · rw [List.length_cons, List.length_append]
    omega

theorem run_advanceLine (n : ℤ) :
    run h r (3 :: (sleb n ++ rest)) = run h { r with line := r.line + n } rest := by
  refine run_move ?_ ?_
  · rw [step, if_neg (by rw [hbase]; decide)]
    change (readSleb (sleb n ++ rest)).map _ = _
    rw [readSleb_sleb]
    rfl
  · rw [List.length_cons, List.length_append]
    omega

theorem run_setFile (n : ℕ) :
    run h r (4 :: (uleb n ++ rest)) = run h { r with file := n } rest := by
  refine run_move ?_ ?_
  · rw [step, if_neg (by rw [hbase]; decide)]
    change (readUleb (uleb n ++ rest)).map _ = _
    rw [readUleb_uleb]
    rfl
  · rw [List.length_cons, List.length_append]
    omega

theorem run_setAddress {address : ℕ} (haddress : address < 256 ^ 8) :
    run h r (0 :: 9 :: 2 :: (littleEndian 8 address ++ rest)) =
      run h { r with address := address } rest := by
  have hlength : (littleEndian 8 address).length = 8 := rfl
  have hread := readLittleEndian_littleEndian haddress []
  rw [List.append_nil] at hread
  have hnine : readUleb (9 :: 2 :: (littleEndian 8 address ++ rest)) =
      some (9, 2 :: (littleEndian 8 address ++ rest)) := rfl
  refine run_move ?_ ?_
  · rw [step, if_neg (by rw [hbase]; decide)]
    change (readUleb _).bind _ = _
    rw [hnine, Option.bind_some]
    dsimp only
    rw [List.take_succ_cons, List.drop_succ_cons, List.take_left' hlength,
      List.drop_left' hlength, extended, if_neg (by decide), if_pos rfl, hlength, hread]
    rfl
  · rw [List.length_cons, List.length_cons, List.length_cons, List.length_append]
    omega

theorem run_endSequence :
    run h r (0 :: 1 :: 1 :: rest) =
      (run h (initial h) rest).map ({ r with endSequence := true } :: ·) := by
  have hstep : step h r (0 :: 1 :: 1 :: rest) =
      some (initial h, [{ r with endSequence := true }], rest) := by
    rw [step, if_neg (by rw [hbase]; decide)]
    rfl
  refine run_step hstep ?_
  rw [List.length_cons, List.length_cons, List.length_cons]
  omega

end Instructions

end OdinSon.Lib.LineProgram
