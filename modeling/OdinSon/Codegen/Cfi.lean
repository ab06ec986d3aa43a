import OdinSon.Lib.Leb128

/-!
# Call frame information

`Cfi_Op`s (`bac/codegen.odin`) and how they become the instructions of an entry of `.eh_frame`
(`odinc/elf.odin`), and on the other side what an unwinder does with these bytes: it decodes them,
runs the ones up to an address, and gets the rule for the canonical frame address and where the
registers of the caller are.  `unwind_eq` says that it reads
what was written.
-/

namespace OdinSon.Codegen

open Lib

/-- `Cfi_Spec`. -/
structure CfiSpec where
  /-- The stack pointer. -/
  cfaReg : ℕ
  /-- The column of the return address. -/
  returnAddrReg : ℕ
  /-- How far the frame address is from the stack pointer at the entry. -/
  initialCfaOffset : ℕ
  /-- The unit of the advances. -/
  codeAlign : ℕ
  /-- `-data_align`, the unit of the offsets. -/
  dataAlign : ℕ

/-- `Cfi_Kind`. -/
inductive CfiKind where
  | defCfaOffset | saveReg | restoreReg | rememberState | restoreState
  deriving DecidableEq, Repr

/-- `Cfi_Op`. -/
structure CfiOp where
  /-- The place in the code from which on the operation holds. -/
  offset : ℕ
  /-- An offset from the frame address. -/
  arg : ℕ
  /-- What changes. -/
  kind : CfiKind
  /-- The register that is saved or restored. -/
  reg : ℕ
  deriving DecidableEq, Repr

/-- The instructions that an unwinder knows, of those that are written. -/
inductive DwCfa where
  | advanceLoc (delta : ℕ)
  | offset (reg factored : ℕ)
  | restore (reg : ℕ)
  | nop
  | rememberState
  | restoreState
  | defCfa (reg offset : ℕ)
  | defCfaOffset (offset : ℕ)
  deriving DecidableEq, Repr

/-! ### Writing -/

/-- `Dw_Cfa_Op`: the two top bits are the opcode. -/
def dwCfaOp (op arg : ℕ) : UInt8 := UInt8.ofNat (arg % 64 + 64 * op)

/-- The bytes that move the address on. -/
def putAdvance (delta : ℕ) : List UInt8 :=
  if delta < 64 then [dwCfaOp 1 delta]
  else if delta < 0x100 then [0x02, UInt8.ofNat delta]
  else if delta < 0x10000 then 0x03 :: littleEndian 2 delta
  else 0x04 :: littleEndian 4 delta

/-- The bytes of an operation, without its address. -/
def putOp (spec : CfiSpec) (op : CfiOp) : List UInt8 :=
  match op.kind with
  | .defCfaOffset => 0x0e :: uleb op.arg
  | .saveReg => dwCfaOp 2 op.reg :: uleb (op.arg / spec.dataAlign)
  | .restoreReg => [dwCfaOp 3 op.reg]
  | .rememberState => [0x0a]
  | .restoreState => [0x0b]

/-- The instructions of an entry: `cur` is the address so far, `codeLen` the length of the code of
the procedure. -/
def putOps (spec : CfiSpec) (codeLen : ℕ) : ℕ → List CfiOp → List UInt8
  | _, [] => []
  | cur, op :: ops =>
    if op.offset ≥ codeLen then putOps spec codeLen cur ops
    else if op.offset > cur then
      putAdvance ((op.offset - cur) / spec.codeAlign) ++ putOp spec op ++
        putOps spec codeLen op.offset ops
    else putOp spec op ++ putOps spec codeLen cur ops

/-- The instructions that all entries share. -/
def putCie (spec : CfiSpec) : List UInt8 :=
  0x0c :: (uleb spec.cfaReg ++ uleb spec.initialCfaOffset) ++
    dwCfaOp 2 spec.returnAddrReg :: uleb (spec.initialCfaOffset / spec.dataAlign)

/-- The end of an entry is filled up. -/
def pad (n : ℕ) : List UInt8 := List.replicate n 0x00

/-! ### Reading -/

/-- Decode one instruction. -/
def readInstr : List UInt8 → Option (DwCfa × List UInt8)
  | [] => none
  | b :: bytes =>
    let arg := b.toNat % 64
    match b.toNat / 64 with
    | 1 => some (.advanceLoc arg, bytes)
    | 2 => (readUleb bytes).map fun p => (.offset arg p.1, p.2)
    | 3 => some (.restore arg, bytes)
    | _ =>
      match b.toNat with
      | 0x00 => some (.nop, bytes)
      | 0x02 => (readLittleEndian 1 bytes).map fun p => (.advanceLoc p.1, p.2)
      | 0x03 => (readLittleEndian 2 bytes).map fun p => (.advanceLoc p.1, p.2)
      | 0x04 => (readLittleEndian 4 bytes).map fun p => (.advanceLoc p.1, p.2)
      | 0x0a => some (.rememberState, bytes)
      | 0x0b => some (.restoreState, bytes)
      | 0x0c => do
        let (reg, bytes) ← readUleb bytes
        let (offset, bytes) ← readUleb bytes
        return (.defCfa reg offset, bytes)
      | 0x0e => (readUleb bytes).map fun p => (.defCfaOffset p.1, p.2)
      | _ => none

/-- Decode all the instructions of an entry; each takes a byte at least. -/
@[grind =] def readInstrs : ℕ → List UInt8 → Option (List DwCfa)
  | _, [] => some []
  | 0, _ :: _ => none
  | fuel + 1, bytes => do
    let (instr, bytes) ← readInstr bytes
    let instrs ← readInstrs fuel bytes
    return instr :: instrs

/-- The rules for an address. -/
structure Row where
  /-- The register that the canonical frame address is an offset from. -/
  cfaReg : ℕ
  /-- The offset from this register. -/
  cfaOffset : ℕ
  /-- Where the registers of the caller are, from the canonical frame address. -/
  rule : ℕ → Option ℤ

/-- The state of an unwinder. -/
structure Unwinder where
  /-- The address that the rules hold from. -/
  loc : ℕ
  /-- The rules. -/
  row : Row
  /-- The rules that are remembered. -/
  stack : List Row

/-- One instruction other than moving on; `init` are the rules of the shared part. -/
def Unwinder.exec (spec : CfiSpec) (init : Row) (u : Unwinder) : DwCfa → Option Unwinder
  | .advanceLoc _ | .nop => some u
  | .offset reg n =>
    some { u with row := { u.row with
      rule := Function.update u.row.rule reg (some (-(n * spec.dataAlign : ℕ))) } }
  | .restore reg =>
    some { u with row := { u.row with rule := Function.update u.row.rule reg (init.rule reg) } }
  | .rememberState => some { u with stack := u.row :: u.stack }
  | .restoreState =>
    match u.stack with
    | [] => none
    | row :: stack => some { u with row, stack }
  | .defCfa reg n => some { u with row := { u.row with cfaReg := reg, cfaOffset := n } }
  | .defCfaOffset n => some { u with row := { u.row with cfaOffset := n } }

/-- The rules at the address `addr`: the instructions up to the first that moves on beyond it. -/
def Unwinder.rowAt (spec : CfiSpec) (init : Row) (addr : ℕ) (u : Unwinder) :
    List DwCfa → Option Row
  | [] => some u.row
  | .advanceLoc delta :: instrs =>
    let loc := u.loc + delta * spec.codeAlign
    if loc > addr then some u.row else rowAt spec init addr { u with loc } instrs
  | instr :: instrs => (u.exec spec init instr).bind fun u => rowAt spec init addr u instrs

/-- The rules before any instruction. -/
def Row.empty : Row := ⟨0, 0, fun _ => none⟩

/-- **Unwinding**: the rules at an address from the bytes of the shared part and of the entry. -/
def unwind (spec : CfiSpec) (cie fde : List UInt8) (addr : ℕ) : Option Row := do
  let shared ← readInstrs cie.length cie
  let init ← Unwinder.rowAt spec .empty 0 ⟨0, .empty, []⟩ shared
  let instrs ← readInstrs fde.length fde
  Unwinder.rowAt spec init addr ⟨0, init, []⟩ instrs

/-! ### Reading what was written -/

/-- What an operation is written as. -/
def CfiOp.toInstr (spec : CfiSpec) (op : CfiOp) : DwCfa :=
  match op.kind with
  | .defCfaOffset => .defCfaOffset op.arg
  | .saveReg => .offset op.reg (op.arg / spec.dataAlign)
  | .restoreReg => .restore op.reg
  | .rememberState => .rememberState
  | .restoreState => .restoreState

/-- What the operations of a procedure are written as. -/
def toInstrs (spec : CfiSpec) (codeLen : ℕ) : ℕ → List CfiOp → List DwCfa
  | _, [] => []
  | cur, op :: ops =>
    if op.offset ≥ codeLen then toInstrs spec codeLen cur ops
    else if op.offset > cur then
      .advanceLoc ((op.offset - cur) / spec.codeAlign) :: op.toInstr spec ::
        toInstrs spec codeLen op.offset ops
    else op.toInstr spec :: toInstrs spec codeLen cur ops

variable {spec : CfiSpec} {bytes : List UInt8}

theorem toNat_dwCfaOp {op arg : ℕ} (hop : op < 4) (harg : arg < 64) :
    (dwCfaOp op arg).toNat = arg + 64 * op := by
  rw [dwCfaOp, Nat.mod_eq_of_lt harg, toNat_ofNat_of_lt (by omega)]

theorem readInstr_putAdvance {delta : ℕ} (h : delta < 2 ^ 32) :
    readInstr (putAdvance delta ++ bytes) = some (.advanceLoc delta, bytes) := by
  rw [putAdvance]
  split_ifs with h1 h2 h3
  · have hb := toNat_dwCfaOp (by decide : 1 < 4) h1
    have hop : (dwCfaOp 1 delta).toNat / 64 = 1 := by omega
    have harg : (dwCfaOp 1 delta).toNat % 64 = delta := by omega
    simp only [List.singleton_append, readInstr, hop, harg]
  · have hone : [(2 : UInt8), UInt8.ofNat delta] ++ bytes = 2 :: (littleEndian 1 delta ++ bytes) := by
      simp [littleEndian, Nat.mod_eq_of_lt h2]
    rw [hone]
    simp [readInstr, readLittleEndian_littleEndian (by omega : delta < 256 ^ 1)]
  · simp [readInstr, readLittleEndian_littleEndian (by omega : delta < 256 ^ 2)]
  · simp [readInstr, readLittleEndian_littleEndian (by omega : delta < 256 ^ 4)]

theorem readInstr_putOp {op : CfiOp} (h : op.reg < 64) :
    readInstr (putOp spec op ++ bytes) = some (op.toInstr spec, bytes) := by
  rw [putOp, CfiOp.toInstr]
  cases op.kind with
  | defCfaOffset => simp [readInstr, readUleb_uleb]
  | saveReg =>
    have hb := toNat_dwCfaOp (by decide : 2 < 4) h
    have hop : (dwCfaOp 2 op.reg).toNat / 64 = 2 := by omega
    have harg : (dwCfaOp 2 op.reg).toNat % 64 = op.reg := by omega
    simp only [List.cons_append, readInstr, hop, harg, readUleb_uleb, Option.map_some]
  | restoreReg =>
    have hb := toNat_dwCfaOp (by decide : 3 < 4) h
    have hop : (dwCfaOp 3 op.reg).toNat / 64 = 3 := by omega
    have harg : (dwCfaOp 3 op.reg).toNat % 64 = op.reg := by omega
    simp only [List.singleton_append, readInstr, hop, harg]
  | rememberState => simp [readInstr]
  | restoreState => simp [readInstr]

/-- The bytes are those of the instructions, whatever the fuel, if there is enough. -/
def Reads (bytes : List UInt8) (instrs : List DwCfa) : Prop :=
  ∀ fuel, bytes.length ≤ fuel → readInstrs fuel bytes = some instrs

theorem Reads.cons {b : List UInt8} {instr : DwCfa} {instrs : List DwCfa} (hb : b ≠ [])
    (h : readInstr (b ++ bytes) = some (instr, bytes)) (hr : Reads bytes instrs) :
    Reads (b ++ bytes) (instr :: instrs) := by
  intro fuel hfuel
  have hpos := List.length_pos_iff.2 hb
  rw [List.length_append] at hfuel
  obtain ⟨x, xs, hx⟩ := List.exists_cons_of_ne_nil (List.append_ne_nil_of_left_ne_nil hb bytes)
  cases fuel with
  | zero => omega
  | succ fuel =>
    rw [hx] at h ⊢
    simp only [readInstrs, h, Option.bind_eq_bind, Option.bind_some, hr fuel (by omega),
      Option.pure_def]

theorem reads_pad (n : ℕ) : Reads (pad n) (List.replicate n .nop) := by
  induction n with
  | zero => exact fun _ _ => by rw [pad, List.replicate_zero, readInstrs]; rfl
  | succ n ih =>
    have : readInstr ([0x00] ++ pad n) = some (.nop, pad n) := by simp [readInstr]
    exact Reads.cons (List.cons_ne_nil _ _) this ih

theorem putAdvance_ne_nil (delta : ℕ) : putAdvance delta ≠ [] := by
  rw [putAdvance]
  split_ifs <;> simp

theorem putOp_ne_nil (op : CfiOp) : putOp spec op ≠ [] := by
  rw [putOp]
  cases op.kind <;> simp

/-- **An unwinder reads the operations that were written.** -/
theorem reads_putOps {codeLen cur n : ℕ} {ops : List CfiOp} (hlen : codeLen ≤ 2 ^ 32)
    (hreg : ∀ op ∈ ops, op.reg < 64) :
    Reads (putOps spec codeLen cur ops ++ pad n)
      (toInstrs spec codeLen cur ops ++ List.replicate n .nop) := by
  induction ops generalizing cur with
  | nil => exact reads_pad n
  | cons op ops ih =>
    have hop := hreg op (List.mem_cons_self ..)
    have hrest := fun op hop => hreg op (List.mem_cons_of_mem _ hop)
    rw [putOps, toInstrs]
    split_ifs with h1 h2
    · exact ih hrest
    · have hdelta : (op.offset - cur) / spec.codeAlign < 2 ^ 32 :=
        (Nat.div_le_self _ _).trans_lt (by omega)
      rw [List.append_assoc, List.append_assoc]
      exact Reads.cons (putAdvance_ne_nil _) (readInstr_putAdvance hdelta)
        (Reads.cons (putOp_ne_nil op) (readInstr_putOp hop) (ih hrest))
    · rw [List.append_assoc]
      exact Reads.cons (putOp_ne_nil op) (readInstr_putOp hop) (ih hrest)

/-- What the shared part says. -/
def CfiSpec.init (spec : CfiSpec) : Row :=
  ⟨spec.cfaReg, spec.initialCfaOffset, Function.update (fun _ => none) spec.returnAddrReg
    (some (-((spec.initialCfaOffset / spec.dataAlign * spec.dataAlign : ℕ) : ℤ)))⟩

theorem rowAt_cons {init : Row} {addr : ℕ} {u : Unwinder} {instr : DwCfa} {instrs : List DwCfa}
    (h : ∀ delta, instr ≠ .advanceLoc delta) :
    u.rowAt spec init addr (instr :: instrs) =
      (u.exec spec init instr).bind fun u => u.rowAt spec init addr instrs := by
  cases instr with
  | advanceLoc delta => exact absurd rfl (h delta)
  | _ => rfl

theorem rowAt_nops {init : Row} {addr n : ℕ} {u : Unwinder} {instrs : List DwCfa} :
    u.rowAt spec init addr (instrs ++ List.replicate n .nop) = u.rowAt spec init addr instrs := by
  induction instrs generalizing u with
  | nil =>
    induction n with
    | zero => rfl
    | succ n ih =>
      rw [List.replicate_succ, List.nil_append, rowAt_cons (fun _ h => DwCfa.noConfusion h)]
      exact ih
  | cons instr instrs ih =>
    by_cases ha : ∃ delta, instr = .advanceLoc delta
    · obtain ⟨delta, rfl⟩ := ha
      rw [List.cons_append, Unwinder.rowAt, Unwinder.rowAt, ih]
    · have ha := not_exists.1 ha
      rw [List.cons_append, rowAt_cons ha, rowAt_cons ha]
      simp only [ih]

/-- **What unwinding gives**: the rules after the operations that were written. -/
theorem unwind_eq {codeLen n n' addr : ℕ} {ops : List CfiOp} (hra : spec.returnAddrReg < 64)
    (hlen : codeLen ≤ 2 ^ 32) (hreg : ∀ op ∈ ops, op.reg < 64) :
    unwind spec (putCie spec ++ pad n) (putOps spec codeLen 0 ops ++ pad n') addr =
      Unwinder.rowAt spec spec.init addr ⟨0, spec.init, []⟩ (toInstrs spec codeLen 0 ops) := by
  have hcie : Reads (putCie spec ++ pad n)
      (.defCfa spec.cfaReg spec.initialCfaOffset ::
        .offset spec.returnAddrReg (spec.initialCfaOffset / spec.dataAlign) ::
        List.replicate n .nop) := by
    have hop : readInstr ((dwCfaOp 2 spec.returnAddrReg ::
        uleb (spec.initialCfaOffset / spec.dataAlign)) ++ pad n) =
        some (.offset spec.returnAddrReg (spec.initialCfaOffset / spec.dataAlign), pad n) := by
      let op : CfiOp := ⟨0, spec.initialCfaOffset, .saveReg, spec.returnAddrReg⟩
      have hop : op.reg < 64 := hra
      exact readInstr_putOp hop
    have hcfa (bytes : List UInt8) : readInstr ((0x0c :: (uleb spec.cfaReg ++
        uleb spec.initialCfaOffset)) ++ bytes) =
        some (.defCfa spec.cfaReg spec.initialCfaOffset, bytes) := by
      simp [readInstr, readUleb_uleb]
    rw [putCie, List.append_assoc]
    exact Reads.cons (List.cons_ne_nil _ _) (hcfa _)
      (Reads.cons (List.cons_ne_nil _ _) hop (reads_pad n))
  have hfde : Reads (putOps spec codeLen 0 ops ++ pad n')
      (toInstrs spec codeLen 0 ops ++ List.replicate n' .nop) := reads_putOps hlen hreg
  have hinit : Unwinder.rowAt spec .empty 0 ⟨0, .empty, []⟩
      (.defCfa spec.cfaReg spec.initialCfaOffset ::
        .offset spec.returnAddrReg (spec.initialCfaOffset / spec.dataAlign) ::
        List.replicate n .nop) = some spec.init := by
    rw [rowAt_cons (fun _ h => DwCfa.noConfusion h), Unwinder.exec, Option.bind_some,
      rowAt_cons (fun _ h => DwCfa.noConfusion h), Unwinder.exec, Option.bind_some,
      ← List.nil_append (List.replicate n DwCfa.nop), rowAt_nops]
    rfl
  simp only [unwind, hcie _ (le_refl _), Option.bind_eq_bind, Option.bind_some, hinit,
    hfde _ (le_refl _), rowAt_nops]

end OdinSon.Codegen
