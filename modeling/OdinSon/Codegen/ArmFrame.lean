import OdinSon.Codegen.Frame
import Mathlib.Logic.Relation

/-!
# Callee-saved registers on arm

The prologue of `emit_function` and the epilogue at a `Return` (`bac/arm/arm.odin`), and a machine
that runs them around a body.  The body writes the registers that the allocation gave it and those
that a call may change, and any memory but the slots of the saved registers; where its own areas
reach into these slots, it writes there too.

Only general registers are saved, so the vector registers among the callee-saved ones are kept iff
the allocation does not use them.  The general ones are kept iff nothing that the body writes is in
their slots and the stores are there: with a frame of no bytes they are thrown away
(`preserves_iff`).
-/

namespace OdinSon.Codegen.Arm

open Lib MachInt

/-- `spill_boundary`. -/
def boundary : RegKind → ℕ
  | .general => 33
  | .vector => 32

/-- `ARM_SYSTEMV_CC.callee_saved`. -/
def calleeSaved : RegKind → List ℕ
  | .general => [19, 20, 21, 22, 23, 24, 25, 26, 27, 28]
  | .vector => [8, 9, 10, 11, 12, 13, 14, 15]

/-- The field of `imm12_instr`. -/
def imm12 (imm : ℤ) : ℤ := imm % 4096

/-- The instructions of prologues and epilogues. -/
inductive Instr where
  | subSp (imm : ℤ)
  | addSp (imm : ℤ)
  | str (reg : ℕ) (imm : ℤ)
  | ldr (reg : ℕ) (imm : ℤ)
  | stp (imm : ℤ)
  | ldp (imm : ℤ)
  deriving DecidableEq, Repr

/-- What the frame of a function depends on. -/
structure Func where
  /-- The calls, with the sizes of the arguments that they pass on the stack. -/
  calls : List (List ℤ)
  /-- There is a `Set` or a `Copy`. -/
  libCall : Bool
  /-- The locals, in the order of their offsets. -/
  locals : List LocalSlot
  /-- The registers that the nodes have. -/
  allocs : List Reg
  /-- The registers that `Split`s write. -/
  splits : List Reg
  /-- The parameters. -/
  params : List ParamSpec
  /-- The parameters that are locals of the body. -/
  paramLocals : List ℕ
  calls_nonneg : ∀ sizes ∈ calls, ∀ n ∈ sizes, 0 ≤ n
  locals_nonneg : ∀ l ∈ locals, 0 ≤ l.size
  params_nonneg : ∀ p ∈ params, 0 ≤ p.size
  index_lt : ∀ r ∈ allocs, r.index < 2 ^ 12
  splits_subset : ∀ r ∈ splits, r ∈ allocs

namespace Func

variable (f : Func)

/-- `has_call`. -/
def hasCall : Bool := f.libCall || !f.calls.isEmpty

/-- The registers that are saved. -/
def savedRegs : List ℕ := (calleeSaved .general).filter fun r => ⟨.general, r⟩ ∈ f.allocs

/-- `push_base`. -/
def pushBase : ℤ := layoutCallArgs f.calls 0

theorem calls_nonneg_nil : ∀ sizes ∈ ([] : List (List ℤ)), ∀ n ∈ sizes, 0 ≤ n := nofun

theorem params_nonneg_nil : ∀ p ∈ ([] : List ParamSpec), 0 ≤ p.size := nofun

end Func

/-- The loop that saves registers, and the size of the stack after it. -/
def saveRegs : List ℕ → ℤ → List Instr × ℤ
  | [], stackSize => ([], stackSize)
  | reg :: regs, stackSize =>
    let (instrs, stop) := saveRegs regs (wrap 32 (stackSize + 8))
    (.str reg (imm12 (stackSize.tdiv 8)) :: instrs, stop)

/-- The loop that restores them. -/
def restoreRegs : List ℕ → ℤ → List Instr × ℤ
  | [], pushed => ([], pushed)
  | reg :: regs, pushed =>
    let (instrs, stop) := restoreRegs regs (wrap 32 (pushed + 8))
    (.ldr reg (imm12 (pushed.tdiv 8)) :: instrs, stop)

/-- Where things are, from the stack pointer after the prologue. -/
structure Frame where
  /-- What the prologue takes off the stack pointer. -/
  stackSize : ℤ
  /-- The offsets of the locals. -/
  localOffsets : List ℤ
  /-- The offset of the first spill slot of a kind. -/
  spillSlotBase : RegKind → ℤ
  /-- The offsets of the parameters. -/
  paramOffsets : List ℤ
  /-- The offsets of the parameters of a kind that are values on the stack. -/
  stackParamOffset : RegKind → List ℤ

namespace Func

variable (f : Func)

/-- The part of `emit_function` that lays out the frame. -/
def frame : Frame :=
  let stackSize := (saveRegs f.savedRegs f.pushBase).2
  let stackSize := if f.hasCall then wrap 32 (stackSize + 16) else stackSize
  let (spillSlotBase, stackSize) := layoutSpillSlots boundary f.allocs stackSize
  let params := computeParamOffsets f.params stackSize 0
  let (localOffsets, stackSize) := layoutLocals f.locals params.stackSize
  let stackSize := wrap 32 (alignForward stackSize 16)
  { stackSize, localOffsets, spillSlotBase
    paramOffsets := params.offsets.map fun offset => wrap 32 (offset + stackSize)
    stackParamOffset := fun k =>
      (params.stackParamOffset k).map fun offset => wrap 32 (offset + stackSize) }

/-- The prologue.  Without a frame nothing of it stays. -/
def prologue : List Instr :=
  let (saves, stackSize) := saveRegs f.savedRegs f.pushBase
  if f.frame.stackSize = 0 then []
  else
    .subSp (imm12 f.frame.stackSize) :: saves ++
      if f.hasCall then [.stp (stackSize.tdiv 8)] else []

/-- The epilogue at a `Return`. -/
def epilogue : List Instr :=
  let (restores, pushed) := restoreRegs f.savedRegs f.pushBase
  restores ++ (if f.hasCall then [.ldp (pushed.tdiv 8)] else []) ++
    if f.frame.stackSize = 0 then [] else [.addSp (imm12 f.frame.stackSize)]

/-! ### What the body writes -/

/-- The slot of a register of a `Split`, in words. -/
def slotOffset (r : Reg) : ℤ :=
  (spillSlotOffset boundary f.frame.stackParamOffset f.frame.spillSlotBase r).tdiv 8

/-- The slots that `Split`s write: of spilled live ranges and of parameters. -/
def slotAreas : List Area :=
  (f.splits.filter fun r => boundary r.kind ≤ r.index).map fun r =>
    ⟨8 * imm12 (f.slotOffset r), 8⟩

/-- The locals, at the addresses that `Local_Addr` computes. -/
def localAreas : List Area :=
  List.zipWith (fun offset (l : LocalSlot) => ⟨imm12 offset, l.size⟩) f.frame.localOffsets
    (sortLocals f.locals)

/-- The parameters that are locals. -/
def paramAreas : List Area :=
  f.paramLocals.filterMap fun i => do
    let offset ← f.frame.paramOffsets[i]?
    let param ← f.params[i]?
    return ⟨imm12 offset, param.size⟩

/-- All that the body writes in its frame. -/
def bodyAreas : List Area :=
  ⟨0, f.pushBase⟩ :: (f.slotAreas ++ f.localAreas ++ f.paramAreas)

/-- The slots of the saved registers. -/
def saveArea : Area := ⟨8 * (f.pushBase / 8), 8 * f.savedRegs.length⟩

/-- The assertions on the offsets of the pair `x29`, `x30` and of slots. -/
structure Asserts : Prop where
  pair : f.hasCall = true →
    -64 ≤ (saveRegs f.savedRegs f.pushBase).2.tdiv 8 ∧
      (saveRegs f.savedRegs f.pushBase).2.tdiv 8 < 64
  slots : ∀ r ∈ f.splits, f.slotOffset r < 4096

end Func

/-! ### The machine -/

/-- The machine. -/
structure State where
  /-- The stack pointer. -/
  sp : ℤ
  /-- The general registers, by their bytes. -/
  x : ℕ → Fin 8 → UInt8
  /-- The vector registers, by their bytes. -/
  v : ℕ → Fin 16 → UInt8
  /-- The memory. -/
  mem : ℤ → UInt8

/-- Eight bytes of the memory. -/
def load (mem : ℤ → UInt8) (addr : ℤ) : Fin 8 → UInt8 := fun k => mem (addr + k.val)

/-- Write eight bytes. -/
def store (mem : ℤ → UInt8) (addr : ℤ) (value : Fin 8 → UInt8) : ℤ → UInt8 := fun a =>
  if h : addr ≤ a ∧ a < addr + 8 then value ⟨(a - addr).toNat, by omega⟩ else mem a

/-- One instruction. -/
def exec (s : State) : Instr → State
  | .subSp imm => { s with sp := s.sp - imm }
  | .addSp imm => { s with sp := s.sp + imm }
  | .str reg imm => { s with mem := store s.mem (s.sp + 8 * imm) (s.x reg) }
  | .ldr reg imm => { s with x := Function.update s.x reg (load s.mem (s.sp + 8 * imm)) }
  | .stp imm =>
    let mem := store s.mem (s.sp + 8 * imm) (s.x 29)
    { s with mem := store mem (s.sp + 8 * imm + 8) (s.x 30) }
  | .ldp imm =>
    let x := Function.update s.x 29 (load s.mem (s.sp + 8 * imm))
    { s with x := Function.update x 30 (load s.mem (s.sp + 8 * imm + 8)) }

/-- A part of the code. -/
def run (s : State) (instrs : List Instr) : State := instrs.foldl exec s

/-- What the body may do, one of its instructions or a call. -/
structure BodyStep (f : Func) (s s' : State) : Prop where
  sp : s'.sp = s.sp
  x : ∀ r ∈ calleeSaved .general, ⟨.general, r⟩ ∉ f.allocs → s'.x r = s.x r
  v : ∀ r ∈ calleeSaved .vector, ⟨.vector, r⟩ ∉ f.allocs → s'.v r = s.v r
  mem : ∀ a ∈ f.saveArea, (∀ area ∈ f.bodyAreas, a ∉ area) → s'.mem (s.sp + a) = s.mem (s.sp + a)

/-- **Callee-saved registers are preserved**: from the entry through the prologue, any run of the
body and an epilogue. -/
def Preserves (f : Func) : Prop :=
  ∀ s s', Relation.ReflTransGen (BodyStep f) (run s f.prologue) s' →
    (∀ r ∈ calleeSaved .general, (run s' f.epilogue).x r = s.x r) ∧
      ∀ r ∈ calleeSaved .vector, (run s' f.epilogue).v r = s.v r

end OdinSon.Codegen.Arm
