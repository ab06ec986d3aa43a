import OdinSon.Odinc.Globals
import OdinSon.Lib.Leb128

/-!
# The WebAssembly module

`emit_wasm_module` of `odinc/wasm_object.odin` and, of `bac/wasm/wasm.odin`, how an instruction that
refers to a procedure, a global or a type leaves a relocation.

A module is kept as the lists of what its sections hold (`Module`), which `Module.image` writes out.
The code of a procedure and the initial data are bytes, since relocations are written into them.
-/

namespace OdinSon.Odinc.WasmObject

open Lib

/-! ### Compiled procedures -/

/-- A signature. -/
structure Sig where
  /-- The datatypes of the parameters. -/
  params : List Datatype
  /-- The datatypes of the results. -/
  rets : List Datatype
  deriving DecidableEq, Repr, Inhabited

/-- `DT_TO_VALTYPE`. -/
def valtype : Datatype → UInt8
  | .i8 | .i16 | .i32 => 0x7f
  | .i64 => 0x7e
  | .f64 => 0x7c
  | .f32 => 0x7d
  | .v128 => 0x7b
  | _ => 0

/-- `encode_func_type`. -/
def Sig.encode (s : Sig) : List UInt8 :=
  let params := s.params.filter (· ≠ .void)
  [0x60] ++ uleb params.length ++ params.map valtype ++ uleb s.rets.length ++ s.rets.map valtype

/-- The code of a procedure: the instructions that refer to something outside of it, and the bytes
between them. -/
inductive Instr where
  | bytes (bs : List UInt8)
  | call (prc : ℕ)
  | callIndirect (sig : Sig)
  | globalAddr (global : ℕ)
  | procAddr (prc : ℕ)
  deriving DecidableEq, Repr, Inhabited

def opCall : UInt8 := 0x10
def opCallIndirect : UInt8 := 0x11
def opGlobalGet : UInt8 := 0x23
def opI64Const : UInt8 := 0x42
def opI32WrapI64 : UInt8 := 0xa7
def opI32Const : UInt8 := 0x41
def opEnd : UInt8 := 0x0b

/-- `Reloc`. -/
structure CodeReloc where
  /-- Where the number stands in the code. -/
  offset : ℕ
  /-- What it is the number of. -/
  id : ℕ
  deriving DecidableEq, Repr, Inhabited

/-- `Codegen_Output`. -/
structure Output where
  /-- The code. -/
  code : List UInt8 := []
  /-- The constants of the code. -/
  constants : List UInt8 := []
  /-- The places that are filled in later. -/
  relocs : List CodeReloc := []
  deriving DecidableEq, Repr, Inhabited

namespace Output

/-- An opcode and four bytes that a relocation will fill. -/
def emitReloc (o : Output) (opcode : UInt8) (id : ℕ) : Output :=
  { o with
    code := o.code ++ [opcode, 0, 0, 0, 0]
    relocs := o.relocs ++ [⟨o.code.length + 1, id⟩] }

/-- The cases of `emit_instr` that have a relocation.  The type of an indirect call is kept with the
constants, behind a byte with its length. -/
def emit (o : Output) : Instr → Output
  | .bytes bs => { o with code := o.code ++ bs }
  | .call prc => o.emitReloc opCall prc
  | .procAddr prc => o.emitReloc opI64Const prc
  | .globalAddr global => o.emitReloc opGlobalGet global
  | .callIndirect sig =>
    let id := o.constants.length
    let o := { o with code := o.code ++ [opI32WrapI64] }
    let o := o.emitReloc opCallIndirect id
    let buf := sig.encode
    { o with
      code := o.code ++ [0]
      constants := o.constants ++ UInt8.ofNat buf.length :: buf }

end Output

/-- `Proc`. -/
structure Prc where
  /-- The name. -/
  name : List UInt8
  /-- The signature. -/
  sig : Sig
  /-- The instructions; `none` where `lit.body` is nil. -/
  body : Option (List Instr)
  deriving DecidableEq, Repr, Inhabited

/-- `prc.out`. -/
def Prc.out (prc : Prc) : Output := (prc.body.getD []).foldl Output.emit {}

/-! ### The sections -/

/-- What `emit_global` writes. -/
structure WasmGlobal where
  /-- It can be set. -/
  mutable : Bool
  /-- Its value at the start. -/
  offset : ℕ
  deriving DecidableEq, Repr, Inhabited

structure Import where
  /-- The name. -/
  name : List UInt8
  /-- The number of the type. -/
  type : ℕ
  deriving DecidableEq, Repr, Inhabited

/-- `Export_Type`, of what is exported. -/
inductive ExportType where
  | func | mem | global
  deriving DecidableEq, Repr, Inhabited

structure Export where
  /-- The name. -/
  name : List UInt8
  /-- The kind of what is exported. -/
  type : ExportType
  /-- The number among its kind. -/
  idx : ℕ
  deriving DecidableEq, Repr, Inhabited

/-- The sections. -/
structure Module where
  /-- The signatures. -/
  types : List (List UInt8) := []
  /-- The functions that are imported. -/
  imports : List Import := []
  /-- The types of the functions with code. -/
  functions : List ℕ := []
  /-- `indirect_ids`, for the table and the element section. -/
  indirectIds : List ℕ := []
  /-- The size of the memory. -/
  pages : ℕ := 0
  /-- The globals. -/
  globals : List WasmGlobal := []
  /-- What is exported. -/
  exports : List Export := []
  /-- The code of the functions. -/
  code : List (List UInt8) := []
  /-- Where the data goes. -/
  dataStart : ℕ := 0
  /-- The one segment of data. -/
  data : List ℕ := []
  deriving DecidableEq, Repr, Inhabited

/-- `PAGE_SIZE`. -/
def pageSize : ℕ := 2 ^ 16

/-- `STACK_SIZE`. -/
def stackSize : ℕ := 2 ^ 20

/-- `mem.align_forward_int`. -/
def alignForward (n align : ℕ) : ℕ := (n + (align - 1)) / align * align

/-! ### Placing the globals -/

/-- `zeroed`. -/
def zeroed (g : Global) : Bool := g.bytes.all (· = 0) && g.relocs.isEmpty

/-- What is known once the globals have their places. -/
structure Layout where
  /-- `mem_init_size`. -/
  size : ℕ
  /-- The globals section. -/
  globals : List WasmGlobal
  /-- `global_idxes`. -/
  idxes : List ℕ
  /-- `global_offsets`. -/
  offsets : List ℕ
  deriving DecidableEq, Repr, Inhabited

namespace Layout

/-- The body of the loop over the globals. -/
def place (l : Layout) (g : Global × ℕ) : Layout :=
  let offset := alignForward l.size g.1.align
  { size := offset + g.1.bytes.length
    globals := l.globals ++ [⟨false, offset⟩]
    idxes := l.idxes.set g.2 l.globals.length
    offsets := l.offsets.set g.2 offset }

/-- One of the two passes. -/
def pass (doZeroed : Bool) (l : Layout) (globals : List (Global × ℕ)) : Layout :=
  globals.foldl (fun l g => if g.1.align = 0 ∨ zeroed g.1 ≠ doZeroed then l else l.place g) l

end Layout

/-- `ctx.globals[1:]` with their indexes. -/
def numbered {α : Type*} (l : List α) : List (α × ℕ) := l.zipIdx.tail

/-- The pass over what is zero. -/
def zeroLayout (globals : List Global) : Layout :=
  let none := List.replicate globals.length 0
  Layout.pass true ⟨stackSize, [⟨true, stackSize⟩], none, none⟩ (numbered globals)

/-- Both passes. -/
def layout (globals : List Global) : Layout :=
  Layout.pass false (zeroLayout globals) (numbered globals)

/-! ### Numbering the functions -/

/-- What is known once the procedures have their numbers. -/
structure Numbering where
  /-- `section_counts[.import_]`. -/
  imports : ℕ
  /-- `section_counts[.function]`. -/
  functions : ℕ
  /-- `func_idxes`. -/
  idxes : List ℕ
  deriving DecidableEq, Repr, Inhabited

namespace Numbering

def addImport (n : Numbering) (prc : Prc × ℕ) : Numbering :=
  if prc.1.body = none then
    { n with idxes := n.idxes.set prc.2 n.imports, imports := n.imports + 1 }
  else n

def addFunction (n : Numbering) (prc : Prc × ℕ) : Numbering :=
  if prc.1.out.code ≠ [] then
    { n with idxes := n.idxes.set prc.2 (n.imports + n.functions), functions := n.functions + 1 }
  else n

end Numbering

/-- `func_idxes`. -/
def funcIdxes (procs : List Prc) : List ℕ :=
  let n : Numbering := ⟨0, 0, List.replicate procs.length 0⟩
  let n := (numbered procs).foldl .addImport n
  ((numbered procs).foldl .addFunction n).idxes

/-! ### The passes over the procedures -/

/-- `indirect_id`. -/
def indirectId (ids : List ℕ) (funcIdx : ℕ) : List ℕ × ℕ :=
  if funcIdx ∈ ids then (ids, ids.idxOf funcIdx + 1) else (ids ++ [funcIdx], ids.length + 1)

/-- An imported procedure; its type has the number of the function. -/
def emitImport (funcs : List ℕ) (m : Module) (prc : Prc × ℕ) : Module :=
  if prc.1.body = none then
    { m with
      types := m.types ++ [prc.1.sig.encode]
      imports := m.imports ++ [⟨prc.1.name, funcs.getD prc.2 0⟩] }
  else m

/-- The index that a relocation of the code is for; `none` where an index is out of bounds or the
opcode has no relocation. -/
def relocId (funcs globals : List ℕ) (constants : List UInt8) (m : Module) (opcode : UInt8)
    (id : ℕ) : Option (Module × ℕ) :=
  if opcode = opI64Const then do
    let (ids, id) := indirectId m.indirectIds (← funcs[id]?)
    return ({ m with indirectIds := ids }, id)
  else if opcode = opCall then do
    return (m, ← funcs[id]?)
  else if opcode = opGlobalGet then do
    return (m, ← globals[id]?)
  else if opcode = opCallIndirect then do
    let len ← constants[id]?
    let bytes := (constants.drop (id + 1)).take len.toNat
    guard (bytes.length = len.toNat)
    return ({ m with types := m.types ++ [bytes] }, m.types.length)
  else none

/-- The body of the loop over the relocations of a procedure. -/
def relocate (funcs globals : List ℕ) (constants : List UInt8) (s : Module × List UInt8)
    (reloc : CodeReloc) : Option (Module × List UInt8) := do
  let (m, id) ← relocId funcs globals constants s.1 (← s.2[reloc.offset - 1]?) reloc.id
  return (m, splice s.2 reloc.offset (fixedUleb 4 id))

/-- `"main"`. -/
def mainName : List UInt8 := [109, 97, 105, 110]

/-- The body of the loop over the procedures that have code. -/
def emitProc (funcs globals : List ℕ) (m : Module) (prc : Prc × ℕ) : Option Module :=
  if prc.1.out.code = [] then some m
  else do
    let main : List Export :=
      if prc.1.name = mainName then [⟨mainName, .func, funcs.getD prc.2 0⟩] else []
    let m := { m with exports := m.exports ++ main }
    let (m, code) ← prc.1.out.relocs.foldlM (relocate funcs globals prc.1.out.constants)
      (m, prc.1.out.code)
    return { m with
      code := m.code ++ [code]
      types := m.types ++ [prc.1.sig.encode]
      functions := m.functions ++ [m.types.length] }

/-! ### The initial data -/

/-- The value of a relocation of a global. -/
def relocValue (funcs offsets : List ℕ) (m : Module) (rel : Reloc) : Option (Module × ℕ) :=
  if rel.toOffset = maxU32 then do
    let (ids, id) := indirectId m.indirectIds (← funcs[rel.toIdx]?)
    return ({ m with indirectIds := ids }, id)
  else do
    return (m, (← offsets[rel.toIdx]?) + rel.toOffset)

/-- The body of the loop over the relocations of the global at `offset` of the data. -/
def initReloc (funcs offsets : List ℕ) (offset : ℕ) (m : Module) (rel : Reloc) :
    Option Module := do
  let (m, value) ← relocValue funcs offsets m rel
  return { m with data := splice m.data (offset + rel.inOffset) (toLE 8 value) }

/-- The body of the loop over the globals. -/
def initGlobal (funcs offsets : List ℕ) (start : ℕ) (m : Module) (g : Global × ℕ) :
    Option Module :=
  if g.1.align = 0 ∨ zeroed g.1 = true then some m
  else
    let offset := offsets.getD g.2 0 - start
    g.1.relocs.foldlM (initReloc funcs offsets offset)
      { m with data := splice m.data offset g.1.bytes }

/-! ### The module -/

/-- `"__stack_pointer"`. -/
def stackPointerName : List UInt8 :=
  [95, 95, 115, 116, 97, 99, 107, 95, 112, 111, 105, 110, 116, 101, 114]

/-- `"memory"`. -/
def memoryName : List UInt8 := [109, 101, 109, 111, 114, 121]

/-- The sections of the module, or `none` where the compiler stops. -/
def emitModule (globals : List Global) (procs : List Prc) : Option Module := do
  let l := layout globals
  let start := (zeroLayout globals).size
  let funcs := funcIdxes procs
  let m : Module :=
    { globals := l.globals, pages := (l.size + pageSize - 1) / pageSize, dataStart := start }
  let m := (numbered procs).foldl (emitImport funcs) m
  let m ← (numbered procs).foldlM (emitProc funcs l.idxes) m
  let m := { m with data := List.replicate (l.size - start) 0 }
  let m ← globals.zipIdx.foldlM (initGlobal funcs l.offsets start) m
  return { m with
    exports := m.exports ++ [⟨stackPointerName, .global, 0⟩, ⟨memoryName, .mem, 0⟩] }

/-! ### The image -/

/-- What is written for a section. -/
structure Section where
  /-- The number of the section. -/
  type : UInt8
  /-- The items, of which the number is written first, in three bytes. -/
  items : List (List UInt8)
  deriving DecidableEq, Repr, Inhabited

def Section.content (s : Section) : List UInt8 := fixedUleb 3 s.items.length ++ s.items.flatten

/-- `emit_name`. -/
def emitName (name : List UInt8) : List UInt8 := uleb name.length ++ name

/-- `"env"`. -/
def envName : List UInt8 := [101, 110, 118]

def ExportType.byte : ExportType → UInt8
  | func => 0
  | mem => 2
  | global => 3

namespace Module

/-- The sections in the order of the image. -/
def sections (m : Module) : List Section :=
  [⟨1, m.types⟩,
   ⟨2, m.imports.map fun i => emitName envName ++ emitName i.name ++ [0] ++ uleb i.type⟩,
   ⟨3, m.functions.map uleb⟩,
   ⟨4, [[0x70, 1] ++ uleb (m.indirectIds.length + 1) ++ uleb (m.indirectIds.length + 1)]⟩,
   ⟨5, [[4] ++ uleb m.pages]⟩,
   ⟨6, m.globals.map fun g =>
     [0x7e, if g.mutable then 1 else 0, opI64Const] ++ sleb g.offset ++ [opEnd]⟩,
   ⟨7, m.exports.map fun e => emitName e.name ++ [e.type.byte] ++ uleb e.idx⟩,
   ⟨9, [[0, opI32Const] ++ sleb 1 ++ [opEnd] ++ uleb m.indirectIds.length ++
     m.indirectIds.flatMap uleb]⟩,
   ⟨10, m.code.map fun code => uleb code.length ++ code⟩,
   ⟨11, [[0, opI64Const] ++ sleb m.dataStart ++ [opEnd] ++ uleb m.data.length ++
     m.data.map UInt8.ofNat]⟩]

/-- The bytes of the module: sections without items are left out. -/
def image (m : Module) : List UInt8 :=
  [0x00, 0x61, 0x73, 0x6d, 1, 0, 0, 0] ++
    (m.sections.filter (·.items ≠ [])).flatMap fun s =>
      [s.type] ++ uleb s.content.length ++ s.content

end Module

/-- `emit_wasm_module`, but for the section with the names. -/
def emitWasmModule (globals : List Global) (procs : List Prc) : Option (List UInt8) :=
  (emitModule globals procs).map Module.image

end OdinSon.Odinc.WasmObject
