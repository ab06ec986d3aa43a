import OdinSon.Odinc.WasmObjectLayout

/-!
# What a consistent module is

The indexes of a module are read against its index spaces: a function is an import or, after these, a
procedure with code (`IsFunc`), a global is the stack pointer or a constant with the address of a
global of the program (`IsGlobal`), and what a procedure pointer holds is a slot of the table.

A global of the program is given with what its relocated places refer to (`GlobalInit`), which
`global_store` turns into relocations.

The image has the sections one after another with their lengths, so that a loader finds the contents
of those with items in it, and nothing else (`readImage_emitWasmModule`).
-/

namespace OdinSon.Odinc.WasmObject

open Lib

/-- What eight bytes of a global refer to. -/
inductive Link where
  | pointer (target : Dest)
  | proc (id : ℕ)
  deriving DecidableEq, Repr, Inhabited

/-- The relocation that `global_reloc`, or `global_store` for a procedure, makes. -/
def Link.reloc (inOffset : ℕ) : Link → Reloc
  | pointer target => ⟨inOffset, target.idx, target.offset⟩
  | proc id => ⟨inOffset, id, maxU32⟩

/-- A global of the program. -/
structure GlobalInit where
  /-- The bytes. -/
  bytes : List ℕ
  /-- The alignment. -/
  align : ℕ
  /-- The places of addresses, with what they are the addresses of. -/
  links : List (ℕ × Link)
  deriving DecidableEq, Repr, Inhabited

/-- The global as the compiler has it. -/
def GlobalInit.data (g : GlobalInit) : Global :=
  ⟨g.bytes, g.align, g.links.map fun l => l.2.reloc l.1⟩

/-- `ctx.globals`. -/
def globalsOf (inits : List GlobalInit) : List Global := inits.map GlobalInit.data

/-- The globals of the type checker: the first is empty, pointers are within a global and do not
overlap, and addresses fit an `int`. -/
structure WellFormed (inits : List GlobalInit) : Prop where
  head : ∀ g, inits[0]? = some g → g.align = 0
  fits : ∀ g ∈ inits, ∀ l ∈ g.links, l.1 + 8 ≤ g.bytes.length
  apart : ∀ g ∈ inits, g.links.Pairwise fun l k => l.1 + 8 ≤ k.1 ∨ k.1 + 8 ≤ l.1
  small : stackSize + (inits.map fun g => g.align + g.bytes.length).sum < 2 ^ 63

/-! ### Index spaces -/

/-- The function with the index is the procedure with the id. -/
def IsFunc (procs : List Prc) (f p : ℕ) : Prop := ∃ prc, (funcSpace procs)[f]? = some (prc, p)

/-- The global with the index is for the global of the program; the stack pointer comes first. -/
def IsGlobal (globals : List Global) (k j : ℕ) : Prop := ∃ g, (order globals)[k]? = some (g, j)

namespace Module

variable (globals : List Global) (procs : List Prc) (m : Module)

/-- What the element section puts into the table. -/
def slot (v : ℕ) : Option ℕ := if v = 0 then none else m.indirectIds[v - 1]?

/-- The byte at an address when the module is loaded. -/
def load (a : ℕ) : ℕ := if m.dataStart ≤ a then m.data.getD (a - m.dataStart) 0 else 0

/-- The address of a global of the program is that of the constant for it. -/
def HasAddr (j a : ℕ) : Prop := ∃ k, IsGlobal globals k j ∧ m.globals[k + 1]? = some ⟨false, a⟩

/-- The value of a relocated place. -/
def LinkOk : Link → ℕ → Prop
  | .pointer target, v => ∃ a, m.HasAddr globals target.idx a ∧ v = a + target.offset
  | .proc p, v => ∃ f, m.slot v = some f ∧ IsFunc procs f p

/-- The bytes are those of the instruction, and what they have for an index denotes what the
instruction refers to. -/
def InstrOk : Instr → List UInt8 → Prop
  | .bytes bs, code => code = bs
  | .call p, code =>
    ∃ field f, code = opCall :: field ∧ readUleb field = some (f, []) ∧ IsFunc procs f p
  | .procAddr p, code =>
    ∃ (field : List UInt8) (v f : ℕ), code = opI64Const :: field ∧
      readSleb field = some ((v : ℤ), []) ∧ m.slot v = some f ∧ IsFunc procs f p
  | .globalAddr j, code =>
    ∃ field k, code = opGlobalGet :: field ∧ readUleb field = some (k + 1, []) ∧
      IsGlobal globals k j
  | .callIndirect sig, code =>
    ∃ field t, code = opI32WrapI64 :: opCallIndirect :: field ++ [0] ∧
      readUleb field = some (t, []) ∧ m.types[t]? = some sig.encode

end Module

/-- The number of bytes of an instruction. -/
def Instr.size : Instr → ℕ
  | bytes bs => bs.length
  | call _ | procAddr _ | globalAddr _ => 5
  | callIndirect _ => 7

namespace Module

variable (globals : List Global) (procs : List Prc) (m : Module)

/-- The code is that of the instructions, one after another. -/
def CodeOk : List Instr → List UInt8 → Prop
  | [], code => code = []
  | i :: is, code => m.InstrOk globals procs i (code.take i.size) ∧ CodeOk is (code.drop i.size)

/-- What is exported under a name is what the name is for. -/
def ExportOk (e : Export) : Prop :=
  match e.type with
  | .func => ∃ prc p, (funcSpace procs)[e.idx]? = some (prc, p) ∧ prc.name = e.name
  | .global => e.name = stackPointerName ∧ m.globals[e.idx]? = some ⟨true, stackSize⟩
  | .mem => e.name = memoryName ∧ e.idx = 0

/-- **A consistent module** for the globals and the procedures of a program. -/
structure Consistent (inits : List GlobalInit) (procs : List Prc) (m : Module) : Prop where
  /-- Each section is read back as its items. -/
  sections : ∀ s ∈ m.sections, readUleb s.content = some (s.items.length, s.items.flatten)
  stackPointer : m.globals[0]? = some ⟨true, stackSize⟩
  /-- Each global with memory has an address. -/
  addressed : ∀ g j, (g, j) ∈ numbered inits → Live g.data →
    ∃ a, m.HasAddr (globalsOf inits) j a
  /-- It is aligned, beyond the stack and within the memory. -/
  placed : ∀ g j a, inits[j]? = some g → m.HasAddr (globalsOf inits) j a →
    g.align ∣ a ∧ stackSize ≤ a ∧ a + g.bytes.length ≤ m.pages * pageSize
  apart : ∀ g j a g' j' a', inits[j]? = some g → inits[j']? = some g' → j ≠ j' →
    m.HasAddr (globalsOf inits) j a → m.HasAddr (globalsOf inits) j' a' →
    a + g.bytes.length ≤ a' ∨ a' + g'.bytes.length ≤ a
  /-- A byte that is not relocated is loaded with its initial value. -/
  bytes : ∀ g j a, inits[j]? = some g → m.HasAddr (globalsOf inits) j a →
    ∀ i b, g.bytes[i]? = some b → (∀ l ∈ g.links, ¬(l.1 ≤ i ∧ i < l.1 + 8)) → m.load (a + i) = b
  /-- A relocated place is loaded with the value of what it refers to. -/
  links : ∀ g j a, inits[j]? = some g → m.HasAddr (globalsOf inits) j a →
    ∀ l ∈ g.links, ∃ v, m.LinkOk (globalsOf inits) procs l.2 v ∧
      (List.range 8).map (fun i => m.load (a + l.1 + i)) = toLE 8 v
  /-- The index spaces have no other functions. -/
  functionCount : m.imports.length = (imported procs).length ∧
    m.functions.length = (defined procs).length ∧ m.code.length = (defined procs).length
  imports : ∀ (f : ℕ) (prc : Prc) p, (imported procs)[f]? = some (prc, p) →
    ∃ t, m.imports[f]? = some ⟨prc.name, t⟩ ∧ m.types[t]? = some prc.sig.encode
  functions : ∀ (i : ℕ) (prc : Prc) p, (defined procs)[i]? = some (prc, p) →
    ∃ t code, m.functions[i]? = some t ∧ m.types[t]? = some prc.sig.encode ∧
      m.code[i]? = some code ∧ m.CodeOk (globalsOf inits) procs (prc.body.getD []) code
  elements : ∀ f ∈ m.indirectIds, ∃ p, IsFunc procs f p
  exports : ∀ e ∈ m.exports, m.ExportOk procs e
  exported : (∀ prc ∈ defined procs, prc.1.name = mainName → ∃ e ∈ m.exports, e.name = mainName) ∧
    (∃ e ∈ m.exports, e.name = stackPointerName) ∧ ∃ e ∈ m.exports, e.name = memoryName

end Module

/-! ### When the module is consistent -/

/-- The procedures that an instruction refers to. -/
def Instr.prcs : Instr → List ℕ
  | call p | procAddr p => [p]
  | _ => []

def Instr.globals : Instr → List ℕ
  | globalAddr j => [j]
  | _ => []

def Instr.sigs : Instr → List Sig
  | callIndirect sig => [sig]
  | _ => []

/-- The instructions of the procedures with code. -/
def instrs (procs : List Prc) : List Instr := (defined procs).flatMap fun prc => prc.1.body.getD []

/-- What a count of three bytes can say. -/
def maxCount : ℕ := 2 ^ 21

/-- An instruction refers to what is in the module, and the byte for the length of a type suffices. -/
structure Instr.Fits (globals : List Global) (procs : List Prc) (i : Instr) : Prop where
  prcs : ∀ p ∈ i.prcs, p ∈ (funcSpace procs).map Prod.snd
  globals : ∀ j ∈ i.globals, j ∈ (order globals).map Prod.snd
  sigs : ∀ sig ∈ i.sigs, sig.encode.length < 256

/-- What a relocated place refers to is in the module, and it does not have the offset that marks a
procedure. -/
def Link.Fits (globals : List Global) (procs : List Prc) : Link → Prop
  | .pointer target => target.idx ∈ (order globals).map Prod.snd ∧ target.offset ≠ maxU32
  | .proc p => p ∈ (funcSpace procs).map Prod.snd

/-- **When the module is consistent**: what is referred to is there, the counts fit their three bytes
and the types of indirect calls their byte, and no pointer has the offset that marks a procedure. -/
structure HoldsWhen (inits : List GlobalInit) (procs : List Prc) : Prop where
  types : (imported procs).length + (defined procs).length +
    ((instrs procs).flatMap Instr.sigs).length < maxCount
  globals : (order (globalsOf inits)).length + 1 < maxCount
  exports : (defined procs).countP (·.1.name = mainName) + 2 < maxCount
  instrs : ∀ i ∈ instrs procs, i.Fits (globalsOf inits) procs
  links : ∀ g ∈ inits, Live g.data → ∀ l ∈ g.links, l.2.Fits (globalsOf inits) procs

/-! ### The image -/

/-- The sections that bytes are read as: a type, the length of the content, and the content. -/
def readSections : ℕ → List UInt8 → Option (List (UInt8 × List UInt8))
  | _, [] => some []
  | 0, _ :: _ => none
  | fuel + 1, type :: bytes => do
    let (length, bytes) ← readUleb bytes
    guard (length ≤ bytes.length)
    return (type, bytes.take length) :: (← readSections fuel (bytes.drop length))

/-- The sections of a module that starts with the magic number and the version. -/
def readImage (bytes : List UInt8) : Option (List (UInt8 × List UInt8)) := do
  guard (bytes.take 8 = [0x00, 0x61, 0x73, 0x6d, 1, 0, 0, 0])
  readSections bytes.length (bytes.drop 8)

/-- A section is read, and then what follows it. -/
theorem readSections_append (fuel : ℕ) (s : Section) (rest : List UInt8) :
    readSections (fuel + 1) ([s.type] ++ uleb s.content.length ++ s.content ++ rest) =
      (readSections fuel rest).map ((s.type, s.content) :: ·) := by
  have hle : s.content.length ≤ (s.content ++ rest).length := by
    rw [List.length_append]
    exact Nat.le_add_right _ _
  rw [List.append_assoc, List.append_assoc, List.singleton_append, readSections, readUleb_uleb]
  simp only [Option.bind_eq_bind, Option.bind_some]
  rw [guard, if_pos hle, List.take_left, List.drop_left]
  cases readSections fuel rest <;> rfl

theorem readSections_flatMap (sections : List Section) {fuel : ℕ} (h : sections.length ≤ fuel) :
    readSections fuel (sections.flatMap fun s =>
      [s.type] ++ uleb s.content.length ++ s.content) =
        some (sections.map fun s => (s.type, s.content)) := by
  induction sections generalizing fuel with
  | nil => cases fuel <;> rfl
  | cons s sections ih =>
    obtain ⟨fuel, rfl⟩ := Nat.exists_eq_add_of_le' (Nat.one_le_of_lt h)
    rw [List.flatMap_cons, readSections_append, ih (Nat.le_of_succ_le_succ h)]
    rfl

/-- A section has one byte at least. -/
theorem length_le_flatMap (sections : List Section) : sections.length ≤
    (sections.flatMap fun s => [s.type] ++ uleb s.content.length ++ s.content).length := by
  induction sections with
  | nil => exact le_rfl
  | cons s sections ih =>
    rw [List.flatMap_cons, List.length_append, List.append_assoc, List.singleton_append,
      List.length_cons, List.length_cons]
    omega

/-- **The image of a module is read back** as its sections that have items. -/
theorem readImage_image (m : Module) : readImage m.image =
    some ((m.sections.filter (·.items ≠ [])).map fun s => (s.type, s.content)) := by
  refine readSections_flatMap _ ((length_le_flatMap _).trans ?_)
  rw [Module.image, List.length_append]
  exact Nat.le_add_left _ _

/-- What the compiler writes is read back as the sections of the module. -/
theorem readImage_emitWasmModule {globals : List Global} {procs : List Prc} {bytes : List UInt8}
    (h : emitWasmModule globals procs = some bytes) : ∃ m, emitModule globals procs = some m ∧
      readImage bytes =
        some ((m.sections.filter (·.items ≠ [])).map fun s => (s.type, s.content)) := by
  obtain ⟨m, hm, rfl⟩ := Option.map_eq_some_iff.1 h
  exact ⟨m, hm, readImage_image m⟩

end OdinSon.Odinc.WasmObject
