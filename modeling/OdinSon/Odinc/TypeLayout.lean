import OdinSon.Lib.MachInt
import OdinSon.Lib.RecordLayout
import OdinSon.Odinc.Types

/-!
# How the checker lays out types

`emit_type`, `typecheck_decl` and `instantiate_struct` of `odinc/typecheck/typecheck.odin`, as far as
they decide the sizes and alignments of types.  Declarations are checked when they are first named, in
the middle of whatever named them.  A struct is given to its declaration before its fields are laid out,
so that a field may name it; every other declaration is invalid until it is done, and naming it then is
an error.

The checker goes on after an error; a program with one is not accepted, and here it has no result.  An
assertion that fails is an error as well.  Errors are also what is left when the fuel runs out: it counts
how deep the calls nest.
-/

namespace OdinSon.Odinc

namespace TypeLayout

open Lib

/-! ### Types -/

/-- `Type`.  Structs, unions and signatures are numbered, an enum has its number beside its backing type;
the other types that are made of types are interned, and equal when their parts are. -/
inductive RTy where
  | prim (p : Prim)
  | pointer (elem : RTy)
  | multiPointer (elem : RTy)
  | slice (elem : RTy)
  | proc (id : ℕ)
  | struct (id : ℕ)
  | union (id : ℕ)
  | array (elem : RTy) (len : ℤ)
  | enum (id : ℕ) (backing : RTy)
  | simd (elem : RTy) (len : ℤ)
  deriving DecidableEq, Repr

/-- The type whose values a value is made of, one or many of them. -/
def RTy.core : RTy → RTy
  | .array elem _ => elem.core
  | .enum _ backing => backing.core
  | .simd elem _ => elem.core
  | ty => ty

/-- What a type is written as.  A name stands for a type parameter or for a declaration, and the length
of an array is a constant that may depend on the sizes and alignments of types. -/
inductive Expr where
  | prim (p : Prim)
  | name (n : ℕ)
  | pointer (elem : Expr)
  | multiPointer (elem : Expr)
  | slice (elem : Expr)
  | array (elem : Expr) (asked : List (Option Expr)) (len : List (ℤ × ℤ) → ℤ)
  | simd (elem : Expr) (asked : List (Option Expr)) (len : List (ℤ × ℤ) → ℤ)
  | proc (params rets : List (Option Expr))
  | struct (params : List ℕ) (fields : List (Option Expr))
  | enum (backing : Option Expr)
  | union (variants : List Expr)
  | call (callee : Expr) (args : List (Option Expr))

/-- The declarations, under their names. -/
abbrev Program := List (ℕ × Expr)

/-! ### The state of the checker -/

/-- `Struct_Field`. -/
structure Field where
  /-- The type of the field. -/
  ty : RTy
  /-- Its first byte. -/
  offset : ℤ
  deriving DecidableEq, Repr

/-- `Struct`. -/
structure Struct where
  /-- The type parameters; with any, the struct is laid out when it is given arguments only. -/
  params : List ℕ
  /-- The `ty_ast` of the fields. -/
  asts : List (Option Expr)
  /-- The fields that are laid out. -/
  fields : List Field
  /-- The size so far. -/
  size : ℤ
  /-- The greatest alignment so far. -/
  align : ℤ

/-- `Union`; it is known to others once it is done. -/
structure Union where
  /-- The types of the variants. -/
  variants : List RTy
  /-- The first byte of the tag. -/
  tagOffset : ℤ
  /-- The size. -/
  size : ℤ
  /-- The alignment. -/
  align : ℤ
  deriving DecidableEq, Repr

/-- What was done to lay types out.  A member was added to a struct, or a variant to a union, while the
structs of the list were being laid out, and ended at `top`; a size was rounded up to `top`; a struct that
takes no parameters was laid out once more.  The tops are those of unbounded integers. -/
inductive Step where
  | member (opened : List ℕ) (ty : RTy) (top : ℤ)
  | close (top : ℤ)
  | again (id : ℕ)
  deriving DecidableEq, Repr

/-- What `Gen_Ctx` knows of types. -/
structure State where
  /-- The structs, also those that are not complete. -/
  structs : List Struct
  /-- The unions that are complete. -/
  unions : List Union
  /-- The number of the enums. -/
  enums : ℕ
  /-- The signatures. -/
  procs : List (List RTy × List RTy)
  /-- What the declarations that were named are, `none` for the ones under way (`&INVALID`). -/
  decls : List (ℕ × Option RTy)
  /-- `struct_insts`. -/
  insts : List ((ℕ × List RTy) × ℕ)
  /-- What was laid out, which the checker does not keep. -/
  log : List Step

/-- Before anything is checked. -/
def State.start : State := ⟨[], [], 0, [], [], [], []⟩

/-- What calls hand to the calls they make. -/
structure Env where
  /-- `poly_types`. -/
  polys : List (ℕ × RTy)
  /-- The structs whose `instantiate_struct` is under way. -/
  opened : List ℕ

/-! ### Sizes and alignments -/

/-- `int(min(uint(a * b), uint(max(int))))`. -/
def cutMul (a b : ℤ) : ℤ := min (a * b % 2 ^ 64) (2 ^ 63 - 1)

/-- `type_align` of a type without parts. -/
def primAlign : Prim → ℤ
  | .void => 1
  | .string => 8
  | p => p.size

namespace State

/-- `type_size`. -/
def size (st : State) : RTy → ℤ
  | .prim p => p.size
  | .proc _ | .pointer _ | .multiPointer _ => 8
  | .slice _ => 16
  | .struct id => (st.structs[id]?.map Struct.size).getD 0
  | .union id => (st.unions[id]?.map Union.size).getD 0
  | .array elem len => cutMul (st.size elem) len
  | .enum _ backing => st.size backing
  | .simd elem len => cutMul (st.size elem) len

/-- `type_align`. -/
def align (st : State) : RTy → ℤ
  | .prim p => primAlign p
  | .proc _ | .pointer _ | .multiPointer _ | .slice _ => 8
  | .struct id => (st.structs[id]?.map Struct.align).getD 0
  | .union id => (st.unions[id]?.map Union.align).getD 0
  | .array elem _ => st.align elem
  | .enum _ backing => st.align backing
  | .simd elem len => MachInt.wrap 64 (st.size elem * len)

end State

/-- `mem.align_forward_int`, which asserts that the alignment is a power of two. -/
def alignForward (x align : ℤ) : Option ℤ :=
  if 0 < align ∧ align.toNat &&& (align.toNat - 1) = 0 then
    let p := x % 2 ^ 64
    some (MachInt.wrap 64 (if p % align = 0 then p else p + align - p % align))
  else none

/-! ### Changes to the state -/

namespace State

def setDecl (n : ℕ) (ty : Option RTy) (st : State) : State := { st with decls := (n, ty) :: st.decls }

def push (s : Struct) (st : State) : State := { st with structs := st.structs ++ [s] }

def setStruct (id : ℕ) (s : Struct) (st : State) : State := { st with structs := st.structs.set id s }

def logged (s : Step) (st : State) : State := { st with log := s :: st.log }

/-- A field of a struct that is being laid out: the `align` is read when the size has been written. -/
def addField (opened : List ℕ) (id : ℕ) (ty : RTy) (st : State) : Option State := do
  let s ← st.structs[id]?
  let offset ← alignForward s.size (st.align ty)
  let top := alignUp s.size (st.align ty) + st.size ty
  let s := { s with
    fields := s.fields ++ [⟨ty, offset⟩], size := MachInt.wrap 64 (offset + st.size ty) }
  let st := st.setStruct id s
  let st := st.setStruct id { s with align := max s.align (st.align ty) }
  some (st.logged (.member opened ty top))

/-- The end of `instantiate_struct`. -/
def closeStruct (id : ℕ) (st : State) : Option (RTy × State) := do
  let s ← st.structs[id]?
  let size ← alignForward s.size s.align
  some (.struct id, (st.setStruct id { s with size }).logged (.close (alignUp s.size s.align)))

/-- The end of a union. -/
def closeUnion (variants : List RTy) (maxSize maxAlign : ℤ) (st : State) : Option (RTy × State) := do
  let tagOffset ← alignForward maxSize 8
  let align := max maxAlign 8
  let size ← alignForward (MachInt.wrap 64 (tagOffset + 8)) align
  let u : Union := { variants, tagOffset, size, align }
  let st := st.logged (.close (alignUp (alignUp maxSize 8 + 8) align))
  some (.union st.unions.length, { st with unions := st.unions ++ [u] })

/-- `intern_proc_type`. -/
def internProc (sig : List RTy × List RTy) (st : State) : RTy × State :=
  match st.procs.idxOf? sig with
  | some id => (.proc id, st)
  | none => (.proc st.procs.length, { st with procs := st.procs ++ [sig] })

end State

/-! ### Emitting types -/

/-- The types of a list that was written with names sharing a type: one that is left out is that of the
name before. -/
def emitList (emit : Expr → State → Option (RTy × State)) :
    List (Option Expr) → RTy → State → Option (List RTy × State)
  | [], _, st => some ([], st)
  | ast :: asts, last, st => do
    let (ty, st) ← (ast.map fun e => emit e st).getD (some (last, st))
    let (tys, st) ← emitList emit asts ty st
    some (ty :: tys, st)

/-- The loop over the fields in `instantiate_struct`. -/
def emitFields (emit : Expr → State → Option (RTy × State)) (opened : List ℕ) (id : ℕ) :
    List (Option Expr) → RTy → State → Option State
  | [], _, st => some st
  | ast :: asts, last, st => do
    let (ty, st) ← (ast.map fun e => emit e st).getD (some (last, st))
    let st ← st.addField opened id ty
    emitFields emit opened id asts ty st

/-- The loop over the variants of a union. -/
def emitVariants (emit : Expr → State → Option (RTy × State)) (opened : List ℕ) :
    List Expr → List RTy → ℤ → ℤ → State → Option (RTy × State)
  | [], tys, maxSize, maxAlign, st => st.closeUnion tys maxSize maxAlign
  | e :: es, tys, maxSize, maxAlign, st => do
    let (ty, st) ← emit e st
    let st := st.logged (.member opened ty (st.size ty))
    emitVariants emit opened es (tys ++ [ty]) (max maxSize (st.size ty)) (max maxAlign (st.align ty)) st

/-- Lay the struct out.  Its size goes on from what it is. -/
def layOut (emit : Env → Expr → State → Option (RTy × State)) (env : Env) (id : ℕ) (st : State) :
    Option (RTy × State) := do
  let s ← st.structs[id]?
  let env := { env with opened := id :: env.opened }
  let st := st.setStruct id { s with fields := [], align := 1 }
  let st ← emitFields (emit env) env.opened id s.asts (.prim .void) st
  st.closeStruct id

/-- `instantiate_struct`.  Without arguments it lays out the struct itself, with arguments a new one. -/
def instantiate (emit : Env → Expr → State → Option (RTy × State)) (env : Env) (base : ℕ)
    (args : List RTy) (st : State) : Option (RTy × State) :=
  if args = [] then
    layOut emit env base { st with insts := ((base, args), base) :: st.insts }
  else
    match st.insts.lookup (base, args) with
    | some id => some (.struct id, st)
    | none => do
      let b ← st.structs[base]?
      let id := st.structs.length
      let st := { st.push ⟨[], b.asts, [], 0, 0⟩ with insts := ((base, args), id) :: st.insts }
      layOut emit { env with polys := env.polys ++ b.params.zip args } id st

/-- `find_module_decl`, with `typecheck_decl` and `integrate_inferrence`. -/
def findDecl (prog : Program) (emit : Option ℕ → Expr → State → Option (RTy × State)) (n : ℕ)
    (st : State) : Option (RTy × State) :=
  match st.decls.lookup n with
  | some ty => ty.map fun ty => (ty, st)
  | none => do
    let e ← prog.lookup n
    let (ty, st) ← emit (some n) e (st.setDecl n none)
    some (ty, st.setDecl n (some ty))

/-- `typecheck_eval` of the length of an array. -/
def evalLen (emit : Expr → State → Option (RTy × State)) (asked : List (Option Expr))
    (len : List (ℤ × ℤ) → ℤ) (st : State) : Option (ℤ × State) := do
  let (tys, st) ← emitList emit asked (.prim .void) st
  some (MachInt.wrap 64 (len (tys.map fun ty => (st.size ty, st.align ty))), st)

/-- `emit_type`: the cases of `typecheck` that yield a type.  The key is that of the declaration that
the expression is the value of. -/
def emit (prog : Program) : ℕ → Env → Option ℕ → Expr → State → Option (RTy × State)
  | 0, _, _, _, _ => none
  | fuel + 1, env, key, e, st =>
    let emitIn env e := emit prog fuel env none e
    match e with
    | .prim p => some (.prim p, st)
    | .name n =>
      match env.polys.lookup n with
      | some ty => some (ty, st)
      | none => findDecl prog (emit prog fuel env) n st
    | .pointer elem => (emitIn env elem st).map fun (ty, st) => (.pointer ty, st)
    | .multiPointer elem => (emitIn env elem st).map fun (ty, st) => (.multiPointer ty, st)
    | .slice elem => (emitIn env elem st).map fun (ty, st) => (.slice ty, st)
    | .array elem asked len => do
      let (elem, st) ← emitIn env elem st
      let (len, st) ← evalLen (emitIn env) asked len st
      if len < 0 then none else some (.array elem len, st)
    | .simd elem asked len => do
      let (elem, st) ← emitIn env elem st
      let (len, st) ← evalLen (emitIn env) asked len st
      let size := MachInt.wrap 64 (st.size elem * len)
      if 0 < len ∧ len.toNat &&& (len.toNat - 1) = 0 ∧ 16 ≤ size ∧ size ≤ 64 then
        some (.simd elem len, st)
      else none
    | .proc params rets => do
      let (params, st) ← emitList (emitIn env) params (.prim .void) st
      let (rets, st) ← emitList (emitIn env) rets (.prim .void) st
      some (st.internProc (params, rets))
    | .struct params fields =>
      let id := st.structs.length
      let st := st.push ⟨params, fields, [], 0, 0⟩
      -- the declaration has the struct from here on
      let st := (key.map fun n => st.setDecl n (some (.struct id))).getD st
      if params = [] then instantiate emitIn env id [] st else some (.struct id, st)
    | .enum backing => do
      let (backing, st) ← (backing.map fun e => emitIn env e st).getD (some (.prim .int, st))
      some (.enum st.enums backing, { st with enums := st.enums + 1 })
    | .union variants => emitVariants (emitIn env) env.opened variants [] 0 1 st
    | .call callee args => do
      let (callee, st) ← emitIn env callee st
      match callee with
      | .struct base =>
        let s ← st.structs[base]?
        if args.length = s.params.length then
          let (args, st) ← emitList (emitIn env) args (.prim .void) st
          instantiate emitIn env base args (if args = [] then st.logged (.again base) else st)
        else none
      | _ => none

/-- `typecheck_program`, as far as the declarations: each in turn, unless it was named before. -/
def typecheckProgram (prog : Program) (fuel : ℕ) : Option State :=
  prog.foldlM (fun st d => (emit prog fuel ⟨[], []⟩ none (.name d.1) st).map Prod.snd) .start

/-- The types that a checker has emitted one after the other, newest first, and its state then: the
declarations, in any order, and the types written in procedures, whose type parameters may stand for any
type emitted before. -/
inductive Run (prog : Program) : List RTy → State → Prop where
  | start : Run prog [] .start
  | emit {tys : List RTy} {st st' : State} {polys : List (ℕ × RTy)} {fuel : ℕ} {e : Expr} {ty : RTy}
      (run : Run prog tys st) (known : ∀ p ∈ polys, p.2 ∈ tys)
      (step : emit prog fuel ⟨polys, []⟩ none e st = some (ty, st')) : Run prog (ty :: tys) st'

end TypeLayout

end OdinSon.Odinc
