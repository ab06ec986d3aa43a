import OdinSon.Codegen.Cfi
import OdinSon.Lib.MachInt
import Mathlib.Data.List.Induction
import Mathlib.Data.List.Perm.Subperm
import Mathlib.Logic.Relation

/-!
# Unwind information on amd64

The prologue of `emit_function` and the epilogue at each `Return` (`bac/amd64/amd64.odin`), with the
call frame information that they record on the way.  The code runs on a machine that pushes, pops and
moves the stack pointer; what the rest of the body does to registers and memory is open, as long as
it leaves the slots of the saved registers alone.

The information names a register by its number in the instruction set.  DWARF has other numbers for
some, `rbp` among them, so an unwinder gets the saved registers right only if none of those is saved
(`alwaysUnwindRight_iff`).
-/

namespace OdinSon.Codegen.Amd64

open MachInt

/-- `AMD64_CFI_SPEC`. -/
def cfiSpec : CfiSpec where
  cfaReg := 7
  returnAddrReg := 16
  initialCfaOffset := 8
  codeAlign := 1
  dataAlign := 8

/-- The number that DWARF has for a general register: `rcx`, `rdx`, `rsp`, `rbp`, `rsi` and `rdi` are
in another order there. -/
def dwarfReg : ℕ → ℕ
  | 1 => 2
  | 2 => 1
  | 4 => 7
  | 5 => 6
  | 6 => 4
  | 7 => 5
  | r => r

/-- The instructions; `other n` is any that does not touch the stack pointer, of `n + 1` bytes. -/
inductive Instr where
  | push (reg : ℕ)
  | pop (reg : ℕ)
  | subRsp (imm : ℤ)
  | addRsp (imm : ℤ)
  | ret
  | other (n : ℕ)
  deriving DecidableEq, Repr

/-- How many bytes `emit_single_op` and `emit_imm_op` emit. -/
def Instr.len : Instr → ℕ
  | push _ | pop _ => 2
  | subRsp imm | addRsp imm => if -128 ≤ imm ∧ imm ≤ 127 then 4 else 7
  | ret => 1
  | other n => n + 1

/-- What is emitted: instructions, and what `emit_cfi` records between them. -/
inductive Emit where
  | instr (i : Instr)
  | cfi (kind : CfiKind) (reg arg : ℕ)
  deriving DecidableEq, Repr

/-- The length of the code. -/
@[grind =] def codeLen : List Emit → ℕ
  | [] => 0
  | .instr i :: t => i.len + codeLen t
  | .cfi .. :: t => codeLen t

/-- The instructions of the code. -/
def code : List Emit → List Instr
  | [] => []
  | .instr i :: t => i :: code t
  | .cfi .. :: t => code t

/-- The operations, each at the place where the code is then. -/
def cfiOps : ℕ → List Emit → List CfiOp
  | _, [] => []
  | pos, .instr i :: t => cfiOps (pos + i.len) t
  | pos, .cfi kind reg arg :: t => ⟨pos, arg, kind, reg⟩ :: cfiOps pos t

/-- The loop that pushes the saved registers; `pushed` bytes are there. -/
def pushRegs : List ℕ → ℕ → List Emit
  | [], _ => []
  | reg :: regs, pushed =>
    .instr (.push reg) :: .cfi .defCfaOffset 0 (pushed + 8 + 8) ::
      .cfi .saveReg reg (pushed + 8 + 8) :: pushRegs regs (pushed + 8)

/-- The loop that pops them, from the last one; `cfa` is the offset before. -/
def popRegs : List ℕ → ℕ → List Emit
  | [], _ => []
  | reg :: regs, cfa =>
    .instr (.pop reg) :: .cfi .restoreReg reg 0 :: .cfi .defCfaOffset 0 (cfa - 8) ::
      popRegs regs (cfa - 8)

/-- Moving the stack pointer down. -/
def adjust (saved : List ℕ) (stackSize : ℤ) : List Emit :=
  if stackSize = 0 then []
  else [.instr (.subRsp stackSize), .cfi .defCfaOffset 0
    ((unsigned 32 (8 * saved.length + stackSize) + 8) % 2 ^ 32)]

/-- The prologue of `emit_function`. -/
def prologue (saved : List ℕ) (stackSize : ℤ) : List Emit :=
  pushRegs saved 0 ++ adjust saved stackSize

/-- Moving the stack pointer up again. -/
def readjust (saved : List ℕ) (stackSize : ℤ) : List Emit :=
  if stackSize = 0 then []
  else [.instr (.addRsp stackSize), .cfi .defCfaOffset 0 (8 * saved.length + 8)]

/-- A piece of the body: an instruction or a `Return`. -/
inductive Piece where
  | other (n : ℕ)
  | ret
  deriving DecidableEq, Repr

/-- `emit_instr`. -/
def emitPiece (saved : List ℕ) (stackSize : ℤ) : Piece → List Emit
  | .other n => [.instr (.other n)]
  | .ret =>
    .cfi .rememberState 0 0 :: (readjust saved stackSize ++
      (popRegs saved.reverse (8 * saved.length + 8) ++
        [.instr .ret, .cfi .restoreState 0 0]))

/-- The loop over the body. -/
def emitBody (saved : List ℕ) (stackSize : ℤ) (body : List Piece) : List Emit :=
  body.flatMap (emitPiece saved stackSize)

/-- What the emission of a function depends on, with debug information. -/
structure FuncCode where
  /-- `callee_saved`, of the general registers. -/
  calleeSaved : List ℕ
  /-- The general registers among `allocs`. -/
  used : List ℕ
  /-- What the prologue takes off the stack pointer. -/
  stackSize : ℤ
  /-- The instructions of the body and its returns. -/
  body : List Piece
  nodup : calleeSaved.Nodup
  lt : ∀ r ∈ calleeSaved, r < 16
  stackSize_i32 : InS 32 stackSize
  body_ne_nil : body ≠ []
  code_lt : codeLen (prologue (calleeSaved.filter (· ∈ used)) stackSize ++
    emitBody (calleeSaved.filter (· ∈ used)) stackSize body) < 2 ^ 32

namespace FuncCode

variable (f : FuncCode)

/-- The registers that are saved. -/
def saved : List ℕ := f.calleeSaved.filter (· ∈ f.used)

/-- Everything that is emitted. -/
def emitted : List Emit := prologue f.saved f.stackSize ++ emitBody f.saved f.stackSize f.body

/-- The rules that an unwinder has for an address of the function, from the bytes in `.eh_frame`.
A function without operations has no entry there.  `n` and `n'` are the lengths of the padding. -/
def rowAt (n n' addr : ℕ) : Option Row :=
  if cfiOps 0 f.emitted = [] then none
  else
    unwind cfiSpec (putCie cfiSpec ++ pad n)
      (putOps cfiSpec (codeLen f.emitted) 0 (cfiOps 0 f.emitted) ++ pad n') addr

end FuncCode

/-! ### The machine -/

/-- The instruction at an address. -/
def fetch : List Instr → ℕ → Option Instr
  | [], _ => none
  | i :: is, addr =>
    if addr = 0 then some i else if i.len ≤ addr then fetch is (addr - i.len) else none

/-- The machine in a call.  Addresses of the stack are relative to the stack pointer at the entry. -/
structure Machine where
  /-- The offset of the next instruction. -/
  pc : ℕ
  /-- The stack pointer, from what it was at the entry. -/
  rsp : ℤ
  /-- The general registers. -/
  regs : ℕ → BitVec 64
  /-- The words of the stack, by their addresses from there. -/
  mem : ℤ → BitVec 64
  /-- The registers that were pushed and not yet popped, with their slots. -/
  saved : List (ℕ × ℤ)

/-- A step of the machine. -/
inductive Step (f : FuncCode) : Machine → Machine → Prop
  | push {s : Machine} {r : ℕ} : fetch (code f.emitted) s.pc = some (.push r) →
      Step f s { s with
        pc := s.pc + 2
        rsp := s.rsp - 8
        mem := Function.update s.mem (s.rsp - 8) (s.regs r)
        saved := (r, s.rsp - 8) :: s.saved }
  | pop {s : Machine} {r : ℕ} : fetch (code f.emitted) s.pc = some (.pop r) →
      Step f s { s with
        pc := s.pc + 2
        rsp := s.rsp + 8
        regs := Function.update s.regs r (s.mem s.rsp)
        saved := s.saved.tail }
  | sub {s : Machine} {n : ℤ} : fetch (code f.emitted) s.pc = some (.subRsp n) →
      Step f s { s with pc := s.pc + (Instr.subRsp n).len, rsp := s.rsp - n }
  | add {s : Machine} {n : ℤ} : fetch (code f.emitted) s.pc = some (.addRsp n) →
      Step f s { s with pc := s.pc + (Instr.addRsp n).len, rsp := s.rsp + n }
  /-- The rest of the body: it goes on at any place of the body. -/
  | other {s : Machine} {n : ℕ} {regs : ℕ → BitVec 64} {mem : ℤ → BitVec 64}
      {before after : List Piece} : fetch (code f.emitted) s.pc = some (.other n) →
      (∀ p ∈ s.saved, mem p.2 = s.mem p.2) → f.body = before ++ after →
      Step f s { s with
        pc := codeLen (prologue f.saved f.stackSize ++ emitBody f.saved f.stackSize before)
        regs, mem }

/-- The machine at the entry. -/
def Machine.entry (regs : ℕ → BitVec 64) (mem : ℤ → BitVec 64) : Machine := ⟨0, 0, regs, mem, []⟩

/-- What an unwinder finds is so: the canonical frame address is that above the return address, and
the saved registers are in their slots. -/
def UnwindRight (f : FuncCode) (regs : ℕ → BitVec 64) (s : Machine) : Prop :=
  ∃ row, (∀ n n', f.rowAt n n' s.pc = some row) ∧ row.cfaReg = 7 ∧ s.rsp + row.cfaOffset = 8 ∧
    ∀ p ∈ s.saved, row.rule (dwarfReg p.1) = some (p.2 - 8) ∧ s.mem p.2 = regs p.1

/-- It is at each boundary between instructions that a run comes to. -/
def AlwaysUnwindRight (f : FuncCode) : Prop :=
  ∀ regs mem s, Relation.ReflTransGen (Step f) (Machine.entry regs mem) s →
    fetch (code f.emitted) s.pc ≠ none → UnwindRight f regs s

/-! ### Places in the code -/

theorem Instr.len_pos (i : Instr) : 0 < i.len := by
  cases i with
  | subRsp imm | addRsp imm =>
    rw [Instr.len]
    split_ifs <;> decide
  | push reg | pop reg => exact Nat.two_pos
  | ret => exact Nat.one_pos
  | other n => exact Nat.succ_pos n

theorem codeLen_append (t t' : List Emit) : codeLen (t ++ t') = codeLen t + codeLen t' := by
  induction t with
  | nil => rw [List.nil_append, codeLen, zero_add]
  | cons e t ih =>
    cases e with
    | instr i => rw [List.cons_append, codeLen, codeLen, ih, add_assoc]
    | cfi kind reg arg => rw [List.cons_append, codeLen, codeLen, ih]

theorem fetch_append (t : List Emit) (i : Instr) (t' : List Emit) :
    fetch (code (t ++ .instr i :: t')) (codeLen t) = some i := by
  induction t with
  | nil => rw [List.nil_append, code, fetch, codeLen, if_pos rfl]
  | cons e t ih =>
    cases e with
    | instr j =>
      have := j.len_pos
      rw [List.cons_append, code, fetch, codeLen, if_neg (by omega), if_pos (by omega),
        Nat.add_sub_cancel_left, ih]
    | cfi kind reg arg => rw [List.cons_append, code, codeLen, ih]

theorem fetch_codeLen (t : List Emit) : fetch (code t) (codeLen t) = none := by
  induction t with
  | nil => rfl
  | cons e t ih =>
    cases e with
    | instr i =>
      have := i.len_pos
      rw [code, fetch, codeLen, if_neg (by omega), if_pos (by omega), Nat.add_sub_cancel_left, ih]
    | cfi kind reg arg => rw [code, codeLen, ih]

theorem reg_lt_of_mem_cfiOps {t : List Emit} (h : ∀ kind reg arg, .cfi kind reg arg ∈ t → reg < 64)
    {pos : ℕ} {op : CfiOp} (hop : op ∈ cfiOps pos t) : op.reg < 64 := by
  induction t generalizing pos with
  | nil => cases hop
  | cons e t ih =>
    have hrest := fun kind reg arg hm => h kind reg arg (List.mem_cons_of_mem _ hm)
    cases e with
    | instr i => exact ih hrest hop
    | cfi kind reg arg =>
      obtain rfl | hop := List.mem_cons.1 hop
      · exact h kind reg arg (List.mem_cons_self ..)
      · exact ih hrest hop

theorem le_offset_of_mem_cfiOps {t : List Emit} {pos : ℕ} {op : CfiOp} (hop : op ∈ cfiOps pos t) :
    pos ≤ op.offset := by
  induction t generalizing pos with
  | nil => cases hop
  | cons e t ih =>
    cases e with
    | instr i => exact (Nat.le_add_right _ _).trans (ih hop)
    | cfi kind reg arg =>
      obtain rfl | hop := List.mem_cons.1 hop
      · exact le_refl _
      · exact ih hop

/-! ### The rules at a place -/

/-- What the operations of a part of the code make of an unwinder; `pos` is where it starts. -/
def marks (pos : ℕ) (u : Unwinder) : List Emit → Option Unwinder
  | [] => some u
  | .instr i :: t => marks (pos + i.len) u t
  | .cfi kind reg arg :: t =>
    (Unwinder.exec cfiSpec cfiSpec.init { u with loc := pos }
      (CfiOp.toInstr cfiSpec ⟨pos, arg, kind, reg⟩)).bind fun u => marks pos u t

theorem toInstr_ne_advanceLoc (op : CfiOp) (delta : ℕ) :
    op.toInstr cfiSpec ≠ .advanceLoc delta := by
  rw [CfiOp.toInstr]
  cases op.kind <;> exact fun h => DwCfa.noConfusion h

theorem exec_loc {init : Row} {u u' : Unwinder} {instr : DwCfa}
    (h : u.exec cfiSpec init instr = some u') : u'.loc = u.loc := by
  cases instr with
  | restoreState =>
    simp only [Unwinder.exec] at h
    split at h
    · cases h
    · cases h
      rfl
  | _ =>
    simp only [Unwinder.exec, Option.some.injEq] at h
    rw [← h]

/-- Operations beyond an address do not matter there. -/
theorem rowAt_beyond {len cur addr : ℕ} {ops : List CfiOp} {u : Unwinder} (hu : u.loc = cur)
    (h : ∀ op ∈ ops, addr < op.offset) (hcur : cur ≤ addr) :
    u.rowAt cfiSpec cfiSpec.init addr (toInstrs cfiSpec len cur ops) = some u.row := by
  induction ops with
  | nil => rfl
  | cons op ops ih =>
    have hop := h op (List.mem_cons_self ..)
    rw [toInstrs]
    split_ifs with h1 h2
    · exact ih fun op hop => h op (List.mem_cons_of_mem _ hop)
    · rw [Unwinder.rowAt]
      have hgt : u.loc + (op.offset - cur) / cfiSpec.codeAlign * cfiSpec.codeAlign > addr := by
        simp only [cfiSpec, Nat.div_one, mul_one]
        omega
      exact if_pos hgt
    · omega

/-- **The rules at an instruction** are those after the operations before it. -/
theorem rowAt_place {len cur pos : ℕ} {t t' : List Emit} {i : Instr} {u : Unwinder}
    (hu : u.loc = cur) (hcur : cur ≤ pos) (hlen : pos + codeLen t < len) :
    u.rowAt cfiSpec cfiSpec.init (pos + codeLen t)
        (toInstrs cfiSpec len cur (cfiOps pos (t ++ .instr i :: t'))) =
      (marks pos u t).map (·.row) := by
  induction t generalizing cur pos u with
  | nil =>
    have hpos := i.len_pos
    rw [List.nil_append, cfiOps, marks, Option.map_some]
    refine rowAt_beyond hu (fun op hop => ?_) ?_
    · have := le_offset_of_mem_cfiOps hop
      simp only [codeLen]
      omega
    · exact hcur.trans (Nat.le_add_right _ _)
  | cons e t ih =>
    cases e with
    | instr j =>
      rw [List.cons_append, cfiOps, marks, codeLen, ← add_assoc]
      rw [codeLen, ← add_assoc] at hlen
      exact ih hu (by omega) hlen
    | cfi kind reg arg =>
      rw [codeLen] at hlen
      have hstep : ∀ u' : Unwinder, u'.loc = pos →
          u'.rowAt cfiSpec cfiSpec.init (pos + codeLen t)
            (CfiOp.toInstr cfiSpec ⟨pos, arg, kind, reg⟩ ::
              toInstrs cfiSpec len pos (cfiOps pos (t ++ .instr i :: t'))) =
          ((u'.exec cfiSpec cfiSpec.init (CfiOp.toInstr cfiSpec ⟨pos, arg, kind, reg⟩)).bind
            fun u => marks pos u t).map (·.row) := by
        intro u' hu'
        rw [rowAt_cons (toInstr_ne_advanceLoc _), Option.map_bind]
        cases hx : u'.exec cfiSpec cfiSpec.init (CfiOp.toInstr cfiSpec ⟨pos, arg, kind, reg⟩) with
        | none => rfl
        | some v => exact ih ((exec_loc hx).trans hu') (le_refl _) hlen
      rw [List.cons_append, cfiOps, marks, codeLen, toInstrs, if_neg (by dsimp only; omega)]
      dsimp only
      split_ifs with hgt
      · rw [Unwinder.rowAt]
        have hloc : u.loc + (pos - cur) / cfiSpec.codeAlign * cfiSpec.codeAlign = pos := by
          simp only [cfiSpec, Nat.div_one, mul_one]
          omega
        rw [hloc, if_neg (by omega)]
        exact hstep _ rfl
      · obtain rfl : cur = pos := by omega
        have := hstep u hu
        rw [← hu] at this ⊢
        exact this

/-- The operations of a part of the code turn the rules and the remembered ones into others. -/
def After (t : List Emit) (a b : Row × List Row) : Prop :=
  ∀ pos loc, ∃ loc', marks pos ⟨loc, a.1, a.2⟩ t = some ⟨loc', b.1, b.2⟩

section After

variable {t t' : List Emit} {a b c : Row × List Row} {row : Row} {stack : List Row}

theorem After.nil : After [] a a := fun _ loc => ⟨loc, rfl⟩

theorem After.append (h : After t a b) (h' : After t' b c) : After (t ++ t') a c := by
  intro pos loc
  obtain ⟨loc₁, h₁⟩ := h pos loc
  obtain ⟨loc₂, h₂⟩ := h' (pos + codeLen t) loc₁
  refine ⟨loc₂, ?_⟩
  -- running the two parts in turn
  have key : ∀ (t : List Emit) pos (u : Unwinder),
      marks pos u (t ++ t') = (marks pos u t).bind fun u => marks (pos + codeLen t) u t' := by
    intro t
    induction t with
    | nil => exact fun _ _ => rfl
    | cons e t ih =>
      intro pos u
      cases e with
      | instr i => rw [List.cons_append, marks, marks, ih, codeLen, ← add_assoc]
      | cfi kind reg arg =>
        rw [List.cons_append, marks, marks, codeLen, Option.bind_assoc]
        simp only [ih]
  rw [key, h₁, Option.bind_some, h₂]

theorem After.instr (i : Instr) (h : After t a b) : After (.instr i :: t) a b :=
  fun pos loc => h (pos + i.len) loc

theorem After.defCfaOffset {reg n : ℕ} (h : After t ({ row with cfaOffset := n }, stack) b) :
    After (.cfi .defCfaOffset reg n :: t) (row, stack) b := fun pos _ => h pos pos

theorem After.saveReg {reg n : ℕ} (h : After t ({ row with
      rule := Function.update row.rule reg (some (-((n / 8 * 8 : ℕ) : ℤ))) }, stack) b) :
    After (.cfi .saveReg reg n :: t) (row, stack) b := fun pos _ => h pos pos

theorem After.restoreReg {reg n : ℕ} (h : After t ({ row with
      rule := Function.update row.rule reg (cfiSpec.init.rule reg) }, stack) b) :
    After (.cfi .restoreReg reg n :: t) (row, stack) b := fun pos _ => h pos pos

theorem After.rememberState {reg n : ℕ} (h : After t (row, row :: stack) b) :
    After (.cfi .rememberState reg n :: t) (row, stack) b := fun pos _ => h pos pos

theorem After.restoreState {reg n : ℕ} {row' : Row} (h : After t (row', stack) b) :
    After (.cfi .restoreState reg n :: t) (row, row' :: stack) b := fun pos _ => h pos pos

end After

/-! ### The rules that the code has -/

/-- The rules when `regs` are pushed. -/
def rulesFor (regs : List ℕ) (reg : ℕ) : Option ℤ :=
  if reg ∈ regs then some (-(8 * (regs.idxOf reg : ℤ) + 16)) else cfiSpec.init.rule reg

theorem rulesFor_append {regs : List ℕ} {r : ℕ} (h : r ∉ regs) :
    rulesFor (regs ++ [r]) =
      Function.update (rulesFor regs) r (some (-(8 * (regs.length : ℤ) + 16))) := by
  funext x
  by_cases hx : x = r
  · subst hx
    rw [Function.update_self, rulesFor,
      if_pos (List.mem_append_right _ (List.mem_singleton_self x)),
      List.idxOf_append_of_notMem h]
    simp
  · rw [Function.update_of_ne hx, rulesFor, rulesFor]
    by_cases hm : x ∈ regs
    · rw [if_pos hm, if_pos (List.mem_append_left _ hm), List.idxOf_append_of_mem hm]
    · have hm' : x ∉ regs ++ [r] := by simp [hm, hx]
      rw [if_neg hm, if_neg hm']

theorem update_rulesFor_append {regs : List ℕ} {r : ℕ} (h : r ∉ regs) :
    Function.update (rulesFor (regs ++ [r])) r (cfiSpec.init.rule r) = rulesFor regs := by
  rw [rulesFor_append h, Function.update_idem]
  funext x
  by_cases hx : x = r
  · subst hx
    rw [Function.update_self, rulesFor, if_neg h]
  · rw [Function.update_of_ne hx]

/-- The row when `regs` are pushed, and nothing else. -/
def rowFor (regs : List ℕ) : Row := ⟨7, 8 * regs.length + 8, rulesFor regs⟩

theorem after_pushRegs {a b : List ℕ} (h : (a ++ b).Nodup) :
    After (pushRegs b (8 * a.length)) (rowFor a, []) (rowFor (a ++ b), []) := by
  induction b generalizing a with
  | nil =>
    rw [List.append_nil]
    exact After.nil
  | cons r b ih =>
    have hr : r ∉ a := fun hc => (List.nodup_append.1 h).2.2 r hc r (List.mem_cons_self ..) rfl
    have heq : a ++ r :: b = a ++ [r] ++ b := by rw [List.append_assoc, List.singleton_append]
    rw [heq] at h ⊢
    have ih := ih h
    rw [List.length_append, List.length_singleton, mul_add, mul_one] at ih
    rw [pushRegs]
    refine After.instr _ (After.defCfaOffset (After.saveReg ?_))
    convert ih using 2
    simp only [rowFor, Row.mk.injEq, true_and]
    refine ⟨by simp; ring, ?_⟩
    rw [rulesFor_append hr]
    congr 3
    omega

theorem after_popRegs {a b : List ℕ} {stack : List Row} (h : (a ++ b).Nodup) :
    After (popRegs b.reverse (8 * (a ++ b).length + 8)) (rowFor (a ++ b), stack)
      (rowFor a, stack) := by
  induction b using List.reverseRecOn with
  | nil =>
    rw [List.append_nil]
    exact After.nil
  | append_singleton b r ih =>
    rw [← List.append_assoc] at h ⊢
    have hr : r ∉ a ++ b := fun hc =>
      (List.nodup_append.1 h).2.2 r hc r (List.mem_singleton_self r) rfl
    have ih := ih (List.nodup_append.1 h).1
    rw [List.reverse_append, List.reverse_singleton, List.singleton_append, popRegs]
    refine After.instr _ (After.restoreReg (After.defCfaOffset ?_))
    have hlen : 8 * (a ++ b ++ [r]).length + 8 - 8 = 8 * (a ++ b).length + 8 := by
      simp only [List.length_append, List.length_singleton]
      omega
    rw [hlen]
    convert ih using 2
    simp only [rowFor, Row.mk.injEq, true_and]
    exact update_rulesFor_append hr

/-- The row in the body. -/
def bodyRow (saved : List ℕ) (stackSize : ℤ) : Row :=
  { rowFor saved with
    cfaOffset := if stackSize = 0 then 8 * saved.length + 8
      else (unsigned 32 (8 * saved.length + stackSize) + 8) % 2 ^ 32 }

variable {saved : List ℕ} {stackSize : ℤ}

theorem rowFor_nil : rowFor [] = cfiSpec.init := by
  have hrule : rulesFor [] = cfiSpec.init.rule := funext fun x => if_neg List.not_mem_nil
  rw [rowFor, hrule]
  rfl

theorem after_prologue (h : saved.Nodup) :
    After (prologue saved stackSize) (rowFor [], []) (bodyRow saved stackSize, []) := by
  refine After.append (after_pushRegs (a := []) h) ?_
  rw [List.nil_append, adjust, bodyRow]
  by_cases h0 : stackSize = 0
  · rw [if_pos h0, if_pos h0]
    exact After.nil
  · rw [if_neg h0, if_neg h0]
    exact After.instr _ (After.defCfaOffset After.nil)

theorem after_readjust {stack : List Row} :
    After (readjust saved stackSize) (bodyRow saved stackSize, stack) (rowFor saved, stack) := by
  rw [readjust, bodyRow]
  by_cases h0 : stackSize = 0
  · rw [if_pos h0, if_pos h0]
    exact After.nil
  · rw [if_neg h0, if_neg h0]
    exact After.instr _ (After.defCfaOffset After.nil)

theorem after_emitPiece (h : saved.Nodup) (p : Piece) :
    After (emitPiece saved stackSize p) (bodyRow saved stackSize, [])
      (bodyRow saved stackSize, []) := by
  cases p with
  | other n => exact After.instr _ After.nil
  | ret =>
    refine After.rememberState (After.append after_readjust (After.append
      (after_popRegs (a := []) h) ?_))
    exact After.instr _ (After.restoreState After.nil)

theorem after_emitBody (h : saved.Nodup) (body : List Piece) :
    After (emitBody saved stackSize body) (bodyRow saved stackSize, [])
      (bodyRow saved stackSize, []) := by
  induction body with
  | nil => exact After.nil
  | cons p body ih =>
    rw [emitBody, List.flatMap_cons]
    exact After.append (after_emitPiece h p) ih

/-! ### Where a run is -/

/-- The slots of pushed registers, the last one first. -/
def slots (regs : List ℕ) : List (ℕ × ℤ) :=
  (regs.zipIdx.map fun p => (p.1, -(8 * (p.2 : ℤ) + 8))).reverse

theorem slots_append (regs : List ℕ) (r : ℕ) :
    slots (regs ++ [r]) = (r, -(8 * (regs.length : ℤ) + 8)) :: slots regs := by
  simp [slots, List.zipIdx_append]

theorem mem_slots {regs : List ℕ} {p : ℕ × ℤ} :
    p ∈ slots regs ↔ ∃ j : ℕ, regs[j]? = some p.1 ∧ p.2 = -(8 * (j : ℤ) + 8) := by
  rw [slots, List.mem_reverse, List.mem_map]
  constructor
  · rintro ⟨q, hq, rfl⟩
    exact ⟨q.2, List.mem_zipIdx_iff_getElem?.1 hq, rfl⟩
  · rintro ⟨j, hj, hp⟩
    exact ⟨(p.1, j), List.mem_zipIdx_iff_getElem?.2 hj, by rw [← hp]⟩

/-- A place before an instruction. -/
inductive Loc where
  | push (a : List ℕ) (r : ℕ) (b : List ℕ)
  | sub
  | other (before : List Piece) (n : ℕ) (after : List Piece)
  | add (before after : List Piece)
  | pop (before after : List Piece) (a : List ℕ) (r : ℕ) (b : List ℕ)
  | ret (before after : List Piece)

namespace Loc

variable (f : FuncCode)

/-- The place is there. -/
def Valid : Loc → Prop
  | push a r b => f.saved = a ++ r :: b
  | sub => f.stackSize ≠ 0
  | other before n after => f.body = before ++ .other n :: after
  | add before after => f.body = before ++ .ret :: after ∧ f.stackSize ≠ 0
  | pop before after a r b => f.body = before ++ .ret :: after ∧ f.saved = a ++ r :: b
  | ret before after => f.body = before ++ .ret :: after

/-- The instruction there. -/
def instr : Loc → Instr
  | push _ r _ => .push r
  | sub => .subRsp f.stackSize
  | other _ n _ => .other n
  | add .. => .addRsp f.stackSize
  | pop _ _ _ r _ => .pop r
  | ret .. => .ret

/-- The registers that are pushed there. -/
def regs : Loc → List ℕ
  | push a _ _ => a
  | sub | other .. | add .. => f.saved
  | pop _ _ a r _ => a ++ [r]
  | ret .. => []

/-- The place is in the body, where the stack pointer is down. -/
def inBody : Loc → Bool
  | other .. | add .. => true
  | _ => false

/-- The code before a piece of the body. -/
def inside (before : List Piece) : List Emit :=
  prologue f.saved f.stackSize ++ emitBody f.saved f.stackSize before

/-- The code before an epilogue has popped the others. -/
def epilogue (before : List Piece) (b : List ℕ) : List Emit :=
  inside f before ++ .cfi .rememberState 0 0 :: (readjust f.saved f.stackSize ++
    popRegs b.reverse (8 * f.saved.length + 8))

/-- The code before the place. -/
def pre : Loc → List Emit
  | push a _ _ => pushRegs a 0
  | sub => pushRegs f.saved 0
  | other before _ _ => inside f before
  | add before _ => inside f before ++ [.cfi .rememberState 0 0]
  | pop before _ _ _ b => epilogue f before b
  | ret before _ => epilogue f before f.saved

end Loc

variable {f : FuncCode}

theorem FuncCode.nodup_saved (f : FuncCode) : f.saved.Nodup := f.nodup.filter _

theorem pushRegs_append (a b : List ℕ) (pushed : ℕ) :
    pushRegs (a ++ b) pushed = pushRegs a pushed ++ pushRegs b (pushed + 8 * a.length) := by
  induction a generalizing pushed with
  | nil => rfl
  | cons r a ih =>
    have hlen : pushed + 8 + 8 * a.length = pushed + 8 * (r :: a).length := by
      rw [List.length_cons]
      ring
    rw [List.cons_append, pushRegs, ih, pushRegs, hlen]
    rfl

theorem popRegs_append (a b : List ℕ) (cfa : ℕ) :
    popRegs (a ++ b) cfa = popRegs a cfa ++ popRegs b (cfa - 8 * a.length) := by
  induction a generalizing cfa with
  | nil => rfl
  | cons r a ih =>
    rw [List.cons_append, popRegs, ih, popRegs, List.length_cons, mul_add, mul_one, Nat.sub_sub,
      add_comm 8]
    rfl

theorem emitBody_append (before after : List Piece) :
    emitBody saved stackSize (before ++ after) =
      emitBody saved stackSize before ++ emitBody saved stackSize after := List.flatMap_append

/-- The code around a `Return`. -/
theorem emitted_ret {before after : List Piece} (h : f.body = before ++ .ret :: after) :
    f.emitted = Loc.inside f before ++ .cfi .rememberState 0 0 ::
      (readjust f.saved f.stackSize ++ (popRegs f.saved.reverse (8 * f.saved.length + 8) ++
        (.instr .ret :: .cfi .restoreState 0 0 :: emitBody f.saved f.stackSize after))) := by
  rw [FuncCode.emitted, h, emitBody_append, Loc.inside]
  simp [emitBody, emitPiece, List.append_assoc]

/-- **The instruction at a place.** -/
theorem Loc.emitted_eq {l : Loc} (h : l.Valid f) :
    ∃ post, f.emitted = l.pre f ++ .instr (l.instr f) :: post := by
  cases l with
  | push a r b =>
    have h : f.saved = a ++ r :: b := h
    rw [FuncCode.emitted, prologue, h, pushRegs_append, List.append_assoc, List.append_assoc,
      pushRegs]
    exact ⟨_, rfl⟩
  | sub =>
    have h : f.stackSize ≠ 0 := h
    rw [FuncCode.emitted, prologue, adjust, if_neg h, List.append_assoc]
    exact ⟨_, rfl⟩
  | other before n after =>
    have h : f.body = before ++ .other n :: after := h
    rw [FuncCode.emitted, h, emitBody_append, ← List.append_assoc]
    exact ⟨_, rfl⟩
  | add before after =>
    rw [emitted_ret h.1, readjust, if_neg h.2]
    simp only [Loc.pre, List.append_assoc]
    exact ⟨_, rfl⟩
  | pop before after a r b =>
    have hpop : popRegs f.saved.reverse (8 * f.saved.length + 8) =
        popRegs b.reverse (8 * f.saved.length + 8) ++
          popRegs (r :: a.reverse) (8 * f.saved.length + 8 - 8 * b.reverse.length) := by
      rw [← popRegs_append, h.2]
      simp
    rw [emitted_ret h.1, hpop, popRegs]
    simp only [Loc.pre, Loc.epilogue, List.append_assoc, List.cons_append]
    exact ⟨_, rfl⟩
  | ret before after =>
    rw [emitted_ret h]
    simp only [Loc.pre, Loc.epilogue, List.append_assoc, List.cons_append]
    exact ⟨_, rfl⟩

/-- The rules at a place. -/
def Loc.row (f : FuncCode) (l : Loc) : Row :=
  if l.inBody then bodyRow f.saved f.stackSize else rowFor (l.regs f)

theorem after_inside (before : List Piece) :
    After (Loc.inside f before) (rowFor [], []) (bodyRow f.saved f.stackSize, []) :=
  After.append (after_prologue f.nodup_saved) (after_emitBody f.nodup_saved before)

theorem after_epilogue {before : List Piece} {a b : List ℕ} (h : f.saved = a ++ b) :
    After (Loc.epilogue f before b) (rowFor [], [])
      (rowFor a, [bodyRow f.saved f.stackSize]) := by
  refine After.append (after_inside before) (After.rememberState
    (After.append after_readjust ?_))
  have hnodup := f.nodup_saved
  rw [h] at hnodup ⊢
  exact after_popRegs hnodup

/-- **The rules at a place are those after the code before it.** -/
theorem Loc.after_pre {l : Loc} (h : l.Valid f) :
    ∃ stack, After (l.pre f) (rowFor [], []) (l.row f, stack) := by
  cases l with
  | push a r b =>
    have h : f.saved = a ++ r :: b := h
    have hnodup := f.nodup_saved
    rw [h] at hnodup
    exact ⟨[], after_pushRegs (a := []) (List.nodup_append.1 hnodup).1⟩
  | sub => exact ⟨[], after_pushRegs (a := []) f.nodup_saved⟩
  | other before n after => exact ⟨[], after_inside before⟩
  | add before after =>
    exact ⟨_, After.append (after_inside before) (After.rememberState After.nil)⟩
  | pop before after a r b =>
    refine ⟨_, after_epilogue ?_⟩
    show f.saved = a ++ [r] ++ b
    rw [h.2, List.append_assoc, List.singleton_append]
  | ret before after => exact ⟨_, after_epilogue (List.nil_append _).symm⟩

/-! ### Runs -/

/-- The stack pointer at a place. -/
def Loc.rsp (f : FuncCode) (l : Loc) : ℤ :=
  -(8 * ((l.regs f).length : ℤ)) - if l.inBody then f.stackSize else 0

/-- The machine is at a place: the registers that are pushed there are in their slots, and before the
last push they are as at the entry. -/
structure AtLoc (f : FuncCode) (regs : ℕ → BitVec 64) (s : Machine) (l : Loc) : Prop where
  valid : l.Valid f
  pc : s.pc = codeLen (l.pre f)
  rsp : s.rsp = l.rsp f
  saved : s.saved = slots (l.regs f)
  mem : ∀ p ∈ s.saved, s.mem p.2 = regs p.1
  fresh : ∀ a r b, l = .push a r b → s.regs = regs

/-- The machine is at a place, or behind the end of the code. -/
def Located (f : FuncCode) (regs : ℕ → BitVec 64) (s : Machine) : Prop :=
  (∃ l, AtLoc f regs s l) ∨ fetch (code f.emitted) s.pc = none

section Located

variable {regs : ℕ → BitVec 64} {s s' : Machine}

theorem AtLoc.fetch_eq {l : Loc} (h : AtLoc f regs s l) :
    fetch (code f.emitted) s.pc = some (l.instr f) := by
  obtain ⟨post, hpost⟩ := Loc.emitted_eq h.valid
  rw [h.pc, hpost, fetch_append]

/-- At a piece of the body. -/
theorem located_inside {before after : List Piece} (hbody : f.body = before ++ after)
    (hpc : s.pc = codeLen (Loc.inside f before))
    (hrsp : s.rsp = -(8 * (f.saved.length : ℤ)) - f.stackSize) (hsaved : s.saved = slots f.saved)
    (hmem : ∀ p ∈ s.saved, s.mem p.2 = regs p.1) : Located f regs s := by
  cases after with
  | nil =>
    right
    rw [List.append_nil] at hbody
    rw [hpc, ← hbody]
    exact fetch_codeLen f.emitted
  | cons p after =>
    left
    cases p with
    | other n =>
      exact ⟨.other before n after, hbody, hpc, hrsp, hsaved, hmem, fun _ _ _ h => by cases h⟩
    | ret =>
      have hpc' : s.pc = codeLen (Loc.inside f before ++ [.cfi .rememberState 0 0]) := by
        rw [hpc, codeLen_append]
        rfl
      by_cases h0 : f.stackSize = 0
      · -- there is nothing to add: the first register is popped, or none
        have hpc'' : s.pc = codeLen (Loc.epilogue f before []) := by
          rw [hpc', Loc.epilogue, readjust, if_pos h0]
          rfl
        rw [h0, sub_zero] at hrsp
        obtain hnil | ⟨a, r, hlast⟩ := List.eq_nil_or_concat f.saved
        · refine ⟨.ret before after, hbody, ?_, ?_, ?_, hmem, fun _ _ _ h => by cases h⟩
          · rw [Loc.pre, hnil]
            exact hpc''
          · rw [hrsp, hnil]
            rfl
          · rw [hsaved, hnil]
            rfl
        · rw [List.concat_eq_append] at hlast
          refine ⟨.pop before after a r [], ⟨hbody, hlast⟩, hpc'', ?_, ?_, hmem,
            fun _ _ _ h => by cases h⟩
          · rw [hrsp, hlast]
            exact (sub_zero _).symm
          · rw [hsaved, hlast]
            rfl
      · exact ⟨.add before after, ⟨hbody, h0⟩, hpc', hrsp, hsaved, hmem, fun _ _ _ h => by cases h⟩

/-- In the prologue, with `a` pushed. -/
theorem located_pushed {a b : List ℕ} (hab : f.saved = a ++ b)
    (hpc : s.pc = codeLen (pushRegs a 0)) (hrsp : s.rsp = -(8 * (a.length : ℤ)))
    (hsaved : s.saved = slots a) (hmem : ∀ p ∈ s.saved, s.mem p.2 = regs p.1)
    (hregs : s.regs = regs) : Located f regs s := by
  cases b with
  | cons r b =>
    left
    refine ⟨.push a r b, hab, hpc, ?_, hsaved, hmem, fun _ _ _ _ => hregs⟩
    rw [hrsp]
    exact (sub_zero _).symm
  | nil =>
    rw [List.append_nil] at hab
    subst hab
    by_cases h0 : f.stackSize = 0
    · have hbody : f.body = [] ++ f.body := rfl
      refine located_inside hbody ?_ ?_ hsaved hmem
      · rw [hpc, Loc.inside, prologue, adjust, if_pos h0]
        simp [emitBody]
      · rw [hrsp, h0, sub_zero]
    · left
      refine ⟨.sub, h0, hpc, ?_, hsaved, hmem, fun _ _ _ h => by cases h⟩
      rw [hrsp]
      exact (sub_zero _).symm

/-- In an epilogue, with `b` popped. -/
theorem located_popped {before after : List Piece} {a b : List ℕ}
    (hbody : f.body = before ++ .ret :: after) (hab : f.saved = a ++ b)
    (hpc : s.pc = codeLen (Loc.epilogue f before b)) (hrsp : s.rsp = -(8 * (a.length : ℤ)))
    (hsaved : s.saved = slots a) (hmem : ∀ p ∈ s.saved, s.mem p.2 = regs p.1) :
    Located f regs s := by
  left
  obtain rfl | ⟨a', r, rfl⟩ := List.eq_nil_or_concat a
  · rw [List.nil_append] at hab
    refine ⟨.ret before after, hbody, ?_, ?_, hsaved, hmem, fun _ _ _ h => by cases h⟩
    · rw [Loc.pre, hab]
      exact hpc
    · rw [hrsp]
      rfl
  · rw [List.concat_eq_append] at *
    rw [List.append_assoc, List.singleton_append] at hab
    refine ⟨.pop before after a' r b, ⟨hbody, hab⟩, hpc, ?_, hsaved, hmem,
      fun _ _ _ h => by cases h⟩
    rw [hrsp]
    exact (sub_zero _).symm

theorem Located.entry (regs : ℕ → BitVec 64) (mem : ℤ → BitVec 64) :
    Located f regs (Machine.entry regs mem) := by
  have hab : f.saved = [] ++ f.saved := rfl
  exact located_pushed hab rfl rfl rfl (fun _ h => by cases h) rfl

/-- **A step goes from a place to a place.** -/
theorem Located.step (h : Located f regs s) (hs : Step f s s') : Located f regs s' := by
  obtain ⟨l, h⟩ | hnone := h
  swap
  · -- without an instruction at the place there is no step
    exfalso
    cases hs with
    | push hf | pop hf | sub hf | add hf | other hf =>
      rw [hnone] at hf
      cases hf
  have hfetch := h.fetch_eq
  cases hs with
  | @push r' hf =>
    rw [hfetch] at hf
    cases l with
    | push a r b =>
      obtain rfl : r = r' := by
        cases hf
        rfl
      have hab : f.saved = (a ++ [r]) ++ b := by
        rw [List.append_assoc]
        exact h.valid
      have hrsp : s.rsp = -(8 * (a.length : ℤ)) - 0 := h.rsp
      have haddr : s.rsp - 8 = -(8 * (a.length : ℤ) + 8) := by
        rw [hrsp]
        ring
      -- the word goes below those that were pushed before
      refine located_pushed hab ?_ ?_ ?_ ?_ (h.fresh a r b rfl)
      · dsimp only
        rw [h.pc, Loc.pre, pushRegs_append, codeLen_append]
        rfl
      · dsimp only
        rw [haddr, List.length_append, List.length_singleton]
        push_cast
        ring
      · dsimp only
        rw [slots_append, haddr, h.saved]
        rfl
      · intro p hp
        obtain rfl | hp := List.mem_cons.1 hp
        · dsimp only
          rw [Function.update_self, h.fresh a r b rfl]
        · -- the slots of the others are above
          have hp' := hp
          rw [h.saved] at hp'
          obtain ⟨j, hj, hpj⟩ := mem_slots.1 hp'
          have hlt : j < a.length := (List.getElem?_eq_some_iff.1 hj).1
          dsimp only
          rw [Function.update_of_ne (by rw [hpj, haddr]; omega), h.mem p hp]
    | _ => cases hf
  | @pop r' hf =>
    rw [hfetch] at hf
    cases l with
    | pop before after a r b =>
      obtain rfl : r = r' := by
        cases hf
        rfl
      obtain ⟨hbody, hsaved⟩ := h.valid
      -- what was pushed last is popped first
      have hregs : s.saved = (r, -(8 * (a.length : ℤ) + 8)) :: slots a := by
        rw [h.saved]
        exact slots_append a r
      have hrsp : s.rsp = -(8 * ((a ++ [r]).length : ℤ)) - 0 := h.rsp
      refine located_popped hbody hsaved ?_ ?_ ?_ ?_
      · dsimp only
        have hlen : ∀ t t' : List Emit, codeLen (t ++ .cfi .rememberState 0 0 :: t') =
            codeLen t + codeLen t' := fun t t' => codeLen_append _ _
        rw [h.pc, Loc.pre, Loc.epilogue, Loc.epilogue, List.reverse_cons, popRegs_append, hlen, hlen,
          codeLen_append, codeLen_append, codeLen_append]
        simp only [popRegs, codeLen, Instr.len]
        omega
      · dsimp only
        rw [hrsp, List.length_append, List.length_singleton]
        push_cast
        ring
      · dsimp only
        rw [hregs, List.tail_cons]
      · intro p hp
        exact h.mem p (List.mem_of_mem_tail hp)
    | _ => cases hf
  | sub hf =>
    rw [hfetch] at hf
    cases l with
    | sub =>
      cases hf
      have h0 : f.stackSize ≠ 0 := h.valid
      have hbody : f.body = [] ++ f.body := rfl
      have hrsp : s.rsp = -(8 * (f.saved.length : ℤ)) - 0 := h.rsp
      refine located_inside hbody ?_ ?_ h.saved h.mem
      · dsimp only
        rw [h.pc, Loc.pre, Loc.inside, prologue, adjust, if_neg h0, codeLen_append, codeLen_append]
        rfl
      · dsimp only
        rw [hrsp, sub_zero]
    | _ => cases hf
  | add hf =>
    rw [hfetch] at hf
    cases l with
    | add before after =>
      cases hf
      obtain ⟨hbody, h0⟩ := h.valid
      have hrsp : s.rsp = -(8 * (f.saved.length : ℤ)) - f.stackSize := h.rsp
      refine located_popped hbody (List.append_nil _).symm ?_ ?_ h.saved h.mem
      · dsimp only
        rw [h.pc, Loc.pre, Loc.epilogue, readjust, if_neg h0, codeLen_append, codeLen_append]
        rfl
      · dsimp only
        rw [hrsp]
        ring
    | _ => cases hf
  | other hf hkeep hbody =>
    rw [hfetch] at hf
    cases l with
    | other before' n' after' =>
      exact located_inside hbody rfl h.rsp h.saved fun p hp => (hkeep p hp).trans (h.mem p hp)
    | _ => cases hf

theorem Located.reach {mem : ℤ → BitVec 64}
    (h : Relation.ReflTransGen (Step f) (Machine.entry regs mem) s) : Located f regs s := by
  induction h with
  | refl => exact Located.entry regs mem
  | tail _ hs ih => exact ih.step hs

end Located

/-! ### What the function records -/

theorem cfi_mem_pushRegs {regs : List ℕ} {pushed : ℕ} {kind : CfiKind} {reg arg : ℕ}
    (h : .cfi kind reg arg ∈ pushRegs regs pushed) : reg = 0 ∨ reg ∈ regs := by
  induction regs generalizing pushed with
  | nil => cases h
  | cons r regs ih =>
    rw [pushRegs] at h
    simp only [List.mem_cons, reduceCtorEq, false_or, Emit.cfi.injEq] at h
    obtain ⟨-, rfl, -⟩ | ⟨-, rfl, -⟩ | h := h
    · exact .inl rfl
    · exact .inr (List.mem_cons_self ..)
    · exact (ih h).imp_right (List.mem_cons_of_mem _)

theorem cfi_mem_popRegs {regs : List ℕ} {cfa : ℕ} {kind : CfiKind} {reg arg : ℕ}
    (h : .cfi kind reg arg ∈ popRegs regs cfa) : reg = 0 ∨ reg ∈ regs := by
  induction regs generalizing cfa with
  | nil => cases h
  | cons r regs ih =>
    rw [popRegs] at h
    simp only [List.mem_cons, reduceCtorEq, false_or, Emit.cfi.injEq] at h
    obtain ⟨-, rfl, -⟩ | ⟨-, rfl, -⟩ | h := h
    · exact .inr (List.mem_cons_self ..)
    · exact .inl rfl
    · exact (ih h).imp_right (List.mem_cons_of_mem _)

theorem FuncCode.saved_lt (f : FuncCode) : ∀ r ∈ f.saved, r < 16 :=
  fun r hr => f.lt r (List.mem_filter.1 hr).1

theorem cfi_reg_lt {kind : CfiKind} {reg arg : ℕ} (h : .cfi kind reg arg ∈ f.emitted) :
    reg < 64 := by
  have hsaved : reg = 0 ∨ reg ∈ f.saved → reg < 64 := by
    rintro (rfl | hr)
    · decide
    · exact (f.saved_lt reg hr).trans (by decide)
  obtain h | h := List.mem_append.1 h
  · obtain h | h := List.mem_append.1 h
    · exact hsaved (cfi_mem_pushRegs h)
    · rw [adjust] at h
      split_ifs at h
      · cases h
      · simp only [List.mem_cons, reduceCtorEq, false_or, Emit.cfi.injEq, List.not_mem_nil,
          or_false] at h
        exact hsaved (.inl h.2.1)
  · obtain ⟨p, -, h⟩ := List.mem_flatMap.1 h
    cases p with
    | other n =>
      simp [emitPiece] at h
    | ret =>
      simp only [emitPiece, List.mem_cons, List.mem_append, reduceCtorEq, false_or,
        Emit.cfi.injEq, List.not_mem_nil, or_false] at h
      obtain ⟨-, rfl, -⟩ | h | h | ⟨-, rfl, -⟩ := h
      · decide
      · rw [readjust] at h
        split_ifs at h
        · cases h
        · simp only [List.mem_cons, reduceCtorEq, false_or, Emit.cfi.injEq, List.not_mem_nil,
            or_false] at h
          exact hsaved (.inl h.2.1)
      · exact hsaved ((cfi_mem_popRegs h).imp_right List.mem_reverse.1)
      · decide

theorem cfiOps_eq_nil_iff {pos : ℕ} {t : List Emit} :
    cfiOps pos t = [] ↔ ∀ kind reg arg, .cfi kind reg arg ∉ t := by
  induction t generalizing pos with
  | nil => exact ⟨fun _ _ _ _ => List.not_mem_nil, fun _ => rfl⟩
  | cons e t ih =>
    cases e with
    | instr i =>
      rw [cfiOps, ih]
      simp
    | cfi kind reg arg =>
      rw [cfiOps]
      refine ⟨fun h => absurd h (List.cons_ne_nil _ _), fun h => ?_⟩
      exact absurd (List.mem_cons_self ..) (h kind reg arg)

/-- The function has an entry: it saves a register, has a frame or returns. -/
theorem cfiOps_ne_nil_iff :
    cfiOps 0 f.emitted ≠ [] ↔ f.saved ≠ [] ∨ f.stackSize ≠ 0 ∨ Piece.ret ∈ f.body := by
  constructor
  · contrapose!
    rintro ⟨hsaved, h0, hret⟩
    refine cfiOps_eq_nil_iff.2 fun kind reg arg h => ?_
    rw [FuncCode.emitted, prologue, hsaved, pushRegs, adjust, if_pos h0, List.nil_append,
      List.nil_append] at h
    obtain ⟨p, hp, h⟩ := List.mem_flatMap.1 h
    cases p with
    | other n => simp [emitPiece] at h
    | ret => exact hret hp
  · intro h hnil
    have hno := cfiOps_eq_nil_iff.1 hnil
    by_cases hret : Piece.ret ∈ f.body
    · refine hno .rememberState 0 0 (List.mem_append_right _ (List.mem_flatMap.2 ⟨_, hret, ?_⟩))
      exact List.mem_cons_self ..
    by_cases h0 : f.stackSize = 0
    · have hsaved := h.resolve_right (by rintro (hc | hc); exacts [hc h0, hret hc])
      obtain ⟨r, regs, hr⟩ := List.exists_cons_of_ne_nil hsaved
      refine hno .saveReg r 16 (List.mem_append_left _ (List.mem_append_left _ ?_))
      rw [hr, pushRegs]
      simp
    · refine hno .defCfaOffset 0 ((unsigned 32 (8 * f.saved.length + f.stackSize) + 8) % 2 ^ 32)
        (List.mem_append_left _ (List.mem_append_right _ ?_))
      rw [adjust, if_neg h0]
      exact List.mem_cons_of_mem _ (List.mem_cons_self ..)

/-- **What an unwinder finds at a place.** -/
theorem AtLoc.rowAt_eq {regs : ℕ → BitVec 64} {s : Machine} {l : Loc} (h : AtLoc f regs s l)
    (hops : cfiOps 0 f.emitted ≠ []) (n n' : ℕ) : f.rowAt n n' s.pc = some (l.row f) := by
  have hlt : codeLen f.emitted < 2 ^ 32 := f.code_lt
  obtain ⟨post, hpost⟩ := Loc.emitted_eq h.valid
  obtain ⟨stack, hafter⟩ := Loc.after_pre h.valid
  obtain ⟨loc, hmarks⟩ := hafter 0 0
  have hpos := (l.instr f).len_pos
  have hlen : 0 + codeLen (l.pre f) < codeLen f.emitted := by
    rw [hpost, codeLen_append, codeLen]
    omega
  have hplace : Unwinder.rowAt cfiSpec cfiSpec.init (0 + codeLen (l.pre f)) ⟨0, rowFor [], []⟩
      (toInstrs cfiSpec (codeLen f.emitted) 0
        (cfiOps 0 (l.pre f ++ .instr (l.instr f) :: post))) =
      (marks 0 ⟨0, rowFor [], []⟩ (l.pre f)).map (·.row) := rowAt_place rfl (le_refl 0) hlen
  rw [FuncCode.rowAt, if_neg hops, unwind_eq (by decide) hlt.le
    (fun op hop => reg_lt_of_mem_cfiOps (fun _ _ _ hm => cfi_reg_lt hm) hop), h.pc, ← rowFor_nil]
  rw [hmarks, ← hpost, zero_add, Option.map_some] at hplace
  rw [← rowFor_nil] at hplace
  exact hplace

/-! ### The result -/

/-- The registers that are pushed at a place are among the saved ones, in their order. -/
theorem Loc.regs_prefix {l : Loc} (h : l.Valid f) : l.regs f <+: f.saved := by
  cases l with
  | push a r b => exact ⟨r :: b, h.symm⟩
  | sub | other before n after | add before after => exact List.prefix_refl _
  | pop before after a r b =>
    refine ⟨b, ?_⟩
    rw [h.2]
    exact List.append_assoc a [r] b
  | ret before after => exact List.nil_prefix

theorem Loc.row_rule (l : Loc) : (l.row f).rule = rulesFor (l.regs f) := by
  cases l <;> rfl

theorem length_saved_le (f : FuncCode) : f.saved.length ≤ 16 := by
  have hsub : f.saved ⊆ List.range 16 := fun r hr => List.mem_range.2 (f.saved_lt r hr)
  simpa using (List.Nodup.subperm f.nodup_saved hsub).length_le

/-- The canonical frame address is right at a place if the offset of the frame is not negative. -/
theorem Loc.row_cfaOffset (hsize : f.stackSize = 0 ∨ 0 ≤ 8 * (f.saved.length : ℤ) + 8 + f.stackSize)
    (l : Loc) : l.rsp f + ((l.row f).cfaOffset : ℤ) = 8 := by
  have hm := length_saved_le f
  have hlt := f.stackSize_i32.2
  rw [Loc.rsp, Loc.row]
  by_cases hb : l.inBody = true
  · have hregs : l.regs f = f.saved := by cases l <;> first | rfl | cases hb
    rw [if_pos hb, if_pos hb, hregs, bodyRow]
    by_cases h0 : f.stackSize = 0
    · rw [if_pos h0, h0]
      push_cast
      ring
    · have hpos := hsize.resolve_left h0
      have hcast : (((unsigned 32 (8 * f.saved.length + f.stackSize) + 8) % 2 ^ 32 : ℕ) : ℤ) =
          8 * (f.saved.length : ℤ) + f.stackSize + 8 := by
        rw [Int.natCast_emod, Nat.cast_add, unsigned_cast]
        have hmod : (((2 ^ 32 : ℕ) : ℤ)) = 2 ^ 32 := by norm_num
        rw [hmod, Nat.cast_ofNat, Int.emod_add_emod]
        exact Int.emod_eq_of_lt (by omega) (by norm_num at *; omega)
      rw [if_neg h0, hcast]
      ring
  · rw [if_neg hb, if_neg hb, rowFor]
    push_cast
    ring

/-- The rule of a pushed register is its slot if DWARF has the same number for it. -/
theorem rulesFor_of_mem_slots {regs : List ℕ} (h : regs.Nodup) {p : ℕ × ℤ} (hp : p ∈ slots regs) :
    rulesFor regs p.1 = some (p.2 - 8) := by
  obtain ⟨j, hj, hpj⟩ := mem_slots.1 hp
  obtain ⟨hlt, hget⟩ := List.getElem?_eq_some_iff.1 hj
  have hidx : regs.idxOf p.1 = j := by
    rw [← hget]
    exact h.idxOf_getElem j hlt
  rw [rulesFor, if_pos (List.mem_of_getElem? hj), hidx, hpj]
  exact congrArg some (by ring)

/-- And only then. -/
theorem dwarfReg_of_rulesFor {a : List ℕ} {r : ℕ} (hr : r < 16)
    (h : rulesFor (a ++ [r]) (dwarfReg r) = some (-(8 * (a.length : ℤ) + 8) - 8)) :
    dwarfReg r = r := by
  rw [rulesFor] at h
  split_ifs at h with hm
  · have hidx : (a ++ [r]).idxOf (dwarfReg r) = a.length := by
      have := Option.some.inj h
      omega
    have hget := List.getElem_idxOf (List.idxOf_lt_length_iff.2 hm)
    simp only [hidx] at hget
    rw [← hget]
    simp
  · -- only the return address has a rule otherwise
    exfalso
    have hne : dwarfReg r ≠ 16 := by
      rw [dwarfReg.eq_def]
      split <;> omega
    simp [cfiSpec, CfiSpec.init, Function.update_of_ne hne] at h

theorem slots_injective {a b : List ℕ} (h : slots a = slots b) : a = b := by
  have := congrArg (fun l : List (ℕ × ℤ) => (l.map Prod.fst).reverse) h
  simpa [slots, List.map_reverse, Function.comp_def] using this

theorem code_append (t t' : List Emit) : code (t ++ t') = code t ++ code t' := by
  induction t with
  | nil => rfl
  | cons e t ih =>
    cases e with
    | instr i => rw [List.cons_append, code, ih, code, List.cons_append]
    | cfi kind reg arg => rw [List.cons_append, code, ih, code]

theorem code_emitBody_ne_nil (f : FuncCode) : code (emitBody f.saved f.stackSize f.body) ≠ [] := by
  obtain ⟨p, body, hbody⟩ := List.exists_cons_of_ne_nil f.body_ne_nil
  rw [hbody, emitBody, List.flatMap_cons, code_append]
  refine List.append_ne_nil_of_left_ne_nil ?_ _
  cases p with
  | other n => exact List.cons_ne_nil _ _
  | ret =>
    rw [emitPiece, code, code_append, code_append]
    exact List.append_ne_nil_of_right_ne_nil _
      (List.append_ne_nil_of_right_ne_nil _ (List.cons_ne_nil _ _))

/-- In the prologue there is always an instruction to come. -/
theorem fetch_ne_none {t t' : List Emit} (h : code t' ≠ []) :
    fetch (code (t ++ t')) (codeLen t) ≠ none := by
  induction t with
  | nil =>
    obtain ⟨i, is, hi⟩ := List.exists_cons_of_ne_nil h
    rw [List.nil_append, hi, codeLen, fetch, if_pos rfl]
    exact Option.some_ne_none i
  | cons e t ih =>
    cases e with
    | instr j =>
      have := j.len_pos
      rw [List.cons_append, code, fetch, codeLen, if_neg (by omega), if_pos (by omega),
        Nat.add_sub_cancel_left]
      exact ih
    | cfi kind reg arg => exact ih

section Reach

variable {regs : ℕ → BitVec 64} {mem : ℤ → BitVec 64}

/-- A run comes to every place of the prologue. -/
theorem reach_pushed (regs : ℕ → BitVec 64) (mem : ℤ → BitVec 64) {a b : List ℕ}
    (h : f.saved = a ++ b) :
    ∃ s, Relation.ReflTransGen (Step f) (Machine.entry regs mem) s ∧
      s.pc = codeLen (pushRegs a 0) ∧ s.rsp = -(8 * (a.length : ℤ)) ∧ s.saved = slots a := by
  induction a using List.reverseRecOn generalizing b with
  | nil => exact ⟨_, .refl, rfl, rfl, rfl⟩
  | append_singleton a r ih =>
    rw [List.append_assoc, List.singleton_append] at h
    obtain ⟨s, hs, hpc, hrsp, hsaved⟩ := ih h
    have hfetch : fetch (code f.emitted) s.pc = some (.push r) := by
      obtain ⟨post, hpost⟩ := Loc.emitted_eq (l := .push a r b) h
      rw [hpost, hpc]
      exact fetch_append _ _ _
    refine ⟨_, hs.tail (.push hfetch), ?_, ?_, ?_⟩
    · dsimp only
      rw [hpc, pushRegs_append, codeLen_append]
      rfl
    · dsimp only
      rw [hrsp, List.length_append, List.length_singleton]
      push_cast
      ring
    · dsimp only
      rw [slots_append, hsaved, hrsp, sub_eq_add_neg, ← neg_add]

/-- There is code to come wherever the prologue is. -/
theorem fetch_pushed_ne_none {a b : List ℕ} (h : f.saved = a ++ b) :
    fetch (code f.emitted) (codeLen (pushRegs a 0)) ≠ none := by
  rw [FuncCode.emitted, prologue, h, pushRegs_append, List.append_assoc, List.append_assoc, ← h]
  refine fetch_ne_none ?_
  rw [code_append, code_append]
  exact List.append_ne_nil_of_right_ne_nil _
    (List.append_ne_nil_of_right_ne_nil _ (code_emitBody_ne_nil f))

end Reach

/-- `rbp` is saved: the rule that is written is for another register. -/
def savesRbp : FuncCode where
  calleeSaved := [3, 5, 12, 13, 14, 15]
  used := [5]
  stackSize := 16
  body := [.other 2, .ret]
  nodup := by decide
  lt := by decide
  stackSize_i32 := by
    rw [InS]
    decide
  body_ne_nil := List.cons_ne_nil _ _
  code_lt := by decide

theorem not_alwaysUnwindRight_savesRbp : ¬ AlwaysUnwindRight savesRbp := by
  intro h
  have hsaved : savesRbp.saved = [5] ++ [] := by decide
  obtain ⟨s, hs, hpc, -, hslots⟩ := reach_pushed (fun _ => 0) (fun _ => 0) hsaved
  obtain ⟨row, hrow, -, -, hrules⟩ := h _ _ s hs (hpc ▸ fetch_pushed_ne_none hsaved)
  obtain ⟨l, hl⟩ | hnone := Located.reach hs
  · have heq := Option.some.inj ((hrow 0 0).symm.trans (hl.rowAt_eq (by decide) 0 0))
    have hregs : l.regs savesRbp = [] ++ [5] := slots_injective (hl.saved.symm.trans hslots)
    have hp : ((5 : ℕ), (-(8 * ((([] : List ℕ).length : ℕ) : ℤ) + 8) : ℤ)) ∈ s.saved := by
      rw [hslots]
      decide
    have hrule := (hrules _ hp).1
    rw [heq, Loc.row_rule, hregs] at hrule
    have := dwarfReg_of_rulesFor (by decide) hrule
    exact absurd this (by decide)
  · exact fetch_pushed_ne_none hsaved (hpc ▸ hnone)

/-- **When unwind information is right.**  An unwinder finds the canonical frame address and the
saved registers at every boundary of instructions iff DWARF has the numbers of the instruction set
for all the saved registers, the offset of the frame is not negative and the function records
something. -/
theorem alwaysUnwindRight_iff (f : FuncCode) :
    AlwaysUnwindRight f ↔ (∀ r ∈ f.saved, dwarfReg r = r) ∧
      (f.stackSize = 0 ∨ 0 ≤ 8 * (f.saved.length : ℤ) + 8 + f.stackSize) ∧
      (f.saved ≠ [] ∨ f.stackSize ≠ 0 ∨ Piece.ret ∈ f.body) := by
  rw [← cfiOps_ne_nil_iff]
  constructor
  · intro h
    have hops : cfiOps 0 f.emitted ≠ [] := by
      have hsaved : f.saved = [] ++ f.saved := rfl
      obtain ⟨row, hrow, -⟩ := h (fun _ => 0) (fun _ => 0) _ .refl (fetch_pushed_ne_none hsaved)
      intro hnil
      have := hrow 0 0
      rw [FuncCode.rowAt, if_pos hnil] at this
      cases this
    refine ⟨fun r hr => ?_, ?_, hops⟩
    · obtain ⟨a, b, hab⟩ := List.append_of_mem hr
      have hab' : f.saved = (a ++ [r]) ++ b := by
        rw [hab, List.append_assoc, List.singleton_append]
      obtain ⟨s, hs, hpc, -, hslots⟩ := reach_pushed (fun _ => 0) (fun _ => 0) hab'
      have hne : fetch (code f.emitted) s.pc ≠ none := hpc ▸ fetch_pushed_ne_none hab'
      obtain ⟨row, hrow, -, -, hrules⟩ := h _ _ s hs hne
      obtain ⟨l, hl⟩ := (Located.reach hs).resolve_right hne
      have heq := Option.some.inj ((hrow 0 0).symm.trans (hl.rowAt_eq hops 0 0))
      have hregs : l.regs f = a ++ [r] := slots_injective (hl.saved.symm.trans hslots)
      have hp : (r, -(8 * (a.length : ℤ) + 8)) ∈ s.saved := by
        rw [hslots, slots_append]
        exact List.mem_cons_self ..
      have hrule := (hrules _ hp).1
      rw [heq, Loc.row_rule, hregs] at hrule
      exact dwarfReg_of_rulesFor (f.saved_lt r hr) hrule
    · by_contra hc
      obtain ⟨h0, hneg⟩ := not_or.1 hc
      -- the boundary after the stack pointer has moved
      obtain ⟨s, hs, hpc, hrsp, -⟩ := reach_pushed (fun _ => 0) (fun _ => 0)
        (List.append_nil f.saved).symm
      have hfetch : fetch (code f.emitted) s.pc = some (.subRsp f.stackSize) := by
        obtain ⟨post, hpost⟩ := Loc.emitted_eq (f := f) (l := .sub) h0
        rw [hpost, hpc]
        exact fetch_append _ _ _
      have hs' := hs.tail (.sub hfetch)
      have hne : fetch (code f.emitted) (s.pc + (Instr.subRsp f.stackSize).len) ≠ none := by
        have hlen : s.pc + (Instr.subRsp f.stackSize).len =
            codeLen (prologue f.saved f.stackSize) := by
          rw [hpc, prologue, adjust, if_neg h0, codeLen_append]
          rfl
        rw [hlen]
        exact fetch_ne_none (code_emitBody_ne_nil f)
      obtain ⟨row, -, -, hcfa, -⟩ := h _ _ _ hs' hne
      dsimp only at hcfa
      rw [hrsp] at hcfa
      omega
  · rintro ⟨hdwarf, hsize, hops⟩ regs mem s hs hne
    obtain ⟨l, hl⟩ := (Located.reach hs).resolve_right hne
    refine ⟨l.row f, hl.rowAt_eq hops, ?_, ?_, fun p hp => ⟨?_, hl.mem p hp⟩⟩
    · cases l <;> rfl
    · rw [hl.rsp]
      exact Loc.row_cfaOffset hsize l
    · rw [hl.saved] at hp
      obtain ⟨j, hj, -⟩ := mem_slots.1 hp
      have hinit := Loc.regs_prefix hl.valid
      rw [hdwarf p.1 (hinit.subset (List.mem_of_getElem? hj)), Loc.row_rule]
      exact rulesFor_of_mem_slots (f.nodup_saved.sublist hinit.sublist) hp

end OdinSon.Codegen.Amd64
