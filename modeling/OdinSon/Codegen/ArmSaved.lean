import OdinSon.Codegen.ArmFrame

/-!
# When arm code keeps the callee-saved registers

First what the loops of the prologue and the epilogue do to the machine, then the exact condition
for `Preserves` (`preserves_iff`).  The condition is on what the frame is made of: sizes are sums
here, and offsets only wrap where the code does.
-/

namespace OdinSon.Codegen.Arm

open Lib MachInt

/-! ### Memory -/

section Memory

variable {mem : ℤ → UInt8} {addr a : ℤ} {value : Fin 8 → UInt8}

theorem store_of_not_mem (h : ¬(addr ≤ a ∧ a < addr + 8)) : store mem addr value a = mem a :=
  dif_neg h

theorem load_store : load (store mem addr value) addr = value := by
  funext k
  have h : addr ≤ addr + k.val ∧ addr + k.val < addr + 8 := by omega
  have hk : (addr + k.val - addr).toNat = k.val := by omega
  simp only [load, store, dif_pos h, hk]

theorem load_congr {mem' : ℤ → UInt8} (h : ∀ k : Fin 8, mem' (addr + k.val) = mem (addr + k.val)) :
    load mem' addr = load mem addr := funext h

/-- Write values one after another. -/
def storeAll (mem : ℤ → UInt8) (addr : ℤ) : List (Fin 8 → UInt8) → ℤ → UInt8
  | [] => mem
  | value :: values => storeAll (store mem addr value) (addr + 8) values

/-- Read registers from values that are one after another. -/
def loadAll (x : ℕ → Fin 8 → UInt8) (mem : ℤ → UInt8) (addr : ℤ) : List ℕ → ℕ → Fin 8 → UInt8
  | [] => x
  | reg :: regs => loadAll (Function.update x reg (load mem addr)) mem (addr + 8) regs

theorem storeAll_of_lt {values : List (Fin 8 → UInt8)} (h : a < addr) :
    storeAll mem addr values a = mem a := by
  induction values generalizing mem addr with
  | nil => rfl
  | cons value values ih =>
    rw [storeAll, ih (by omega)]
    exact store_of_not_mem (by omega)

theorem load_storeAll {values : List (Fin 8 → UInt8)} {j : ℕ} (h : values[j]? = some value) :
    load (storeAll mem addr values) (addr + 8 * j) = value := by
  induction values generalizing mem addr j with
  | nil => cases h
  | cons head values ih =>
    cases j with
    | zero =>
      obtain rfl := Option.some.inj h
      rw [Nat.cast_zero, mul_zero, add_zero]
      -- the later values are written above
      have hlt (k : Fin 8) : addr + k.val < addr + 8 := by omega
      have hstore : load (storeAll mem addr (head :: values)) addr =
          load (store mem addr head) addr := load_congr fun k => storeAll_of_lt (hlt k)
      rw [hstore, load_store]
    | succ j =>
      rw [List.getElem?_cons_succ] at h
      have haddr : addr + 8 * ((j + 1 : ℕ) : ℤ) = addr + 8 + 8 * j := by push_cast; ring
      rw [haddr, storeAll, ih h]

theorem loadAll_of_not_mem {x : ℕ → Fin 8 → UInt8} {regs : List ℕ} {r : ℕ} (h : r ∉ regs) :
    loadAll x mem addr regs r = x r := by
  induction regs generalizing x addr with
  | nil => rfl
  | cons reg regs ih =>
    rw [List.mem_cons, not_or] at h
    rw [loadAll, ih h.2, Function.update_of_ne h.1]

theorem loadAll_getElem? {x : ℕ → Fin 8 → UInt8} {regs : List ℕ} {j r : ℕ} (hn : regs.Nodup)
    (h : regs[j]? = some r) : loadAll x mem addr regs r = load mem (addr + 8 * j) := by
  induction regs generalizing x addr j with
  | nil => cases h
  | cons reg regs ih =>
    obtain ⟨hreg, hn⟩ := List.nodup_cons.1 hn
    cases j with
    | zero =>
      obtain rfl := Option.some.inj h
      rw [loadAll, loadAll_of_not_mem hreg, Function.update_self, Nat.cast_zero, mul_zero, add_zero]
    | succ j =>
      rw [List.getElem?_cons_succ] at h
      have haddr : addr + 8 * ((j + 1 : ℕ) : ℤ) = addr + 8 + 8 * j := by push_cast; ring
      rw [haddr, loadAll, ih hn h]

end Memory

/-! ### The loops -/

section Loops

variable {regs : List ℕ} {start : ℤ}

theorem imm12_tdiv (h0 : 0 ≤ start) (h1 : start < 2 ^ 12) : imm12 (start.tdiv 8) = start / 8 := by
  rw [imm12, Int.tdiv_eq_ediv_of_nonneg h0]
  omega

/-- One more register in bounds. -/
theorem wrap_add_eight (h0 : 0 ≤ start) (h1 : start < 2 ^ 12) :
    wrap 32 (start + 8) = start + 8 := wrap_i32 (by omega) (by omega)

theorem run_saveRegs (s : State) (h0 : 0 ≤ start) (h1 : start + 8 * regs.length < 2 ^ 12) :
    run s (saveRegs regs start).1 =
      { s with mem := storeAll s.mem (s.sp + 8 * (start / 8)) (regs.map s.x) } := by
  induction regs generalizing s start with
  | nil => rfl
  | cons reg regs ih =>
    rw [List.length_cons] at h1
    have hlt : start < 2 ^ 12 := by omega
    have hdiv : s.sp + 8 * ((start + 8) / 8) = s.sp + 8 * (start / 8) + 8 := by omega
    rw [saveRegs, wrap_add_eight h0 hlt, imm12_tdiv h0 hlt]
    show run (exec s (.str reg (start / 8))) (saveRegs regs (start + 8)).1 = _
    rw [ih _ (by omega) (by omega)]
    simp only [exec, hdiv, List.map_cons, storeAll]

theorem run_restoreRegs (s : State) (h0 : 0 ≤ start) (h1 : start + 8 * regs.length < 2 ^ 12) :
    run s (restoreRegs regs start).1 =
      { s with x := loadAll s.x s.mem (s.sp + 8 * (start / 8)) regs } := by
  induction regs generalizing s start with
  | nil => rfl
  | cons reg regs ih =>
    rw [List.length_cons] at h1
    have hlt : start < 2 ^ 12 := by omega
    have hdiv : s.sp + 8 * ((start + 8) / 8) = s.sp + 8 * (start / 8) + 8 := by omega
    rw [restoreRegs, wrap_add_eight h0 hlt, imm12_tdiv h0 hlt]
    show run (exec s (.ldr reg (start / 8))) (restoreRegs regs (start + 8)).1 = _
    rw [ih _ (by omega) (by omega)]
    simp only [exec, hdiv, loadAll]

/-- Both loops come to the same offset, which may wrap. -/
theorem saveRegs_snd (h0 : -2 ^ 31 ≤ start) (h1 : start < 2 ^ 31) :
    (saveRegs regs start).2 = wrap 32 (start + 8 * regs.length) := by
  induction regs generalizing start with
  | nil => simp only [saveRegs, List.length_nil, Nat.cast_zero, mul_zero, add_zero, wrap_i32 h0 h1]
  | cons reg regs ih =>
    have hm := wrap_mem (by decide : 0 < 32) (start + 8)
    rw [saveRegs]
    show (saveRegs regs (wrap 32 (start + 8))).2 = _
    rw [ih hm.1 hm.2, List.length_cons, wrap_add_wrap]
    congr 1
    push_cast
    ring

theorem restoreRegs_snd : (restoreRegs regs start).2 = (saveRegs regs start).2 := by
  induction regs generalizing start with
  | nil => rfl
  | cons reg regs ih =>
    show (restoreRegs regs (wrap 32 (start + 8))).2 = (saveRegs regs (wrap 32 (start + 8))).2
    exact ih

end Loops

namespace Func

variable (f : Func)

/-! ### Sizes -/

/-- The bytes of the arguments of calls. -/
def argBytes : ℤ := f.calls.foldl (fun n sizes => max n (wrap 32 sizes.sum)) 0

/-- The bytes of the saved registers. -/
def savedBytes : ℤ := 8 * f.savedRegs.length

/-- The bytes below the slots. -/
def slotsStart : ℤ := f.argBytes + f.savedBytes + if f.hasCall then 16 else 0

/-- The slots of the kind `k` that the allocation has, those of parameters included. -/
def slots (k : RegKind) : ℤ := spillSlotCount boundary f.allocs k

/-- The bytes with the slots. -/
def slotsStop : ℤ := f.slotsStart + 8 * f.slots .general + 16 * f.slots .vector

/-- Where the locals start: the slots of parameters are in the frame of the caller. -/
def localsStart : ℤ := f.slotsStop - valueBytes f.params

/-- The bytes of the locals. -/
def localBytes : ℤ := (f.locals.map (·.size)).sum

/-- The bytes of the frame. -/
def frameBytes : ℤ := wrap 32 (alignForward (f.localsStart + f.localBytes) 16)

/-- Where the `i`-th parameter is. -/
def paramStart (i : ℕ) : ℤ := f.frameBytes + ((f.params.take i).map (·.size)).sum

/-- Where the `i`-th local is, in the order of the frame. -/
def localStart (i : ℕ) : ℤ :=
  f.localsStart + (((sortLocals f.locals).take i).map (·.size)).sum

/-- Nothing but the stores of the prologue writes the slots of the saved registers. -/
structure SlotsFree : Prop where
  frame : f.frameBytes ≠ 0
  args : 8 ∣ f.argBytes
  locals : ∀ i l, (sortLocals f.locals)[i]? = some l →
    Area.Apart ⟨f.localStart i % 4096, l.size⟩ ⟨f.argBytes, f.savedBytes⟩
  params : ∀ i ∈ f.paramLocals, ∀ p, f.params[i]? = some p →
    Area.Apart ⟨f.paramStart i % 4096, p.size⟩ ⟨f.argBytes, f.savedBytes⟩
  /-- A `Split` that writes the slot of a parameter. -/
  values : ∀ r ∈ f.splits, ∀ i p, f.params[i]? = some p → p.isValueOf r.kind = true →
    r.index = boundary r.kind + (f.params.take i).countP (·.isValueOf r.kind) →
    Area.Apart ⟨8 * ((wrap 32 (f.paramStart i)).tdiv 8 % 4096), 8⟩ ⟨f.argBytes, f.savedBytes⟩

variable {f}

theorem pushBase_eq : f.pushBase = f.argBytes := by
  have h : (fun (n : ℤ) sizes => max n (layout 0 sizes).2) =
      fun n sizes => max n (wrap 32 sizes.sum) := by
    funext n sizes
    rw [layout_snd (by decide), zero_add]
  rw [pushBase, layoutCallArgs, h, argBytes]

theorem pushBase_bounds : 0 ≤ f.pushBase ∧ f.pushBase < 2 ^ 31 := by
  obtain ⟨h0, h1, -⟩ := layoutCallArgs_bounds f.calls (by decide : (0 : ℤ) < 2 ^ 31)
  exact ⟨h0, h1⟩

theorem length_savedRegs_le : f.savedRegs.length ≤ 10 :=
  (List.length_filter_le _ _).trans (by decide)

theorem nodup_savedRegs : f.savedRegs.Nodup := List.Nodup.filter _ (by decide)

theorem mem_savedRegs {r : ℕ} :
    r ∈ f.savedRegs ↔ r ∈ calleeSaved .general ∧ ⟨.general, r⟩ ∈ f.allocs := by
  rw [savedRegs, List.mem_filter, decide_eq_true_iff]

/-- The slots of the saved registers are low in the frame. -/
theorem Asserts.pushBase_lt (h : f.Asserts) : f.pushBase + 8 * f.savedRegs.length < 520 := by
  obtain ⟨h0, h1⟩ := pushBase_bounds (f := f)
  have hlen := length_savedRegs_le (f := f)
  by_cases hc : f.hasCall = true
  · have hpair := h.pair hc
    rw [saveRegs_snd (by omega) h1] at hpair
    by_cases hlt : f.pushBase + 8 * f.savedRegs.length < 2 ^ 31
    · rw [wrap_i32 (by omega) hlt, Int.tdiv_eq_ediv_of_nonneg (by omega)] at hpair
      omega
    · -- a sum that wraps is far below
      exfalso
      have hw : wrap 32 (f.pushBase + 8 * f.savedRegs.length) =
          -(2 ^ 32 - f.pushBase - 8 * f.savedRegs.length) := by
        rw [← wrap_i32 (by omega) (by omega :
          -(2 ^ 32 - f.pushBase - 8 * f.savedRegs.length) < (2 : ℤ) ^ 31), wrap_eq_wrap_iff]
        exact ⟨1, by ring⟩
      rw [hw, Int.neg_tdiv, Int.tdiv_eq_ediv_of_nonneg (by omega)] at hpair
      omega
  · have hcalls : f.calls = [] := by
      simp only [hasCall, Bool.or_eq_true, Bool.not_eq_true', List.isEmpty_eq_false_iff] at hc
      by_contra hne
      exact hc (.inr hne)
    have hbase : f.pushBase = 0 := by rw [pushBase, hcalls]; rfl
    omega

/-! ### The machine -/

section Machine

variable (h : f.Asserts)

include h

theorem Asserts.pushBase_lt_imm : f.pushBase + 8 * f.savedRegs.length < 2 ^ 12 :=
  h.pushBase_lt.trans (by decide)

theorem Asserts.saveRegs_snd :
    (saveRegs f.savedRegs f.pushBase).2 = f.pushBase + 8 * f.savedRegs.length := by
  obtain ⟨h0, h1⟩ := pushBase_bounds (f := f)
  have hlt := h.pushBase_lt
  rw [Arm.saveRegs_snd (by omega) h1, wrap_i32 (by omega) (by omega)]

theorem Asserts.saveRegs_tdiv :
    8 * (saveRegs f.savedRegs f.pushBase).2.tdiv 8 =
      8 * (f.pushBase / 8) + 8 * f.savedRegs.length := by
  obtain ⟨h0, -⟩ := pushBase_bounds (f := f)
  rw [h.saveRegs_snd, Int.tdiv_eq_ediv_of_nonneg (by omega)]
  omega

/-- **The prologue** keeps the registers and puts those that are saved in their slots. -/
theorem Asserts.run_prologue (hf : f.frame.stackSize ≠ 0) (s : State) :
    (run s f.prologue).x = s.x ∧ (run s f.prologue).v = s.v ∧
      ∀ (j : ℕ) r, f.savedRegs[j]? = some r →
        load (run s f.prologue).mem ((run s f.prologue).sp + (8 * (f.pushBase / 8) + 8 * j)) =
          s.x r := by
  obtain ⟨h0, -⟩ := pushBase_bounds (f := f)
  have hrun := run_saveRegs (exec s (.subSp (imm12 f.frame.stackSize))) h0 h.pushBase_lt_imm
  have htdiv := h.saveRegs_tdiv
  generalize hs1 : exec s (.subSp (imm12 f.frame.stackSize)) = s1 at hrun
  have hx : s1.x = s.x := by rw [← hs1]; rfl
  have hv : s1.v = s.v := by rw [← hs1]; rfl
  have hload (j : ℕ) (r : ℕ) (hj : f.savedRegs[j]? = some r) :
      load (storeAll s1.mem (s1.sp + 8 * (f.pushBase / 8)) (f.savedRegs.map s1.x))
        (s1.sp + (8 * (f.pushBase / 8) + 8 * j)) = s.x r := by
    rw [← add_assoc]
    refine load_storeAll ?_
    rw [List.getElem?_map, hj, Option.map_some, hx]
  have hprologue : run s f.prologue =
      run (run s1 (saveRegs f.savedRegs f.pushBase).1)
        (if f.hasCall then [.stp ((saveRegs f.savedRegs f.pushBase).2.tdiv 8)] else []) := by
    rw [prologue]
    simp only [if_neg hf, run, List.cons_append, List.foldl_cons, List.foldl_append, hs1]
  rw [hprologue, hrun]
  by_cases hc : f.hasCall = true
  · rw [if_pos hc]
    refine ⟨hx, hv, fun j r hj => ?_⟩
    rw [← hload j r hj]
    -- the pair is stored above the slots
    have hlt : j < f.savedRegs.length := (List.getElem?_eq_some_iff.1 hj).1
    refine load_congr fun k => ?_
    simp only [run, List.foldl_cons, List.foldl_nil, exec, htdiv]
    rw [store_of_not_mem (by omega), store_of_not_mem (by omega)]
  · rw [if_neg hc]
    exact ⟨hx, hv, hload⟩

/-- **The epilogue** reads the saved registers back. -/
theorem Asserts.run_epilogue (s : State) :
    (run s f.epilogue).v = s.v ∧
      (∀ (j : ℕ) r, f.savedRegs[j]? = some r →
        (run s f.epilogue).x r = load s.mem (s.sp + (8 * (f.pushBase / 8) + 8 * j))) ∧
      ∀ r ∈ calleeSaved .general, r ∉ f.savedRegs → (run s f.epilogue).x r = s.x r := by
  obtain ⟨h0, -⟩ := pushBase_bounds (f := f)
  have hrun := run_restoreRegs s h0 h.pushBase_lt_imm
  -- what comes after the loads changes no callee-saved register
  have hrest (s : State) (imm imm' : ℤ) :
      let s' := run s ((if f.hasCall then [.ldp imm] else []) ++
        if f.frame.stackSize = 0 then [] else [.addSp imm'])
      s'.v = s.v ∧ ∀ r ∈ calleeSaved .general, s'.x r = s.x r := by
    have hne : ∀ r ∈ calleeSaved .general, r ≠ 29 ∧ r ≠ 30 := by decide
    split <;> split <;> refine ⟨rfl, fun r hr => ?_⟩ <;>
      simp [run, exec, Function.update_of_ne (hne r hr).1, Function.update_of_ne (hne r hr).2]
  have hepilogue : run s f.epilogue =
      run (run s (restoreRegs f.savedRegs f.pushBase).1)
        ((if f.hasCall then [.ldp ((restoreRegs f.savedRegs f.pushBase).2.tdiv 8)] else []) ++
          if f.frame.stackSize = 0 then [] else [.addSp (imm12 f.frame.stackSize)]) := by
    rw [epilogue]
    simp only [run, List.foldl_append, List.append_assoc]
  rw [hepilogue, hrun]
  obtain ⟨hv, hx⟩ := hrest
    { s with x := loadAll s.x s.mem (s.sp + 8 * (f.pushBase / 8)) f.savedRegs }
    ((restoreRegs f.savedRegs f.pushBase).2.tdiv 8) (imm12 f.frame.stackSize)
  refine ⟨hv, fun j r hj => ?_, fun r hr hns => ?_⟩
  · rw [hx r (mem_savedRegs.1 (List.mem_of_getElem? hj)).1, ← add_assoc]
    exact loadAll_getElem? nodup_savedRegs hj
  · rw [hx r hr]
    exact loadAll_of_not_mem hns

end Machine

/-- What any run of the body keeps. -/
theorem bodyRun {s s' : State} (hrun : Relation.ReflTransGen (BodyStep f) s s') :
    BodyStep f s s' := by
  induction hrun with
  | refl => exact ⟨rfl, fun _ _ _ => rfl, fun _ _ _ => rfl, fun _ _ _ => rfl⟩
  | tail _ hstep ih =>
    refine ⟨hstep.sp.trans ih.sp, fun r hr hn => (hstep.x r hr hn).trans (ih.x r hr hn),
      fun r hr hn => (hstep.v r hr hn).trans (ih.v r hr hn), fun a ha hfree => ?_⟩
    rw [← ih.mem a ha hfree, ← ih.sp]
    exact hstep.mem a ha hfree

theorem mem_saveArea {j : ℕ} {k : Fin 8} (hj : j < f.savedRegs.length) :
    8 * (f.pushBase / 8) + 8 * j + k.val ∈ f.saveArea := by
  rw [Area.mem_def]
  simp only [saveArea, Area.stop]
  omega

/-- A byte of the slots is one of a register. -/
theorem exists_of_mem_saveArea {a : ℤ} (ha : a ∈ f.saveArea) :
    ∃ (j : ℕ) (k : Fin 8) (r : ℕ), f.savedRegs[j]? = some r ∧
      a = 8 * (f.pushBase / 8) + 8 * j + k.val := by
  rw [Area.mem_def] at ha
  simp only [saveArea, Area.stop] at ha
  obtain ⟨n, hn⟩ := Int.eq_ofNat_of_zero_le (by omega : 0 ≤ a - 8 * (f.pushBase / 8))
  have hj : n / 8 < f.savedRegs.length := by omega
  refine ⟨n / 8, ⟨n % 8, Nat.mod_lt _ (by decide)⟩, f.savedRegs[n / 8], ?_, ?_⟩
  · exact List.getElem?_eq_getElem hj
  · have := Nat.div_add_mod n 8
    simp only
    omega

section Preserves

variable (h : f.Asserts)

include h

theorem Asserts.preserves (hv : ∀ r ∈ calleeSaved .vector, ⟨.vector, r⟩ ∉ f.allocs)
    (hg : f.savedRegs ≠ [] → f.frame.stackSize ≠ 0 ∧ ∀ area ∈ f.bodyAreas, area.Apart f.saveArea) :
    Preserves f := by
  intro s s' hrun
  obtain ⟨hsp, hkx, hkv, hmem⟩ := bodyRun hrun
  obtain ⟨hev, hsaved, hother⟩ := h.run_epilogue s'
  -- without a frame the prologue is empty
  have hzero (h0 : f.frame.stackSize = 0) : run s f.prologue = s := by
    rw [prologue]
    simp only [if_pos h0]
    rfl
  have hpro : (run s f.prologue).x = s.x ∧ (run s f.prologue).v = s.v := by
    by_cases h0 : f.frame.stackSize = 0
    · rw [hzero h0]
      exact ⟨rfl, rfl⟩
    · exact ⟨(h.run_prologue h0 s).1, (h.run_prologue h0 s).2.1⟩
  constructor
  · intro r hr
    by_cases hs : r ∈ f.savedRegs
    · obtain ⟨hne, hfree⟩ := hg (List.ne_nil_of_mem hs)
      obtain ⟨j, hj⟩ := List.mem_iff_getElem?.1 hs
      have hlt : j < f.savedRegs.length := (List.getElem?_eq_some_iff.1 hj).1
      rw [hsaved j r hj, ← (h.run_prologue hne s).2.2 j r hj]
      refine funext fun k => ?_
      have ha := mem_saveArea (k := k) hlt
      have hkept := hmem _ ha fun area harea hin => hfree area harea _ hin ha
      simp only [load, hsp, add_assoc] at hkept ⊢
      exact hkept
    · have hn : ⟨.general, r⟩ ∉ f.allocs := fun hin => hs (mem_savedRegs.2 ⟨hr, hin⟩)
      rw [hother r hr hs, hkx r hr hn, hpro.1]
  · intro r hr
    rw [hev, hkv r hr (hv r hr), hpro.2]

/-- A vector register that is allocated is not kept. -/
theorem Asserts.vector_free (hp : Preserves f) :
    ∀ r ∈ calleeSaved .vector, ⟨.vector, r⟩ ∉ f.allocs := by
  intro r hr hin
  let s : State := ⟨0, fun _ _ => 0, fun _ _ => 0, fun _ => 0⟩
  let s1 := run s f.prologue
  let s' : State := { s1 with v := Function.update s1.v r fun _ => 1 }
  have hstep : BodyStep f s1 s' := by
    refine ⟨rfl, fun _ _ _ => rfl, fun r' _ hn => ?_, fun _ _ _ => rfl⟩
    have hne : r' ≠ r := fun he => hn (he ▸ hin)
    exact Function.update_of_ne hne ..
  have hkept := (hp s s' (.single hstep)).2 r hr
  rw [(h.run_epilogue s').1] at hkept
  have hone : s'.v r = fun _ => 1 := Function.update_self ..
  have hbyte : (1 : UInt8) = 0 := congrFun (hone.symm.trans hkept) 0
  exact absurd hbyte (by decide)

/-- Without stores the slots have any value. -/
theorem Asserts.stackSize_ne_zero (hp : Preserves f) (hs : f.savedRegs ≠ []) :
    f.frame.stackSize ≠ 0 := by
  intro h0
  obtain ⟨r, hr⟩ := List.exists_mem_of_ne_nil _ hs
  obtain ⟨j, hj⟩ := List.mem_iff_getElem?.1 hr
  let s : State := ⟨0, fun _ _ => 1, fun _ _ => 0, fun _ => 0⟩
  have hrun : run s f.prologue = s := by
    rw [prologue]
    simp only [if_pos h0]
    rfl
  have hbody : Relation.ReflTransGen (BodyStep f) (run s f.prologue) s := by rw [hrun]
  have hkept := (hp s s hbody).1 r (mem_savedRegs.1 hr).1
  rw [(h.run_epilogue s).2.1 j r hj] at hkept
  have hbyte : (0 : UInt8) = 1 := congrFun hkept 0
  exact absurd hbyte (by decide)

/-- A slot that the body writes has any value. -/
theorem Asserts.areas_free (hp : Preserves f) (hs : f.savedRegs ≠ []) :
    ∀ area ∈ f.bodyAreas, area.Apart f.saveArea := by
  intro area harea a hin ha
  have hne := h.stackSize_ne_zero hp hs
  obtain ⟨j, k, r, hj, rfl⟩ := exists_of_mem_saveArea ha
  let s : State := ⟨0, fun _ _ => 0, fun _ _ => 0, fun _ => 0⟩
  let s1 := run s f.prologue
  let byte := s1.sp + (8 * (f.pushBase / 8) + 8 * j + k.val)
  let s' : State := { s1 with mem := Function.update s1.mem byte 1 }
  have hstep : BodyStep f s1 s' := by
    refine ⟨rfl, fun _ _ _ => rfl, fun _ _ _ => rfl, fun a' _ hfree => ?_⟩
    refine Function.update_of_ne (fun he => hfree area harea ?_) ..
    have hbyte : a' = 8 * (f.pushBase / 8) + 8 * j + k.val := add_left_cancel he
    rwa [hbyte]
  have hkept := (hp s s' (.single hstep)).1 r (mem_savedRegs.1 (List.mem_of_getElem? hj)).1
  rw [(h.run_epilogue s').2.1 j r hj] at hkept
  have hone : load s'.mem (s'.sp + (8 * (f.pushBase / 8) + 8 * j)) k = 1 := by
    show Function.update s1.mem byte 1 (s1.sp + (8 * (f.pushBase / 8) + 8 * j) + k.val) = 1
    rw [add_assoc]
    exact Function.update_self ..
  have hbyte : (1 : UInt8) = 0 := hone.symm.trans (congrFun hkept k)
  exact absurd hbyte (by decide)

end Preserves

/-! ### The frame in closed form -/

theorem slots_bounds (k : RegKind) : 0 ≤ f.slots k ∧ f.slots k < 2 ^ 12 := by
  refine ⟨spillSlotCount_nonneg, ?_⟩
  by_contra hlt
  have hpos : 0 < f.slots k := by omega
  obtain ⟨r, hr, -, he⟩ := exists_spillSlotCount hpos
  have hb : 0 < boundary k := by cases k <;> decide
  have := f.index_lt r hr
  rw [slots] at hlt
  omega

/-- What the loops compute.  Only sums that the assertions do not bound may wrap. -/
structure FrameEq (f : Func) : Prop where
  stackSize : f.frame.stackSize = f.frameBytes
  general : f.frame.spillSlotBase .general = f.slotsStart
  vector : f.frame.spillSlotBase .vector = f.slotsStart + 8 * f.slots .general
  locals : ∀ i l, (sortLocals f.locals)[i]? = some l →
    f.frame.localOffsets[i]? = some (wrap 32 (f.localStart i))
  params : ∀ i < f.params.length, f.frame.paramOffsets[i]? = some (wrap 32 (f.paramStart i))
  values : ∀ i p k, f.params[i]? = some p → p.isValueOf k = true →
    (f.frame.stackParamOffset k)[(f.params.take i).countP (·.isValueOf k)]? =
      some (wrap 32 (f.paramStart i))

section Stages

variable (h : f.Asserts)

include h

theorem Asserts.slotsStart_bounds :
    f.argBytes + f.savedBytes ≤ f.slotsStart ∧ f.slotsStart < 2 ^ 10 := by
  have hlt := h.pushBase_lt
  rw [pushBase_eq] at hlt
  rw [slotsStart, savedBytes]
  split <;> omega

theorem Asserts.slotsStart_nonneg : 0 ≤ f.slotsStart := by
  obtain ⟨h0, -⟩ := pushBase_bounds (f := f)
  obtain ⟨hs, -⟩ := h.slotsStart_bounds
  rw [pushBase_eq] at h0
  rw [savedBytes] at hs
  omega

theorem Asserts.slotsStart_eq :
    (if f.hasCall then wrap 32 ((saveRegs f.savedRegs f.pushBase).2 + 16)
      else (saveRegs f.savedRegs f.pushBase).2) = f.slotsStart := by
  obtain ⟨h0, -⟩ := pushBase_bounds (f := f)
  have hlt := h.pushBase_lt
  rw [h.saveRegs_snd, slotsStart, savedBytes, ← pushBase_eq]
  split
  · exact wrap_i32 (by omega) (by omega)
  · rw [add_zero]

theorem Asserts.slotsStop_bounds : f.slotsStart ≤ f.slotsStop ∧ f.slotsStop < 2 ^ 31 := by
  obtain ⟨-, hlt⟩ := h.slotsStart_bounds
  obtain ⟨hg0, hg1⟩ := slots_bounds (f := f) .general
  obtain ⟨hv0, hv1⟩ := slots_bounds (f := f) .vector
  rw [slotsStop]
  omega

theorem Asserts.layoutSpillSlots_eq :
    layoutSpillSlots boundary f.allocs f.slotsStart =
      (fun | .general => f.slotsStart | .vector => f.slotsStart + 8 * f.slots .general,
        f.slotsStop) := by
  obtain ⟨-, hlt⟩ := h.slotsStart_bounds
  have h0 := h.slotsStart_nonneg
  obtain ⟨hg0, hg1⟩ := slots_bounds (f := f) .general
  obtain ⟨hv0, hv1⟩ := slots_bounds (f := f) .vector
  have hgeneral : wrap 32 (f.slotsStart + f.slots .general * 8) =
      f.slotsStart + 8 * f.slots .general := by
    rw [mul_comm]
    exact wrap_i32 (by omega) (by omega)
  have hvector : wrap 32 (f.slotsStart + 8 * f.slots .general + f.slots .vector * 16) =
      f.slotsStop := by
    rw [mul_comm (f.slots .vector), slotsStop]
    exact wrap_i32 (by omega) (by omega)
  rw [← hvector, ← hgeneral]
  rfl

theorem Asserts.stackSize_params :
    (computeParamOffsets f.params f.slotsStop 0).stackSize = wrap 32 f.localsStart := by
  obtain ⟨hle, hlt⟩ := h.slotsStop_bounds
  have h0 := h.slotsStart_nonneg
  exact computeParamOffsets_stackSize _ 0 (wrap_i32 (by omega) hlt)

omit h in
theorem layoutLocals_snd :
    (layoutLocals f.locals (wrap 32 f.localsStart)).2 = wrap 32 (f.localsStart + f.localBytes) := by
  have hsum : ((sortLocals f.locals).map (·.size)).sum = f.localBytes :=
    ((List.mergeSort_perm f.locals _).map (·.size)).sum_eq
  rw [layoutLocals, layout_snd (wrap_wrap 32 _), wrap_add_wrap, hsum]

theorem Asserts.frame_eq :
    f.frame =
      { stackSize := f.frameBytes
        localOffsets := (layoutLocals f.locals (wrap 32 f.localsStart)).1
        spillSlotBase := fun
          | .general => f.slotsStart | .vector => f.slotsStart + 8 * f.slots .general
        paramOffsets := (computeParamOffsets f.params f.slotsStop 0).offsets.map
          fun offset => wrap 32 (offset + f.frameBytes)
        stackParamOffset := fun k =>
          ((computeParamOffsets f.params f.slotsStop 0).stackParamOffset k).map
            fun offset => wrap 32 (offset + f.frameBytes) } := by
  rw [frame]
  simp only [h.slotsStart_eq, h.layoutSpillSlots_eq, h.stackSize_params, layoutLocals_snd,
    wrap_alignForward]
  rfl

theorem Asserts.frameEq : FrameEq f := by
  have hoffset (i : ℕ) (hi : i < f.params.length) :
      ((computeParamOffsets f.params f.slotsStop 0).offsets[i]?).map
        (fun offset => wrap 32 (offset + f.frameBytes)) = some (wrap 32 (f.paramStart i)) := by
    rw [getElem?_offsets hi _ (by decide), Option.map_some, wrap_add_wrap, paramStart, zero_add,
      add_comm f.frameBytes]
  constructor
  · rw [h.frame_eq]
  · rw [h.frame_eq]
  · rw [h.frame_eq]
  · intro i l hl
    have hsize : ((sortLocals f.locals).map (·.size))[i]? = some l.size := by
      rw [List.getElem?_map, hl, Option.map_some]
    rw [h.frame_eq, localStart, List.map_take]
    exact (getElem?_layout hsize).trans (by rw [wrap_add_wrap])
  · intro i hi
    rw [h.frame_eq]
    exact (List.getElem?_map ..).trans (hoffset i hi)
  · intro i p k hi hp
    rw [h.frame_eq]
    simp only [List.getElem?_map, stackParamOffset_getElem? hi hp]
    exact hoffset i (List.getElem?_eq_some_iff.1 hi).1

end Stages

/-! ### The condition -/

section Areas

variable (h : f.Asserts)

include h

/-- The slot of a parameter is where the parameter is. -/
theorem Asserts.slotOffset_value {r : Reg} {i : ℕ} {p : ParamSpec} (hi : f.params[i]? = some p)
    (hp : p.isValueOf r.kind = true)
    (hr : r.index = boundary r.kind + (f.params.take i).countP (·.isValueOf r.kind)) :
    f.slotOffset r = (wrap 32 (f.paramStart i)).tdiv 8 := by
  have hidx : r.index - boundary r.kind = (f.params.take i).countP (·.isValueOf r.kind) := by omega
  rw [slotOffset, spillSlotOffset, if_neg (by omega), hidx, h.frameEq.values i p r.kind hi hp]

/-- Other slots are above those of the saved registers. -/
theorem Asserts.apart_slot {r : Reg} (hr : r ∈ f.splits)
    (hlen : boundary r.kind + f.params.countP (·.isValueOf r.kind) ≤ r.index) :
    Area.Apart ⟨8 * imm12 (f.slotOffset r), 8⟩ f.saveArea := by
  obtain ⟨hle, hlt⟩ := h.slotsStart_bounds
  have h0 := h.slotsStart_nonneg
  obtain ⟨hg0, hg1⟩ := slots_bounds (f := f) .general
  have hidx := f.index_lt r (f.splits_subset r hr)
  have hlt4096 := h.slots r hr
  have hlength : (f.frame.stackParamOffset r.kind).length =
      f.params.countP (·.isValueOf r.kind) := by
    rw [h.frame_eq, List.length_map, length_stackParamOffset]
  -- the bytes of the slot, from the base of its kind
  obtain ⟨n, hn0, hn1, hoffset⟩ : ∃ n : ℤ, 0 ≤ n ∧ n < 2 ^ 18 ∧
      spillSlotOffset boundary f.frame.stackParamOffset f.frame.spillSlotBase r =
        f.slotsStart + n := by
    rw [spillSlotOffset, if_neg (by omega), List.getElem?_eq_none (by omega), hlength]
    cases hk : r.kind with
    | general =>
      rw [hk] at hlen
      simp only [boundary, spillSlotSize, h.frameEq.general] at hlen ⊢
      refine ⟨((r.index : ℤ) - f.params.countP (·.isValueOf .general) - 33) * 8, ?_, ?_, ?_⟩
      · omega
      · omega
      · exact wrap_i32 (by omega) (by omega)
    | vector =>
      rw [hk] at hlen
      simp only [boundary, spillSlotSize, h.frameEq.vector] at hlen ⊢
      refine ⟨8 * f.slots .general +
        ((r.index : ℤ) - f.params.countP (·.isValueOf .vector) - 32) * 16, ?_, ?_, ?_⟩
      · omega
      · omega
      · rw [← add_assoc]
        exact wrap_i32 (by omega) (by omega)
  rw [slotOffset, hoffset, Int.tdiv_eq_ediv_of_nonneg (by omega)] at hlt4096
  have himm : imm12 (f.slotOffset r) = (f.slotsStart + n) / 8 := by
    rw [imm12, slotOffset, hoffset, Int.tdiv_eq_ediv_of_nonneg (by omega)]
    omega
  rw [himm]
  refine Area.Apart.symm (Area.apart_of_le ?_)
  rw [savedBytes] at hle
  simp only [saveArea, Area.stop, pushBase_eq]
  omega

theorem Asserts.slotsFree (hs : f.savedRegs ≠ []) (hne : f.frame.stackSize ≠ 0)
    (hfree : ∀ area ∈ f.bodyAreas, area.Apart f.saveArea) : f.SlotsFree := by
  have hlen : 0 < f.savedRegs.length := List.length_pos_iff.2 hs
  have hargs : 8 ∣ f.argBytes := by
    by_contra hdvd
    obtain ⟨h0, -⟩ := pushBase_bounds (f := f)
    -- the first slot starts in the area of the arguments
    refine hfree ⟨0, f.pushBase⟩ (List.mem_cons_self ..) (8 * (f.pushBase / 8)) ?_ ?_
    · rw [← pushBase_eq] at hdvd
      simp only [Area.mem_def, Area.stop]
      omega
    · simp only [Area.mem_def, Area.stop, saveArea]
      omega
  have harea : f.saveArea = ⟨f.argBytes, f.savedBytes⟩ := by
    rw [saveArea, pushBase_eq, savedBytes, Int.mul_ediv_cancel' hargs]
  rw [harea] at hfree
  refine ⟨h.frameEq.stackSize ▸ hne, hargs, fun i l hl => hfree _ ?_, fun i hi p hp => hfree _ ?_,
    fun r hr i p hi hp hidx => hfree _ ?_⟩
  · refine List.mem_cons_of_mem _ (List.mem_append_left _ (List.mem_append_right _ ?_))
    refine List.mem_of_getElem? (i := i) ?_
    rw [localAreas, List.getElem?_zipWith, h.frameEq.locals i l hl, hl]
    simp only [imm12, wrap_i32_emod _ (by decide : (4096 : ℤ) ∣ 2 ^ 32)]
  · refine List.mem_cons_of_mem _ (List.mem_append_right _ ?_)
    refine List.mem_filterMap.2 ⟨i, hi, ?_⟩
    rw [h.frameEq.params i (List.getElem?_eq_some_iff.1 hp).1, hp]
    simp only [Option.bind_eq_bind, Option.bind_some, imm12,
      wrap_i32_emod _ (by decide : (4096 : ℤ) ∣ 2 ^ 32)]
    rfl
  · refine List.mem_cons_of_mem _ (List.mem_append_left _ (List.mem_append_left _ ?_))
    refine List.mem_map.2 ⟨r, List.mem_filter.2 ⟨hr, decide_eq_true (by omega)⟩, ?_⟩
    rw [h.slotOffset_value hi hp hidx, imm12]

theorem Asserts.areas_of_slotsFree (hfree : f.SlotsFree) :
    ∀ area ∈ f.bodyAreas, area.Apart f.saveArea := by
  have harea : f.saveArea = ⟨f.argBytes, f.savedBytes⟩ := by
    rw [saveArea, pushBase_eq, savedBytes, Int.mul_ediv_cancel' hfree.args]
  intro area hin
  obtain rfl | hin := List.mem_cons.1 hin
  · refine Area.apart_of_le ?_
    rw [harea, pushBase_eq]
    simp [Area.stop]
  obtain hin | hin := List.mem_append.1 hin
  · obtain hin | hin := List.mem_append.1 hin
    · obtain ⟨r, hr, rfl⟩ := List.mem_map.1 hin
      obtain ⟨hr, hb⟩ := List.mem_filter.1 hr
      rw [decide_eq_true_iff] at hb
      -- the slot of a parameter, or one of the frame
      by_cases hlt : r.index - boundary r.kind < f.params.countP (·.isValueOf r.kind)
      · obtain ⟨i, p, hi, hp, hc⟩ := exists_isValueOf hlt
        have hidx : r.index = boundary r.kind +
            (f.params.take i).countP (·.isValueOf r.kind) := by omega
        rw [h.slotOffset_value hi hp hidx, harea]
        exact hfree.values r hr i p hi hp hidx
      · exact h.apart_slot hr (by omega)
    · obtain ⟨i, hi⟩ := List.mem_iff_getElem?.1 hin
      rw [localAreas, List.getElem?_zipWith] at hi
      cases hl : (sortLocals f.locals)[i]? with
      | none => simp [hl] at hi
      | some l =>
        rw [h.frameEq.locals i l hl, hl] at hi
        obtain rfl := Option.some.inj hi
        rw [imm12, wrap_i32_emod _ (by decide : (4096 : ℤ) ∣ 2 ^ 32), harea]
        exact hfree.locals i l hl
  · obtain ⟨i, hi, he⟩ := List.mem_filterMap.1 hin
    cases hp : f.params[i]? with
    | none => simp [hp] at he
    | some p =>
      rw [h.frameEq.params i (List.getElem?_eq_some_iff.1 hp).1, hp] at he
      obtain rfl := Option.some.inj he
      rw [imm12, wrap_i32_emod _ (by decide : (4096 : ℤ) ∣ 2 ^ 32), harea]
      exact hfree.params i hi p hp

end Areas

/-- **Callee-saved registers are kept** iff the allocation uses none of the vector ones, and when it
uses general ones, their slots are free. -/
theorem preserves_iff (h : f.Asserts) :
    Preserves f ↔ (∀ r ∈ calleeSaved .vector, ⟨.vector, r⟩ ∉ f.allocs) ∧
      ((∃ r ∈ calleeSaved .general, ⟨.general, r⟩ ∈ f.allocs) → f.SlotsFree) := by
  have hsaved : (∃ r ∈ calleeSaved .general, ⟨.general, r⟩ ∈ f.allocs) ↔ f.savedRegs ≠ [] := by
    simp only [← mem_savedRegs]
    exact ⟨fun ⟨_, hr⟩ => List.ne_nil_of_mem hr, List.exists_mem_of_ne_nil _⟩
  rw [hsaved]
  constructor
  · intro hp
    exact ⟨h.vector_free hp, fun hs =>
      h.slotsFree hs (h.stackSize_ne_zero hp hs) (h.areas_free hp hs)⟩
  · rintro ⟨hv, hg⟩
    refine h.preserves hv fun hs => ⟨?_, h.areas_of_slotsFree (hg hs)⟩
    rw [h.frameEq.stackSize]
    exact (hg hs).frame

/-- A function with one value, in the register `r`. -/
def ofReg (r : Reg) (h : r.index < 2 ^ 12) : Func where
  calls := []
  libCall := false
  locals := []
  allocs := [r]
  splits := []
  params := []
  paramLocals := []
  calls_nonneg := Func.calls_nonneg_nil
  locals_nonneg := by simp
  params_nonneg := Func.params_nonneg_nil
  index_lt := by simpa using h
  splits_subset := by simp

theorem asserts_ofReg (r : Reg) (h : r.index < 2 ^ 12) : (ofReg r h).Asserts :=
  ⟨fun hc => absurd hc (by simp [ofReg, hasCall]), fun _ hr => absurd hr (by simp [ofReg])⟩

theorem calls_spillingCall : ∀ sizes ∈ [[8, 16], [(24 : ℤ), 8]], ∀ n ∈ sizes, 0 ≤ n := by decide

theorem params_spillingCall :
    ∀ p ∈ [(⟨.i64, 8⟩ : ParamSpec), ⟨.void, 16⟩], 0 ≤ p.size := by decide

/-- Calls with arguments on the stack, two locals, values that live across the calls in three
registers and in spill slots of both kinds, and a parameter on the stack of each sort. -/
def spillingCall : Func where
  calls := [[8, 16], [24, 8]]
  libCall := false
  locals := [⟨4, 24⟩, ⟨5, 8⟩]
  allocs := [⟨.general, 19⟩, ⟨.general, 20⟩, ⟨.general, 28⟩, ⟨.general, 33⟩, ⟨.general, 34⟩,
    ⟨.vector, 0⟩, ⟨.vector, 32⟩]
  splits := [⟨.general, 33⟩, ⟨.general, 34⟩, ⟨.vector, 32⟩]
  params := [⟨.i64, 8⟩, ⟨.void, 16⟩]
  paramLocals := [1]
  calls_nonneg := calls_spillingCall
  locals_nonneg := by decide
  params_nonneg := params_spillingCall
  index_lt := by decide
  splits_subset := by decide

theorem sortLocals_spillingCall : sortLocals spillingCall.locals = spillingCall.locals :=
  List.mergeSort_of_pairwise (by decide)

theorem asserts_spillingCall : spillingCall.Asserts := by
  refine ⟨by decide, ?_⟩
  simp only [slotOffset, frame, layoutLocals, sortLocals_spillingCall]
  decide +kernel

theorem slotsFree_spillingCall : spillingCall.SlotsFree where
  frame := by decide
  args := by decide
  locals i l hl := by
    rw [sortLocals_spillingCall] at hl
    rw [localStart, sortLocals_spillingCall]
    obtain _ | _ | i := i
    · obtain rfl := Option.some.inj hl
      exact Area.Apart.symm (Area.apart_of_le (by decide))
    · obtain rfl := Option.some.inj hl
      exact Area.Apart.symm (Area.apart_of_le (by decide))
    · cases hl
  params i hi p hp := by
    obtain rfl := List.mem_singleton.1 hi
    obtain rfl := Option.some.inj hp
    exact Area.Apart.symm (Area.apart_of_le (by decide))
  values r hr i p hp hv hidx := by
    -- only the first parameter is a value
    obtain _ | _ | i := i
    · obtain rfl := Option.some.inj hp
      exact Area.Apart.symm (Area.apart_of_le (by decide))
    · obtain rfl := Option.some.inj hp
      cases hv
    · cases hp

/-- The callee-saved registers are kept. -/
theorem preserves_spillingCall : Preserves spillingCall :=
  (preserves_iff asserts_spillingCall).2 ⟨by decide, fun _ => slotsFree_spillingCall⟩

/-- `v8` is not. -/
theorem not_preserves_v8 :
    (ofReg ⟨.vector, 8⟩ (by decide)).Asserts ∧ ¬Preserves (ofReg ⟨.vector, 8⟩ (by decide)) := by
  refine ⟨asserts_ofReg _ _, fun hp => ?_⟩
  exact (asserts_ofReg _ _).vector_free hp 8 (by decide) (by decide)

end Func

end OdinSon.Codegen.Arm
