import Mathlib.Data.List.Induction
import OdinSon.Bac.Graph
import OdinSon.Lib.SwapRemove

/-!
# The arrays of a node

A node has an array of inputs and one of outputs, of which it records the number of entries and the
capacity in 16 bits (`bac/graph.odin`).  `add_input` and `add_output` reserve a larger array behind
everything else when there is no room, and copy what is there.  An output is packed into 32 bits:
22 of the user and 10 of the input at which it is used.

The arrays are here together with what they ought to hold: the bytes that were reserved for each of
them, and the entries that were added and not removed.

## Main results

* `Arrays.Sound.step_iff` : after a step from where everything is right, everything is right iff the
  step satisfies `Fits`: a larger array has less than `2 ^ 14` entries, there is room for it, and
  the user has a number below `2 ^ 22`.
* `Arrays.run_sound_iff` : the same of whole runs.
* `Arrays.exists_run_not_sound` : a node with `2 ^ 14` users writes beyond its array.
-/

namespace OdinSon.UseArrays

open MachInt

/-! ### Packed outputs -/

/-- The compact form of `Node_Output` in 32 bits. -/
def pack (out : NodeOutput) : ℕ := out.id % 2 ^ 22 + out.idx % 2 ^ 10 * 2 ^ 22

/-- The field `id` of a packed output. -/
def outputId (word : ℕ) : ℕ := word % 2 ^ 22

/-- The field `idx` of a packed output, a number with sign. -/
def outputIdx (word : ℕ) : ℤ := wrap 10 (word / 2 ^ 22 : ℕ)

/-- The word is read back as the output. -/
def Decodes (word : ℕ) (out : NodeOutput) : Prop :=
  word < 2 ^ 32 ∧ outputId word = out.id ∧ outputIdx word = out.idx

theorem outputIdx_pack (out : NodeOutput) : outputIdx (pack out) = wrap 10 out.idx := by
  have hdiv : pack out / 2 ^ 22 = out.idx % 2 ^ 10 := by
    unfold pack
    omega
  rw [outputIdx, hdiv, wrap_natCast_mod]

theorem decodes_pack_iff {out : NodeOutput} :
    Decodes (pack out) out ↔ out.id < 2 ^ 22 ∧ out.idx < 2 ^ 9 := by
  have hid : outputId (pack out) = out.id % 2 ^ 22 := by
    unfold outputId pack
    omega
  have hlt : pack out < 2 ^ 32 := by
    unfold pack
    omega
  rw [Decodes, hid, outputIdx_pack]
  constructor
  · rintro ⟨-, h, hidx⟩
    refine ⟨h ▸ Nat.mod_lt _ (by decide), ?_⟩
    have hmem := (wrap_mem (w := 10) (by decide) out.idx).2
    rw [hidx] at hmem
    exact Int.ofNat_lt.1 hmem
  · rintro ⟨h, hidx⟩
    exact ⟨hlt, Nat.mod_eq_of_lt h, wrap_natCast_of_lt (by decide) hidx⟩

theorem Decodes.eq_pack {word : ℕ} {out : NodeOutput} (h : Decodes word out) :
    word = pack out ∧ out.id < 2 ^ 22 ∧ out.idx < 2 ^ 9 := by
  obtain ⟨(id : ℕ), (idx : ℕ)⟩ := out
  obtain ⟨hlt, (hid : word % 2 ^ 22 = id), hidx⟩ := h
  have hfield : word / 2 ^ 22 < 2 ^ 10 := by omega
  have hsmall : word / 2 ^ 22 < 2 ^ 9 := by
    by_contra hge
    have hneg := wrap_natCast_of_ge (w := 10) (by decide) (not_lt.1 hge) hfield
    rw [outputIdx, hneg] at hidx
    omega
  rw [outputIdx, wrap_natCast_of_lt (by decide) hsmall] at hidx
  have hidx : word / 2 ^ 22 = idx := Int.ofNat_inj.1 hidx
  show word = id % 2 ^ 22 + idx % 2 ^ 10 * 2 ^ 22 ∧ id < 2 ^ 22 ∧ idx < 2 ^ 9
  omega

/-! ### Memory -/

/-- Write `n` words, from `base` on. -/
def overlay (mem : ℕ → ℕ) (base n : ℕ) (f : ℕ → ℕ) : ℕ → ℕ := fun a =>
  if base ≤ a ∧ a < base + n then f (a - base) else mem a

variable {mem f : ℕ → ℕ} {base n k : ℕ}

theorem overlay_at (h : k < n) : overlay mem base n f (base + k) = f k := by
  rw [overlay, if_pos ⟨by omega, by omega⟩, Nat.add_sub_cancel_left]

theorem overlay_base : overlay mem base 1 f base = f 0 := overlay_at Nat.one_pos

theorem overlay_of_notMem {a : ℕ} (h : a < base ∨ base + n ≤ a) : overlay mem base n f a = mem a :=
  if_neg (by omega)

/-- An array of a node. -/
structure Slots where
  /-- Where the array is, in words. -/
  idx : ℕ
  /-- The number of its entries. -/
  count : UInt16
  /-- Its capacity. -/
  cap : UInt16
  /-- The number of bytes that were reserved for it. -/
  reserved : ℕ

/-- The two arrays of a node in the arena. -/
structure Arrays where
  /-- The words that are in use. -/
  pos : ℕ
  /-- The size of the arena in bytes. -/
  limit : ℕ
  /-- The words. -/
  mem : ℕ → ℕ
  /-- The array of inputs. -/
  inps : Slots
  /-- The array of outputs. -/
  outs : Slots
  /-- The inputs that were added and not removed. -/
  inpLog : List NodeId
  /-- The outputs that were added and not removed. -/
  outLog : List NodeOutput

namespace Arrays

/-- The bytes that `arna.alloc` reserves for so many entries of 4 bytes.  The product is one of 16
bits.  That there is no room is not looked at. -/
def slotBytes (s : Arrays) (newCap : UInt16) : ℕ :=
  let bytes := (newCap * 4).toNat
  if 4 * s.pos + bytes ≤ s.limit then bytes else 0

/-- Reserve a larger array and copy what is there. -/
def grow (s : Arrays) (a : Slots) (newCap : UInt16) (zeroed : Bool) : Arrays × Slots :=
  let bytes := s.slotBytes newCap
  let zeros := if zeroed then overlay s.mem s.pos (bytes / 4) fun _ => 0 else s.mem
  ({ s with
      pos := s.pos + bytes / 4
      mem := overlay zeros s.pos (min (bytes / 4) a.count.toNat) fun k => zeros (a.idx + k) },
    { a with idx := s.pos, cap := newCap, reserved := bytes })

/-- `add_input_node`. -/
def addInput (s : Arrays) (inp : NodeId) : Arrays :=
  let (s, a) :=
    if s.inps.count = s.inps.cap then s.grow s.inps (s.inps.cap * 2 + 2) true else (s, s.inps)
  { s with
    mem := overlay s.mem (a.idx + a.count.toNat) 1 fun _ => inp
    inps := { a with count := a.count + 1 }
    inpLog := s.inpLog ++ [inp] }

/-- `ensure_available_output_cap`. -/
@[grind =] def ensureAvailableOutputCap (s : Arrays) (available : UInt16) : Arrays :=
  if s.outs.cap - s.outs.count < available then
    let (s, a) := s.grow s.outs (max (s.outs.cap * 2 + 2) (s.outs.cap + available)) false
    { s with outs := a }
  else s

/-- `add_output_node`: the assertion on the index, and the check that the entry exists. -/
def addOutput (s : Arrays) (out : NodeOutput) : Option Arrays := do
  let s := s.ensureAvailableOutputCap 1
  guard (out.idx < 256)
  let count := s.outs.count + 1
  guard ((count - 1).toNat < count.toNat)
  return { s with
    mem := overlay s.mem (s.outs.idx + (count - 1).toNat) 1 fun _ => pack out
    outs := { s.outs with count := count }
    outLog := s.outLog ++ [out] }

/-- The outputs that the node gets from another one in `subsume`. -/
def appendOutputs (s : Arrays) (outs : List NodeOutput) : Option Arrays := do
  guard (outs.length < 2 ^ 16)
  let available := UInt16.ofNat outs.length
  let s := s.ensureAvailableOutputCap available
  let count := s.outs.count + available
  guard (outs.length ≤ count.toNat)
  return { s with
    mem := overlay s.mem (s.outs.idx + (count.toNat - outs.length)) outs.length fun k =>
      ((outs.map pack)[k]?).getD 0
    outs := { s.outs with count := count }
    outLog := s.outLog ++ outs }

/-- The packed outputs of the node. -/
def words (s : Arrays) : List ℕ :=
  (List.range s.outs.count.toNat).map fun k => s.mem (s.outs.idx + k)

/-- `remove_output_node`: it ends the program if there is no such output. -/
def removeOutput (s : Arrays) (out : NodeOutput) : Option Arrays :=
  match s.words.idxOf? (pack out) with
  | none => none
  | some i => some { s with
      mem := overlay s.mem (s.outs.idx + i) 1 fun _ =>
        s.mem (s.outs.idx + (s.outs.count.toNat - 1))
      outs := { s.outs with count := s.outs.count - 1 }
      outLog := match s.outLog.idxOf? out with
        | some i => swapRemove s.outLog i
        | none => s.outLog }

/-- The node in `compact`: both arrays are copied with no room to spare, to `pos` in an arena with
other contents, and the nodes are renamed. -/
def compact (s : Arrays) (pos : ℕ) (mem : ℕ → ℕ) (project : NodeId → NodeId) : Option Arrays := do
  let inps := s.inps.count.toNat
  let outs := s.outs.count.toNat
  guard (4 * (pos + inps + outs) ≤ s.limit)
  let mem := overlay mem pos inps fun k => project (s.mem (s.inps.idx + k))
  let mem := overlay mem (pos + inps) outs fun k =>
    let word := s.mem (s.outs.idx + k)
    pack ⟨project (outputId word), word / 2 ^ 22⟩
  return { s with
    pos := pos + inps + outs
    mem := mem
    inps := { idx := pos, count := s.inps.count, cap := s.inps.count, reserved := 4 * inps }
    outs := { idx := pos + inps, count := s.outs.count, cap := s.outs.count, reserved := 4 * outs }
    inpLog := s.inpLog.map project
    outLog := s.outLog.map fun out => { out with id := project out.id } }

/-- The word is in one of the arrays. -/
def owns (s : Arrays) (a : ℕ) : Prop :=
  (s.inps.idx ≤ a ∧ a < s.inps.idx + s.inps.reserved / 4) ∨
    s.outs.idx ≤ a ∧ a < s.outs.idx + s.outs.reserved / 4

instance (s : Arrays) (a : ℕ) : Decidable (s.owns a) := inferInstanceAs (Decidable (_ ∨ _))

/-- Something else happens in the arena: it writes outside the arrays, and reserves and gives back
what is behind them. -/
def elsewhere (s : Arrays) (pos : ℕ) (mem : ℕ → ℕ) : Option Arrays := do
  guard (s.inps.idx + s.inps.reserved / 4 ≤ pos ∧ s.outs.idx + s.outs.reserved / 4 ≤ pos)
  return { s with pos := pos, mem := fun a => if s.owns a then s.mem a else mem a }

end Arrays

/-- What can happen to the arrays. -/
inductive Op where
  | addInput (inp : NodeId)
  | addOutput (out : NodeOutput)
  | appendOutputs (outs : List NodeOutput)
  | removeOutput (out : NodeOutput)
  | compact (pos : ℕ) (mem : ℕ → ℕ) (project : NodeId → NodeId)
  | elsewhere (pos : ℕ) (mem : ℕ → ℕ)

namespace Arrays

/-- One step, unless the program fails. -/
def step (s : Arrays) : Op → Option Arrays
  | .addInput inp => some (s.addInput inp)
  | .addOutput out => s.addOutput out
  | .appendOutputs outs => s.appendOutputs outs
  | .removeOutput out => s.removeOutput out
  | .compact pos mem project => s.compact pos mem project
  | .elsewhere pos mem => s.elsewhere pos mem

/-- A run of steps. -/
def run : Arrays → List Op → Option Arrays
  | s, [] => some s
  | s, op :: ops => (s.step op).bind fun s => s.run ops

/-- The arrays of a node that `add_raw_2` makes at word `pos` of an arena, without outputs.  It ends
the program if there is no room. -/
def create (pos limit : ℕ) (mem : ℕ → ℕ) (inps : List NodeId) (extra : Fin 4) : Option Arrays := do
  guard (inps.length < 2 ^ 16)
  let size := inps.length + extra
  guard (4 * (pos + size) ≤ limit)
  return {
    pos := pos + size
    limit := limit
    mem := overlay mem pos inps.length fun k => inps.getD k 0
    inps := {
      idx := pos
      count := UInt16.ofNat inps.length
      cap := UInt16.ofNat size
      reserved := 4 * size }
    outs := { idx := 0, count := 0, cap := 0, reserved := 0 }
    inpLog := inps
    outLog := [] }

end Arrays

/-! ### What should hold -/

/-- An array is right: enough bytes are reserved for its capacity, and its entries are counted and
read back. -/
structure Slots.Sound {α : Type} (a : Slots) (mem : ℕ → ℕ) (reads : ℕ → α → Prop) (log : List α) :
    Prop where
  room : 4 * a.cap.toNat ≤ a.reserved
  le : a.count.toNat ≤ a.cap.toNat
  count : a.count.toNat = log.length
  entry : ∀ k x, log[k]? = some x → reads (mem (a.idx + k)) x

/-- Both arrays are right, and nothing else is where they are. -/
structure Arrays.Sound (s : Arrays) : Prop where
  inps : s.inps.Sound s.mem Eq s.inpLog
  outs : s.outs.Sound s.mem Decodes s.outLog
  inps_le : s.inps.idx + s.inps.reserved / 4 ≤ s.pos
  outs_le : s.outs.idx + s.outs.reserved / 4 ≤ s.pos
  apart : s.inps.idx + s.inps.reserved / 4 ≤ s.outs.idx ∨
    s.outs.idx + s.outs.reserved / 4 ≤ s.inps.idx

namespace Slots.Sound

variable {α : Type} {a : Slots} {reads : ℕ → α → Prop} {log : List α}

theorem lt_of_get {x : α} (h : a.Sound mem reads log) (hx : log[k]? = some x) :
    k < a.cap.toNat := by
  obtain ⟨hk, -⟩ := List.getElem?_eq_some_iff.1 hx
  have hcount := h.count
  have hle := h.le
  omega

/-- What happens to the rest of the memory does not matter. -/
theorem congr {mem' : ℕ → ℕ} (h : a.Sound mem reads log)
    (hmem : ∀ k < a.reserved / 4, mem' (a.idx + k) = mem (a.idx + k)) :
    a.Sound mem' reads log where
  room := h.room
  le := h.le
  count := h.count
  entry k x hx := by
    have hk := h.lt_of_get hx
    have hroom := h.room
    rw [hmem k (by omega)]
    exact h.entry k x hx

/-- Entries behind the others. -/
theorem append {c : UInt16} {xs : List α} (h : a.Sound mem reads log)
    (hc : c.toNat = a.count.toNat + xs.length) (hle : a.count.toNat + xs.length ≤ a.cap.toNat)
    (hf : ∀ k x, xs[k]? = some x → reads (f k) x) :
    Slots.Sound { a with count := c } (overlay mem (a.idx + a.count.toNat) xs.length f) reads
      (log ++ xs) where
  room := h.room
  le := hc ▸ hle
  count := by rw [hc, List.length_append, h.count]
  entry k x hx := by
    have hcount := h.count
    rcases lt_or_ge k log.length with hk | hk
    · rw [List.getElem?_append_left hk] at hx
      rw [overlay_of_notMem (.inl (by dsimp only; omega))]
      exact h.entry k x hx
    · rw [List.getElem?_append_right hk] at hx
      obtain ⟨hlt, -⟩ := List.getElem?_eq_some_iff.1 hx
      have hplace : a.idx + k = a.idx + a.count.toNat + (k - log.length) := by omega
      dsimp only
      rw [hplace, overlay_at hlt]
      exact hf _ x hx

/-- One entry behind the others. -/
theorem push {word : ℕ} {x : α} (h : a.Sound mem reads log) (hlt : a.count.toNat < a.cap.toNat)
    (hx : reads word x) :
    Slots.Sound { a with count := a.count + 1 }
      (overlay mem (a.idx + a.count.toNat) 1 fun _ => word) reads (log ++ [x]) := by
  have hcount : (a.count + 1).toNat = a.count.toNat + [x].length := by
    have hcap := a.cap.toNat_lt
    rw [UInt16.toNat_add, UInt16.toNat_one]
    exact Nat.mod_eq_of_lt (by omega)
  refine h.append hcount hlt fun k y hy => ?_
  obtain rfl := List.mem_singleton.1 (List.mem_of_getElem? hy)
  exact hx

end Slots.Sound

namespace Arrays

variable {s t : Arrays} {newCap : UInt16} {a : Slots} {z : Bool}

/-- There is room for so many entries: their bytes can be counted in 16 bits, and the arena has
them. -/
def Room (s : Arrays) (n : ℕ) : Prop := n < 2 ^ 14 ∧ 4 * (s.pos + n) ≤ s.limit

theorem slotBytes_iff :
    4 * newCap.toNat ≤ s.slotBytes newCap ↔ newCap.toNat = 0 ∨ s.Room newCap.toNat := by
  have hbytes : (newCap * 4).toNat = newCap.toNat * 4 % 2 ^ 16 := UInt16.toNat_mul _ _
  rw [slotBytes, Room, hbytes]
  split_ifs with h
  · omega
  · omega

/-! ### Growing -/

theorem grow_mem_of_lt {x : ℕ} (h : x < s.pos) : (s.grow a newCap z).1.mem x = s.mem x := by
  have hzeros (zeros : Bool) (n : ℕ) :
      (if zeros then overlay s.mem s.pos n fun _ => 0 else s.mem) x = s.mem x := by
    cases zeros
    · rfl
    · rw [if_pos rfl]
      exact overlay_of_notMem (.inl h)
  dsimp only [grow]
  rw [overlay_of_notMem (.inl h), hzeros]

/-- The larger array has the entries. -/
theorem grow_sound {α : Type} {reads : ℕ → α → Prop} {log : List α}
    (h : a.Sound s.mem reads log) (hpos : a.idx + a.reserved / 4 ≤ s.pos)
    (hroom : 4 * newCap.toNat ≤ s.slotBytes newCap) (hle : a.count.toNat ≤ newCap.toNat) :
    (s.grow a newCap z).2.Sound (s.grow a newCap z).1.mem reads log where
  room := hroom
  le := hle
  count := h.count
  entry k x hx := by
    have hk := h.lt_of_get hx
    have hold := h.room
    obtain ⟨hlt, -⟩ := List.getElem?_eq_some_iff.1 hx
    have hcount := h.count
    have hcopied : k < min (s.slotBytes newCap / 4) a.count.toNat := by omega
    have hzeros (n : ℕ) : (if z then overlay s.mem s.pos n fun _ => 0 else s.mem) (a.idx + k) =
        s.mem (a.idx + k) := by
      cases z
      · rfl
      · rw [if_pos rfl]
        exact overlay_of_notMem (.inl (by omega))
    dsimp only [grow]
    rw [overlay_at hcopied, hzeros]
    exact h.entry k x hx

/-- A larger array for the inputs. -/
theorem Sound.growInputs (h : s.Sound) (hroom : 4 * newCap.toNat ≤ s.slotBytes newCap)
    (hle : s.inps.count.toNat ≤ newCap.toNat) :
    Sound { (s.grow s.inps newCap z).1 with inps := (s.grow s.inps newCap z).2 } where
  inps := grow_sound h.inps h.inps_le hroom hle
  outs := h.outs.congr fun k hk => grow_mem_of_lt (by have := h.outs_le; omega)
  inps_le := le_rfl
  outs_le := h.outs_le.trans (Nat.le_add_right _ _)
  apart := .inr h.outs_le

/-- A larger array for the outputs. -/
theorem Sound.growOutputs (h : s.Sound) (hroom : 4 * newCap.toNat ≤ s.slotBytes newCap)
    (hle : s.outs.count.toNat ≤ newCap.toNat) :
    Sound { (s.grow s.outs newCap z).1 with outs := (s.grow s.outs newCap z).2 } where
  inps := h.inps.congr fun k hk => grow_mem_of_lt (by have := h.inps_le; omega)
  outs := grow_sound h.outs h.outs_le hroom hle
  inps_le := h.inps_le.trans (Nat.le_add_right _ _)
  outs_le := le_rfl
  apart := .inl h.inps_le

/-! ### Inputs -/

variable {inp : NodeId}

theorem Sound.pushInput (h : s.Sound) (hlt : s.inps.count.toNat < s.inps.cap.toNat) :
    Sound { s with
      mem := overlay s.mem (s.inps.idx + s.inps.count.toNat) 1 fun _ => inp
      inps := { s.inps with count := s.inps.count + 1 }
      inpLog := s.inpLog ++ [inp] } where
  inps := h.inps.push hlt rfl
  outs := h.outs.congr fun k hk => by
    have hroom := h.inps.room
    dsimp only
    refine overlay_of_notMem ?_
    rcases h.apart with hapart | hapart
    · right
      omega
    · left
      omega
  inps_le := h.inps_le
  outs_le := h.outs_le
  apart := h.apart

/-! ### Outputs -/

variable {available : UInt16} {outs : List NodeOutput} {out : NodeOutput} {n : ℕ}

/-- When so many outputs do not fit behind the others, there is room for the larger array. -/
def FitsOuts (s : Arrays) (n : ℕ) : Prop :=
  s.outs.cap.toNat < s.outs.count.toNat + n →
    s.Room (max (2 * s.outs.cap.toNat + 2) (s.outs.cap.toNat + n))

theorem toNat_max (x y : UInt16) : (max x y).toNat = max x.toNat y.toNat := by
  rw [Nat.max_def]
  show (if x ≤ y then y else x).toNat = _
  by_cases h : x ≤ y
  · rw [if_pos h, if_pos (UInt16.le_iff_toNat_le.1 h)]
  · rw [if_neg h, if_neg (mt UInt16.le_iff_toNat_le.2 h)]

theorem newCap_toNat (c available : UInt16) : (max (c * 2 + 2) (c + available)).toNat =
    max ((2 * c.toNat + 2) % 2 ^ 16) ((c.toNat + available.toNat) % 2 ^ 16) := by
  rw [toNat_max, UInt16.toNat_add, UInt16.toNat_mul, UInt16.toNat_add]
  show max ((c.toNat * 2 % 2 ^ 16 + 2) % 2 ^ 16) _ = _
  congr 1
  omega

theorem lt_available_iff (h : s.Sound) : s.outs.cap - s.outs.count < available ↔
    s.outs.cap.toNat < s.outs.count.toNat + available.toNat := by
  have hle := h.outs.le
  rw [UInt16.lt_iff_toNat_lt, UInt16.toNat_sub_of_le _ _ (UInt16.le_iff_toNat_le.2 hle)]
  omega

@[simp] theorem ensure_outLog :
    (s.ensureAvailableOutputCap available).outLog = s.outLog := by
  unfold ensureAvailableOutputCap
  split_ifs <;> rfl

@[simp] theorem ensure_count :
    (s.ensureAvailableOutputCap available).outs.count = s.outs.count := by
  unfold ensureAvailableOutputCap
  split_ifs <;> rfl

/-- **What `ensure_available_output_cap` gives**: room for the outputs, exactly if `FitsOuts`. -/
theorem Sound.ensure (h : s.Sound) (available : UInt16) (hfits : s.FitsOuts available.toNat) :
    (s.ensureAvailableOutputCap available).Sound ∧ s.outs.count.toNat + available.toNat ≤
      (s.ensureAvailableOutputCap available).outs.cap.toNat := by
  unfold ensureAvailableOutputCap
  split_ifs with hlt
  · have hgrow := (lt_available_iff h).1 hlt
    have hcap := newCap_toNat s.outs.cap available
    have hle := h.outs.le
    obtain ⟨hmax, hroom⟩ := hfits hgrow
    have hexact : (max (s.outs.cap * 2 + 2) (s.outs.cap + available)).toNat =
        max (2 * s.outs.cap.toNat + 2) (s.outs.cap.toNat + available.toNat) := by omega
    exact ⟨h.growOutputs (slotBytes_iff.2 (.inr (hexact ▸ ⟨hmax, hroom⟩))) (by omega),
      show _ ≤ (max _ _ : UInt16).toNat by omega⟩
  · have hfree := mt (lt_available_iff h).2 hlt
    exact ⟨h, by omega⟩

theorem Sound.fitsOuts (h : s.Sound) (available : UInt16)
    (hroom : 4 * (s.ensureAvailableOutputCap available).outs.cap.toNat ≤
      (s.ensureAvailableOutputCap available).outs.reserved)
    (hle : s.outs.count.toNat + available.toNat ≤
      (s.ensureAvailableOutputCap available).outs.cap.toNat) :
    s.FitsOuts available.toNat := by
  intro hgrow
  rw [ensureAvailableOutputCap, if_pos ((lt_available_iff h).2 hgrow)] at hroom hle
  have hcap := newCap_toNat s.outs.cap available
  have hold := h.outs.le
  have hle : s.outs.count.toNat + available.toNat ≤
      (max (s.outs.cap * 2 + 2) (s.outs.cap + available)).toNat := hle
  rcases slotBytes_iff.1 hroom with hzero | ⟨hlt, hlimit⟩
  · omega
  · have hexact : (max (s.outs.cap * 2 + 2) (s.outs.cap + available)).toNat =
        max (2 * s.outs.cap.toNat + 2) (s.outs.cap.toNat + available.toNat) := by omega
    exact hexact ▸ ⟨hlt, hlimit⟩

theorem Sound.pushOutputs {c : UInt16} (h : s.Sound) (outs : List NodeOutput)
    (hc : c.toNat = s.outs.count.toNat + outs.length)
    (hle : s.outs.count.toNat + outs.length ≤ s.outs.cap.toNat)
    (hf : ∀ k out, outs[k]? = some out → Decodes (f k) out) :
    Sound { s with
      mem := overlay s.mem (s.outs.idx + s.outs.count.toNat) outs.length f
      outs := { s.outs with count := c }
      outLog := s.outLog ++ outs } where
  inps := h.inps.congr fun k hk => by
    have hroom := h.outs.room
    dsimp only
    refine overlay_of_notMem ?_
    rcases h.apart with hapart | hapart
    · left
      omega
    · right
      omega
  outs := h.outs.append hc hle hf
  inps_le := h.inps_le
  outs_le := h.outs_le
  apart := h.apart

/-! ### One step -/

/-- The condition on a step: a larger array fits, and the numbers of the users fit into the packed
outputs. -/
def Fits (s : Arrays) : Op → Prop
  | .addInput _ => s.inps.count = s.inps.cap → s.Room (2 * s.inps.cap.toNat + 2)
  | .addOutput out => s.FitsOuts 1 ∧ out.id < 2 ^ 22
  | .appendOutputs outs => s.FitsOuts outs.length ∧ ∀ out ∈ outs, out.id < 2 ^ 22 ∧ out.idx < 2 ^ 9
  | .removeOutput out => out.id < 2 ^ 22 ∧ out.idx < 2 ^ 9
  | .compact _ _ project => ∀ out ∈ s.outLog, project out.id < 2 ^ 22
  | .elsewhere _ _ => True

theorem addInput_iff (h : s.Sound) : (s.addInput inp).Sound ↔ s.Fits (.addInput inp) := by
  have hle := h.inps.le
  have hcap : (s.inps.cap * 2 + 2).toNat = (2 * s.inps.cap.toNat + 2) % 2 ^ 16 := by
    rw [UInt16.toNat_add, UInt16.toNat_mul]
    show (s.inps.cap.toNat * 2 % 2 ^ 16 + 2) % 2 ^ 16 = _
    omega
  constructor
  · intro hs hfull
    have hroom := hs.inps.room
    have hlen := hs.inps.count
    have hfits := hs.inps.le
    have hold := h.inps.count
    rw [addInput, if_pos hfull] at hroom hlen hfits
    dsimp only [grow] at hroom hlen hfits
    rw [List.length_append, List.length_singleton] at hlen
    rcases slotBytes_iff.1 hroom with hzero | ⟨hlt, hlimit⟩
    · omega
    · rw [hfull] at hold
      have hexact : (s.inps.cap * 2 + 2).toNat = 2 * s.inps.cap.toNat + 2 := by omega
      exact hexact ▸ ⟨hlt, hlimit⟩
  · intro hfits
    unfold addInput
    split_ifs with hfull
    · obtain ⟨hlt, hlimit⟩ := hfits hfull
      have hexact : (s.inps.cap * 2 + 2).toNat = 2 * s.inps.cap.toNat + 2 := by omega
      refine Sound.pushInput
        (h.growInputs (slotBytes_iff.2 (.inr (hexact ▸ ⟨hlt, hlimit⟩))) (by omega)) ?_
      show s.inps.count.toNat < (s.inps.cap * 2 + 2).toNat
      omega
    · have hne : s.inps.count.toNat ≠ s.inps.cap.toNat := fun he => hfull (UInt16.toNat_inj.1 he)
      exact h.pushInput (by omega)

theorem addOutput_eq_some (ht : s.addOutput out = some t) :
    out.idx < 256 ∧
      t = { s.ensureAvailableOutputCap 1 with
        mem := overlay (s.ensureAvailableOutputCap 1).mem
          ((s.ensureAvailableOutputCap 1).outs.idx + s.outs.count.toNat) 1 fun _ => pack out
        outs := { (s.ensureAvailableOutputCap 1).outs with count := s.outs.count + 1 }
        outLog := s.outLog ++ [out] } := by
  unfold addOutput at ht
  simp only [Option.bind_eq_bind, Option.bind_eq_some_iff, Option.guard_eq_some', Option.pure_def,
    ensure_count, ensure_outLog, UInt16.add_sub_cancel] at ht
  obtain ⟨-, hidx, -, -, ht⟩ := ht
  exact ⟨hidx, (Option.some.inj ht).symm⟩

theorem addOutput_iff (h : s.Sound) (ht : s.addOutput out = some t) :
    t.Sound ↔ s.Fits (.addOutput out) := by
  obtain ⟨hidx, rfl⟩ := addOutput_eq_some ht
  have hold := h.outs.count
  constructor
  · intro hs
    have hcount := hs.outs.count
    have hle := hs.outs.le
    rw [List.length_append, List.length_singleton] at hcount
    refine ⟨h.fitsOuts 1 hs.outs.room ?_, ?_⟩
    · rw [hold]
      exact hcount ▸ hle
    · have hentry := hs.outs.entry s.outLog.length out (by simp)
      dsimp only at hentry
      rw [← hold, overlay_base] at hentry
      exact (decodes_pack_iff.1 hentry).1
  · rintro ⟨hfits, hid⟩
    obtain ⟨hs, hle⟩ := h.ensure 1 hfits
    have hlt := (s.ensureAvailableOutputCap 1).outs.cap.toNat_lt
    rw [UInt16.toNat_one] at hle
    have hcount : (s.outs.count + 1).toNat = s.outs.count.toNat + 1 := by
      rw [UInt16.toNat_add, UInt16.toNat_one]
      exact Nat.mod_eq_of_lt (by omega)
    have hpush := hs.pushOutputs [out] (c := s.outs.count + 1)
      (f := fun _ => pack out) (by rw [ensure_count]; exact hcount)
      (by rw [ensure_count]; exact hle) (fun k x hx => by
        obtain rfl := List.mem_singleton.1 (List.mem_of_getElem? hx)
        exact decodes_pack_iff.2 ⟨hid, by omega⟩)
    rwa [ensure_count, ensure_outLog] at hpush

theorem appendOutputs_eq_some (ht : s.appendOutputs outs = some t) :
    ∃ available : UInt16, available.toNat = outs.length ∧
      outs.length ≤ (s.outs.count + available).toNat ∧
      t = { s.ensureAvailableOutputCap available with
        mem := overlay (s.ensureAvailableOutputCap available).mem
          ((s.ensureAvailableOutputCap available).outs.idx +
            ((s.outs.count + available).toNat - outs.length)) outs.length fun k =>
              ((outs.map pack)[k]?).getD 0
        outs := { (s.ensureAvailableOutputCap available).outs with
          count := s.outs.count + available }
        outLog := s.outLog ++ outs } := by
  unfold appendOutputs at ht
  simp only [Option.bind_eq_bind, Option.bind_eq_some_iff, Option.guard_eq_some', Option.pure_def,
    ensure_count, ensure_outLog] at ht
  obtain ⟨-, hlen, -, hle, ht⟩ := ht
  exact ⟨_, UInt16.toNat_ofNat_of_lt' hlen, hle, (Option.some.inj ht).symm⟩

theorem getD_pack {k : ℕ} {x : NodeOutput} (hx : outs[k]? = some x) :
    ((outs.map pack)[k]?).getD 0 = pack x := by
  rw [List.getElem?_map, hx, Option.map_some, Option.getD_some]

theorem appendOutputs_iff (h : s.Sound) (ht : s.appendOutputs outs = some t) :
    t.Sound ↔ s.Fits (.appendOutputs outs) := by
  obtain ⟨available, hlen, hcount, rfl⟩ := appendOutputs_eq_some ht
  have hold := h.outs.count
  have hwrap : (s.outs.count + available).toNat = s.outs.count.toNat + outs.length := by
    have hlt := s.outs.count.toNat_lt
    have hlt' := available.toNat_lt
    rw [UInt16.toNat_add] at hcount ⊢
    omega
  have hplace : (s.outs.count + available).toNat - outs.length = s.outs.count.toNat := by omega
  constructor
  · intro hs
    have hle := hs.outs.le
    refine ⟨hlen ▸ h.fitsOuts available hs.outs.room ?_, fun out hout => ?_⟩
    · rw [hlen, ← hwrap]
      exact hle
    · obtain ⟨k, hk⟩ := List.mem_iff_getElem?.1 hout
      obtain ⟨hlt, -⟩ := List.getElem?_eq_some_iff.1 hk
      have hentry := hs.outs.entry (s.outLog.length + k) out (by
        rw [List.getElem?_append_right (by omega), Nat.add_sub_cancel_left, hk])
      dsimp only at hentry
      rw [hplace, ← hold, ← Nat.add_assoc, overlay_at hlt, getD_pack hk] at hentry
      exact decodes_pack_iff.1 hentry
  · rintro ⟨hfits, hids⟩
    obtain ⟨hs, hle⟩ := h.ensure available (hlen ▸ hfits)
    have hpush := hs.pushOutputs outs (c := s.outs.count + available)
      (f := fun k => ((outs.map pack)[k]?).getD 0)
      (by rw [ensure_count]; exact hwrap) (by rw [ensure_count, ← hlen]; exact hle)
      (fun k x hx => by
        rw [getD_pack hx]
        exact decodes_pack_iff.2 (hids x (List.mem_of_getElem? hx)))
    rwa [ensure_count, ensure_outLog, ← hplace] at hpush

theorem Sound.words_eq (h : s.Sound) : s.words = s.outLog.map pack := by
  have hcount := h.outs.count
  refine List.ext_getElem? fun k => ?_
  rw [words, List.getElem?_map, List.getElem?_map]
  rcases lt_or_ge k s.outLog.length with hk | hk
  · have hentry := h.outs.entry k _ (List.getElem?_eq_getElem hk)
    rw [List.getElem?_range (by omega), List.getElem?_eq_getElem hk, Option.map_some,
      Option.map_some, hentry.eq_pack.1]
  · rw [List.getElem?_eq_none hk, List.getElem?_eq_none (by rw [List.length_range]; omega),
      Option.map_none, Option.map_none]

theorem Sound.valid (h : s.Sound) (hout : out ∈ s.outLog) : out.id < 2 ^ 22 ∧ out.idx < 2 ^ 9 := by
  obtain ⟨k, hk⟩ := List.mem_iff_getElem?.1 hout
  exact (h.outs.entry k out hk).eq_pack.2

theorem pack_inj {x y : NodeOutput} (hx : x.id < 2 ^ 22 ∧ x.idx < 2 ^ 9)
    (hy : y.id < 2 ^ 22 ∧ y.idx < 2 ^ 9) (h : pack x = pack y) : x = y := by
  obtain ⟨-, hid, hidx⟩ := decodes_pack_iff.2 hx
  obtain ⟨-, hid', hidx'⟩ := decodes_pack_iff.2 hy
  rw [h] at hid hidx
  cases x
  cases y
  rw [NodeOutput.mk.injEq]
  exact ⟨hid.symm.trans hid', Int.ofNat_inj.1 (hidx.symm.trans hidx')⟩

theorem getElem?_swapRemove {α : Type} {l : List α} {i k : ℕ} (hk : k + 1 < l.length) :
    (swapRemove l i)[k]? = if k = i then l[l.length - 1]? else l[k]? := by
  have hne : l ≠ [] := List.ne_nil_of_length_pos (by omega)
  rw [swapRemove, List.getLast?_eq_some_getLast hne]
  dsimp only
  rw [List.getElem?_dropLast, List.length_set, if_pos (by omega), List.getElem?_set,
    List.getLast_eq_getElem, List.getElem?_eq_getElem (show l.length - 1 < l.length by omega)]
  split_ifs with h1 h2 h3
  all_goals first | rfl | omega

theorem length_swapRemove {α : Type} (l : List α) (i : ℕ) :
    (swapRemove l i).length = l.length - 1 := by
  rcases List.eq_nil_or_concat l with rfl | ⟨l', z, rfl⟩
  · rfl
  · rw [swapRemove, List.concat_eq_append, List.getLast?_concat, List.length_dropLast,
      List.length_set]

theorem removeOutput_iff (h : s.Sound) (ht : s.removeOutput out = some t) :
    t.Sound ↔ s.Fits (.removeOutput out) := by
  have hcount := h.outs.count
  unfold removeOutput at ht
  split at ht
  · exact absurd ht.symm (Option.some_ne_none t)
  next i hi =>
  obtain rfl := Option.some.inj ht
  rw [h.words_eq] at hi
  obtain ⟨hlen, hword, hbefore⟩ := List.idxOf?_eq_some_iff.1 hi
  rw [List.length_map] at hlen
  rw [List.getElem_map] at hword
  have hpred : (s.outs.count - 1).toNat = s.outLog.length - 1 := by
    rw [UInt16.toNat_sub_of_le _ _ (UInt16.le_iff_toNat_le.2 (by rw [UInt16.toNat_one]; omega)),
      UInt16.toNat_one, hcount]
  constructor
  · intro hs
    -- an output that does not fit is not in the log, yet the count goes down
    by_contra hnot
    have hnone : s.outLog.idxOf? out = none :=
      List.idxOf?_eq_none_iff.2 fun hin => hnot (h.valid hin)
    have hlog := hs.outs.count
    simp only [hnone] at hlog
    omega
  · intro hfits
    have hin := List.getElem_mem hlen
    -- packing is injective on outputs that fit, so the entry is this one
    have hat : s.outLog[i] = out := pack_inj (h.valid hin) hfits hword
    have hidx : s.outLog.idxOf? out = some i := by
      refine List.idxOf?_eq_some_iff.2 ⟨hlen, hat, fun j hj he => ?_⟩
      have hne := hbefore j hj
      rw [List.getElem_map, he] at hne
      exact hne rfl
    have hroom := h.outs.room
    have hle := h.outs.le
    simp only [hidx]
    refine ⟨h.inps.congr fun k hk => ?_, ⟨hroom, ?_, ?_, fun k x hx => ?_⟩, h.inps_le, h.outs_le,
      h.apart⟩
    · dsimp only
      refine overlay_of_notMem ?_
      rcases h.apart with hapart | hapart
      · left
        omega
      · right
        omega
    · dsimp only
      omega
    · dsimp only
      rw [hpred, length_swapRemove]
    · obtain ⟨hk, -⟩ := List.getElem?_eq_some_iff.1 hx
      rw [length_swapRemove] at hk
      rw [getElem?_swapRemove (by omega)] at hx
      dsimp only
      split_ifs at hx with hki
      · rw [hki, overlay_base, hcount]
        exact h.outs.entry _ x hx
      · rw [overlay_of_notMem (by omega)]
        exact h.outs.entry k x hx

theorem compact_iff {pos : ℕ} {mem : ℕ → ℕ} {project : NodeId → NodeId} (h : s.Sound)
    (ht : s.compact pos mem project = some t) :
    t.Sound ↔ s.Fits (.compact pos mem project) := by
  have hinps := h.inps.count
  have houts := h.outs.count
  unfold compact at ht
  simp only [Option.bind_eq_bind, Option.bind_eq_some_iff, Option.guard_eq_some',
    Option.pure_def] at ht
  obtain ⟨-, -, ht⟩ := ht
  obtain rfl := Option.some.inj ht
  -- what the outputs are after the second loop
  have hword {k : ℕ} {out : NodeOutput} (hk : s.outLog[k]? = some out) :
      pack ⟨project (outputId (s.mem (s.outs.idx + k))), s.mem (s.outs.idx + k) / 2 ^ 22⟩ =
        pack { out with id := project out.id } := by
    have hentry := h.outs.entry k out hk
    obtain ⟨hw, -, hidx⟩ := hentry.eq_pack
    have hdiv : s.mem (s.outs.idx + k) / 2 ^ 22 = out.idx := by
      rw [hw, pack]
      omega
    rw [hentry.2.1, hdiv]
  constructor
  · intro hs out hout
    obtain ⟨k, hk⟩ := List.mem_iff_getElem?.1 hout
    obtain ⟨hlt, -⟩ := List.getElem?_eq_some_iff.1 hk
    have hentry := hs.outs.entry k { out with id := project out.id } (by
      rw [List.getElem?_map, hk]
      rfl)
    dsimp only at hentry
    rw [overlay_at (by omega), hword hk] at hentry
    exact (decodes_pack_iff.1 hentry).1
  · intro hfits
    refine ⟨⟨le_rfl, le_rfl, ?_, fun k x hx => ?_⟩, ⟨le_rfl, le_rfl, ?_, fun k x hx => ?_⟩,
      ?_, ?_, ?_⟩
    · rw [List.length_map]
      exact hinps
    · rw [List.getElem?_map, Option.map_eq_some_iff] at hx
      obtain ⟨inp, hinp, rfl⟩ := hx
      obtain ⟨hlt, -⟩ := List.getElem?_eq_some_iff.1 hinp
      dsimp only
      rw [overlay_of_notMem (.inl (by omega)), overlay_at (by omega), h.inps.entry k inp hinp]
    · rw [List.length_map]
      exact houts
    · rw [List.getElem?_map, Option.map_eq_some_iff] at hx
      obtain ⟨out, hout, rfl⟩ := hx
      obtain ⟨hlt, -⟩ := List.getElem?_eq_some_iff.1 hout
      have hmem := List.mem_of_getElem? hout
      dsimp only
      rw [overlay_at (by omega), hword hout]
      exact decodes_pack_iff.2 ⟨hfits out hmem, (h.valid hmem).2⟩
    · dsimp only
      omega
    · dsimp only
      omega
    · left
      dsimp only
      omega

theorem elsewhere_sound {pos : ℕ} {mem : ℕ → ℕ} (h : s.Sound)
    (ht : s.elsewhere pos mem = some t) : t.Sound := by
  unfold elsewhere at ht
  simp only [Option.bind_eq_bind, Option.bind_eq_some_iff, Option.guard_eq_some',
    Option.pure_def] at ht
  obtain ⟨-, ⟨hinps, houts⟩, ht⟩ := ht
  obtain rfl := Option.some.inj ht
  exact ⟨h.inps.congr fun k hk => if_pos (.inl ⟨by omega, by omega⟩),
    h.outs.congr fun k hk => if_pos (.inr ⟨by omega, by omega⟩), hinps, houts, h.apart⟩

/-- **A step from where everything is right leaves it so iff it fits.** -/
theorem Sound.step_iff (h : s.Sound) {op : Op} (ht : s.step op = some t) :
    t.Sound ↔ s.Fits op := by
  cases op with
  | addInput inp =>
    obtain rfl := Option.some.inj ht
    exact addInput_iff h
  | addOutput out => exact addOutput_iff h ht
  | appendOutputs outs => exact appendOutputs_iff h ht
  | removeOutput out => exact removeOutput_iff h ht
  | compact pos mem project => exact compact_iff h ht
  | elsewhere pos mem => exact iff_of_true (elsewhere_sound h ht) trivial

/-! ### Runs -/

variable {ops : List Op}

theorem run_append (s : Arrays) (ops : List Op) (op : Op) :
    s.run (ops ++ [op]) = (s.run ops).bind fun t => t.step op := by
  induction ops generalizing s with
  | nil =>
    show (s.step op).bind (fun t => some t) = s.step op
    cases s.step op
    · rfl
    · rfl
  | cons op' ops ih =>
    show (s.step op').bind (fun t => t.run (ops ++ [op])) = _
    simp only [ih]
    exact (Option.bind_assoc _ _ _).symm

/-- Everything is right as long as the steps fit. -/
theorem Sound.run (h : s.Sound) {pre : List Op}
    (hfits : ∀ pre' op, pre' ++ [op] <+: pre → ∀ t t', s.run pre' = some t →
      t.step op = some t' → t.Fits op) : ∀ t, s.run pre = some t → t.Sound := by
  induction pre using List.reverseRecOn with
  | nil =>
    intro t ht
    obtain rfl := Option.some.inj ht
    exact h
  | append_singleton pre op ih =>
    intro t ht
    rw [run_append, Option.bind_eq_some_iff] at ht
    obtain ⟨t', hrun, hstep⟩ := ht
    have hsound :=
      ih (fun pre' op' hp => hfits pre' op' (hp.trans (List.prefix_append _ _))) t' hrun
    exact (hsound.step_iff hstep).2 (hfits pre op List.prefix_rfl t' t hrun hstep)

theorem create_sound_iff {pos limit : ℕ} {mem : ℕ → ℕ} {inps : List NodeId} {extra : Fin 4}
    (hs : create pos limit mem inps extra = some s) :
    s.Sound ↔ inps.length + extra < 2 ^ 16 := by
  unfold create at hs
  simp only [Option.bind_eq_bind, Option.bind_eq_some_iff, Option.guard_eq_some',
    Option.pure_def] at hs
  obtain ⟨-, hlen, -, -, hs⟩ := hs
  obtain rfl := Option.some.inj hs
  have hextra := extra.isLt
  have hcount : (UInt16.ofNat inps.length).toNat = inps.length := UInt16.toNat_ofNat_of_lt' hlen
  have hcap : (UInt16.ofNat (inps.length + extra)).toNat = (inps.length + extra) % 2 ^ 16 :=
    UInt16.toNat_ofNat'
  constructor
  · intro h
    have hle := h.inps.le
    dsimp only at hle
    omega
  · intro h
    refine ⟨⟨?_, ?_, hcount, fun k x hx => ?_⟩, ⟨le_rfl, le_rfl, rfl, fun k x hx => ?_⟩, ?_, ?_, ?_⟩
    · dsimp only
      omega
    · dsimp only
      omega
    · obtain ⟨hk, -⟩ := List.getElem?_eq_some_iff.1 hx
      dsimp only
      rw [overlay_at hk, List.getD_eq_getElem?_getD, hx, Option.getD_some]
    · exact absurd hx.symm (Option.some_ne_none x)
    · dsimp only
      omega
    · dsimp only
      omega
    · right
      dsimp only
      omega

/-- **The arrays of a node are right in a whole run iff every step fits**, and the capacity for the
inputs that the node is made with is one of 16 bits. -/
theorem run_sound_iff {pos limit : ℕ} {mem : ℕ → ℕ} {inps : List NodeId} {extra : Fin 4}
    (hs : create pos limit mem inps extra = some s) :
    (∀ pre, pre <+: ops → ∀ t, s.run pre = some t → t.Sound) ↔
      inps.length + extra < 2 ^ 16 ∧
        ∀ pre op, pre ++ [op] <+: ops → ∀ t t', s.run pre = some t → t.step op = some t' →
          t.Fits op := by
  constructor
  · intro h
    refine ⟨(create_sound_iff hs).1 (h [] List.nil_prefix s rfl), ?_⟩
    intro pre op hpre t t' hrun hstep
    have ht := h pre ((List.prefix_append pre [op]).trans hpre) t hrun
    have ht' := h _ hpre t' (by rw [run_append, hrun]; exact hstep)
    exact (ht.step_iff hstep).1 ht'
  · rintro ⟨hlen, hfits⟩ pre hpre
    exact ((create_sound_iff hs).2 hlen).run fun pre' op hp => hfits pre' op (hp.trans hpre)

/-- A node that gets a few uses. -/
theorem run_sound_iff_fewUses : ∃ s, create 8 (2 ^ 16) (fun _ => 0) [1] 0 = some s ∧
    ((∀ pre, pre <+: [Op.addOutput ⟨5, 0⟩, .addInput 2] → ∀ t, s.run pre = some t → t.Sound) ↔
      [1].length + (0 : Fin 4) < 2 ^ 16 ∧
        ∀ pre op, pre ++ [op] <+: [Op.addOutput ⟨5, 0⟩, .addInput 2] →
          ∀ t t', s.run pre = some t → t.step op = some t' → t.Fits op) :=
  ⟨_, rfl, run_sound_iff (show create 8 (2 ^ 16) (fun _ => 0) [1] 0 = some _ from rfl)⟩

/-! ### Too many users -/

/-- So many users, one after another. -/
def uses (n : ℕ) : List Op := (List.range n).map fun i => .addOutput ⟨i + 1, 0⟩

theorem uses_succ (n : ℕ) : uses (n + 1) = uses n ++ [.addOutput ⟨n + 1, 0⟩] := by
  rw [uses, List.range_succ, List.map_append]
  rfl

/-- As long as everything is right the capacity is below `2 ^ 14`. -/
theorem FitsOuts.cap_lt (h : s.Sound) (hfits : s.FitsOuts 1) (hcap : s.outs.cap.toNat < 2 ^ 14) :
    (s.ensureAvailableOutputCap 1).outs.cap.toNat < 2 ^ 14 := by
  unfold ensureAvailableOutputCap
  split_ifs with hlt
  · obtain ⟨hmax, -⟩ := hfits ((lt_available_iff h).1 hlt)
    show (max (s.outs.cap * 2 + 2) (s.outs.cap + 1)).toNat < 2 ^ 14
    rw [newCap_toNat, UInt16.toNat_one]
    omega
  · exact hcap

theorem addOutput_isSome (out : NodeOutput) (hidx : out.idx < 256)
    (hcount : s.outs.count.toNat < 2 ^ 14) :
    ∃ t, s.addOutput out = some t := by
  have hlt : s.outs.count.toNat < (s.outs.count + 1).toNat := by
    rw [UInt16.toNat_add, UInt16.toNat_one]
    omega
  unfold addOutput
  simp only [ensure_count, ensure_outLog, UInt16.add_sub_cancel, guard, if_pos hidx, if_pos hlt]
  exact ⟨_, rfl⟩

/-- **A node with `2 ^ 14` users is not right**: its capacity is one of less. -/
theorem exists_run_not_sound : ¬ ∀ (pos limit : ℕ) (mem : ℕ → ℕ) (inps : List NodeId)
    (extra : Fin 4) (ops : List Op) (s t : Arrays),
    create pos limit mem inps extra = some s → s.run ops = some t → t.Sound := by
  intro hall
  obtain ⟨s, hs⟩ : ∃ s, create 8 (2 ^ 26) (fun _ => 0) [] 0 = some s := ⟨_, rfl⟩
  have hruns : ∀ n ≤ 2 ^ 14, ∃ t, s.run (uses n) = some t ∧ t.outs.count.toNat = n ∧
      t.outs.cap.toNat < 2 ^ 14 := by
    intro n
    induction n with
    | zero =>
      intro _
      obtain rfl := Option.some.inj hs
      exact ⟨_, rfl, rfl, by decide⟩
    | succ n ih =>
      intro hn
      obtain ⟨t, hrun, hcount, hcap⟩ := ih (by omega)
      obtain ⟨t', hstep⟩ :=
        t.addOutput_isSome ⟨n + 1, 0⟩ (by dsimp only; decide) (by omega)
      have hrun' : s.run (uses (n + 1)) = some t' := by
        rw [uses_succ, run_append, hrun]
        exact hstep
      have ht := hall _ _ _ _ _ _ s t hs hrun
      have ht' := hall _ _ _ _ _ _ s t' hs hrun'
      have hfits := ((addOutput_iff ht hstep).1 ht').1
      obtain ⟨-, rfl⟩ := addOutput_eq_some hstep
      refine ⟨_, hrun', ?_, hfits.cap_lt ht hcap⟩
      show (t.outs.count + 1).toNat = n + 1
      rw [UInt16.toNat_add, UInt16.toNat_one]
      omega
  obtain ⟨t, hrun, hcount, hcap⟩ := hruns (2 ^ 14) le_rfl
  have hle := (hall _ _ _ _ _ _ s t hs hrun).outs.le
  omega

end Arrays

end OdinSon.UseArrays
